import K42.Sync.RequestCountCalls

/-!
# The requests of a region

A region counts the calls that use its bounds and its mappings. A fault enters the count before
it maps a page and leaves it afterwards; `truncate` and `forkCopy` stop the requests while they
work, and `destroy` shuts them down before it unmaps the region.

Each atomic operation of the count is a step, and so is what a call does between two of its
operations on the count.
-/

open Function (update update_cases update_of_ne update_self)

namespace K42

open Sync

namespace RegionDefault

/-- The address of a fault, and what the process and the access mode say to it. -/
structure Fault where
  vaddr : ℕ
  hasUserMode : Bool
  verifyAccess : Bool
deriving DecidableEq

/-- What a call returns. -/
inductive Result
  | ok | covers (rc : Bool) | noUserMode | EFAULT | addressOutOfRange | EACCES | EBUSY | EINVAL
deriving DecidableEq

/-- The calls that use the count; `truncate` is that of a region of small pages. -/
inductive Call
  | coverVaddr (vaddr : ℕ)
  | handleFault (f : Fault)
  | forkCopy
  | truncate (start size : ℕ)
  | destroy
deriving DecidableEq

/-- Where a thread is in the calls of the region; while an operation of the count is under way,
where it has been called. -/
inductive Place
  | idle
  | coverVaddr (vaddr : ℕ)               -- in `enter`
  | covered (rc : Bool)                  -- in `leave`
  | handleFault (f : Fault)              -- in `enter`
  | mapPage (f : Fault)
  | faulted (rc : Result)                -- in `leave`
  | forkCopy                             -- in `stop`
  | copying
  | truncate (start size : ℕ)            -- in `stop`
  | restarting (rc : Option Result)      -- in `restart`; without a result `destroy` is called
  | destroy                              -- in `shutdown`
  | destroying
deriving DecidableEq

end RegionDefault

/-- `destroyed` says that a `destroy` has passed `requests.shutdown`. -/
structure RegionDefault (τ : Type) where
  requests : Sync.RequestCountWithStop τ
  regionVaddr : ℕ
  regionSize : ℕ
  attachSize : ℕ
  fileOffset : ℕ
  place : τ → RegionDefault.Place
  result : τ → RegionDefault.Result
  destroyed : Bool

namespace RegionDefault

variable {τ : Type} [DecidableEq τ]

def init (regionVaddr regionSize attachSize fileOffset : ℕ) : RegionDefault τ where
  requests := .init
  regionVaddr := regionVaddr
  regionSize := regionSize
  attachSize := attachSize
  fileOffset := fileOffset
  place := fun _ => .idle
  result := fun _ => .ok
  destroyed := false

section Steps

variable (s : RegionDefault τ)

def InRange (vaddr : ℕ) : Prop := ¬ (vaddr < s.regionVaddr ∨ s.regionVaddr + s.regionSize ≤ vaddr)

instance (vaddr : ℕ) : Decidable (s.InRange vaddr) := inferInstanceAs (Decidable (¬ _))

/-- What `handleFaultInternal` returns without mapping a page. -/
def refuses (f : Fault) : Option Result :=
  if ¬ f.hasUserMode then some .noUserMode
  else if ¬ s.InRange f.vaddr then
    if f.vaddr < s.regionVaddr ∨ s.regionVaddr + s.attachSize ≤ f.vaddr then
      some .addressOutOfRange
    else some .EFAULT
  else if ¬ f.verifyAccess then some .EACCES
  else none

def goto (t : τ) (p : Place) : RegionDefault τ :=
  { s with place := update s.place t p }

def ret (t : τ) (rc : Result) : RegionDefault τ :=
  { s.goto t .idle with result := update s.result t rc }

/-- An operation of the count, after which the thread is at `p`. -/
def request (a : Sync.RequestCountWithStop.Action τ) (t : τ) (p : Place) : RegionDefault τ :=
  { s.goto t p with requests := s.requests.step a }

/-- The bounds after a `truncate` of an end of the region. -/
def shrink (start size : ℕ) : RegionDefault τ :=
  if s.regionVaddr = start then
    { s with
      regionVaddr := s.regionVaddr + size
      regionSize := s.regionSize - size
      fileOffset := s.fileOffset + size }
  else { s with regionSize := s.regionSize - size }

/-- `truncate` between its `stop` and its `restart`. -/
def truncateStopped (t : τ) (start size : ℕ) : RegionDefault τ :=
  if s.regionVaddr ≠ start ∧ s.regionVaddr + s.regionSize ≠ start + size then
    s.request (.restart t) t (.restarting (some .EINVAL))
  else if s.regionVaddr = start ∧ s.regionSize = size then
    s.request (.restart t) t (.restarting none)
  else (s.shrink start size).request (.restart t) t (.restarting (some .ok))

/-- The step of a thread whose operation of the count has returned. -/
def next (t : τ) : RegionDefault τ :=
  match s.place t with
  | .idle => s
  | .coverVaddr vaddr => s.request (.leave t) t (.covered (s.InRange vaddr))
  | .covered rc => s.ret t (.covers rc)
  | .handleFault f =>
    if s.requests.result t < 0 then s.ret t .EFAULT
    else match s.refuses f with
      | some rc => s.request (.leave t) t (.faulted rc)
      | none => s.goto t (.mapPage f)
  | .mapPage _ => s.request (.leave t) t (.faulted .ok)
  | .faulted rc => s.ret t rc
  | .forkCopy => if s.requests.result t < 0 then s.ret t .EBUSY else s.goto t .copying
  | .copying => s.request (.restart t) t (.restarting (some .ok))
  | .truncate start size =>
    if s.requests.result t < 0 then s.ret t .EBUSY else s.truncateStopped t start size
  | .restarting (some rc) => s.ret t rc
  | .restarting none => s.request (.shutdown t) t .destroy
  | .destroy =>
    if s.requests.result t ≠ 0 then s.ret t .ok
    else { s.goto t .destroying with destroyed := true }
  | .destroying => s.ret t .ok

/-- No operation of the count is under way. -/
def AtRest (t : τ) : Prop :=
  s.requests.pc t = .idle ∨ s.requests.pc t = .inside ∨ s.requests.pc t = .stopped

instance (t : τ) : Decidable (s.AtRest t) := inferInstanceAs (Decidable (_ ∨ _))

def advance (t : τ) : RegionDefault τ :=
  if s.AtRest t then s.next t else { s with requests := s.requests.step (.advance t) }

/-- The call of a region begins with an operation of the count. -/
def call (t : τ) : Call → RegionDefault τ
  | .coverVaddr vaddr => s.request (.enter t) t (.coverVaddr vaddr)
  | .handleFault f => s.request (.enter t) t (.handleFault f)
  | .forkCopy => s.request (.stop t) t .forkCopy
  | .truncate start size => s.request (.stop t) t (.truncate start size)
  | .destroy => s.request (.shutdown t) t .destroy

end Steps

/-! ## Interleavings -/

inductive Op (τ : Type)
  | call (t : τ) (c : Call)
  | advance (t : τ)
  | wakeup (t : τ)          -- `Block` returns without an `Unblock`

def step (s : RegionDefault τ) : Op τ → RegionDefault τ
  | .call t c => s.call t c
  | .advance t => s.advance t
  | .wakeup t => { s with requests := s.requests.step (.wakeup t) }

def adm (s : RegionDefault τ) : Op τ → Prop
  | .call t _ => s.place t = .idle
  | _ => True

def interleavings : Machine (RegionDefault τ) (Op τ) := ⟨step, adm⟩

/-- In a `coverVaddr` that has not entered. -/
def Place.Covers : Place → Prop
  | .coverVaddr _ => True
  | _ => False

/-- No `enter` of `coverVaddr` finds the requests shut down; and a stop marks itself only after
the last one of every earlier stop has left. -/
def covers (s : RegionDefault τ) : Op τ → Prop
  | .advance t => (s.requests.pc t = .testEnter → (s.place t).Covers → 0 ≤ s.requests.requests) ∧
      s.requests.settles (.advance t)
  | _ => True

def covering : Machine (RegionDefault τ) (Op τ) := ⟨step, fun s op => s.adm op ∧ s.covers op⟩

/-! ## What is to hold -/

/-- The next step of the thread is a `leave` of the count. -/
def Leaves (s : RegionDefault τ) (t : τ) : Prop :=
  s.AtRest t ∧ match s.place t with
    | .coverVaddr _ => True
    | .handleFault f => 0 ≤ s.requests.result t ∧ s.refuses f ≠ none
    | .mapPage _ => True
    | _ => False

/-- Who leaves has entered, in the same call; the count is that of the requests inside or backing
out, and `LONG_MAX / 2` less while they are stopped; and no page is mapped when `destroy` has
passed the shutdown. -/
structure Sound [Fintype τ] (s : RegionDefault τ) : Prop where
  matched : ∀ t, s.Leaves t → s.requests.pc t = .inside
  ended : ∀ t, s.place t = .idle → s.requests.pc t = .idle
  count : s.requests.requests =
    Threads.census Sync.RequestCountWithStop.Pc.Counted s.requests.pc -
      LONG_MAX / 2 * (s.requests.taken.toNat : ℤ)
  quiet : s.destroyed = true → ∀ t f, s.place t ≠ .mapPage f

/-! ## The invariant -/

open Sync.RequestCountWithStop (Entering Failed LeavingAt Stopping)
open Sync.RequestCountWithStop (advance_other closed_of_returned entering_advance entering_enter
  leavingAt_advance leavingAt_leave stopping_advance)

/-- Where a thread is in an operation of the count, by its place in the call of the region. -/
def Agrees (place : Place) (p : Sync.RequestCountWithStop.Pc τ) (r : ℤ) : Prop :=
  match place with
  | .idle | .destroying => p = .idle
  | .coverVaddr _ => Entering p r ∧ ¬ Failed p
  | .handleFault _ => Entering p r
  | .mapPage _ => p = .inside
  | .covered _ | .faulted _ => LeavingAt p
  | .forkCopy | .truncate _ _ => Stopping .stop p r
  | .copying => p = .stopped
  | .restarting _ => p = .unlockRestart ∨ p = .idle
  | .destroy => Stopping .shutdown p r

section Invariant

variable [Fintype τ] {s : RegionDefault τ} {t : τ} {p : Place}

structure Inv (s : RegionDefault τ) : Prop where
  requests : s.requests.Inv
  agrees : ∀ t, Agrees (s.place t) (s.requests.pc t) (s.requests.result t)
  won : ∀ t, s.place t = .destroy → s.requests.pc t = .idle → s.requests.result t = 0 →
    s.requests.Closed
  closed : s.destroyed = true → s.requests.Closed

theorem inv_init (regionVaddr regionSize attachSize fileOffset : ℕ) :
    Inv (init regionVaddr regionSize attachSize fileOffset : RegionDefault τ) where
  requests := Sync.RequestCountWithStop.inv_init
  agrees := fun _ => rfl
  won := nofun
  closed := nofun

theorem Inv.goto (h : Inv s) (hp : Agrees p (s.requests.pc t) (s.requests.result t))
    (hdestroy : p ≠ .destroy) : Inv (s.goto t p) where
  requests := h.requests
  agrees := by
    intro u
    change Agrees (update s.place t p u) (s.requests.pc u) (s.requests.result u)
    exact update_cases hp (fun u _ => h.agrees u) u
  won := by
    intro u
    change update s.place t p u = _ → _
    exact update_cases (fun hplace => absurd hplace hdestroy) (fun u _ => h.won u) u
  closed := h.closed

theorem Inv.ret (h : Inv s) (hidle : s.requests.pc t = .idle) (rc : Result) : Inv (s.ret t rc) := by
  have hgoto : Inv (s.goto t .idle) := h.goto hidle nofun
  exact ⟨hgoto.requests, hgoto.agrees, hgoto.won, hgoto.closed⟩

theorem Inv.request (h : Inv s) (hfits : RequestCount.Fits τ)
    {a : Sync.RequestCountWithStop.Action τ}
    (hadm : s.requests.adm a) (hsettles : s.requests.settles a)
    (hother : ∀ u, u ≠ t → (s.requests.step a).pc u = s.requests.pc u ∧
      (s.requests.step a).result u = s.requests.result u)
    (hp : Agrees p ((s.requests.step a).pc t) ((s.requests.step a).result t))
    (hdestroy : p = .destroy → (s.requests.step a).pc t ≠ .idle) : Inv (s.request a t p) where
  requests := h.requests.step hfits hadm hsettles
  agrees := by
    intro u
    change Agrees (update s.place t p u) ((s.requests.step a).pc u)
      ((s.requests.step a).result u)
    refine Function.update_cases hp (fun u hu => ?_) u
    rw [(hother u hu).1, (hother u hu).2]
    exact h.agrees u
  won := by
    intro u hplace hidle hzero
    change update s.place t p u = _ at hplace
    change (s.requests.step a).pc u = _ at hidle
    change (s.requests.step a).result u = _ at hzero
    by_cases hu : u = t
    · subst u
      rw [update_self] at hplace
      exact absurd hidle (hdestroy hplace)
    · rw [update_of_ne hu] at hplace
      rw [(hother u hu).1] at hidle
      rw [(hother u hu).2] at hzero
      exact h.requests.closed_step (h.won u hplace hidle hzero) hfits hadm hsettles
  closed := fun hdestroyed =>
    h.requests.closed_step (h.closed hdestroyed) hfits hadm hsettles

omit [Fintype τ] in
theorem pc_lock (k : Sync.RequestCountWithStop.Kind) :
    update s.requests.pc t (.lock k) t = .lock k := update_self ..

section

variable (h : Inv s) (hfits : RequestCount.Fits τ)

include h hfits

theorem Inv.enter (hidle : s.requests.pc t = .idle)
    (hp : ∀ (q : Sync.RequestCountWithStop.Pc τ) r, Entering q r → ¬ Failed q → Agrees p q r)
    (hdestroy : p ≠ .destroy) :
    Inv (s.request (.enter t) t p) := by
  obtain ⟨hentering, hfailed⟩ := entering_enter s.requests t
  refine h.request hfits hidle trivial ?_ (hp _ _ hentering hfailed) ?_
  · intro u hu
    change (s.requests.enter t).pc u = _ ∧ (s.requests.enter t).result u = _
    unfold Sync.RequestCountWithStop.enter
    split
    · exact ⟨update_of_ne hu .., rfl⟩
    · exact ⟨update_of_ne hu .., update_of_ne hu ..⟩
  · exact fun heq => absurd heq hdestroy

theorem Inv.leave (hinside : s.requests.pc t = .inside)
    (hp : ∀ (q : Sync.RequestCountWithStop.Pc τ) r, LeavingAt q → Agrees p q r)
    (hdestroy : p ≠ .destroy) :
    Inv (s.request (.leave t) t p) := by
  refine h.request hfits hinside trivial ?_
    (hp _ _ (leavingAt_leave s.requests t)) ?_
  · exact fun u hu => ⟨update_of_ne hu .., rfl⟩
  · exact fun heq => absurd heq hdestroy

theorem Inv.restart (hstopped : s.requests.pc t = .stopped) (rc : Option Result) :
    Inv (s.request (.restart t) t (.restarting rc)) := by
  refine h.request hfits hstopped trivial ?_ (.inl (update_self ..)) nofun
  exact fun u hu => ⟨update_of_ne hu .., rfl⟩

theorem Inv.stop (hidle : s.requests.pc t = .idle)
    (hp : ∀ r, Agrees p (.lock .stop : Sync.RequestCountWithStop.Pc τ) r) :
    Inv (s.request (.stop t) t p) := by
  have hpc : (s.requests.step (.stop t)).pc t = .lock .stop := pc_lock _
  refine h.request hfits hidle trivial ?_ ?_ ?_
  · exact fun u hu => ⟨update_of_ne hu .., rfl⟩
  · rw [hpc]
    exact hp _
  · rw [hpc]
    nofun

theorem Inv.shutdown (hidle : s.requests.pc t = .idle) :
    Inv (s.request (.shutdown t) t .destroy) := by
  have hpc : (s.requests.step (.shutdown t)).pc t = .lock .shutdown := pc_lock _
  refine h.request hfits hidle trivial ?_ ?_ ?_
  · exact fun u hu => ⟨update_of_ne hu .., rfl⟩
  · rw [hpc]
    exact rfl
  · rw [hpc]
    nofun

theorem Inv.call (hidle : s.place t = .idle)
    (c : Call) : Inv (s.call t c) := by
  have hpc : s.requests.pc t = .idle := by
    have hagrees := h.agrees t
    rw [hidle] at hagrees
    exact hagrees
  cases c with
  | coverVaddr vaddr => exact h.enter hfits hpc (fun q r hin hnot => ⟨hin, hnot⟩) nofun
  | handleFault f => exact h.enter hfits hpc (fun q r hin _ => hin) nofun
  | forkCopy => exact h.stop hfits hpc fun _ => rfl
  | truncate start size => exact h.stop hfits hpc fun _ => rfl
  | destroy => exact h.shutdown hfits hpc

end

variable {q : Sync.RequestCountWithStop.Pc τ} {r : ℤ}

section

omit [DecidableEq τ] [Fintype τ]

theorem entered_of_atRest (h : Entering q r) (hrest : q = .idle ∨ q = .inside ∨ q = .stopped) :
    (q = .idle ∧ r < 0) ∨ (q = .inside ∧ 0 ≤ r) := by
  rcases hrest with rfl | rfl | rfl
  · exact .inl ⟨rfl, h⟩
  · exact .inr ⟨rfl, h⟩
  · exact h.elim

theorem left_of_atRest (h : LeavingAt q)
    (hrest : q = .idle ∨ q = .inside ∨ q = .stopped) : q = .idle := by
  rcases hrest with rfl | rfl | rfl
  · rfl
  · exact h.elim
  · exact h.elim

theorem stopped_of_atRest {k : Sync.RequestCountWithStop.Kind}
    (h : Stopping k q r) (hrest : q = .idle ∨ q = .inside ∨ q = .stopped) :
    (q = .idle ∧ (r < 0 ∨ k = .shutdown ∧ r = 0)) ∨ (q = .stopped ∧ k = .stop ∧ r = 0) := by
  rcases hrest with rfl | rfl | rfl
  · exact .inl ⟨rfl, h⟩
  · exact h.elim
  · exact .inr ⟨rfl, h⟩

theorem stop_of_atRest (h : Stopping .stop q r) (hrest : q = .idle ∨ q = .inside ∨ q = .stopped) :
    (q = .idle ∧ r < 0) ∨ (q = .stopped ∧ r = 0) := by
  rcases stopped_of_atRest h hrest with ⟨hidle, hneg | ⟨hk, -⟩⟩ | ⟨hstopped, -, hzero⟩
  · exact .inl ⟨hidle, hneg⟩
  · cases hk
  · exact .inr ⟨hstopped, hzero⟩

end

theorem Inv.shrink (h : Inv s) (start size : ℕ) : Inv (s.shrink start size) := by
  unfold RegionDefault.shrink
  split
  · exact ⟨h.requests, h.agrees, h.won, h.closed⟩
  · exact ⟨h.requests, h.agrees, h.won, h.closed⟩

omit [DecidableEq τ] [Fintype τ] in
theorem pc_shrink (start size : ℕ) : (s.shrink start size).requests = s.requests := by
  unfold RegionDefault.shrink
  split <;> rfl

theorem Inv.truncateStopped (h : Inv s) (hfits : RequestCount.Fits τ)
    (hstopped : s.requests.pc t = .stopped) (start size : ℕ) :
    Inv (s.truncateStopped t start size) := by
  unfold RegionDefault.truncateStopped
  split_ifs
  · exact h.restart hfits hstopped _
  · exact h.restart hfits hstopped _
  · refine (h.shrink start size).restart hfits ?_ _
    rw [pc_shrink]
    exact hstopped

theorem Inv.next (h : Inv s) (hfits : RequestCount.Fits τ) (hrest : s.AtRest t) :
    Inv (s.next t) := by
  have hagrees := h.agrees t
  unfold RegionDefault.next
  cases hplace : s.place t with
  | idle => exact h
  | coverVaddr vaddr =>
    rw [hplace] at hagrees
    obtain ⟨hentering, hfailed⟩ := hagrees
    rcases entered_of_atRest hentering hrest with ⟨hidle, -⟩ | ⟨hinside, -⟩
    · rw [hidle] at hfailed
      exact absurd trivial hfailed
    · exact h.leave hfits hinside (fun q r hq => hq) nofun
  | covered rc =>
    rw [hplace] at hagrees
    exact h.ret (left_of_atRest hagrees hrest) _
  | handleFault f =>
    rw [hplace] at hagrees
    dsimp only
    rcases entered_of_atRest hagrees hrest with ⟨hidle, hneg⟩ | ⟨hinside, hpos⟩
    · rw [if_pos hneg]
      exact h.ret hidle _
    · rw [if_neg (not_lt.2 hpos)]
      cases s.refuses f with
      | some rc => exact h.leave hfits hinside (fun q r hq => hq) nofun
      | none => exact h.goto hinside nofun
  | mapPage f =>
    rw [hplace] at hagrees
    exact h.leave hfits hagrees (fun q r hq => hq) nofun
  | faulted rc =>
    rw [hplace] at hagrees
    exact h.ret (left_of_atRest hagrees hrest) _
  | forkCopy =>
    rw [hplace] at hagrees
    dsimp only
    rcases stop_of_atRest hagrees hrest with ⟨hidle, hneg⟩ | ⟨hstopped, hzero⟩
    · rw [if_pos hneg]
      exact h.ret hidle _
    · rw [if_neg (by rw [hzero]; exact lt_irrefl 0)]
      exact h.goto hstopped nofun
  | copying =>
    rw [hplace] at hagrees
    exact h.restart hfits hagrees _
  | truncate start size =>
    rw [hplace] at hagrees
    dsimp only
    rcases stop_of_atRest hagrees hrest with ⟨hidle, hneg⟩ | ⟨hstopped, hzero⟩
    · rw [if_pos hneg]
      exact h.ret hidle _
    · rw [if_neg (by rw [hzero]; exact lt_irrefl 0)]
      exact h.truncateStopped hfits hstopped start size
  | restarting rc =>
    rw [hplace] at hagrees
    have hidle : s.requests.pc t = .idle := by
      rcases hagrees with hunlock | hidle
      · rcases hrest with hr | hr | hr <;> rw [hunlock] at hr <;> cases hr
      · exact hidle
    cases rc with
    | some rc => exact h.ret hidle rc
    | none => exact h.shutdown hfits hidle
  | destroy =>
    rw [hplace] at hagrees
    dsimp only
    have hidle : s.requests.pc t = .idle := by
      rcases stopped_of_atRest hagrees hrest with ⟨hidle, -⟩ | ⟨-, hk, -⟩
      · exact hidle
      · cases hk
    split_ifs with hlost
    · exact h.ret hidle _
    · have hclosed := h.won t hplace hidle (not_not.1 hlost)
      have hgoto : Inv (s.goto t .destroying) := h.goto hidle nofun
      exact ⟨hgoto.requests, hgoto.agrees, hgoto.won, fun _ => hclosed⟩
  | destroying =>
    rw [hplace] at hagrees
    exact h.ret hagrees _

omit [DecidableEq τ] [Fintype τ] in
theorem Agrees.other {place : Place} {q' : Sync.RequestCountWithStop.Pc τ}
    (h : Agrees place q r) (hq : q' = q ∨ ∃ k, q = .blocked k ∧ q' = .wait k) :
    Agrees place q' r := by
  rcases hq with rfl | ⟨k, rfl, rfl⟩
  · exact h
  · cases place with
    | forkCopy => exact h
    | truncate start size => exact h
    | destroy => exact h
    | covered rc => exact h.elim
    | faulted rc => exact h.elim
    | handleFault f => exact h.elim
    | coverVaddr vaddr => exact h.1.elim
    | restarting rc => rcases h with h | h <;> cases h
    | _ => cases h

theorem Inv.advanceRequest (h : Inv s) (hfits : RequestCount.Fits τ) (hrest : ¬ s.AtRest t)
    (hcovers : s.requests.pc t = .testEnter → (s.place t).Covers → 0 ≤ s.requests.requests)
    (hsettles : s.requests.settles (.advance t)) :
    Inv { s with requests := s.requests.step (.advance t) } := by
  unfold AtRest at hrest
  rw [not_or, not_or] at hrest
  obtain ⟨hidle, hinside, hstopped⟩ := hrest
  have hstep : (s.requests.advance t).Inv :=
    h.requests.step (a := .advance t) hfits trivial hsettles
  have hother : ∀ u, u ≠ t → (s.requests.advance t).result u = s.requests.result u ∧
      ((s.requests.advance t).pc u = s.requests.pc u ∨
        ∃ k, s.requests.pc u = .blocked k ∧ (s.requests.advance t).pc u = .wait k) :=
    fun u hu => advance_other hu
  have hbusy : Agrees (s.place t) (s.requests.pc t) (s.requests.result t) := h.agrees t
  constructor
  · exact hstep
  · intro u
    change Agrees (s.place u) ((s.requests.advance t).pc u) ((s.requests.advance t).result u)
    by_cases hu : u = t
    · subst u
      cases hplace : s.place t with
      | idle =>
        rw [hplace] at hbusy
        exact absurd hbusy hidle
      | destroying =>
        rw [hplace] at hbusy
        exact absurd hbusy hidle
      | mapPage f =>
        rw [hplace] at hbusy
        exact absurd hbusy hinside
      | copying =>
        rw [hplace] at hbusy
        exact absurd hbusy hstopped
      | coverVaddr vaddr =>
        rw [hplace] at hbusy hcovers
        obtain ⟨hentering, hkeeps⟩ :=
          entering_advance hbusy.1 hidle hinside
        exact ⟨hentering, hkeeps (fun htest => hcovers htest trivial) hbusy.2⟩
      | handleFault f =>
        rw [hplace] at hbusy
        exact (entering_advance hbusy hidle hinside).1
      | covered rc =>
        rw [hplace] at hbusy
        exact leavingAt_advance hbusy hidle
      | faulted rc =>
        rw [hplace] at hbusy
        exact leavingAt_advance hbusy hidle
      | forkCopy =>
        rw [hplace] at hbusy
        exact stopping_advance h.requests hbusy hidle hstopped
      | truncate start size =>
        rw [hplace] at hbusy
        exact stopping_advance h.requests hbusy hidle hstopped
      | destroy =>
        rw [hplace] at hbusy
        exact stopping_advance h.requests hbusy hidle hstopped
      | restarting rc =>
        rw [hplace] at hbusy
        rcases hbusy with hunlock | hbusy
        · refine .inr ?_
          unfold Sync.RequestCountWithStop.advance
          rw [hunlock]
          exact update_self ..
        · exact absurd hbusy hidle
    · rw [(hother u hu).1]
      exact (h.agrees u).other (hother u hu).2
  · intro u hplace hidle' hzero
    change (s.requests.advance t).pc u = _ at hidle'
    change (s.requests.advance t).result u = _ at hzero
    change s.place u = _ at hplace
    by_cases hu : u = t
    · subst u
      rw [hplace] at hbusy
      exact closed_of_returned h.requests hbusy hidle rfl hstep hidle'
        hzero
    · obtain ⟨hresult, hpc⟩ := hother u hu
      rw [hresult] at hzero
      have hidleu : s.requests.pc u = .idle := by
        rcases hpc with hpc | ⟨k, -, hpc⟩
        · rw [← hpc]
          exact hidle'
        · rw [hpc] at hidle'
          cases hidle'
      exact h.requests.closed_step (a := .advance t) (h.won u hplace hidleu hzero) hfits trivial
        hsettles
  · exact fun hdestroyed =>
      h.requests.closed_step (a := .advance t) (h.closed hdestroyed) hfits trivial hsettles

theorem Inv.wakeup (h : Inv s) (hfits : RequestCount.Fits τ) :
    Inv { s with requests := s.requests.step (.wakeup t) } := by
  have hstep : (s.requests.wakeup t).Inv := h.requests.step (a := .wakeup t) hfits trivial trivial
  have hother : ∀ u, (s.requests.wakeup t).result u = s.requests.result u ∧
      ((s.requests.wakeup t).pc u = s.requests.pc u ∨
        ∃ k, s.requests.pc u = .blocked k ∧ (s.requests.wakeup t).pc u = .wait k) := by
    intro u
    unfold Sync.RequestCountWithStop.wakeup
    split
    · rename_i k hblocked
      refine ⟨rfl, ?_⟩
      by_cases hu : u = t
      · subst u
        exact .inr ⟨k, hblocked, update_self ..⟩
      · exact .inl (update_of_ne hu ..)
    · exact ⟨rfl, .inl rfl⟩
  constructor
  · exact hstep
  · intro u
    change Agrees (s.place u) ((s.requests.wakeup t).pc u) ((s.requests.wakeup t).result u)
    rw [(hother u).1]
    exact (h.agrees u).other (hother u).2
  · intro u hplace hidle hzero
    obtain ⟨hresult, hpc⟩ := hother u
    change (s.requests.wakeup t).result u = _ at hzero
    change (s.requests.wakeup t).pc u = _ at hidle
    rw [hresult] at hzero
    have hidleu : s.requests.pc u = .idle := by
      rcases hpc with hpc | ⟨k, -, hpc⟩
      · rw [← hpc]
        exact hidle
      · rw [hpc] at hidle
        cases hidle
    exact h.requests.closed_step (a := .wakeup t) (h.won u hplace hidleu hzero) hfits trivial
      trivial
  · exact fun hdestroyed =>
      h.requests.closed_step (a := .wakeup t) (h.closed hdestroyed) hfits trivial trivial

theorem Inv.step (h : Inv s) (hfits : RequestCount.Fits τ) {op : Op τ} (hadm : s.adm op)
    (hcovers : s.covers op) : Inv (s.step op) := by
  cases op with
  | call t c => exact h.call hfits hadm c
  | wakeup t => exact h.wakeup hfits
  | advance t =>
    change Inv (s.advance t)
    unfold RegionDefault.advance
    split_ifs with hrest
    · exact h.next hfits hrest
    · exact h.advanceRequest hfits hrest hcovers.1 hcovers.2

theorem Inv.sound (h : Inv s) : s.Sound where
  matched := by
    rintro t ⟨hrest, hleaves⟩
    have hagrees := h.agrees t
    cases hplace : s.place t with
    | coverVaddr vaddr =>
      rw [hplace] at hagrees
      rcases entered_of_atRest hagrees.1 hrest with ⟨hidle, -⟩ | ⟨hinside, -⟩
      · rw [hidle] at hagrees
        exact absurd trivial hagrees.2
      · exact hinside
    | handleFault f =>
      rw [hplace] at hagrees hleaves
      rcases entered_of_atRest hagrees hrest with ⟨-, hneg⟩ | ⟨hinside, -⟩
      · exact absurd hleaves.1 (not_le.2 hneg)
      · exact hinside
    | mapPage f =>
      rw [hplace] at hagrees
      exact hagrees
    | _ =>
      rw [hplace] at hleaves
      exact hleaves.elim
  ended := by
    intro t hplace
    have hagrees := h.agrees t
    rw [hplace] at hagrees
    exact hagrees
  count := h.requests.count
  quiet := by
    intro hdestroyed t f hplace
    have hagrees := h.agrees t
    rw [hplace] at hagrees
    exact (h.closed hdestroyed).empty t hagrees

/-- If no `enter` of `coverVaddr` finds the requests shut down, then every `leave` has its own
`enter`, and no page is mapped any more when `destroy` has passed the shutdown. -/
theorem run_balanced (hfits : RequestCount.Fits τ)
    {regionVaddr regionSize attachSize fileOffset : ℕ} {ops : List (Op τ)}
    (h : covering.Run (init regionVaddr regionSize attachSize fileOffset) ops s) : s.Sound := by
  have hinv : Inv s := by
    refine h.invariant (inv_init _ _ _ _) ?_
    rintro s op hs ⟨hadm, hcovers⟩
    exact hs.step hfits hadm hcovers
  exact hinv.sound

end Invariant

instance (s : RegionDefault τ) (op : Op τ) : Decidable (interleavings.adm s op) :=
  match op with
  | .call .. => inferInstanceAs (Decidable (_ = _))
  | .advance _ | .wakeup _ => isTrue trivial

instance (p : Place) : Decidable p.Covers :=
  match p with
  | .coverVaddr _ => isTrue trivial
  | .idle | .covered _ | .handleFault _ | .mapPage _ | .faulted _ | .forkCopy | .copying
  | .truncate _ _ | .restarting _ | .destroy | .destroying => isFalse id

instance [Fintype τ] (s : RegionDefault τ) (op : Op τ) : Decidable (s.covers op) :=
  match op with
  | .advance _ => inferInstanceAs (Decidable (_ ∧ _))
  | .call .. | .wakeup _ => isTrue trivial

instance [Fintype τ] (s : RegionDefault τ) (op : Op τ) : Decidable (covering.adm s op) :=
  inferInstanceAs (Decidable (interleavings.adm s op ∧ s.covers op))

def fault (vaddr : ℕ) : Fault where
  vaddr := vaddr
  hasUserMode := true
  verifyAccess := true

open scoped SmallFin

/-- Thread 0 handles a fault while thread 1 takes the whole region away with `truncate`. A second
fault finds the region destroyed. -/
def truncatesAll : List (Op (Fin 2)) :=
  [Op.call 0 (.handleFault (fault 5)), .advance 0, .call 1 (.truncate 4 8), .advance 1, .advance 1,
    .advance 0, .advance 0] ++ List.replicate 20 (Op.advance 1) ++
    [Op.call 0 (.handleFault (fault 5))] ++ List.replicate 10 (Op.advance 0)

example : (truncatesAll.foldl covering.step (init 4 8 8 0)).result 0 = .EFAULT := by decide +kernel

theorem run_balanced_truncatesAll :
    let s := truncatesAll.foldl covering.step (init 4 8 8 0)
    covering.Run (init 4 8 8 0) truncatesAll s ∧ s.destroyed = true ∧ s.Sound := by
  intro s
  have hadmits : covering.Admits (init 4 8 8 0) truncatesAll := by decide +kernel
  have hdestroyed : s.destroyed = true := by decide +kernel
  have hfits : RequestCount.Fits (Fin 2) := by
    rw [RequestCount.Fits, Fintype.card_fin]
    decide
  exact ⟨hadmits.run, hdestroyed, run_balanced hfits hadmits.run⟩

/-- The region is destroyed, and `coverVaddr` is called: its `enter` has failed. -/
def coversDestroyed : List (Op (Fin 2)) :=
  [Op.call 1 .destroy] ++ List.replicate 10 (Op.advance 1) ++ [Op.call 0 (.coverVaddr 5)] ++
    List.replicate 5 (Op.advance 0)

/-- It leaves all the same, and the count is one less than that of the requests. -/
theorem leaves_not_entered : (let s := coversDestroyed.foldl interleavings.step (init 4 8 8 0)
    interleavings.Run (init 4 8 8 0) coversDestroyed s ∧ s.Leaves 0 ∧
      s.requests.pc 0 = .idle ∧ ¬ s.Sound) ∧
    (let ops := coversDestroyed ++ [.advance 0]
    let s := ops.foldl interleavings.step (init 4 8 8 0)
    interleavings.Run (init 4 8 8 0) ops s ∧ (∀ t, s.requests.pc t = .idle) ∧
      s.requests.requests = -(LONG_MAX / 2) - 1) := by
  have hadmits : interleavings.Admits (init 4 8 8 0) coversDestroyed := by decide +kernel
  have hleft : interleavings.Admits (init 4 8 8 0) (coversDestroyed ++ [.advance 0]) := by
    decide +kernel
  refine ⟨?_, hleft.run, by decide +kernel, by decide +kernel⟩
  intro s
  have hidle : s.requests.pc 0 = .idle := by decide +kernel
  have hplace : s.place 0 = .coverVaddr 5 := by decide +kernel
  have hleaves : s.Leaves 0 := ⟨.inl hidle, by rw [hplace]; trivial⟩
  refine ⟨hadmits.run, hleaves, hidle, ?_⟩
  intro hsound
  have hinside := hsound.matched 0 hleaves
  rw [hidle] at hinside
  cases hinside

end RegionDefault

end K42
