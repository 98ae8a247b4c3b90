import K42.Lib.Run
import K42.Lib.WaitFor
import Mathlib.Data.Fintype.Order

/-!
# The locks of a HAT

A HAT has `glock` for its list of segments and, for each vp, a lock for the list of that vp. A
fault holds the lock of its vp when it takes `glock` for a segment that the vp does not know, and
so does the first half of `attachVP`. The second half of `attachVP` holds `glock` and takes the
lock of every vp.

A step of a thread takes or releases one lock, or goes on to where it waits for one.
-/

open Function (update update_cases update_of_ne update_self)

namespace K42

namespace HATLocks

inductive Lock
  | glock
  | byVP (vp : ℕ)
deriving DecidableEq

/-- The calls. `create` is `createIfNoSeg`; a range is given by its segments, and `here` says
whether the processor of the caller is one of those that `unmapRange` visits. -/
inductive Call
  | mapPage (vp seg : ℕ) (create : Bool)
  | attachVP (vp : ℕ)
  | detachVP (vp : ℕ)
  | unmapRange (range : List ℕ) (here : Bool)
  | unmapRangeLocal (range : List ℕ)
  | findSegmentGlobal (seg : ℕ) (create : Bool)
deriving DecidableEq

/-- Where a thread is. The lock that it waits for, or that it has taken last, is on the right. -/
inductive Pc
  | idle
  | mapPage (vp seg : ℕ) (create : Bool)                  -- waits for the lock of the vp
  | findSegment (vp seg : ℕ) (create : Bool)              -- has it
  | findSegmentGlobal (vp seg : ℕ) (create : Bool)        -- has it and waits for `glock`
  | foundGlobal (vp seg : ℕ) (create : Bool)              -- has both
  | mapped (vp : ℕ)                                       -- has the lock of the vp
  | attachVP (vp : ℕ)                                     -- waits for the lock of the vp
  | changePP (vp : ℕ) (restart : List ℕ)                  -- has it
  | changeGlobal (vp seg : ℕ) (restart : List ℕ)          -- has it and waits for `glock`
  | changedGlobal (vp seg : ℕ) (restart : List ℕ)         -- has both
  | attached                                              -- waits for `glock`
  | activeSet (vp : ℕ)                                    -- has it
  | activeVP (vp : ℕ)                                     -- has it and waits for the vp's lock
  | addVP (vp : ℕ)                                        -- has both
  | detachVP (vp : ℕ)                                     -- waits for the lock of the vp
  | detaching (vp : ℕ)                                    -- has it
  | unmapRange (range : List ℕ) (here : Bool)             -- waits for `glock`
  | unmapGlobal (range : List ℕ) (here : Bool)            -- has it
  | unmapRangeLocal (range : List ℕ) (vp : ℕ)             -- has none
  | unmapVP (range : List ℕ) (vp : ℕ)                     -- waits for the lock of the vp
  | deleteSegment (range : List ℕ) (vp : ℕ)               -- has it
  | lookup (seg : ℕ) (create : Bool)                      -- waits for `glock`
  | lookedUp (seg : ℕ) (create : Bool)                    -- has it
deriving DecidableEq

namespace Pc

/-- The lock that the thread waits for. -/
def wants : Pc → Option Lock
  | mapPage vp _ _ | attachVP vp | activeVP vp | detachVP vp | unmapVP _ vp => some (.byVP vp)
  | findSegmentGlobal _ _ _ | changeGlobal _ _ _ | attached | unmapRange _ _ | lookup _ _ =>
    some .glock
  | _ => none

/-- The locks that the thread has taken, the last one first. -/
def held : Pc → List Lock
  | findSegment vp _ _ | findSegmentGlobal vp _ _ | mapped vp => [.byVP vp]
  | changePP vp _ | changeGlobal vp _ _ => [.byVP vp]
  | foundGlobal vp _ _ | changedGlobal vp _ _ => [.glock, .byVP vp]
  | activeSet _ | activeVP _ => [.glock]
  | addVP vp => [.byVP vp, .glock]
  | detaching vp | deleteSegment _ vp => [.byVP vp]
  | unmapGlobal _ _ | lookedUp _ _ => [.glock]
  | _ => []

/-- The vp whose lock is held by a thread that waits for `glock`. -/
def nested : Pc → Option ℕ
  | findSegmentGlobal vp _ _ | changeGlobal vp _ _ => some vp
  | _ => none

/-- The vp to which the second half of `attachVP` has come. -/
def passing : Pc → Option ℕ
  | activeSet vp | activeVP vp | addVP vp => some vp
  | _ => none

end Pc

end HATLocks

/-- `segmentList` has the segments of the address space, and the `segs` of a vp those that it
knows. -/
structure HATLocks (τ : Type) where
  holder : HATLocks.Lock → Option τ
  segmentList : List ℕ
  pp : ℕ → ℕ
  segs : ℕ → List ℕ
  pc : τ → HATLocks.Pc

namespace HATLocks

variable {τ : Type} [DecidableEq τ]

def init : HATLocks τ where
  holder := fun _ => none
  segmentList := []
  pp := fun _ => 0
  segs := fun _ => []
  pc := fun _ => .idle

def goto (s : HATLocks τ) (t : τ) (p : Pc) : HATLocks τ :=
  { s with pc := update s.pc t p }

def acquire (s : HATLocks τ) (t : τ) (l : Lock) (p : Pc) : HATLocks τ :=
  { s with
    holder := update s.holder l (some t)
    pc := update s.pc t p }

def release (s : HATLocks τ) (t : τ) (l : Lock) (p : Pc) : HATLocks τ :=
  { s with
    holder := update s.holder l none
    pc := update s.pc t p }

/-- `getSegmentTable` on the processor `pp`. -/
def recordPP (s : HATLocks τ) (vp pp : ℕ) : HATLocks τ :=
  { s with pp := update s.pp vp pp }

def setSegs (s : HATLocks τ) (vp : ℕ) (segs : List ℕ) : HATLocks τ :=
  { s with segs := update s.segs vp segs }

/-- `findSegmentGlobal` under `glock`, which makes a segment if the caller wants one. -/
def createSegment (s : HATLocks τ) (seg : ℕ) (create : Bool) : HATLocks τ :=
  if seg ∈ s.segmentList then s
  else if create then { s with segmentList := seg :: s.segmentList } else s

/-! ## Steps -/

section Steps

variable (VPLimit : ℕ) (cpu : τ → ℕ)

/-- The place of a thread that has been called. -/
def Call.entry : Call → Pc
  | .mapPage vp seg create => .mapPage vp seg create
  | .attachVP vp => .attachVP vp
  | .detachVP vp => .detachVP vp
  | .unmapRange range here => .unmapRange range here
  | .unmapRangeLocal range => .unmapRangeLocal range 0
  | .findSegmentGlobal seg create => .lookup seg create

/-- The next step of a thread; `cpu` has the processors of the threads. -/
def advance (s : HATLocks τ) (t : τ) : HATLocks τ :=
  match s.pc t with
  | .idle => s
  | .mapPage vp seg create => s.acquire t (.byVP vp) (.findSegment vp seg create)
  | .findSegment vp seg create =>
    if seg ∈ s.segs vp then (s.recordPP vp (cpu t)).goto t (.mapped vp)
    else (s.recordPP vp (cpu t)).goto t (.findSegmentGlobal vp seg create)
  | .findSegmentGlobal vp seg create => s.acquire t .glock (.foundGlobal vp seg create)
  | .foundGlobal vp seg create =>
    let s' := s.createSegment seg create
    if seg ∈ s'.segmentList then
      (s'.setSegs vp (seg :: s.segs vp)).release t .glock (.mapped vp)
    else s'.release t .glock (.mapped vp)
  | .mapped vp => s.release t (.byVP vp) .idle
  | .attachVP vp =>
    (s.recordPP vp (cpu t)).acquire t (.byVP vp) (.changePP vp (s.segs vp))
  | .changePP vp [] => s.release t (.byVP vp) .attached
  | .changePP vp (seg :: restart) => s.goto t (.changeGlobal vp seg restart)
  | .changeGlobal vp seg restart => s.acquire t .glock (.changedGlobal vp seg restart)
  | .changedGlobal vp seg restart =>
    (s.createSegment seg false).release t .glock (.changePP vp restart)
  | .attached => s.acquire t .glock (.activeSet 0)
  | .activeSet vp =>
    if vp < VPLimit then s.goto t (.activeVP vp) else s.release t .glock .idle
  | .activeVP vp => s.acquire t (.byVP vp) (.addVP vp)
  | .addVP vp => s.release t (.byVP vp) (.activeSet (vp + 1))
  | .detachVP vp => s.acquire t (.byVP vp) (.detaching vp)
  | .detaching vp => s.release t (.byVP vp) .idle
  | .unmapRange range here => s.acquire t .glock (.unmapGlobal range here)
  | .unmapGlobal range here =>
    { s with segmentList := s.segmentList.filter (· ∉ range) }.release t .glock
      (if here then .unmapRangeLocal range 0 else .idle)
  | .unmapRangeLocal range vp =>
    if vp < VPLimit then
      if s.pp vp = cpu t then s.goto t (.unmapVP range vp)
      else s.goto t (.unmapRangeLocal range (vp + 1))
    else s.goto t .idle
  | .unmapVP range vp => s.acquire t (.byVP vp) (.deleteSegment range vp)
  | .deleteSegment range vp =>
    (s.setSegs vp ((s.segs vp).filter (· ∉ range))).release t (.byVP vp)
      (.unmapRangeLocal range (vp + 1))
  | .lookup seg create => s.acquire t .glock (.lookedUp seg create)
  | .lookedUp seg create => (s.createSegment seg create).release t .glock .idle

end Steps

/-! ## Runs -/

inductive Op (τ : Type)
  | call (t : τ) (c : Call)
  | advance (t : τ)
deriving DecidableEq

def Call.Valid (VPLimit : ℕ) : Call → Prop
  | .mapPage vp _ _ | .attachVP vp | .detachVP vp => vp < VPLimit
  | _ => True

section Runs

variable (VPLimit : ℕ) (cpu : τ → ℕ)

def step (s : HATLocks τ) : Op τ → HATLocks τ
  | .call t c => s.goto t c.entry
  | .advance t => s.advance VPLimit cpu t

/-- A thread that waits for a lock goes on when the lock is free. -/
def adm (s : HATLocks τ) : Op τ → Prop
  | .call t c => s.pc t = .idle ∧ c.Valid VPLimit
  | .advance t => ∀ l, (s.pc t).wants = some l → s.holder l = none

def runs : Machine (HATLocks τ) (Op τ) := ⟨step VPLimit cpu, adm VPLimit⟩

/-- The second half of `attachVP` has passed the vp, wherever it is under way. -/
def Passed (s : HATLocks τ) (vp : ℕ) : Prop := ∀ u i, (s.pc u).passing = some i → vp < i

/-- The vp with whose lock the next step of the thread begins to wait for `glock`. -/
def begins (s : HATLocks τ) (t : τ) : Option ℕ :=
  match s.pc t with
  | .findSegment vp seg _ => if seg ∈ s.segs vp then none else some vp
  | .changePP vp (_ :: _) => some vp
  | _ => none

/-- No thread begins to wait for `glock` with the lock of a vp which the second half of `attachVP`
has still to take, and the second half does not begin when a thread waits for `glock` with the
lock of a vp. -/
def InOrder (s : HATLocks τ) : Op τ → Prop
  | .call _ _ => True
  | .advance t => (∀ vp, s.begins t = some vp → s.Passed vp) ∧
      (s.pc t = .attached → ∀ u, (s.pc u).nested = none)

def orderedRuns : Machine (HATLocks τ) (Op τ) :=
  ⟨step VPLimit cpu, fun s op => s.adm VPLimit op ∧ s.InOrder op⟩

end Runs

/-! ## The invariant -/

section Invariant

variable {VPLimit : ℕ} {cpu : τ → ℕ} {s : HATLocks τ} {t : τ} {p : Pc} {l : Lock} {vp : ℕ}

/-- The second half of `attachVP` has passed every vp whose lock is held by a thread that waits
for `glock`. -/
structure Inv (s : HATLocks τ) : Prop where
  held : WaitFor.Held Pc.held s.holder s.pc
  passed : ∀ t vp, (s.pc t).nested = some vp → s.Passed vp

omit [DecidableEq τ] in
theorem inv_init : Inv (init : HATLocks τ) where
  held := fun _ _ => iff_of_false List.not_mem_nil nofun
  passed := nofun

omit [DecidableEq τ] in
theorem Pc.passing_eq_none (h : p.nested = some vp) : p.passing = none := by
  cases p with
  | findSegmentGlobal => rfl
  | changeGlobal => rfl
  | _ => cases h

/-- A move keeps the order if a thread that begins to wait for `glock` has been passed, and the
second half of `attachVP` has not begun before a thread that waits. -/
theorem passed_update (h : ∀ t vp, (s.pc t).nested = some vp → s.Passed vp)
    (hnested : ∀ vp, p.nested = some vp → s.Passed vp)
    (hpassing : ∀ i, p.passing = some i → ∀ u vp, (s.pc u).nested = some vp → vp < i)
    (u : τ) (vp : ℕ) (hu : (update s.pc t p u).nested = some vp) (w : τ) (i : ℕ)
    (hw : (update s.pc t p w).passing = some i) : vp < i := by
  revert hu hw
  refine update_cases (fun hu => ?_) (fun u _ hu => ?_) u
  · refine update_cases (fun hw => ?_) (fun w _ => hnested vp hu w i) w
    rw [Pc.passing_eq_none hu] at hw
    cases hw
  · exact update_cases (fun hw => hpassing i hw u vp hu) (fun w _ => h u vp hu w i) w

theorem Inv.goto (h : Inv s) (hheld : p.held = (s.pc t).held)
    (hnested : ∀ vp, p.nested = some vp → s.Passed vp)
    (hpassing : ∀ i, p.passing = some i → ∀ u vp, (s.pc u).nested = some vp → vp < i) :
    Inv (s.goto t p) where
  held := h.held.stay hheld
  passed := passed_update h.passed hnested hpassing

theorem Inv.acquire (h : Inv s) (hfree : s.holder l = none) (hheld : p.held = l :: (s.pc t).held)
    (hnested : p.nested = none)
    (hpassing : ∀ i, p.passing = some i → ∀ u vp, (s.pc u).nested = some vp → vp < i) :
    Inv (s.acquire t l p) where
  held := h.held.acquire hfree hheld
  passed := passed_update h.passed (by rw [hnested]; nofun) hpassing

theorem Inv.release (h : Inv s) (hheld : (s.pc t).held = l :: p.held) (hnot : l ∉ p.held)
    (hnested : p.nested = none)
    (hpassing : ∀ i, p.passing = some i → ∀ u vp, (s.pc u).nested = some vp → vp < i) :
    Inv (s.release t l p) where
  held := h.held.release hheld hnot
  passed := passed_update h.passed (by rw [hnested]; nofun) hpassing

omit [DecidableEq τ] in
theorem Inv.recordPP (h : Inv s) (vp pp : ℕ) : Inv (s.recordPP vp pp) := ⟨h.held, h.passed⟩

omit [DecidableEq τ] in
theorem Inv.setSegs (h : Inv s) (vp : ℕ) (segs : List ℕ) : Inv (s.setSegs vp segs) :=
  ⟨h.held, h.passed⟩

omit [DecidableEq τ] in
@[simp] theorem pc_createSegment (seg : ℕ) (create : Bool) :
    (s.createSegment seg create).pc = s.pc := by
  unfold createSegment
  split_ifs <;> rfl

omit [DecidableEq τ] in
theorem Inv.createSegment (h : Inv s) (seg : ℕ) (create : Bool) :
    Inv (s.createSegment seg create) := by
  unfold HATLocks.createSegment
  split_ifs
  · exact h
  · exact ⟨h.held, h.passed⟩
  · exact h

theorem Call.entry_held (c : Call) : c.entry.held = [] := by
  cases c <;> rfl

theorem Call.entry_nested (c : Call) : c.entry.nested = none := by
  cases c <;> rfl

theorem Call.entry_passing (c : Call) : c.entry.passing = none := by
  cases c <;> rfl

omit [DecidableEq τ] in
theorem Inv.on (h : Inv s) {i j : ℕ} (hpassing : (s.pc t).passing = some i) (hij : i ≤ j) (u : τ)
    (vp : ℕ) (hu : (s.pc u).nested = some vp) : vp < j :=
  (h.passed u vp hu t i hpassing).trans_le hij

theorem Inv.advance (h : Inv s) (hfree : ∀ l, (s.pc t).wants = some l → s.holder l = none)
    (hord : s.InOrder (.advance t)) : Inv (s.advance VPLimit cpu t) := by
  obtain ⟨hbegins, hattached⟩ := hord
  unfold begins at hbegins
  unfold HATLocks.advance
  cases hpc : s.pc t with
  | idle => exact h
  | mapPage vp seg create =>
    exact h.acquire (hfree _ (by rw [hpc]; rfl)) (by rw [hpc]; rfl) rfl nofun
  | findSegment vp seg create =>
    rw [hpc] at hbegins
    have hheld : [Lock.byVP vp] = ((s.recordPP vp (cpu t)).pc t).held := by
      change _ = (s.pc t).held
      rw [hpc]
      rfl
    dsimp only
    split_ifs with hseg
    · exact (h.recordPP vp (cpu t)).goto hheld nofun nofun
    · refine (h.recordPP vp (cpu t)).goto hheld ?_ nofun
      rintro vp' hvp'
      cases hvp'
      exact hbegins vp (if_neg hseg)
  | findSegmentGlobal vp seg create =>
    exact h.acquire (hfree _ (by rw [hpc]; rfl)) (by rw [hpc]; rfl) rfl nofun
  | foundGlobal vp seg create =>
    dsimp only
    have hcreate := h.createSegment seg create
    have hheld : ((s.createSegment seg create).pc t).held = [.glock, .byVP vp] := by
      rw [pc_createSegment, hpc]
      rfl
    split_ifs
    · exact (hcreate.setSegs vp _).release hheld (by simp [Pc.held]) rfl nofun
    · exact hcreate.release hheld (by simp [Pc.held]) rfl nofun
  | mapped vp => exact h.release (by rw [hpc]; rfl) (by simp [Pc.held]) rfl nofun
  | attachVP vp =>
    refine (h.recordPP vp (cpu t)).acquire (hfree _ (by rw [hpc]; rfl)) ?_ rfl nofun
    change _ = _ :: (s.pc t).held
    rw [hpc]
    rfl
  | changePP vp restart =>
    cases restart with
    | nil => exact h.release (by rw [hpc]; rfl) (by simp [Pc.held]) rfl nofun
    | cons seg restart =>
      rw [hpc] at hbegins
      refine h.goto (by rw [hpc]; rfl) ?_ nofun
      rintro vp' hvp'
      cases hvp'
      exact hbegins vp rfl
  | changeGlobal vp seg restart =>
    exact h.acquire (hfree _ (by rw [hpc]; rfl)) (by rw [hpc]; rfl) rfl nofun
  | changedGlobal vp seg restart =>
    refine (h.createSegment seg false).release ?_ (by simp [Pc.held]) rfl nofun
    rw [pc_createSegment, hpc]
    rfl
  | attached =>
    refine h.acquire (hfree _ (by rw [hpc]; rfl)) (by rw [hpc]; rfl) rfl ?_
    intro i _ u vp hu
    rw [hattached hpc u] at hu
    cases hu
  | activeSet vp =>
    dsimp only
    have hpassing : (s.pc t).passing = some vp := by rw [hpc]; rfl
    split_ifs
    · refine h.goto (by rw [hpc]; rfl) nofun ?_
      rintro i hi
      cases hi
      exact h.on hpassing le_rfl
    · exact h.release (by rw [hpc]; rfl) (by simp [Pc.held]) rfl nofun
  | activeVP vp =>
    have hpassing : (s.pc t).passing = some vp := by rw [hpc]; rfl
    refine h.acquire (hfree _ (by rw [hpc]; rfl)) (by rw [hpc]; rfl) rfl ?_
    rintro i hi
    cases hi
    exact h.on hpassing le_rfl
  | addVP vp =>
    have hpassing : (s.pc t).passing = some vp := by rw [hpc]; rfl
    refine h.release (by rw [hpc]; rfl) (by simp [Pc.held]) rfl ?_
    rintro i hi
    cases hi
    exact h.on hpassing (Nat.le_succ vp)
  | detachVP vp => exact h.acquire (hfree _ (by rw [hpc]; rfl)) (by rw [hpc]; rfl) rfl nofun
  | detaching vp => exact h.release (by rw [hpc]; rfl) (by simp [Pc.held]) rfl nofun
  | unmapRange range here =>
    exact h.acquire (hfree _ (by rw [hpc]; rfl)) (by rw [hpc]; rfl) rfl nofun
  | unmapGlobal range here =>
    have hs : Inv { s with segmentList := s.segmentList.filter (· ∉ range) } :=
      ⟨h.held, h.passed⟩
    have hheld : (s.pc t).held = [.glock] := by
      rw [hpc]
      rfl
    cases here with
    | true => exact hs.release hheld (by simp [Pc.held]) rfl nofun
    | false => exact hs.release hheld (by simp [Pc.held]) rfl nofun
  | unmapRangeLocal range vp =>
    dsimp only
    split_ifs
    · exact h.goto (by rw [hpc]; rfl) nofun nofun
    · exact h.goto (by rw [hpc]; rfl) nofun nofun
    · exact h.goto (by rw [hpc]; rfl) nofun nofun
  | unmapVP range vp => exact h.acquire (hfree _ (by rw [hpc]; rfl)) (by rw [hpc]; rfl) rfl nofun
  | deleteSegment range vp =>
    refine (h.setSegs vp _).release ?_ (by simp [Pc.held]) rfl nofun
    change (s.pc t).held = _
    rw [hpc]
    rfl
  | lookup seg create => exact h.acquire (hfree _ (by rw [hpc]; rfl)) (by rw [hpc]; rfl) rfl nofun
  | lookedUp seg create =>
    refine (h.createSegment seg create).release ?_ (by simp [Pc.held]) rfl nofun
    rw [pc_createSegment, hpc]
    rfl

theorem Inv.step (h : Inv s) {op : Op τ} (hadm : s.adm VPLimit op) (hord : s.InOrder op) :
    Inv (s.step VPLimit cpu op) := by
  cases op with
  | call t c =>
    obtain ⟨hidle, -⟩ := hadm
    refine h.goto ?_ (by rw [c.entry_nested]; nofun) (by rw [c.entry_passing]; nofun)
    rw [c.entry_held, hidle]
    rfl
  | advance t => exact h.advance hadm hord

/-! ## Deadlock -/

/-- The second half of `attachVP`, at the vp `i`, takes the locks from there above `glock`; the
other locks of vps are below it. -/
def rank (i : Option ℕ) : Lock → Fin 3
  | .glock => 1
  | .byVP vp => if ∀ j ∈ i, vp < j then 0 else 2

/-- The threads of `S` wait for each other. -/
def Deadlocked (s : HATLocks τ) (S : Set τ) : Prop := WaitFor.Deadlocked Pc.wants s.holder s.pc S

omit [DecidableEq τ] in
theorem Inv.rank_lt (h : Inv s) {i : Option ℕ} (hi : ∀ u j, (s.pc u).passing = some j → i = some j)
    (hpassed : ∀ j ∈ i, ∃ u, (s.pc u).passing = some j) (t : τ) (k l : Lock)
    (hk : s.holder k = some t) (hl : (s.pc t).wants = some l) : rank i k < rank i l := by
  have hmem := (h.held k t).2 hk
  have hlow : ∀ vp, (s.pc t).nested = some vp → rank i (.byVP vp) = 0 := by
    intro vp hvp
    refine if_pos ?_
    intro j hj
    obtain ⟨u, hu⟩ := hpassed j hj
    exact h.passed t vp hvp u j hu
  cases hpc : s.pc t with
  | findSegmentGlobal vp seg create =>
    rw [hpc] at hmem hl hlow
    cases hl
    rw [List.mem_singleton.1 hmem, hlow vp rfl]
    exact Nat.zero_lt_one
  | changeGlobal vp seg restart =>
    rw [hpc] at hmem hl hlow
    cases hl
    rw [List.mem_singleton.1 hmem, hlow vp rfl]
    exact Nat.zero_lt_one
  | activeVP vp =>
    have hpassing := hi t vp (by rw [hpc]; rfl)
    rw [hpc] at hmem hl
    cases hl
    rw [List.mem_singleton.1 hmem]
    subst i
    have hhigh : rank (some vp) (.byVP vp) = 2 := if_neg fun hlt => lt_irrefl _ (hlt vp rfl)
    rw [hhigh]
    exact Nat.one_lt_two
  | _ =>
    rw [hpc] at hmem hl
    -- the others do not wait, or hold nothing
    first | exact absurd hmem List.not_mem_nil | cases hl

omit [DecidableEq τ] in
theorem Inv.not_deadlocked (h : Inv s) (S : Set τ) : ¬ s.Deadlocked S := by
  by_cases hactive : ∃ u i, (s.pc u).passing = some i
  · obtain ⟨u, i, hu⟩ := hactive
    refine WaitFor.not_deadlocked (rank (some i)) (h.rank_lt ?_ ?_)
    · intro w j hw
      have hglock : ∀ {x k}, (s.pc x).passing = some k → Lock.glock ∈ (s.pc x).held := by
        intro x k hx
        cases hpc : s.pc x with
        | activeSet => exact List.mem_cons_self
        | activeVP => exact List.mem_cons_self
        | addVP => exact List.mem_cons_of_mem _ List.mem_cons_self
        | _ =>
          rw [hpc] at hx
          cases hx
      have hwu : w = u := (h.held .glock).eq (hglock hw) (hglock hu)
      rw [hwu, hu] at hw
      exact hw
    · rintro j hj
      cases hj
      exact ⟨u, hu⟩
  · rw [not_exists] at hactive
    refine WaitFor.not_deadlocked (rank none) (h.rank_lt ?_ nofun)
    exact fun u j hu => absurd ⟨j, hu⟩ (hactive u)

/-- If no thread begins to wait for `glock` with the lock of a vp that the second half of
`attachVP` has still to take, and the second half does not begin when one waits, then no threads
are ever deadlocked. -/
theorem run_not_deadlocked {ops : List (Op τ)} (h : (orderedRuns VPLimit cpu).Run init ops s)
    (S : Set τ) : ¬ s.Deadlocked S := by
  have hinv : Inv s := by
    refine h.invariant inv_init ?_
    rintro s op hs ⟨hadm, hord⟩
    exact hs.step hadm hord
  exact hinv.not_deadlocked S

/-- In every such run, as long as there is a call there is one that can go on: no lock that its
next step takes is held. -/
theorem run_goesOn {ops : List (Op τ)} (h : (orderedRuns VPLimit cpu).Run init ops s)
    (hcall : ∃ t, s.pc t ≠ .idle) : ∃ t, s.pc t ≠ .idle ∧ s.adm VPLimit (.advance t) := by
  have hinv : Inv s := by
    refine h.invariant inv_init ?_
    rintro s op hs ⟨hadm, hord⟩
    exact hs.step hadm hord
  by_contra hnone
  refine hinv.not_deadlocked {t | s.pc t ≠ .idle} ⟨hcall, fun t ht => ?_⟩
  obtain ⟨l, hl, hheld⟩ : ∃ l, (s.pc t).wants = some l ∧ s.holder l ≠ none := by
    by_contra hfree
    push Not at hfree
    exact hnone ⟨t, ht, hfree⟩
  -- a thread that holds a lock is in a call
  obtain ⟨u, hu⟩ := Option.ne_none_iff_exists'.1 hheld
  refine ⟨u, fun hidle => ?_, l, hl, hu⟩
  have hmem := (hinv.held l u).2 hu
  rw [hidle] at hmem
  exact List.not_mem_nil hmem

end Invariant

/-! ## Two threads -/

instance (VPLimit : ℕ) : (c : Call) → Decidable (c.Valid VPLimit)
  | .mapPage vp _ _ | .attachVP vp | .detachVP vp => inferInstanceAs (Decidable (vp < VPLimit))
  | .unmapRange _ _ | .unmapRangeLocal _ | .findSegmentGlobal _ _ => isTrue trivial

section Decide

variable [Fintype τ] (VPLimit : ℕ) (cpu : τ → ℕ) (s : HATLocks τ)

instance (vp : ℕ) : Decidable (s.Passed vp) :=
  decidable_of_iff (∀ u, ∀ i ∈ (s.pc u).passing, vp < i) Iff.rfl

instance : (op : Op τ) → Decidable (s.adm VPLimit op)
  | .call .. => inferInstanceAs (Decidable (_ ∧ _))
  | .advance t => decidable_of_iff (∀ l ∈ (s.pc t).wants, s.holder l = none) Iff.rfl

instance : (op : Op τ) → Decidable (s.InOrder op)
  | .call _ _ => isTrue trivial
  | .advance t => decidable_of_iff ((∀ vp ∈ s.begins t, s.Passed vp) ∧
      (s.pc t = .attached → ∀ u, (s.pc u).nested = none)) Iff.rfl

instance (op : Op τ) : Decidable ((runs VPLimit cpu).adm s op) :=
  inferInstanceAs (Decidable (s.adm VPLimit op))

instance (op : Op τ) : Decidable ((orderedRuns VPLimit cpu).adm s op) :=
  inferInstanceAs (Decidable (s.adm VPLimit op ∧ s.InOrder op))

end Decide

/-- A fault of vp 1 is in `findSegment`, and vp 0 is detached and attached until `attachVP` comes
to vp 1. -/
def migrates : List (Op Bool) :=
  [.call false (.mapPage 1 5 true), .advance false, .call true (.detachVP 0), .advance true,
    .advance true, .call true (.attachVP 0), .advance true, .advance true, .advance true,
    .advance true, .advance true, .advance true, .advance true]

theorem run_not_deadlocked_migrates :
    let s := migrates.foldl (orderedRuns 2 fun _ => 0).step init
    (orderedRuns 2 fun _ => 0).Run init migrates s ∧ s.pc false = .findSegment 1 5 true ∧
      s.pc true = .activeVP 1 ∧ ∀ S, ¬ s.Deadlocked S := by
  intro s
  have hadmits : (orderedRuns 2 fun _ => 0).Admits init migrates := by decide +kernel
  exact ⟨hadmits.run, by decide +kernel, by decide +kernel, run_not_deadlocked hadmits.run⟩

theorem run_goesOn_migrates :
    ∃ t, (migrates.foldl (orderedRuns 2 fun _ => 0).step init).pc t ≠ .idle ∧
      (migrates.foldl (orderedRuns 2 fun _ => 0).step init).adm 2 (.advance t) := by
  have hadmits : (orderedRuns 2 fun _ => 0).Admits init migrates := by decide +kernel
  exact run_goesOn hadmits.run ⟨false, by decide +kernel⟩

/-- The fault then waits for `glock`, and `attachVP` for the lock of vp 1. -/
theorem attachVP_deadlocks :
    let ops := migrates ++ [.advance false]
    let s := ops.foldl (runs 2 fun _ => 0).step init
    (runs 2 fun _ => 0).Run init ops s ∧ s.pc false = .findSegmentGlobal 1 5 true ∧
      s.pc true = .activeVP 1 ∧ WaitFor.Waits Pc.wants s.holder s.pc false true ∧
      WaitFor.Waits Pc.wants s.holder s.pc true false ∧ s.Deadlocked {false, true} := by
  intro ops s
  have hadmits : (runs 2 fun _ => 0).Admits init ops := by decide +kernel
  have hfault : WaitFor.Waits Pc.wants s.holder s.pc false true :=
    ⟨.glock, by decide +kernel, by decide +kernel⟩
  have hattach : WaitFor.Waits Pc.wants s.holder s.pc true false :=
    ⟨.byVP 1, by decide +kernel, by decide +kernel⟩
  refine ⟨hadmits.run, by decide +kernel, by decide +kernel, hfault, hattach, ⟨false, .inl rfl⟩, ?_⟩
  rintro t (rfl | rfl)
  · exact ⟨true, .inr rfl, hfault⟩
  · exact ⟨false, .inl rfl, hattach⟩

end HATLocks

end K42
