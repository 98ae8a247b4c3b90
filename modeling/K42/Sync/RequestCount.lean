import K42.Lib.Run
import K42.Lib.Threads
import Mathlib.Algebra.Group.Int.Defs
import Mathlib.Algebra.Group.Nat.Defs

/-!
# Shutting down a request count

`RequestCount` counts the requests in flight. A thread that shuts the object down marks
itself in `shutdownThread`, makes the count negative for good by taking `LONG_MAX / 2`
off, and waits for the last request to wake it.

Every step below is one atomic operation of one thread. The call of an operation is made
together with its first atomic operation.
-/

open Function (update update_cases update_of_ne update_self)

namespace K42

def LONG_MAX : ℤ := 2 ^ 63 - 1

/-- Where a thread is. `store` carries nothing over: the count it has read is read anew
if the store fails. -/
inductive RequestCount.Pc (τ : Type)
  | idle
  | inside                  -- a successful `enter` that has not left
  | backingOut              -- `enter` has found the count negative
  | swapping                -- the last one to leave
  | unblocking (id : τ)
  | testCount
  | testThread (r : ℤ)
  | store
  | subtract
  | clear
  | wait
  | blocking
  | blocked
deriving DecidableEq

/-- A call of `shutdown` that has returned, and whether it subtracted from the count. -/
structure RequestCount.Result where
  won : Bool
  result : ℤ
deriving DecidableEq

/-- The count, the threads that use it, and the history of `shutdown`. -/
structure RequestCount (τ : Type) where
  requests : ℤ
  shutdownThread : Option τ
  pc : τ → RequestCount.Pc τ
  wasUnblocked : τ → Bool
  subtractions : ℕ
  finished : List RequestCount.Result

namespace RequestCount

open Threads

variable {τ : Type} [DecidableEq τ]

def init : RequestCount τ where
  requests := 0
  shutdownThread := none
  pc := fun _ => .idle
  wasUnblocked := fun _ => false
  subtractions := 0
  finished := []

def goto (s : RequestCount τ) (t : τ) (p : Pc τ) : RequestCount τ :=
  { s with pc := update s.pc t p }

/-- `FetchAndAddSigned` on a 64-bit word. -/
def add (s : RequestCount τ) (d : ℤ) : RequestCount τ :=
  { s with requests := (s.requests + d).bmod (2 ^ 64) }

/-- `shutdown` returns `r`. -/
def finish (s : RequestCount τ) (t : τ) (won : Bool) (r : ℤ) : RequestCount τ :=
  { s.goto t .idle with finished := ⟨won, r⟩ :: s.finished }

/-! ## Requests -/

def enter (s : RequestCount τ) (t : τ) : RequestCount τ :=
  (s.add 1).goto t (if s.requests < 0 then .backingOut else .inside)

def leave (s : RequestCount τ) (t : τ) : RequestCount τ :=
  (s.add (-1)).goto t
    (if s.requests > 0 then .idle
    else if s.requests = -(LONG_MAX / 2) + 1 then .swapping
    else .idle)

/-- Atomically zeroes the thread id. -/
def swap (s : RequestCount τ) (t : τ) : RequestCount τ :=
  match s.shutdownThread with
  | none => s.goto t .idle
  | some id => { s with shutdownThread := none }.goto t (.unblocking id)

/-- `Scheduler::Unblock`: a thread that is not blocked will not block the next time. -/
def unblock (s : RequestCount τ) (t id : τ) : RequestCount τ :=
  if s.pc id = .blocked then (s.goto id .wait).goto t .idle
  else { s with wasUnblocked := update s.wasUnblocked id true }.goto t .idle

/-! ## Shutdown -/

/-- If the count is less than zero, someone is already shutting down. -/
def testCount (s : RequestCount τ) (t : τ) : RequestCount τ :=
  if s.requests < 0 then s.finish t false s.requests else s.goto t (.testThread s.requests)

/-- If `shutdownThread` is set, someone is already shutting down. -/
def testThread (s : RequestCount τ) (t : τ) (r : ℤ) : RequestCount τ :=
  if s.shutdownThread ≠ none then s.finish t false r else s.goto t .store

/-- `CompareAndStoreSynced` of the thread's own id. -/
def store (s : RequestCount τ) (t : τ) : RequestCount τ :=
  if s.shutdownThread = none then { s with shutdownThread := some t }.goto t .subtract
  else s.goto t .testCount

def subtract (s : RequestCount τ) (t : τ) : RequestCount τ :=
  { s.add (-(LONG_MAX / 2)) with subtractions := s.subtractions + 1 }.goto t
    (if s.requests = 0 then .clear else .wait)

def clear (s : RequestCount τ) (t : τ) : RequestCount τ :=
  { s with shutdownThread := none }.finish t true 0

def wait (s : RequestCount τ) (t : τ) : RequestCount τ :=
  if s.shutdownThread ≠ none then s.goto t .blocking else s.finish t true 0

/-- `Scheduler::Block`. -/
def block (s : RequestCount τ) (t : τ) : RequestCount τ :=
  if s.wasUnblocked t then
    { s with wasUnblocked := update s.wasUnblocked t false }.goto t .wait
  else s.goto t .blocked

/-- The next atomic operation of a thread that is in the middle of one of the calls. -/
def advance (s : RequestCount τ) (t : τ) : RequestCount τ :=
  match s.pc t with
  | .idle => s
  | .inside => s
  | .backingOut => s.leave t
  | .swapping => s.swap t
  | .unblocking id => s.unblock t id
  | .testCount => s.testCount t
  | .testThread r => s.testThread t r
  | .store => s.store t
  | .subtract => s.subtract t
  | .clear => s.clear t
  | .wait => s.wait t
  | .blocking => s.block t
  | .blocked => s

/-! ## Interleavings -/

inductive Action (τ : Type)
  | enter (t : τ)
  | leave (t : τ)
  | shutdown (t : τ)
  | advance (t : τ)

def step (s : RequestCount τ) : Action τ → RequestCount τ
  | .enter t => s.enter t
  | .leave t => s.leave t
  | .shutdown t => s.testCount t
  | .advance t => s.advance t

/-- A thread makes one call at a time, and it leaves only after it has entered. -/
def adm (s : RequestCount τ) : Action τ → Prop
  | .enter t => s.pc t = .idle
  | .leave t => s.pc t = .inside
  | .shutdown t => s.pc t = .idle
  | .advance _ => True

def interleavings : Machine (RequestCount τ) (Action τ) := ⟨step, adm⟩

/-- A call that has read a count of zero finds no other thread marked, and one that marks
itself does so while the count is not negative. -/
def elects (s : RequestCount τ) : Action τ → Prop
  | .advance t =>
    (s.pc t = .testThread 0 → s.shutdownThread = none) ∧
    (s.pc t = .store → s.shutdownThread = none → 0 ≤ s.requests)
  | _ => True

/-- The interleavings in which the election holds. -/
def electing : Machine (RequestCount τ) (Action τ) := ⟨step, fun s a => s.adm a ∧ s.elects a⟩

/-! ## The phases of a shutdown -/

section Phases

variable {s : RequestCount τ} {t w : τ} {p : Pc τ}

/-- Counted in `requests`. -/
def Pc.Counted (p : Pc τ) : Prop := p = .inside ∨ p = .backingOut

instance (p : Pc τ) : Decidable p.Counted :=
  inferInstanceAs (Decidable (p = .inside ∨ p = .backingOut))

/-- In a call of `shutdown` that has subtracted from the count and has not returned. -/
def Pc.Waits (p : Pc τ) : Prop := p = .clear ∨ p = .wait ∨ p = .blocking ∨ p = .blocked

/-- Neither the thread that shuts down nor one that is about to wake it. -/
def Pc.Calm (p : Pc τ) : Prop := ¬ p.Waits ∧ p ≠ .subtract ∧ p ≠ .swapping

def Pc.Quiet (p : Pc τ) : Prop := p.Calm ∨ p = .swapping

/-- No thread shuts down. -/
structure Open (s : RequestCount τ) : Prop where
  subtractions : s.subtractions = 0
  thread : s.shutdownThread = none
  calm : ∀ t, (s.pc t).Calm
  unwon : s.finished.filter (·.won) = []

/-- The thread `w` has marked itself, and is about to subtract. -/
structure Marked (s : RequestCount τ) (w : τ) : Prop where
  subtractions : s.subtractions = 0
  thread : s.shutdownThread = some w
  subtract : s.pc w = .subtract
  calm : ∀ t, t ≠ w → (s.pc t).Calm
  unwon : s.finished.filter (·.won) = []

/-- The thread `w` has subtracted. Once it is about to be told so, no request is inside. -/
structure Closing (s : RequestCount τ) (w : τ) : Prop where
  subtractions : s.subtractions = 1
  waits : (s.pc w).Waits
  quiet : ∀ t, t ≠ w → (s.pc t).Quiet
  drained : s.shutdownThread = none ∨ s.pc w = .clear ∨ (∃ t, s.pc t = .swapping) →
    ∀ t, s.pc t ≠ .inside
  unwon : s.finished.filter (·.won) = []

/-- The shutdown has returned. -/
structure Closed (s : RequestCount τ) : Prop where
  subtractions : s.subtractions = 1
  thread : s.shutdownThread = none
  quiet : ∀ t, (s.pc t).Quiet
  empty : ∀ t, s.pc t ≠ .inside
  won : (s.finished.filter (·.won)).length = 1

def Phase (s : RequestCount τ) : Prop :=
  Open s ∨ (∃ w, Marked s w) ∨ (∃ w, Closing s w) ∨ Closed s

omit [DecidableEq τ] in
theorem Phase.subtractions_le (h : Phase s) : s.subtractions ≤ 1 := by
  rcases h with h | ⟨w, h⟩ | ⟨w, h⟩ | h
  · rw [h.subtractions]
    exact Nat.zero_le 1
  · rw [h.subtractions]
    exact Nat.zero_le 1
  · exact h.subtractions.le
  · exact h.subtractions.le

/-- A quiet thread moves to a quiet place. When the count is closed it does not get inside,
and it becomes the one to wake the shutdown only if no other request is inside. -/
theorem Phase.goto (h : Phase s) (ht : (s.pc t).Quiet) (hp : p.Quiet)
    (hin : p = .inside → s.subtractions = 0)
    (hswap : p = .swapping → s.subtractions = 1 ∧ ∀ u, u ≠ t → s.pc u ≠ .inside) :
    Phase (s.goto t p) := by
  have hcalm : s.subtractions = 0 → p.Calm := by
    intro hzero
    rcases hp with hp | hp
    · exact hp
    · rw [(hswap hp).1] at hzero
      cases hzero
  have hinside : s.subtractions = 1 → p ≠ .inside := by
    intro hone hp
    rw [hin hp] at hone
    cases hone
  rcases h with h | ⟨w, h⟩ | ⟨w, h⟩ | h
  · exact .inl ⟨h.subtractions, h.thread, forall_update h.calm (hcalm h.subtractions), h.unwon⟩
  · have htw : w ≠ t := by
      rintro rfl
      rw [h.subtract] at ht
      rcases ht with ht | ht
      · exact ht.2.1 rfl
      · cases ht
    refine .inr (.inl ⟨w, h.subtractions, h.thread, ?_,
      forall_ne_update h.calm (hcalm h.subtractions), h.unwon⟩)
    change update s.pc t p w = _
    rw [update_of_ne htw]
    exact h.subtract
  · have htw : w ≠ t := by
      rintro rfl
      rcases ht with ht | ht
      · exact ht.1 h.waits
      · have := h.waits
        rw [ht] at this
        simp [Pc.Waits] at this
    have hw : (s.goto t p).pc w = s.pc w := update_of_ne htw _ _
    refine .inr (.inr (.inl ⟨w, h.subtractions, ?_, forall_ne_update h.quiet hp, ?_, h.unwon⟩))
    · rw [hw]
      exact h.waits
    · intro hdrained
      have hother : ∀ u, u ≠ t → s.pc u ≠ .inside := by
        rcases hdrained with hnone | hclear | ⟨u, hu⟩
        · exact fun u _ => h.drained (.inl hnone) u
        · rw [hw] at hclear
          exact fun u _ => h.drained (.inr (.inl hclear)) u
        · change update s.pc t p u = _ at hu
          revert hu
          exact update_cases (fun hu => (hswap hu).2)
            (fun u _ hu v _ => h.drained (.inr (.inr ⟨u, hu⟩)) v) u
      intro u
      change update s.pc t p u ≠ _
      exact update_cases (hinside h.subtractions) hother u
  · exact .inr (.inr (.inr ⟨h.subtractions, h.thread, forall_update h.quiet hp,
      forall_update (P := fun q : Pc τ => q ≠ .inside) h.empty (hinside h.subtractions), h.won⟩))

omit [DecidableEq τ] in
theorem Phase.lose (h : Phase s) (r : ℤ) : Phase { s with finished := ⟨false, r⟩ :: s.finished } := by
  rcases h with h | ⟨w, h⟩ | ⟨w, h⟩ | h
  · exact .inl ⟨h.subtractions, h.thread, h.calm, h.unwon⟩
  · exact .inr (.inl ⟨w, h.subtractions, h.thread, h.subtract, h.calm, h.unwon⟩)
  · exact .inr (.inr (.inl ⟨w, h.subtractions, h.waits, h.quiet, h.drained, h.unwon⟩))
  · exact .inr (.inr (.inr ⟨h.subtractions, h.thread, h.quiet, h.empty, h.won⟩))

omit [DecidableEq τ] in
theorem Phase.congr {s' : RequestCount τ} (h : Phase s) (hpc : s'.pc = s.pc)
    (hthread : s'.shutdownThread = s.shutdownThread) (hsub : s'.subtractions = s.subtractions)
    (hfinished : s'.finished = s.finished) : Phase s' := by
  rcases h with h | ⟨w, h⟩ | ⟨w, h⟩ | h
  · left
    constructor
    all_goals simp only [hpc, hthread, hsub, hfinished]
    exacts [h.subtractions, h.thread, h.calm, h.unwon]
  · refine .inr (.inl ⟨w, ?_⟩)
    constructor
    all_goals simp only [hpc, hthread, hsub, hfinished]
    exacts [h.subtractions, h.thread, h.subtract, h.calm, h.unwon]
  · refine .inr (.inr (.inl ⟨w, ?_⟩))
    constructor
    all_goals simp only [hpc, hthread, hsub, hfinished]
    exacts [h.subtractions, h.waits, h.quiet, h.drained, h.unwon]
  · refine .inr (.inr (.inr ?_))
    constructor
    all_goals simp only [hpc, hthread, hsub, hfinished]
    exacts [h.subtractions, h.thread, h.quiet, h.empty, h.won]

end Phases

/-! ## Steps -/

section Steps

variable [Fintype τ] {s : RequestCount τ} {t : τ}

/-- The count, the phase, and the results of the calls that have returned. -/
structure Inv (s : RequestCount τ) : Prop where
  count : s.requests = census Pc.Counted s.pc - LONG_MAX / 2 * s.subtractions
  phase : Phase s
  results : ∀ e ∈ s.finished, e.result = 0 ↔ e.won = true

omit [DecidableEq τ] [Fintype τ] in
theorem quiet_of_ne {p : Pc τ} (hclear : p ≠ .clear) (hwait : p ≠ .wait) (hblocking : p ≠ .blocking)
    (hblocked : p ≠ .blocked) (hsubtract : p ≠ .subtract) : p.Quiet := by
  by_cases hswap : p = .swapping
  · exact .inr hswap
  · left
    refine ⟨?_, hsubtract, hswap⟩
    rintro (h | h | h | h)
    · exact hclear h
    · exact hwait h
    · exact hblocking h
    · exact hblocked h

/-- The number taken off is larger than any number of requests. -/
def Fits (τ : Type) [Fintype τ] : Prop := (Fintype.card τ : ℤ) < LONG_MAX / 2

theorem half_eq : LONG_MAX / 2 = 4611686018427387903 := by decide

section

variable (h : Inv s)

include h

theorem Inv.add_requests (hfits : Fits τ) {d : ℤ}
    (hd : d = 1 ∨ d = -1 ∨ d = -(LONG_MAX / 2) ∧ s.subtractions = 0) :
    (s.add d).requests = s.requests + d := by
  have hle := census_le_card Pc.Counted s.pc
  have hsub := h.phase.subtractions_le
  have hcount := h.count
  have hlt : (Fintype.card τ : ℤ) < LONG_MAX / 2 := hfits
  have hwidth : ((2 ^ 64 : ℕ) : ℤ) = 18446744073709551616 := rfl
  rw [half_eq] at *
  unfold add
  apply Int.bmod_eq_of_le
  · rw [hwidth]
    omega
  · rw [hwidth]
    omega

theorem Inv.requests_neg (hfits : Fits τ) : s.requests < 0 ↔ s.subtractions = 1 := by
  have hle := census_le_card Pc.Counted s.pc
  have hsub := h.phase.subtractions_le
  have hcount := h.count
  have hlt : (Fintype.card τ : ℤ) < LONG_MAX / 2 := hfits
  rw [half_eq] at *
  omega

theorem Inv.goto {p : Pc τ} (hcounted : (s.pc t).Counted ↔ p.Counted)
    (hphase : Phase (s.goto t p)) : Inv (s.goto t p) where
  count := by
    change s.requests = census Pc.Counted (update s.pc t p) - _
    rw [census_stay hcounted]
    exact h.count
  phase := hphase
  results := h.results

theorem Inv.pass {p : Pc τ} (ht : (s.pc t).Quiet) (hp : p.Quiet)
    (hcounted : ¬ (s.pc t).Counted) (hcounted' : ¬ p.Counted) (hswap : p ≠ .swapping) :
    Inv (s.goto t p) := by
  apply h.goto (iff_of_false hcounted hcounted')
  apply h.phase.goto ht hp
  · exact fun hin => absurd (.inl hin) hcounted'
  · exact fun hp => absurd hp hswap

theorem Inv.lose (ht : (s.pc t).Quiet) (hcounted : ¬ (s.pc t).Counted) {r : ℤ}
    (hr : r ≠ 0) : Inv (s.finish t false r) := by
  have hidle := h.pass ht (p := .idle) (quiet_of_ne nofun nofun nofun nofun nofun) hcounted
    (by simp [Pc.Counted]) nofun
  refine ⟨hidle.count, hidle.phase.lose r, ?_⟩
  intro e he
  rcases List.mem_cons.1 he with rfl | he
  · simp [hr]
  · exact h.results e he

theorem Inv.enter (hfits : Fits τ) (ht : s.pc t = .idle) : Inv (s.enter t) := by
  have hreq := h.add_requests hfits (d := 1) (.inl rfl)
  have hneg := h.requests_neg hfits
  have hquiet : (s.pc t).Quiet := by
    rw [ht]
    exact quiet_of_ne nofun nofun nofun nofun nofun
  have hphase : Phase (s.add 1) := h.phase.congr rfl rfl rfl rfl
  unfold RequestCount.enter
  generalize hp : (if s.requests < 0 then Pc.backingOut else Pc.inside) = p
  have hcounted : p.Counted := by
    rw [← hp]
    split
    · exact .inr rfl
    · exact .inl rfl
  refine ⟨?_, ?_, h.results⟩
  · change (s.add 1).requests = census Pc.Counted (update s.pc t p) - _
    rw [hreq, census_enter (by rw [ht]; simp [Pc.Counted]) hcounted, h.count]
    change _ = _ - LONG_MAX / 2 * (s.subtractions : ℤ)
    omega
  · apply hphase.goto hquiet
    · rcases hcounted with rfl | rfl
      · exact quiet_of_ne nofun nofun nofun nofun nofun
      · exact quiet_of_ne nofun nofun nofun nofun nofun
    · rintro rfl
      have hsub := h.phase.subtractions_le
      split at hp
      · cases hp
      · change s.subtractions = 0
        omega
    · rintro rfl
      rcases hcounted with hc | hc <;> cases hc

theorem Inv.leave (hfits : Fits τ) (ht : (s.pc t).Counted) : Inv (s.leave t) := by
  have hreq := h.add_requests hfits (d := -1) (.inr (.inl rfl))
  have hquiet : (s.pc t).Quiet := by
    rcases ht with ht | ht <;> rw [ht] <;> exact quiet_of_ne nofun nofun nofun nofun nofun
  have hphase : Phase (s.add (-1)) := h.phase.congr rfl rfl rfl rfl
  have hcount : s.requests = -(LONG_MAX / 2) + 1 → s.subtractions = 1 ∧ census Pc.Counted s.pc = 1 := by
    intro hlast
    have hle := census_le_card Pc.Counted s.pc
    have hsub := h.phase.subtractions_le
    have hlt : (Fintype.card τ : ℤ) < LONG_MAX / 2 := hfits
    have hcount := h.count
    rw [half_eq] at *
    omega
  unfold RequestCount.leave
  generalize hp : (if s.requests > 0 then Pc.idle
    else if s.requests = -(LONG_MAX / 2) + 1 then Pc.swapping else Pc.idle) = p
  have hplace : p = .idle ∨ p = .swapping ∧ s.requests = -(LONG_MAX / 2) + 1 := by
    rw [← hp]
    split
    · exact .inl rfl
    · split
      · rename_i hlast
        exact .inr ⟨rfl, hlast⟩
      · exact .inl rfl
  have hcounted : ¬ p.Counted := by
    rcases hplace with rfl | ⟨rfl, -⟩ <;> simp [Pc.Counted]
  have hleave : census Pc.Counted (update s.pc t p) + 1 = census Pc.Counted s.pc :=
    census_leave ht hcounted
  refine ⟨?_, ?_, h.results⟩
  · change (s.add (-1)).requests = census Pc.Counted (update s.pc t p) - _
    rw [hreq, h.count, ← hleave]
    change _ = _ - LONG_MAX / 2 * (s.subtractions : ℤ)
    omega
  · apply hphase.goto hquiet
    · rcases hplace with rfl | ⟨rfl, -⟩ <;> exact quiet_of_ne nofun nofun nofun nofun nofun
    · exact fun hin => absurd (.inl hin) hcounted
    · rintro rfl
      rcases hplace with hidle | ⟨-, hlast⟩
      · cases hidle
      obtain ⟨hone, hcensus⟩ := hcount hlast
      refine ⟨hone, ?_⟩
      -- the thread itself was the only one counted
      intro u hu hin
      have hzero : census Pc.Counted (update s.pc t .swapping) = 0 := by omega
      apply census_eq_zero.1 hzero u
      rw [update_of_ne hu]
      exact .inl hin

theorem Inv.marked (ht : s.pc t = .subtract) : Marked s t := by
  rcases h.phase with hp | ⟨w, hp⟩ | ⟨w, hp⟩ | hp
  · exact absurd ht (hp.calm t).2.1
  · by_cases htw : t = w
    · subst w
      exact hp
    · exact absurd ht (hp.calm t htw).2.1
  · by_cases htw : t = w
    · subst w
      have := hp.waits
      rw [ht] at this
      simp [Pc.Waits] at this
    · have := hp.quiet t htw
      rw [ht] at this
      simp [Pc.Quiet, Pc.Calm] at this
  · have := hp.quiet t
    rw [ht] at this
    simp [Pc.Quiet, Pc.Calm] at this

end

omit [DecidableEq τ] [Fintype τ] in
theorem Pc.Waits.not_quiet {p : Pc τ} (h : p.Waits) : ¬ p.Quiet := by
  rintro (hq | rfl)
  · exact hq.1 h
  · simp [Pc.Waits] at h

section

variable (h : Inv s)

include h

theorem Inv.closing (ht : (s.pc t).Waits) : Closing s t := by
  rcases h.phase with hp | ⟨w, hp⟩ | ⟨w, hp⟩ | hp
  · exact absurd ht (hp.calm t).1
  · by_cases htw : t = w
    · subst w
      rw [hp.subtract] at ht
      simp [Pc.Waits] at ht
    · exact absurd ht (hp.calm t htw).1
  · by_cases htw : t = w
    · subst w
      exact hp
    · exact absurd (hp.quiet t htw) ht.not_quiet
  · exact absurd (hp.quiet t) ht.not_quiet

theorem Inv.swap (ht : s.pc t = .swapping) : Inv (s.swap t) := by
  have hquiet : (s.pc t).Quiet := .inr ht
  have hcounted : ¬ (s.pc t).Counted := by
    rw [ht]
    simp [Pc.Counted]
  unfold RequestCount.swap
  cases hthread : s.shutdownThread with
  | none =>
    exact h.pass hquiet (quiet_of_ne nofun nofun nofun nofun nofun) hcounted (by simp [Pc.Counted])
      nofun
  | some id =>
    have hunblocking : (Pc.unblocking id).Quiet := quiet_of_ne nofun nofun nofun nofun nofun
    have hphase : Phase { s with shutdownThread := none } := by
      rcases h.phase with hp | ⟨w, hp⟩ | ⟨w, hp⟩ | hp
      · exact absurd ht (hp.calm t).2.2
      · have htw : t ≠ w := by
          rintro rfl
          rw [hp.subtract] at ht
          cases ht
        exact absurd ht (hp.calm t htw).2.2
      · exact .inr (.inr (.inl ⟨w, hp.subtractions, hp.waits, hp.quiet,
          fun _ => hp.drained (.inr (.inr ⟨t, ht⟩)), hp.unwon⟩))
      · rw [hp.thread] at hthread
        cases hthread
    have hcleared : Inv { s with shutdownThread := none } := ⟨h.count, hphase, h.results⟩
    exact hcleared.pass hquiet hunblocking hcounted (by simp [Pc.Counted]) nofun

theorem Inv.rewait {p : Pc τ} (ht : (s.pc t).Waits) (hp : p.Waits)
    (hclear : p ≠ .clear) : Inv (s.goto t p) := by
  have hclosing := h.closing ht
  have hcounted : ∀ q : Pc τ, q.Waits → ¬ q.Counted := by
    rintro q (rfl | rfl | rfl | rfl) <;> simp [Pc.Counted]
  have hinside : ∀ q : Pc τ, q.Waits → q ≠ .inside := by
    rintro q hq rfl
    simp [Pc.Waits] at hq
  apply h.goto (iff_of_false (hcounted _ ht) (hcounted _ hp))
  have hself : (s.goto t p).pc t = p := update_self ..
  refine .inr (.inr (.inl ⟨t, hclosing.subtractions, ?_, ?_, ?_, hclosing.unwon⟩))
  · rw [hself]
    exact hp
  · intro u hu
    change (update s.pc t p u).Quiet
    rw [update_of_ne hu]
    exact hclosing.quiet u hu
  · intro hdrained
    apply forall_update (P := fun q : Pc τ => q ≠ .inside) (hclosing.drained ?_) (hinside p hp)
    rcases hdrained with hnone | hp' | ⟨u, hu⟩
    · exact .inl hnone
    · rw [hself] at hp'
      exact absurd hp' hclear
    · change update s.pc t p u = _ at hu
      revert hu
      refine update_cases (fun hu => ?_) (fun u _ hu => .inr (.inr ⟨u, hu⟩)) u
      rw [hu] at hp
      simp [Pc.Waits] at hp

theorem Inv.unblock {id : τ} (ht : s.pc t = .unblocking id) : Inv (s.unblock t id) := by
  have hquiet : (s.pc t).Quiet := by
    rw [ht]
    exact quiet_of_ne nofun nofun nofun nofun nofun
  have hcounted : ¬ (s.pc t).Counted := by
    rw [ht]
    simp [Pc.Counted]
  have hidle : (Pc.idle : Pc τ).Quiet := quiet_of_ne nofun nofun nofun nofun nofun
  unfold RequestCount.unblock
  split
  · rename_i hblocked
    have hne : t ≠ id := by
      rintro rfl
      rw [hblocked] at ht
      cases ht
    have hwoken : Inv (s.goto id .wait) :=
      h.rewait (by rw [hblocked]; simp [Pc.Waits]) (by simp [Pc.Waits]) nofun
    have hsame : (s.goto id .wait).pc t = s.pc t := update_of_ne hne _ _
    exact hwoken.pass (by rw [hsame]; exact hquiet) hidle (by rw [hsame]; exact hcounted)
      (by simp [Pc.Counted]) nofun
  · have hflag : Inv { s with wasUnblocked := update s.wasUnblocked id true } :=
      ⟨h.count, h.phase.congr rfl rfl rfl rfl, h.results⟩
    exact hflag.pass hquiet hidle hcounted (by simp [Pc.Counted]) nofun

theorem Inv.testCount (ht : s.pc t = .idle ∨ s.pc t = .testCount) :
    Inv (s.testCount t) := by
  have hquiet : (s.pc t).Quiet := by
    rcases ht with ht | ht <;> rw [ht] <;> exact quiet_of_ne nofun nofun nofun nofun nofun
  have hcounted : ¬ (s.pc t).Counted := by
    rcases ht with ht | ht <;> rw [ht] <;> simp [Pc.Counted]
  unfold RequestCount.testCount
  split
  · rename_i hneg
    exact h.lose hquiet hcounted hneg.ne
  · exact h.pass hquiet (quiet_of_ne nofun nofun nofun nofun nofun) hcounted (by simp [Pc.Counted])
      nofun

theorem Inv.testThread {r : ℤ} (ht : s.pc t = .testThread r)
    (hr : s.shutdownThread ≠ none → r ≠ 0) : Inv (s.testThread t r) := by
  have hquiet : (s.pc t).Quiet := by
    rw [ht]
    exact quiet_of_ne nofun nofun nofun nofun nofun
  have hcounted : ¬ (s.pc t).Counted := by
    rw [ht]
    simp [Pc.Counted]
  unfold RequestCount.testThread
  split
  · rename_i hsome
    exact h.lose hquiet hcounted (hr hsome)
  · exact h.pass hquiet (quiet_of_ne nofun nofun nofun nofun nofun) hcounted (by simp [Pc.Counted])
      nofun

theorem Inv.store (hfits : Fits τ) (ht : s.pc t = .store)
    (hopen : s.shutdownThread = none → 0 ≤ s.requests) : Inv (s.store t) := by
  have hcounted : ¬ (s.pc t).Counted := by
    rw [ht]
    simp [Pc.Counted]
  unfold RequestCount.store
  split
  · rename_i hnone
    have hzero : s.subtractions = 0 := by
      have hneg := (h.requests_neg hfits).not.1 (not_lt.2 (hopen hnone))
      have hle := h.phase.subtractions_le
      omega
    have hp : Open s := by
      rcases h.phase with hp | ⟨w, hp⟩ | ⟨w, hp⟩ | hp
      · exact hp
      · rw [hp.thread] at hnone
        cases hnone
      · rw [hp.subtractions] at hzero
        cases hzero
      · rw [hp.subtractions] at hzero
        cases hzero
    refine ⟨?_, .inr (.inl ⟨t, hzero, rfl, update_self .., ?_, hp.unwon⟩), h.results⟩
    · change s.requests = census Pc.Counted (update s.pc t .subtract) - _
      rw [census_stay (iff_of_false hcounted (by simp [Pc.Counted]))]
      exact h.count
    · intro u hu
      change (update s.pc t .subtract u).Calm
      rw [update_of_ne hu]
      exact hp.calm u
  · have hquiet : (s.pc t).Quiet := by
      rw [ht]
      exact quiet_of_ne nofun nofun nofun nofun nofun
    exact h.pass hquiet (quiet_of_ne nofun nofun nofun nofun nofun) hcounted (by simp [Pc.Counted])
      nofun

theorem Inv.subtract (hfits : Fits τ) (ht : s.pc t = .subtract) :
    Inv (s.subtract t) := by
  have hp := h.marked ht
  have hreq := h.add_requests hfits (.inr (.inr ⟨rfl, hp.subtractions⟩))
  have hcount := h.count
  rw [hp.subtractions] at hcount
  unfold RequestCount.subtract
  generalize hq : (if s.requests = 0 then Pc.clear else Pc.wait) = q
  have hplace : q = .clear ∧ s.requests = 0 ∨ q = .wait := by
    rw [← hq]
    split
    · rename_i hzero
      exact .inl ⟨rfl, hzero⟩
    · exact .inr rfl
  have hcounted : ¬ q.Counted := by
    rcases hplace with ⟨rfl, -⟩ | rfl <;> simp [Pc.Counted]
  refine ⟨?_, .inr (.inr (.inl ⟨t, ?_, ?_, ?_, ?_, hp.unwon⟩)), h.results⟩
  · change (s.add (-(LONG_MAX / 2))).requests =
      census Pc.Counted (update s.pc t q) - LONG_MAX / 2 * ((s.subtractions + 1 : ℕ) : ℤ)
    rw [hreq, hcount, census_stay (iff_of_false (by rw [ht]; simp [Pc.Counted]) hcounted),
      hp.subtractions, half_eq]
    omega
  · change s.subtractions + 1 = 1
    rw [hp.subtractions]
  · change (update s.pc t q t).Waits
    rw [update_self]
    rcases hplace with ⟨rfl, -⟩ | rfl <;> simp [Pc.Waits]
  · intro u hu
    change (update s.pc t q u).Quiet
    rw [update_of_ne hu]
    exact .inl (hp.calm u hu)
  · intro hdrained
    have hzero : s.requests = 0 := by
      rcases hplace with ⟨-, hzero⟩ | rfl
      · exact hzero
      rcases hdrained with hnone | hclear | ⟨u, hu⟩
      · change s.shutdownThread = none at hnone
        rw [hp.thread] at hnone
        cases hnone
      · change update s.pc t .wait t = _ at hclear
        rw [update_self] at hclear
        cases hclear
      · change update s.pc t .wait u = _ at hu
        revert hu
        exact update_cases nofun (fun u hut hu => absurd hu (hp.calm u hut).2.2) u
    have hcensus : census Pc.Counted s.pc = 0 := by
      rw [hzero] at hcount
      omega
    have hinside : ∀ u, s.pc u ≠ .inside := fun u hin => census_eq_zero.1 hcensus u (.inl hin)
    apply forall_update (P := fun q : Pc τ => q ≠ .inside) hinside
    rcases hplace with ⟨rfl, -⟩ | rfl
    · exact nofun
    · exact nofun

theorem Inv.win (ht : (s.pc t).Waits) (hdrained : ∀ u, s.pc u ≠ .inside) :
    Inv ({ s with shutdownThread := none }.finish t true 0) := by
  have hclosing := h.closing ht
  have hcounted : ¬ (s.pc t).Counted := by
    rcases ht with ht | ht | ht | ht <;> rw [ht] <;> simp [Pc.Counted]
  refine ⟨?_, .inr (.inr (.inr ⟨hclosing.subtractions, rfl, ?_, ?_, ?_⟩)), ?_⟩
  · change s.requests = census Pc.Counted (update s.pc t .idle) - _
    rw [census_stay (iff_of_false hcounted (by simp [Pc.Counted]))]
    exact h.count
  · intro u
    change (update s.pc t .idle u).Quiet
    exact update_cases (quiet_of_ne nofun nofun nofun nofun nofun) hclosing.quiet u
  · exact forall_update (P := fun q : Pc τ => q ≠ .inside) hdrained nofun
  · change (List.filter (·.won) (⟨true, 0⟩ :: s.finished)).length = 1
    rw [List.filter_cons_of_pos rfl, hclosing.unwon]
    rfl
  · intro e he
    rcases List.mem_cons.1 he with rfl | he
    · exact iff_of_true rfl rfl
    · exact h.results e he

theorem Inv.clear (ht : s.pc t = .clear) : Inv (s.clear t) := by
  have hwaits : (s.pc t).Waits := .inl ht
  exact h.win hwaits ((h.closing hwaits).drained (.inr (.inl ht)))

theorem Inv.wait (ht : s.pc t = .wait) : Inv (s.wait t) := by
  have hwaits : (s.pc t).Waits := .inr (.inl ht)
  unfold RequestCount.wait
  split
  · exact h.rewait hwaits (by simp [Pc.Waits]) nofun
  · rename_i hnone
    rw [not_not] at hnone
    have hsame : s = { s with shutdownThread := none } := by
      rw [← hnone]
    have hwin := h.win hwaits ((h.closing hwaits).drained (.inl hnone))
    rw [← hsame] at hwin
    exact hwin

theorem Inv.block (ht : s.pc t = .blocking) : Inv (s.block t) := by
  have hwaits : (s.pc t).Waits := .inr (.inr (.inl ht))
  unfold RequestCount.block
  split
  · have hflag : Inv { s with wasUnblocked := update s.wasUnblocked t false } :=
      ⟨h.count, h.phase.congr rfl rfl rfl rfl, h.results⟩
    exact hflag.rewait hwaits (by simp [Pc.Waits]) nofun
  · exact h.rewait hwaits (by simp [Pc.Waits]) nofun

theorem Inv.advance (hfits : Fits τ) (helects : s.elects (.advance t)) :
    Inv (s.advance t) := by
  unfold RequestCount.advance
  cases ht : s.pc t with
  | idle => exact h
  | inside => exact h
  | backingOut => exact h.leave hfits (.inr ht)
  | swapping => exact h.swap ht
  | unblocking id => exact h.unblock ht
  | testCount => exact h.testCount (.inr ht)
  | testThread r =>
    apply h.testThread ht
    rintro hsome rfl
    exact hsome (helects.1 ht)
  | store => exact h.store hfits ht (helects.2 ht)
  | subtract => exact h.subtract hfits ht
  | clear => exact h.clear ht
  | wait => exact h.wait ht
  | blocking => exact h.block ht
  | blocked => exact h

theorem Inv.step (hfits : Fits τ) {a : Action τ} (hadm : s.adm a)
    (helects : s.elects a) : Inv (s.step a) := by
  cases a with
  | enter t => exact h.enter hfits hadm
  | leave t => exact h.leave hfits (.inl hadm)
  | shutdown t => exact h.testCount (.inl hadm)
  | advance t => exact h.advance hfits helects

end

theorem inv_init : Inv (init : RequestCount τ) where
  count := by
    have hzero : census Pc.Counted (init : RequestCount τ).pc = 0 := by
      rw [census_eq_zero]
      simp [init, Pc.Counted]
    change (0 : ℤ) = census Pc.Counted (init : RequestCount τ).pc - LONG_MAX / 2 * (0 : ℕ)
    rw [hzero, half_eq]
    omega
  phase := .inl ⟨rfl, rfl, fun _ => ⟨by simp [Pc.Waits, init], nofun, nofun⟩, rfl⟩
  results := nofun

end Steps

/-! ## Runs -/

/-- The shutdown protocol: in every interleaving in which the election holds, at most one
call of `shutdown` takes `LONG_MAX / 2` off and returns zero; once it has returned the
count is negative and no request is inside, nor ever again; and all other calls return
something else than zero, and do not wait. -/
theorem run_shutdown [Fintype τ] (hfits : Fits τ) {actions : List (Action τ)} {s : RequestCount τ}
    (h : electing.Run init actions s) :
    s.subtractions ≤ 1 ∧
      (∀ e ∈ s.finished, e.result = 0 ↔ e.won = true) ∧
      (s.finished.filter (·.won)).length ≤ s.subtractions ∧
      ((∃ e ∈ s.finished, e.result = 0) → s.requests < 0 ∧ ∀ t, s.pc t ≠ .inside) ∧
      ∀ t, (s.pc t).Waits → s.subtractions = 1 ∧ s.finished.filter (·.won) = [] ∧
        ∀ u, (s.pc u).Waits → u = t := by
  have hinv : Inv s := by
    refine h.invariant inv_init ?_
    rintro s a hs ⟨hadm, helects⟩
    exact hs.step hfits hadm helects
  refine ⟨hinv.phase.subtractions_le, hinv.results, ?_, ?_, ?_⟩
  · rcases hinv.phase with hp | ⟨w, hp⟩ | ⟨w, hp⟩ | hp
    · rw [hp.unwon]
      exact Nat.zero_le _
    · rw [hp.unwon]
      exact Nat.zero_le _
    · rw [hp.unwon]
      exact Nat.zero_le _
    · rw [hp.won, hp.subtractions]
  · rintro ⟨e, he, hzero⟩
    have hmem : e ∈ s.finished.filter (·.won) :=
      List.mem_filter.2 ⟨he, (hinv.results e he).1 hzero⟩
    rw [hinv.requests_neg hfits]
    rcases hinv.phase with hp | ⟨w, hp⟩ | ⟨w, hp⟩ | hp
    · rw [hp.unwon] at hmem
      cases hmem
    · rw [hp.unwon] at hmem
      cases hmem
    · rw [hp.unwon] at hmem
      cases hmem
    · exact ⟨hp.subtractions, hp.empty⟩
  · intro t ht
    have hclosing := hinv.closing ht
    refine ⟨hclosing.subtractions, hclosing.unwon, ?_⟩
    intro u hu
    by_contra hne
    exact hu.not_quiet (hclosing.quiet u hne)

instance (s : RequestCount τ) : (a : Action τ) → Decidable (s.adm a)
  | .enter _ | .leave _ | .shutdown _ => inferInstanceAs (Decidable (_ = _))
  | .advance _ => isTrue trivial

instance (s : RequestCount τ) : (a : Action τ) → Decidable (s.elects a)
  | .enter _ | .leave _ | .shutdown _ => isTrue trivial
  | .advance _ => inferInstanceAs (Decidable (_ ∧ _))

instance (s : RequestCount τ) (a : Action τ) : Decidable (interleavings.adm s a) :=
  inferInstanceAs (Decidable (s.adm a))

instance (s : RequestCount τ) (a : Action τ) : Decidable (electing.adm s a) :=
  inferInstanceAs (Decidable (s.adm a ∧ s.elects a))

open scoped SmallFin

/-- Thread 1 shuts down while thread 0 is inside; thread 2 tries too, and the last
request wakes thread 1. -/
def shutdownWithRequest : List (Action (Fin 3)) :=
  [.enter 0, .shutdown 1, .advance 1, .advance 1, .advance 1, .advance 1, .advance 1,
    .shutdown 2, .leave 0, .advance 0, .advance 0, .advance 1]

theorem run_shutdown_shutdownWithRequest :
    let s := shutdownWithRequest.foldl electing.step init
    electing.Run init shutdownWithRequest s ∧ s.finished = [⟨true, 0⟩, ⟨false, 2 - 2 ^ 62⟩] ∧
      s.subtractions ≤ 1 ∧ s.requests < 0 ∧ ∀ t, s.pc t ≠ .inside := by
  intro s
  have hadmits : electing.Admits init shutdownWithRequest := by decide +kernel
  have hfinished : s.finished = [⟨true, 0⟩, ⟨false, 2 - 2 ^ 62⟩] := by decide +kernel
  have hfits : Fits (Fin 3) := by
    rw [Fits, Fintype.card_fin]
    decide
  have hrun := run_shutdown hfits hadmits.run
  refine ⟨hadmits.run, hfinished, hrun.1, ?_⟩
  apply hrun.2.2.2.1
  exact ⟨⟨true, 0⟩, by rw [hfinished]; simp, rfl⟩

/-- Thread 1 finds thread 0 marked before it has subtracted. -/
def losesWithZero : List (Action (Fin 2)) :=
  [.shutdown 0, .advance 0, .advance 0, .shutdown 1, .advance 1]

/-- Thread 1 has made both of its tests when thread 0 shuts down, and then marks itself. -/
def electsTwice : List (Action (Fin 2)) :=
  [.shutdown 1, .advance 1, .shutdown 0, .advance 0, .advance 0, .advance 0, .advance 0,
    .advance 1, .advance 1, .advance 1, .advance 1]

/-- A losing call returns zero, and two calls subtract, of which the second one blocks. -/
theorem shutdown_elects_two : (let s := losesWithZero.foldl interleavings.step init
    interleavings.Run init losesWithZero s ∧ s.finished = [⟨false, 0⟩]) ∧
      (let s := electsTwice.foldl interleavings.step init
      interleavings.Run init electsTwice s ∧ s.subtractions = 2 ∧ s.finished = [⟨true, 0⟩] ∧
        s.pc 1 = .blocked) := by
  have hloses : interleavings.Admits init losesWithZero := by decide +kernel
  have htwice : interleavings.Admits init electsTwice := by decide +kernel
  exact ⟨⟨hloses.run, by decide +kernel⟩,
    ⟨htwice.run, by decide +kernel, by decide +kernel, by decide +kernel⟩⟩

end RequestCount

end K42
