import K42.Lib.Linked
import K42.Lib.Phases
import K42.Lib.Run
import Mathlib.Algebra.Group.Nat.Even

/-!
# Barriers

A barrier holds back the threads that enter it until all of them have entered. A
`SpinBarrier` counts `upcount` up to the total in one phase and `downcount` down to zero in
the next; an unlocked load of `upcount` tells a thread which of the two it is in. A
`BlockBarrier` counts up in every phase, blocks the threads on a chain of elements on their
stacks, and counts them out again before the next phase begins.

The loads outside of the lock are steps of their own. In `SpinBarrier` a section under the
lock is one step; in `BlockBarrier` each access under the lock is one too, because waiting
threads test `upcount` while the last thread is still on the chain.
-/

open Function (update update_cases update_cases₂ update_of_ne update_self update_eq_self)

namespace K42

open Threads Phases

/-! ## SpinBarrier -/

/-- Where a thread is, with its local `ltotal`. -/
inductive SpinBarrier.Pc
  | idle
  | loadTotal
  | test (ltotal : ℕ)       -- `if (upcount < ltotal)`, without the lock
  | up (ltotal : ℕ)
  | spinUp (ltotal : ℕ)
  | down
  | spinDown
deriving DecidableEq

/-- A thread, how often it has called `enter`, changed a counter, and returned. -/
structure SpinBarrier.Thread where
  pc : SpinBarrier.Pc
  calls : ℕ
  passed : ℕ
  returns : ℕ
deriving DecidableEq

structure SpinBarrier (τ : Type) where
  upcount : ℕ
  downcount : ℕ
  total : ℕ
  thread : τ → SpinBarrier.Thread

namespace SpinBarrier

variable {τ : Type} [Fintype τ] [DecidableEq τ]

/-- `SpinBarrier(numWaiters)` for the threads `τ`. -/
def init : SpinBarrier τ where
  upcount := 0
  downcount := 0
  total := Fintype.card τ
  thread := fun _ => ⟨.idle, 0, 0, 0⟩

def set (s : SpinBarrier τ) (t : τ) (th : Thread) : SpinBarrier τ :=
  { s with thread := update s.thread t th }

def goto (s : SpinBarrier τ) (t : τ) (p : Pc) : SpinBarrier τ :=
  s.set t { s.thread t with pc := p }

/-- A section under the lock has changed the counters. -/
def pass (s : SpinBarrier τ) (t : τ) (p : Pc) : SpinBarrier τ :=
  s.set t { s.thread t with pc := p, passed := (s.thread t).passed + 1 }

def call (s : SpinBarrier τ) (t : τ) : SpinBarrier τ :=
  s.set t { s.thread t with pc := .loadTotal, calls := (s.thread t).calls + 1 }

def ret (s : SpinBarrier τ) (t : τ) : SpinBarrier τ :=
  s.set t { s.thread t with pc := .idle, returns := (s.thread t).returns + 1 }

def test (s : SpinBarrier τ) (t : τ) (ltotal : ℕ) : SpinBarrier τ :=
  if s.upcount < ltotal then s.goto t (.up ltotal) else s.goto t .down

/-- The section of the up branch. -/
def up (s : SpinBarrier τ) (t : τ) (ltotal : ℕ) : SpinBarrier τ :=
  let downcount := if s.upcount = ltotal - 1 then ltotal else s.downcount
  { s with downcount := downcount, upcount := s.upcount + 1 }.pass t (.spinUp ltotal)

def spinUp (s : SpinBarrier τ) (t : τ) (ltotal : ℕ) : SpinBarrier τ :=
  if s.upcount < ltotal then s else s.ret t

/-- The section of the down branch. -/
def down (s : SpinBarrier τ) (t : τ) : SpinBarrier τ :=
  let upcount := if s.downcount = 1 then 0 else s.upcount
  { s with upcount := upcount, downcount := s.downcount - 1 }.pass t .spinDown

def spinDown (s : SpinBarrier τ) (t : τ) : SpinBarrier τ :=
  if s.downcount > 0 then s else s.ret t

/-- The next step of a thread that is in `enter`. -/
def advance (s : SpinBarrier τ) (t : τ) : SpinBarrier τ :=
  match (s.thread t).pc with
  | .idle => s
  | .loadTotal => s.goto t (.test s.total)
  | .test ltotal => s.test t ltotal
  | .up ltotal => s.up t ltotal
  | .spinUp ltotal => s.spinUp t ltotal
  | .down => s.down t
  | .spinDown => s.spinDown t

inductive Action (τ : Type)
  | enter (t : τ)
  | advance (t : τ)

def step (s : SpinBarrier τ) : Action τ → SpinBarrier τ
  | .enter t => s.call t
  | .advance t => s.advance t

/-- A thread makes one call at a time. -/
def adm (s : SpinBarrier τ) : Action τ → Prop
  | .enter t => (s.thread t).pc = .idle
  | .advance _ => True

def interleavings : Machine (SpinBarrier τ) (Action τ) := ⟨step, adm⟩

instance (s : SpinBarrier τ) : ∀ a, Decidable (interleavings.adm s a)
  | .enter _ => inferInstanceAs (Decidable (_ = _))
  | .advance _ => isTrue trivial

/-- The thread has taken the up branch. -/
def Pc.Up : Pc → Prop
  | .up _ => True
  | .spinUp _ => True
  | _ => False

def Pc.Down : Pc → Prop
  | .down => True
  | .spinDown => True
  | _ => False

/-- What the barrier is for: who has returned `k` times has been waited for by calls of all
threads, the odd phases count up, the even ones down, and the counters stay in their
range. -/
structure Separated (s : SpinBarrier τ) : Prop where
  together : ∀ t u, (s.thread t).returns ≤ (s.thread u).calls
  up : ∀ t, (s.thread t).pc.Up → ¬ Even (s.thread t).calls
  down : ∀ t, (s.thread t).pc.Down → Even (s.thread t).calls
  upcount_le : s.upcount ≤ s.total
  downcount_le : s.downcount ≤ s.total
  downcount_pos : ∀ t, (s.thread t).pc = .down → 0 < s.downcount

/-! ### The rounds -/

def passed (s : SpinBarrier τ) (t : τ) : ℕ := (s.thread t).passed

/-- What a thread relies on in round `r`. -/
def Ready (r n : ℕ) (th : Thread) : Prop :=
  match th.pc with
  | .idle => th.passed = r ∧ th.calls = r ∧ th.returns = r
  | .loadTotal => th.passed = r ∧ th.calls = r + 1 ∧ th.returns = r
  | .test ltotal => ltotal = n ∧ th.passed = r ∧ th.calls = r + 1 ∧ th.returns = r
  | .up ltotal => ltotal = n ∧ Even r ∧ th.passed = r ∧ th.calls = r + 1 ∧ th.returns = r
  | .down => ¬ Even r ∧ th.passed = r ∧ th.calls = r + 1 ∧ th.returns = r
  | .spinUp ltotal =>
    ltotal = n ∧ ¬ Even th.passed ∧ th.calls = th.passed ∧ th.returns + 1 = th.passed
  | .spinDown => Even th.passed ∧ th.calls = th.passed ∧ th.returns + 1 = th.passed

/-- The counters in a round that counts up, and in one that counts down. -/
def Counted (r n : ℕ) (s : SpinBarrier τ) : Prop :=
  if Even r then s.upcount = ahead r s.passed ∧ s.downcount = 0
  else s.upcount = n ∧ s.downcount + ahead r s.passed = n

structure InRound (r : ℕ) (s : SpinBarrier τ) : Prop where
  total : s.total = Fintype.card τ
  round : Round r s.passed
  counted : Counted r (Fintype.card τ) s
  ready : ∀ t, Ready r (Fintype.card τ) (s.thread t)

def Inv (s : SpinBarrier τ) : Prop := ∃ r, InRound r s

section

variable {s : SpinBarrier τ} {t : τ} {th : Thread} {r n k : ℕ}

omit [DecidableEq τ] in
theorem inv_init [Nonempty τ] : Inv (init : SpinBarrier τ) := by
  refine ⟨0, rfl, Round.start fun _ => rfl, ?_, fun _ => ⟨rfl, rfl, rfl⟩⟩
  exact ⟨(ahead_eq_zero fun _ => rfl).symm, rfl⟩

section

omit [Fintype τ]

theorem thread_set : (s.set t th).thread = update s.thread t th := rfl

theorem passed_set : (s.set t th).passed = update s.passed t th.passed :=
  Function.comp_update Thread.passed s.thread t th

end

section

variable (h : InRound r s)

include h

theorem InRound.set (hpassed : th.passed = (s.thread t).passed)
    (hth : Ready r (Fintype.card τ) th) : InRound r (s.set t th) := by
  have heq : (s.set t th).passed = s.passed := by
    rw [passed_set, hpassed]
    exact update_eq_self t s.passed
  refine ⟨h.total, ?_, ?_, forall_update (P := Ready r (Fintype.card τ)) h.ready hth⟩
  · rw [heq]
    exact h.round
  · have hcounted := h.counted
    unfold Counted at hcounted ⊢
    rw [heq]
    exact hcounted

theorem InRound.call (hpc : (s.thread t).pc = .idle) :
    InRound r (s.call t) := by
  have hready := h.ready t
  unfold Ready at hready
  rw [hpc] at hready
  obtain ⟨hpassed, hcalls, hreturns⟩ := hready
  refine h.set rfl ⟨hpassed, ?_, hreturns⟩
  exact congrArg (· + 1) hcalls

/-! ### The two branches -/

section

omit [DecidableEq τ]

theorem InRound.upcount_lt (hr : Even r) : s.upcount < Fintype.card τ := by
  have hcounted := h.counted
  rw [Counted, if_pos hr] at hcounted
  rw [hcounted.1]
  exact h.round.behind

theorem InRound.upcount_eq (hr : ¬ Even r) : s.upcount = Fintype.card τ := by
  have hcounted := h.counted
  rw [Counted, if_neg hr] at hcounted
  exact hcounted.1

theorem InRound.downcount_pos (hr : ¬ Even r) : 0 < s.downcount := by
  have hcounted := h.counted
  rw [Counted, if_neg hr] at hcounted
  have hbehind := h.round.behind
  omega

theorem InRound.downcount_eq (hr : Even r) : s.downcount = 0 := by
  have hcounted := h.counted
  rw [Counted, if_pos hr] at hcounted
  exact hcounted.2

end

theorem InRound.test (hpc : (s.thread t).pc = .test k) :
    InRound r (s.test t k) := by
  have hready := h.ready t
  unfold Ready at hready
  rw [hpc] at hready
  obtain ⟨rfl, hplace⟩ := hready
  unfold SpinBarrier.test
  by_cases hr : Even r
  · rw [if_pos (h.upcount_lt hr)]
    exact h.set rfl ⟨rfl, hr, hplace⟩
  · have hfull := h.upcount_eq hr
    rw [if_neg (by omega)]
    exact h.set rfl ⟨hr, hplace⟩

theorem InRound.spinUp (hpc : (s.thread t).pc = .spinUp k) :
    InRound r (s.spinUp t k) := by
  have hready := h.ready t
  unfold Ready at hready
  rw [hpc] at hready
  obtain ⟨rfl, hodd, hcalls, hreturns⟩ := hready
  unfold SpinBarrier.spinUp
  split
  · exact h
  next hge =>
    have hr : ¬ Even r := fun hr => hge (h.upcount_lt hr)
    have hpassed : (s.thread t).passed = r := by
      rcases h.round.near t with heq | heq
      · exact heq
      · have heq' : (s.thread t).passed = r + 1 := heq
        rw [heq'] at hodd
        exact absurd (Nat.even_add_one.2 hr) hodd
    exact h.set rfl ⟨hpassed, by rw [← hpassed, ← hcalls], by rw [← hpassed, ← hreturns]⟩

theorem InRound.spinDown (hpc : (s.thread t).pc = .spinDown) :
    InRound r (s.spinDown t) := by
  have hready := h.ready t
  unfold Ready at hready
  rw [hpc] at hready
  obtain ⟨heven, hcalls, hreturns⟩ := hready
  unfold SpinBarrier.spinDown
  split
  · exact h
  next hzero =>
    have hr : Even r := by
      by_contra hr
      exact hzero (h.downcount_pos hr)
    have hpassed : (s.thread t).passed = r := by
      rcases h.round.near t with heq | heq
      · exact heq
      · have heq' : (s.thread t).passed = r + 1 := heq
        rw [heq'] at heven
        exact absurd hr (Nat.even_add_one.1 heven)
    exact h.set rfl ⟨hpassed, by rw [← hpassed, ← hcalls], by rw [← hpassed, ← hreturns]⟩

end

/-! ### The sections -/

omit [Fintype τ] in
theorem passed_pass (p : Pc) (ht : s.passed t = r) :
    (s.pass t p).passed = update s.passed t (r + 1) := by
  rw [pass, passed_set]
  exact congrArg (fun n => update s.passed t (n + 1)) ht

/-- A thread waits for the others of the round it has passed. -/
def Waits (n : ℕ) (th : Thread) : Prop :=
  match th.pc with
  | .spinUp ltotal =>
    ltotal = n ∧ ¬ Even th.passed ∧ th.calls = th.passed ∧ th.returns + 1 = th.passed
  | .spinDown => Even th.passed ∧ th.calls = th.passed ∧ th.returns + 1 = th.passed
  | _ => False

theorem Waits.ready (h : Waits n th) : Ready r n th := by
  unfold Waits at h
  unfold Ready
  cases hpc : th.pc <;> rw [hpc] at h <;> first | exact h | exact h.elim

theorem Ready.waits (h : Ready r n th) (hahead : th.passed = r + 1) : Waits n th := by
  unfold Ready at h
  unfold Waits
  cases hpc : th.pc <;> rw [hpc] at h <;> first | exact h | (simp only at h; omega)

theorem InRound.pass (h : InRound r s) (ht : s.passed t = r) {s' : SpinBarrier τ} {p : Pc}
    (hthread : s'.thread = (s.pass t p).thread) (htotal : s'.total = s.total)
    (hlt : ahead r s.passed + 1 < Fintype.card τ)
    (hcounted : s'.passed = update s.passed t (r + 1) →
      ahead r s'.passed = ahead r s.passed + 1 → Counted r (Fintype.card τ) s')
    (hp : Waits (Fintype.card τ)
      { s.thread t with pc := p, passed := (s.thread t).passed + 1 }) : InRound r s' := by
  have heq : s'.passed = update s.passed t (r + 1) := by
    rw [← passed_pass p ht]
    funext u
    exact congrArg Thread.passed (congrFun hthread u)
  have hahead : ahead r s'.passed = ahead r s.passed + 1 := by
    rw [heq]
    exact ahead_update ht
  refine ⟨htotal.trans h.total, ?_, hcounted heq hahead, ?_⟩
  · rw [heq]
    exact h.round.pass ht hlt
  · rw [hthread]
    exact forall_update (P := Ready r (Fintype.card τ)) h.ready hp.ready

theorem InRound.pass_last (h : InRound r s) (ht : s.passed t = r) {s' : SpinBarrier τ} {p : Pc}
    (hthread : s'.thread = (s.pass t p).thread) (htotal : s'.total = s.total)
    (hlast : ahead r s.passed + 1 = Fintype.card τ)
    (hcounted : ahead (r + 1) s'.passed = 0 → Counted (r + 1) (Fintype.card τ) s')
    (hp : Waits (Fintype.card τ)
      { s.thread t with pc := p, passed := (s.thread t).passed + 1 }) : InRound (r + 1) s' := by
  have heq : s'.passed = update s.passed t (r + 1) := by
    rw [← passed_pass p ht]
    funext u
    exact congrArg Thread.passed (congrFun hthread u)
  have hall : ∀ u, s'.passed u = r + 1 := by
    rw [heq]
    exact passed_last ht hlast
  have : Nonempty τ := ⟨t⟩
  refine ⟨htotal.trans h.total, Round.start hall, hcounted (ahead_eq_zero hall), fun u => ?_⟩
  rw [hthread]
  by_cases hu : u = t
  · subst u
    rw [SpinBarrier.pass, thread_set, update_self]
    exact hp.ready
  · rw [SpinBarrier.pass, thread_set, update_of_ne hu]
    exact ((h.ready u).waits (ahead_last ht hlast hu)).ready

theorem InRound.up (h : InRound r s) (hpc : (s.thread t).pc = .up k) : Inv (s.up t k) := by
  have hready := h.ready t
  unfold Ready at hready
  rw [hpc] at hready
  obtain ⟨rfl, hr, hpassed, hcalls, hreturns⟩ := hready
  have hcounted := h.counted
  rw [Counted, if_pos hr] at hcounted
  have hr' : ¬ Even (r + 1) := fun hodd => Nat.even_add_one.1 hodd hr
  have hwaits : Waits (Fintype.card τ) { s.thread t with
      pc := .spinUp (Fintype.card τ), passed := (s.thread t).passed + 1 } := by
    refine ⟨rfl, ?_, ?_, ?_⟩
    · rw [hpassed]
      exact hr'
    · rw [hpassed]
      exact hcalls
    · rw [hpassed, hreturns]
  rcases h.round.pass_cases with hlt | hlast
  · refine ⟨r, h.pass hpassed rfl rfl hlt (fun _ hahead => ?_) hwaits⟩
    rw [Counted, if_pos hr, hahead]
    refine ⟨congrArg (· + 1) hcounted.1, ?_⟩
    have hne : s.upcount ≠ Fintype.card τ - 1 := by omega
    exact (if_neg hne).trans hcounted.2
  · refine ⟨r + 1, h.pass_last hpassed rfl rfl hlast (fun hahead => ?_) hwaits⟩
    rw [Counted, if_neg hr', hahead]
    refine ⟨(congrArg (· + 1) hcounted.1).trans hlast, ?_⟩
    have heq : s.upcount = Fintype.card τ - 1 := by omega
    exact if_pos heq

theorem InRound.down (h : InRound r s) (hpc : (s.thread t).pc = .down) : Inv (s.down t) := by
  have hready := h.ready t
  unfold Ready at hready
  rw [hpc] at hready
  obtain ⟨hr, hpassed, hcalls, hreturns⟩ := hready
  have hcounted := h.counted
  rw [Counted, if_neg hr] at hcounted
  have hr' : Even (r + 1) := Nat.even_add_one.2 hr
  have hwaits : Waits (Fintype.card τ) { s.thread t with
      pc := .spinDown, passed := (s.thread t).passed + 1 } := by
    refine ⟨?_, ?_, ?_⟩
    · rw [hpassed]
      exact hr'
    · rw [hpassed]
      exact hcalls
    · rw [hpassed, hreturns]
  rcases h.round.pass_cases with hlt | hlast
  · refine ⟨r, h.pass hpassed rfl rfl hlt (fun _ hahead => ?_) hwaits⟩
    rw [Counted, if_neg hr, hahead]
    have hne : s.downcount ≠ 1 := by omega
    refine ⟨(if_neg hne).trans hcounted.1, ?_⟩
    change s.downcount - 1 + (ahead r s.passed + 1) = _
    omega
  · refine ⟨r + 1, h.pass_last hpassed rfl rfl hlast (fun hahead => ?_) hwaits⟩
    rw [Counted, if_pos hr', hahead]
    have heq : s.downcount = 1 := by omega
    refine ⟨if_pos heq, ?_⟩
    change s.downcount - 1 = 0
    omega

/-! ### Runs -/

theorem Inv.advance (h : Inv s) (t : τ) : Inv (s.advance t) := by
  obtain ⟨r, h⟩ := h
  unfold SpinBarrier.advance
  split
  case h_1 => exact ⟨r, h⟩
  case h_2 hpc =>
    have hready := h.ready t
    unfold Ready at hready
    rw [hpc] at hready
    exact ⟨r, h.set rfl ⟨h.total, hready⟩⟩
  case h_3 hpc => exact ⟨r, h.test hpc⟩
  case h_4 hpc => exact h.up hpc
  case h_5 hpc => exact ⟨r, h.spinUp hpc⟩
  case h_6 hpc => exact h.down hpc
  case h_7 hpc => exact ⟨r, h.spinDown hpc⟩

theorem Inv.step (h : Inv s) {a : Action τ} (hadm : s.adm a) : Inv (s.step a) := by
  cases a with
  | enter t =>
    obtain ⟨r, h⟩ := h
    exact ⟨r, h.call hadm⟩
  | advance t => exact h.advance t

/-! ### What the invariant says -/

theorem Ready.returns_le (h : Ready r n th) (hnear : th.passed = r ∨ th.passed = r + 1) :
    th.returns ≤ r := by
  unfold Ready at h
  cases hpc : th.pc <;> rw [hpc] at h <;> simp only at h <;> omega

theorem Ready.le_calls (h : Ready r n th) (hnear : th.passed = r ∨ th.passed = r + 1) :
    r ≤ th.calls := by
  unfold Ready at h
  cases hpc : th.pc <;> rw [hpc] at h <;> simp only at h <;> omega

theorem Ready.up (h : Ready r n th) (hup : th.pc.Up) : ¬ Even th.calls := by
  unfold Ready at h
  cases hpc : th.pc with
  | up ltotal =>
    rw [hpc] at h
    rw [h.2.2.2.1]
    exact fun heven => Nat.even_add_one.1 heven h.2.1
  | spinUp ltotal =>
    rw [hpc] at h
    rw [h.2.2.1]
    exact h.2.1
  | idle | loadTotal | test | down | spinDown =>
    rw [hpc] at hup
    exact hup.elim

theorem Ready.down (h : Ready r n th) (hdown : th.pc.Down) : Even th.calls := by
  unfold Ready at h
  cases hpc : th.pc with
  | down =>
    rw [hpc] at h
    rw [h.2.2.1]
    exact Nat.even_add_one.2 h.1
  | spinDown =>
    rw [hpc] at h
    rw [h.2.1]
    exact h.1
  | idle | loadTotal | test | up | spinUp =>
    rw [hpc] at hdown
    exact hdown.elim

section

omit [DecidableEq τ]

theorem InRound.separated (h : InRound r s) : Separated s where
  together t u :=
    ((h.ready t).returns_le (h.round.near t)).trans ((h.ready u).le_calls (h.round.near u))
  up t := (h.ready t).up
  down t := (h.ready t).down
  upcount_le := by
    rw [h.total]
    by_cases hr : Even r
    · exact (h.upcount_lt hr).le
    · exact (h.upcount_eq hr).le
  downcount_le := by
    have hcounted := h.counted
    rw [h.total]
    by_cases hr : Even r
    · rw [h.downcount_eq hr]
      exact Nat.zero_le _
    · rw [Counted, if_neg hr] at hcounted
      omega
  downcount_pos t hpc := by
    have hready := h.ready t
    unfold Ready at hready
    rw [hpc] at hready
    exact h.downcount_pos hready.1

theorem separated_init [IsEmpty τ] : Separated (init : SpinBarrier τ) where
  together := isEmptyElim
  up := isEmptyElim
  down := isEmptyElim
  upcount_le := Nat.zero_le _
  downcount_le := Nat.zero_le _
  downcount_pos := isEmptyElim

end

end

theorem run_inv {ops : List (Action τ)} {s : SpinBarrier τ}
    (h : interleavings.Run init ops s) : Separated s := by
  cases isEmpty_or_nonempty τ with
  | inl hempty =>
    cases h with
    | nil => exact separated_init
    | snoc hrun hadm =>
      rename_i op
      cases op with
      | enter t | advance t => exact isEmptyElim t
  | inr hnonempty =>
    have hinv : Inv s := h.invariant inv_init fun s a hs hadm => hs.step hadm
    obtain ⟨r, hr⟩ := hinv
    exact hr.separated

end SpinBarrier

/-! ## BlockBarrier -/

/-- Where a thread is, with its locals `tmp` and `tmp2`. The element `bl` of a thread is
named by the thread. -/
inductive BlockBarrier.Pc (τ : Type)
  | idle
  | loadTotal
  | acquire
  | testDown                -- `while (downcount)`
  | retry
  | incUp
  | testUp
  | setDown
  | setUp
  | loadList
  | loadNext (tmp : τ)
  | unblock (tmp : τ) (tmp2 : Option τ)
  | clearList
  | releaseLast
  | link
  | storeList
  | releaseWait
  | blocking
  | blocked
  | testWoken               -- `while (upcount != 0)`, without the lock
  | acquireOut
  | decDown
  | releaseOut
deriving DecidableEq

/-- The local `ltotal` of a thread, and how often it has called `enter`, been counted, and
returned. The last thread of a phase is counted when it clears `upcount`. -/
structure BlockBarrier.Hist where
  ltotal : ℕ
  calls : ℕ
  passed : ℕ
  returns : ℕ
deriving DecidableEq

structure BlockBarrier (τ : Type) where
  lock : Option τ
  upcount : ℕ
  downcount : ℕ
  total : ℕ
  list : Option τ
  tid : τ → Option τ
  next : τ → Option τ
  wasUnblocked : τ → Bool
  pc : τ → BlockBarrier.Pc τ
  hist : τ → BlockBarrier.Hist

namespace BlockBarrier

open Linked

variable {τ : Type} [Fintype τ] [DecidableEq τ]

/-- `BlockBarrier(numWaiters)` for the threads `τ`. -/
def init : BlockBarrier τ where
  lock := none
  upcount := 0
  downcount := 0
  total := Fintype.card τ
  list := none
  tid := fun _ => none
  next := fun _ => none
  wasUnblocked := fun _ => false
  pc := fun _ => .idle
  hist := fun _ => ⟨0, 0, 0, 0⟩

def goto (s : BlockBarrier τ) (t : τ) (p : Pc τ) : BlockBarrier τ :=
  { s with pc := update s.pc t p }

def note (s : BlockBarrier τ) (t : τ) (e : Hist) : BlockBarrier τ :=
  { s with hist := update s.hist t e }

def call (s : BlockBarrier τ) (t : τ) : BlockBarrier τ :=
  (s.note t { s.hist t with calls := (s.hist t).calls + 1 }).goto t .loadTotal

def ret (s : BlockBarrier τ) (t : τ) : BlockBarrier τ :=
  (s.note t { s.hist t with returns := (s.hist t).returns + 1 }).goto t .idle

def pass (s : BlockBarrier τ) (t : τ) : BlockBarrier τ :=
  s.note t { s.hist t with passed := (s.hist t).passed + 1 }

def acquire (s : BlockBarrier τ) (t : τ) (p : Pc τ) : BlockBarrier τ :=
  if s.lock = none then { s with lock := some t }.goto t p else s

def testDown (s : BlockBarrier τ) (t : τ) : BlockBarrier τ :=
  if s.downcount = 0 then s.goto t .incUp else s.goto t .retry

def incUp (s : BlockBarrier τ) (t : τ) : BlockBarrier τ :=
  { s with upcount := s.upcount + 1 }.goto t .testUp

def testUp (s : BlockBarrier τ) (t : τ) : BlockBarrier τ :=
  if s.upcount ≥ (s.hist t).ltotal then s.goto t .setDown else (s.pass t).goto t .link

def setDown (s : BlockBarrier τ) (t : τ) : BlockBarrier τ :=
  { s with downcount := (s.hist t).ltotal - 1 }.goto t .setUp

def setUp (s : BlockBarrier τ) (t : τ) : BlockBarrier τ :=
  ({ s with upcount := 0 }.pass t).goto t .loadList

/-- The loop over the list, at `tmp`. -/
def walkOn (tmp : Option τ) : Pc τ :=
  match tmp with
  | none => .clearList
  | some w => .loadNext w

/-- `Scheduler::Unblock`: a thread that is not blocked will not block the next time. -/
def wake (s : BlockBarrier τ) : Option τ → BlockBarrier τ
  | none => s
  | some id =>
    if s.pc id = .blocked then s.goto id .testWoken
    else { s with wasUnblocked := update s.wasUnblocked id true }

/-- `BarrierList bl(tid, list)`. -/
def link (s : BlockBarrier τ) (t : τ) : BlockBarrier τ :=
  { s with
    tid := update s.tid t (some t)
    next := update s.next t s.list }.goto t .storeList

/-- `Scheduler::Block`. -/
def block (s : BlockBarrier τ) (t : τ) : BlockBarrier τ :=
  if s.wasUnblocked t then
    { s with wasUnblocked := update s.wasUnblocked t false }.goto t .testWoken
  else s.goto t .blocked

def testWoken (s : BlockBarrier τ) (t : τ) : BlockBarrier τ :=
  if s.upcount = 0 then s.goto t .acquireOut else s.goto t .blocking

/-- The next step of a thread that is in `enter`. -/
def advance (s : BlockBarrier τ) (t : τ) : BlockBarrier τ :=
  match s.pc t with
  | .idle => s
  | .loadTotal => (s.note t { s.hist t with ltotal := s.total }).goto t .acquire
  | .acquire => s.acquire t .testDown
  | .testDown => s.testDown t
  | .retry => { s with lock := none }.goto t .acquire
  | .incUp => s.incUp t
  | .testUp => s.testUp t
  | .setDown => s.setDown t
  | .setUp => s.setUp t
  | .loadList => s.goto t (walkOn s.list)
  | .loadNext tmp => s.goto t (.unblock tmp (s.next tmp))
  | .unblock tmp tmp2 => (s.wake (s.tid tmp)).goto t (walkOn tmp2)
  | .clearList => { s with list := none }.goto t .releaseLast
  | .releaseLast => { s with lock := none }.ret t
  | .link => s.link t
  | .storeList => { s with list := some t }.goto t .releaseWait
  | .releaseWait => { s with lock := none }.goto t .blocking
  | .blocking => s.block t
  | .blocked => s
  | .testWoken => s.testWoken t
  | .acquireOut => s.acquire t .decDown
  | .decDown => { s with downcount := s.downcount - 1 }.goto t .releaseOut
  | .releaseOut => { s with lock := none }.ret t

/-- `Block` returns without an `Unblock`. -/
def wakeup (s : BlockBarrier τ) (t : τ) : BlockBarrier τ :=
  if s.pc t = .blocking ∨ s.pc t = .blocked then s.goto t .testWoken else s

inductive Action (τ : Type)
  | enter (t : τ)
  | advance (t : τ)
  | wakeup (t : τ)

def step (s : BlockBarrier τ) : Action τ → BlockBarrier τ
  | .enter t => s.call t
  | .advance t => s.advance t
  | .wakeup t => s.wakeup t

/-- A thread makes one call at a time. -/
def adm (s : BlockBarrier τ) : Action τ → Prop
  | .enter t => s.pc t = .idle
  | .advance _ => True
  | .wakeup _ => True

def interleavings : Machine (BlockBarrier τ) (Action τ) := ⟨step, adm⟩

instance (s : BlockBarrier τ) : ∀ a, Decidable (interleavings.adm s a)
  | .enter _ => inferInstanceAs (Decidable (_ = _))
  | .advance _ | .wakeup _ => isTrue trivial

/-- The next step reads the element of `w`. -/
def Pc.Uses (w : τ) : Pc τ → Prop
  | .loadNext tmp => tmp = w
  | .unblock tmp _ => tmp = w
  | _ => False

/-- The element `bl` of the thread has been built and the thread has not returned. -/
def Pc.InScope : Pc τ → Prop
  | .storeList | .releaseWait | .blocking | .blocked | .testWoken => True
  | .acquireOut | .decDown | .releaseOut => True
  | _ => False

/-- What the barrier is for: who has returned `k` times has been waited for by calls of all
threads, the counters stay in their range, and the elements on the list are used only while
their threads have not left. -/
structure Separated (s : BlockBarrier τ) : Prop where
  together : ∀ t u, (s.hist t).returns ≤ (s.hist u).calls
  upcount_le : s.upcount ≤ s.total
  downcount_le : s.downcount ≤ s.total
  ltotal_pos : ∀ t, s.pc t = .setDown → 0 < (s.hist t).ltotal
  downcount_pos : ∀ t, s.pc t = .decDown → 0 < s.downcount
  inScope : ∀ t w, (s.pc t).Uses w → (s.pc w).InScope

/-! ### The rounds -/

/-- A round gathers its threads; once it is complete they are counted out. -/
inductive Mode
  | gathering
  | draining
deriving DecidableEq

/-- The lock is held. -/
def Pc.Holds : Pc τ → Prop
  | .testDown | .retry | .incUp | .testUp | .setDown | .setUp => True
  | .loadList | .loadNext _ | .unblock _ _ | .clearList | .releaseLast => True
  | .link | .storeList | .releaseWait | .decDown | .releaseOut => True
  | _ => False

/-- The thread has added itself to `upcount` and its place among those that wait is open. -/
def Pc.AtTop : Pc τ → Prop
  | .testUp | .setDown | .setUp => True
  | _ => False

/-- The thread waits, and `downcount` is yet to be decremented for it. -/
def Pc.Waiting : Pc τ → Prop
  | .link | .storeList | .releaseWait | .blocking | .blocked | .testWoken => True
  | .acquireOut | .decDown => True
  | _ => False

/-- The element of the thread may be on the list. -/
def Pc.Listed : Pc τ → Prop
  | .releaseWait | .blocking | .blocked | .testWoken | .acquireOut => True
  | _ => False

/-- The thread is on its way through the list. -/
def Pc.Walking : Pc τ → Prop
  | .loadList | .loadNext _ | .unblock _ _ | .clearList => True
  | _ => False

instance : DecidablePred (Pc.AtTop : Pc τ → Prop) := fun p => by
  cases p <;> first | exact isTrue trivial | exact isFalse id

instance : DecidablePred (Pc.Waiting : Pc τ → Prop) := fun p => by
  cases p <;> first | exact isTrue trivial | exact isFalse id

/-- The thread has called `enter` and has not been counted. -/
def Hist.Arriving (r : ℕ) (e : Hist) : Prop :=
  e.passed = r ∧ e.calls = r + 1 ∧ e.returns = r

/-- The thread has been counted in the round before `r` and has not returned. -/
def Hist.Leaving (r : ℕ) (e : Hist) : Prop :=
  e.passed = r ∧ e.calls = r ∧ e.returns + 1 = r

/-- What a thread relies on in round `r`. -/
def Ready (m : Mode) (r n : ℕ) (e : Hist) : Pc τ → Prop
  | .idle => e.passed = r ∧ e.calls = r ∧ e.returns = r
  | .loadTotal => e.Arriving r
  | .acquire | .testDown | .retry => e.ltotal = n ∧ e.Arriving r
  | .incUp | .testUp | .setDown | .setUp => m = .gathering ∧ e.ltotal = n ∧ e.Arriving r
  | .link | .storeList | .releaseWait => m = .gathering ∧ e.Leaving (r + 1)
  | .blocking | .blocked | .testWoken =>
    m = .gathering ∧ e.Leaving (r + 1) ∨ m = .draining ∧ e.Leaving r
  | .acquireOut | .decDown => m = .draining ∧ e.Leaving r
  | .loadList | .loadNext _ | .unblock _ _ | .clearList | .releaseLast =>
    m = .draining ∧ e.Leaving r
  | .releaseOut => e.Leaving r

def passed (s : BlockBarrier τ) (t : τ) : ℕ := (s.hist t).passed

/-- The last thread is about to write the counters. -/
def Topped (n a down : ℕ) : Pc τ → Prop
  | .setDown => a + 1 = n
  | .setUp => a + 1 = n ∧ down = n - 1
  | _ => True

/-- The counters while threads gather, and while they are counted out. -/
def Counted (m : Mode) (r n up down : ℕ) (passed : τ → ℕ) (pc : τ → Pc τ) : Prop :=
  match m with
  | .gathering =>
    up = ahead r passed + census Pc.AtTop pc ∧
    (∀ t, Topped n (ahead r passed) down (pc t)) ∧ ((∀ t, pc t ≠ .setUp) → down = 0)
  | .draining => up = 0 ∧ (∀ t, passed t = r) ∧ down = census Pc.Waiting pc

/-- From `p` on there are only elements of threads that wait. -/
def Chain (next : τ → Option τ) (pc : τ → Pc τ) (p : Option τ) : Prop :=
  ∃ l, Path next p l ∧ ∀ u ∈ l, (pc u).Listed

/-- What a thread knows of the list. -/
def Cursor (next : τ → Option τ) (list : Option τ) (pc : τ → Pc τ) (t : τ) : Pc τ → Prop
  | .loadNext tmp => Chain next pc (some tmp)
  | .unblock tmp tmp2 => (pc tmp).Listed ∧ Chain next pc tmp2
  | .storeList => next t = list
  | _ => True

structure InRound (m : Mode) (r : ℕ) (s : BlockBarrier τ) : Prop where
  total : s.total = Fintype.card τ
  guards : Guards Pc.Holds s.lock s.pc
  round : Round r s.passed
  ready : ∀ t, Ready m r (Fintype.card τ) (s.hist t) (s.pc t)
  counted : Counted m r (Fintype.card τ) s.upcount s.downcount s.passed s.pc
  chain : Chain s.next s.pc s.list
  cursor : ∀ t, Cursor s.next s.list s.pc t (s.pc t)
  cleared : m = .draining → s.list = none ∨ ∃ t, (s.pc t).Walking

def Inv (s : BlockBarrier τ) : Prop := ∃ m r, InRound m r s

section

variable {s : BlockBarrier τ} {t u : τ} {p q : Pc τ} {m : Mode} {r n up down : ℕ} {e : Hist}
variable {passed : τ → ℕ} {pc pc' : τ → Pc τ} {next : τ → Option τ} {list l : Option τ}

omit [DecidableEq τ] in
theorem inv_init [Nonempty τ] : Inv (init : BlockBarrier τ) := by
  refine ⟨.gathering, 0, rfl, fun t => iff_of_false id nofun, Round.start fun _ => rfl,
    fun t => ⟨rfl, rfl, rfl⟩, ⟨?_, fun t => trivial, fun _ => rfl⟩, ⟨[], rfl, nofun⟩,
    fun t => trivial, nofun⟩
  have hahead : ahead 0 (init : BlockBarrier τ).passed = 0 := ahead_eq_zero fun _ => rfl
  have htop : census Pc.AtTop (init : BlockBarrier τ).pc = 0 := census_eq_zero.2 fun _ => id
  rw [hahead, htop]
  rfl

/-! ### The list -/

omit [Fintype τ] [DecidableEq τ] in
theorem Chain.mono (h : Chain next pc l) (hlisted : ∀ u, (pc u).Listed → (pc' u).Listed) :
    Chain next pc' l := by
  obtain ⟨us, hpath, hus⟩ := h
  exact ⟨us, hpath, fun u hu => hlisted u (hus u hu)⟩

omit [Fintype τ] in
theorem Chain.link (h : Chain next pc l) (ht : ¬ (pc t).Listed) (a : Option τ) :
    Chain (update next t a) pc l := by
  obtain ⟨us, hpath, hus⟩ := h
  refine ⟨us, hpath.congr fun u hu => ?_, hus⟩
  have hut : u ≠ t := by
    intro hut
    subst u
    exact ht (hus t hu)
  exact update_of_ne hut a next

section

omit [Fintype τ] [DecidableEq τ]

theorem Chain.nil : Chain next pc none := ⟨[], rfl, nofun⟩

theorem Chain.head (h : Chain next pc (some u)) : (pc u).Listed ∧ Chain next pc (next u) := by
  obtain ⟨us, hpath, hus⟩ := h
  cases us with
  | nil => cases hpath
  | cons v us =>
    obtain ⟨heq, htail⟩ := hpath
    cases heq
    exact ⟨hus u List.mem_cons_self, us, htail, fun w hw => hus w (List.mem_cons_of_mem _ hw)⟩

theorem Chain.cons (h : Chain next pc (next u)) (hu : (pc u).Listed) :
    Chain next pc (some u) := by
  obtain ⟨us, hpath, hus⟩ := h
  refine ⟨u :: us, ⟨rfl, hpath⟩, ?_⟩
  exact List.forall_mem_cons.2 ⟨hu, hus⟩

end

omit [Fintype τ] in
theorem listed_update (h : (pc t).Listed → p.Listed) (u : τ) (hu : (pc u).Listed) :
    (update pc t p u).Listed :=
  update_mono (P := Pc.Listed) h u hu

section

omit [Fintype τ] [DecidableEq τ]

theorem Cursor.mono (h : Cursor next list pc t p)
    (hlisted : ∀ u, (pc u).Listed → (pc' u).Listed) : Cursor next list pc' t p := by
  cases p with
  | loadNext tmp => exact Chain.mono h hlisted
  | unblock tmp tmp2 => exact ⟨hlisted tmp h.1, h.2.mono hlisted⟩
  | storeList => exact h
  | _ => trivial

theorem Cursor.of_free (h : ¬ p.Holds) : Cursor next list pc t p := by
  cases p <;> first | trivial | exact absurd trivial h

end

/-! ### Quiet moves -/

/-- A move that leaves the counters and the list to the others. -/
structure Quiet (q p : Pc τ) : Prop where
  top : ¬ q.AtTop
  top' : ¬ p.AtTop
  waiting : q.Waiting ↔ p.Waiting
  listed : q.Listed → p.Listed
  walking : q.Walking → p.Walking

omit [Fintype τ] [DecidableEq τ] in
theorem Topped.of_not (h : ¬ p.AtTop) : Topped n r down p := by
  cases p <;> first | trivial | exact absurd trivial h

theorem Counted.quiet (h : Counted m r n up down passed pc) (hpc : pc t = q) (hq : ¬ q.AtTop)
    (hp : ¬ p.AtTop) (hwaiting : q.Waiting ↔ p.Waiting) :
    Counted m r n up down passed (update pc t p) := by
  subst q
  cases m with
  | gathering =>
    obtain ⟨hup, htop, hdown⟩ := h
    refine ⟨?_, forall_update (P := Topped n (ahead r passed) down) htop (.of_not hp), ?_⟩
    · rw [census_stay (iff_of_false hq hp)]
      exact hup
    · intro hne
      refine hdown fun u heq => ?_
      have hut : u ≠ t := by
        intro hut
        subst u
        exact hq (heq ▸ trivial)
      exact hne u ((update_of_ne hut p pc).trans heq)
  | draining =>
    obtain ⟨hup, hall, hdown⟩ := h
    refine ⟨hup, hall, ?_⟩
    rw [census_stay hwaiting]
    exact hdown

section

omit [Fintype τ]

theorem passed_note (s : BlockBarrier τ) (t : τ) (e : Hist) :
    (s.note t e).passed = update s.passed t e.passed :=
  Function.comp_update Hist.passed s.hist t e

theorem passed_note_eq (h : e.passed = (s.hist t).passed) : (s.note t e).passed = s.passed := by
  rw [passed_note, h]
  exact update_eq_self t s.passed

theorem ready_update {hist : τ → Hist} (h : ∀ u, Ready m r n (hist u) (pc u))
    (hp : Ready m r n e p) (u : τ) :
    Ready m r n (update hist t e u) (update pc t p u) := by
  exact update_cases₂ hp (fun u _ => h u) u

theorem ready_goto {hist : τ → Hist} (h : ∀ u, Ready m r n (hist u) (pc u))
    (hp : Ready m r n (hist t) p) (u : τ) : Ready m r n (hist u) (update pc t p u) := by
  have hu := ready_update (t := t) h hp u
  rwa [update_eq_self] at hu

theorem cursor_update (h : ∀ u, Cursor next list pc u (pc u)) (hlisted : (pc t).Listed → p.Listed)
    (hp : Cursor next list pc t p) (u : τ) :
    Cursor next list (update pc t p) u (update pc t p u) := by
  refine Cursor.mono ?_ (listed_update hlisted)
  exact update_cases hp (fun u _ => h u) u

theorem note_self (s : BlockBarrier τ) (t : τ) : s.note t (s.hist t) = s := by
  rw [BlockBarrier.note, update_eq_self]

end

section

variable (h : InRound m r s)

include h

theorem InRound.move (hpc : s.pc t = q)
    (hlisted : q.Listed → p.Listed) (hwalking : q.Walking → p.Walking)
    (hguards : Guards Pc.Holds l (update s.pc t p))
    (hround : Round r (s.note t e).passed) (hready : Ready m r (Fintype.card τ) e p)
    (hcounted : Counted m r (Fintype.card τ) up down (s.note t e).passed
      (update s.pc t p)) (hcursor : Cursor s.next s.list s.pc t p) :
    InRound m r { s.note t e with
      lock := l, upcount := up, downcount := down, pc := update s.pc t p } := by
  subst q
  refine ⟨h.total, hguards, hround, ready_update h.ready hready, hcounted,
    h.chain.mono (listed_update hlisted), cursor_update h.cursor hlisted hcursor, ?_⟩
  intro hm
  refine (h.cleared hm).imp_right ?_
  rintro ⟨u, hu⟩
  exact ⟨u, update_mono (P := Pc.Walking) hwalking u hu⟩

/-- **A quiet move**, with a lock that fits it. -/
theorem InRound.note (hpc : s.pc t = q) (hq : Quiet q p)
    (hpassed : e.passed = (s.hist t).passed) (hready : Ready m r (Fintype.card τ) e p)
    (hguards : Guards Pc.Holds l (update s.pc t p)) (hcursor : Cursor s.next s.list s.pc t p) :
    InRound m r { s.note t e with lock := l, pc := update s.pc t p } := by
  have hsame := passed_note_eq hpassed
  refine h.move hpc hq.listed hq.walking hguards ?_ hready ?_ hcursor
  · rw [hsame]
    exact h.round
  · rw [hsame]
    exact h.counted.quiet hpc hq.top hq.top' hq.waiting

theorem InRound.goto (hpc : s.pc t = q) (hq : Quiet q p)
    (hready : Ready m r (Fintype.card τ) (s.hist t) p)
    (hguards : Guards Pc.Holds l (update s.pc t p)) (hcursor : Cursor s.next s.list s.pc t p) :
    InRound m r { s with lock := l, pc := update s.pc t p } := by
  have hnote := h.note hpc hq rfl hready hguards hcursor
  rwa [note_self] at hnote

theorem InRound.stay (hpc : s.pc t = q) (hq : Quiet q p)
    (hholds : q.Holds ↔ p.Holds) (hready : Ready m r (Fintype.card τ) (s.hist t) p)
    (hcursor : Cursor s.next s.list s.pc t p) : InRound m r (s.goto t p) := by
  subst q
  exact h.goto rfl hq hready (h.guards.stay hholds) hcursor

theorem InRound.count (hpc : s.pc t = q) (hholds : q.Holds ↔ p.Holds)
    (hlisted : q.Listed → p.Listed) (hwalking : q.Walking → p.Walking)
    (hready : Ready m r (Fintype.card τ) (s.hist t) p)
    (hcounted : Counted m r (Fintype.card τ) up down s.passed (update s.pc t p))
    (hcursor : Cursor s.next s.list s.pc t p) :
    InRound m r { s with
      upcount := up, downcount := down, pc := update s.pc t p } := by
  have hguards : Guards Pc.Holds s.lock (update s.pc t p) := by
    refine h.guards.stay ?_
    rw [hpc]
    exact hholds
  have hmove := h.move (e := s.hist t) hpc hlisted hwalking hguards (by rw [note_self]; exact h.round)
    hready (by rw [note_self]; exact hcounted) hcursor
  rwa [note_self] at hmove

section

omit [DecidableEq τ]

theorem InRound.readyAt (hpc : s.pc t = q) :
    Ready m r (Fintype.card τ) (s.hist t) q := by
  have hready := h.ready t
  rwa [hpc] at hready

theorem InRound.cursorAt (hpc : s.pc t = q) :
    Cursor s.next s.list s.pc t q := by
  have hcursor := h.cursor t
  rwa [hpc] at hcursor

theorem InRound.unique (hpc : s.pc t = q) (hq : q.Holds) {u : τ} (hu : (s.pc u).Holds) : u = t := by
  refine h.guards.eq hu ?_
  rw [hpc]
  exact hq

end

theorem InRound.acquired (hfree : s.lock = none) (hp : p.Holds) :
    Guards Pc.Holds (some t) (update s.pc t p) := by
  have hguards := h.guards
  rw [hfree] at hguards
  exact hguards.acquire hp

theorem InRound.released (hpc : s.pc t = q) (hq : q.Holds)
    (hp : ¬ p.Holds) : Guards Pc.Holds none (update s.pc t p) := by
  refine h.guards.release ?_ hp
  rw [hpc]
  exact hq

/-! ### Arriving -/

theorem InRound.call (hpc : s.pc t = .idle) : InRound m r (s.call t) := by
  obtain ⟨hpassed, hcalls, hreturns⟩ := h.readyAt hpc
  have hready : Hist.Arriving r { s.hist t with calls := (s.hist t).calls + 1 } :=
    ⟨hpassed, congrArg (· + 1) hcalls, hreturns⟩
  refine h.note hpc ⟨id, id, Iff.rfl, id, id⟩ rfl hready (h.guards.stay ?_) trivial
  rw [hpc]
  exact Iff.rfl

theorem InRound.loadTotal (hpc : s.pc t = .loadTotal) :
    InRound m r ((s.note t { s.hist t with ltotal := s.total }).goto t .acquire) := by
  have harriving : Hist.Arriving r (s.hist t) := h.readyAt hpc
  refine h.note hpc ⟨id, id, Iff.rfl, id, id⟩ rfl ⟨h.total, harriving⟩ (h.guards.stay ?_) trivial
  rw [hpc]
  exact Iff.rfl

theorem InRound.acquire (hpc : s.pc t = .acquire) :
    InRound m r (s.acquire t .testDown) := by
  unfold BlockBarrier.acquire
  split
  next hfree =>
    have hready := h.readyAt hpc
    exact h.goto hpc ⟨id, id, Iff.rfl, id, id⟩ hready (h.acquired hfree trivial) trivial
  next => exact h

end

section

omit [Fintype τ] [DecidableEq τ]

theorem Ready.gather (h : Ready .draining r n e p) (hwaiting : ¬ p.Waiting)
    (hwalking : ¬ p.Walking) (hlast : p ≠ .releaseLast) : Ready .gathering r n e p := by
  cases p <;> first
    | exact h
    | exact absurd trivial hwaiting
    | exact absurd trivial hwalking
    | exact absurd rfl hlast
    | exact absurd h.1 nofun

theorem Ready.not_atTop (h : Ready .draining r n e p) : ¬ p.AtTop := by
  cases p <;> first | exact id | exact absurd h.1 nofun

theorem Walking.holds {p : Pc τ} (h : p.Walking) : p.Holds := by
  cases p <;> trivial

end

omit [DecidableEq τ] in
/-- **All are out.** When the lock is free of those that wake the others and nobody is left
to be counted out, the next threads gather. -/
theorem InRound.gather (h : InRound .draining r s) (hpc : s.pc t = .testDown)
    (hdown : s.downcount = 0) : InRound .gathering r s := by
  obtain ⟨hup, hall, hcensus⟩ := h.counted
  have hwaiting : ∀ u, ¬ (s.pc u).Waiting := by
    rw [hdown] at hcensus
    exact census_eq_zero.1 hcensus.symm
  have hother : ∀ u, (s.pc u).Holds → s.pc u = .testDown := by
    intro u hu
    rw [h.unique hpc trivial hu]
    exact hpc
  refine ⟨h.total, h.guards, h.round, fun u => ?_, ⟨?_, fun u => ?_, fun _ => hdown⟩, h.chain,
    h.cursor, nofun⟩
  · refine (h.ready u).gather (hwaiting u) (fun hu => ?_) (fun hu => ?_)
    · rw [hother u (Walking.holds hu)] at hu
      exact hu
    · have heq := hother u (hu ▸ trivial)
      rw [hu] at heq
      exact nomatch heq
  · rw [ahead_eq_zero hall, census_eq_zero.2 fun u => (h.ready u).not_atTop]
    exact hup
  · exact Topped.of_not (h.ready u).not_atTop

theorem InRound.testDown (h : InRound m r s) (hpc : s.pc t = .testDown) : Inv (s.testDown t) := by
  have hready := h.readyAt hpc
  unfold BlockBarrier.testDown
  split
  next hdown =>
    have hg : InRound .gathering r s := by
      cases m with
      | gathering => exact h
      | draining => exact h.gather hpc hdown
    exact ⟨_, r, hg.stay hpc ⟨id, id, Iff.rfl, id, id⟩ Iff.rfl ⟨rfl, hready⟩ trivial⟩
  next => exact ⟨m, r, h.stay hpc ⟨id, id, Iff.rfl, id, id⟩ Iff.rfl hready trivial⟩

theorem InRound.retry (h : InRound m r s) (hpc : s.pc t = .retry) :
    InRound m r ({ s with lock := none }.goto t .acquire) := by
  have hready := h.readyAt hpc
  exact h.goto hpc ⟨id, id, Iff.rfl, id, id⟩ hready (h.released hpc trivial id) trivial

/-! ### Counting up -/

omit [DecidableEq τ] in
theorem InRound.census_atTop (h : InRound m r s) (hpc : s.pc t = q) (hq : q.AtTop) :
    census Pc.AtTop s.pc = 1 := by
  have hholds : ∀ {p : Pc τ}, p.AtTop → p.Holds := by
    intro p hp
    cases p <;> trivial
  refine census_eq_one (by rw [hpc]; exact hq) fun u hu => ?_
  exact h.unique hpc (hholds hq) (hholds hu)

theorem InRound.topped (h : InRound m r s) (hpc : s.pc t = q) (hq : q.Holds) {a : ℕ}
    (hp : Topped n a down p) (u : τ) : Topped n a down (update s.pc t p u) := by
  refine update_cases hp (fun u hut => Topped.of_not fun hu => hut (h.unique hpc hq ?_)) u
  · cases hpcu : s.pc u <;> rw [hpcu] at hu <;> trivial

omit [Fintype τ] in
theorem not_setUp (hpc : pc t = q) (hq : q ≠ .setUp)
    (h : ∀ u, update pc t p u ≠ .setUp) (u : τ) : pc u ≠ .setUp := by
  refine fun hu => h u (update_mono (P := fun p => p = Pc.setUp) (fun heq => ?_) u hu)
  exact absurd (hpc.symm.trans heq) hq

theorem InRound.incUp (h : InRound m r s) (hpc : s.pc t = .incUp) : InRound m r (s.incUp t) := by
  obtain ⟨rfl, hready⟩ := h.readyAt hpc
  obtain ⟨hup, htop, hdown⟩ := h.counted
  refine h.count (p := .testUp) hpc Iff.rfl id id ⟨rfl, hready⟩ ⟨?_, ?_, ?_⟩ trivial
  · rw [census_enter (by rw [hpc]; exact id) trivial, hup]
    exact Nat.add_assoc _ _ _
  · exact forall_update (P := Topped _ _ _) htop trivial
  · exact fun hne => hdown (not_setUp hpc nofun hne)

theorem InRound.testUp (h : InRound m r s) (hpc : s.pc t = .testUp) : InRound m r (s.testUp t) := by
  obtain ⟨rfl, hltotal, hcounted, hcalls, hreturns⟩ := h.readyAt hpc
  obtain ⟨hup, htop, hdown⟩ := h.counted
  have hpassed : s.passed t = r := hcounted
  have hone := h.census_atTop hpc trivial
  have hbehind := h.round.behind
  unfold BlockBarrier.testUp
  split
  next hge =>
    refine h.count (p := .setDown) hpc Iff.rfl id id ⟨rfl, hltotal, hpassed, hcalls, hreturns⟩
      ⟨?_, h.topped hpc trivial ?_, fun hne => hdown (not_setUp hpc nofun hne)⟩ trivial
    · rw [census_stay (by rw [hpc]; exact Iff.rfl)]
      exact hup
    · change ahead r s.passed + 1 = Fintype.card τ
      omega
  next hlt =>
    have hnote : (s.note t { s.hist t with passed := (s.hist t).passed + 1 }).passed =
        update s.passed t (r + 1) := by
      rw [passed_note]
      exact congrArg (fun n => update s.passed t (n + 1)) hpassed
    refine h.move (p := .link) hpc id id (h.guards.stay ?_) ?_ ?_ ?_ trivial
    · rw [hpc]
      exact Iff.rfl
    · rw [hnote]
      exact h.round.pass hpassed (by omega)
    · refine ⟨rfl, congrArg (· + 1) hpassed, hcalls, congrArg (· + 1) hreturns⟩
    · rw [hnote]
      refine ⟨?_, h.topped hpc trivial trivial, fun hne => hdown (not_setUp hpc nofun hne)⟩
      have hleave : census Pc.AtTop (update s.pc t .link) + 1 = census Pc.AtTop s.pc :=
        census_leave (by rw [hpc]; trivial) id
      rw [ahead_update hpassed]
      change s.upcount = _
      omega

theorem InRound.setDown (h : InRound m r s) (hpc : s.pc t = .setDown) :
    InRound m r (s.setDown t) := by
  obtain ⟨rfl, hltotal, harriving⟩ := h.readyAt hpc
  obtain ⟨hup, htop, hdown⟩ := h.counted
  have hlast := htop t
  rw [hpc] at hlast
  refine h.count (p := .setUp) hpc Iff.rfl id id ⟨rfl, hltotal, harriving⟩
    ⟨?_, h.topped hpc trivial ⟨hlast, ?_⟩, fun hne => ?_⟩ trivial
  · rw [census_stay (by rw [hpc]; exact Iff.rfl)]
    exact hup
  · rw [hltotal]
  · exact absurd (update_self t _ s.pc) (hne t)

/-! ### The last thread -/

omit [Fintype τ] [DecidableEq τ] in
theorem Ready.drain (h : Ready .gathering r n e p) (hpassed : e.passed = r + 1)
    (hfree : ¬ p.Holds) : Ready .draining (r + 1) n e p ∧ p.Waiting := by
  cases p with
  | blocking | blocked | testWoken =>
    refine ⟨.inr ⟨rfl, ?_⟩, trivial⟩
    rcases h with h | h
    · exact h.2
    · exact absurd h.1 nofun
  | idle | loadTotal =>
    have heq : e.passed = r := h.1
    omega
  | acquire =>
    have heq : e.passed = r := h.2.1
    omega
  | acquireOut => exact absurd h.1 nofun
  | _ => exact absurd trivial hfree

/-- **The last thread clears `upcount`.** All others wait, and are now counted out. -/
theorem InRound.setUp (h : InRound m r s) (hpc : s.pc t = .setUp) :
    InRound .draining (r + 1) (s.setUp t) := by
  obtain ⟨rfl, hltotal, hcounted, hcalls, hreturns⟩ := h.readyAt hpc
  obtain ⟨hup, htop, hdown⟩ := h.counted
  have hpassed : s.passed t = r := hcounted
  have hlast := htop t
  rw [hpc] at hlast
  have hnote : (s.setUp t).passed = update s.passed t (r + 1) := by
    change (s.note t { s.hist t with passed := (s.hist t).passed + 1 }).passed = _
    rw [passed_note]
    exact congrArg (fun n => update s.passed t (n + 1)) hpassed
  have hall : ∀ u, (s.setUp t).passed u = r + 1 := by
    rw [hnote]
    exact passed_last hpassed hlast.1
  have hothers : ∀ u, u ≠ t →
      Ready .draining (r + 1) (Fintype.card τ) (s.hist u) (s.pc u) ∧ (s.pc u).Waiting := by
    intro u hu
    refine (h.ready u).drain (ahead_last hpassed hlast.1 hu) fun hholds => hu ?_
    exact h.unique hpc trivial hholds
  have hlisted : (s.pc t).Listed → (Pc.loadList : Pc τ).Listed := by
    rw [hpc]
    exact False.elim
  have : Nonempty τ := ⟨t⟩
  refine ⟨h.total, h.guards.stay (by rw [hpc]; exact Iff.rfl), Round.start hall, fun u => ?_,
    ⟨rfl, hall, ?_⟩, h.chain.mono (listed_update hlisted),
    cursor_update h.cursor hlisted trivial, fun _ => .inr ⟨t, ?_⟩⟩
  · change Ready _ _ _ (update s.hist t _ u) (update s.pc t _ u)
    exact update_cases₂ ⟨rfl, congrArg (· + 1) hpassed, hcalls, congrArg (· + 1) hreturns⟩
      (fun u hu => (hothers u hu).1) u
  · refine hlast.2.trans (census_all_but (t := t) ?_ fun u hu => ?_).symm
    · change ¬ (update s.pc t _ t).Waiting
      rw [update_self]
      exact id
    · change (update s.pc t _ u).Waiting
      rw [update_of_ne hu]
      exact (hothers u hu).2
  · change (update s.pc t _ t).Walking
    rw [update_self]
    trivial

/-! ### The walk through the list -/

theorem InRound.loadList (h : InRound m r s) (hpc : s.pc t = .loadList) :
    InRound m r (s.goto t (walkOn s.list)) := by
  have hready := h.readyAt hpc
  have hchain := h.chain
  cases hlist : s.list with
  | none => exact h.stay hpc ⟨id, id, Iff.rfl, id, id⟩ Iff.rfl hready trivial
  | some w =>
    rw [hlist] at hchain
    exact h.stay (p := .loadNext w) hpc ⟨id, id, Iff.rfl, id, id⟩ Iff.rfl hready hchain

theorem InRound.loadNext (h : InRound m r s) (hpc : s.pc t = .loadNext u) :
    InRound m r (s.goto t (.unblock u (s.next u))) := by
  have hready := h.readyAt hpc
  have hchain : Chain s.next s.pc (some u) := h.cursorAt hpc
  exact h.stay hpc ⟨id, id, Iff.rfl, id, id⟩ Iff.rfl hready hchain.head

theorem InRound.wake (h : InRound m r s) (id : Option τ) : InRound m r (s.wake id) := by
  cases id with
  | none => exact h
  | some u =>
    unfold BlockBarrier.wake
    simp only
    split
    next hblocked =>
      have hready := h.readyAt hblocked
      exact h.stay hblocked ⟨fun h => h, fun h => h, Iff.rfl, fun h => h, fun h => h⟩ Iff.rfl
        hready trivial
    next =>
      exact ⟨h.total, h.guards, h.round, h.ready, h.counted, h.chain, h.cursor, h.cleared⟩

omit [Fintype τ] in
theorem wake_pc (ht : s.pc t ≠ .blocked) (id : Option τ) : (s.wake id).pc t = s.pc t := by
  cases id with
  | none => rfl
  | some u =>
    unfold BlockBarrier.wake
    simp only
    split
    next hblocked =>
      refine update_of_ne ?_ _ s.pc
      rintro rfl
      exact ht hblocked
    next => rfl

section

variable (h : InRound m r s)

include h

theorem InRound.unblock (hpc : s.pc t = .unblock u l) :
    InRound m r ((s.wake (s.tid u)).goto t (walkOn l)) := by
  have hwake := h.wake (s.tid u)
  have hpc' : (s.wake (s.tid u)).pc t = .unblock u l := by
    rw [wake_pc (by rw [hpc]; exact nofun)]
    exact hpc
  have hready := hwake.readyAt hpc'
  have hcursor := hwake.cursorAt hpc'
  cases l with
  | none => exact hwake.stay hpc' ⟨id, id, Iff.rfl, id, id⟩ Iff.rfl hready trivial
  | some w =>
    exact hwake.stay (p := .loadNext w) hpc' ⟨id, id, Iff.rfl, id, id⟩ Iff.rfl hready hcursor.2

theorem InRound.cursor_list (hpc : s.pc t = q) (hq : q.Holds)
    (hlisted : q.Listed → p.Listed) (hp : Cursor s.next l s.pc t p) (u : τ) :
    Cursor s.next l (update s.pc t p) u (update s.pc t p u) := by
  have hlisted' : ∀ u, (s.pc u).Listed → (update s.pc t p u).Listed := by
    refine listed_update ?_
    rw [hpc]
    exact hlisted
  refine Cursor.mono ?_ hlisted'
  exact update_cases hp (fun u hut => Cursor.of_free fun hu => hut (h.unique hpc hq hu)) u

theorem InRound.clearList (hpc : s.pc t = .clearList) :
    InRound m r ({ s with list := none }.goto t .releaseLast) := by
  have hready := h.readyAt hpc
  have hcounted := h.counted.quiet (p := .releaseLast) hpc id id Iff.rfl
  refine ⟨h.total, h.guards.stay ?_, h.round, ready_goto h.ready hready, hcounted, Chain.nil,
    h.cursor_list hpc trivial id trivial, fun _ => .inl rfl⟩
  rw [hpc]
  exact Iff.rfl

theorem InRound.ret (hpc : s.pc t = q) (hq : Quiet q .idle) (hholds : q.Holds)
    (hleaving : (s.hist t).Leaving r) : InRound m r ({ s with lock := none }.ret t) := by
  obtain ⟨hpassed, hcalls, hreturns⟩ := hleaving
  have hready : Ready m r (Fintype.card τ)
      { s.hist t with returns := (s.hist t).returns + 1 } (.idle : Pc τ) :=
    ⟨hpassed, hcalls, hreturns⟩
  exact h.note hpc hq rfl hready (h.released hpc hholds id) trivial

/-! ### Waiting -/

theorem InRound.link (hpc : s.pc t = .link) : InRound m r (s.link t) := by
  have hready := h.readyAt hpc
  have hlisted : (s.pc t).Listed → (Pc.storeList : Pc τ).Listed := by
    rw [hpc]
    exact id
  have hnot : ¬ (update s.pc t .storeList t).Listed := by
    rw [update_self]
    exact id
  have hcounted := h.counted.quiet (p := .storeList) hpc id id Iff.rfl
  refine ⟨h.total, h.guards.stay ?_, h.round, ready_goto h.ready hready, hcounted,
    (h.chain.mono (listed_update hlisted)).link hnot s.list, fun u => ?_, fun hm => ?_⟩
  · rw [hpc]
    exact Iff.rfl
  · change Cursor _ _ _ u (update s.pc t _ u)
    refine update_cases ?_ (fun u hut => Cursor.of_free fun hu => hut (h.unique hpc trivial hu)) u
    exact update_self t s.list s.next
  · rw [hready.1] at hm
    cases hm

theorem InRound.storeList (hpc : s.pc t = .storeList) :
    InRound m r ({ s with list := some t }.goto t .releaseWait) := by
  have hready := h.readyAt hpc
  have hnext : s.next t = s.list := h.cursorAt hpc
  have hlisted : (s.pc t).Listed → (Pc.releaseWait : Pc τ).Listed := by
    rw [hpc]
    exact fun _ => trivial
  have hcounted := h.counted.quiet (p := .releaseWait) hpc id id Iff.rfl
  refine ⟨h.total, h.guards.stay ?_, h.round, ready_goto h.ready hready, hcounted,
    Chain.cons ?_ ?_, h.cursor_list hpc trivial (fun _ => trivial) trivial, fun hm => ?_⟩
  · rw [hpc]
    exact Iff.rfl
  · change Chain s.next _ (s.next t)
    rw [hnext]
    exact h.chain.mono (listed_update hlisted)
  · change (update s.pc t _ t).Listed
    rw [update_self]
    trivial
  · rw [hready.1] at hm
    cases hm

theorem InRound.releaseWait (hpc : s.pc t = .releaseWait) :
    InRound m r ({ s with lock := none }.goto t .blocking) := by
  have hready := h.readyAt hpc
  exact h.goto hpc ⟨id, id, Iff.rfl, id, id⟩ (.inl hready) (h.released hpc trivial id) trivial

omit [DecidableEq τ] in
theorem InRound.unblocked (f : τ → Bool) :
    InRound m r { s with wasUnblocked := f } :=
  ⟨h.total, h.guards, h.round, h.ready, h.counted, h.chain, h.cursor, h.cleared⟩

theorem InRound.block (hpc : s.pc t = .blocking) : InRound m r (s.block t) := by
  have hready := h.readyAt hpc
  unfold BlockBarrier.block
  split
  next =>
    exact (h.unblocked _).stay (p := .testWoken) hpc ⟨id, id, Iff.rfl, id, id⟩ Iff.rfl hready trivial
  next => exact h.stay (p := .blocked) hpc ⟨id, id, Iff.rfl, id, id⟩ Iff.rfl hready trivial

theorem InRound.wakeup (t : τ) : InRound m r (s.wakeup t) := by
  unfold BlockBarrier.wakeup
  split
  next hpc =>
    rcases hpc with hpc | hpc
    · have hready := h.readyAt hpc
      exact h.stay hpc ⟨id, id, Iff.rfl, id, id⟩ Iff.rfl hready trivial
    · have hready := h.readyAt hpc
      exact h.stay hpc ⟨id, id, Iff.rfl, id, id⟩ Iff.rfl hready trivial
  next => exact h

/-- **A waiting thread goes on only when its round is complete**, however often `Block`
returns: while threads gather, it has itself been counted. -/
theorem InRound.testWoken (hpc : s.pc t = .testWoken) :
    InRound m r (s.testWoken t) := by
  have hready := h.readyAt hpc
  unfold BlockBarrier.testWoken
  split
  next hzero =>
    rcases hready with ⟨rfl, hleaving⟩ | hready
    · obtain ⟨hup, _, _⟩ := h.counted
      have hahead : 0 < ahead r s.passed := census_pos (t := t) hleaving.1
      omega
    · exact h.stay (p := .acquireOut) hpc ⟨id, id, Iff.rfl, id, id⟩ Iff.rfl hready trivial
  next => exact h.stay (p := .blocking) hpc ⟨id, id, Iff.rfl, id, id⟩ Iff.rfl hready trivial

/-! ### Counting out -/

theorem InRound.acquireOut (hpc : s.pc t = .acquireOut) :
    InRound m r (s.acquire t .decDown) := by
  have hready := h.readyAt hpc
  unfold BlockBarrier.acquire
  split
  next hfree =>
    have hnone : ∀ u, ¬ (s.pc u).Holds := by
      intro u hu
      have heq := (h.guards u).1 hu
      rw [hfree] at heq
      cases heq
    have hlist : s.list = none := by
      rcases h.cleared hready.1 with hlist | ⟨u, hu⟩
      · exact hlist
      · exact absurd (Walking.holds hu) (hnone u)
    have hcounted := h.counted.quiet (p := .decDown) hpc id id Iff.rfl
    refine ⟨h.total, h.acquired hfree trivial, h.round, ready_goto h.ready hready, hcounted,
      ?_, fun u => ?_, fun _ => .inl hlist⟩
    · change Chain s.next _ s.list
      rw [hlist]
      exact Chain.nil
    · change Cursor _ _ _ u (update s.pc t _ u)
      exact update_cases trivial (fun u _ => Cursor.of_free (hnone u)) u
  next => exact h

theorem InRound.decDown (hpc : s.pc t = .decDown) :
    InRound m r ({ s with downcount := s.downcount - 1 }.goto t .releaseOut) := by
  obtain ⟨rfl, hleaving⟩ := h.readyAt hpc
  obtain ⟨hup, hall, hdown⟩ := h.counted
  have hleave : census Pc.Waiting (update s.pc t .releaseOut) + 1 =
      census Pc.Waiting s.pc :=
    census_leave (by rw [hpc]; trivial) id
  refine h.count hpc Iff.rfl id id hleaving ⟨hup, hall, ?_⟩ trivial
  change s.downcount - 1 = _
  omega

end

/-! ### Runs -/

theorem Inv.advance (h : Inv s) (t : τ) : Inv (s.advance t) := by
  obtain ⟨m, r, h⟩ := h
  unfold BlockBarrier.advance
  cases hpc : s.pc t with
  | idle => exact ⟨m, r, h⟩
  | loadTotal => exact ⟨m, r, h.loadTotal hpc⟩
  | acquire => exact ⟨m, r, h.acquire hpc⟩
  | testDown => exact h.testDown hpc
  | retry => exact ⟨m, r, h.retry hpc⟩
  | incUp => exact ⟨m, r, h.incUp hpc⟩
  | testUp => exact ⟨m, r, h.testUp hpc⟩
  | setDown => exact ⟨m, r, h.setDown hpc⟩
  | setUp => exact ⟨_, _, h.setUp hpc⟩
  | loadList => exact ⟨m, r, h.loadList hpc⟩
  | loadNext tmp => exact ⟨m, r, h.loadNext hpc⟩
  | unblock tmp tmp2 => exact ⟨m, r, h.unblock hpc⟩
  | clearList => exact ⟨m, r, h.clearList hpc⟩
  | releaseLast =>
    have hready := h.readyAt hpc
    exact ⟨m, r, h.ret hpc ⟨id, id, Iff.rfl, id, id⟩ trivial hready.2⟩
  | link => exact ⟨m, r, h.link hpc⟩
  | storeList => exact ⟨m, r, h.storeList hpc⟩
  | releaseWait => exact ⟨m, r, h.releaseWait hpc⟩
  | blocking => exact ⟨m, r, h.block hpc⟩
  | blocked => exact ⟨m, r, h⟩
  | testWoken => exact ⟨m, r, h.testWoken hpc⟩
  | acquireOut => exact ⟨m, r, h.acquireOut hpc⟩
  | decDown => exact ⟨m, r, h.decDown hpc⟩
  | releaseOut =>
    have hready := h.readyAt hpc
    exact ⟨m, r, h.ret hpc ⟨id, id, Iff.rfl, id, id⟩ trivial hready⟩

theorem Inv.step (h : Inv s) {a : Action τ} (hadm : s.adm a) : Inv (s.step a) := by
  obtain ⟨m, r, hr⟩ := id h
  cases a with
  | enter t => exact ⟨m, r, hr.call hadm⟩
  | advance t => exact h.advance t
  | wakeup t => exact ⟨m, r, hr.wakeup t⟩

/-! ### What the invariant says -/

section

omit [Fintype τ] [DecidableEq τ]

theorem Ready.returns_le (h : Ready m r n e p) : e.returns ≤ r := by
  cases p <;> simp only [Ready, Hist.Arriving, Hist.Leaving] at h <;> omega

theorem Ready.le_calls (h : Ready m r n e p) : r ≤ e.calls := by
  cases p <;> simp only [Ready, Hist.Arriving, Hist.Leaving] at h <;> omega

end

omit [DecidableEq τ] in
theorem InRound.upcount_le (h : InRound m r s) : s.upcount ≤ Fintype.card τ := by
  have hcounted := h.counted
  have hbehind := h.round.behind
  cases m with
  | draining =>
    rw [hcounted.1]
    exact Nat.zero_le _
  | gathering =>
    rw [hcounted.1]
    by_cases htop : ∃ t, (s.pc t).AtTop
    · obtain ⟨t, ht⟩ := htop
      rw [h.census_atTop rfl ht]
      exact hbehind
    · rw [census_eq_zero (P := Pc.AtTop) |>.2 (not_exists.1 htop)]
      exact hbehind.le

theorem InRound.downcount_le (h : InRound m r s) : s.downcount ≤ Fintype.card τ := by
  have hcounted := h.counted
  cases m with
  | draining =>
    rw [hcounted.2.2]
    exact census_le_card _ _
  | gathering =>
    obtain ⟨_, htop, hdown⟩ := hcounted
    by_cases hset : ∃ t, s.pc t = .setUp
    · obtain ⟨t, ht⟩ := hset
      have hlast := htop t
      rw [ht] at hlast
      rw [hlast.2]
      exact Nat.sub_le _ _
    · rw [hdown (not_exists.1 hset)]
      exact Nat.zero_le _

omit [Fintype τ] [DecidableEq τ] in
theorem Listed.inScope {p : Pc τ} (h : p.Listed) : p.InScope := by
  cases p <;> trivial

theorem InRound.separated (h : InRound m r s) : Separated s where
  together t u := (h.ready t).returns_le.trans (h.ready u).le_calls
  upcount_le := h.total ▸ h.upcount_le
  downcount_le := h.total ▸ h.downcount_le
  ltotal_pos t hpc := by
    rw [(h.readyAt hpc).2.1]
    exact Fintype.card_pos_iff.2 ⟨t⟩
  downcount_pos t hpc := by
    obtain ⟨rfl, _⟩ := h.readyAt hpc
    rw [h.counted.2.2]
    exact census_pos (t := t) (by rw [hpc]; trivial)
  inScope t w huses := by
    have hcursor := h.cursor t
    cases hpc : s.pc t <;> rw [hpc] at huses hcursor <;> try exact huses.elim
    case loadNext tmp =>
      obtain rfl : tmp = w := huses
      exact Listed.inScope (Chain.head hcursor).1
    case unblock tmp tmp2 =>
      obtain rfl : tmp = w := huses
      exact Listed.inScope hcursor.1

omit [DecidableEq τ] in
theorem separated_init [IsEmpty τ] : Separated (init : BlockBarrier τ) where
  together := isEmptyElim
  upcount_le := Nat.zero_le _
  downcount_le := Nat.zero_le _
  ltotal_pos := isEmptyElim
  downcount_pos := isEmptyElim
  inScope := isEmptyElim

end

theorem run_inv {ops : List (Action τ)} {s : BlockBarrier τ}
    (h : interleavings.Run init ops s) : Separated s := by
  cases isEmpty_or_nonempty τ with
  | inl hempty =>
    cases h with
    | nil => exact separated_init
    | snoc hrun hadm =>
      rename_i op
      cases op with
      | enter t | advance t | wakeup t => exact isEmptyElim t
  | inr hnonempty =>
    have hinv : Inv s := h.invariant inv_init fun s a hs hadm => hs.step hadm
    obtain ⟨m, r, hr⟩ := hinv
    exact hr.separated

end BlockBarrier

/-! ## Both barriers -/

namespace Barrier

variable {τ : Type} [Fintype τ] [DecidableEq τ]

/-- **Barriers separate phases.** In every interleaving of any number of calls by all
threads, the threads that have returned `k` times from `SpinBarrier::enter` or from
`BlockBarrier::enter` have been waited for by `k` calls of every thread. -/
theorem run_separated : (∀ (ops : List (SpinBarrier.Action τ)) (s : SpinBarrier τ),
      SpinBarrier.interleavings.Run SpinBarrier.init ops s → s.Separated) ∧
    (∀ (ops : List (BlockBarrier.Action τ)) (s : BlockBarrier τ),
      BlockBarrier.interleavings.Run BlockBarrier.init ops s → s.Separated) :=
  ⟨fun _ _ => SpinBarrier.run_inv, fun _ _ => BlockBarrier.run_inv⟩

/-- Two phases of two threads: one counts up, one counts down. -/
def spinTwice : List (SpinBarrier.Action Bool) :=
  [.enter false, .advance false, .advance false, .advance false, .advance false,
   .enter true, .advance true, .advance true, .advance true, .advance true,
   .enter true, .advance true, .advance false, .enter false, .advance false, .advance true,
   .advance true, .advance false, .advance true, .advance false, .advance true, .advance false]

open BlockBarrier.Action in
/-- The first thread waits, is woken early, and waits again. -/
def blockOnce : List (BlockBarrier.Action Bool) :=
  enter false :: List.replicate 9 (advance false) ++ [wakeup false, advance false,
    advance false, enter true] ++ List.replicate 12 (advance true) ++
    List.replicate 4 (advance false)

theorem run_separated_twoThreads :
    ((spinTwice.foldl SpinBarrier.step .init).thread false).returns = 2 ∧
      (spinTwice.foldl SpinBarrier.step .init).Separated ∧
      ((blockOnce.foldl BlockBarrier.step .init).hist false).returns = 1 ∧
      (blockOnce.foldl BlockBarrier.step .init).Separated := by
  have hspin : SpinBarrier.interleavings.Admits .init spinTwice := by decide +kernel
  have hblock : BlockBarrier.interleavings.Admits .init blockOnce := by decide +kernel
  exact ⟨by decide +kernel, run_separated.1 _ _ hspin.run, by decide +kernel,
    run_separated.2 _ _ hblock.run⟩

end Barrier

end K42
