import K42.Sync.RequestCountWithStop

/-!
# What the calls of a request count return

Where a thread is in an `enter`, a `leave`, a `stop` or a `shutdown`, with what the call will
return: an `enter` that fails and a `stop` that loses return a negative number, and a `shutdown`
returns zero only when it has won and no request is inside.
-/

open Function (update update_cases update_of_ne update_self)

namespace K42.Sync

namespace RequestCountWithStop

variable {τ : Type} [DecidableEq τ]

variable {s : RequestCountWithStop τ} {t u : τ} {k : Kind}

/-- In an `enter`, whose result is negative if it has failed. -/
def Entering (p : Pc τ) (r : ℤ) : Prop :=
  match p with
  | .inside => 0 ≤ r
  | .idle | .unlockEnter false => r < 0
  | .retry | .backingOut | .swapping true | .unblocking true _ | .lockEnter | .testEnter
  | .unlockEnter true => True
  | _ => False

/-- An `enter` that has failed. -/
def Failed (p : Pc τ) : Prop :=
  match p with
  | .idle | .unlockEnter false => True
  | _ => False

/-- In a `leave`. -/
def LeavingAt (p : Pc τ) : Prop :=
  match p with
  | .idle | .swapping false | .unblocking false _ => True
  | _ => False

/-- In a `stop` or a `shutdown`, whose result is zero only if it has won. -/
def Stopping (k : Kind) (p : Pc τ) (r : ℤ) : Prop :=
  match p with
  | .lock k' | .testCount k' | .testThread k' _ | .store k' | .subtract k' | .clear k' | .wait k'
  | .blocking k' | .blocked k' => k' = k
  | .unlockLost k' r' => k' = k ∧ r' < 0
  | .unlock _ => k = .shutdown
  | .stopped => k = .stop ∧ r = 0
  | .idle => r < 0 ∨ k = .shutdown ∧ r = 0
  | _ => False

theorem pc_goto_self (p : Pc τ) : (s.goto t p).pc t = p := update_self ..

theorem pc_ret_self (p : Pc τ) (r : ℤ) : (s.ret t p r).pc t = p := update_self ..

theorem result_ret_self (p : Pc τ) (r : ℤ) : (s.ret t p r).result t = r := update_self ..

theorem entering_enter (s : RequestCountWithStop τ) (t : τ) :
    Entering ((s.enter t).pc t) ((s.enter t).result t) ∧ ¬ Failed ((s.enter t).pc t) := by
  unfold RequestCountWithStop.enter
  split
  · rw [pc_goto_self]
    exact ⟨trivial, id⟩
  · rename_i hpos
    rw [pc_ret_self, result_ret_self]
    exact ⟨not_lt.1 hpos, id⟩

theorem entering_advance (h : Entering (s.pc t) (s.result t)) (hidle : s.pc t ≠ .idle)
    (hinside : s.pc t ≠ .inside) :
    Entering ((s.advance t).pc t) ((s.advance t).result t) ∧
      ((s.pc t = .testEnter → 0 ≤ s.requests) → ¬ Failed (s.pc t) →
        ¬ Failed ((s.advance t).pc t)) := by
  unfold advance
  cases hpc : s.pc t with
  | idle => exact absurd hpc hidle
  | inside => exact absurd hpc hinside
  | retry => exact ⟨(entering_enter s t).1, fun _ _ => (entering_enter s t).2⟩
  | backingOut =>
    have hplace : ((s.leave t true).pc t) = .lockEnter ∨
        (s.leave t true).pc t = .swapping true := by
      unfold RequestCountWithStop.leave
      rw [pc_goto_self]
      split_ifs
      · exact .inl rfl
      · exact .inr rfl
      · exact .inl rfl
    dsimp only
    rcases hplace with hplace | hplace
    · rw [hplace]
      exact ⟨trivial, fun _ _ => id⟩
    · rw [hplace]
      exact ⟨trivial, fun _ _ => id⟩
  | swapping entering =>
    rw [hpc] at h
    cases entering with
    | false => exact h.elim
    | true =>
      dsimp only [swap]
      cases s.shutdownThread with
      | none =>
        rw [pc_goto_self]
        exact ⟨trivial, fun _ _ => id⟩
      | some id =>
        rw [pc_goto_self]
        exact ⟨trivial, fun _ _ hh => hh⟩
  | unblocking entering id =>
    rw [hpc] at h
    cases entering with
    | false => exact h.elim
    | true =>
      have hplace : (s.unblock t true id).pc t = .lockEnter := by
        unfold unblock
        split
        · exact pc_goto_self _
        · exact pc_goto_self _
      dsimp only
      rw [hplace]
      exact ⟨trivial, fun _ _ hh => hh⟩
  | lockEnter =>
    dsimp only [acquire]
    split
    · rw [pc_goto_self]
      exact ⟨trivial, fun _ _ => id⟩
    · rw [hpc]
      exact ⟨trivial, fun _ _ => id⟩
  | testEnter =>
    dsimp only [testEnter]
    split
    · rename_i hneg
      rw [pc_ret_self, result_ret_self]
      refine ⟨hneg, ?_⟩
      intro hpos
      exact absurd (hpos rfl) (not_le.2 hneg)
    · rw [pc_goto_self]
      exact ⟨trivial, fun _ _ => id⟩
  | unlockEnter again =>
    rw [hpc] at h
    dsimp only [unlockEnter]
    rw [pc_goto_self]
    cases again with
    | true => exact ⟨trivial, fun _ _ => id⟩
    | false => exact ⟨h, fun _ hfailed => absurd trivial hfailed⟩
  | _ =>
    rw [hpc] at h
    exact h.elim

theorem leavingAt_advance (h : LeavingAt (s.pc t)) (hidle : s.pc t ≠ .idle) :
    LeavingAt ((s.advance t).pc t) := by
  unfold advance
  cases hpc : s.pc t with
  | idle => exact absurd hpc hidle
  | swapping entering =>
    rw [hpc] at h
    cases entering with
    | true => exact h.elim
    | false =>
      dsimp only [swap]
      cases s.shutdownThread with
      | none =>
        rw [pc_goto_self]
        exact trivial
      | some id =>
        rw [pc_goto_self]
        exact trivial
  | unblocking entering id =>
    rw [hpc] at h
    cases entering with
    | true => exact h.elim
    | false =>
      have hplace : (s.unblock t false id).pc t = .idle := by
        unfold unblock
        split
        · exact pc_goto_self _
        · exact pc_goto_self _
      dsimp only
      rw [hplace]
      exact trivial
  | _ =>
    rw [hpc] at h
    exact h.elim

theorem leavingAt_leave (s : RequestCountWithStop τ) (t : τ) :
    LeavingAt ((s.leave t false).pc t) := by
  unfold RequestCountWithStop.leave
  rw [pc_goto_self]
  split_ifs
  · exact trivial
  · exact trivial
  · exact trivial

variable [Fintype τ]

theorem thread_eq_none (h : Inv s) {r : ℤ} (hpc : s.pc t = .testThread k r) :
    s.shutdownThread = none := by
  have hup := h.tested t (by rw [hpc]; trivial)
  cases h.phase with
  | isOpen h => exact h.thread
  | marked w hw =>
    obtain ⟨k', hk'⟩ := hw.subtract
    have heq : t = w := h.lock.eq (by rw [hpc]; trivial) (by rw [hk']; trivial)
    subst w
    rw [hpc] at hk'
    cases hk'
  | closing w hw =>
    rw [hw.taken] at hup
    cases hup
  | stopped w hw => exact hw.thread
  | closed hw => exact hw.thread

theorem stopping_advance (h : Inv s) (hstop : Stopping k (s.pc t) (s.result t))
    (hidle : s.pc t ≠ .idle) (hstopped : s.pc t ≠ .stopped) :
    Stopping k ((s.advance t).pc t) ((s.advance t).result t) := by
  unfold advance
  cases hpc : s.pc t with
  | idle => exact absurd hpc hidle
  | stopped => exact absurd hpc hstopped
  | lock k' =>
    rw [hpc] at hstop
    dsimp only [acquire]
    split
    · rw [pc_goto_self]
      exact hstop
    · rw [hpc]
      exact hstop
  | testCount k' =>
    rw [hpc] at hstop
    dsimp only [testCount]
    split
    · rename_i hneg
      rw [pc_goto_self]
      exact ⟨hstop, hneg⟩
    · rw [pc_goto_self]
      exact hstop
  | testThread k' r =>
    rw [hpc] at hstop
    dsimp only [testThread]
    rw [if_neg (not_not.2 (thread_eq_none h hpc)), pc_goto_self]
    exact hstop
  | store k' =>
    rw [hpc] at hstop
    dsimp only [store]
    split
    · rw [pc_goto_self]
      exact hstop
    · rw [pc_goto_self]
      exact hstop
  | unlockLost k' r =>
    rw [hpc] at hstop
    obtain ⟨rfl, hr⟩ := hstop
    dsimp only [unlockLost]
    rw [pc_ret_self, result_ret_self]
    refine .inl ?_
    cases k' with
    | stop =>
      change (-1 : ℤ) < 0
      decide
    | shutdown => exact hr
  | subtract k' =>
    rw [hpc] at hstop
    cases hstop
    dsimp only [subtract]
    rw [pc_goto_self]
    cases k with
    | stop =>
      dsimp only
      split_ifs
      · exact rfl
      · exact rfl
    | shutdown => exact rfl
  | unlock r =>
    rw [hpc] at hstop
    cases hstop
    dsimp only [unlock]
    rw [pc_goto_self]
    split_ifs
    · exact rfl
    · exact rfl
  | clear k' =>
    rw [hpc] at hstop
    cases hstop
    dsimp only [clear]
    rw [pc_ret_self, result_ret_self]
    cases k with
    | stop => exact ⟨rfl, rfl⟩
    | shutdown => exact .inr ⟨rfl, rfl⟩
  | wait k' =>
    rw [hpc] at hstop
    cases hstop
    dsimp only [wait]
    split
    · rw [pc_goto_self]
      exact rfl
    · rw [pc_ret_self, result_ret_self]
      cases k with
      | stop => exact ⟨rfl, rfl⟩
      | shutdown => exact .inr ⟨rfl, rfl⟩
  | blocking k' =>
    rw [hpc] at hstop
    cases hstop
    dsimp only [block]
    split
    · rw [pc_goto_self]
      exact rfl
    · rw [pc_goto_self]
      exact rfl
  | blocked k' =>
    dsimp only
    rw [hpc] at hstop ⊢
    exact hstop
  | _ =>
    rw [hpc] at hstop
    exact hstop.elim

theorem closed_of_returned (h : Inv s) (hstop : Stopping .shutdown (s.pc t) (s.result t))
    (hbusy : s.pc t ≠ .idle) {s' : RequestCountWithStop τ} (hs' : s.advance t = s')
    (hinv : Inv s') (hidle : s'.pc t = .idle) (hzero : s'.result t = 0) : Closed s' := by
  have hwon : (s.pc t).Waits → s' = s.ret t .idle 0 ∨ s' = { s with shutdownThread := none }.ret t
      .idle 0 → Closed s' := by
    intro hwaits hs'
    have hclosing := h.phase.closing_of hwaits
    have hactive : ∀ u, ¬ (update s.pc t Pc.idle u).Active := by
      exact update_cases id hclosing.idle
    rcases hs' with rfl | rfl
    · exact hinv.phase.closed_of hclosing.taken hactive
    · exact hinv.phase.closed_of hclosing.taken hactive
  subst s'
  unfold advance at hidle hzero hwon ⊢
  cases hpc : s.pc t with
  | idle => exact absurd hpc hbusy
  | clear k' =>
    rw [hpc] at hstop hwon
    cases hstop
    exact hwon trivial (.inr rfl)
  | wait k' =>
    rw [hpc] at hstop hwon hidle
    cases hstop
    dsimp only [wait] at hwon hidle ⊢
    split_ifs at hwon hidle ⊢ with hthread
    · rw [pc_goto_self] at hidle
      cases hidle
    · exact hwon trivial (.inl rfl)
  | unlockLost k' r =>
    rw [hpc] at hstop hzero
    obtain ⟨rfl, hr⟩ := hstop
    dsimp only [unlockLost] at hzero
    rw [result_ret_self] at hzero
    change r = 0 at hzero
    rw [hzero] at hr
    exact absurd hr (lt_irrefl 0)
  | lock k' =>
    rw [hpc] at hidle
    dsimp only [acquire] at hidle
    split at hidle
    · rw [pc_goto_self] at hidle
      cases hidle
    · rw [hpc] at hidle
      cases hidle
  | testCount k' =>
    rw [hpc] at hidle
    dsimp only [testCount] at hidle
    split at hidle <;> rw [pc_goto_self] at hidle <;> cases hidle
  | testThread k' r =>
    rw [hpc] at hidle
    dsimp only [testThread] at hidle
    split at hidle <;> rw [pc_goto_self] at hidle <;> cases hidle
  | store k' =>
    rw [hpc] at hidle
    dsimp only [store] at hidle
    split at hidle <;> rw [pc_goto_self] at hidle <;> cases hidle
  | subtract k' =>
    rw [hpc] at hstop hidle
    cases hstop
    dsimp only [subtract] at hidle
    rw [pc_goto_self] at hidle
    cases hidle
  | unlock r =>
    rw [hpc] at hidle
    dsimp only [unlock] at hidle
    rw [pc_goto_self] at hidle
    split at hidle <;> cases hidle
  | blocking k' =>
    rw [hpc] at hidle
    dsimp only [block] at hidle
    split at hidle <;> rw [pc_goto_self] at hidle <;> cases hidle
  | blocked k' =>
    rw [hpc] at hidle
    dsimp only at hidle
    rw [hpc] at hidle
    cases hidle
  | stopped =>
    rw [hpc] at hidle
    dsimp only at hidle
    rw [hpc] at hidle
    cases hidle
  | _ =>
    rw [hpc] at hstop
    exact hstop.elim

omit [Fintype τ] in
theorem advance_other (hu : u ≠ t) : (s.advance t).result u = s.result u ∧
    ((s.advance t).pc u = s.pc u ∨
      ∃ k, s.pc u = .blocked k ∧ (s.advance t).pc u = .wait k) := by
  have hgoto : ∀ p, (update s.pc t p) u = s.pc u := fun p => update_of_ne hu ..
  have hret : ∀ r, (update s.result t r) u = s.result u :=
    fun r => update_of_ne hu ..
  unfold advance
  cases s.pc t with
  | idle => exact ⟨rfl, .inl rfl⟩
  | inside => exact ⟨rfl, .inl rfl⟩
  | stopped => exact ⟨rfl, .inl rfl⟩
  | blocked k => exact ⟨rfl, .inl rfl⟩
  | retry =>
    dsimp only [enter]
    split
    · exact ⟨rfl, .inl (hgoto _)⟩
    · exact ⟨hret _, .inl (hgoto _)⟩
  | backingOut => exact ⟨rfl, .inl (hgoto _)⟩
  | swapping entering =>
    dsimp only [swap]
    split
    · exact ⟨rfl, .inl (hgoto _)⟩
    · exact ⟨rfl, .inl (hgoto _)⟩
  | unblocking entering id =>
    dsimp only [unblock]
    split
    · rename_i k hblocked
      refine ⟨rfl, ?_⟩
      by_cases hid : u = id
      · subst u
        refine .inr ⟨k, hblocked, ?_⟩
        exact (update_of_ne hu _ _).trans (update_self ..)
      · exact .inl ((update_of_ne hu _ _).trans (update_of_ne hid ..))
    · exact ⟨rfl, .inl (hgoto _)⟩
  | lockEnter =>
    dsimp only [acquire]
    split
    · exact ⟨rfl, .inl (hgoto _)⟩
    · exact ⟨rfl, .inl rfl⟩
  | lock k =>
    dsimp only [acquire]
    split
    · exact ⟨rfl, .inl (hgoto _)⟩
    · exact ⟨rfl, .inl rfl⟩
  | testEnter =>
    dsimp only [testEnter]
    split
    · exact ⟨hret _, .inl (hgoto _)⟩
    · exact ⟨rfl, .inl (hgoto _)⟩
  | testCount k =>
    dsimp only [testCount]
    split
    · exact ⟨rfl, .inl (hgoto _)⟩
    · exact ⟨rfl, .inl (hgoto _)⟩
  | testThread k r =>
    dsimp only [testThread]
    split
    · exact ⟨rfl, .inl (hgoto _)⟩
    · exact ⟨rfl, .inl (hgoto _)⟩
  | store k =>
    dsimp only [store]
    split
    · exact ⟨rfl, .inl (hgoto _)⟩
    · exact ⟨rfl, .inl (hgoto _)⟩
  | wait k =>
    dsimp only [wait]
    split
    · exact ⟨rfl, .inl (hgoto _)⟩
    · exact ⟨hret _, .inl (hgoto _)⟩
  | blocking k =>
    dsimp only [block]
    split
    · exact ⟨rfl, .inl (hgoto _)⟩
    · exact ⟨rfl, .inl (hgoto _)⟩
  | unlockLost k r => exact ⟨hret _, .inl (hgoto _)⟩
  | clear k => exact ⟨hret _, .inl (hgoto _)⟩
  | _ => exact ⟨rfl, .inl (hgoto _)⟩

end RequestCountWithStop

end K42.Sync
