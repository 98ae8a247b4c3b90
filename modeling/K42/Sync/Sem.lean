import K42.Lib.Run
import Mathlib.Algebra.Order.BigOperators.Group.List
import Mathlib.Algebra.Order.Group.Int
import Mathlib.Algebra.Order.Group.Unbundled.Basic
import Mathlib.Algebra.Ring.Int.Defs

/-!
# Semaphores

A semaphore has a counter, a queue of the threads that wait to decrement it and a queue of those
that wait for zero. A thread that is woken does not have what it waited for: it looks again under
the lock, and goes to the end of its queue if it comes too late.

Two things go wrong. `tryP` does not wake the threads that wait for zero, which `P` does. And the
units that were meant for a woken thread may be taken by another one first; that thread then
waits behind threads for which there would be enough, and nobody wakes these.

The counter is an integer here. It is not negative, and at most what it began with and what `V` has
added: while that sum is below `2 ^ 63` it is the word of 64 bits of the source.
-/

namespace K42

/-- `count` is zero for a thread that waits for zero. -/
structure BaseSemaphore.Element (τ : Type) where
  id : τ
  count : ℤ

/-- A woken thread is still to run in `P` or in `Z`. -/
inductive BaseSemaphore.Woken (τ : Type)
  | P (el : Element τ)
  | Z (el : Element τ)

structure BaseSemaphore (τ : Type) where
  counter : ℤ
  neg : List (BaseSemaphore.Element τ)
  zero : List (BaseSemaphore.Element τ)
  woken : List (BaseSemaphore.Woken τ)

namespace BaseSemaphore

variable {τ : Type}

def init (c : ℤ) : BaseSemaphore τ := ⟨c, [], [], []⟩

def Z (s : BaseSemaphore τ) (t : τ) : BaseSemaphore τ :=
  if s.counter ≠ 0 then { s with zero := s.zero ++ [⟨t, 0⟩] } else s

/-- `tryP`, and whether it has decremented the counter. -/
def tryP (s : BaseSemaphore τ) (c : ℤ) : BaseSemaphore τ × Bool :=
  if s.counter < c then (s, false) else ({ s with counter := s.counter - c }, true)

/-- `while ((counter == 0) && (zeroHead != NULL))`: who is woken, and who still waits. -/
def wakeZero (counter : ℤ) : List (Element τ) → List (Element τ) × List (Element τ)
  | [] => ([], [])
  | el :: rest =>
    if counter = 0 then (el :: (wakeZero counter rest).1, (wakeZero counter rest).2)
    else ([], el :: rest)

/-- `P`, and whether it has decremented the counter. -/
def P (s : BaseSemaphore τ) (t : τ) (c : ℤ) : BaseSemaphore τ × Bool :=
  if s.counter < c then ({ s with neg := s.neg ++ [⟨t, c⟩] }, false)
  else
    let (woken, zero) := wakeZero (s.counter - c) s.zero
    ({ s with
      counter := s.counter - c
      zero := zero
      woken := s.woken ++ woken.map Woken.Z }, true)

/-- `while (tmpCounter && negHead != NULL)`: who is woken, and who still waits. -/
def wakeNeg : ℤ → List (Element τ) → List (Element τ) × List (Element τ)
  | _, [] => ([], [])
  | tmpCounter, el :: rest =>
    if tmpCounter = 0 then ([], el :: rest)
    else if tmpCounter < el.count then ([], el :: rest)
    else
      (el :: (wakeNeg (tmpCounter - el.count) rest).1, (wakeNeg (tmpCounter - el.count) rest).2)

def V (s : BaseSemaphore τ) (c : ℤ) : BaseSemaphore τ :=
  let (woken, neg) := wakeNeg (s.counter + c) s.neg
  { s with
    counter := s.counter + c
    neg := neg
    woken := s.woken ++ woken.map Woken.P }

/-- The `k`-th of the woken threads goes back to the test in front of the wait. -/
def rerun (s : BaseSemaphore τ) (k : ℕ) : BaseSemaphore τ × ℤ :=
  match s.woken[k]? with
  | none => (s, 0)
  | some (.Z el) => (({ s with woken := s.woken.eraseIdx k } : BaseSemaphore τ).Z el.id, 0)
  | some (.P el) =>
    let r := ({ s with woken := s.woken.eraseIdx k } : BaseSemaphore τ).P el.id el.count
    (r.1, if r.2 then el.count else 0)

/-! ## Interleavings -/

inductive Op (τ : Type)
  | P (t : τ) (c : ℤ)
  | tryP (c : ℤ)
  | Z (t : τ)
  | V (c : ℤ)
  | rerun (k : ℕ)

/-- The semaphore, what has been added by `V` and what has been taken by `P` and `tryP`. -/
structure Client (τ : Type) where
  sem : BaseSemaphore τ
  added : ℤ
  taken : ℤ

def step (s : Client τ) : Op τ → Client τ
  | .P t c => { s with
      sem := (s.sem.P t c).1
      taken := s.taken + if (s.sem.P t c).2 then c else 0 }
  | .tryP c => { s with
      sem := (s.sem.tryP c).1
      taken := s.taken + if (s.sem.tryP c).2 then c else 0 }
  | .Z t => { s with sem := s.sem.Z t }
  | .V c => { s with sem := s.sem.V c, added := s.added + c }
  | .rerun k => { s with sem := (s.sem.rerun k).1, taken := s.taken + (s.sem.rerun k).2 }

/-- The amounts are not negative, and only a woken thread runs again. -/
def adm (s : Client τ) : Op τ → Prop
  | .P _ c | .tryP c | .V c => 0 ≤ c
  | .Z _ => True
  | .rerun k => k < s.sem.woken.length

def machine (τ : Type) : Machine (Client τ) (Op τ) := ⟨step, adm⟩

def start (c : ℤ) : Client τ := ⟨init c, 0, 0⟩

/-- What a woken thread is about to take. -/
def Woken.count : Woken τ → ℤ
  | .P el => el.count
  | .Z _ => 0

/-- What the woken threads are about to take. -/
def pending (s : BaseSemaphore τ) : ℤ := (s.woken.map Woken.count).sum

/-- `tryP` does not bring the counter to zero while threads wait for that, and a woken thread that
has to wait again leaves no first waiter for which there would be enough, with what the other
woken threads are about to take put aside. -/
def Orderly (s : Client τ) : Op τ → Prop
  | .tryP c => s.sem.counter = c → s.sem.zero = []
  | .rerun k => ∀ el, s.sem.woken[k]? = some (.P el) → s.sem.counter < el.count →
      ∀ first ∈ s.sem.neg.head?, s.sem.counter - (s.sem.pending - el.count) < first.count
  | _ => True

def orderlyMachine (τ : Type) : Machine (Client τ) (Op τ) :=
  ⟨step, fun s op => adm s op ∧ Orderly s op⟩

instance (s : Client τ) : ∀ op, Decidable ((machine τ).adm s op)
  | .P _ c | .tryP c | .V c => inferInstanceAs (Decidable (0 ≤ c))
  | .Z _ => isTrue trivial
  | .rerun k => inferInstanceAs (Decidable (k < s.sem.woken.length))

instance (s : Client τ) : ∀ op, Decidable (Orderly s op)
  | .tryP _ => inferInstanceAs (Decidable (_ → _))
  | .rerun k =>
    match hw : s.sem.woken[k]? with
    | some (.P el) => decidable_of_iff (s.sem.counter < el.count →
        ∀ first ∈ s.sem.neg.head?, s.sem.counter - (s.sem.pending - el.count) < first.count)
        ⟨fun h _ hel => by cases hw.symm.trans hel; exact h, fun h => h el hw⟩
    | some (.Z _) => .isTrue fun _ hel => by cases hw.symm.trans hel
    | none => .isTrue fun _ hel => by cases hw.symm.trans hel
  | .P .. | .Z _ | .V _ => isTrue trivial

instance (s : Client τ) (op : Op τ) : Decidable ((orderlyMachine τ).adm s op) :=
  inferInstanceAs (Decidable ((machine τ).adm s op ∧ Orderly s op))

/-- If no woken thread is still to run, nobody waits who could run. -/
def WakesAll (s : BaseSemaphore τ) : Prop :=
  s.woken = [] → (∀ first ∈ s.neg.head?, s.counter < first.count) ∧ (s.counter = 0 → s.zero = [])

/-! ## The loops -/

theorem wakeZero_eq (counter : ℤ) (l : List (Element τ)) :
    wakeZero counter l = if counter = 0 then (l, []) else ([], l) := by
  induction l with
  | nil => split <;> rfl
  | cons el l ih =>
    rw [wakeZero, ih]
    split <;> rfl

theorem wakeNeg_spec (l : List (Element τ)) (tmpCounter : ℤ) :
    (wakeNeg tmpCounter l).1 ++ (wakeNeg tmpCounter l).2 = l ∧
      ∀ first ∈ (wakeNeg tmpCounter l).2.head?,
        tmpCounter - ((wakeNeg tmpCounter l).1.map Element.count).sum = 0 ∨
          tmpCounter - ((wakeNeg tmpCounter l).1.map Element.count).sum < first.count := by
  induction l generalizing tmpCounter with
  | nil => exact ⟨rfl, nofun⟩
  | cons el l ih =>
    rw [wakeNeg]
    split_ifs with hzero hless
    · refine ⟨rfl, fun first _ => .inl ?_⟩
      simpa using hzero
    · refine ⟨rfl, fun first hfirst => .inr ?_⟩
      obtain rfl : el = first := Option.some.inj hfirst
      simpa using hless
    · obtain ⟨happend, hrest⟩ := ih (tmpCounter - el.count)
      refine ⟨congrArg (el :: ·) happend, fun first hfirst => ?_⟩
      rw [List.map_cons, List.sum_cons, ← sub_sub]
      exact hrest first hfirst

/-! ## One operation -/

/-- The counter is not negative, nobody waits for zero when it is zero, and the threads that wait
to decrement it have asked for something. -/
structure Counts (s : BaseSemaphore τ) : Prop where
  nonneg : 0 ≤ s.counter
  zero : s.counter = 0 → s.zero = []
  neg : ∀ el ∈ s.neg, 0 < el.count
  woken : ∀ el, Woken.P el ∈ s.woken → 0 < el.count

/-- There is not enough for the first waiter, with what the woken threads are about to take put
aside. -/
def FirstWaits (s : BaseSemaphore τ) : Prop :=
  ∀ first ∈ s.neg.head?, s.counter - s.pending < first.count

section

variable {s : BaseSemaphore τ} {c : ℤ} {t : τ} {k : ℕ}

variable {w : Woken τ} {c₀ : ℤ}

theorem Counts.count_nonneg (h : Counts s) (hw : w ∈ s.woken) : 0 ≤ w.count := by
  cases w with
  | P el => exact (h.woken el hw).le
  | Z el => exact le_refl 0

theorem Counts.pending_nonneg (h : Counts s) : 0 ≤ s.pending := by
  apply List.sum_nonneg
  intro x hx
  obtain ⟨w, hw, rfl⟩ := List.mem_map.mp hx
  exact h.count_nonneg hw

theorem P_wait (h : s.counter < c) : s.P t c = ({ s with neg := s.neg ++ [⟨t, c⟩] }, false) :=
  if_pos h

theorem P_take (h : ¬ s.counter < c) : s.P t c = ({ s with
    counter := s.counter - c
    zero := if s.counter - c = 0 then [] else s.zero
    woken := s.woken ++ if s.counter - c = 0 then s.zero.map Woken.Z else [] }, true) := by
  rw [P, if_neg h, wakeZero_eq]
  split_ifs <;> rfl

theorem tryP_wait (h : s.counter < c) : s.tryP c = (s, false) := if_pos h

theorem tryP_take (h : ¬ s.counter < c) :
    s.tryP c = ({ s with counter := s.counter - c }, true) := if_neg h

theorem sum_count_zero (l : List (Element τ)) : ((l.map Woken.Z).map Woken.count).sum = 0 := by
  induction l with
  | nil => rfl
  | cons el l ih =>
    rw [List.map_cons, List.map_cons, List.sum_cons, ih]
    rfl

theorem sum_count_neg (l : List (Element τ)) :
    ((l.map Woken.P).map Woken.count).sum = (l.map Element.count).sum := by
  rw [List.map_map]
  rfl

theorem Counts.P (h : Counts s) (hfirst : ∀ first ∈ s.neg.head?,
      (if s.counter < c then s.counter else s.counter - c) - s.pending < first.count) :
    Counts (s.P t c).1 ∧ FirstWaits (s.P t c).1 ∧
      (s.P t c).1.counter = s.counter - if (s.P t c).2 then c else 0 := by
  by_cases hless : s.counter < c
  · rw [P_wait hless]
    refine ⟨⟨h.nonneg, h.zero, fun el hel => ?_, h.woken⟩, fun first hmem => ?_, (sub_zero _).symm⟩
    · rcases List.mem_append.mp hel with hel | hel
      · exact h.neg el hel
      · rw [List.mem_singleton.mp hel]
        exact h.nonneg.trans_lt hless
    · have hpending := h.pending_nonneg
      change s.counter - s.pending < first.count
      cases hneg : s.neg with
      | nil =>
        rw [hneg] at hmem
        obtain rfl := Option.some.inj hmem
        exact (sub_le_self _ hpending).trans_lt hless
      | cons el rest =>
        rw [hneg] at hmem hfirst
        have hthis := hfirst first hmem
        rwa [if_pos hless] at hthis
  · rw [P_take hless]
    have hle := not_lt.mp hless
    refine ⟨⟨sub_nonneg.mpr hle, fun hzero => if_pos hzero, h.neg, fun el hel => ?_⟩,
      fun first hmem => ?_, rfl⟩
    · rcases List.mem_append.mp hel with hel | hel
      · exact h.woken el hel
      · split_ifs at hel
        · obtain ⟨x, -, hx⟩ := List.mem_map.mp hel
          exact nomatch hx
        · exact absurd hel List.not_mem_nil
    · have hthis := hfirst first hmem
      rw [if_neg hless] at hthis
      refine lt_of_eq_of_lt ?_ hthis
      simp only [pending, List.map_append, List.sum_append]
      split_ifs
      · rw [sum_count_zero, add_zero]
      · simp

theorem Counts.Z (h : Counts s) : Counts (s.Z t) ∧ (FirstWaits s → FirstWaits (s.Z t)) ∧
    (s.Z t).counter = s.counter := by
  rw [BaseSemaphore.Z]
  split_ifs with hne
  · exact ⟨⟨h.nonneg, fun hzero => absurd hzero hne, h.neg, h.woken⟩, id, rfl⟩
  · exact ⟨h, id, rfl⟩

theorem Counts.V (h : Counts s) (hc : 0 ≤ c) :
    Counts (s.V c) ∧ FirstWaits (s.V c) := by
  obtain ⟨happend, hrest⟩ := wakeNeg_spec s.neg (s.counter + c)
  have hneg : ∀ el ∈ (wakeNeg (s.counter + c) s.neg).1 ++ (wakeNeg (s.counter + c) s.neg).2,
      0 < el.count := by
    rw [happend]
    exact h.neg
  rw [BaseSemaphore.V]
  refine ⟨⟨add_nonneg h.nonneg hc, fun hzero => h.zero ?_, fun el hel => ?_, fun el hel => ?_⟩,
    fun first hmem => ?_⟩
  · have hnonneg := h.nonneg
    change s.counter + c = 0 at hzero
    omega
  · exact hneg el (List.mem_append_right _ hel)
  · rcases List.mem_append.mp hel with hel | hel
    · exact h.woken el hel
    · obtain ⟨x, hx, heq⟩ := List.mem_map.mp hel
      cases heq
      exact hneg el (List.mem_append_left _ hx)
  · have hpending := h.pending_nonneg
    have hpos := hneg first (List.mem_append_right _ (List.mem_of_mem_head? hmem))
    have hsum : (s.woken ++ (wakeNeg (s.counter + c) s.neg).1.map Woken.P).map Woken.count =
        s.woken.map Woken.count ++
          ((wakeNeg (s.counter + c) s.neg).1.map Woken.P).map Woken.count :=
      List.map_append
    simp only [pending, hsum, List.sum_append, sum_count_neg]
    rw [pending] at hpending
    rcases hrest first hmem with hzero | hless
    · omega
    · omega

/-- The `k`-th of the woken threads has begun to run. -/
def unwait (s : BaseSemaphore τ) (k : ℕ) : BaseSemaphore τ :=
  { s with woken := s.woken.eraseIdx k }

theorem pending_unwait (hw : s.woken[k]? = some w) :
    (s.unwait k).pending = s.pending - w.count := by
  obtain ⟨hk, rfl⟩ := List.getElem?_eq_some_iff.mp hw
  have hperm := ((List.getElem_cons_eraseIdx_perm hk).map Woken.count).sum_eq
  rw [List.map_cons, List.sum_cons] at hperm
  rw [pending, pending, ← hperm]
  exact (add_sub_cancel_left _ _).symm

theorem Counts.unwait (h : Counts s) : Counts (s.unwait k) :=
  ⟨h.nonneg, h.zero, h.neg, fun el hel => h.woken el (List.mem_of_mem_eraseIdx hel)⟩

/-! ## Runs -/

/-- What holds after every operation. -/
structure Inv (c₀ : ℤ) (s : Client τ) : Prop where
  counts : Counts s.sem
  first : FirstWaits s.sem
  ledger : s.sem.counter = c₀ + s.added - s.taken
  taken : 0 ≤ s.taken

theorem taken_nonneg {n : ℤ} {took : Bool} (hn : 0 ≤ n) (hc : 0 ≤ c) :
    0 ≤ n + if took then c else 0 := by
  split_ifs
  · exact add_nonneg hn hc
  · rwa [add_zero]

theorem Inv.rerun {s : Client τ} (h : Inv c₀ s) (hk : k < s.sem.woken.length)
    (horderly : Orderly s (.rerun k)) : Inv c₀ (step s (.rerun k)) := by
  have hw : s.sem.woken[k]? = some s.sem.woken[k] := List.getElem?_eq_getElem hk
  have hpending := pending_unwait hw
  have hcounts : Counts (s.sem.unwait k) := h.counts.unwait
  have hledger := h.ledger
  cases hel : s.sem.woken[k] with
  | Z el =>
    rw [hel] at hw hpending
    have hrerun : s.sem.rerun k = ((s.sem.unwait k).Z el.id, 0) := by
      rw [BaseSemaphore.rerun, hw]
      rfl
    obtain ⟨hcounts', hfirst', hcounter⟩ := hcounts.Z (t := el.id)
    rw [step, hrerun]
    refine ⟨hcounts', hfirst' fun first hmem => ?_, ?_, h.taken.trans_eq (add_zero _).symm⟩
    · rw [hpending]
      exact lt_of_eq_of_lt (by rw [Woken.count, sub_zero]; rfl) (h.first first hmem)
    · rw [add_zero]
      exact hcounter.trans hledger
  | P el =>
    rw [hel] at hw hpending
    have hrerun : s.sem.rerun k = (((s.sem.unwait k).P el.id el.count).1,
        if ((s.sem.unwait k).P el.id el.count).2 then el.count else 0) := by
      rw [BaseSemaphore.rerun, hw]
      rfl
    have hfirst : ∀ first ∈ (s.sem.unwait k).neg.head?,
        (if (s.sem.unwait k).counter < el.count then (s.sem.unwait k).counter
          else (s.sem.unwait k).counter - el.count) - (s.sem.unwait k).pending <
          first.count := by
      intro first hmem
      rw [hpending]
      split_ifs with hless
      · exact horderly el hw hless first hmem
      · exact lt_of_eq_of_lt (by rw [Woken.count]; exact sub_sub_sub_cancel_right _ _ _)
          (h.first first hmem)
    obtain ⟨hcounts', hfirst', hcounter⟩ := hcounts.P (t := el.id) hfirst
    rw [step, hrerun]
    refine ⟨hcounts', hfirst', ?_, taken_nonneg h.taken (h.counts.count_nonneg (List.mem_of_getElem? hw))⟩
    change ((s.sem.unwait k).P el.id el.count).1.counter = _
    rw [hcounter, ← sub_sub, ← hledger]
    rfl

theorem Inv.step {s : Client τ} (h : Inv c₀ s) {op : Op τ} (hadm : adm s op)
    (horderly : Orderly s op) : Inv c₀ (BaseSemaphore.step s op) := by
  have hledger := h.ledger
  cases op with
  | P t c =>
    have hc : 0 ≤ c := hadm
    obtain ⟨hcounts', hfirst', hcounter⟩ := h.counts.P (t := t) (c := c) fun first hmem => by
      have hthis := h.first first hmem
      split_ifs
      · exact hthis
      · omega
    refine ⟨hcounts', hfirst', ?_, taken_nonneg h.taken hc⟩
    change (s.sem.P t c).1.counter =
      c₀ + s.added - (s.taken + if (s.sem.P t c).2 then c else 0)
    rw [hcounter, ← sub_sub, ← hledger]
  | tryP c =>
    have hc : 0 ≤ c := hadm
    by_cases hless : s.sem.counter < c
    · rw [BaseSemaphore.step, tryP_wait hless]
      exact ⟨h.counts, h.first, by simpa using hledger, by simpa using h.taken⟩
    · rw [BaseSemaphore.step, tryP_take hless]
      refine ⟨⟨sub_nonneg.mpr (not_lt.mp hless), fun hzero => ?_, h.counts.neg,
        h.counts.woken⟩, fun first hmem => ?_, ?_, add_nonneg h.taken hc⟩
      · exact horderly (sub_eq_zero.mp hzero)
      · have hthis := h.first first hmem
        change s.sem.counter - c - s.sem.pending < first.count
        omega
      · change s.sem.counter - c = c₀ + s.added - (s.taken + c)
        omega
  | Z t =>
    obtain ⟨hcounts', hfirst', hcounter⟩ := h.counts.Z (t := t)
    exact ⟨hcounts', hfirst' h.first, hcounter.trans hledger, h.taken⟩
  | V c =>
    obtain ⟨hcounts', hfirst'⟩ := h.counts.V hadm
    refine ⟨hcounts', hfirst', ?_, h.taken⟩
    change s.sem.counter + c = c₀ + (s.added + c) - s.taken
    omega
  | rerun k => exact h.rerun hadm horderly

/-! ## Threads that are not woken -/

/-- Threads wait for zero when the counter is zero, or there is enough for the first waiter. -/
def Stuck (s : BaseSemaphore τ) : Prop :=
  s.counter = 0 ∧ s.zero ≠ [] ∨
    ∃ first ∈ s.neg.head?, 0 < first.count ∧ first.count ≤ s.counter - s.pending

/-- The woken threads ask for something. -/
def Asking (s : BaseSemaphore τ) : Prop := ∀ el, Woken.P el ∈ s.woken → 0 < el.count

theorem Asking.pending_nonneg (h : Asking s) : 0 ≤ s.pending := by
  apply List.sum_nonneg
  intro x hx
  obtain ⟨w, hw, rfl⟩ := List.mem_map.mp hx
  cases w with
  | P el => exact (h el hw).le
  | Z el => exact le_refl 0

theorem Stuck.rerun (h : Stuck s) (hasking : Asking s) {rest : List (Woken τ)}
    (hw : s.woken = w :: rest) :
    (s.rerun 0).1.woken = rest ∧ Stuck (s.rerun 0).1 ∧ Asking (s.rerun 0).1 := by
  have hget : s.woken[0]? = some w := by rw [hw]; rfl
  have hrest : (s.unwait 0).woken = rest := by rw [unwait, hw]; rfl
  have hpending := pending_unwait hget
  have hasking' : ∀ el, Woken.P el ∈ rest → 0 < el.count := fun el hel =>
    hasking el (hw ▸ List.mem_cons_of_mem _ hel)
  have hnonneg : 0 ≤ (s.unwait 0).pending := by
    refine Asking.pending_nonneg fun el hel => hasking' el ?_
    rwa [hrest] at hel
  cases w with
  | Z el =>
    have hrerun : (s.rerun 0).1 = (s.unwait 0).Z el.id := by
      rw [BaseSemaphore.rerun, hget]
      rfl
    rw [Woken.count, sub_zero] at hpending
    rw [hrerun, BaseSemaphore.Z]
    split_ifs with hne
    · refine ⟨hrest, ?_, fun el hel => hasking' el (hrest ▸ hel)⟩
      rcases h with ⟨hzero, -⟩ | ⟨first, hmem, hpos, hle⟩
      · exact absurd hzero hne
      · exact .inr ⟨first, hmem, hpos, hle.trans_eq (congrArg (s.counter - ·) hpending.symm)⟩
    · refine ⟨hrest, ?_, fun el hel => hasking' el (hrest ▸ hel)⟩
      rcases h with hzero | ⟨first, hmem, hpos, hle⟩
      · exact .inl hzero
      · exact .inr ⟨first, hmem, hpos, hle.trans_eq (congrArg (s.counter - ·) hpending.symm)⟩
  | P el =>
    have hrerun : (s.rerun 0).1 = ((s.unwait 0).P el.id el.count).1 := by
      rw [BaseSemaphore.rerun, hget]
      rfl
    have hpos : 0 < el.count := hasking el (hw ▸ List.mem_cons_self)
    rw [Woken.count] at hpending
    rw [hrerun]
    rcases h with ⟨hzero, hwait⟩ | ⟨first, hmem, hfirst, hle⟩
    · have hless : (s.unwait 0).counter < el.count := hzero.trans_lt hpos
      rw [P_wait hless]
      exact ⟨hrest, .inl ⟨hzero, hwait⟩, fun el hel => hasking' el (hrest ▸ hel)⟩
    · have hless : ¬ (s.unwait 0).counter < el.count := by
        change ¬ s.counter < el.count
        omega
      have hne : ¬ (s.unwait 0).counter - el.count = 0 := by
        change ¬ s.counter - el.count = 0
        omega
      rw [P_take hless, if_neg hne, if_neg hne]
      have hwoken : (s.unwait 0).woken ++ [] = rest := (List.append_nil _).trans hrest
      refine ⟨hwoken, .inr ⟨first, hmem, hfirst, ?_⟩, fun el hel => hasking' el (hwoken ▸ hel)⟩
      have hsame : pending { s.unwait 0 with
          counter := (s.unwait 0).counter - el.count
          zero := (s.unwait 0).zero
          woken := (s.unwait 0).woken ++ [] } = (s.unwait 0).pending := by
        simp [pending]
      rw [hsame, hpending]
      change first.count ≤ s.counter - el.count - (s.pending - el.count)
      omega

theorem Stuck.exists_run {c : Client τ} (h : Stuck c.sem) (hasking : Asking c.sem) :
    ∃ ops c', (∀ op ∈ ops, op = Op.rerun 0) ∧ (machine τ).Run c ops c' ∧ ¬ WakesAll c'.sem := by
  obtain ⟨n, hn⟩ : ∃ n, c.sem.woken.length = n := ⟨_, rfl⟩
  induction n generalizing c with
  | zero =>
    have hnil := List.length_eq_zero_iff.mp hn
    refine ⟨[], c, nofun, .nil, fun hwakes => ?_⟩
    obtain ⟨hneg, hzero⟩ := hwakes hnil
    rcases h with ⟨hcounter, hwait⟩ | ⟨first, hmem, -, hle⟩
    · exact hwait (hzero hcounter)
    · have hpending : c.sem.pending = 0 := by
        rw [pending, hnil]
        rfl
      rw [hpending, sub_zero] at hle
      exact absurd (hneg first hmem) (not_lt.mpr hle)
  | succ n ih =>
    obtain ⟨w, rest, hw⟩ := List.exists_cons_of_length_eq_add_one hn
    obtain ⟨hrest, hstuck, hasking'⟩ := h.rerun hasking hw
    have hlen : (BaseSemaphore.step c (.rerun 0)).sem.woken.length = n := by
      change (c.sem.rerun 0).1.woken.length = n
      rw [hw, List.length_cons] at hn
      rw [hrest]
      exact Nat.succ.inj hn
    obtain ⟨ops, c', hops, hrun, hwakes⟩ :=
      ih (c := BaseSemaphore.step c (.rerun 0)) hstuck hasking' hlen
    refine ⟨.rerun 0 :: ops, c', ?_, Machine.Run.cons ?_ hrun, hwakes⟩
    · intro op hop
      rcases List.mem_cons.mp hop with rfl | hop
      · rfl
      · exact hops op hop
    · change 0 < c.sem.woken.length
      rw [hn]
      exact Nat.succ_pos n

theorem Inv.stuck {c : Client τ} (h : Inv c₀ c) {op : Op τ} (hnot : ¬ Orderly c op) :
    Stuck (BaseSemaphore.step c op).sem ∧ Asking (BaseSemaphore.step c op).sem := by
  cases op with
  | tryP n =>
    obtain ⟨heq, hne⟩ := Classical.not_imp.mp hnot
    have hless : ¬ c.sem.counter < n := heq.not_lt
    rw [BaseSemaphore.step, tryP_take hless]
    exact ⟨.inl ⟨sub_eq_zero.mpr heq, hne⟩, h.counts.woken⟩
  | rerun k =>
    rw [Orderly] at hnot
    push Not at hnot
    obtain ⟨el, hw, hless, first, hmem, hle⟩ := hnot
    have hpending := pending_unwait hw
    have hrerun : (c.sem.rerun k).1 =
        { c.sem.unwait k with neg := c.sem.neg ++ [⟨el.id, el.count⟩] } := by
      have hless' : (c.sem.unwait k).counter < el.count := hless
      have hP : ((c.sem.unwait k).P el.id el.count).1 = _ :=
        congrArg Prod.fst (P_wait hless')
      rw [BaseSemaphore.rerun, hw]
      exact hP
    have hhead : first ∈ (c.sem.neg ++ [(⟨el.id, el.count⟩ : Element τ)]).head? := by
      rw [List.head?_append]
      rw [Option.mem_def.mp hmem]
      rfl
    change Stuck (c.sem.rerun k).1 ∧ Asking (c.sem.rerun k).1
    rw [hrerun]
    refine ⟨.inr ⟨first, hhead, h.counts.neg first (List.mem_of_mem_head? hmem), ?_⟩,
      h.counts.unwait.woken⟩
    exact hle.trans_eq (congrArg (c.sem.counter - ·) hpending.symm)
  | _ => exact absurd trivial hnot

theorem run_inv (h₀ : 0 ≤ c₀) {ops : List (Op τ)} {c : Client τ}
    (h : (orderlyMachine τ).Run (start c₀) ops c) : Inv c₀ c := by
  refine h.invariant (I := Inv c₀) ⟨⟨h₀, fun _ => rfl, ?_, ?_⟩, ?_, ?_, le_rfl⟩ ?_
  · simp [start, init]
  · simp [start, init]
  · simp [start, init, FirstWaits]
  · simp [start, init]
  · intro s op hs hadm
    exact Inv.step hs hadm.1 hadm.2

/-- The counter is at most what it began with and what has been added. -/
theorem run_counter_le (h₀ : 0 ≤ c₀) {ops : List (Op τ)} {c : Client τ}
    (h : (orderlyMachine τ).Run (start c₀) ops c) : c.sem.counter ≤ c₀ + c.added := by
  have hinv := run_inv h₀ h
  rw [hinv.ledger]
  exact sub_le_self _ hinv.taken

end

/-- **Who can run is woken.** In orderly interleavings the counter is what was added less what was
taken and is not negative, and when no woken thread is still to run, there is not enough for the
first waiter and nobody waits for a counter that is zero. From a step that is not orderly the
woken threads run into a state where this is not so. -/
theorem run_wakesAll {c₀ : ℤ} (h₀ : 0 ≤ c₀) {ops : List (Op τ)} {c : Client τ}
    (h : (orderlyMachine τ).Run (start c₀) ops c) :
    WakesAll c.sem ∧ 0 ≤ c.sem.counter ∧ c.sem.counter = c₀ + c.added - c.taken ∧
      ∀ op, adm c op → ¬ Orderly c op → ∃ ops' c',
        (∀ op' ∈ ops', op' = Op.rerun 0) ∧ (machine τ).Run (step c op) ops' c' ∧
          ¬ WakesAll c'.sem := by
  have hinv := run_inv h₀ h
  refine ⟨fun hnil => ⟨fun first hmem => ?_, hinv.counts.zero⟩, hinv.counts.nonneg, hinv.ledger,
    fun op _ hnot => ?_⟩
  · have hthis := hinv.first first hmem
    rwa [pending, hnil, List.map_nil, List.sum_nil, sub_zero] at hthis
  · obtain ⟨hstuck, hasking⟩ := hinv.stuck hnot
    exact hstuck.exists_run hasking

/-- A thread waits for two units and gets them; another one waits for zero until three are
taken. -/
theorem run_wakesAll_served : ∃ c : Client ℕ, WakesAll c.sem ∧
    c.sem.counter = 0 ∧ c.sem.woken.length = 0 ∧ c.taken = 5 := by
  have hrun : (orderlyMachine ℕ).Run (start 0)
      [.P 1 2, .V 2, .rerun 0, .Z 2, .V 3, .Z 5, .P 3 3, .rerun 0] _ :=
    Machine.Admits.run (by decide +kernel)
  exact ⟨_, (run_wakesAll (le_refl 0) hrun).1, by decide +kernel, by decide +kernel,
    by decide +kernel⟩

/-- A thread waits for zero when `tryP` takes the last unit. And a thread that is woken for two
units finds one taken, and goes behind a thread that waits for one. -/
theorem not_run_wakesAll : (∃ ops c, (machine ℕ).Run (start 1) ops c ∧ c.sem.woken = [] ∧
      c.sem.counter = 0 ∧ c.sem.zero ≠ []) ∧
    ∃ ops c, (machine ℕ).Run (start 0) ops c ∧ c.sem.woken = [] ∧
      ∃ first ∈ c.sem.neg.head?, first.count ≤ c.sem.counter := by
  have htryP : (machine ℕ).Run (start 1) [.Z 1, .tryP 1] _ :=
    Machine.Admits.run (by decide +kernel)
  have hlate : (machine ℕ).Run (start 0) [.P 1 2, .P 2 1, .V 2, .P 3 1, .rerun 0] _ :=
    Machine.Admits.run (by decide +kernel)
  refine ⟨⟨_, _, htryP, by decide +kernel, by decide +kernel, by decide +kernel⟩, _, _, hlate,
    by decide +kernel, ⟨2, 1⟩, rfl, by decide +kernel⟩

end BaseSemaphore

end K42
