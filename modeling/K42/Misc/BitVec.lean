import K42.Lib.Bitmap

/-!
# Bit vectors

`findFirstUnSet` of `BitVec64` ends when the word that is shifted down is 0, and then says that no
bit is clear. `setFirstBits` and `clearFirstBits` of `BitVec<N>` store to the word of bit `n`, also
where `n` is `N` and that word is behind the array.
-/

open Function (update_apply update)

namespace K42.BitVectors

/-! ## One word -/

def findLoop : ℕ → BitVec 64 → ℕ → ℕ
  | 0, _, _ => 64
  | n + 1, b, i =>
    if b = 0 then 64
    else if b &&& 1 = 0 then i
    else findLoop n (b >>> 1) (i + 1)

/-- The word is 0 after 64 rounds. -/
def findFirstUnSet (bits : BitVec 64) : ℕ := findLoop 64 bits 0

theorem and_one_eq_zero {b : BitVec 64} : b &&& 1 = 0 ↔ b.getLsbD 0 = false := by
  constructor
  · intro h
    have hbit := congrArg (fun x => x.getLsbD 0) h
    simpa using hbit
  · intro h
    apply BitVec.eq_of_getLsbD_eq
    intro i hi
    rw [BitVec.getLsbD_and]
    cases i with
    | zero =>
      rw [h]
      rfl
    | succ i => simp [BitVec.getLsbD_one]

theorem findLoop_eq (bits : BitVec 64) {n i : ℕ} (hni : n + i = 64)
    (hset : ∀ j < i, bits.getLsbD j = true) :
    findLoop n (bits >>> i) i =
      if bits >>> Bitmap.lowClear bits = 0 then 64 else Bitmap.lowClear bits := by
  induction n generalizing i with
  | zero =>
    obtain rfl : i = 64 := by omega
    have hzero : bits >>> 64 = 0 := BitVec.ushiftRight_eq_zero le_rfl
    have hlow : Bitmap.lowClear bits = 64 := by
      by_contra hne
      obtain ⟨hlt, hclear⟩ := Bitmap.getLsbD_lowClear hne
      rw [hset _ hlt] at hclear
      cases hclear
    rw [hlow, if_pos hzero]
    rfl
  | succ n ih =>
    have hi : i < 64 := by omega
    have hbit : (bits >>> i).getLsbD 0 = bits.getLsbD i := by
      rw [BitVec.getLsbD_ushiftRight, Nat.add_zero]
    rw [findLoop]
    by_cases hclear : bits.getLsbD i = false
    · have hand := and_one_eq_zero.mpr (hbit.trans hclear)
      rw [Bitmap.lowClear_eq hi hclear hset, if_pos hand]
    · have hand : ¬ bits >>> i &&& 1 = 0 := fun h => hclear (hbit.symm.trans (and_one_eq_zero.mp h))
      have hne : ¬ bits >>> i = 0 := by
        intro h
        rw [h] at hand
        exact hand rfl
      rw [if_neg hne, if_neg hand, ← BitVec.shiftRight_add]
      refine ih (by omega) fun j hj => ?_
      rcases Nat.lt_succ_iff_lt_or_eq.mp hj with hj | rfl
      · exact hset j hj
      · exact Bool.not_eq_false _ ▸ hclear

theorem lowClear_eq_width {bits : BitVec 64} :
    Bitmap.lowClear bits = 64 ↔ bits = BitVec.allOnes 64 := by
  rw [Bitmap.eq_allOnes_iff]
  constructor
  · intro hlow k hk
    by_contra hclear
    exact Bitmap.lowClear_ne hk (Bool.not_eq_true _ ▸ hclear) hlow
  · intro hset
    by_contra hne
    obtain ⟨hlt, hclear⟩ := Bitmap.getLsbD_lowClear hne
    rw [hset _ hlt] at hclear
    cases hclear

/-! ## Arrays of words -/

/-- `NUM_BIT_ELEMENTS`. -/
def numElements (N : ℕ) : ℕ := (N + 63) % 2 ^ 64 / 64

variable (N : ℕ) (elements : ℕ → BitVec 64)

def isBitSet (b : ℕ) : Bool :=
  elements (b / 64) &&& (1 : BitVec 64) <<< (b % 64) != 0

/-- `for (; i < ..; i++)`, for `k` words. -/
def fillUp (v : BitVec 64) : ℕ → ℕ → (ℕ → BitVec 64) → ℕ → BitVec 64
  | 0, _, elements => elements
  | k + 1, i, elements => fillUp v k (i + 1) (update elements i v)

/-- `for (i--; i >= 0; i--)`. -/
def fillDown (v : BitVec 64) : ℕ → (ℕ → BitVec 64) → ℕ → BitVec 64
  | 0, elements => elements
  | i + 1, elements => fillDown v i (update elements i v)

/-- `none` if a word behind the array is stored to, or if there are more words than an `int` can
count. -/
def storeFirstBits (n : ℕ) (word above below : BitVec 64) :
    Option (ℕ → BitVec 64) :=
  let i := n / 64
  if i < numElements N ∧ numElements N < 2 ^ 31 then
    let elements := update elements i word
    let elements := fillUp above (numElements N - (i + 1)) (i + 1) elements
    some (fillDown below i elements)
  else none

def setFirstBits (n : ℕ) : Option (ℕ → BitVec 64) :=
  storeFirstBits N elements n (((1 : BitVec 64) <<< (n % 64)) - 1) 0 (~~~0)

def clearFirstBits (n : ℕ) : Option (ℕ → BitVec 64) :=
  storeFirstBits N elements n (~~~(((1 : BitVec 64) <<< (n % 64)) - 1)) (~~~0) 0

theorem isBitSet_eq (b : ℕ) :
    isBitSet elements b = Bitmap.bit elements b := by
  have hb := Nat.mod_lt b (by decide : 0 < 64)
  have hmask (j : ℕ) : ((1 : BitVec 64) <<< (b % 64)).getLsbD j = decide (j = b % 64) :=
    Bitmap.getLsbD_one_shiftLeft hb
  unfold isBitSet Bitmap.bit
  cases hbit : (elements (b / 64)).getLsbD (b % 64) with
  | true =>
    rw [bne_iff_ne]
    intro hzero
    have hget := congrArg (fun x => x.getLsbD (b % 64)) hzero
    simp [hbit] at hget
    omega
  | false =>
    rw [bne_eq_false_iff_eq]
    apply BitVec.eq_of_getLsbD_eq
    intro j hj
    rw [BitVec.getLsbD_and, hmask]
    by_cases hjb : j = b % 64
    · subst hjb
      simp [hbit]
    · simp [hjb]

theorem fillUp_apply (v : BitVec 64) (k i : ℕ) (elements : ℕ → BitVec 64) (j : ℕ) :
    fillUp v k i elements j = if i ≤ j ∧ j < i + k then v else elements j := by
  induction k generalizing i elements with
  | zero => rw [fillUp, if_neg (by omega)]
  | succ k ih =>
    rw [fillUp, ih, update_apply]
    split_ifs <;> first | rfl | omega

theorem fillDown_apply (v : BitVec 64) (i : ℕ) (elements : ℕ → BitVec 64) (j : ℕ) :
    fillDown v i elements j = if j < i then v else elements j := by
  induction i generalizing elements with
  | zero => rfl
  | succ i ih =>
    rw [fillDown, ih, update_apply]
    split_ifs <;> first | rfl | omega

/-- The bits of the array are those that `value` says, and nothing else is stored to. -/
def Writes (value : ℕ → Bool)
    (result : Option (ℕ → BitVec 64)) : Prop :=
  ∃ elements', result = some elements' ∧
    (∀ b < 64 * numElements N, isBitSet elements' b = value b) ∧
    ∀ i ≥ numElements N, elements' i = elements i

theorem storeFirstBits_iff (n : ℕ) {word above below : BitVec 64}
    {value : ℕ → Bool} (hword : ∀ b, b / 64 = n / 64 → word.getLsbD (b % 64) = value b)
    (habove : ∀ b, n / 64 < b / 64 → above.getLsbD (b % 64) = value b)
    (hbelow : ∀ b, b / 64 < n / 64 → below.getLsbD (b % 64) = value b) :
    Writes N elements value (storeFirstBits N elements n word above below) ↔
      n / 64 < numElements N ∧ numElements N < 2 ^ 31 := by
  unfold storeFirstBits Writes
  constructor
  · rintro ⟨elements', hsome, -⟩
    by_contra hout
    rw [if_neg hout] at hsome
    cases hsome
  · intro hin
    refine ⟨_, if_pos hin, fun b hb => ?_, fun i hi => ?_⟩
    · rw [isBitSet_eq, Bitmap.bit, fillDown_apply, fillUp_apply, update_apply]
      rcases lt_trichotomy (b / 64) (n / 64) with hlt | heq | hgt
      · rw [if_pos hlt]
        exact hbelow b hlt
      · rw [if_neg (by omega), if_neg (by omega), if_pos heq]
        exact hword b heq
      · rw [if_neg (by omega), if_pos (by omega)]
        exact habove b hgt
    · rw [fillDown_apply, fillUp_apply, update_apply, if_neg (by omega),
        if_neg (by omega), if_neg (by omega)]

theorem setFirstBits_iff (n : ℕ) :
    Writes N elements (fun b => b < n) (setFirstBits N elements n) ↔
      n / 64 < numElements N ∧ numElements N < 2 ^ 31 := by
  have hmod (b : ℕ) : b % 64 < 64 := Nat.mod_lt b (by decide)
  refine storeFirstBits_iff N elements n (fun b hb => ?_) (fun b hb => ?_) fun b hb => ?_
  · rw [Bitmap.getLsbD_firstBits (hmod n), decide_eq_decide]
    omega
  · simp
    omega
  · rw [BitVec.getLsbD_not]
    simp [hmod]
    omega

theorem clearFirstBits_iff (n : ℕ) :
    Writes N elements (fun b => n ≤ b) (clearFirstBits N elements n) ↔
      n / 64 < numElements N ∧ numElements N < 2 ^ 31 := by
  have hmod (b : ℕ) : b % 64 < 64 := Nat.mod_lt b (by decide)
  refine storeFirstBits_iff N elements n (fun b hb => ?_) (fun b hb => ?_) fun b hb => ?_
  · rw [Bitmap.getLsbD_clearFirstBits (hmod n) (hmod b), decide_eq_decide]
    omega
  · rw [BitVec.getLsbD_not]
    simp [hmod]
    omega
  · simp
    omega

/-- **Bit vectors** find the lowest clear bit just if a bit above it is set or none is clear, and
set and clear the first bits just if bit `n` is in a word of the array. -/
theorem bitVec_iff (bits : BitVec 64) (N : ℕ) (elements : ℕ → BitVec 64) (n : ℕ) :
    (findFirstUnSet bits = Bitmap.lowClear bits ↔
      bits = BitVec.allOnes 64 ∨ bits >>> Bitmap.lowClear bits ≠ 0) ∧
    (Writes N elements (fun b => b < n) (setFirstBits N elements n) ↔
      n / 64 < numElements N ∧ numElements N < 2 ^ 31) ∧
    (Writes N elements (fun b => n ≤ b) (clearFirstBits N elements n) ↔
      n / 64 < numElements N ∧ numElements N < 2 ^ 31) := by
  refine ⟨?_, setFirstBits_iff N elements n, clearFirstBits_iff N elements n⟩
  have hfind := findLoop_eq bits (show 64 + 0 = 64 from rfl) nofun
  rw [BitVec.ushiftRight_zero] at hfind
  rw [findFirstUnSet, hfind, ← lowClear_eq_width]
  by_cases hzero : bits >>> Bitmap.lowClear bits = 0
  · rw [if_pos hzero]
    exact ⟨fun h => .inl h.symm, fun h => (h.resolve_right (not_not_intro hzero)).symm⟩
  · rw [if_neg hzero]
    exact iff_of_true rfl (.inr hzero)

/-- The empty word has no clear bit, and the first 64 bits of 64 are not set. -/
theorem not_bitVec : ¬ ∀ (bits : BitVec 64) (N : ℕ) (elements : ℕ → BitVec 64) (n : ℕ), n ≤ N →
    findFirstUnSet bits = Bitmap.lowClear bits ∧
    Writes N elements (fun b => b < n) (setFirstBits N elements n) ∧
    Writes N elements (fun b => n ≤ b) (clearFirstBits N elements n) := by
  intro h
  have hfind := (h 0 64 (fun _ => 0) 64 le_rfl).1
  revert hfind
  decide

end K42.BitVectors
