import Mathlib.Data.Nat.Bitwise
import Mathlib.Order.Interval.Finset.Nat

/-!
# Bitmaps in arrays of words

A bitmap is an array of `w`-bit words; bit `n` is bit `n % w` of word `n / w`.
Setting and clearing one bit through its word changes that bit alone. A search
that skips full words and then takes the lowest clear bit of the first other
word finds the lowest clear bit of the map.
-/

open Function (update_of_ne update_self update)

namespace Bitmap

variable {w : ℕ}

/-- Bit `n` of the map. -/
def bit (words : ℕ → BitVec w) (n : ℕ) : Bool := (words (n / w)).getLsbD (n % w)

/-- Set bit `n` through its word. -/
def setBit (words : ℕ → BitVec w) (n : ℕ) : ℕ → BitVec w :=
  update words (n / w) (words (n / w) ||| 1#w <<< (n % w))

/-- Clear bit `n` through its word. -/
def clearBit (words : ℕ → BitVec w) (n : ℕ) : ℕ → BitVec w :=
  update words (n / w) (words (n / w) &&& ~~~(1#w <<< (n % w)))

variable {k n b lo : ℕ} {x : BitVec w} {words : ℕ → BitVec w}

theorem getLsbD_one_shiftLeft {j : ℕ} (hk : k < w) : (1#w <<< k).getLsbD j = decide (j = k) := by
  rw [BitVec.getLsbD_shiftLeft, BitVec.getLsbD_one]
  by_cases hj : j = k
  · subst hj
    simp [hk, Nat.zero_lt_of_lt hk]
  · simp only [hj, decide_false]
    by_cases hlt : j < k
    · simp [hlt]
    · have : ¬ (j - k = 0) := by omega
      simp [this]

theorem getLsbD_firstBits (hn : n < 64) (j : ℕ) :
    (((1 : BitVec 64) <<< n) - 1).getLsbD j = decide (j < n) := by
  have htoNat : (((1 : BitVec 64) <<< n) - 1).toNat = 2 ^ n - 1 := by
    have hpow : 2 ^ n < 2 ^ 64 := Nat.pow_lt_pow_right (by decide) hn
    have hpos : 0 < 2 ^ n := Nat.two_pow_pos n
    rw [BitVec.toNat_sub, BitVec.toNat_shiftLeft]
    simp only [BitVec.toNat_ofNat, BitVec.ofNat_eq_ofNat, Nat.shiftLeft_eq]
    omega
  rw [BitVec.getLsbD, htoNat, Nat.testBit_two_pow_sub_one]

theorem getLsbD_clearFirstBits {j : ℕ} (hn : n < 64) (hj : j < 64) :
    (~~~(((1 : BitVec 64) <<< n) - 1)).getLsbD j = decide (n ≤ j) := by
  rw [BitVec.getLsbD_not, getLsbD_firstBits hn]
  simp [hj, ← decide_not]

/-- The place of a number is determined by its word and its bit. -/
theorem div_mod_inj {m : ℕ} (h1 : m / w = n / w) (h2 : m % w = n % w) : m = n := by
  rw [← Nat.div_add_mod m w, ← Nat.div_add_mod n w, h1, h2]

theorem bit_setBit (hw : 0 < w) (words : ℕ → BitVec w) (n m : ℕ) :
    bit (setBit words n) m = (bit words m || decide (m = n)) := by
  unfold bit setBit
  by_cases hword : m / w = n / w
  · rw [hword, update_self, BitVec.getLsbD_or, getLsbD_one_shiftLeft (Nat.mod_lt n hw)]
    congr 1
    refine decide_eq_decide.mpr ⟨fun h => div_mod_inj hword h, ?_⟩
    rintro rfl
    rfl
  · rw [update_of_ne hword]
    have hne : m ≠ n := by
      rintro rfl
      exact hword rfl
    simp [hne]

theorem bit_clearBit (hw : 0 < w) (words : ℕ → BitVec w) (n m : ℕ) :
    bit (clearBit words n) m = (bit words m && !decide (m = n)) := by
  unfold bit clearBit
  by_cases hword : m / w = n / w
  · rw [hword, update_self, BitVec.getLsbD_and, BitVec.getLsbD_not,
      getLsbD_one_shiftLeft (Nat.mod_lt n hw)]
    have hlt : m % w < w := Nat.mod_lt m hw
    have hiff : m % w = n % w ↔ m = n := by
      refine ⟨fun h => div_mod_inj hword h, ?_⟩
      rintro rfl
      rfl
    simp only [hlt, decide_true, Bool.true_and, decide_eq_decide.mpr hiff]
  · rw [update_of_ne hword]
    have hne : m ≠ n := by
      rintro rfl
      exact hword rfl
    simp [hne]

/-! ## Full words -/

theorem eq_allOnes_iff :
    x = BitVec.allOnes w ↔ ∀ k < w, x.getLsbD k = true := by
  constructor
  · rintro rfl k hk
    simp [hk]
  · intro h
    refine BitVec.eq_of_getLsbD_eq ?_
    intro k hk
    simp [h k hk, hk]

/-- The lowest clear bit of a word; `w` when there is none. -/
def lowClear (x : BitVec w) : ℕ := ((List.range w).find? (fun k => !x.getLsbD k)).getD w

theorem lowClear_eq (hk : k < w) (hclear : x.getLsbD k = false)
    (hlow : ∀ i < k, x.getLsbD i = true) : lowClear x = k := by
  have hfind : (List.range w).find? (fun k => !x.getLsbD k) = some k := by
    rw [List.find?_range_eq_some]
    refine ⟨by simp [hclear], by simpa using hk, ?_⟩
    intro j hj
    simp [hlow j hj]
  rw [lowClear, hfind]
  rfl

/-- A search that does not fail finds a clear bit. -/
theorem getLsbD_lowClear (h : lowClear x ≠ w) :
    lowClear x < w ∧ x.getLsbD (lowClear x) = false := by
  unfold lowClear at h ⊢
  cases hfind : (List.range w).find? (fun k => !x.getLsbD k) with
  | none =>
    rw [hfind] at h
    exact absurd rfl h
  | some k =>
    have hk := List.mem_range.1 (List.mem_of_find?_eq_some hfind)
    have hclear := List.find?_some hfind
    exact ⟨hk, by simpa using hclear⟩

/-- A search fails only on a full word. -/
theorem lowClear_ne (hk : k < w) (hclear : x.getLsbD k = false) :
    lowClear x ≠ w := by
  unfold lowClear
  cases hfind : (List.range w).find? (fun k => !x.getLsbD k) with
  | none =>
    have := List.find?_eq_none.1 hfind k (List.mem_range.2 hk)
    simp [hclear] at this
  | some j =>
    have hj := List.mem_range.1 (List.mem_of_find?_eq_some hfind)
    exact Nat.ne_of_lt hj

/-- The bits of one word. -/
theorem bit_mul_add (hw : 0 < w) (words : ℕ → BitVec w) (j : ℕ) (hk : k < w) :
    bit words (j * w + k) = (words j).getLsbD k := by
  unfold bit
  rw [Nat.mul_comm, Nat.mul_add_div hw, Nat.mul_add_mod, Nat.div_eq_of_lt hk,
    Nat.mod_eq_of_lt hk, Nat.add_zero]

/-- Everything below the lowest clear bit of the map, word by word: the words
before it are full, its word is not, and it is the lowest clear bit there. -/
theorem word_of_lowest (hw : 0 < w)
    (hclear : bit words b = false) (hlow : ∀ n < b, bit words n = true) :
    (∀ j < b / w, words j = BitVec.allOnes w) ∧ words (b / w) ≠ BitVec.allOnes w ∧
      lowClear (words (b / w)) = b % w := by
  have hbit : ∀ j k, k < w → bit words (j * w + k) = (words j).getLsbD k :=
    fun j _ hk => bit_mul_add hw words j hk
  have hdm : b / w * w + b % w = b := by
    rw [Nat.mul_comm]
    exact Nat.div_add_mod b w
  have hmod := Nat.mod_lt b hw
  refine ⟨?_, ?_, lowClear_eq hmod hclear ?_⟩
  · intro j hj
    rw [eq_allOnes_iff]
    intro k hk
    rw [← hbit j k hk]
    have hle : (j + 1) * w ≤ b / w * w := Nat.mul_le_mul_right w hj
    rw [Nat.succ_mul] at hle
    exact hlow _ (by omega)
  · intro h
    have hset := eq_allOnes_iff.mp h (b % w) hmod
    unfold bit at hclear
    rw [hset] at hclear
    cases hclear
  · intro k hk
    rw [← hbit _ k (by omega)]
    exact hlow _ (by omega)

/-! ## Counting clear bits -/

/-- The number of clear bits below `n`. -/
def clearCount (words : ℕ → BitVec w) (n : ℕ) : ℕ :=
  ((Finset.range n).filter (fun k => bit words k = false)).card

theorem clearCount_le (words : ℕ → BitVec w) (n : ℕ) : clearCount words n ≤ n := by
  have hle := Finset.card_filter_le (Finset.range n) (fun k => bit words k = false)
  rwa [Finset.card_range] at hle

/-- The clear bits of a map whose bits below `r` alone are set. -/
theorem clearCount_of_initial {r : ℕ}
    (h : ∀ b < n, bit words b = decide (b < r)) : clearCount words n = n - r := by
  have hset : (Finset.range n).filter (fun k => bit words k = false) = Finset.Ico r n := by
    ext b
    simp only [Finset.mem_filter, Finset.mem_range, Finset.mem_Ico]
    constructor
    · rintro ⟨hb, hclear⟩
      rw [h b hb, decide_eq_false_iff_not, not_lt] at hclear
      exact ⟨hclear, hb⟩
    · rintro ⟨hrb, hb⟩
      rw [h b hb, decide_eq_false_iff_not, not_lt]
      exact ⟨hb, hrb⟩
  rw [clearCount, hset, Nat.card_Ico]

theorem clearCount_setBit (hw : 0 < w) (hb : b < n) (hclear : bit words b = false) :
    clearCount (setBit words b) n + 1 = clearCount words n := by
  unfold clearCount
  have hmem : b ∈ (Finset.range n).filter (fun k => bit words k = false) := by
    simp [hb, hclear]
  rw [← Finset.card_erase_add_one hmem]
  congr 2
  ext k
  simp only [Finset.mem_filter, Finset.mem_range, Finset.mem_erase, bit_setBit hw,
    Bool.or_eq_false_iff, decide_eq_false_iff_not]
  tauto

theorem clearCount_clearBit (hw : 0 < w) (hb : b < n) (hset : bit words b = true) :
    clearCount (clearBit words b) n = clearCount words n + 1 := by
  unfold clearCount
  have hnot : b ∉ (Finset.range n).filter (fun k => bit words k = false) := by
    simp [hset]
  rw [← Finset.card_insert_of_notMem hnot]
  congr 1
  ext k
  simp only [Finset.mem_filter, Finset.mem_range, Finset.mem_insert, bit_clearBit hw,
    Bool.and_eq_false_iff, Bool.not_eq_false', decide_eq_true_eq]
  constructor
  · rintro ⟨hk, h | rfl⟩
    · exact .inr ⟨hk, h⟩
    · exact .inl rfl
  · rintro (rfl | ⟨hk, h⟩)
    · exact ⟨hb, .inr rfl⟩
    · exact ⟨hk, .inl h⟩

/-! ## Ranges -/

/-- The bits from `lo` up to `hi` are clear, and no other bit has changed. -/
def Cleared (words words' : ℕ → BitVec w) (lo hi : ℕ) : Prop :=
  ∀ m, bit words' m = if lo ≤ m ∧ m < hi then false else bit words m

theorem Cleared.nothing (words : ℕ → BitVec w) {hi : ℕ} (h : hi ≤ lo) :
    Cleared words words lo hi := by
  intro m
  rw [if_neg]
  rintro ⟨hlo, hhi⟩
  exact absurd (hhi.trans_le h) (not_lt.mpr hlo)

theorem Cleared.trans {a b c : ℕ → BitVec w} {mid hi : ℕ} (h : Cleared a b lo mid)
    (h' : Cleared b c mid hi) (hlo : lo ≤ mid) (hhi : mid ≤ hi) : Cleared a c lo hi := by
  intro m
  rw [h' m, h m]
  by_cases hm : m < mid
  · rw [if_neg (fun hin => absurd hin.1 (not_le.mpr hm))]
    by_cases hl : lo ≤ m
    · rw [if_pos ⟨hl, hm⟩, if_pos ⟨hl, hm.trans_le hhi⟩]
    · rw [if_neg (fun hin => hl hin.1), if_neg (fun hin => hl hin.1)]
  · have hmid : mid ≤ m := not_lt.mp hm
    by_cases hh : m < hi
    · rw [if_pos ⟨hmid, hh⟩, if_pos ⟨hlo.trans hmid, hh⟩]
    · rw [if_neg (fun hin => hh hin.2), if_neg (fun hin => hm hin.2), if_neg (fun hin => hh hin.2)]

/-- Where a number lies in a range that does not leave the word it begins in. -/
theorem mem_word_range (hw : 0 < w) {m : ℕ} : (lo ≤ m ∧ m < min (lo + n) ((lo / w + 1) * w)) ↔
      m / w = lo / w ∧ lo % w ≤ m % w ∧ m % w < lo % w + n := by
  have hlo := Nat.div_add_mod lo w
  have hm := Nat.div_add_mod m w
  have hlt := Nat.mod_lt m hw
  rw [lt_min_iff]
  constructor
  · rintro ⟨hle, hin, hend⟩
    have hword : m / w = lo / w :=
      le_antisymm (Nat.lt_succ_iff.mp ((Nat.div_lt_iff_lt_mul hw).mpr hend))
        (Nat.div_le_div_right hle)
    rw [hword] at hm
    exact ⟨hword, by omega, by omega⟩
  · rintro ⟨hword, hle, hin⟩
    rw [hword] at hm
    refine ⟨by omega, by omega, ?_⟩
    rw [Nat.add_mul, Nat.one_mul, Nat.mul_comm (lo / w)]
    omega

/-- A mask of adjacent bits clears those of them that the word has. -/
theorem cleared_update (hw : 0 < w) (words : ℕ → BitVec w) {mask : BitVec w}
    (hmask : ∀ j < w, mask.getLsbD j = decide (lo % w ≤ j ∧ j < lo % w + n)) :
    Cleared words (update words (lo / w) (words (lo / w) &&& ~~~mask)) lo
      (min (lo + n) ((lo / w + 1) * w)) := by
  intro m
  have hlt := Nat.mod_lt m hw
  rw [if_congr (mem_word_range hw) rfl rfl]
  unfold bit
  by_cases hword : m / w = lo / w
  · rw [hword, update_self, BitVec.getLsbD_and, BitVec.getLsbD_not, hmask _ hlt]
    simp only [hlt, decide_true, Bool.true_and, true_and]
    split
    · next hin => simp [hin]
    · next hin => simp [hin]
  · rw [update_of_ne hword, if_neg (fun hin => hword hin.1)]

end Bitmap
