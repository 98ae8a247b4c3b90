import Mathlib.Data.Nat.Bitwise
import Mathlib.Tactic.Linarith

/-!
# Unsigned machine words

Words of `w` bits are natural numbers below `2 ^ w`; sums and differences are
taken modulo `2 ^ w`. The lemmas say when an operation agrees with the one on
natural numbers, and what clearing the bits of a mask does.
-/

namespace MachineWord

open BitVec (ofNat toNat_and toNat_not toNat_ofNat)

/-- `a + b` on `w`-bit words. -/
def add (w a b : ℕ) : ℕ := (a + b) % 2 ^ w

/-- `a - b` on `w`-bit words. -/
def sub (w a b : ℕ) : ℕ := (a + (2 ^ w - b)) % 2 ^ w

/-- `a & ~m` on `w`-bit words. -/
def andNot (w a m : ℕ) : ℕ := a &&& (2 ^ w - 1 - m)

/-- `(a + (align - 1)) & ~(align - 1)` on `w`-bit words. -/
def alignUp (w a align : ℕ) : ℕ :=
  andNot w (add w a (sub w align 1)) (sub w align 1)

variable {w a b m k : ℕ}

theorem add_of_lt (h : a + b < 2 ^ w) : add w a b = a + b :=
  Nat.mod_eq_of_lt h

theorem add_lt (w a b : ℕ) : add w a b < 2 ^ w :=
  Nat.mod_lt _ (Nat.two_pow_pos w)

theorem sub_of_le (ha : a < 2 ^ w) (h : b ≤ a) : sub w a b = a - b := by
  have hsum : a + (2 ^ w - b) = (a - b) + 2 ^ w := by omega
  rw [sub, hsum, Nat.add_mod_right]
  exact Nat.mod_eq_of_lt (by omega)

theorem sub_right_comm (w a b c : ℕ) : sub w (sub w a b) c = sub w (sub w a c) b := by
  unfold sub
  rw [Nat.mod_add_mod, Nat.mod_add_mod, Nat.add_right_comm]

/-- The bits kept and the bits cleared make up the word. -/
theorem andNot_add_and (ha : a < 2 ^ w) (hm : m < 2 ^ w) :
    andNot w a m + (a &&& m) = a := by
  have hdisj : ofNat w a &&& ~~~ofNat w m &&&
      (ofNat w a &&& ofNat w m) = 0#w := by
    ext i hi
    simp
    tauto
  have hor : (ofNat w a &&& ~~~ofNat w m) |||
      (ofNat w a &&& ofNat w m) = ofNat w a := by
    ext i hi
    simp
    cases (ofNat w a)[i] <;> cases (ofNat w m)[i] <;> rfl
  have hsum := BitVec.toNat_add_of_and_eq_zero hdisj
  rw [BitVec.add_eq_or_of_and_eq_zero _ _ hdisj, hor] at hsum
  simp only [toNat_ofNat, toNat_and, toNat_not,
    Nat.mod_eq_of_lt ha, Nat.mod_eq_of_lt hm] at hsum
  exact hsum.symm

/-- Clearing a mask removes at most the mask. -/
theorem le_andNot_add (ha : a < 2 ^ w) (hm : m < 2 ^ w) :
    a ≤ andNot w a m + m := by
  have hsplit := andNot_add_and ha hm
  have hle : a &&& m ≤ m := Nat.and_le_right
  omega

/-- Clearing the low `k` bits rounds down to a multiple of `2 ^ k`. -/
theorem andNot_two_pow (ha : a < 2 ^ w) (hk : k ≤ w) :
    andNot w a (2 ^ k - 1) = a / 2 ^ k * 2 ^ k := by
  have hpow : 2 ^ k ≤ 2 ^ w := Nat.pow_le_pow_right (by omega) hk
  have hpos := Nat.two_pow_pos k
  have hsplit := andNot_add_and ha (m := 2 ^ k - 1) (by omega)
  rw [Nat.and_two_pow_sub_one_eq_mod] at hsplit
  have hdm := Nat.div_add_mod a (2 ^ k)
  rw [Nat.mul_comm] at hdm
  omega

/-- Rounding up does not go below, as long as the sum it rounds does not wrap.
This needs no power of two: clearing a mask removes at most what was added. -/
theorem le_alignUp {align : ℕ} (hpos : 0 < align) (hlt : align < 2 ^ w)
    (h : a + align ≤ 2 ^ w) : a ≤ alignUp w a align := by
  have hsub : sub w align 1 = align - 1 := sub_of_le hlt hpos
  have hadd : add w a (align - 1) = a + (align - 1) := add_of_lt (by omega)
  rw [alignUp, hsub, hadd]
  have hle := le_andNot_add (w := w) (a := a + (align - 1)) (m := align - 1)
    (by omega) (by omega)
  omega

/-- A word without the bits of the mask has room for the mask. -/
theorem andNot_add_mask_lt (ha : a < 2 ^ w) (hm : m < 2 ^ w) :
    andNot w a m + m < 2 ^ w := by
  have hdisj : ofNat w a &&& ~~~ofNat w m &&& ofNat w m = 0#w := by
    ext i hi
    simp
  have hsum := BitVec.toNat_add_of_and_eq_zero hdisj
  have hlt := ((ofNat w a &&& ~~~ofNat w m) + ofNat w m).isLt
  rw [hsum] at hlt
  simp only [toNat_ofNat, toNat_and, toNat_not,
    Nat.mod_eq_of_lt ha, Nat.mod_eq_of_lt hm] at hlt
  exact hlt

/-- Rounding up a second time cannot wrap. -/
theorem alignUp_add_le {align : ℕ} (hpos : 0 < align) (hlt : align < 2 ^ w) :
    alignUp w a align + align ≤ 2 ^ w := by
  have hsub : sub w align 1 = align - 1 := sub_of_le hlt hpos
  have hroom := andNot_add_mask_lt (add_lt w a (align - 1)) (m := align - 1) (by omega)
  rw [alignUp, hsub]
  omega

/-! ### Rounding up to a power of two -/

/-- Rounding up to `2 ^ k`: the least multiple that is not below, or `0` when the
sum wraps. -/
theorem alignUp_two_pow (hk : k < w) (ha : a < 2 ^ w) :
    alignUp w a (2 ^ k) =
      if a + (2 ^ k - 1) < 2 ^ w then (a + (2 ^ k - 1)) / 2 ^ k * 2 ^ k else 0 := by
  have hpow : 2 ^ k < 2 ^ w := Nat.pow_lt_pow_right (by omega) hk
  have hpos := Nat.two_pow_pos k
  have hsub : sub w (2 ^ k) 1 = 2 ^ k - 1 := sub_of_le hpow hpos
  rw [alignUp, hsub, andNot_two_pow (add_lt _ _ _) (by omega), add]
  split_ifs with h
  · rw [Nat.mod_eq_of_lt h]
  · have hmod : (a + (2 ^ k - 1)) % 2 ^ w = a + (2 ^ k - 1) - 2 ^ w := by
      rw [Nat.mod_eq_sub_mod (by omega)]
      exact Nat.mod_eq_of_lt (by omega)
    rw [hmod, Nat.div_eq_of_lt (by omega), Nat.zero_mul]

theorem dvd_alignUp (hk : k < w) (ha : a < 2 ^ w) :
    2 ^ k ∣ alignUp w a (2 ^ k) := by
  rw [alignUp_two_pow hk ha]
  split_ifs
  · exact Nat.dvd_mul_left _ _
  · exact Nat.dvd_zero _

/-- Rounding up goes beyond no multiple above. -/
theorem alignUp_le (hk : k < w) (ha : a < 2 ^ w) (hb : 2 ^ k ∣ b)
    (hab : a ≤ b) : alignUp w a (2 ^ k) ≤ b := by
  rw [alignUp_two_pow hk ha]
  split_ifs
  · obtain ⟨c, rfl⟩ := hb
    have hpos := Nat.two_pow_pos k
    have hdiv : (a + (2 ^ k - 1)) / 2 ^ k ≤ c := by
      rw [Nat.div_le_iff_le_mul_add_pred hpos]
      omega
    calc (a + (2 ^ k - 1)) / 2 ^ k * 2 ^ k ≤ c * 2 ^ k := Nat.mul_le_mul_right _ hdiv
      _ = 2 ^ k * c := Nat.mul_comm _ _
  · exact Nat.zero_le _

/-- A multiple above that is a word shows that rounding up does not wrap. -/
theorem le_alignUp_of_multiple (hk : k < w) (hb : 2 ^ k ∣ b) (hab : a ≤ b)
    (hlt : b < 2 ^ w) : a ≤ alignUp w a (2 ^ k) := by
  have hpow : 2 ^ k < 2 ^ w := Nat.pow_lt_pow_right (by omega) hk
  refine le_alignUp (Nat.two_pow_pos k) hpow ?_
  -- `b` and `2 ^ w` are different multiples of `2 ^ k`
  have hw : 2 ^ k ∣ 2 ^ w := Nat.pow_dvd_pow 2 hk.le
  have hdiff := Nat.le_of_dvd (by omega) (Nat.dvd_sub hw hb)
  omega

end MachineWord
