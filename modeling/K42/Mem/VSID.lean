import K42.Lib.Bitmap

/-!
# Virtual segment ids

`allocVSID` numbers the segments, with the bits that count in the hash reversed. The whole word is
reversed in six stages, each of which swaps neighbouring groups of bits.
-/

namespace K42.InvertedPageTable

/-- `((r >> s) & lo) | ((r << s) & hi)`. -/
def swapGroups (s : ℕ) (lo hi r : BitVec 64) : BitVec 64 := ((r >>> s) &&& lo) ||| ((r <<< s) &&& hi)

/-- `rNewVsid`. -/
def reverse (newVsid : BitVec 64) : BitVec 64 :=
  let r := (newVsid >>> 32) ||| (newVsid <<< 32)
  let r := swapGroups 16 0xffff0000ffff 0xffff0000ffff0000 r
  let r := swapGroups 8 0xff00ff00ff00ff 0xff00ff00ff00ff00 r
  let r := swapGroups 4 0xf0f0f0f0f0f0f0f 0xf0f0f0f0f0f0f0f0 r
  let r := swapGroups 2 0x3333333333333333 0xcccccccccccccccc r
  swapGroups 1 0x5555555555555555 0xaaaaaaaaaaaaaaaa r

/-- `mask`, as `init` sets it. -/
def mask (hashBits : ℕ) : BitVec 64 := ((1 : BitVec 64) <<< hashBits) - 1

/-- Only the low `hashBits` bits are reversed. -/
def combine (hashBits : ℕ) (newVsid : BitVec 64) : BitVec 64 :=
  (newVsid &&& ~~~mask hashBits) ||| ((reverse newVsid >>> (64 - hashBits)) &&& mask hashBits)

/-- `lastVsid` after the call, and the VSID. -/
def allocVSID (hashBits : ℕ) (lastVsid : BitVec 64) : BitVec 64 × BitVec 64 :=
  (lastVsid + 1, combine hashBits (lastVsid + 1))

/-- What the next `n` calls return. -/
def calls (hashBits : ℕ) : ℕ → BitVec 64 → List (BitVec 64)
  | 0, _ => []
  | n + 1, lastVsid =>
    let r := allocVSID hashBits lastVsid
    r.2 :: calls hashBits n r.1

/-! ## The reversal -/

variable {h i s n : ℕ}

/-- Where the bit comes from. -/
def flip (s i : ℕ) : ℕ := if i / s % 2 = 0 then i + s else i - s

theorem getLsbD_swapGroups {lo hi : BitVec 64} (r : BitVec 64)
    (hlo : ∀ i < 64, lo.getLsbD i = decide (i / s % 2 = 0))
    (hhi : ∀ i < 64, hi.getLsbD i = decide (i / s % 2 = 1)) (hlt : i < 64) :
    (swapGroups s lo hi r).getLsbD i = r.getLsbD (flip s i) := by
  unfold swapGroups flip
  rw [BitVec.getLsbD_or, BitVec.getLsbD_and, BitVec.getLsbD_and, hlo i hlt, hhi i hlt,
    BitVec.getLsbD_ushiftRight, BitVec.getLsbD_shiftLeft]
  rcases Nat.mod_two_eq_zero_or_one (i / s) with hmod | hmod
  · simp [hmod, Nat.add_comm]
  · have hle : ¬ i < s := by
      intro hlt
      rw [Nat.div_eq_of_lt hlt] at hmod
      cases hmod
    simp [hmod, hlt, hle]

theorem getLsbD_swapHalves (x : BitVec 64) (hlt : i < 64) :
    ((x >>> 32) ||| (x <<< 32)).getLsbD i = x.getLsbD (flip 32 i) := by
  unfold flip
  rw [BitVec.getLsbD_or, BitVec.getLsbD_ushiftRight, BitVec.getLsbD_shiftLeft]
  by_cases hlow : i < 32
  · have hdiv : i / 32 % 2 = 0 := by omega
    simp [hlow, hdiv, Nat.add_comm]
  · have hdiv : ¬ i / 32 % 2 = 0 := by omega
    have hhigh : x.getLsbD (32 + i) = false := BitVec.getLsbD_of_ge x _ (by omega)
    rw [if_neg hdiv, hhigh]
    simp [hlow, hlt]

theorem getLsbD_reverse (x : BitVec 64) (hlt : i < 64) :
    (reverse x).getLsbD i = x.getLsbD (63 - i) := by
  have hflip : ∀ i < 64, flip 1 i < 64 ∧ flip 2 (flip 1 i) < 64 ∧ flip 4 (flip 2 (flip 1 i)) < 64 ∧
      flip 8 (flip 4 (flip 2 (flip 1 i))) < 64 ∧
      flip 16 (flip 8 (flip 4 (flip 2 (flip 1 i)))) < 64 ∧
      flip 32 (flip 16 (flip 8 (flip 4 (flip 2 (flip 1 i))))) = 63 - i := by decide
  obtain ⟨h₁, h₂, h₃, h₄, h₅, h₆⟩ := hflip i hlt
  unfold reverse
  rw [getLsbD_swapGroups _ (by decide) (by decide) hlt,
    getLsbD_swapGroups _ (by decide) (by decide) h₁,
    getLsbD_swapGroups _ (by decide) (by decide) h₂,
    getLsbD_swapGroups _ (by decide) (by decide) h₃,
    getLsbD_swapGroups _ (by decide) (by decide) h₄, getLsbD_swapHalves x h₅, h₆]

theorem getLsbD_combine (x : BitVec 64) (hh : h < 64) (hlt : i < 64) :
    (combine h x).getLsbD i = if i < h then x.getLsbD (h - 1 - i) else x.getLsbD i := by
  have hmask : (mask h).getLsbD i = decide (i < h) := Bitmap.getLsbD_firstBits hh i
  unfold combine
  rw [BitVec.getLsbD_or, BitVec.getLsbD_and, BitVec.getLsbD_and, BitVec.getLsbD_not, hmask,
    BitVec.getLsbD_ushiftRight]
  by_cases hi : i < h
  · rw [getLsbD_reverse x (by omega)]
    have hfrom : 63 - (64 - h + i) = h - 1 - i := by omega
    simp [hi, hfrom]
  · simp [hi, hlt]

theorem combine_injective (hh : h < 64) : Function.Injective (combine h) := by
  intro x y heq
  apply BitVec.eq_of_getLsbD_eq
  intro i hlt
  by_cases hi : i < h
  · have hbit := congrArg (fun v => v.getLsbD (h - 1 - i)) heq
    have hback : h - 1 - (h - 1 - i) = i := by omega
    simpa only [getLsbD_combine _ hh (show h - 1 - i < 64 by omega),
      if_pos (show h - 1 - i < h by omega), hback] using hbit
  · have hbit := congrArg (fun v => v.getLsbD i) heq
    simpa only [getLsbD_combine _ hh hlt, if_neg hi] using hbit

/-! ## The calls -/

theorem calls_eq (h n : ℕ) (lastVsid : BitVec 64) : calls h n lastVsid =
    (List.range n).map fun k => combine h (lastVsid + 1 + BitVec.ofNat 64 k) := by
  induction n generalizing lastVsid with
  | zero => rfl
  | succ n ih =>
    rw [calls, allocVSID, ih, List.range_succ_eq_map, List.map_cons, List.map_map]
    congr 1
    · simp
    · apply List.map_congr_left
      intro k _
      simp only [Function.comp, Nat.succ_eq_add_one, BitVec.ofNat_add]
      congr 1
      ac_rfl

/-- **No VSID comes twice**: the first `2 ^ 36` are below `2 ^ 36`, and their low bits count in
reverse. -/
theorem allocVSID_distinct (hh : h ≤ 36) (hn : n ≤ 2 ^ 36) :
    (calls h n (-1)).Nodup ∧ (calls h n (-1)).length = n ∧ ∀ k < n,
      ∃ v, (calls h n (-1))[k]? = some v ∧ v.toNat < 2 ^ 36 ∧
        ∀ i < h, v.getLsbD i = k.testBit (h - 1 - i) := by
  have hcalls : calls h n (-1) = (List.range n).map fun k => combine h (BitVec.ofNat 64 k) := by
    rw [calls_eq]
    simp
  have hbits (k i : ℕ) (hlt : i < 64) : (BitVec.ofNat 64 k).getLsbD i = k.testBit i := by
    rw [BitVec.getLsbD_ofNat, decide_eq_true hlt, Bool.true_and]
  rw [hcalls]
  refine ⟨List.Nodup.map_on ?_ List.nodup_range, by simp, fun k hk => ?_⟩
  · intro a ha b hb heq
    have hword := congrArg BitVec.toNat (combine_injective (by omega) heq)
    rw [List.mem_range] at ha hb
    rw [BitVec.toNat_ofNat, BitVec.toNat_ofNat] at hword
    omega
  · refine ⟨combine h (BitVec.ofNat 64 k), by simp [hk],
      Nat.lt_pow_two_of_testBit _ fun i hi => ?_, fun i hi => ?_⟩
    · by_cases hlt : i < 64
      · have hbit := getLsbD_combine (BitVec.ofNat 64 k) (show h < 64 by omega) hlt
        rw [if_neg (by omega), hbits k i hlt] at hbit
        refine hbit.trans (Nat.testBit_lt_two_pow ?_)
        exact lt_of_lt_of_le (by omega) (Nat.pow_le_pow_right (by decide) hi)
      · exact BitVec.getLsbD_of_ge _ _ (by omega)
    · rw [getLsbD_combine _ (by omega) (by omega), if_pos hi, hbits k _ (by omega)]

theorem allocVSID_distinct_small : (calls 11 3 (-1)).Nodup ∧ (calls 11 3 (-1)).length = 3 ∧ ∀ k < 3,
      ∃ v, (calls 11 3 (-1))[k]? = some v ∧ v.toNat < 2 ^ 36 ∧
        ∀ i < 11, v.getLsbD i = k.testBit (11 - 1 - i) :=
  allocVSID_distinct (by decide) (by decide)

end K42.InvertedPageTable
