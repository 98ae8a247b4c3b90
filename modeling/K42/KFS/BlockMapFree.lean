import K42.KFS.SuperBlock

/-!
# Freeing a range of blocks

`free` clears a range of the map word by word. A range of 32 blocks or more loses its part in the
first word, and the rest begins at a word. A shorter range is taken to end in the word that it
begins in.
-/

namespace K42

open Bitmap

namespace BlockMap

variable {bm : BlockMap} {length : ℕ}

/-! ## One word -/

theorem getLsbD_maskFrom (k n : ℕ) {j : ℕ} (hj : j < 32) :
    (maskFrom k n).getLsbD j = decide (k ≤ j ∧ j < k + n) := by
  induction n with
  | zero =>
    rw [maskFrom, BitVec.getLsbD_zero]
    exact (decide_eq_false (by omega)).symm
  | succ n ih =>
    rw [maskFrom, BitVec.getLsbD_or, ih]
    by_cases hk : k + n < 32
    · rw [getLsbD_one_shiftLeft hk, ← Bool.decide_or]
      exact decide_eq_decide.mpr (by omega)
    · have hout : (1#32 <<< (k + n)).getLsbD j = false := by
        rw [BitVec.getLsbD_shiftLeft]
        simp [show j < k + n by omega]
      rw [hout, Bool.or_false]
      exact decide_eq_decide.mpr (by omega)

theorem getLsbD_freeMask (index length : ℕ) {j : ℕ} (hj : j < 32) :
    (freeMask index length).getLsbD j =
      decide (index % 32 ≤ j ∧ j < index % 32 + length) := by
  unfold freeMask
  split
  · next h =>
      rw [BitVec.getLsbD_allOnes]
      exact decide_eq_decide.mpr (by omega)
  · split
    · exact getLsbD_maskFrom _ _ hj
    · rw [getLsbD_maskFrom _ _ hj]
      exact decide_eq_decide.mpr (by omega)

theorem cleared_word (index length : ℕ) (data : ℕ → BitVec 32) :
    Cleared data (Function.update data (index / 32)
      (data (index / 32) &&& ~~~freeMask index length)) index
      (min (index + length) ((index / 32 + 1) * 32)) :=
  cleared_update (by decide) data fun _ hj => getLsbD_freeMask index length hj

/-! ## The loops -/

variable {n blkno len : ℕ}

theorem freeWords_zero : ∀ {word index : ℕ} {data : ℕ → BitVec 32},
    freeWords n word index 0 data = (data, index, 0) := by
  induction n with
  | zero => exact rfl
  | succ n ih =>
    intro word index data
    have hmask : data word &&& ~~~freeMask index 0 = data word := by
      apply BitVec.eq_of_getLsbD_eq
      intro j hj
      have hfalse : (freeMask index 0).getLsbD j = false := by
        rw [getLsbD_freeMask index 0 hj]
        exact decide_eq_false (by omega)
      rw [BitVec.getLsbD_and, BitVec.getLsbD_not, hfalse]
      simp [hj]
    have hstep : freeStep index 0 = 0 := rfl
    rw [freeWords, hmask, Function.update_eq_self, hstep]
    exact ih

theorem freeBlocks_zero {mask_max : ℕ} : ∀ {i mask_i index : ℕ} {data : ℕ → BitVec 32},
    freeBlocks mask_max n i mask_i index 0 data = data := by
  induction n with
  | zero => exact rfl
  | succ n ih =>
    intro i mask_i index data
    rw [freeBlocks, freeWords_zero]
    exact ih

/-- The range is not a short one that leaves its first word. -/
def Whole (index length : ℕ) : Prop := 32 ≤ length ∨ index % 32 + length ≤ 32

theorem whole_of_mod {k : ℕ} (h : k % 32 = 0) (length : ℕ) : Whole k length := by
  unfold Whole
  omega

theorem freeWords_whole : ∀ {index length : ℕ} (data : ℕ → BitVec 32),
    Whole index length → ∃ data' stop, stop = min (index + length) ((index / 32 + n + 1) * 32) ∧
      freeWords (n + 1) (index / 32) index length data = (data', stop, index + length - stop) ∧
      Cleared data data' index stop := by
  induction n with
  | zero =>
    intro index length data hwhole
    refine ⟨_, _, rfl, ?_, cleared_word index length data⟩
    show (_, index + freeStep index length, length - freeStep index length) = _
    unfold Whole at hwhole
    unfold freeStep
    split
    · congr 2 <;> omega
    · congr 2 <;> omega
  | succ n ih =>
    intro index length data hwhole
    have hfirst := cleared_word index length data
    unfold Whole at hwhole
    rw [freeWords]
    generalize Function.update data (index / 32)
      (data (index / 32) &&& ~~~freeMask index length) = data₁ at hfirst ⊢
    unfold freeStep
    by_cases hshort : length < 32
    · rw [if_pos hshort, Nat.sub_self, freeWords_zero]
      refine ⟨data₁, index + length, by omega, by rw [Nat.sub_self], ?_⟩
      rwa [min_eq_left (by omega)] at hfirst
    · -- the range goes on at the beginning of the next word
      rw [if_neg hshort]
      have hnext : index + (32 - index % 32) = (index / 32 + 1) * 32 := by omega
      have hword : index / 32 + 1 = (index + (32 - index % 32)) / 32 := by omega
      rw [hword]
      obtain ⟨data', stop, hstop, hrest, hcleared⟩ :=
        ih data₁ (whole_of_mod (k := index + (32 - index % 32)) (by omega)
          (length - (32 - index % 32)))
      refine ⟨data', stop, by omega, ?_, ?_⟩
      · rw [hrest]
        congr 2
        omega
      · rw [min_eq_right (by omega), ← hnext] at hfirst
        exact hfirst.trans hcleared (by omega) (by omega)

theorem freeWords_short (n index : ℕ) (data : ℕ → BitVec 32) (hshort : length < 32) : ∃ data',
    freeWords (n + 1) (index / 32) index length data = (data', index + length, 0) ∧
      Cleared data data' index (min (index + length) ((index / 32 + 1) * 32)) := by
  refine ⟨_, ?_, cleared_word index length data⟩
  rw [freeWords, freeStep, if_pos hshort, Nat.sub_self, freeWords_zero]

theorem freeBlocks_whole : ∀ {i mask_i index length : ℕ} (data : ℕ → BitVec 32),
    Whole index length → index / 32 = i * 1024 + mask_i → mask_i < 1024 →
    Cleared data (freeBlocks 1023 (n + 1) i mask_i index length data) index
      (min (index + length) ((i + n + 1) * 32768)) := by
  induction n with
  | zero =>
    intro i mask_i index length data hwhole hword hlt
    obtain ⟨data', stop, hstop, hwords, hcleared⟩ :=
      freeWords_whole (n := 1023 - mask_i) data hwhole
    have hcount : 1023 + 1 - mask_i = 1023 - mask_i + 1 := by omega
    have hfirst : i * WORDS_BLOCK + mask_i = index / 32 := hword.symm
    rw [freeBlocks, hcount, hfirst, hwords]
    have hend : min (index + length) ((i + 0 + 1) * 32768) = stop := by omega
    rw [hend]
    exact hcleared
  | succ n ih =>
    intro i mask_i index length data hwhole hword hlt
    obtain ⟨data', stop, hstop, hwords, hcleared⟩ :=
      freeWords_whole (n := 1023 - mask_i) data hwhole
    have hcount : 1023 + 1 - mask_i = 1023 - mask_i + 1 := by omega
    have hfirst : i * WORDS_BLOCK + mask_i = index / 32 := hword.symm
    rw [freeBlocks, hcount, hfirst, hwords]
    by_cases hdone : index + length ≤ stop
    · have hnone : index + length - stop = 0 := by omega
      have hend : min (index + length) ((i + (n + 1) + 1) * 32768) = stop := by omega
      rw [hnone, freeBlocks_zero, hend]
      exact hcleared
    · -- the next block of the map begins with the next word
      have hrest := ih (i := i + 1) data'
        (whole_of_mod (k := stop) (by omega) (index + length - stop))
        (by omega : stop / 32 = (i + 1) * 1024 + 0) (by decide)
      have hend : min (stop + (index + length - stop)) ((i + 1 + n + 1) * 32768) =
          min (index + length) ((i + (n + 1) + 1) * 32768) := by omega
      rw [hend] at hrest
      exact hcleared.trans hrest (by omega) (by omega)

/-! ## `free` -/

/-- Where `free` stops clearing. -/
def freeEnd (blkno len : ℕ) : ℕ :=
  if len < 32 then min (blkno + len) ((blkno / 32 + 1) * 32) else blkno + len

theorem free_error (hlast : MachineWord.sub 64 (blkno + len) 1 / BITS_BLOCK ≥
    bm.numBlocks ∨ blkno / BITS_BLOCK ≥ bm.numBlocks) : bm.free blkno len = .error .passert := by
  unfold free
  rw [if_pos]
  rintro ⟨hfirst, hend, -⟩
  rcases hlast with hlast | hlast
  · exact absurd hend (not_lt.mpr hlast)
  · exact absurd hfirst (not_lt.mpr hlast)

theorem free_ok (hpos : 0 < blkno + len) (hblkno : blkno < BITS_BLOCK * bm.numBlocks)
    (hend : blkno + len ≤ BITS_BLOCK * bm.numBlocks) (hlt : blkno + len < 2 ^ 64) :
    ∃ bm', bm.free blkno len = .ok bm' ∧
      Cleared bm.data bm'.data blkno (freeEnd blkno len) := by
  have hlast : MachineWord.sub 64 (blkno + len) 1 = blkno + len - 1 :=
    MachineWord.sub_of_le (by omega) (by omega)
  have hbits : BITS_BLOCK = 32768 := rfl
  have hword : blkno / BITS_BLOCK * WORDS_BLOCK + blkno % BITS_BLOCK / 32 = blkno / 32 :=
    block_word blkno
  have hmask : blkno % BITS_BLOCK / 32 < 1024 := word_lt blkno
  unfold free
  rw [hlast]
  dsimp only
  rw [hbits] at hword hmask hblkno hend ⊢
  rw [if_neg (not_not.mpr ⟨by omega, by omega, hmask⟩)]
  refine ⟨_, rfl, ?_⟩
  dsimp only
  by_cases hlen : len = 0
  · rw [hlen, freeBlocks_zero]
    exact Cleared.nothing _ (min_le_left _ _)
  obtain ⟨n, hn⟩ : ∃ n, (blkno + len - 1) / 32768 + 1 - blkno / 32768 = n + 1 :=
    ⟨(blkno + len - 1) / 32768 - blkno / 32768, by omega⟩
  rw [hn]
  by_cases hwhole : Whole blkno len
  · have hstop : freeEnd blkno len = blkno + len := by
      unfold freeEnd
      unfold Whole at hwhole
      split <;> omega
    rw [hstop]
    by_cases hsame : blkno / 32768 = (blkno + len - 1) / 32768
    · obtain rfl : n = 0 := by omega
      obtain ⟨k, hk⟩ : ∃ k, (blkno + len - 1) % 32768 / 32 + 1 - blkno % 32768 / 32 = k + 1 :=
        ⟨(blkno + len - 1) % 32768 / 32 - blkno % 32768 / 32, by omega⟩
      obtain ⟨data', stop, hend', hwords, hcleared⟩ :=
        freeWords_whole (n := k) bm.data hwhole
      rw [if_pos hsame, freeBlocks_one, hk, hword, hwords]
      have hall : stop = blkno + len := by omega
      rwa [hall] at hcleared
    · rw [if_neg hsame]
      have hcleared := freeBlocks_whole (n := n) bm.data hwhole
        (by omega : blkno / 32 = blkno / 32768 * 1024 + blkno % 32768 / 32) hmask
      have hall : min (blkno + len) ((blkno / 32768 + n + 1) * 32768) = blkno + len := by omega
      rwa [hall] at hcleared
  · -- a short range: the words after its first are gone through with nothing left
    unfold Whole at hwhole
    generalize hmax : (if blkno / 32768 = (blkno + len - 1) / 32768 then
      (blkno + len - 1) % 32768 / 32 else 32768 / 32 - 1) = mask_max
    obtain ⟨k, hk⟩ : ∃ k, mask_max + 1 - blkno % 32768 / 32 = k + 1 := by
      refine ⟨mask_max - blkno % 32768 / 32, ?_⟩
      split at hmax <;> omega
    obtain ⟨data', hwords, hcleared⟩ :=
      freeWords_short k blkno bm.data (by omega : len < 32)
    rw [freeEnd, if_pos (by omega), freeBlocks, hk, hword, hwords, freeBlocks_zero]
    exact hcleared

/-- What the caller of `free` may rely on. -/
def FreesRange (bm : BlockMap) (blkno len : ℕ) : Prop :=
  ∃ bm', bm.free blkno len = .ok bm' ∧ Cleared bm.data bm'.data blkno (blkno + len)

/-- An empty range is within the map and not at its beginning. -/
def EmptyInside (bm : BlockMap) (blkno len : ℕ) : Prop :=
  len = 0 → 0 < blkno ∧ blkno < BITS_BLOCK * bm.numBlocks

/-- The range is long, or stays in the word that it begins in, or the rest of it is clear. -/
def Reached (bm : BlockMap) (blkno len : ℕ) : Prop :=
  32 ≤ len ∨ blkno % 32 + len ≤ 32 ∨
    ∀ m, (blkno / 32 + 1) * 32 ≤ m → m < blkno + len → bit bm.data m = false

theorem cleared_freeEnd_iff {data' : ℕ → BitVec 32}
    (h : Cleared bm.data data' blkno (freeEnd blkno len)) :
    Cleared bm.data data' blkno (blkno + len) ↔ Reached bm blkno len := by
  unfold Reached
  unfold freeEnd at h
  by_cases hlong : 32 ≤ len
  · rw [if_neg (by omega)] at h
    exact iff_of_true h (.inl hlong)
  rw [if_pos (by omega)] at h
  by_cases hword : blkno % 32 + len ≤ 32
  · rw [min_eq_left (by omega)] at h
    exact iff_of_true h (.inr (.inl hword))
  rw [min_eq_right (by omega)] at h
  constructor
  · intro hall
    refine .inr (.inr fun m hfrom hto => ?_)
    have hkept := h m
    rw [if_neg (by omega), hall m, if_pos ⟨by omega, hto⟩] at hkept
    exact hkept.symm
  · rintro (hin | hin | hclear)
    · exact absurd hin hlong
    · exact absurd hin hword
    · intro m
      rw [h m]
      by_cases hfirst : blkno ≤ m ∧ m < (blkno / 32 + 1) * 32
      · rw [if_pos hfirst, if_pos ⟨hfirst.1, by omega⟩]
      · rw [if_neg hfirst]
        split
        · next hin => exact hclear m (by omega) hin.2
        · rfl

/-- `free` clears the range and nothing else exactly if it does not fail on an empty range, and
the range is none of those that it takes to end too early. -/
theorem free_clears_iff {n blkno len : ℕ} (hbm : bm.numBlocks = CEIL n (4096 * 8))
    (hn : n < 2 ^ 32) (hle : blkno + len ≤ n) :
    FreesRange bm blkno len ↔ EmptyInside bm blkno len ∧ Reached bm blkno len := by
  have hbits : BITS_BLOCK = 32768 := rfl
  have hmap : n ≤ 32768 * bm.numBlocks ∧ bm.numBlocks ≤ 2 ^ 17 := by
    rw [hbm, CEIL]
    omega
  unfold EmptyInside
  by_cases hinside : 0 < blkno + len ∧ blkno < BITS_BLOCK * bm.numBlocks
  · have hlt : blkno + len < 2 ^ 64 := by omega
    obtain ⟨bm', hok, hcleared⟩ := free_ok hinside.1 hinside.2 (hle.trans hmap.1) hlt
    rw [← cleared_freeEnd_iff hcleared]
    constructor
    · rintro ⟨q, hq, hall⟩
      rw [hok] at hq
      cases hq
      refine ⟨fun hlen => ⟨?_, hinside.2⟩, hall⟩
      rw [hlen] at hinside
      exact hinside.1
    · exact fun hall => ⟨bm', hok, hall.2⟩
  · have hempty : len = 0 ∧ ¬ (0 < blkno ∧ blkno < BITS_BLOCK * bm.numBlocks) := by
      rw [hbits] at hinside ⊢
      omega
    refine iff_of_false ?_ (fun hboth => hempty.2 (hboth.1 hempty.1))
    rintro ⟨q, hq, -⟩
    have herror : bm.free blkno len = .error .passert := by
      apply free_error
      by_cases hzero : blkno = 0
      · rw [hzero, hempty.1]
        left
        have hwrap : MachineWord.sub 64 (0 + 0) 1 = 2 ^ 64 - 1 := by decide
        rw [hwrap, hbits]
        omega
      · right
        rw [hbits] at hempty ⊢
        omega
    rw [herror] at hq
    cases hq

/-- A map of 64 blocks, all in use. -/
def full : BlockMap := ⟨fun _ => BitVec.allOnes 32, 0, 1, BITS_BLOCK⟩

/-- Forty blocks from block 7 on. -/
theorem free_clears_forty : FreesRange full 7 40 :=
  (free_clears_iff (n := 64) rfl (by decide) (by decide)).mpr
    ⟨fun hlen => absurd hlen (by decide), .inl (by decide)⟩

/-- Blocks 31 and 32: block 32 stays in use. -/
theorem not_free_clears_straddling : full.numBlocks = CEIL 64 (4096 * 8) ∧
    (∃ bm', full.free 31 2 = .ok bm' ∧ bit bm'.data 31 = false ∧ bit bm'.data 32 = true) ∧
    ¬ FreesRange full 31 2 := by
  refine ⟨rfl, ⟨_, rfl, by decide, by decide⟩, ?_⟩
  rintro ⟨bm', hok, hall⟩
  cases hok
  exact absurd (hall 32) (by decide)

end BlockMap

end K42
