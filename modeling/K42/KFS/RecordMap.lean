import K42.Lib.Run
import K42.Lib.Bitmap
import K42.Sys.SysStatus

/-!
# The record map

Records of 128 bytes, a type and 124 bytes of contents, are packed 32 to a block
of an underlying `PSOSmall`, whose blocks are a map from logical block numbers
to bytes. The records in use are the set bits of a bitmap that grows by a page at
a time; the words of its pages are numbered through. Record `0` is the one of the
underlying object itself and lives in the metadata block.

`locationAlloc` of a new object and the object hash work on records through the
calls of this file and are not modelled. A call that needs a block of the disk
when there is none panics.
-/

open Function (update update_of_ne update_self)

namespace K42

open Bitmap

/-- `RMAP_RECORD_SIZE`. -/
abbrev RMAP_RECORD_SIZE : ℕ := 128

/-- `KFS_RECORD_SIZE`: a record without its type. -/
abbrev KFS_RECORD_SIZE : ℕ := 124

/-- `RMAP_BITMAP_BLOCKS`. -/
abbrev RMAP_BITMAP_BLOCKS : ℕ := (4096 - RMAP_RECORD_SIZE) / 4

/-- `RMAP_WORDS_PAGE`. -/
abbrev RMAP_WORDS_PAGE : ℕ := 4096 / 4

/-- `RMAP_BITS_PAGE`. -/
abbrev RMAP_BITS_PAGE : ℕ := 4096 * 8

/-- `PSO_SMALL_MAXBLK`. -/
abbrev PSO_SMALL_MAXBLK : ℕ := 25 + 2 ^ 10 + 2 ^ 20 + 2 ^ 30

/-- `OT_PRIM_UNIX`. -/
abbrev OT_PRIM_UNIX : ℕ := 2

/-- The contents of a record. -/
abbrev Record := Fin KFS_RECORD_SIZE → UInt8

/-- `data` is the metadata block's `psoRecord`; `bitmap i` is set for the pages
`i < pages`; `pso` holds the blocks of the underlying object. -/
structure RecordMap where
  psoRecord : ℕ → UInt8
  pages : ℕ
  bitmap : ℕ → BitVec 32
  pso : ℕ → Option (ℕ → UInt8)

namespace RecordMap

/-! ## Bytes -/

/-- `memcpy(dst + off, src, len)`. -/
def memcpy (dst : ℕ → UInt8) (off : ℕ) {len : ℕ} (src : Fin len → UInt8) : ℕ → UInt8 :=
  fun k => if h : off ≤ k ∧ k < off + len then src ⟨k - off, by omega⟩ else dst k

/-- The `len` bytes at `src + off`. -/
def bytesAt (src : ℕ → UInt8) (off len : ℕ) : Fin len → UInt8 := fun k => src (off + k)

/-- A 32-bit value as it is stored. -/
def te32 (v : ℕ) : Fin 4 → UInt8 := fun k => UInt8.ofNat (v / 256 ^ (3 - k.val))

/-! ## The underlying object -/

/-- `readBlockCache`: a block that is not there reads as zeros. -/
def readBlockCache (rm : RecordMap) (lblkno : ℕ) : ℕ → UInt8 := (rm.pso lblkno).getD fun _ => 0

/-- `writeBlockCache`. -/
def writeBlockCache (rm : RecordMap) (lblkno : ℕ) (data : ℕ → UInt8) : RecordMap :=
  { rm with pso := update rm.pso lblkno (some data) }

/-- The logical blocks that `freeBlocks` goes through. -/
def blocksFrom (fromLBlk toLBlk : ℕ) : List ℕ :=
  if fromLBlk ≥ PSO_SMALL_MAXBLK then []
  else List.range' fromLBlk (min toLBlk (PSO_SMALL_MAXBLK - 1) + 1 - fromLBlk)

/-- `freeBlocks`, with the blocks released. -/
def freeBlocks (rm : RecordMap) (fromLBlk toLBlk : ℕ) : RecordMap × List ℕ :=
  ({ rm with pso := fun l => if l ∈ blocksFrom fromLBlk toLBlk then none else rm.pso l },
    (blocksFrom fromLBlk toLBlk).filter fun l => (rm.pso l).isSome)

/-! ## Contents -/

/-- `getRecord`. -/
def getRecord (rm : RecordMap) (id : ℕ) : Record :=
  if id = 0 then bytesAt rm.psoRecord 4 KFS_RECORD_SIZE
  else bytesAt (rm.readBlockCache (id / 32)) (id % 32 * RMAP_RECORD_SIZE + 4) KFS_RECORD_SIZE

/-- `setRecord`. -/
def setRecord (rm : RecordMap) (id : ℕ) (rec : Record) : RecordMap :=
  if id = 0 then { rm with psoRecord := memcpy rm.psoRecord 4 rec }
  else
    rm.writeBlockCache (id / 32)
      (memcpy (rm.readBlockCache (id / 32)) (id % 32 * RMAP_RECORD_SIZE + 4) rec)

/-- `setRecordType`. -/
def setRecordType (rm : RecordMap) (id type : ℕ) : RecordMap :=
  if id = 0 then { rm with psoRecord := memcpy rm.psoRecord 0 (te32 type) }
  else
    rm.writeBlockCache (id / 32)
      (memcpy (rm.readBlockCache (id / 32)) (id % 32 * RMAP_RECORD_SIZE) (te32 type))

/-! ## Allocation -/

/-- The search of page `i` from bit `j` on. A full word is passed over at once. -/
def searchPage (rm : RecordMap) (i : ℕ) : ℕ → ℕ → Option ℕ
  | 0, _ => none
  | fuel + 1, j =>
    if ¬ j < RMAP_BITS_PAGE then none
    else if rm.bitmap (i * RMAP_WORDS_PAGE + j / 32) = BitVec.allOnes 32 then
      searchPage rm i fuel (j + 32)
    else if (rm.bitmap (i * RMAP_WORDS_PAGE + j / 32)).getLsbD (j % 32) = false then some j
    else searchPage rm i fuel (j + 1)

/-- The search of `n` pages from page `i` on: the page it ends at, and the bit. -/
def searchPages (rm : RecordMap) : ℕ → ℕ → ℕ × Option ℕ
  | 0, i => (i, none)
  | n + 1, i =>
    match rm.searchPage i (RMAP_BITS_PAGE + 1) 0 with
    | some j => (i, some j)
    | none => searchPages rm n (i + 1)

/-- A new page of the bitmap, all zeros. -/
def newPage (rm : RecordMap) (i : ℕ) : RecordMap :=
  { rm with
    pages := i + 1
    bitmap := fun w => if w / RMAP_WORDS_PAGE = i then 0#32 else rm.bitmap w }

/-- Set bit `j` of page `i`. -/
def setBitmap (rm : RecordMap) (i j : ℕ) : RecordMap :=
  { rm with
    bitmap := update rm.bitmap (i * RMAP_WORDS_PAGE + j / 32)
      (rm.bitmap (i * RMAP_WORDS_PAGE + j / 32) ||| 1#32 <<< (j % 32)) }

/-- `internal_allocRecord`. -/
def internal_allocRecord (rm : RecordMap) : Except Failure (RecordMap × ℕ) :=
  match rm.searchPages rm.pages 0 with
  | (i, some j) =>
    if i * RMAP_BITS_PAGE + j ≥ RMAP_BITMAP_BLOCKS * RMAP_BITS_PAGE then .error .passert
    else .ok (rm.setBitmap i j, i * RMAP_BITS_PAGE + j)
  | (i, none) =>
    if i < RMAP_BITMAP_BLOCKS then .ok ((rm.newPage i).setBitmap i 0, i * RMAP_BITS_PAGE + 0)
    else .error .passert

/-- `allocRecord`. -/
def allocRecord (rm : RecordMap) (type : ℕ) : Except Failure (RecordMap × ℕ) :=
  match rm.internal_allocRecord with
  | .error e => .error e
  | .ok (rm', id) => .ok (rm'.setRecordType id type, id)

/-- `internal_freeRecord`, with the blocks released. -/
def freeRecord (rm : RecordMap) (id : ℕ) : Except Failure (RecordMap × List ℕ) :=
  let lblkno := id / RMAP_BITS_PAGE
  let index := id % RMAP_BITS_PAGE / 32
  let shift := id % 32
  let word := lblkno * RMAP_WORDS_PAGE + index
  if ¬ lblkno < rm.pages then .error .passert
  else if (rm.bitmap word).getLsbD shift = false then .error .passert
  else
    let bitmapValue := rm.bitmap word &&& ~~~(1#32 <<< shift)
    let rm' := { rm with bitmap := update rm.bitmap word bitmapValue }
    if bitmapValue = 0#32 then
      .ok (rm'.freeBlocks (id * RMAP_RECORD_SIZE % 2 ^ 32) (id * RMAP_RECORD_SIZE % 2 ^ 32))
    else .ok (rm', [])

/-- `locationAlloc`: one page of the bitmap, with record `0` in use. -/
def locationAlloc : RecordMap where
  psoRecord := memcpy (fun _ => 0) 0 (te32 OT_PRIM_UNIX)
  pages := 1
  bitmap := fun w => if w = 0 then 1#32 else 0#32
  pso := fun _ => none

/-! ## Records do not overlap -/

variable {len i n : ℕ}

theorem bytesAt_memcpy_self (dst : ℕ → UInt8) (off : ℕ) (src : Fin len → UInt8) :
    bytesAt (memcpy dst off src) off len = src := by
  funext k
  have hk : off ≤ off + k.val ∧ off + k.val < off + len := by omega
  simp only [bytesAt, memcpy, hk, and_self, dif_pos]
  congr
  omega

theorem bytesAt_memcpy_of_disjoint (dst : ℕ → UInt8) {off off' len' : ℕ}
    (src : Fin len → UInt8) (h : off' + len' ≤ off ∨ off + len ≤ off') :
    bytesAt (memcpy dst off src) off' len' = bytesAt dst off' len' := by
  funext k
  have hk : ¬ (off ≤ off' + k.val ∧ off' + k.val < off + len) := by omega
  simp only [bytesAt, memcpy, dif_neg hk]

variable {rm rm' : RecordMap} {id id' : ℕ}

theorem readBlockCache_writeBlockCache_self (rm : RecordMap) (l : ℕ) (data : ℕ → UInt8) :
    (rm.writeBlockCache l data).readBlockCache l = data := by
  simp [readBlockCache, writeBlockCache]

theorem readBlockCache_writeBlockCache_of_ne (rm : RecordMap) {l l' : ℕ} (h : l' ≠ l)
    (data : ℕ → UInt8) : (rm.writeBlockCache l data).readBlockCache l' = rm.readBlockCache l' := by
  simp [readBlockCache, writeBlockCache, update_of_ne h]

theorem slot_disjoint (h : id' ≠ id) (hblock : id' / 32 = id / 32) :
    id' % 32 * RMAP_RECORD_SIZE + RMAP_RECORD_SIZE ≤ id % 32 * RMAP_RECORD_SIZE ∨
      id % 32 * RMAP_RECORD_SIZE + RMAP_RECORD_SIZE ≤ id' % 32 * RMAP_RECORD_SIZE := by
  have hmod : id' % 32 ≠ id % 32 := by
    intro hmod
    exact h (div_mod_inj hblock hmod)
  unfold RMAP_RECORD_SIZE
  omega

theorem getRecord_setRecord_self (rm : RecordMap) (id : ℕ) (rec : Record) :
    (rm.setRecord id rec).getRecord id = rec := by
  unfold setRecord getRecord
  by_cases h : id = 0
  · simp only [if_pos h]
    exact bytesAt_memcpy_self _ _ _
  · simp only [if_neg h, readBlockCache_writeBlockCache_self]
    exact bytesAt_memcpy_self _ _ _

theorem getRecord_writeSlot (rm : RecordMap) (off : ℕ) (hoff : off + len ≤ RMAP_RECORD_SIZE)
    (src : Fin len → UInt8) (h : id' ≠ id) :
    (rm.writeBlockCache (id / 32) (memcpy (rm.readBlockCache (id / 32))
      (id % 32 * RMAP_RECORD_SIZE + off) src)).getRecord id' = rm.getRecord id' := by
  unfold getRecord
  by_cases h0 : id' = 0
  · simp only [if_pos h0]
    rfl
  · simp only [if_neg h0]
    by_cases hblock : id' / 32 = id / 32
    · rw [hblock, readBlockCache_writeBlockCache_self]
      apply bytesAt_memcpy_of_disjoint
      have := slot_disjoint h hblock
      unfold RMAP_RECORD_SIZE KFS_RECORD_SIZE at *
      omega
    · rw [readBlockCache_writeBlockCache_of_ne rm hblock]

theorem getRecord_setRecord_of_ne (rm : RecordMap) (rec : Record) (h : id' ≠ id) :
    (rm.setRecord id rec).getRecord id' = rm.getRecord id' := by
  unfold setRecord
  by_cases h0 : id = 0
  · rw [if_pos h0]
    unfold getRecord
    rw [if_neg (by omega), if_neg (by omega)]
    rfl
  · rw [if_neg h0]
    exact getRecord_writeSlot rm 4 (by decide) rec h

theorem getRecord_setRecordType (rm : RecordMap) (id id' type : ℕ) :
    (rm.setRecordType id type).getRecord id' = rm.getRecord id' := by
  unfold setRecordType
  by_cases h0 : id = 0
  · rw [if_pos h0]
    unfold getRecord
    by_cases h0' : id' = 0
    · rw [if_pos h0', if_pos h0']
      exact bytesAt_memcpy_of_disjoint _ _ (by decide)
    · rw [if_neg h0', if_neg h0']
      rfl
  · rw [if_neg h0]
    by_cases h : id' = id
    · unfold getRecord
      rw [h, if_neg h0, if_neg h0, readBlockCache_writeBlockCache_self]
      exact bytesAt_memcpy_of_disjoint _ _ (.inr (Nat.le_refl _))
    · exact getRecord_writeSlot rm 0 (by decide) (te32 type) h

/-! ## The search for a free record -/

theorem page_word (b : ℕ) :
    b / RMAP_BITS_PAGE * RMAP_WORDS_PAGE + b % RMAP_BITS_PAGE / 32 = b / 32 := by
  unfold RMAP_BITS_PAGE RMAP_WORDS_PAGE
  omega

theorem page_bit (b : ℕ) : b % RMAP_BITS_PAGE % 32 = b % 32 := by
  unfold RMAP_BITS_PAGE
  omega

theorem searchPage_full {fuel j : ℕ}
    (h : ∀ w < RMAP_WORDS_PAGE, rm.bitmap (i * RMAP_WORDS_PAGE + w) = BitVec.allOnes 32) :
    rm.searchPage i fuel j = none := by
  induction fuel generalizing j with
  | zero => rfl
  | succ fuel ih =>
    rw [searchPage]
    by_cases hj : j < RMAP_BITS_PAGE
    · have hw : j / 32 < RMAP_WORDS_PAGE := Nat.div_lt_of_lt_mul hj
      rw [if_neg (not_not.mpr hj), if_pos (h _ hw)]
      exact ih
    · rw [if_pos hj]

/-- The words before that of bit `m` are full and bit `m` is the lowest clear one
of its word: the search ends at it. It never leaves a word that is not full. -/
theorem searchPage_eq_some {m : ℕ} (hm : m < RMAP_BITS_PAGE)
    (hfull : ∀ w < m / 32, rm.bitmap (i * RMAP_WORDS_PAGE + w) = BitVec.allOnes 32)
    (hclear : (rm.bitmap (i * RMAP_WORDS_PAGE + m / 32)).getLsbD (m % 32) = false)
    (hlow : ∀ k < m % 32, (rm.bitmap (i * RMAP_WORDS_PAGE + m / 32)).getLsbD k = true)
    {fuel j : ℕ} (hj : j ≤ m) (hword : j % 32 = 0 ∨ j / 32 = m / 32) (hfuel : m < j + fuel) :
    rm.searchPage i fuel j = some m := by
  have hnot : rm.bitmap (i * RMAP_WORDS_PAGE + m / 32) ≠ BitVec.allOnes 32 := by
    intro hall
    rw [eq_allOnes_iff.mp hall (m % 32) (Nat.mod_lt m (by decide))] at hclear
    cases hclear
  induction fuel generalizing j with
  | zero => omega
  | succ fuel ih =>
    rw [searchPage, if_neg (not_not.mpr (lt_of_le_of_lt hj hm))]
    by_cases hsame : j / 32 = m / 32
    · rw [hsame, if_neg hnot]
      by_cases hjm : j = m
      · rw [hjm, if_pos hclear]
      · have hset := hlow (j % 32) (by omega)
        rw [if_neg (by rw [hset]; decide)]
        exact ih (by omega) (by omega) (by omega)
    · rw [if_pos (hfull (j / 32) (by omega))]
      exact ih (by omega) (by omega) (by omega)

theorem searchPages_eq_some {b : ℕ} (hclear : bit rm.bitmap b = false)
    (hlow : ∀ n < b, bit rm.bitmap n = true) (hi : i ≤ b / RMAP_BITS_PAGE)
    (hn : b / RMAP_BITS_PAGE < i + n) :
    rm.searchPages n i = (b / RMAP_BITS_PAGE, some (b % RMAP_BITS_PAGE)) := by
  obtain ⟨hfull, -, -⟩ := word_of_lowest (show 0 < 32 by decide) hclear hlow
  have hpage := page_word b
  induction n generalizing i with
  | zero => omega
  | succ n ih =>
    rw [searchPages]
    by_cases heq : i = b / RMAP_BITS_PAGE
    · subst heq
      have hfind : rm.searchPage (b / RMAP_BITS_PAGE) (RMAP_BITS_PAGE + 1) 0 =
          some (b % RMAP_BITS_PAGE) := by
        have hlt := Nat.mod_lt b (show 0 < RMAP_BITS_PAGE by decide)
        refine searchPage_eq_some hlt ?_ ?_ ?_ (Nat.zero_le _) (.inl rfl) (by omega)
        · intro w hw
          exact hfull _ (by omega)
        · rw [hpage, page_bit]
          exact hclear
        · intro k hk
          rw [page_bit] at hk
          have hset := hlow (b / 32 * 32 + k) (by omega)
          unfold bit at hset
          rw [hpage, ← hset]
          congr 2 <;> omega
      rw [hfind]
    · have hlt : i < b / RMAP_BITS_PAGE := Nat.lt_of_le_of_ne hi heq
      have hnone : rm.searchPage i (RMAP_BITS_PAGE + 1) 0 = none := by
        apply searchPage_full
        intro w hw
        have hle : (i + 1) * RMAP_WORDS_PAGE ≤ b / RMAP_BITS_PAGE * RMAP_WORDS_PAGE :=
          Nat.mul_le_mul_right _ hlt
        rw [Nat.succ_mul] at hle
        exact hfull _ (by omega)
      rw [hnone]
      exact ih hlt (by omega)

theorem searchPages_eq_none (h : ∀ w < (i + n) * RMAP_WORDS_PAGE, rm.bitmap w = BitVec.allOnes 32) :
    rm.searchPages n i = (i + n, none) := by
  induction n generalizing i with
  | zero => rfl
  | succ n ih =>
    have hnone : rm.searchPage i (RMAP_BITS_PAGE + 1) 0 = none := by
      apply searchPage_full
      intro w hw
      apply h
      have hle : (i + 1) * RMAP_WORDS_PAGE ≤ (i + (n + 1)) * RMAP_WORDS_PAGE :=
        Nat.mul_le_mul_right _ (by omega)
      rw [Nat.succ_mul] at hle
      omega
    rw [searchPages, hnone]
    have hsum : i + 1 + n = i + (n + 1) := by omega
    have hrest := ih (i := i + 1) (by rw [hsum]; exact h)
    rw [hsum] at hrest
    exact hrest

theorem searchPages_of_full (h : ∀ n < rm.pages * RMAP_BITS_PAGE, bit rm.bitmap n = true) :
    rm.searchPages rm.pages 0 = (rm.pages, none) := by
  have hwords : ∀ w < (0 + rm.pages) * RMAP_WORDS_PAGE, rm.bitmap w = BitVec.allOnes 32 := by
    intro w hw
    rw [eq_allOnes_iff]
    intro k hk
    have hlt : w * 32 + k < rm.pages * RMAP_BITS_PAGE := by
      unfold RMAP_WORDS_PAGE at hw
      unfold RMAP_BITS_PAGE
      omega
    have hset := h (w * 32 + k) hlt
    unfold bit at hset
    rw [← hset]
    congr 2 <;> omega
  have hnone := searchPages_eq_none hwords
  rwa [Nat.zero_add] at hnone

/-- What an allocation did: `id` was not in use, and is; a further page of the
bitmap is otherwise clear. -/
structure Takes (rm rm' : RecordMap) (id : ℕ) : Prop where
  free : id < rm.pages * RMAP_BITS_PAGE → bit rm.bitmap id = false
  lt : id < rm'.pages * RMAP_BITS_PAGE
  pages_le : rm.pages ≤ rm'.pages
  pages_max : rm'.pages ≤ RMAP_BITMAP_BLOCKS
  bits : ∀ n < rm'.pages * RMAP_BITS_PAGE, bit rm'.bitmap n =
    (decide (n = id) || (decide (n < rm.pages * RMAP_BITS_PAGE) && bit rm.bitmap n))
  pso : rm'.pso = rm.pso
  psoRecord : rm'.psoRecord = rm.psoRecord

theorem setBitmap_bitmap (rm : RecordMap) (b : ℕ) :
    (rm.setBitmap (b / RMAP_BITS_PAGE) (b % RMAP_BITS_PAGE)).bitmap = setBit rm.bitmap b := by
  unfold setBitmap setBit
  rw [page_word, page_bit]

theorem internal_allocRecord_found {b : ℕ} (hpages : rm.pages ≤ RMAP_BITMAP_BLOCKS)
    (hb : b < rm.pages * RMAP_BITS_PAGE) (hclear : bit rm.bitmap b = false)
    (hlow : ∀ n < b, bit rm.bitmap n = true) :
    ∃ rm', rm.internal_allocRecord = .ok (rm', b) ∧ Takes rm rm' b := by
  have hpage : b / RMAP_BITS_PAGE < rm.pages := by
    rw [Nat.mul_comm] at hb
    exact Nat.div_lt_of_lt_mul hb
  have hsum : b / RMAP_BITS_PAGE * RMAP_BITS_PAGE + b % RMAP_BITS_PAGE = b := by
    rw [Nat.mul_comm]
    exact Nat.div_add_mod b RMAP_BITS_PAGE
  have hmax : rm.pages * RMAP_BITS_PAGE ≤ RMAP_BITMAP_BLOCKS * RMAP_BITS_PAGE :=
    Nat.mul_le_mul_right _ hpages
  refine ⟨rm.setBitmap (b / RMAP_BITS_PAGE) (b % RMAP_BITS_PAGE), ?_, ?_⟩
  · unfold internal_allocRecord
    rw [searchPages_eq_some hclear hlow (Nat.zero_le _) (by omega)]
    dsimp only
    rw [hsum, if_neg (by omega)]
  · refine ⟨fun _ => hclear, hb, Nat.le_refl _, hpages, ?_, rfl, rfl⟩
    intro n hn
    have hn' : n < rm.pages * RMAP_BITS_PAGE := hn
    rw [setBitmap_bitmap, bit_setBit (by decide), decide_eq_true hn', Bool.true_and, Bool.or_comm]

theorem bit_newPage (rm : RecordMap) (i n : ℕ) :
    bit (rm.newPage i).bitmap n = if n / RMAP_BITS_PAGE = i then false else bit rm.bitmap n := by
  have hdiv : n / 32 / RMAP_WORDS_PAGE = n / RMAP_BITS_PAGE :=
    Nat.div_div_eq_div_mul n 32 RMAP_WORDS_PAGE
  unfold bit newPage
  dsimp only
  rw [hdiv]
  by_cases hi : n / RMAP_BITS_PAGE = i
  · rw [if_pos hi, if_pos hi]
    simp
  · rw [if_neg hi, if_neg hi]

theorem internal_allocRecord_full (hpages : rm.pages < RMAP_BITMAP_BLOCKS)
    (hfull : ∀ n < rm.pages * RMAP_BITS_PAGE, bit rm.bitmap n = true) :
    ∃ rm', rm.internal_allocRecord = .ok (rm', rm.pages * RMAP_BITS_PAGE) ∧
      Takes rm rm' (rm.pages * RMAP_BITS_PAGE) := by
  have hdiv : rm.pages * RMAP_BITS_PAGE / RMAP_BITS_PAGE = rm.pages :=
    Nat.mul_div_cancel _ (by decide)
  have hmod : rm.pages * RMAP_BITS_PAGE % RMAP_BITS_PAGE = 0 := Nat.mul_mod_left _ _
  have hbitmap := setBitmap_bitmap (rm.newPage rm.pages) (rm.pages * RMAP_BITS_PAGE)
  rw [hdiv, hmod] at hbitmap
  refine ⟨(rm.newPage rm.pages).setBitmap rm.pages 0, ?_, ?_⟩
  · unfold internal_allocRecord
    rw [searchPages_of_full hfull]
    dsimp only
    rw [if_pos hpages, Nat.add_zero]
  · have hlast : ∀ n, n < (rm.pages + 1) * RMAP_BITS_PAGE →
        (n / RMAP_BITS_PAGE = rm.pages ↔ ¬ n < rm.pages * RMAP_BITS_PAGE) := by
      intro n hn
      rw [Nat.div_lt_iff_lt_mul (by decide) |>.symm]
      have hlt := (Nat.div_lt_iff_lt_mul (show 0 < RMAP_BITS_PAGE by decide)).mpr hn
      omega
    refine ⟨?_, ?_, Nat.le_succ _, hpages, ?_, rfl, rfl⟩
    · intro hlt
      exact absurd hlt (Nat.lt_irrefl _)
    · exact Nat.mul_lt_mul_of_pos_right (Nat.lt_succ_self _) (by decide)
    · intro n hn
      rw [hbitmap, bit_setBit (by decide), bit_newPage, Bool.or_comm]
      congr 1
      by_cases hold : n < rm.pages * RMAP_BITS_PAGE
      · rw [if_neg (fun h => (hlast n hn).mp h hold), decide_eq_true hold, Bool.true_and]
      · rw [if_pos ((hlast n hn).mpr hold), decide_eq_false hold, Bool.false_and]

theorem internal_allocRecord_spec (hpages : rm.pages ≤ RMAP_BITMAP_BLOCKS)
    (hfree : ∃ n < RMAP_BITMAP_BLOCKS * RMAP_BITS_PAGE,
      n < rm.pages * RMAP_BITS_PAGE → bit rm.bitmap n = false) :
    ∃ rm' id, rm.internal_allocRecord = .ok (rm', id) ∧ Takes rm rm' id := by
  by_cases hex : ∃ b, b < rm.pages * RMAP_BITS_PAGE ∧ bit rm.bitmap b = false
  · obtain ⟨c, hc, hclear⟩ := hex
    have hany : ∃ b, bit rm.bitmap b = false := ⟨c, hclear⟩
    have hle := Nat.find_min' hany hclear
    obtain ⟨rm', hok, htakes⟩ := internal_allocRecord_found hpages (lt_of_le_of_lt hle hc)
      (Nat.find_spec hany) (fun n hn => Bool.eq_true_of_not_eq_false (Nat.find_min hany hn))
    exact ⟨rm', _, hok, htakes⟩
  · have hfull : ∀ n < rm.pages * RMAP_BITS_PAGE, bit rm.bitmap n = true := by
      intro n hn
      by_contra hset
      exact hex ⟨n, hn, Bool.eq_false_of_not_eq_true hset⟩
    obtain ⟨n, hn, hnfree⟩ := hfree
    have hlt : rm.pages < RMAP_BITMAP_BLOCKS := by
      by_contra hge
      have heq : rm.pages = RMAP_BITMAP_BLOCKS := Nat.le_antisymm hpages (not_lt.mp hge)
      rw [heq] at hnfree hfull
      rw [hfull n hn] at hnfree
      cases hnfree hn
    obtain ⟨rm', hok, htakes⟩ := internal_allocRecord_full hlt hfull
    exact ⟨rm', _, hok, htakes⟩

theorem takes_of_allocRecord (hpages : rm.pages ≤ RMAP_BITMAP_BLOCKS)
    (h : rm.internal_allocRecord = .ok (rm', id)) : Takes rm rm' id := by
  by_cases hfree : ∃ n < RMAP_BITMAP_BLOCKS * RMAP_BITS_PAGE,
      n < rm.pages * RMAP_BITS_PAGE → bit rm.bitmap n = false
  · obtain ⟨rm₁, id₁, hok, htakes⟩ := internal_allocRecord_spec hpages hfree
    rw [hok] at h
    cases h
    exact htakes
  · -- every record there can be is in use: the search fails and no page is left
    have hall : ∀ n < RMAP_BITMAP_BLOCKS * RMAP_BITS_PAGE,
        n < rm.pages * RMAP_BITS_PAGE ∧ bit rm.bitmap n = true := by
      intro n hn
      by_contra hnot
      apply hfree
      refine ⟨n, hn, ?_⟩
      intro hlt
      by_contra hset
      exact hnot ⟨hlt, Bool.eq_true_of_not_eq_false hset⟩
    have hmax : RMAP_BITMAP_BLOCKS ≤ rm.pages := by
      by_contra hlt
      have hlt' : rm.pages * RMAP_BITS_PAGE < RMAP_BITMAP_BLOCKS * RMAP_BITS_PAGE :=
        Nat.mul_lt_mul_of_pos_right (not_le.mp hlt) (by decide)
      exact Nat.lt_irrefl _ (hall _ hlt').1
    have hfull : ∀ n < rm.pages * RMAP_BITS_PAGE, bit rm.bitmap n = true := by
      intro n hn
      exact (hall n (lt_of_lt_of_le hn (Nat.mul_le_mul_right _ hpages))).2
    unfold internal_allocRecord at h
    rw [searchPages_of_full hfull] at h
    dsimp only at h
    rw [if_neg (not_lt.mpr hmax)] at h
    cases h

/-! ## Freeing a record -/

/-- The word of a record's bit is zero after the free just when no other record of
its block is in use. -/
theorem clearBit_word_eq_zero {bitmap : ℕ → BitVec 32} :
    bitmap (id / 32) &&& ~~~(1#32 <<< (id % 32)) = 0#32 ↔
      ∀ n, n / 32 = id / 32 → n ≠ id → bit bitmap n = false := by
  have hword : ∀ n, n / 32 = id / 32 → bit (clearBit bitmap id) n =
      (bitmap (id / 32) &&& ~~~(1#32 <<< (id % 32))).getLsbD (n % 32) := by
    intro n hn
    unfold bit clearBit
    rw [hn, update_self]
  constructor
  · intro hzero n hn hne
    have hbit := hword n hn
    rw [hzero, bit_clearBit (by decide), decide_eq_false hne] at hbit
    simpa using hbit
  · intro h
    refine BitVec.eq_of_getLsbD_eq ?_
    intro k hk
    have hn : (id / 32 * 32 + k) / 32 = id / 32 := by omega
    have hmod : (id / 32 * 32 + k) % 32 = k := by omega
    have hbit := hword _ hn
    rw [hmod, bit_clearBit (by decide)] at hbit
    rw [← hbit]
    by_cases heq : id / 32 * 32 + k = id
    · simp [heq]
    · simp [h _ hn heq]

theorem freeRecord_of_neighbour (hlt : id < rm.pages * RMAP_BITS_PAGE)
    (hset : bit rm.bitmap id = true) (hn : n / 32 = id / 32) (hne : n ≠ id)
    (hnset : bit rm.bitmap n = true) :
    rm.freeRecord id = .ok ({ rm with bitmap := clearBit rm.bitmap id }, []) := by
  have hpage : id / RMAP_BITS_PAGE < rm.pages := by
    rw [Nat.mul_comm] at hlt
    exact Nat.div_lt_of_lt_mul hlt
  have hzero : ¬ rm.bitmap (id / 32) &&& ~~~(1#32 <<< (id % 32)) = 0#32 := by
    intro hzero
    rw [clearBit_word_eq_zero.mp hzero n hn hne] at hnset
    cases hnset
  unfold bit at hset
  unfold freeRecord
  simp only [page_word]
  rw [if_neg (not_not.mpr hpage), if_neg (by rw [hset]; decide), if_neg hzero]
  rfl

/-! ## Runs -/

/-- A record map, the records allocated and not freed since, and what was last
written to each. -/
structure Ledger where
  rm : RecordMap
  live : List ℕ
  last : ℕ → Option Record

inductive Op
  | allocRecord (type : ℕ)
  | setRecord (id : ℕ) (rec : Record)
  | setRecordType (id type : ℕ)
  | freeRecord (id : ℕ)

namespace Ledger

def start : Ledger := ⟨locationAlloc, [], fun _ => none⟩

def step (s : Ledger) : Op → Ledger
  | .allocRecord type =>
    match s.rm.allocRecord type with
    | .ok (rm, id) => ⟨rm, id :: s.live, update s.last id none⟩
    | .error _ => s
  | .setRecord id rec => ⟨s.rm.setRecord id rec, s.live, update s.last id (some rec)⟩
  | .setRecordType id type => { s with rm := s.rm.setRecordType id type }
  | .freeRecord id =>
    match s.rm.freeRecord id with
    | .ok (rm, _) => ⟨rm, s.live.erase id, update s.last id none⟩
    | .error _ => s

/-- The records in use: those allocated, and record `0`. -/
def inUse (s : Ledger) : List ℕ := 0 :: s.live

/-- Only live records are freed. -/
def Issuable (s : Ledger) : Op → Prop
  | .freeRecord id => id ∈ s.live
  | _ => True

/-- Another record of the block of `id` is in use. -/
def HasNeighbour (s : Ledger) (id : ℕ) : Prop := ∃ n ∈ s.inUse, n / 32 = id / 32 ∧ n ≠ id

/-- No record is freed that is the last one in use of its block. -/
def KeepsBlock (s : Ledger) : Op → Prop
  | .freeRecord id => s.HasNeighbour id
  | _ => True

instance (s : Ledger) : (op : Op) → Decidable (s.Issuable op)
  | .allocRecord _ | .setRecord .. | .setRecordType .. => isTrue trivial
  | .freeRecord id => inferInstanceAs (Decidable (id ∈ s.live))

instance (s : Ledger) (id : ℕ) : Decidable (s.HasNeighbour id) :=
  inferInstanceAs (Decidable (∃ n ∈ s.inUse, _))

instance (s : Ledger) : (op : Op) → Decidable (s.KeepsBlock op)
  | .allocRecord _ | .setRecord .. | .setRecordType .. => isTrue trivial
  | .freeRecord id => inferInstanceAs (Decidable (s.HasNeighbour id))

def anyCalls : Machine Ledger Op where
  step := step
  adm := Issuable

def keepingCalls : Machine Ledger Op where
  step := step
  adm s op := s.Issuable op ∧ s.KeepsBlock op

instance (s : Ledger) (op : Op) : Decidable (anyCalls.adm s op) :=
  inferInstanceAs (Decidable (s.Issuable op))

instance (s : Ledger) (op : Op) : Decidable (keepingCalls.adm s op) :=
  inferInstanceAs (Decidable (s.Issuable op ∧ s.KeepsBlock op))

/-- Freeing `id` succeeds, leaves every other live record and its contents alone,
and releases the block of `id`, if there, when none of its records is in use any
more, and no other block. -/
def FreesWell (s : Ledger) (id : ℕ) : Prop :=
  ∃ rm' released, s.rm.freeRecord id = .ok (rm', released) ∧
    (∀ id' ∈ s.live, id' ≠ id →
      rm'.getRecord id' = s.rm.getRecord id' ∧ bit rm'.bitmap id' = true) ∧
    ∀ l, l ∈ released ↔
      l = id / 32 ∧ (s.rm.pso l).isSome = true ∧ ∀ n ∈ s.inUse, n / 32 = l → n = id

/-- The map and the ledger agree: the bits are the records in use, and reading gives
what was last written. -/
structure Inv (s : Ledger) : Prop where
  pages_pos : 0 < s.rm.pages
  pages_max : s.rm.pages ≤ RMAP_BITMAP_BLOCKS
  bits : ∀ n < s.rm.pages * RMAP_BITS_PAGE, bit s.rm.bitmap n = true ↔ n ∈ s.inUse
  lt : ∀ id ∈ s.inUse, id < s.rm.pages * RMAP_BITS_PAGE
  nodup : s.inUse.Nodup
  read : ∀ id ∈ s.live, ∀ rec, s.last id = some rec → s.rm.getRecord id = rec

variable {s : Ledger} {id : ℕ}

theorem start_inv : start.Inv where
  pages_pos := Nat.one_pos
  pages_max := by decide
  bits := by
    intro n _
    have hone : ∀ k, (1#32).getLsbD k = decide (k = 0) := by
      intro k
      simp [BitVec.getLsbD_one]
    show bit (fun w => if w = 0 then 1#32 else 0#32) n = true ↔ n ∈ [0]
    unfold bit
    by_cases hn : n / 32 = 0
    · simp only [hn, if_true, hone, decide_eq_true_eq, List.mem_singleton]
      omega
    · simp only [hn, if_false, List.mem_singleton]
      have : n ≠ 0 := by omega
      simp [this]
  lt := by
    intro id hid
    rw [List.mem_singleton.mp hid]
    decide
  nodup := List.nodup_singleton 0
  read := by
    intro id hid
    exact absurd hid List.not_mem_nil

variable {rm' : RecordMap}

theorem Inv.write (h : s.Inv) {last : ℕ → Option Record}
    (hpages : rm'.pages = s.rm.pages) (hbitmap : rm'.bitmap = s.rm.bitmap)
    (hread : ∀ id' ∈ s.live, ∀ rec, last id' = some rec → rm'.getRecord id' = rec) :
    Inv ⟨rm', s.live, last⟩ where
  pages_pos := by
    rw [hpages]
    exact h.pages_pos
  pages_max := by
    rw [hpages]
    exact h.pages_max
  bits := by
    rw [hpages, hbitmap]
    exact h.bits
  lt := by
    rw [hpages]
    exact h.lt
  nodup := h.nodup
  read := hread

theorem Inv.setRecord (h : s.Inv) (id : ℕ) (rec : Record) :
    Inv ⟨s.rm.setRecord id rec, s.live, update s.last id (some rec)⟩ := by
  have hread : ∀ id' ∈ s.live, ∀ r, update s.last id (some rec) id' = some r →
      (s.rm.setRecord id rec).getRecord id' = r := by
    intro id' hid' r hr
    by_cases heq : id' = id
    · rw [heq, update_self] at hr
      rw [heq, getRecord_setRecord_self]
      exact Option.some.inj hr
    · rw [update_of_ne heq] at hr
      rw [getRecord_setRecord_of_ne _ _ heq]
      exact h.read id' hid' r hr
  refine h.write ?_ ?_ hread
  · unfold RecordMap.setRecord
    split <;> rfl
  · unfold RecordMap.setRecord
    split <;> rfl

theorem Inv.setRecordType (h : s.Inv) (id type : ℕ) :
    Inv { s with rm := s.rm.setRecordType id type } := by
  refine h.write ?_ ?_ ?_
  · unfold RecordMap.setRecordType
    split <;> rfl
  · unfold RecordMap.setRecordType
    split <;> rfl
  · intro id' hid' rec hrec
    rw [getRecord_setRecordType]
    exact h.read id' hid' rec hrec

theorem Inv.not_inUse (h : s.Inv) (htakes : Takes s.rm rm' id) :
    id ∉ s.inUse := by
  intro hid
  have hlt := h.lt id hid
  have hset := (h.bits id hlt).mpr hid
  rw [htakes.free hlt] at hset
  cases hset

theorem Inv.allocRecord (h : s.Inv) (htakes : Takes s.rm rm' id) :
    Inv ⟨rm', id :: s.live, update s.last id none⟩ := by
  have hnot := h.not_inUse htakes
  have hmem : ∀ n, n ∈ 0 :: id :: s.live ↔ n = id ∨ n ∈ s.inUse := by
    intro n
    simp only [inUse, List.mem_cons]
    tauto
  refine
    { pages_pos := lt_of_lt_of_le h.pages_pos htakes.pages_le
      pages_max := htakes.pages_max
      bits := ?_
      lt := ?_
      nodup := ?_
      read := ?_ }
  · intro n hn
    show _ ↔ n ∈ 0 :: id :: s.live
    rw [htakes.bits n hn, hmem]
    simp only [Bool.or_eq_true, Bool.and_eq_true, decide_eq_true_eq]
    constructor
    · rintro (rfl | ⟨hlt, hset⟩)
      · exact .inl rfl
      · exact .inr ((h.bits n hlt).mp hset)
    · rintro (rfl | hin)
      · exact .inl rfl
      · exact .inr ⟨h.lt n hin, (h.bits n (h.lt n hin)).mpr hin⟩
  · intro n hn
    rcases (hmem n).mp hn with rfl | hin
    · exact htakes.lt
    · exact lt_of_lt_of_le (h.lt n hin) (Nat.mul_le_mul_right _ htakes.pages_le)
  · show (0 :: id :: s.live).Nodup
    have hswap : List.Perm (0 :: id :: s.live) (id :: s.inUse) := List.Perm.swap id 0 s.live
    rw [hswap.nodup_iff]
    exact List.nodup_cons.mpr ⟨hnot, h.nodup⟩
  · intro id' hid' rec hrec
    by_cases heq : id' = id
    · rw [heq] at hrec
      simp at hrec
    · have hrec' : s.last id' = some rec := by
        rw [← hrec]
        exact (update_of_ne heq _ _).symm
      have hget : rm'.getRecord id' = s.rm.getRecord id' := by
        unfold getRecord readBlockCache
        rw [htakes.pso, htakes.psoRecord]
      show rm'.getRecord id' = rec
      rw [hget]
      exact h.read id' ((List.mem_cons.mp hid').resolve_left heq) rec hrec'

theorem Inv.freeRecord_eq (h : s.Inv) (hid : id ∈ s.live) (hnb : s.HasNeighbour id) :
    s.rm.freeRecord id = .ok ({ s.rm with bitmap := clearBit s.rm.bitmap id }, []) := by
  have hin : id ∈ s.inUse := List.mem_cons_of_mem 0 hid
  have hlt := h.lt id hin
  obtain ⟨n, hn, hblock, hne⟩ := hnb
  exact freeRecord_of_neighbour hlt ((h.bits id hlt).mpr hin) hblock hne
    ((h.bits n (h.lt n hn)).mpr hn)

theorem Inv.freeRecord (h : s.Inv) (hid : id ∈ s.live) :
    Inv ⟨{ s.rm with bitmap := clearBit s.rm.bitmap id }, s.live.erase id,
      update s.last id none⟩ := by
  have hne0 : id ≠ 0 := by
    rintro rfl
    exact (List.nodup_cons.mp h.nodup).1 hid
  have hlive : s.live.Nodup := (List.nodup_cons.mp h.nodup).2
  have hmem : ∀ n, n ∈ 0 :: s.live.erase id ↔ n ≠ id ∧ n ∈ s.inUse := by
    intro n
    simp only [inUse, List.mem_cons, hlive.mem_erase_iff]
    constructor
    · rintro (rfl | ⟨hne, hn⟩)
      · exact ⟨hne0.symm, .inl rfl⟩
      · exact ⟨hne, .inr hn⟩
    · rintro ⟨hne, rfl | hn⟩
      · exact .inl rfl
      · exact .inr ⟨hne, hn⟩
  refine
    { pages_pos := h.pages_pos
      pages_max := h.pages_max
      bits := ?_
      lt := ?_
      nodup := ?_
      read := ?_ }
  · intro n hn
    show bit (clearBit s.rm.bitmap id) n = true ↔ n ∈ 0 :: s.live.erase id
    rw [bit_clearBit (by decide), hmem]
    simp only [Bool.and_eq_true, Bool.not_eq_true', decide_eq_false_iff_not]
    rw [h.bits n hn]
    exact and_comm
  · intro n hn
    exact h.lt n ((hmem n).mp hn).2
  · refine List.nodup_cons.mpr ⟨?_, hlive.erase id⟩
    intro h0
    exact (List.nodup_cons.mp h.nodup).1 (List.mem_of_mem_erase h0)
  · intro id' hid' rec hrec
    obtain ⟨hne, hlive'⟩ := hlive.mem_erase_iff.mp hid'
    have hrec' : s.last id' = some rec := by
      rw [← hrec]
      exact (update_of_ne hne _ _).symm
    exact h.read id' hlive' rec hrec'

theorem step_inv {op : Op} (h : s.Inv) (hadm : s.Issuable op) (hkeeps : s.KeepsBlock op) :
    (s.step op).Inv := by
  cases op with
  | allocRecord type =>
    cases halloc : s.rm.internal_allocRecord with
    | error e =>
      have hstep : s.step (.allocRecord type) = s := by
        simp only [step, RecordMap.allocRecord, halloc]
      rw [hstep]
      exact h
    | ok r =>
      obtain ⟨rm', id⟩ := r
      have hnew := h.allocRecord (takes_of_allocRecord h.pages_max halloc)
      have hstep : s.step (.allocRecord type) =
          ⟨rm'.setRecordType id type, id :: s.live, update s.last id none⟩ := by
        simp only [step, RecordMap.allocRecord, halloc]
      rw [hstep]
      exact hnew.setRecordType id type
  | setRecord id rec => exact h.setRecord id rec
  | setRecordType id type => exact h.setRecordType id type
  | freeRecord id =>
    have hstep : s.step (.freeRecord id) =
        ⟨{ s.rm with bitmap := clearBit s.rm.bitmap id }, s.live.erase id,
          update s.last id none⟩ := by
      simp only [step, h.freeRecord_eq hadm hkeeps]
    rw [hstep]
    exact h.freeRecord hadm

/-- What a record store promises in a state: an allocation returns a record that is
not live, and succeeds while there is one; a live record reads as last written; a
record with a neighbour is freed well. -/
structure Stores (s : Ledger) : Prop where
  allocRecord : ∀ type rm' id, s.rm.allocRecord type = .ok (rm', id) → id ≠ 0 ∧ id ∉ s.live
  room : (∃ n < RMAP_BITMAP_BLOCKS * RMAP_BITS_PAGE, n ∉ s.inUse) →
    ∀ type, ∃ rm' id, s.rm.allocRecord type = .ok (rm', id)
  getRecord : ∀ id ∈ s.live, ∀ rec, s.last id = some rec → s.rm.getRecord id = rec
  freeRecord : ∀ id ∈ s.live, s.HasNeighbour id → s.FreesWell id

theorem Inv.freesWell (h : s.Inv) (hid : id ∈ s.live) (hnb : s.HasNeighbour id) :
    s.FreesWell id := by
  refine ⟨_, [], h.freeRecord_eq hid hnb, ?_, ?_⟩
  · intro id' hid' hne
    refine ⟨rfl, ?_⟩
    have hin : id' ∈ s.inUse := List.mem_cons_of_mem 0 hid'
    rw [bit_clearBit (by decide), (h.bits id' (h.lt id' hin)).mpr hin, decide_eq_false hne]
    rfl
  · intro l
    simp only [List.not_mem_nil, false_iff]
    -- the neighbour of `id` keeps the block in use
    rintro ⟨rfl, -, hall⟩
    obtain ⟨n, hn, hblock, hne⟩ := hnb
    exact hne (hall n hn hblock)

theorem Inv.stores (h : s.Inv) : s.Stores where
  allocRecord := by
    intro type rm' id hok
    unfold RecordMap.allocRecord at hok
    cases halloc : s.rm.internal_allocRecord with
    | error e =>
      rw [halloc] at hok
      cases hok
    | ok r =>
      rw [halloc] at hok
      cases hok
      have hnot := h.not_inUse (takes_of_allocRecord h.pages_max halloc)
      exact ⟨fun h0 => hnot (by rw [h0]; exact List.mem_cons_self),
        fun hlive => hnot (List.mem_cons_of_mem 0 hlive)⟩
  room := by
    rintro ⟨n, hn, hfree⟩ type
    have hclear : n < s.rm.pages * RMAP_BITS_PAGE → bit s.rm.bitmap n = false := by
      intro hlt
      by_contra hset
      exact hfree ((h.bits n hlt).mp (Bool.eq_true_of_not_eq_false hset))
    obtain ⟨rm', id, hok, -⟩ := internal_allocRecord_spec h.pages_max ⟨n, hn, hclear⟩
    refine ⟨rm'.setRecordType id type, id, ?_⟩
    unfold RecordMap.allocRecord
    rw [hok]
  getRecord := h.read
  freeRecord := fun _ hid hnb => h.freesWell hid hnb

/-- In every run that never frees the last record in use of a block. -/
theorem run_stores {ops : List Op} (hrun : keepingCalls.Run start ops s) : s.Stores := by
  have hinv : s.Inv := by
    refine hrun.invariant (I := Inv) start_inv ?_
    rintro s op h ⟨hadm, hkeeps⟩
    exact step_inv h hadm hkeeps
  exact hinv.stores

/-- Two records are allocated and written, one is freed and its place taken again. -/
def reuse : List Op :=
  [.allocRecord 2, .setRecord 1 (fun _ => 7), .allocRecord 3, .setRecord 2 (fun _ => 9),
    .freeRecord 1, .allocRecord 2]

theorem run_stores_reuse :
    keepingCalls.Admits start reuse ∧ Stores (reuse.foldl step start) := by
  have hadm : keepingCalls.Admits start reuse := by decide +kernel
  exact ⟨hadm, run_stores hadm.run⟩

/-- Records `1` to `32`; the last is the only one in block `1`. -/
def fillBlock : List Op := List.replicate 32 (.allocRecord 2)

/-- Freeing the only record of block `1` passes the byte offset of the record as a
block number, and releases nothing. -/
theorem not_freesWell_of_last_in_block :
    ∃ s, anyCalls.Run start fillBlock s ∧ 32 ∈ s.live ∧ ¬ s.FreesWell 32 := by
  have hadm : anyCalls.Admits start fillBlock := by decide +kernel
  refine ⟨_, hadm.run, by decide +kernel, ?_⟩
  rintro ⟨rm', released, hok, -, hreleased⟩
  have hnone : some released = some [] := by
    have hres := congrArg (fun r => r.toOption.map Prod.snd) hok
    rw [← show _ = some released from hres]
    decide +kernel
  have hmem : 1 ∈ released := (hreleased 1).mpr (by decide +kernel)
  rw [Option.some.inj hnone] at hmem
  exact absurd hmem List.not_mem_nil

end Ledger

end RecordMap

end K42
