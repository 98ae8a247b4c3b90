import K42.Lib.Run
import K42.Lib.Word
import K42.Lib.Bitmap
import K42.Sys.SysStatus

/-!
# The superblock and its block map

The block map has one bit for each block of the disk, in 32-bit words, 1024 to
a block of the map. The words of all its blocks are numbered through, so word
`j` of block `i` is `data (i * WORDS_BLOCK + j)` and the bit of block number `n`
is `Bitmap.bit data n`. The count of free blocks lives in the superblock.

`passertMsg` panics, so the statements after a failed one are not modelled.
-/

namespace K42

open Bitmap

/-- `OS_BLOCK_SIZE`, in bytes. -/
abbrev OS_BLOCK_SIZE : ℕ := 4096

/-- `BLKBIT_BLOCK`, the block number of the first block of the map. -/
abbrev BLKBIT_BLOCK : ℕ := 3

/-- `OS_BLOCK_SIZE / sizeof(uval32)`. -/
abbrev WORDS_BLOCK : ℕ := OS_BLOCK_SIZE / 4

/-- `OS_BLOCK_SIZE * 8`. -/
abbrev BITS_BLOCK : ℕ := OS_BLOCK_SIZE * 8

/-- `CEIL(n, d)`. -/
def CEIL (n d : ℕ) : ℕ := (n + d - 1) / d

/-! ## The block map -/

structure BlockMap where
  data : ℕ → BitVec 32
  lastAlloc : ℕ
  numBlocks : ℕ
  numBits : ℕ

namespace BlockMap

/-- The constructor and `init`: the blocks of the map hold what is on the disk. -/
def init (disk : ℕ → BitVec 32) (num_blocks : ℕ) : BlockMap where
  data := disk
  lastAlloc := 0
  numBlocks := CEIL num_blocks (4096 * 8)
  numBits := 8 * OS_BLOCK_SIZE * CEIL num_blocks (4096 * 8)

/-- `memset(buf, 0, OS_BLOCK_SIZE)` on block `i`. -/
def zero (data : ℕ → BitVec 32) (i : ℕ) : ℕ → BitVec 32 :=
  fun j => if j / WORDS_BLOCK = i then 0#32 else data j

/-- The loop over `blocks`, which sets the low bits of a word from the top. -/
def setLow (bufv : BitVec 32) : ℕ → BitVec 32
  | 0 => bufv
  | blocks + 1 => setLow (bufv ||| 1#32 <<< blocks) blocks

/-- The first `numReserved` bits of block `i`: whole words, then single bits. -/
def reserve (data : ℕ → BitVec 32) (i numReserved : ℕ) : ℕ → BitVec 32 :=
  let buf := i * WORDS_BLOCK
  let chunks := numReserved / 32
  let filled := fun j => if buf ≤ j ∧ j < buf + chunks then BitVec.allOnes 32 else data j
  Function.update filled (buf + chunks) (setLow (filled (buf + chunks)) (numReserved % 32))

/-- The loop of `format` from block `i` on, with `n` blocks to go. -/
def formatFrom (blkCount : ℕ) :
    ℕ → ℕ → ℕ → (ℕ → BitVec 32) → Except Failure (ℕ → BitVec 32)
  | 0, _, _, data => .ok data
  | n + 1, i, numReserved, data =>
    if blkCount < (i + 1) * OS_BLOCK_SIZE then .error (.serror 2802 0 .E0)
    else if numReserved ≠ 0 then
      formatFrom blkCount n (i + 1) 0 (reserve (zero data i) i numReserved)
    else formatFrom blkCount n (i + 1) numReserved (zero data i)

/-- `format`. -/
def format (bm : BlockMap) (numReserved blkCount : ℕ) : Except Failure BlockMap :=
  (formatFrom blkCount bm.numBlocks 0 numReserved bm.data).map fun data => { bm with data }

/-- The inner loop of `allocOne` on the block at `buf`, at word `j` with `n` words
to go: the first word that is not full. -/
def notFull (data : ℕ → BitVec 32) (buf : ℕ) : ℕ → ℕ → Option ℕ
  | 0, _ => none
  | n + 1, j => if data (buf + j) ≠ BitVec.allOnes 32 then some j else notFull data buf n (j + 1)

/-- The search loop of `allocOne`: the block and the word at which it breaks,
`none` when it comes back to the block `blkno` it began with. -/
def search (bm : BlockMap) (blkno : ℕ) : ℕ → ℕ → Option (ℕ × ℕ)
  | 0, _ => none
  | fuel + 1, i =>
    match notFull bm.data (i * WORDS_BLOCK) WORDS_BLOCK 0 with
    | some j => some (i, j)
    | none =>
      if (i + 1) % bm.numBlocks ≠ blkno then search bm blkno fuel ((i + 1) % bm.numBlocks)
      else none

/-- `allocOne`. -/
def allocOne (bm : BlockMap) : Except Failure (BlockMap × ℕ) :=
  let start := bm.lastAlloc / BITS_BLOCK
  if ¬ start < bm.numBlocks then .error .passert
  else
    match bm.search start bm.numBlocks start with
    | none => .error .passert
    | some (i, j) =>
      let word := i * WORDS_BLOCK + j
      let k := lowClear (bm.data word)
      let blkno := k + j * 32 + i * OS_BLOCK_SIZE * 8
      if blkno = 0 then .error .passert
      else
        .ok ({ bm with
               data := Function.update bm.data word (bm.data word ||| 1#32 <<< k)
               lastAlloc := (blkno + 1) % bm.numBits }, blkno)

/-- The mask of `n` bits from bit `k` up. A shift by 32 or more gives no bit. -/
def maskFrom (k : ℕ) : ℕ → BitVec 32
  | 0 => 0#32
  | n + 1 => maskFrom k n ||| 1#32 <<< (k + n)

/-- The mask that `free` makes for the word it is at. -/
def freeMask (index length : ℕ) : BitVec 32 :=
  if index % 32 = 0 ∧ length ≥ 32 then BitVec.allOnes 32
  else if length < 32 then maskFrom (index % 32) length
  else maskFrom (index % 32) (32 - index % 32)

/-- How many bits of the range `free` takes to be done with a word. -/
def freeStep (index length : ℕ) : ℕ :=
  if length < 32 then length else 32 - index % 32

/-- The inner loop of `free`: `n` words from `word` on. -/
def freeWords : ℕ → ℕ → ℕ → ℕ → (ℕ → BitVec 32) → (ℕ → BitVec 32) × ℕ × ℕ
  | 0, _, index, length, data => (data, index, length)
  | n + 1, word, index, length, data =>
    freeWords n (word + 1) (index + freeStep index length) (length - freeStep index length)
      (Function.update data word (data word &&& ~~~freeMask index length))

/-- The outer loop of `free`: `n` blocks from block `i` on, the first of them
from word `mask_i` on, each up to word `mask_max`. -/
def freeBlocks (mask_max : ℕ) : ℕ → ℕ → ℕ → ℕ → ℕ → (ℕ → BitVec 32) → (ℕ → BitVec 32)
  | 0, _, _, _, _, data => data
  | n + 1, i, mask_i, index, length, data =>
    let r := freeWords (mask_max + 1 - mask_i) (i * WORDS_BLOCK + mask_i) index length data
    freeBlocks mask_max n (i + 1) 0 r.2.1 r.2.2 r.1

/-- `free`. -/
def free (bm : BlockMap) (blkno len : ℕ) : Except Failure BlockMap :=
  let block_i := blkno / BITS_BLOCK
  let last := MachineWord.sub 64 (blkno + len) 1
  let block_max := last / BITS_BLOCK
  let mask_i := blkno % BITS_BLOCK / 32
  if ¬ (block_i < bm.numBlocks ∧ block_max < bm.numBlocks ∧ mask_i < BITS_BLOCK / 32) then
    .error .passert
  else
    let mask_max := if block_i = block_max then last % BITS_BLOCK / 32
      else BITS_BLOCK / 32 - 1
    .ok { bm with
          data := freeBlocks mask_max (block_max + 1 - block_i) block_i mask_i blkno len bm.data
          lastAlloc := if bm.lastAlloc > blkno then blkno else bm.lastAlloc }

end BlockMap

/-! ## The superblock -/

structure SuperBlock where
  numBlocks : ℕ
  freeBlocks : ℕ
  recMap : ℕ
  bmap : BlockMap

namespace SuperBlock

/-- The entries of `blockMapBlocks` that a block has room for. -/
abbrev MAP_ENTRIES : ℕ := (OS_BLOCK_SIZE - 64) / 4

/-- The blocks that `format` reserves in the map: those before the map and the
map itself. -/
def reserved (sb : SuperBlock) : ℕ := sb.bmap.numBlocks + BLKBIT_BLOCK

/-- `allocBlock`. -/
def allocBlock (sb : SuperBlock) : Except Failure (SuperBlock × ℕ) :=
  if sb.freeBlocks = 0 then .error .passert
  else
    match sb.bmap.allocOne with
    | .error e => .error e
    | .ok (bmap, blkno) =>
      .ok ({ sb with bmap, freeBlocks := MachineWord.sub 32 sb.freeBlocks 1 }, blkno)

/-- `freeBlock`. -/
def freeBlock (sb : SuperBlock) (blkno : ℕ) : Except Failure SuperBlock :=
  if blkno = 0 ∨ blkno > sb.numBlocks then .error .passert
  else
    match sb.bmap.free blkno 1 with
    | .error e => .error e
    | .ok bmap => .ok { sb with bmap, freeBlocks := MachineWord.add 32 sb.freeBlocks 1 }

/-- The two blocks of `RecordMap::locationAlloc`: the metadata of the record map
and the first block of its bitmap. -/
def locationAlloc (sb : SuperBlock) : Except Failure SuperBlock := do
  let (sb, blkno) ← sb.allocBlock
  let (sb, _) ← sb.allocBlock
  return { sb with recMap := blkno }

/-- `format`, on a disk of `numBlocks` blocks with `disk` in the blocks of the
map. A map of more blocks than the superblock lists runs past its end. -/
def format (disk : ℕ → BitVec 32) (numBlocks : ℕ) : Except Failure SuperBlock :=
  let bmap := BlockMap.init disk numBlocks
  if bmap.numBlocks > MAP_ENTRIES then .error .fault
  else
    match bmap.format (bmap.numBlocks + BLKBIT_BLOCK) numBlocks with
    | .error e => .error e
    | .ok bmap =>
      let freeBlocks := MachineWord.sub 32 numBlocks (bmap.numBlocks + BLKBIT_BLOCK)
      locationAlloc { numBlocks, freeBlocks, recMap := 0, bmap }

end SuperBlock

/-! ## What `format` leaves in the map -/

namespace BlockMap

variable {n j b : ℕ} {data : ℕ → BitVec 32} {bm : BlockMap}

theorem getLsbD_setLow (hn : n ≤ 32) (bufv : BitVec 32) (k : ℕ) :
    (setLow bufv n).getLsbD k = (bufv.getLsbD k || decide (k < n)) := by
  induction n generalizing bufv with
  | zero => simp [setLow]
  | succ n ih =>
    rw [setLow, ih (by omega), BitVec.getLsbD_or, getLsbD_one_shiftLeft (by omega), Bool.or_assoc]
    congr 1
    rw [← Bool.decide_or]
    exact decide_eq_decide.mpr (by omega)

theorem bit_zero (data : ℕ → BitVec 32) (i n : ℕ) :
    bit (zero data i) n = if n / BITS_BLOCK = i then false else bit data n := by
  have hdiv : n / 32 / WORDS_BLOCK = n / BITS_BLOCK := Nat.div_div_eq_div_mul n 32 WORDS_BLOCK
  unfold bit zero
  rw [hdiv]
  by_cases hi : n / BITS_BLOCK = i
  · rw [if_pos hi, if_pos hi]
    simp
  · rw [if_neg hi, if_neg hi]

theorem bit_reserve (data : ℕ → BitVec 32) {r : ℕ} (n : ℕ) :
    bit (reserve data 0 r) n = (bit data n || decide (n < r)) := by
  unfold bit reserve
  simp only [Nat.zero_mul, Nat.zero_add, Nat.zero_le, true_and]
  have hr := Nat.div_add_mod r 32
  have hn := Nat.div_add_mod n 32
  have hrlt := Nat.mod_lt r (show 0 < 32 by decide)
  have hnlt := Nat.mod_lt n (show 0 < 32 by decide)
  -- the word of `n` is before, at, or after the word with the last reserved bits
  rcases Nat.lt_trichotomy (n / 32) (r / 32) with hlt | heq | hgt
  · rw [Function.update_of_ne (by omega), if_pos hlt, BitVec.getLsbD_allOnes]
    simp only [hnlt, decide_true]
    rw [decide_eq_true (show n < r by omega), Bool.or_true]
  · rw [heq, Function.update_self, if_neg (lt_irrefl _), getLsbD_setLow (by omega)]
    congr 1
    exact decide_eq_decide.mpr (by omega)
  · rw [Function.update_of_ne (by omega), if_neg (by omega),
      decide_eq_false (show ¬ n < r by omega), Bool.or_false]

theorem formatFrom_zero {blkCount i : ℕ} {data' : ℕ → BitVec 32}
    (h : formatFrom blkCount n i 0 data = .ok data') :
    (0 < n → (i + n) * OS_BLOCK_SIZE ≤ blkCount) ∧
      ∀ b, bit data' b =
        if i ≤ b / BITS_BLOCK ∧ b / BITS_BLOCK < i + n then false else bit data b := by
  induction n generalizing i data with
  | zero =>
    cases h
    refine ⟨by omega, ?_⟩
    intro b
    rw [if_neg (by omega)]
  | succ n ih =>
    unfold formatFrom at h
    by_cases hcount : blkCount < (i + 1) * OS_BLOCK_SIZE
    · rw [if_pos hcount] at h
      cases h
    · rw [if_neg hcount, if_neg (not_not.mpr rfl)] at h
      obtain ⟨hle, hbits⟩ := ih h
      constructor
      · intro _
        rcases Nat.eq_zero_or_pos n with rfl | hn
        · exact not_lt.mp hcount
        · rw [show i + (n + 1) = i + 1 + n by omega]
          exact hle hn
      · intro b
        rw [hbits b, bit_zero]
        by_cases hi : b / BITS_BLOCK = i
        · rw [if_neg (by omega), if_pos hi, if_pos (by omega)]
        · rw [if_neg hi]
          exact if_congr (by omega) rfl rfl

theorem format_spec {bm' : BlockMap} {r blkCount : ℕ} (hr : r ≠ 0) (hle : r ≤ BITS_BLOCK)
    (hpos : 0 < bm.numBlocks) (h : bm.format r blkCount = .ok bm') :
    bm.numBlocks * OS_BLOCK_SIZE ≤ blkCount ∧ bm' = { bm with data := bm'.data } ∧
      ∀ b < BITS_BLOCK * bm.numBlocks, bit bm'.data b = decide (b < r) := by
  obtain ⟨data', hloop, rfl⟩ := map_eq_ok h
  obtain ⟨n, hn⟩ : ∃ n, bm.numBlocks = n + 1 := ⟨_, (Nat.succ_pred_eq_of_pos hpos).symm⟩
  rw [hn] at hloop ⊢
  unfold formatFrom at hloop
  by_cases hcount : blkCount < (0 + 1) * OS_BLOCK_SIZE
  · rw [if_pos hcount] at hloop
    cases hloop
  · rw [if_neg hcount, if_pos hr] at hloop
    obtain ⟨hcnt, hbits⟩ := formatFrom_zero hloop
    refine ⟨?_, rfl, ?_⟩
    · rcases Nat.eq_zero_or_pos n with rfl | hpos
      · exact not_lt.mp hcount
      · rw [Nat.add_comm n 1]
        exact hcnt hpos
    · intro b hb
      have hblock : b / BITS_BLOCK < n + 1 := Nat.div_lt_of_lt_mul hb
      show bit data' b = _
      rw [hbits b, bit_reserve, bit_zero]
      by_cases h0 : b / BITS_BLOCK = 0
      · rw [if_neg (by omega), if_pos h0, Bool.false_or]
      · have hge : BITS_BLOCK ≤ b := by
          by_contra hlt
          exact h0 (Nat.div_eq_of_lt (not_le.mp hlt))
        rw [if_pos ⟨Nat.pos_of_ne_zero h0, by omega⟩, decide_eq_false (by omega)]

/-! ## `allocOne` takes the lowest clear bit -/

theorem block_word (b : ℕ) : b / BITS_BLOCK * WORDS_BLOCK + b % BITS_BLOCK / 32 = b / 32 := by
  unfold BITS_BLOCK WORDS_BLOCK OS_BLOCK_SIZE
  omega

theorem word_lt (b : ℕ) : b % BITS_BLOCK / 32 < WORDS_BLOCK := by
  unfold BITS_BLOCK WORDS_BLOCK OS_BLOCK_SIZE
  omega

theorem notFull_eq_none {buf : ℕ}
    (h : ∀ k, j ≤ k → k < j + n → data (buf + k) = BitVec.allOnes 32) :
    notFull data buf n j = none := by
  induction n generalizing j with
  | zero => rfl
  | succ n ih =>
    rw [notFull, if_neg (not_not.mpr (h j (le_refl j) (by omega)))]
    apply ih
    intro k hk hlt
    exact h k (by omega) (by omega)

theorem notFull_eq_some {buf m : ℕ} (hj : j ≤ m) (hm : m < j + n)
    (hnot : data (buf + m) ≠ BitVec.allOnes 32)
    (h : ∀ k, j ≤ k → k < m → data (buf + k) = BitVec.allOnes 32) :
    notFull data buf n j = some m := by
  induction n generalizing j with
  | zero => omega
  | succ n ih =>
    rw [notFull]
    by_cases heq : j = m
    · rw [heq, if_pos hnot]
    · rw [if_neg (not_not.mpr (h j (le_refl j) (by omega)))]
      apply ih (by omega) (by omega)
      intro k hk hlt
      exact h k (by omega) hlt

/-- The blocks of the map before that of the lowest clear bit are full, and its
word is the first of its block that is not. -/
theorem notFull_of_lowest (hclear : bit data b = false) (hlow : ∀ n < b, bit data n = true) :
    (∀ i < b / BITS_BLOCK, notFull data (i * WORDS_BLOCK) WORDS_BLOCK 0 = none) ∧
      notFull data (b / BITS_BLOCK * WORDS_BLOCK) WORDS_BLOCK 0 = some (b % BITS_BLOCK / 32) := by
  obtain ⟨hfull, hnot, -⟩ := word_of_lowest (show 0 < 32 by decide) hclear hlow
  have hword := block_word b
  constructor
  · intro i hi
    apply notFull_eq_none
    intro k _ hk
    have hle : (i + 1) * WORDS_BLOCK ≤ b / BITS_BLOCK * WORDS_BLOCK := Nat.mul_le_mul_right _ hi
    rw [Nat.succ_mul] at hle
    exact hfull _ (by omega)
  · apply notFull_eq_some (Nat.zero_le _)
    · rw [Nat.zero_add]
      exact word_lt b
    · rw [hword]
      exact hnot
    · intro k _ hk
      exact hfull _ (by omega)

theorem search_spec {q blkno fuel i : ℕ}
    (hfull : ∀ i < q, notFull bm.data (i * WORDS_BLOCK) WORDS_BLOCK 0 = none)
    (hfind : notFull bm.data (q * WORDS_BLOCK) WORDS_BLOCK 0 = some j)
    (hq : q < bm.numBlocks) (hblk : blkno ≤ i) (hi : i ≤ q) (hfuel : q < fuel + i) :
    bm.search blkno fuel i = some (q, j) := by
  induction fuel generalizing i with
  | zero => omega
  | succ fuel ih =>
    unfold search
    by_cases heq : i = q
    · rw [heq, hfind]
    · rw [hfull i (by omega)]
      have hmod : (i + 1) % bm.numBlocks = i + 1 := Nat.mod_eq_of_lt (by omega)
      simp only [hmod]
      rw [if_pos (by omega)]
      exact ih (by omega) (by omega) (by omega)

/-- `bm` with block `b` taken. -/
def take (bm : BlockMap) (b : ℕ) : BlockMap :=
  { bm with data := setBit bm.data b, lastAlloc := (b + 1) % bm.numBits }

theorem allocOne_spec (hclear : bit bm.data b = false)
    (hlow : ∀ n < b, bit bm.data n = true) (hb : b / BITS_BLOCK < bm.numBlocks) (hpos : b ≠ 0)
    (hlast : bm.lastAlloc ≤ b) : bm.allocOne = .ok (bm.take b, b) := by
  have hstart : bm.lastAlloc / BITS_BLOCK ≤ b / BITS_BLOCK := Nat.div_le_div_right hlast
  obtain ⟨-, -, hk⟩ := word_of_lowest (show 0 < 32 by decide) hclear hlow
  obtain ⟨hfull, hfind⟩ := notFull_of_lowest hclear hlow
  have hblkno : b % 32 + b % BITS_BLOCK / 32 * 32 + b / BITS_BLOCK * OS_BLOCK_SIZE * 8 = b := by
    unfold BITS_BLOCK OS_BLOCK_SIZE
    omega
  unfold allocOne
  rw [if_neg (by omega), search_spec hfull hfind hb (le_refl _) hstart
    (Nat.lt_add_right _ hb)]
  simp only [block_word, hk, hblkno]
  rw [if_neg hpos]
  rfl

/-- `bm` with block `b` given back. -/
def give (bm : BlockMap) (b : ℕ) : BlockMap :=
  { bm with data := clearBit bm.data b, lastAlloc := min bm.lastAlloc b }

theorem freeBlocks_one (mask_max i mask_i index length : ℕ) (data : ℕ → BitVec 32) :
    freeBlocks mask_max 1 i mask_i index length data =
      (freeWords (mask_max + 1 - mask_i) (i * WORDS_BLOCK + mask_i) index length data).1 :=
  rfl

theorem freeWords_one (word index length : ℕ) (data : ℕ → BitVec 32) :
    (freeWords 1 word index length data).1 =
      Function.update data word (data word &&& ~~~freeMask index length) :=
  rfl

theorem freeMask_one (index : ℕ) : freeMask index 1 = 1#32 <<< (index % 32) := by
  rw [freeMask, if_neg (by omega), if_pos (by decide)]
  show 0#32 ||| 1#32 <<< (index % 32) = _
  rw [BitVec.zero_or]

theorem free_one (hb : b / BITS_BLOCK < bm.numBlocks) (hlt : b < 2 ^ 32) :
    bm.free b 1 = .ok (bm.give b) := by
  have hlast : MachineWord.sub 64 (b + 1) 1 = b := by
    rw [MachineWord.sub_of_le (by omega) (by omega)]
    rfl
  have hmask : b % BITS_BLOCK / 32 < BITS_BLOCK / 32 := word_lt b
  unfold free
  rw [hlast, if_neg (not_not.mpr ⟨hb, hb, hmask⟩), if_pos rfl, Nat.add_sub_cancel_left]
  dsimp only
  rw [freeBlocks_one, Nat.add_sub_cancel_left, freeWords_one, block_word, freeMask_one]
  have hmin : (if bm.lastAlloc > b then b else bm.lastAlloc) = min bm.lastAlloc b := by
    by_cases h : bm.lastAlloc > b
    · rw [if_pos h, Nat.min_eq_right (Nat.le_of_lt h)]
    · rw [if_neg h, Nat.min_eq_left (not_lt.mp h)]
  rw [hmin]
  rfl

end BlockMap

/-! ## The invariant -/

namespace SuperBlock

/-- What ties the hint, the map and the counter together: no block below the
hint is free, the reserved blocks are not free, and the counter counts the
free blocks of the disk. -/
structure Inv (sb : SuperBlock) : Prop where
  numBits_eq : sb.bmap.numBits = BITS_BLOCK * sb.bmap.numBlocks
  numBlocks_le : sb.numBlocks ≤ sb.bmap.numBits
  numBlocks_lt : sb.numBlocks < 2 ^ 32
  lastAlloc_lt : sb.bmap.lastAlloc < sb.bmap.numBits
  below : ∀ n < sb.bmap.lastAlloc, bit sb.bmap.data n = true
  reserved_set : ∀ n < sb.reserved, bit sb.bmap.data n = true
  count : sb.freeBlocks = clearCount sb.bmap.data sb.numBlocks

variable {sb : SuperBlock}

variable {b r n : ℕ} {sb' : SuperBlock}

theorem Inv.block_lt (h : sb.Inv) (hb : b < sb.numBlocks) :
    b / BITS_BLOCK < sb.bmap.numBlocks := by
  apply Nat.div_lt_of_lt_mul
  rw [← h.numBits_eq]
  exact lt_of_lt_of_le hb h.numBlocks_le

theorem Inv.exists_lowest (h : sb.Inv) (hfree : 0 < sb.freeBlocks) :
    ∃ b < sb.numBlocks, bit sb.bmap.data b = false ∧ ∀ n < b, bit sb.bmap.data n = true := by
  rw [h.count, clearCount, Finset.card_pos] at hfree
  obtain ⟨c, hc⟩ := hfree
  obtain ⟨hlt, hclear⟩ := Finset.mem_filter.mp hc
  have hex : ∃ b, bit sb.bmap.data b = false := ⟨c, hclear⟩
  refine ⟨Nat.find hex, ?_, Nat.find_spec hex, ?_⟩
  · exact lt_of_le_of_lt (Nat.find_min' hex hclear) (Finset.mem_range.mp hlt)
  · intro n hn
    exact Bool.eq_true_of_not_eq_false (Nat.find_min hex hn)

theorem ne_zero_of_reserved_le (h : sb.reserved ≤ b) : b ≠ 0 := by
  have hpos : 0 < sb.reserved := Nat.add_pos_right _ (by decide)
  omega

/-- `sb` with block `b` taken from the map. -/
def take (sb : SuperBlock) (b : ℕ) : SuperBlock :=
  { sb with bmap := sb.bmap.take b, freeBlocks := sb.freeBlocks - 1 }

/-- `sb` with block `b` given back to the map. -/
def give (sb : SuperBlock) (b : ℕ) : SuperBlock :=
  { sb with bmap := sb.bmap.give b, freeBlocks := sb.freeBlocks + 1 }

theorem Inv.freeBlocks_lt (h : sb.Inv) : sb.freeBlocks < 2 ^ 32 := by
  apply lt_of_le_of_lt _ h.numBlocks_lt
  rw [h.count]
  exact clearCount_le _ _

/-- `allocBlock` succeeds while the count is not zero, with the lowest free block
of the disk. -/
theorem Inv.allocBlock (h : sb.Inv) (hfree : 0 < sb.freeBlocks) :
    ∃ b < sb.numBlocks, sb.reserved ≤ b ∧ bit sb.bmap.data b = false ∧
      (∀ n < b, bit sb.bmap.data n = true) ∧ sb.allocBlock = .ok (sb.take b, b) := by
  obtain ⟨b, hlt, hclear, hlow⟩ := h.exists_lowest hfree
  have hset : ∀ {n}, bit sb.bmap.data n = true → n ≠ b := by
    rintro n hn rfl
    rw [hclear] at hn
    cases hn
  have hreserved : sb.reserved ≤ b := by
    by_contra hb
    exact hset (h.reserved_set b (not_le.mp hb)) rfl
  have hlast : sb.bmap.lastAlloc ≤ b := by
    by_contra hb
    exact hset (h.below b (not_le.mp hb)) rfl
  have hpos := ne_zero_of_reserved_le hreserved
  refine ⟨b, hlt, hreserved, hclear, hlow, ?_⟩
  unfold SuperBlock.allocBlock
  rw [if_neg (by omega), BlockMap.allocOne_spec hclear hlow (h.block_lt hlt) hpos hlast]
  dsimp only
  rw [MachineWord.sub_of_le h.freeBlocks_lt hfree]
  rfl

theorem Inv.take (h : sb.Inv) (hb : b < sb.numBlocks)
    (hclear : bit sb.bmap.data b = false) (hlow : ∀ n < b, bit sb.bmap.data n = true) :
    (sb.take b).Inv where
  numBits_eq := h.numBits_eq
  numBlocks_le := h.numBlocks_le
  numBlocks_lt := h.numBlocks_lt
  lastAlloc_lt := Nat.mod_lt _ (by have := h.lastAlloc_lt; omega)
  below := by
    intro n hn
    have hle : (b + 1) % sb.bmap.numBits ≤ b + 1 := Nat.mod_le _ _
    have hn' : n < b + 1 := lt_of_lt_of_le hn hle
    show bit (setBit sb.bmap.data b) n = true
    rw [bit_setBit (by decide)]
    by_cases heq : n = b
    · simp [heq]
    · simp [hlow n (by omega)]
  reserved_set := by
    intro n hn
    show bit (setBit sb.bmap.data b) n = true
    rw [bit_setBit (by decide), h.reserved_set n hn, Bool.true_or]
  count := by
    show sb.freeBlocks - 1 = clearCount (setBit sb.bmap.data b) sb.numBlocks
    rw [h.count, ← clearCount_setBit (by decide) hb hclear, Nat.add_sub_cancel]

theorem Inv.freeBlock (h : sb.Inv) (hb : b < sb.numBlocks) (hres : sb.reserved ≤ b)
    (hset : bit sb.bmap.data b = true) : sb.freeBlock b = .ok (sb.give b) ∧ (sb.give b).Inv := by
  have hcount : clearCount (clearBit sb.bmap.data b) sb.numBlocks = sb.freeBlocks + 1 := by
    rw [h.count]
    exact clearCount_clearBit (by decide) hb hset
  have hpos := ne_zero_of_reserved_le hres
  have hinv : (sb.give b).Inv :=
    { numBits_eq := h.numBits_eq
      numBlocks_le := h.numBlocks_le
      numBlocks_lt := h.numBlocks_lt
      lastAlloc_lt := lt_of_le_of_lt (Nat.min_le_left _ _) h.lastAlloc_lt
      below := by
        intro n hn
        have hn' : n < min sb.bmap.lastAlloc b := hn
        show bit (clearBit sb.bmap.data b) n = true
        rw [bit_clearBit (by decide), h.below n (by omega), decide_eq_false (by omega)]
        rfl
      reserved_set := by
        intro n hn
        have hne : n ≠ b := Nat.ne_of_lt (lt_of_lt_of_le hn hres)
        show bit (clearBit sb.bmap.data b) n = true
        rw [bit_clearBit (by decide), h.reserved_set n hn, decide_eq_false hne]
        rfl
      count := hcount.symm }
  refine ⟨?_, hinv⟩
  have hlt : sb.freeBlocks + 1 < 2 ^ 32 := hinv.freeBlocks_lt
  unfold SuperBlock.freeBlock
  rw [if_neg (by omega), BlockMap.free_one (h.block_lt hb) (lt_trans hb h.numBlocks_lt)]
  dsimp only
  rw [MachineWord.add_of_lt hlt]
  rfl

/-! ## The formatted disk -/

theorem Inv.of_allocBlock (h : sb.Inv) (halloc : sb.allocBlock = .ok (sb', b)) :
    sb'.Inv ∧ sb'.numBlocks = sb.numBlocks ∧ sb'.reserved = sb.reserved := by
  rcases Nat.eq_zero_or_pos sb.freeBlocks with h0 | hpos
  · rw [SuperBlock.allocBlock, if_pos h0] at halloc
    cases halloc
  · obtain ⟨c, hlt, -, hclear, hlow, hok⟩ := h.allocBlock hpos
    rw [hok] at halloc
    cases halloc
    exact ⟨h.take hlt hclear hlow, rfl, rfl⟩

theorem Inv.locationAlloc (h : sb.Inv) (hloc : sb.locationAlloc = .ok sb') :
    sb'.Inv ∧ sb'.numBlocks = sb.numBlocks := by
  unfold SuperBlock.locationAlloc at hloc
  cases hfst : sb.allocBlock with
  | error e =>
    rw [hfst] at hloc
    cases hloc
  | ok r₁ =>
    obtain ⟨h₁, hn₁, -⟩ := h.of_allocBlock hfst
    rw [hfst] at hloc
    change (r₁.1.allocBlock >>= _) = _ at hloc
    cases hsnd : r₁.1.allocBlock with
    | error e =>
      rw [hsnd] at hloc
      cases hloc
    | ok r₂ =>
      obtain ⟨h₂, hn₂, -⟩ := h₁.of_allocBlock hsnd
      rw [hsnd] at hloc
      cases hloc
      refine ⟨?_, hn₂.trans hn₁⟩
      exact ⟨h₂.numBits_eq, h₂.numBlocks_le, h₂.numBlocks_lt, h₂.lastAlloc_lt, h₂.below,
        h₂.reserved_set, h₂.count⟩

theorem le_CEIL_mul (n : ℕ) : n ≤ BITS_BLOCK * CEIL n (4096 * 8) := by
  unfold CEIL BITS_BLOCK OS_BLOCK_SIZE
  omega

theorem numBlocks_of_format {bm bm' : BlockMap} {blkCount : ℕ}
    (h : bm.format r blkCount = .ok bm') : bm'.numBlocks = bm.numBlocks := by
  obtain ⟨data, -, rfl⟩ := map_eq_ok h
  rfl

theorem locationAlloc_of_numBlocks_eq_zero (h : sb.bmap.numBlocks = 0) :
    sb.locationAlloc ≠ .ok sb' := by
  intro hloc
  have herr : sb.allocBlock = .error .passert := by
    unfold SuperBlock.allocBlock BlockMap.allocOne
    rw [h, if_pos (Nat.not_lt_zero _)]
    split <;> rfl
  unfold SuperBlock.locationAlloc at hloc
  rw [herr] at hloc
  cases hloc

theorem initial_inv {data : ℕ → BitVec 32} {nb : ℕ} (hnb : nb = CEIL n (4096 * 8))
    (hpos : 0 < nb) (hentries : nb ≤ MAP_ENTRIES) (hcount : nb * OS_BLOCK_SIZE ≤ n)
    (hbits : ∀ b < BITS_BLOCK * nb, bit data b = decide (b < nb + BLKBIT_BLOCK)) :
    Inv ⟨n, MachineWord.sub 32 n (nb + BLKBIT_BLOCK), 0, ⟨data, 0, nb, BITS_BLOCK * nb⟩⟩ := by
  have hle : n ≤ BITS_BLOCK * nb := by
    rw [hnb]
    exact le_CEIL_mul n
  have hlt : n < 2 ^ 32 := by
    unfold BITS_BLOCK OS_BLOCK_SIZE at hle
    unfold MAP_ENTRIES OS_BLOCK_SIZE at hentries
    omega
  have hres : nb + BLKBIT_BLOCK ≤ n := by
    unfold OS_BLOCK_SIZE at hcount
    unfold BLKBIT_BLOCK
    omega
  refine ⟨rfl, hle, hlt, Nat.mul_pos (by decide) hpos, ?_, ?_, ?_⟩
  · intro b hb
    exact absurd hb (Nat.not_lt_zero b)
  · intro b hb
    have hb' : b < nb + BLKBIT_BLOCK := hb
    show bit data b = true
    rw [hbits b (by omega), decide_eq_true hb']
  · show MachineWord.sub 32 n (nb + BLKBIT_BLOCK) = clearCount data n
    rw [MachineWord.sub_of_le hlt hres]
    symm
    apply clearCount_of_initial
    intro b hb
    exact hbits b (by omega)

theorem format_inv {disk : ℕ → BitVec 32} (h : format disk n = .ok sb) :
    sb.Inv ∧ sb.numBlocks = n := by
  unfold format at h
  by_cases hentries : (BlockMap.init disk n).numBlocks > MAP_ENTRIES
  · rw [if_pos hentries] at h
    cases h
  rw [if_neg hentries] at h
  cases hbm : (BlockMap.init disk n).format ((BlockMap.init disk n).numBlocks + BLKBIT_BLOCK) n with
  | error e =>
    rw [hbm] at h
    cases h
  | ok bm =>
    rw [hbm] at h
    dsimp only at h
    rcases Nat.eq_zero_or_pos (CEIL n (4096 * 8)) with h0 | hpos
    · -- a map without blocks: the first allocation finds no block to search
      exact absurd h (locationAlloc_of_numBlocks_eq_zero ((numBlocks_of_format hbm).trans h0))
    · have hreserved : CEIL n (4096 * 8) + BLKBIT_BLOCK ≤ BITS_BLOCK :=
        le_trans (Nat.add_le_add_right (not_lt.mp hentries) _) (by decide)
      obtain ⟨hcount, hsame, hbits⟩ :=
        BlockMap.format_spec (Nat.succ_ne_zero _) hreserved hpos hbm
      rw [hsame] at h
      exact (initial_inv rfl hpos (not_lt.mp hentries) hcount hbits).locationAlloc h

/-! ## Runs of allocations and frees -/

inductive Op
  | allocBlock
  | freeBlock (blkno : ℕ)
deriving DecidableEq

/-- A superblock, and the blocks that `allocBlock` has returned and that have not
been freed since. -/
structure State where
  sb : SuperBlock
  out : List ℕ

/-- One call. A call that fails panics and leaves the state as it is. -/
def step (s : State) : Op → State
  | .allocBlock =>
    match s.sb.allocBlock with
    | .ok (sb, b) => ⟨sb, b :: s.out⟩
    | .error _ => s
  | .freeBlock b =>
    match s.sb.freeBlock b with
    | .ok sb => ⟨sb, s.out.erase b⟩
    | .error _ => s

/-- Only blocks that are allocated and not reserved are freed. -/
def Freeable (sb : SuperBlock) (b : ℕ) : Prop :=
  sb.reserved ≤ b ∧ b < sb.numBlocks ∧ bit sb.bmap.data b = true

instance (sb : SuperBlock) (b : ℕ) : Decidable (sb.Freeable b) :=
  inferInstanceAs (Decidable (_ ∧ _))

/-- Callers may allocate at any time. -/
def Op.Adm (s : State) : Op → Prop
  | .allocBlock => True
  | .freeBlock b => s.sb.Freeable b

instance (s : State) : (op : Op) → Decidable (op.Adm s)
  | .allocBlock => inferInstanceAs (Decidable True)
  | .freeBlock b => inferInstanceAs (Decidable (s.sb.Freeable b))

def machine : Machine State Op where
  step := step
  adm s op := op.Adm s

instance (s : State) (op : Op) : Decidable (machine.adm s op) :=
  inferInstanceAs (Decidable (op.Adm s))

/-- The invariant of a run on a disk of `n` blocks, the first `r` reserved. -/
structure State.Inv (n r : ℕ) (s : State) : Prop where
  sb : s.sb.Inv
  numBlocks_eq : s.sb.numBlocks = n
  reserved_eq : s.sb.reserved = r
  nodup : s.out.Nodup
  out_set : ∀ b ∈ s.out, bit s.sb.bmap.data b = true

theorem step_inv {s : State} {op : Op} (h : s.Inv n r) (hadm : op.Adm s) : (step s op).Inv n r := by
  cases op with
  | allocBlock =>
    rcases Nat.eq_zero_or_pos s.sb.freeBlocks with h0 | hpos
    · have hstep : step s .allocBlock = s := by
        simp only [step, SuperBlock.allocBlock, if_pos h0]
      rw [hstep]
      exact h
    · obtain ⟨b, hlt, -, hclear, hlow, hok⟩ := h.sb.allocBlock hpos
      have hstep : step s .allocBlock = ⟨s.sb.take b, b :: s.out⟩ := by
        simp only [step, hok]
      rw [hstep]
      refine ⟨h.sb.take hlt hclear hlow, h.numBlocks_eq, h.reserved_eq, ?_, ?_⟩
      · refine List.nodup_cons.mpr ⟨?_, h.nodup⟩
        intro hmem
        rw [h.out_set b hmem] at hclear
        cases hclear
      · intro c hc
        show bit (setBit s.sb.bmap.data b) c = true
        rw [bit_setBit (by decide)]
        rcases List.mem_cons.mp hc with rfl | hc
        · simp
        · rw [h.out_set c hc, Bool.true_or]
  | freeBlock b =>
    obtain ⟨hres, hlt, hset⟩ := hadm
    obtain ⟨hok, hinv⟩ := h.sb.freeBlock hlt hres hset
    have hstep : step s (.freeBlock b) = ⟨s.sb.give b, s.out.erase b⟩ := by
      simp only [step, hok]
    rw [hstep]
    refine ⟨hinv, h.numBlocks_eq, h.reserved_eq, h.nodup.erase b, ?_⟩
    intro c hc
    obtain ⟨hne, hc⟩ := h.nodup.mem_erase_iff.mp hc
    show bit (clearBit s.sb.bmap.data b) c = true
    rw [bit_clearBit (by decide), h.out_set c hc, decide_eq_false hne]
    rfl

/-- What the block map promises in a state: the count is right; while it is not
zero an allocation succeeds, with a block of the disk that is free, not reserved
and not out; and a block that may be freed is freed. -/
structure Allocates (n r : ℕ) (s : State) : Prop where
  count : s.sb.freeBlocks = clearCount s.sb.bmap.data n
  allocBlock : 0 < s.sb.freeBlocks → ∃ sb' b, s.sb.allocBlock = .ok (sb', b) ∧
    b < n ∧ bit s.sb.bmap.data b = false ∧ r ≤ b ∧ b ∉ s.out
  freeBlock : ∀ b, s.sb.Freeable b → ∃ sb', s.sb.freeBlock b = .ok sb'
  nodup : s.out.Nodup

theorem State.Inv.allocates {s : State} (h : s.Inv n r) : Allocates n r s where
  count := by
    rw [h.sb.count, h.numBlocks_eq]
  allocBlock := by
    intro hpos
    obtain ⟨b, hlt, hres, hclear, -, hok⟩ := h.sb.allocBlock hpos
    rw [h.numBlocks_eq] at hlt
    rw [h.reserved_eq] at hres
    refine ⟨_, b, hok, hlt, hclear, hres, ?_⟩
    intro hmem
    rw [h.out_set b hmem] at hclear
    cases hclear
  freeBlock := by
    rintro b ⟨hres, hlt, hset⟩
    exact ⟨_, (h.sb.freeBlock hlt hres hset).1⟩
  nodup := h.nodup

/-- From a formatted disk, whatever blocks are allocated and freed. -/
theorem run_allocates {disk : ℕ → BitVec 32} {n : ℕ} {sb₀ : SuperBlock}
    (hformat : format disk n = .ok sb₀) {ops : List Op} {s : State}
    (hrun : machine.Run ⟨sb₀, []⟩ ops s) : Allocates n (sb₀.reserved) s := by
  obtain ⟨hinv, hn⟩ := format_inv hformat
  have h : s.Inv n sb₀.reserved := by
    refine hrun.invariant (I := State.Inv n sb₀.reserved) ?_ ?_
    · exact ⟨hinv, hn, rfl, List.nodup_nil, by simp⟩
    · intro s op h hadm
      exact step_inv h hadm
  exact h.allocates

/-- Two blocks are taken, the first is given back and taken again. -/
def takeAgain : List Op := [.allocBlock, .allocBlock, .freeBlock 6, .allocBlock]

theorem run_allocates_takeAgain :
    ∃ sb₀, format (fun _ => 0#32) 4096 = .ok sb₀ ∧ machine.Admits ⟨sb₀, []⟩ takeAgain ∧
      (takeAgain.foldl step ⟨sb₀, []⟩).out = [6, 7] ∧
      Allocates 4096 sb₀.reserved (takeAgain.foldl step ⟨sb₀, []⟩) := by
  have hrun : (format (fun _ => 0#32) 4096).toOption.any (fun sb =>
      decide (machine.Admits ⟨sb, []⟩ takeAgain ∧
        (takeAgain.foldl step ⟨sb, []⟩).out = [6, 7])) = true := by
    decide +kernel
  cases hformat : format (fun _ => 0#32) 4096 with
  | error e =>
    rw [hformat] at hrun
    cases hrun
  | ok sb₀ =>
    rw [hformat] at hrun
    obtain ⟨hadm, hout⟩ := of_decide_eq_true hrun
    exact ⟨sb₀, rfl, hadm, hout, run_allocates hformat hadm.run⟩

end SuperBlock

end K42
