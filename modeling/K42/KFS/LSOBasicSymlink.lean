import K42.KFS.RecordMap
import K42.KFS.SuperBlock

/-!
# Symbolic links

A link of at most 28 bytes is kept in the record of the link itself, one of at most 868 bytes in
further records of 124 bytes, whose ids are kept in its place, and a longer one in a block. Each
side works out how many records there are from a length of its own.

What `allocBlock` returns is given. The times, owners and modes of the link, and the locks, are
left out.
-/

namespace K42

open RecordMap Bitmap

/-- `LSO_RECORD_MISC_SPACE`, the bytes of a record that the status of an object leaves. -/
abbrev LSO_RECORD_MISC_SPACE : ℕ := 28

/-- `OT_SYMLINK_EXT`. -/
abbrev OT_SYMLINK_EXT : ℕ := 22

namespace LSOBasicSymlink

/-- `FAST_SYMLINK_SIZE`. -/
abbrev FAST_SYMLINK_SIZE : ℕ := LSO_RECORD_MISC_SPACE

/-- `MED_SYMLINK_SIZE`; an `ObjTokenID` has four bytes. -/
abbrev MED_SYMLINK_SIZE : ℕ := FAST_SYMLINK_SIZE / 4 * KFS_RECORD_SIZE

/-- The record of a link. `value`, `ext` and `blkno` share their bytes; the size says which of them
is in use. -/
structure LSOBasicSymlinkStruct where
  nlink : ℕ
  size : ℕ
  value : ℕ → UInt8
  ext : ℕ → ℕ
  blkno : ℕ

/-- `setObjTokenID`. -/
def LSOBasicSymlinkStruct.setObjTokenID (s : LSOBasicSymlinkStruct) (id i : ℕ) :
    LSOBasicSymlinkStruct :=
  { s with ext := Function.update s.ext i id }

/-- The record map, and the blocks as the block cache shows them. -/
structure Globals where
  recordMap : RecordMap
  blocks : ℕ → ℕ → UInt8

/-- The records and the blocks that a call has allocated, or released. -/
structure Held where
  records : List ℕ
  blocks : List ℕ

/-! ## The calls -/

/-- How many bytes of record `i` are in use, on the side that fills it. -/
def cutSize (sz i : ℕ) : ℕ :=
  if sz < KFS_RECORD_SIZE * (i + 1) then sz - KFS_RECORD_SIZE * i else KFS_RECORD_SIZE

/-- What is written to record `i`; `cutValue` is what is on the stack. -/
def cut (linkValue : ℕ → UInt8) (sz i : ℕ) (cutValue : ℕ → UInt8) : Record :=
  bytesAt (memcpy cutValue 0 (bytesAt linkValue (KFS_RECORD_SIZE * i) (cutSize sz i))) 0
    KFS_RECORD_SIZE

/-- The loop of `initAttribute` over `n` records from record `i` on, with the ids allocated. -/
def extend (linkValue : ℕ → UInt8) (sz : ℕ) (cutValue : ℕ → ℕ → UInt8) :
    ℕ → ℕ → RecordMap → LSOBasicSymlinkStruct → List ℕ →
      Except Failure (RecordMap × LSOBasicSymlinkStruct × List ℕ)
  | 0, _, rm, s, ids => .ok (rm, s, ids)
  | n + 1, i, rm, s, ids =>
    match rm.allocRecord OT_SYMLINK_EXT with
    | .error e => .error e
    | .ok (rm, tmp) =>
      let s := s.setObjTokenID tmp i
      extend linkValue sz cutValue n (i + 1)
        (rm.setRecord (s.ext i) (cut linkValue sz i (cutValue i))) s (ids ++ [tmp])

/-- `initAttribute`, with what it has allocated. `blkno` is what `allocBlock` returns. -/
def initAttribute (g : Globals) (s : LSOBasicSymlinkStruct) (linkValue : List UInt8)
    (cutValue : ℕ → ℕ → UInt8) (blkno : ℕ) :
    Except Failure (Globals × LSOBasicSymlinkStruct × Held) :=
  let bytes := fun k => linkValue.getD k 0
  let s := { s with nlink := 0, size := linkValue.length }
  let sz := s.size
  if sz ≤ FAST_SYMLINK_SIZE then
    .ok (g, { s with value := memcpy s.value 0 (bytesAt bytes 0 sz) }, ⟨[], []⟩)
  else if sz ≤ MED_SYMLINK_SIZE then
    let nrec := (sz + KFS_RECORD_SIZE) / KFS_RECORD_SIZE
    match extend bytes sz cutValue nrec 0 g.recordMap s [] with
    | .error e => .error e
    | .ok (rm, s, ids) => .ok ({ g with recordMap := rm }, s, ⟨ids, []⟩)
  else if sz ≤ OS_BLOCK_SIZE then
    .ok ({ g with
           blocks := Function.update g.blocks blkno
             (memcpy (g.blocks blkno) 0 (bytesAt bytes 0 sz)) },
      { s with blkno := blkno }, ⟨[], [blkno]⟩)
  else .error (.serror 2768 0 .ENAMETOOLONG)

/-- How many bytes of record `i` are copied, on the side that reads it. -/
def glueSize (linkSize buflen i : ℕ) : ℕ :=
  if linkSize < KFS_RECORD_SIZE * (i + 1) then buflen - KFS_RECORD_SIZE * i else KFS_RECORD_SIZE

/-- One turn of the loop of `readlink`. -/
def glueOne (rm : RecordMap) (s : LSOBasicSymlinkStruct) (buflen i : ℕ) (buffer : ℕ → UInt8) :
    ℕ → UInt8 :=
  let cutValue := memcpy (fun _ => 0) 0 (rm.getRecord (s.ext i))
  memcpy buffer (KFS_RECORD_SIZE * i) (bytesAt cutValue 0 (glueSize s.size buflen i))

/-- The loop of `readlink` over `n` records from record `i` on. -/
def glue (rm : RecordMap) (s : LSOBasicSymlinkStruct) (buflen : ℕ) :
    ℕ → ℕ → (ℕ → UInt8) → (ℕ → UInt8)
  | 0, _, buffer => buffer
  | n + 1, i, buffer => glue rm s buflen n (i + 1) (glueOne rm s buflen i buffer)

/-- `readlink`: the memory from `buffer` on afterwards, and the size of the link. -/
def readlink (g : Globals) (s : LSOBasicSymlinkStruct) (buffer : ℕ → UInt8) (buflen : ℕ) :
    Except Failure ((ℕ → UInt8) × ℕ) :=
  let linkSize := s.size
  let buflen := if buflen > linkSize then linkSize else buflen
  if linkSize ≤ FAST_SYMLINK_SIZE then
    .ok (memcpy buffer 0 (bytesAt s.value 0 buflen), linkSize)
  else if linkSize ≤ MED_SYMLINK_SIZE then
    let nrec := (buflen + KFS_RECORD_SIZE) / KFS_RECORD_SIZE
    .ok (glue g.recordMap s buflen nrec 0 buffer, linkSize)
  else if linkSize ≤ OS_BLOCK_SIZE then
    .ok (memcpy buffer 0 (bytesAt (g.blocks s.blkno) 0 buflen), linkSize)
  else .error .passert

/-- `deleteFile` of the link with record `id`: what it releases. It returns `-1` if there are
links to it. -/
def deleteFile (s : LSOBasicSymlinkStruct) (id : ℕ) : Option Held :=
  let linkSize := s.size
  if s.nlink ≠ 0 then none
  else if linkSize > FAST_SYMLINK_SIZE then
    if linkSize ≤ MED_SYMLINK_SIZE then
      let nrec := (linkSize + KFS_RECORD_SIZE) / KFS_RECORD_SIZE
      some ⟨(List.range nrec).map s.ext ++ [id], []⟩
    else if linkSize ≤ OS_BLOCK_SIZE then some ⟨[id], [s.blkno]⟩
    else some ⟨[id], []⟩
  else some ⟨[id], []⟩

/-! ## Bytes -/

theorem memcpy_bytesAt (dst src : ℕ → UInt8) (off off' len k : ℕ) :
    memcpy dst off (bytesAt src off' len) k =
      if off ≤ k ∧ k < off + len then src (off' + (k - off)) else dst k := by
  unfold memcpy bytesAt
  split <;> rfl

theorem cut_apply (linkValue cutValue : ℕ → UInt8) {sz i : ℕ} {k : Fin KFS_RECORD_SIZE}
    (hk : KFS_RECORD_SIZE * i + k < sz) :
    cut linkValue sz i cutValue k = linkValue (KFS_RECORD_SIZE * i + k) := by
  have hlt := k.isLt
  show memcpy cutValue 0 (bytesAt linkValue (KFS_RECORD_SIZE * i) (cutSize sz i)) (0 + k) = _
  rw [memcpy_bytesAt, if_pos]
  · congr 1
    omega
  · unfold cutSize
    split <;> omega

/-! ## Records allocated one after the other -/

/-- The record is in use. -/
def Allocated (rm : RecordMap) (id : ℕ) : Prop :=
  id < rm.pages * RMAP_BITS_PAGE ∧ bit rm.bitmap id = true

theorem setRecordType_pages (rm : RecordMap) (id type : ℕ) :
    (rm.setRecordType id type).pages = rm.pages := by
  unfold setRecordType
  split <;> rfl

theorem setRecordType_bitmap (rm : RecordMap) (id type : ℕ) :
    (rm.setRecordType id type).bitmap = rm.bitmap := by
  unfold setRecordType
  split <;> rfl

theorem setRecord_pages (rm : RecordMap) (id : ℕ) (rec : Record) :
    (rm.setRecord id rec).pages = rm.pages := by
  unfold setRecord
  split <;> rfl

theorem setRecord_bitmap (rm : RecordMap) (id : ℕ) (rec : Record) :
    (rm.setRecord id rec).bitmap = rm.bitmap := by
  unfold setRecord
  split <;> rfl

/-- What an allocation and the write to the new record leave alone. -/
structure Adds (rm rm' : RecordMap) (id : ℕ) : Prop where
  pages_max : rm'.pages ≤ RMAP_BITMAP_BLOCKS
  fresh : ¬ Allocated rm id
  allocated : Allocated rm' id
  kept : ∀ x, Allocated rm x → Allocated rm' x ∧ rm'.getRecord x = rm.getRecord x

theorem adds_of_allocRecord {rm rm' : RecordMap} {id type : ℕ} (rec : Record)
    (hpages : rm.pages ≤ RMAP_BITMAP_BLOCKS) (h : rm.allocRecord type = .ok (rm', id)) :
    Adds rm (rm'.setRecord id rec) id := by
  unfold allocRecord at h
  cases hinternal : rm.internal_allocRecord with
  | error e =>
    rw [hinternal] at h
    cases h
  | ok r =>
    rw [hinternal] at h
    cases h
    have htakes := takes_of_allocRecord hpages hinternal
    have hbits : ∀ x, Allocated ((r.1.setRecordType r.2 type).setRecord r.2 rec) x ↔
        Allocated r.1 x := by
      intro x
      unfold Allocated
      rw [setRecord_pages, setRecord_bitmap, setRecordType_pages, setRecordType_bitmap]
    have hfresh : ¬ Allocated rm r.2 := by
      rintro ⟨hlt, hbit⟩
      rw [htakes.free hlt] at hbit
      cases hbit
    constructor
    · rw [setRecord_pages, setRecordType_pages]
      exact htakes.pages_max
    · exact hfresh
    · rw [hbits]
      refine ⟨htakes.lt, ?_⟩
      rw [htakes.bits _ htakes.lt]
      simp
    · intro x hx
      rw [hbits]
      constructor
      · have hlt : x < r.1.pages * RMAP_BITS_PAGE :=
          lt_of_lt_of_le hx.1 (Nat.mul_le_mul_right _ htakes.pages_le)
        refine ⟨hlt, ?_⟩
        rw [htakes.bits x hlt]
        simp [hx.1, hx.2]
      · have hne : x ≠ r.2 := by
          rintro rfl
          exact hfresh hx
        rw [getRecord_setRecord_of_ne _ rec hne, getRecord_setRecordType]
        unfold getRecord readBlockCache
        rw [htakes.pso, htakes.psoRecord]

/-- What the loop of `initAttribute` has done after `n` records from record `i` on. -/
structure Extended (linkValue : ℕ → UInt8) (sz i n : ℕ) (rm rm' : RecordMap)
    (s s' : LSOBasicSymlinkStruct) : Prop where
  nlink : s'.nlink = s.nlink
  size : s'.size = s.size
  before : ∀ j < i, s'.ext j = s.ext j
  kept : ∀ x, Allocated rm x → Allocated rm' x ∧ rm'.getRecord x = rm.getRecord x
  record : ∀ j, i ≤ j → j < i + n → ∀ k : Fin KFS_RECORD_SIZE, KFS_RECORD_SIZE * j + k < sz →
    rm'.getRecord (s'.ext j) k = linkValue (KFS_RECORD_SIZE * j + k)

variable {cutValue : ℕ → ℕ → UInt8} {g g' : Globals} {s s' : LSOBasicSymlinkStruct} {held : Held}
  {blkno : ℕ}

theorem extend_spec {linkValue : ℕ → UInt8} {sz : ℕ} {n : ℕ} :
    ∀ {i : ℕ} {rm rm' : RecordMap} {s s' : LSOBasicSymlinkStruct} {ids ids' : List ℕ},
      rm.pages ≤ RMAP_BITMAP_BLOCKS →
      extend linkValue sz cutValue n i rm s ids = .ok (rm', s', ids') →
      ids' = ids ++ (List.range' i n).map s'.ext ∧ Extended linkValue sz i n rm rm' s s' := by
  induction n with
  | zero =>
    intro i rm rm' s s' ids ids' _ hok
    cases hok
    refine ⟨(List.append_nil ids).symm, rfl, rfl, fun _ _ => rfl, fun _ hx => ⟨hx, rfl⟩, ?_⟩
    intro j hij hj
    exact absurd hj (not_lt.mpr hij)
  | succ n ih =>
    intro i rm rm' s s' ids ids' hpages hok
    rw [extend] at hok
    cases halloc : rm.allocRecord OT_SYMLINK_EXT with
    | error e =>
      rw [halloc] at hok
      cases hok
    | ok r =>
      rw [halloc] at hok
      dsimp only at hok
      have hset : (s.setObjTokenID r.2 i).ext i = r.2 := Function.update_self ..
      rw [hset] at hok
      have hadds := adds_of_allocRecord (cut linkValue sz i (cutValue i)) hpages halloc
      obtain ⟨hids, hrest⟩ := ih hadds.pages_max hok
      have hext : s'.ext i = r.2 := (hrest.before i (Nat.lt_succ_self i)).trans hset
      constructor
      · rw [hids, List.append_assoc, List.range'_succ, List.map_cons, hext]
        rfl
      constructor
      · exact hrest.nlink
      · exact hrest.size
      · intro j hj
        rw [hrest.before j (hj.trans (Nat.lt_succ_self i))]
        exact Function.update_of_ne hj.ne _ _
      · intro x hx
        obtain ⟨hx', hrec⟩ := hadds.kept x hx
        obtain ⟨hx'', hrec'⟩ := hrest.kept x hx'
        exact ⟨hx'', hrec'.trans hrec⟩
      · intro j hij hj k hk
        by_cases hji : j = i
        · subst hji
          rw [hext, (hrest.kept _ hadds.allocated).2, getRecord_setRecord_self]
          exact cut_apply linkValue (cutValue j) hk
        · exact hrest.record j (by omega) (by omega) k hk

/-! ## Reading them back -/

theorem glue_succ (rm : RecordMap) (s : LSOBasicSymlinkStruct) (buflen n : ℕ) :
    ∀ (i : ℕ) (buffer : ℕ → UInt8), glue rm s buflen (n + 1) i buffer =
      glueOne rm s buflen (i + n) (glue rm s buflen n i buffer) := by
  induction n with
  | zero => exact fun _ _ => rfl
  | succ n ih =>
    intro i buffer
    rw [glue, ih, glue, Nat.add_right_comm i 1 n, Nat.add_assoc i n 1]

variable {rm : RecordMap} {s : LSOBasicSymlinkStruct} {linkValue : ℕ → UInt8} {buflen : ℕ}

theorem glueOne_apply {i : ℕ} (hle : glueSize s.size buflen i ≤ KFS_RECORD_SIZE)
    (hrecord : ∀ k : Fin KFS_RECORD_SIZE, k < glueSize s.size buflen i →
      rm.getRecord (s.ext i) k = linkValue (KFS_RECORD_SIZE * i + k)) (buffer : ℕ → UInt8) (k : ℕ) :
    glueOne rm s buflen i buffer k =
      if KFS_RECORD_SIZE * i ≤ k ∧ k < KFS_RECORD_SIZE * i + glueSize s.size buflen i then
        linkValue k
      else buffer k := by
  rw [glueOne, memcpy_bytesAt]
  split
  · next hin =>
      have hlt : k - KFS_RECORD_SIZE * i < KFS_RECORD_SIZE := by omega
      have hpos : 0 ≤ 0 + (k - KFS_RECORD_SIZE * i) ∧
          0 + (k - KFS_RECORD_SIZE * i) < 0 + KFS_RECORD_SIZE := by omega
      rw [memcpy, dif_pos hpos]
      have hval := hrecord ⟨k - KFS_RECORD_SIZE * i, hlt⟩ (by
        show k - KFS_RECORD_SIZE * i < _
        omega)
      have hadd : KFS_RECORD_SIZE * i + (k - KFS_RECORD_SIZE * i) = k := by omega
      dsimp only at hval
      rw [hadd] at hval
      rw [← hval]
      congr 1
      ext
      show 0 + (k - KFS_RECORD_SIZE * i) - 0 = k - KFS_RECORD_SIZE * i
      omega
  · rfl

theorem glue_full (hrecord : ∀ j, KFS_RECORD_SIZE * (j + 1) ≤ s.size → ∀ k : Fin KFS_RECORD_SIZE,
      rm.getRecord (s.ext j) k = linkValue (KFS_RECORD_SIZE * j + k)) {n : ℕ}
    (hn : KFS_RECORD_SIZE * n ≤ s.size) (buffer : ℕ → UInt8) (k : ℕ) :
    glue rm s buflen n 0 buffer k =
      if k < KFS_RECORD_SIZE * n then linkValue k else buffer k := by
  induction n with
  | zero => rfl
  | succ n ih =>
    have hsucc : KFS_RECORD_SIZE * (n + 1) = KFS_RECORD_SIZE * n + KFS_RECORD_SIZE :=
      Nat.mul_succ ..
    have hsize : glueSize s.size buflen n = KFS_RECORD_SIZE := if_neg (by omega)
    rw [glue_succ, Nat.zero_add, glueOne_apply (by omega) (fun k _ => hrecord n hn k), hsize,
      ih (by omega)]
    by_cases hk : k < KFS_RECORD_SIZE * n
    · rw [if_neg (by omega), if_pos hk, if_pos (by omega)]
    · rw [if_neg hk]
      exact if_congr (by omega) rfl rfl

/-! ## The round trip -/

/-- What a link of `linkValue` does that `initAttribute` has made: its records fit into `room`
slots, reading it writes its first bytes and no others, and deleting it releases what it holds and
the record `id` of the link itself. -/
structure RoundTrips (g : Globals) (s : LSOBasicSymlinkStruct) (held : Held)
    (linkValue : List UInt8) (buflen room id : ℕ) : Prop where
  slots : held.records.length ≤ room
  reads : ∀ buffer, readlink g s buffer buflen =
    .ok (fun k => if k < min buflen linkValue.length then linkValue.getD k 0 else buffer k,
      linkValue.length)
  releases : deleteFile s id = some ⟨held.records ++ [id], held.blocks⟩

/-- The link is one of those that records hold. -/
def Medium (linkValue : List UInt8) : Prop :=
  FAST_SYMLINK_SIZE < linkValue.length ∧ linkValue.length ≤ MED_SYMLINK_SIZE

theorem min_eq_ite (n len : ℕ) : (if n > len then len else n) = min n len := by
  split <;> omega

theorem memcpy_eq (buffer src : ℕ → UInt8) (len : ℕ) :
    memcpy buffer 0 (bytesAt src 0 len) = fun k => if k < len then src k else buffer k := by
  funext k
  rw [memcpy_bytesAt]
  simp

theorem roundTrips_of_fast {linkValue : List UInt8} (buflen room id : ℕ)
    (hfast : linkValue.length ≤ FAST_SYMLINK_SIZE)
    (hinit : initAttribute g s linkValue cutValue blkno = .ok (g', s', held)) :
    RoundTrips g' s' held linkValue buflen room id := by
  unfold initAttribute at hinit
  rw [if_pos hfast] at hinit
  cases hinit
  constructor
  · exact Nat.zero_le room
  · intro buffer
    unfold readlink
    dsimp only
    rw [if_pos hfast, min_eq_ite, memcpy_eq, memcpy_eq]
    congr 2
    funext k
    split
    · next hk => exact if_pos (lt_of_lt_of_le hk (Nat.min_le_right _ _))
    · rfl
  · unfold deleteFile
    rw [if_neg (by simp), if_neg (not_lt.mpr hfast)]
    rfl

theorem roundTrips_of_slow {linkValue : List UInt8} (buflen room id : ℕ)
    (hmed : MED_SYMLINK_SIZE < linkValue.length) (hslow : linkValue.length ≤ OS_BLOCK_SIZE)
    (hinit : initAttribute g s linkValue cutValue blkno = .ok (g', s', held)) :
    RoundTrips g' s' held linkValue buflen room id := by
  have hfast : FAST_SYMLINK_SIZE < linkValue.length := lt_trans (by decide) hmed
  unfold initAttribute at hinit
  rw [if_neg (not_le.mpr hfast), if_neg (not_le.mpr hmed), if_pos hslow] at hinit
  cases hinit
  constructor
  · exact Nat.zero_le room
  · intro buffer
    unfold readlink
    dsimp only
    rw [if_neg (not_le.mpr hfast), if_neg (not_le.mpr hmed), if_pos hslow, min_eq_ite,
      Function.update_self, memcpy_eq, memcpy_eq]
    congr 2
    funext k
    split
    · next hk => exact if_pos (lt_of_lt_of_le hk (Nat.min_le_right _ _))
    · rfl
  · unfold deleteFile
    rw [if_neg (by simp), if_pos hfast, if_neg (not_le.mpr hmed), if_pos hslow]
    rfl

/-- What `readlink` leaves in the buffer, out of the records of a link. It goes wrong where the
buffer ends in an earlier record than the link: the last record that it reads is copied whole. -/
theorem glue_eq_iff (linkValue : ℕ → UInt8) {len : ℕ} (hsize : s.size = len)
    (hrecord : ∀ j < len / 124 + 1, ∀ k : Fin KFS_RECORD_SIZE, 124 * j + k < len →
      rm.getRecord (s.ext j) k = linkValue (124 * j + k)) {m : ℕ} (hm : m ≤ len) :
    (∀ buffer, glue rm s m (m / 124 + 1) 0 buffer =
        fun k => if k < m then linkValue k else buffer k) ↔ m / 124 = len / 124 := by
  have hfull : ∀ n, 124 * n ≤ len → ∀ buffer k, glue rm s m n 0 buffer k =
      if k < 124 * n then linkValue k else buffer k := by
    intro n hn
    rw [← hsize] at hn
    refine glue_full (fun j hj k => ?_) hn
    have hk : k.val < 124 := k.isLt
    have hend : 124 * (j + 1) ≤ len := hsize ▸ hj
    exact hrecord j (by omega) k (by omega)
  constructor
  · intro hall
    by_contra hne
    -- the byte behind the buffer is overwritten, whatever it was
    have hbyte := congrFun (hall fun k => linkValue k + 1) m
    rw [hfull _ (by omega), if_pos (by omega), if_neg (lt_irrefl m)] at hbyte
    have hone : (1 : UInt8) = 0 := by
      have hsum : linkValue m + 1 = linkValue m + 0 := by rw [← hbyte, UInt8.add_zero]
      exact (UInt8.add_right_inj _).mp hsum
    exact absurd hone (by decide)
  · intro hsame buffer
    have hlast : glueSize s.size m (m / 124) = m - 124 * (m / 124) := by
      have hshort : len < 124 * (m / 124 + 1) := by omega
      rw [hsize]
      exact if_pos hshort
    have hpart : ∀ k : Fin KFS_RECORD_SIZE, k < glueSize s.size m (m / 124) →
        rm.getRecord (s.ext (m / 124)) k = linkValue (124 * (m / 124) + k) := by
      intro k hk
      rw [hlast] at hk
      exact hrecord _ (by omega) k (by omega)
    have hle : glueSize s.size m (m / 124) ≤ 124 := by
      rw [hlast]
      omega
    have hone := glueOne_apply hle hpart
    rw [hlast] at hone
    funext k
    rw [glue_succ, Nat.zero_add, hone, hfull _ (by omega)]
    change (if 124 * (m / 124) ≤ k ∧ k < 124 * (m / 124) + (m - 124 * (m / 124)) then
      linkValue k else _) = _
    by_cases hk : k < 124 * (m / 124)
    · rw [if_neg (by omega), if_pos hk, if_pos (by omega)]
    · rw [if_neg hk]
      exact if_congr (by omega) rfl rfl

theorem roundTrips_iff_of_medium {linkValue : List UInt8} (buflen room id : ℕ)
    (hpages : g.recordMap.pages ≤ RMAP_BITMAP_BLOCKS) (hmedium : Medium linkValue)
    (hinit : initAttribute g s linkValue cutValue blkno = .ok (g', s', held)) :
    RoundTrips g' s' held linkValue buflen room id ↔
      linkValue.length / 124 < room ∧
        min buflen linkValue.length / 124 = linkValue.length / 124 := by
  obtain ⟨hfast, hmed⟩ := hmedium
  have hcount : ∀ n, (n + KFS_RECORD_SIZE) / KFS_RECORD_SIZE = n / 124 + 1 := by
    intro n
    exact Nat.add_div_right n (by decide)
  unfold initAttribute at hinit
  dsimp only at hinit
  rw [if_neg (not_le.mpr hfast), if_pos hmed, hcount] at hinit
  cases hext : extend (fun k => linkValue.getD k 0) linkValue.length cutValue
      (linkValue.length / 124 + 1) 0 g.recordMap
      { s with nlink := 0, size := linkValue.length } [] with
  | error e =>
    rw [hext] at hinit
    cases hinit
  | ok r =>
    rw [hext] at hinit
    cases hinit
    obtain ⟨hids, hnlink, hsize, -, -, hrecord⟩ := extend_spec hpages hext
    rw [List.nil_append, ← List.range_eq_range'] at hids
    have hrecord' : ∀ j < linkValue.length / 124 + 1, ∀ k : Fin KFS_RECORD_SIZE,
        124 * j + k < linkValue.length → r.1.getRecord (r.2.1.ext j) k =
          (fun k => linkValue.getD k 0) (124 * j + k) :=
      fun j hj k hk => hrecord j (Nat.zero_le j) (by rwa [Nat.zero_add]) k hk
    have hsize' : r.2.1.size = linkValue.length := hsize
    have hglue := glue_eq_iff (fun k => linkValue.getD k 0) hsize' hrecord'
      (Nat.min_le_right buflen linkValue.length)
    have hreads : (∀ buffer, readlink { g with recordMap := r.1 } r.2.1 buffer buflen =
        .ok (fun k => if k < min buflen linkValue.length then linkValue.getD k 0 else buffer k,
          linkValue.length)) ↔
        min buflen linkValue.length / 124 =
          linkValue.length / 124 := by
      rw [← hglue]
      refine forall_congr' fun buffer => ?_
      unfold readlink
      dsimp only at hsize ⊢
      rw [hsize, if_neg (not_le.mpr hfast), if_pos hmed, min_eq_ite, hcount]
      simp only [Except.ok.injEq, Prod.mk.injEq, and_true]
    have hreleases : deleteFile r.2.1 id = some ⟨r.2.2 ++ [id], []⟩ := by
      unfold deleteFile
      dsimp only at hnlink hsize ⊢
      rw [hnlink, hsize, if_neg (not_not.mpr rfl), if_pos hfast, if_pos hmed, hcount, ← hids]
    have hslots : r.2.2.length ≤ room ↔ linkValue.length / 124 < room := by
      rw [hids, List.length_map, List.length_range]
      exact Iff.rfl
    rw [← hreads, ← hslots]
    constructor
    · exact fun h => ⟨h.slots, h.reads⟩
    · exact fun h => ⟨h.1, h.2, hreleases⟩

theorem run_pages {ops : List RecordMap.Op} {l : Ledger}
    (hrun : Ledger.anyCalls.Run Ledger.start ops l) : l.rm.pages ≤ RMAP_BITMAP_BLOCKS := by
  refine hrun.invariant (I := fun l => l.rm.pages ≤ RMAP_BITMAP_BLOCKS) (by decide) ?_
  intro l op hle _
  cases op with
  | allocRecord type =>
    show (Ledger.step l (.allocRecord type)).rm.pages ≤ RMAP_BITMAP_BLOCKS
    unfold Ledger.step
    dsimp only
    cases halloc : l.rm.allocRecord type with
    | error e => exact hle
    | ok r =>
      have hadds := (adds_of_allocRecord (r.1.getRecord r.2) hle halloc).pages_max
      rwa [setRecord_pages] at hadds
  | setRecord id rec =>
    show (l.rm.setRecord id rec).pages ≤ RMAP_BITMAP_BLOCKS
    rwa [setRecord_pages]
  | setRecordType id type =>
    show (l.rm.setRecordType id type).pages ≤ RMAP_BITMAP_BLOCKS
    rwa [setRecordType_pages]
  | freeRecord id =>
    show (Ledger.step l (.freeRecord id)).rm.pages ≤ RMAP_BITMAP_BLOCKS
    unfold Ledger.step
    dsimp only
    cases hfree : l.rm.freeRecord id with
    | error e => exact hle
    | ok r =>
      have hsame : r.1.pages = l.rm.pages := by
        unfold freeRecord at hfree
        dsimp only at hfree
        split at hfree
        · cases hfree
        · split at hfree
          · cases hfree
          · split at hfree <;> cases hfree <;> rfl
      exact hsame.trans_le hle

/-- A link that `initAttribute` has made on a record map that the calls have built is read and
deleted as it should be exactly if it is not one of those that records hold, or these fit into the
slots and the buffer ends in the record that the link ends in. -/
theorem run_roundTrips_iff {ops : List RecordMap.Op} {l : Ledger} {blocks : ℕ → ℕ → UInt8}
    {g' : Globals} {s s' : LSOBasicSymlinkStruct} {held : Held} {linkValue : List UInt8}
    {cutValue : ℕ → ℕ → UInt8} {blkno : ℕ} (hrun : Ledger.anyCalls.Run Ledger.start ops l)
    (hlen : linkValue.length ≤ OS_BLOCK_SIZE)
    (hinit : initAttribute ⟨l.rm, blocks⟩ s linkValue cutValue blkno = .ok (g', s', held))
    (buflen room id : ℕ) :
    RoundTrips g' s' held linkValue buflen room id ↔
      (Medium linkValue → linkValue.length / 124 < room ∧
        min buflen linkValue.length / 124 = linkValue.length / 124) := by
  by_cases hmedium : Medium linkValue
  · rw [roundTrips_iff_of_medium buflen room id (run_pages hrun) hmedium hinit]
    exact ⟨fun h _ => h, fun h => h hmedium⟩
  · refine iff_of_true ?_ (fun h => absurd h hmedium)
    by_cases hfast : linkValue.length ≤ FAST_SYMLINK_SIZE
    · exact roundTrips_of_fast buflen room id hfast hinit
    · have hmed : MED_SYMLINK_SIZE < linkValue.length :=
        not_le.mp fun hle => hmedium ⟨not_le.mp hfast, hle⟩
      exact roundTrips_of_slow buflen room id hmed hlen hinit

/-- The record of a new link. -/
def newLink : LSOBasicSymlinkStruct := ⟨0, 0, fun _ => 0, fun _ => 0, 0⟩

/-- `r` is a link of `len` bytes made on an empty record map. -/
def MadeOf (len : ℕ) (r : Globals × LSOBasicSymlinkStruct × Held) : Prop :=
  initAttribute ⟨Ledger.start.rm, fun _ _ => 0⟩ newLink (List.replicate len 97) (fun _ _ => 0) 0 =
    .ok r

theorem exists_of_isSome {α : Type} {res : Except Failure α} (h : res.toOption.isSome = true) :
    ∃ r, res = .ok r := by
  cases res with
  | error e => cases h
  | ok r => exact ⟨r, rfl⟩

/-- A link of 130 bytes, read into a buffer of 125. -/
theorem run_roundTrips_two_records :
    ∃ r, MadeOf 130 r ∧
      RoundTrips r.1 r.2.1 r.2.2 (List.replicate 130 97) 125 7 1 := by
  obtain ⟨r, hr⟩ : ∃ r, MadeOf 130 r := exists_of_isSome (by decide +kernel)
  refine ⟨r, hr, (run_roundTrips_iff .nil ?_ hr 125 7 1).mpr fun _ => ?_⟩
  · rw [List.length_replicate]
    decide
  · rw [List.length_replicate]
    decide

/-- A link of 200 bytes that is read into a buffer of 50, and one of 868 bytes, which takes eight
slots. -/
theorem not_roundTrips_short_buffer :
    Ledger.anyCalls.Run Ledger.start [] Ledger.start ∧
      (∃ r, MadeOf 200 r ∧ ¬ RoundTrips r.1 r.2.1 r.2.2 (List.replicate 200 97) 50 7 1) ∧
      ∃ r, MadeOf 868 r ∧ ¬ RoundTrips r.1 r.2.1 r.2.2 (List.replicate 868 97) 868 7 1 := by
  have hmedium : ∀ len, FAST_SYMLINK_SIZE < len → len ≤ MED_SYMLINK_SIZE →
      Medium (List.replicate len 97) := by
    intro len hfast hmed
    rw [Medium, List.length_replicate]
    exact ⟨hfast, hmed⟩
  refine ⟨.nil, ?_, ?_⟩
  · obtain ⟨r, hr⟩ : ∃ r, MadeOf 200 r := exists_of_isSome (by decide +kernel)
    refine ⟨r, hr, ?_⟩
    rw [roundTrips_iff_of_medium 50 7 1 (by decide) (hmedium 200 (by decide) (by decide)) hr,
      List.length_replicate]
    decide
  · obtain ⟨r, hr⟩ : ∃ r, MadeOf 868 r := exists_of_isSome (by decide +kernel)
    refine ⟨r, hr, ?_⟩
    rw [roundTrips_iff_of_medium 868 7 1 (by decide) (hmedium 868 (by decide) (by decide)) hr,
      List.length_replicate]
    decide

end LSOBasicSymlink

end K42
