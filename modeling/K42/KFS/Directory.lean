import K42.Lib.Bytes
import K42.KFS.SuperBlock

/-!
# Directories

A directory is a file whose blocks hold chains of records of variable length. A
record starts with the id of an object, the length of the record and the length
of the name, and the name follows. A record reaches to the next one, and a record
of length zero ends the chain. A record without an object is a hole at the start
of its block; other holes are the slack of the record before them.

Blocks of the file that are not there read as zeros. Link counts, times and locks
are left out; see `K42.KFS.Links` for the counts.
-/

namespace K42

open Bytes

namespace LSOBasicDir

/-! ## Directory entries -/

def getOtokID (buf : Buffer) (de : ℕ) : ℕ := decode (read buf de 4)

def setOtokID (buf : Buffer) (de v : ℕ) : Buffer := write buf de (encode 4 v)

def getReclen (buf : Buffer) (de : ℕ) : ℕ := decode (read buf (de + 4) 2)

def setReclen (buf : Buffer) (de rl : ℕ) : Buffer := write buf (de + 4) (encode 2 rl)

def nameLength (buf : Buffer) (de : ℕ) : ℕ := decode (read buf (de + 6) 1)

def setNameLength (buf : Buffer) (de length : ℕ) : Buffer := write buf (de + 6) (encode 1 length)

/-- `memcpy(de->name, fname, length)`. -/
def setName (buf : Buffer) (de : ℕ) (fname : List UInt8) : Buffer := write buf (de + 7) fname

/-- `GetPhysRecLen`: `sizeof(DirEntry) - 256` is `8`, one byte more than the
fields before the name. -/
def GetPhysRecLen (lengthString : ℕ) : ℕ := MachineWord.alignUp 64 (8 + lengthString) 4

/-! ## Blocks -/

/-- The loop of `matchEntry` over one block: where it stops, and the entry before. -/
def matchBlock (buf : Buffer) (fname : List UInt8) :
    ℕ → ℕ → Option ℕ → Except Failure (ℕ × Option ℕ)
  | 0, _, _ => .error .fault
  | fuel + 1, de, prev =>
    if OS_BLOCK_SIZE < de + 7 then .error .fault
    else if getReclen buf de > 0 then
      if getOtokID buf de ≠ 0 ∧ nameLength buf de = fname.length ∧
          read buf (de + 7) fname.length = fname then .ok (de, prev)
      else matchBlock buf fname fuel (de + getReclen buf de) (some de)
    else .ok (de, prev)

/-- `findHole` from the entry `ptr` on: the block with the length of the new entry
set, and where the entry is. -/
def findHoleFrom (buf : Buffer) (length : ℕ) :
    ℕ → ℕ → Except Failure (Option (Buffer × ℕ))
  | 0, _ => .error .fault
  | fuel + 1, ptr =>
    let entryLen := GetPhysRecLen length
    if OS_BLOCK_SIZE < ptr + 7 then .error .fault
    else if getReclen buf ptr > 0 then
      let ptrLen := if getOtokID buf ptr ≠ 0 then GetPhysRecLen (nameLength buf ptr) else 0
      let slack := MachineWord.sub 64 (getReclen buf ptr) ptrLen
      if slack ≥ entryLen then
        let entry := ptr + ptrLen
        let buf' := setNameLength (setReclen buf entry slack) entry length
        .ok (some (if getOtokID buf' ptr ≠ 0 then setReclen buf' ptr ptrLen else buf', entry))
      else findHoleFrom buf length fuel (ptr + getReclen buf ptr)
    else if MachineWord.sub 64 OS_BLOCK_SIZE ptr > entryLen + GetPhysRecLen 0 then
      let buf' := setNameLength (setReclen buf ptr entryLen) ptr length
      .ok (some (setReclen buf' (ptr + getReclen buf' ptr) 0, ptr))
    else .ok none

/-- `findHole`. Every record is longer than zero, so a block has fewer records than bytes. -/
def findHole (buf : Buffer) (length : ℕ) : Except Failure (Option (Buffer × ℕ)) :=
  findHoleFrom buf length OS_BLOCK_SIZE 0

/-- What `locked_deleteEntry` does to the block: the entry before it takes the
entry over; an entry that is alone in its block becomes the end of the chain, and
one that is first loses its object. -/
def removeEntry (buf : Buffer) (entry : ℕ) : Option ℕ → Buffer
  | some prev => setReclen buf prev (getReclen buf prev + getReclen buf entry)
  | none =>
    if getReclen buf (getReclen buf entry) = 0 then setReclen buf entry 0
    else setOtokID buf entry 0

/-- What `locked_createEntry` writes to the entry it has made room for. -/
def fillEntry (buf : Buffer) (entry : ℕ) (fname : List UInt8) (otok : ℕ) : Buffer :=
  setOtokID (setName (setNameLength buf entry fname.length) entry fname) entry otok

/-- The first entry of a new block, and the null entry after it. -/
def newBlock (buf : Buffer) (length : ℕ) : Buffer :=
  let buf := setReclen buf 0 (GetPhysRecLen length)
  let entry := getReclen buf 0
  setReclen (setNameLength (setOtokID buf entry 0) entry 0) entry 0

/-! ## Directories -/

/-- `LSOBasicDir`: the size and the blocks of its file, and where the last search
ended. -/
structure Dir where
  size : ℕ
  blocks : ℕ → Buffer
  startLBlkno : ℕ

/-- An entry that was found: its block, where it is, and the entry before. -/
structure Found where
  blkno : ℕ
  entry : ℕ
  prev : Option ℕ

namespace Dir

def blocksInFile (dir : Dir) : ℕ := (dir.size + OS_BLOCK_SIZE - 1) / OS_BLOCK_SIZE

/-- `writeBlockCache`. -/
def writeBlockCache (dir : Dir) (i : ℕ) (buf : Buffer) : Dir :=
  { dir with blocks := Function.update dir.blocks i buf }

/-- The block that `matchEntry` looks at after block `i`. -/
def nextBlock (blocksInFile i : ℕ) : ℕ := if i + 1 ≥ blocksInFile then 0 else i + 1

/-- The loop of `matchEntry` over the blocks, from block `i` on. -/
def matchFrom (dir : Dir) (fname : List UInt8) (startLBlkno : ℕ) :
    ℕ → ℕ → Except Failure (Option Found)
  | 0, _ => .error .fault
  | fuel + 1, i =>
    match matchBlock (dir.blocks i) fname OS_BLOCK_SIZE 0 none with
    | .error e => .error e
    | .ok (de, prev) =>
      if getOtokID (dir.blocks i) de ≠ 0 ∧ getReclen (dir.blocks i) de ≠ 0 then
        .ok (some ⟨i, de, prev⟩)
      else
        let next := nextBlock dir.blocksInFile i
        if next ≠ startLBlkno then matchFrom dir fname startLBlkno fuel next else .ok none

/-- `matchEntry`; a search that fails leaves the hint where it started. -/
def matchEntry (dir : Dir) (fname : List UInt8) : Except Failure (Dir × Option Found) :=
  let start := if dir.startLBlkno ≥ dir.blocksInFile then 0 else dir.startLBlkno
  match dir.matchFrom fname start (dir.blocksInFile + 1) start with
  | .error e => .error e
  | .ok none => .ok ({ dir with startLBlkno := start }, none)
  | .ok (some found) => .ok ({ dir with startLBlkno := found.blkno }, some found)

/-- `locked_deleteEntry`; a failed search returns `-1` and changes the hint only. -/
def deleteEntry (dir : Dir) (fname : List UInt8) : Except Failure Dir :=
  match dir.matchEntry fname with
  | .error e => .error e
  | .ok (dir, none) => .ok dir
  | .ok (dir, some ⟨i, entry, prev⟩) =>
    .ok (dir.writeBlockCache i (removeEntry (dir.blocks i) entry prev))

/-- `updateEntry`. -/
def updateEntry (dir : Dir) (fname : List UInt8) (otok : ℕ) : Except Failure Dir :=
  match dir.matchEntry fname with
  | .error e => .error e
  | .ok (dir, none) => .ok dir
  | .ok (dir, some ⟨i, entry, _⟩) =>
    .ok (dir.writeBlockCache i (setOtokID (dir.blocks i) entry otok))

/-- The loop of `locked_createEntry` over `n` blocks from block `i` on. -/
def createFrom (dir : Dir) (fname : List UInt8) (otok : ℕ) : ℕ → ℕ → Except Failure Dir
  | 0, i =>
    .ok ({ dir with size := dir.size + OS_BLOCK_SIZE }.writeBlockCache i
      (fillEntry (newBlock (dir.blocks i) fname.length) 0 fname otok))
  | n + 1, i =>
    match findHole (dir.blocks i) fname.length with
    | .error e => .error e
    | .ok (some (buf, entry)) => .ok (dir.writeBlockCache i (fillEntry buf entry fname otok))
    | .ok none => createFrom dir fname otok n (i + 1)

/-- `locked_createEntry`. -/
def createEntry (dir : Dir) (fname : List UInt8) (otok : ℕ) : Except Failure Dir :=
  dir.createFrom fname otok dir.blocksInFile 0

end Dir

/-! ## Records -/

/-- A record, with the name that is stored in it. -/
@[ext] structure Rec where
  id : ℕ
  name : List UInt8
  reclen : ℕ
deriving DecidableEq

/-- The record at `de`. -/
def recordAt (buf : Buffer) (de : ℕ) : Rec where
  id := getOtokID buf de
  name := read buf (de + 7) (nameLength buf de)
  reclen := getReclen buf de

variable {buf buf' : Buffer} {de lo hi v : ℕ} {fname : List UInt8}

variable {n otok fuel len : ℕ} {rs : List Rec} {r : Rec}

theorem getPhysRecLen_bounds (hn : n < 256) :
    8 + n ≤ GetPhysRecLen n ∧ GetPhysRecLen n ≤ 11 + n := by
  have heq : GetPhysRecLen n = (8 + n + 3) / 4 * 4 := by
    unfold GetPhysRecLen MachineWord.alignUp
    rw [MachineWord.sub_of_le (by norm_num) (by norm_num), MachineWord.add_of_lt (by omega)]
    exact MachineWord.andNot_two_pow (k := 2) (by omega) (by norm_num)
  omega

theorem nameLength_lt (buf : Buffer) (de : ℕ) : nameLength buf de < 256 := by
  have hlt := decode_lt (read buf (de + 6) 1)
  rw [length_read] at hlt
  exact hlt

theorem getReclen_lt (buf : Buffer) (de : ℕ) : getReclen buf de < 65536 := by
  have hlt := decode_lt (read buf (de + 4) 2)
  rw [length_read] at hlt
  exact hlt

@[simp] theorem length_recordAt_name (buf : Buffer) (de : ℕ) :
    (recordAt buf de).name.length = nameLength buf de :=
  length_read _ _ _

/-! A write to a field changes that field. -/

theorem setOtokID_eqOutside (buf : Buffer) (de v : ℕ) :
    EqOutside de (de + 4) buf (setOtokID buf de v) := by
  have h := write_eqOutside buf de (encode 4 v)
  rwa [length_encode] at h

theorem setReclen_eqOutside (buf : Buffer) (de v : ℕ) :
    EqOutside (de + 4) (de + 6) buf (setReclen buf de v) := by
  have h := write_eqOutside buf (de + 4) (encode 2 v)
  rwa [length_encode] at h

theorem setNameLength_eqOutside (buf : Buffer) (de v : ℕ) :
    EqOutside (de + 6) (de + 7) buf (setNameLength buf de v) := by
  have h := write_eqOutside buf (de + 6) (encode 1 v)
  rwa [length_encode] at h

theorem setName_eqOutside (buf : Buffer) (de : ℕ) (fname : List UInt8) :
    EqOutside (de + 7) (de + 7 + fname.length) buf (setName buf de fname) :=
  write_eqOutside buf (de + 7) fname

theorem read_write_encode (buf : Buffer) (p n v : ℕ) :
    read (write buf p (encode n v)) p n = encode n v := by
  have h := read_write_self buf p (encode n v)
  rwa [length_encode] at h

theorem getOtokID_setOtokID (hv : v < 2 ^ 32) : getOtokID (setOtokID buf de v) de = v := by
  unfold getOtokID setOtokID
  rw [read_write_encode, decode_encode (by omega)]

theorem getReclen_setReclen (hv : v < 65536) : getReclen (setReclen buf de v) de = v := by
  unfold getReclen setReclen
  rw [read_write_encode, decode_encode (by omega)]

theorem nameLength_setNameLength (hv : v < 256) :
    nameLength (setNameLength buf de v) de = v := by
  unfold nameLength setNameLength
  rw [read_write_encode, decode_encode (by omega)]

/-! A field is what it was if its bytes are. -/

section

variable (h : EqOutside lo hi buf buf')

include h

theorem getOtokID_congr (hdisj : de + 4 ≤ lo ∨ hi ≤ de) :
    getOtokID buf' de = getOtokID buf de :=
  congrArg decode (h.read hdisj)

theorem getReclen_congr (hdisj : de + 6 ≤ lo ∨ hi ≤ de + 4) :
    getReclen buf' de = getReclen buf de :=
  congrArg decode (h.read hdisj)

theorem nameLength_congr (hdisj : de + 7 ≤ lo ∨ hi ≤ de + 6) :
    nameLength buf' de = nameLength buf de :=
  congrArg decode (h.read hdisj)

theorem recordAt_congr
    (hdisj : de + 7 + nameLength buf de ≤ lo ∨ hi ≤ de) : recordAt buf' de = recordAt buf de := by
  have hlen : nameLength buf' de = nameLength buf de := nameLength_congr h (by omega)
  ext1
  · exact getOtokID_congr h (by omega)
  · show read buf' (de + 7) (nameLength buf' de) = _
    rw [hlen]
    exact h.read (by omega)
  · exact getReclen_congr h (by omega)

end

theorem recordAt_setReclen (hv : v < 65536) :
    recordAt (setReclen buf de v) de = { recordAt buf de with reclen := v } := by
  have h := setReclen_eqOutside buf de v
  have hlen : nameLength (setReclen buf de v) de = nameLength buf de := nameLength_congr h (by omega)
  ext1
  · exact getOtokID_congr h (by omega)
  · show read _ (de + 7) (nameLength _ de) = _
    rw [hlen]
    exact h.read (by omega)
  · exact getReclen_setReclen hv

theorem recordAt_setOtokID (hv : v < 2 ^ 32) :
    recordAt (setOtokID buf de v) de = { recordAt buf de with id := v } := by
  have h := setOtokID_eqOutside buf de v
  have hlen : nameLength (setOtokID buf de v) de = nameLength buf de := nameLength_congr h (by omega)
  ext1
  · exact getOtokID_setOtokID hv
  · show read _ (de + 7) (nameLength _ de) = _
    rw [hlen]
    exact h.read (by omega)
  · exact getReclen_congr h (by omega)

theorem fillEntry_eqOutside (buf : Buffer) (de : ℕ) (fname : List UInt8) (otok : ℕ) :
    EqOutside de (de + 7 + fname.length) buf (fillEntry buf de fname otok) := by
  have h₁ : EqOutside de (de + 7 + fname.length) buf (setNameLength buf de fname.length) :=
    (setNameLength_eqOutside buf de _).mono (by omega) (by omega)
  refine (h₁.trans ((setName_eqOutside _ de fname).mono (by omega) le_rfl)).trans ?_
  exact (setOtokID_eqOutside _ de otok).mono le_rfl (by omega)

theorem recordAt_fillEntry (hlen : fname.length < 256) (hotok : otok < 2 ^ 32) :
    recordAt (fillEntry buf de fname otok) de = ⟨otok, fname, getReclen buf de⟩ := by
  have h₁ := setNameLength_eqOutside buf de fname.length
  have h₂ := setName_eqOutside (setNameLength buf de fname.length) de fname
  unfold fillEntry
  rw [recordAt_setOtokID hotok]
  have hname : nameLength (setName (setNameLength buf de fname.length) de fname) de =
      fname.length := by
    rw [nameLength_congr h₂ (by omega)]
    exact nameLength_setNameLength hlen
  ext1
  · rfl
  · show read (setName (setNameLength buf de fname.length) de fname) (de + 7) (nameLength _ de) = fname
    rw [hname]
    exact read_write_self _ _ _
  · show getReclen (setName (setNameLength buf de fname.length) de fname) de = getReclen buf de
    rw [getReclen_congr h₂ (by omega), getReclen_congr h₁ (by omega)]

/-! ## Chains of records -/

/-- `rs` lie one after the other from `de` on; each record has room for its name. -/
def Seg (buf : Buffer) : ℕ → List Rec → Prop
  | _, [] => True
  | de, r :: rs => recordAt buf de = r ∧ GetPhysRecLen r.name.length ≤ r.reclen ∧
      Seg buf (de + r.reclen) rs

/-- The length of `rs` together. -/
def total (rs : List Rec) : ℕ := (rs.map Rec.reclen).sum

/-- The records of a block are `rs`, and the entry after the last ends the chain
within the block. -/
structure Chain (buf : Buffer) (rs : List Rec) : Prop where
  seg : Seg buf 0 rs
  tail : getReclen buf (total rs) = 0
  inside : total rs + 8 ≤ OS_BLOCK_SIZE

@[simp] theorem total_nil : total [] = 0 := rfl

@[simp] theorem total_cons (r : Rec) (rs : List Rec) : total (r :: rs) = r.reclen + total rs := by
  simp [total]

@[simp] theorem total_append (rs rs' : List Rec) : total (rs ++ rs') = total rs + total rs' := by
  simp [total]

theorem seg_append {rs' : List Rec} :
    Seg buf de (rs ++ rs') ↔ Seg buf de rs ∧ Seg buf (de + total rs) rs' := by
  induction rs generalizing de with
  | nil => simp [Seg]
  | cons r rs ih =>
    simp only [List.cons_append, Seg, ih, total_cons, Nat.add_assoc]
    tauto

theorem Seg.room (h : Seg buf de (r :: rs)) :
    7 + nameLength buf de < r.reclen := by
  obtain ⟨rfl, hphys, -⟩ := h
  rw [length_recordAt_name] at hphys
  have hbounds := getPhysRecLen_bounds (nameLength_lt buf de)
  omega

theorem Seg.congr (h : Seg buf de rs) (heq : EqOutside lo hi buf buf')
    (hdisj : de + total rs ≤ lo ∨ hi ≤ de) : Seg buf' de rs := by
  induction rs generalizing de with
  | nil => trivial
  | cons r rs ih =>
    have hroom := h.room
    obtain ⟨hrec, hphys, hrest⟩ := h
    rw [total_cons] at hdisj
    refine ⟨?_, hphys, ih hrest (by omega)⟩
    rw [recordAt_congr heq (by omega)]
    exact hrec

theorem Chain.replace {a mid mid' c : List Rec} (h : Chain buf (a ++ mid ++ c))
    (heq : EqOutside (total a) (total a + total mid) buf buf') (hmid : Seg buf' (total a) mid')
    (htotal : total mid' = total mid) : Chain buf' (a ++ mid' ++ c) := by
  obtain ⟨hseg, htail, hinside⟩ := h
  rw [seg_append, seg_append] at hseg
  simp only [total_append, Nat.zero_add] at hseg htail hinside
  constructor
  · rw [seg_append, seg_append]
    simp only [total_append, Nat.zero_add, htotal]
    exact ⟨⟨hseg.1.1.congr heq (by omega), hmid⟩, hseg.2.congr heq (by omega)⟩
  · simp only [total_append, htotal]
    rw [getReclen_congr heq (by omega)]
    exact htail
  · simp only [total_append, htotal]
    exact hinside

theorem Seg.length_le (h : Seg buf de rs) : rs.length ≤ total rs := by
  induction rs generalizing de with
  | nil => exact le_rfl
  | cons r rs ih =>
    have hroom := h.room
    have hrest := ih h.2.2
    rw [List.length_cons, total_cons]
    omega

theorem Chain.length_lt (h : Chain buf rs) : rs.length < OS_BLOCK_SIZE := by
  have hle := h.seg.length_le
  have hinside := h.inside
  omega

/-! ## Searching a block -/

/-- The record is in use for the name. -/
def Names (fname : List UInt8) (r : Rec) : Prop := r.id ≠ 0 ∧ r.name = fname

theorem names_recordAt :
    Names fname (recordAt buf de) ↔ getOtokID buf de ≠ 0 ∧ nameLength buf de = fname.length ∧
      read buf (de + 7) fname.length = fname := by
  show getOtokID buf de ≠ 0 ∧ read buf (de + 7) (nameLength buf de) = fname ↔ _
  constructor
  · rintro ⟨hid, hname⟩
    have hlen : nameLength buf de = fname.length := by
      rw [← hname, length_read]
    exact ⟨hid, hlen, by rw [← hlen]; exact hname⟩
  · rintro ⟨hid, hlen, hname⟩
    exact ⟨hid, by rw [hlen]; exact hname⟩

/-- The entry before the one that follows `rs`, which start at `de`. -/
def prevOf : ℕ → Option ℕ → List Rec → Option ℕ
  | _, prev, [] => prev
  | de, _, r :: rs => prevOf (de + r.reclen) (some de) rs

theorem prevOf_append_singleton (de : ℕ) (prev : Option ℕ) (rs : List Rec) (r : Rec) :
    prevOf de prev (rs ++ [r]) = some (de + total rs) := by
  induction rs generalizing de prev with
  | nil => rfl
  | cons q rs ih =>
    rw [List.cons_append, prevOf, ih, total_cons, Nat.add_assoc]

theorem matchBlock_skip {pre post : List Rec} {prev : Option ℕ}
    (hseg : Seg buf de (pre ++ post)) (hpre : ∀ r ∈ pre, ¬Names fname r)
    (hinside : de + total pre + 7 ≤ OS_BLOCK_SIZE) :
    matchBlock buf fname (pre.length + fuel) de prev =
      matchBlock buf fname fuel (de + total pre) (prevOf de prev pre) := by
  induction pre generalizing de prev with
  | nil => simp [prevOf]
  | cons r pre ih =>
    have hroom := hseg.room
    obtain ⟨hrec, -, hrest⟩ := hseg
    have hother : ¬Names fname (recordAt buf de) := by
      rw [hrec]
      exact hpre r List.mem_cons_self
    have hlen : getReclen buf de = r.reclen := congrArg Rec.reclen hrec
    rw [total_cons] at hinside
    rw [List.length_cons, Nat.add_right_comm, matchBlock, if_neg (by omega),
      if_pos (by omega), if_neg (fun h => hother (names_recordAt.mpr h)), hlen,
      ih hrest (fun q hq => hpre q (List.mem_cons_of_mem _ hq)) (by omega), total_cons, prevOf,
      Nat.add_assoc]

theorem Chain.matchBlock_found {pre post : List Rec}
    (h : Chain buf (pre ++ r :: post)) (hpre : ∀ q ∈ pre, ¬Names fname q) (hr : Names fname r) :
    matchBlock buf fname OS_BLOCK_SIZE 0 none = .ok (total pre, prevOf 0 none pre) := by
  have hlt := h.length_lt
  have hinside := h.inside
  obtain ⟨-, hseg⟩ := seg_append.mp h.seg
  have hroom := hseg.room
  rw [List.length_append, List.length_cons] at hlt
  rw [total_append, total_cons] at hinside
  obtain ⟨fuel, hfuel⟩ : ∃ fuel, OS_BLOCK_SIZE = pre.length + (fuel + 1) :=
    ⟨OS_BLOCK_SIZE - pre.length - 1, by omega⟩
  rw [hfuel, matchBlock_skip h.seg hpre (by omega), matchBlock, if_neg (by omega)]
  rw [Nat.zero_add] at hseg ⊢
  have hlen : getReclen buf (total pre) = r.reclen := congrArg Rec.reclen hseg.1
  rw [if_pos (by omega), if_pos]
  apply names_recordAt.mp
  rw [hseg.1]
  exact hr

theorem Chain.matchBlock_absent (h : Chain buf rs) (hrs : ∀ q ∈ rs, ¬Names fname q) :
    ∃ prev, matchBlock buf fname OS_BLOCK_SIZE 0 none = .ok (total rs, prev) := by
  have hlt := h.length_lt
  have hinside := h.inside
  obtain ⟨fuel, hfuel⟩ : ∃ fuel, OS_BLOCK_SIZE = rs.length + (fuel + 1) :=
    ⟨OS_BLOCK_SIZE - rs.length - 1, by omega⟩
  have hseg : Seg buf 0 (rs ++ []) := by
    rw [List.append_nil]
    exact h.seg
  refine ⟨prevOf 0 none rs, ?_⟩
  rw [hfuel, matchBlock_skip hseg hrs (by omega), matchBlock, if_neg (by omega), Nat.zero_add,
    if_neg (by rw [h.tail]; omega)]

/-! ## Changing a block -/

/-- The names in use, with their objects. -/
def live (rs : List Rec) : List (List UInt8 × ℕ) :=
  rs.filterMap fun r => if r.id ≠ 0 then some (r.name, r.id) else none

@[simp] theorem live_nil : live [] = [] := rfl

@[simp] theorem live_append (rs rs' : List Rec) : live (rs ++ rs') = live rs ++ live rs' :=
  List.filterMap_append

theorem live_cons_of_ne (h : r.id ≠ 0) (rs : List Rec) :
    live (r :: rs) = (r.name, r.id) :: live rs := by
  simp [live, h]

theorem live_cons_of_zero (h : r.id = 0) (rs : List Rec) : live (r :: rs) = live rs := by
  simp [live, h]

theorem live_cons_mk (h : otok ≠ 0) (fname : List UInt8) (n : ℕ) (rs : List Rec) :
    live (⟨otok, fname, n⟩ :: rs) = (fname, otok) :: live rs := live_cons_of_ne h rs

theorem live_cons (r : Rec) (rs : List Rec) : live (r :: rs) = live [r] ++ live rs := by
  rw [← live_append, List.singleton_append]

theorem live_cons_reclen (r : Rec) (n : ℕ) (rs : List Rec) :
    live ({ r with reclen := n } :: rs) = live (r :: rs) := rfl

theorem mem_live : (fname, otok) ∈ live rs ↔ ∃ r ∈ rs, Names fname r ∧ r.id = otok := by
  simp only [live, List.mem_filterMap, Names]
  constructor
  · rintro ⟨r, hr, hsome⟩
    split at hsome
    · rename_i hid
      cases hsome
      exact ⟨r, hr, ⟨hid, rfl⟩, rfl⟩
    · cases hsome
  · rintro ⟨r, hr, ⟨hid, rfl⟩, rfl⟩
    exact ⟨r, hr, if_pos hid⟩

variable {pre post rs : List Rec} {r : Rec} {otok : ℕ}

theorem Chain.recordAt_eq (h : Chain buf (pre ++ r :: post)) : recordAt buf (total pre) = r := by
  have hseg := (seg_append.mp h.seg).2.1
  rwa [Nat.zero_add] at hseg

theorem Chain.phys_le (h : Chain buf (pre ++ r :: post)) :
    GetPhysRecLen r.name.length ≤ r.reclen := (seg_append.mp h.seg).2.2.1

theorem Chain.replace_one {mid' : List Rec} (h : Chain buf (pre ++ r :: post))
    (heq : EqOutside (total pre) (total pre + r.reclen) buf buf')
    (hmid : Seg buf' (total pre) mid') (htotal : total mid' = r.reclen) :
    Chain buf' (pre ++ mid' ++ post) := by
  have h' : Chain buf (pre ++ [r] ++ post) := by simpa using h
  apply h'.replace
  · simpa using heq
  · exact hmid
  · simpa using htotal

theorem Chain.setOtokID (h : Chain buf (pre ++ r :: post)) (hotok : otok < 2 ^ 32) :
    Chain (setOtokID buf (total pre) otok) (pre ++ { r with id := otok } :: post) := by
  have hroom := ((seg_append.mp h.seg).2).room
  have hnew : Chain (LSOBasicDir.setOtokID buf (total pre) otok)
      (pre ++ [{ r with id := otok }] ++ post) := by
    apply h.replace_one
    · apply (setOtokID_eqOutside buf (total pre) otok).mono le_rfl
      omega
    · refine ⟨?_, h.phys_le, trivial⟩
      rw [recordAt_setOtokID hotok, h.recordAt_eq]
    · simp
  simpa using hnew

theorem Chain.merge {q : Rec} (h : Chain buf (pre ++ q :: r :: post)) :
    Chain (setReclen buf (total pre) (q.reclen + r.reclen))
      (pre ++ { q with reclen := q.reclen + r.reclen } :: post) := by
  have hinside := h.inside
  have hroom := ((seg_append.mp h.seg).2).room
  have hphys := h.phys_le
  simp only [OS_BLOCK_SIZE, total_append, total_cons] at hinside
  have h' : Chain buf (pre ++ [q, r] ++ post) := by simpa using h
  have hnew : Chain (setReclen buf (total pre) (q.reclen + r.reclen))
      (pre ++ [{ q with reclen := q.reclen + r.reclen }] ++ post) := by
    apply h'.replace
    · apply (setReclen_eqOutside buf (total pre) _).mono (by omega)
      simp only [total_cons, total_nil]
      omega
    · refine ⟨?_, le_trans hphys (Nat.le_add_right _ _), trivial⟩
      rw [recordAt_setReclen (by omega), h.recordAt_eq]
    · simp
  simpa using hnew

theorem Chain.removeEntry (h : Chain buf (pre ++ r :: post)) :
    ∃ rs', Chain (removeEntry buf (total pre) (prevOf 0 none pre)) rs' ∧
      live rs' = live pre ++ live post := by
  have hlen : getReclen buf (total pre) = r.reclen := congrArg Rec.reclen h.recordAt_eq
  obtain rfl | ⟨init, q, rfl⟩ := List.eq_nil_or_concat' pre
  · rw [total_nil] at hlen
    show ∃ rs', Chain (if getReclen buf (getReclen buf 0) = 0 then setReclen buf 0 0 else
      LSOBasicDir.setOtokID buf 0 0) rs' ∧ _
    rw [hlen]
    cases post with
    | nil =>
      have htail : getReclen buf r.reclen = 0 := by simpa using h.tail
      rw [if_pos htail]
      exact ⟨[], ⟨trivial, getReclen_setReclen (by norm_num), by norm_num⟩, rfl⟩
    | cons q post =>
      have hq : Seg buf r.reclen (q :: post) := by simpa using (seg_append.mp h.seg).2.2.2
      have hqlen : getReclen buf r.reclen = q.reclen := congrArg Rec.reclen hq.1
      have hroom := hq.room
      rw [if_neg (by omega)]
      have hdead : Chain (LSOBasicDir.setOtokID buf 0 0) ([] ++ { r with id := 0 } :: q :: post) :=
        h.setOtokID (by norm_num)
      exact ⟨_, hdead, live_cons_of_zero rfl _⟩
  · rw [prevOf_append_singleton, Nat.zero_add]
    have h' : Chain buf (init ++ q :: r :: post) := by simpa using h
    have hqlen : getReclen buf (total init) = q.reclen := congrArg Rec.reclen h'.recordAt_eq
    refine ⟨init ++ { q with reclen := q.reclen + r.reclen } :: post, ?_, ?_⟩
    · show Chain (setReclen buf (total init) (getReclen buf (total init) + _)) _
      rw [hqlen, hlen]
      exact h'.merge
    · rw [live_append, live_cons_reclen, live_append, live_cons q post, List.append_assoc]

/-- `rs'` has the live records of `rs` and one more. -/
def Adds (fname : List UInt8) (otok : ℕ) (rs rs' : List Rec) : Prop :=
  ∃ a c, live rs = a ++ c ∧ live rs' = a ++ (fname, otok) :: c

theorem split_bytes (hn : 7 + nameLength buf de < n) (hn' : n < 65536)
    (hlen : len < 65536) (hname : fname.length < 256) (hotok : otok < 2 ^ 32)
    (hbuf : buf' = fillEntry (setReclen (setNameLength (setReclen buf (de + n) len) (de + n)
      fname.length) de n) (de + n) fname otok) :
    EqOutside de (de + n + 7 + fname.length) buf buf' ∧
      recordAt buf' de = { recordAt buf de with reclen := n } ∧
      recordAt buf' (de + n) = ⟨otok, fname, len⟩ := by
  have h₁ := setReclen_eqOutside buf (de + n) len
  have h₂ := setNameLength_eqOutside (setReclen buf (de + n) len) (de + n) fname.length
  generalize hbuf₂ : setNameLength (setReclen buf (de + n) len) (de + n) fname.length = buf₂ at *
  have h₃ := setReclen_eqOutside buf₂ de n
  have h₄ := fillEntry_eqOutside (setReclen buf₂ de n) (de + n) fname otok
  have h₁₂ : EqOutside (de + n) (de + n + 7 + fname.length) buf buf₂ :=
    (h₁.mono (by omega) (by omega)).trans (h₂.mono (by omega) (by omega))
  have hfirst : recordAt buf₂ de = recordAt buf de := recordAt_congr h₁₂ (by omega)
  have hname₂ : nameLength buf₂ de = nameLength buf de := nameLength_congr h₁₂ (by omega)
  have hname₃ : nameLength (setReclen buf₂ de n) de = nameLength buf₂ de :=
    nameLength_congr h₃ (by omega)
  have hlen₂ : getReclen buf₂ (de + n) = len := by
    rw [getReclen_congr h₂ (by omega), getReclen_setReclen hlen]
  subst hbuf
  refine ⟨?_, ?_, ?_⟩
  · exact ((h₁₂.mono (by omega) le_rfl).trans (h₃.mono (by omega) (by omega))).trans
      (h₄.mono (by omega) le_rfl)
  · rw [recordAt_congr h₄ (by omega), recordAt_setReclen hn', hfirst]
  · rw [recordAt_fillEntry hname hotok, getReclen_congr h₃ (by omega), hlen₂]

theorem reuse_bytes (hlen : len < 65536) (hname : fname.length < 256) (hotok : otok < 2 ^ 32)
    (hbuf : buf' = fillEntry (setNameLength (setReclen buf de len) de fname.length) de fname otok) :
    EqOutside de (de + 7 + fname.length) buf buf' ∧ recordAt buf' de = ⟨otok, fname, len⟩ := by
  have h₁ := setReclen_eqOutside buf de len
  have h₂ := setNameLength_eqOutside (setReclen buf de len) de fname.length
  have h₃ := fillEntry_eqOutside (setNameLength (setReclen buf de len) de fname.length) de fname otok
  subst hbuf
  constructor
  · exact ((h₁.mono (by omega) (by omega)).trans (h₂.mono (by omega) (by omega))).trans h₃
  · rw [recordAt_fillEntry hname hotok, getReclen_congr h₂ (by omega), getReclen_setReclen hlen]

/-- What `findHole` is for: the block it returns has room for the name. -/
def MakesRoom (fname : List UInt8) (otok : ℕ) (rs : List Rec)
    (res : Except Failure (Option (Buffer × ℕ))) : Prop :=
  res = .ok none ∨ ∃ buf' entry rs', res = .ok (some (buf', entry)) ∧
    Chain (fillEntry buf' entry fname otok) rs' ∧ Adds fname otok rs rs'

theorem Chain.split (h : Chain buf (pre ++ r :: post)) (hname : fname.length < 256)
    (hotok : otok < 2 ^ 32) (hpos : otok ≠ 0) (hid : r.id ≠ 0)
    (hslack : GetPhysRecLen fname.length ≤ r.reclen - GetPhysRecLen r.name.length)
    (hbuf : buf' = fillEntry (setReclen (setNameLength (setReclen buf
        (total pre + GetPhysRecLen r.name.length) (r.reclen - GetPhysRecLen r.name.length))
        (total pre + GetPhysRecLen r.name.length) fname.length) (total pre)
        (GetPhysRecLen r.name.length)) (total pre + GetPhysRecLen r.name.length) fname otok) :
    ∃ rs', Chain buf' rs' ∧ Adds fname otok (pre ++ r :: post) rs' := by
  have hinside := h.inside
  have hrec := h.recordAt_eq
  have hlen : r.name.length = nameLength buf (total pre) := by
    rw [← hrec, length_recordAt_name]
  have hbounds := getPhysRecLen_bounds (nameLength_lt buf (total pre))
  have hbounds' := getPhysRecLen_bounds hname
  rw [← hlen] at hbounds
  simp only [OS_BLOCK_SIZE, total_append, total_cons] at hinside
  obtain ⟨heq, hfirst, hsecond⟩ := split_bytes (by omega) (by omega) (by omega) hname hotok hbuf
  refine ⟨pre ++ [{ r with reclen := GetPhysRecLen r.name.length },
    ⟨otok, fname, r.reclen - GetPhysRecLen r.name.length⟩] ++ post, h.replace_one ?_ ?_ ?_, ?_⟩
  · exact heq.mono le_rfl (by omega)
  · refine ⟨?_, le_rfl, hsecond, hslack, trivial⟩
    rw [hfirst, hrec]
  · simp
    omega
  · refine ⟨live pre ++ [(r.name, r.id)], live post, ?_, ?_⟩
    · simp [live_cons_of_ne hid]
    · simp [live_cons_mk hpos, live_cons_of_ne hid, live_cons_reclen]

theorem Chain.reuse (h : Chain buf (pre ++ r :: post)) (hname : fname.length < 256)
    (hotok : otok < 2 ^ 32) (hpos : otok ≠ 0) (hid : r.id = 0)
    (hslack : GetPhysRecLen fname.length ≤ r.reclen)
    (hbuf : buf' = fillEntry (setNameLength (setReclen buf (total pre) r.reclen) (total pre)
      fname.length) (total pre) fname otok) :
    ∃ rs', Chain buf' rs' ∧ Adds fname otok (pre ++ r :: post) rs' := by
  have hinside := h.inside
  have hbounds := getPhysRecLen_bounds hname
  simp only [OS_BLOCK_SIZE, total_append, total_cons] at hinside
  obtain ⟨heq, hrec⟩ := reuse_bytes (by omega) hname hotok hbuf
  refine ⟨pre ++ [⟨otok, fname, r.reclen⟩] ++ post, h.replace_one ?_ ?_ ?_, ?_⟩
  · exact heq.mono le_rfl (by omega)
  · exact ⟨hrec, hslack, trivial⟩
  · simp
  · refine ⟨live pre, live post, ?_, ?_⟩
    · rw [live_append, live_cons_of_zero hid]
    · simp [live_cons_mk hpos]

theorem Seg.extend (h : Seg buf 0 rs) (heq : EqOutside (total rs) hi buf buf')
    (hname : fname.length < 256) (hotok : otok < 2 ^ 32)
    (hlen : getReclen buf' (total rs) = GetPhysRecLen fname.length)
    (htail : getReclen buf' (total rs + GetPhysRecLen fname.length) = 0)
    (hroom : total rs + GetPhysRecLen fname.length + 8 ≤ OS_BLOCK_SIZE) :
    Chain (fillEntry buf' (total rs) fname otok)
      (rs ++ [⟨otok, fname, GetPhysRecLen fname.length⟩]) := by
  have hfill := fillEntry_eqOutside buf' (total rs) fname otok
  have hbounds := getPhysRecLen_bounds hname
  constructor
  · rw [seg_append, Nat.zero_add]
    refine ⟨(h.congr heq (by omega)).congr hfill (by omega), ?_, le_rfl, trivial⟩
    rw [recordAt_fillEntry hname hotok, hlen]
  · simp only [total_append, total_cons, total_nil, Nat.add_zero]
    rw [getReclen_congr hfill (by omega)]
    exact htail
  · simpa [Nat.add_assoc] using hroom

theorem adds_append_singleton (hpos : otok ≠ 0) (rs : List Rec) (n : ℕ) :
    Adds fname otok rs (rs ++ [⟨otok, fname, n⟩]) := by
  refine ⟨live rs, [], ?_, ?_⟩
  · simp
  · simp [live_cons_mk hpos]

theorem getReclen_setNameLength (hlen : len < 65536) :
    getReclen (setNameLength (setReclen buf de len) de n) de = len := by
  rw [getReclen_congr (setNameLength_eqOutside _ de n) (by omega), getReclen_setReclen hlen]

theorem header_eqOutside (buf : Buffer) (de len n : ℕ) :
    EqOutside (de + 4) (de + 7) buf (setNameLength (setReclen buf de len) de n) :=
  ((setReclen_eqOutside buf de len).mono le_rfl (by omega)).trans
    ((setNameLength_eqOutside _ de n).mono (by omega) le_rfl)

theorem Chain.findHole_tail (h : Chain buf rs) (hname : fname.length < 256)
    (hotok : otok < 2 ^ 32) (hpos : otok ≠ 0) :
    MakesRoom fname otok rs (findHoleFrom buf fname.length (fuel + 1) (total rs)) := by
  have hinside := h.inside
  have htail := h.tail
  have hbounds := getPhysRecLen_bounds hname
  have hbounds₀ := getPhysRecLen_bounds (n := 0) (by norm_num)
  rw [findHoleFrom]
  simp only
  rw [if_neg (by omega), if_neg (by omega), MachineWord.sub_of_le (by norm_num) (by omega)]
  by_cases hroom : OS_BLOCK_SIZE - total rs > GetPhysRecLen fname.length + GetPhysRecLen 0
  · rw [if_pos hroom, getReclen_setNameLength (by omega)]
    have hheader := header_eqOutside buf (total rs) (GetPhysRecLen fname.length) fname.length
    have hlast := setReclen_eqOutside (setNameLength (setReclen buf (total rs)
      (GetPhysRecLen fname.length)) (total rs) fname.length)
      (total rs + GetPhysRecLen fname.length) 0
    have hboth : EqOutside (total rs) OS_BLOCK_SIZE buf _ :=
      (hheader.mono (by omega) (by omega)).trans (hlast.mono (by omega) (by omega))
    refine .inr ⟨_, _, _, rfl, h.seg.extend hboth hname hotok ?_ ?_ (by omega),
      adds_append_singleton hpos rs _⟩
    · rw [getReclen_congr hlast (by omega), getReclen_setNameLength (by omega)]
    · exact getReclen_setReclen (by norm_num)
  · rw [if_neg hroom]
    exact .inl rfl

theorem Chain.findHole_record (h : Chain buf (pre ++ r :: post))
    (hname : fname.length < 256) (hotok : otok < 2 ^ 32) (hpos : otok ≠ 0)
    (hnext : MakesRoom fname otok (pre ++ r :: post)
      (findHoleFrom buf fname.length fuel (total pre + r.reclen))) :
    MakesRoom fname otok (pre ++ r :: post)
      (findHoleFrom buf fname.length (fuel + 1) (total pre)) := by
  have hinside := h.inside
  have hroom := ((seg_append.mp h.seg).2).room
  have hphys := h.phys_le
  have hbounds := getPhysRecLen_bounds hname
  have hid : getOtokID buf (total pre) = r.id := congrArg Rec.id h.recordAt_eq
  have hlen : getReclen buf (total pre) = r.reclen := congrArg Rec.reclen h.recordAt_eq
  have hlen' : nameLength buf (total pre) = r.name.length := by
    rw [← h.recordAt_eq, length_recordAt_name]
  have hbounds' := getPhysRecLen_bounds (nameLength_lt buf (total pre))
  simp only [total_append, total_cons] at hinside
  rw [findHoleFrom]
  simp only [hlen, hid, hlen']
  rw [hlen'] at hbounds'
  rw [if_neg (by omega), if_pos (by omega)]
  have hsmall : r.reclen < 65536 := by
    rw [← hlen]
    exact getReclen_lt _ _
  by_cases hlive : r.id = 0
  · rw [if_neg (not_not.mpr hlive), MachineWord.sub_of_le (by omega) (Nat.zero_le _), Nat.sub_zero,
      Nat.add_zero]
    by_cases hslack : r.reclen ≥ GetPhysRecLen fname.length
    · rw [if_pos hslack]
      have hdead : getOtokID (setNameLength (setReclen buf (total pre) r.reclen) (total pre)
          fname.length) (total pre) = 0 := by
        rw [getOtokID_congr (header_eqOutside buf _ _ _) (by omega), hid, hlive]
      rw [if_neg (not_not.mpr hdead)]
      obtain ⟨rs', hchain, hadds⟩ := h.reuse hname hotok hpos hlive hslack rfl
      exact .inr ⟨_, _, rs', rfl, hchain, hadds⟩
    · rw [if_neg hslack]
      exact hnext
  · rw [if_pos hlive, MachineWord.sub_of_le (by omega) hphys]
    by_cases hslack : r.reclen - GetPhysRecLen r.name.length ≥ GetPhysRecLen fname.length
    · rw [if_pos hslack]
      have hstill : getOtokID (setNameLength (setReclen buf
          (total pre + GetPhysRecLen r.name.length) (r.reclen - GetPhysRecLen r.name.length))
          (total pre + GetPhysRecLen r.name.length) fname.length) (total pre) = r.id := by
        rw [getOtokID_congr (header_eqOutside buf _ _ _) (by omega), hid]
      rw [if_pos (by rw [hstill]; exact hlive)]
      obtain ⟨rs', hchain, hadds⟩ := h.split hname hotok hpos hlive hslack rfl
      exact .inr ⟨_, _, rs', rfl, hchain, hadds⟩
    · rw [if_neg hslack]
      exact hnext

theorem Chain.findHoleFrom (h : Chain buf (pre ++ rs)) (hfuel : rs.length < fuel)
    (hname : fname.length < 256) (hotok : otok < 2 ^ 32) (hpos : otok ≠ 0) :
    MakesRoom fname otok (pre ++ rs) (findHoleFrom buf fname.length fuel (total pre)) := by
  induction rs generalizing pre fuel with
  | nil =>
    obtain ⟨fuel, rfl⟩ : ∃ k, fuel = k + 1 := ⟨fuel - 1, by omega⟩
    rw [List.append_nil] at h ⊢
    exact h.findHole_tail hname hotok hpos
  | cons r rs ih =>
    obtain ⟨fuel, rfl⟩ : ∃ k, fuel = k + 1 := ⟨fuel - 1, by omega⟩
    apply h.findHole_record hname hotok hpos
    have h' : Chain buf ((pre ++ [r]) ++ rs) := by simpa using h
    have hnext := ih h' (by simpa using hfuel)
    simpa using hnext

theorem Chain.findHole (h : Chain buf rs) (hname : fname.length < 256) (hotok : otok < 2 ^ 32)
    (hpos : otok ≠ 0) : MakesRoom fname otok rs (findHole buf fname.length) := by
  have h' : Chain buf ([] ++ rs) := h
  exact h'.findHoleFrom h.length_lt hname hotok hpos

theorem chain_newBlock (buf : Buffer) (hname : fname.length < 256) (hotok : otok < 2 ^ 32) :
    Chain (fillEntry (newBlock buf fname.length) 0 fname otok)
      [⟨otok, fname, GetPhysRecLen fname.length⟩] := by
  have hbounds := getPhysRecLen_bounds hname
  have hseg : Seg buf 0 [] := trivial
  unfold newBlock
  simp only
  rw [getReclen_setReclen (by omega)]
  generalize hn : GetPhysRecLen fname.length = n at *
  have h₁ := setReclen_eqOutside buf 0 n
  have h₂ := setOtokID_eqOutside (setReclen buf 0 n) n 0
  have h₃ := setNameLength_eqOutside (setOtokID (setReclen buf 0 n) n 0) n 0
  have h₄ := setReclen_eqOutside (setNameLength (setOtokID (setReclen buf 0 n) n 0) n 0) n 0
  have hnull : EqOutside n (n + 7) (setReclen buf 0 n)
      (setReclen (setNameLength (setOtokID (setReclen buf 0 n) n 0) n 0) n 0) :=
    ((h₂.mono le_rfl (by omega)).trans (h₃.mono (by omega) le_rfl)).trans
      (h₄.mono (by omega) (by omega))
  have hall := (h₁.mono (Nat.zero_le _) (by omega)).trans (hnull.mono (Nat.zero_le _) le_rfl)
  subst hn
  refine hseg.extend hall hname hotok ?_ ?_ ?_
  · rw [total_nil, getReclen_congr hnull (by omega), getReclen_setReclen (by omega)]
  · rw [total_nil, Nat.zero_add]
    exact getReclen_setReclen (by norm_num)
  · simp only [OS_BLOCK_SIZE, total_nil]
    omega

end LSOBasicDir

end K42
