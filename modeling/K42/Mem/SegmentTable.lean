import K42.Lib.Run
import Mathlib.Data.BitVec
import Mathlib.Data.Nat.Bitwise

/-!
# The segment cache

A segment table without a hardware table is a cache of entries that are loaded into the segment
lookaside buffer as they are: each word says which segment it maps, and in its low bits into which
slot it goes. The first entries are bolted. A new entry goes to the place behind the one that was
filled last, and back to the first entry that is not bolted when the cache is full; the entry of
an unmapped segment is replaced by the last one.
-/

open Function (update update_of_ne update_self update_eq_self)

namespace K42

/-- The two words of an entry. -/
structure SLBEntry where
  vsid : BitVec 64
  esid : BitVec 64

namespace SLBEntry

/-- The fields of the two words. -/
def VSID (e : SLBEntry) : BitVec 52 := e.vsid.extractLsb' 12 52

def ESID (e : SLBEntry) : BitVec 36 := e.esid.extractLsb' 28 36

def V (e : SLBEntry) : Bool := e.esid.getLsbD 27

def index (e : SLBEntry) : ℕ := (e.esid.extractLsb' 0 12).toNat

/-- `esid.index = i` -/
def setIndex (e : SLBEntry) (i : ℕ) : SLBEntry :=
  { e with esid := (e.esid &&& ~~~0xFFF#64) ||| BitVec.ofNat 64 (i % 4096) }

end SLBEntry

/-- `vaddr >> LOG_SEGMENT_SIZE` -/
def segmentOf (vaddr : BitVec 64) : BitVec 36 := vaddr.extractLsb' 28 36

/-- The sizes of large pages, of which the table of the machine has room for eight. -/
structure LargePageInfo where
  logSizes : List ℕ
  numSizes_le : logSizes.length ≤ 8

/-- The place of a size in the table; there is no such size in the default case, and the kernel
stops there. -/
def LargePageInfo.getLS (t : LargePageInfo) (logPageSize : ℕ) : ℕ :=
  (t.logSizes.findIdx? (· == logPageSize)).getD 0

def SegmentTable.LOG_PAGE_SIZE : ℕ := 12

def LargePageInfo.getLogLargestPageSize (t : LargePageInfo) : ℕ :=
  t.logSizes.foldl max SegmentTable.LOG_PAGE_SIZE

structure SegmentTable where
  slbNext : ℕ
  cacheNext : ℕ
  cacheMax : ℕ
  numBolted : ℕ
  SLBCache : ℕ → SLBEntry

namespace SegmentTable

def NumCached : ℕ := 32

def NumberOfSLBs : ℕ := 64

def nextSlbNdx (s : SegmentTable) : SegmentTable :=
  { s with slbNext := if s.slbNext + 1 = NumberOfSLBs then s.cacheMax else s.slbNext + 1 }

/-- The slot to be filled. -/
def nextCacheNdx (s : SegmentTable) : ℕ × SegmentTable :=
  (s.cacheNext, { s with
      cacheNext := if s.cacheNext + 1 = NumCached then s.numBolted else s.cacheNext + 1
      cacheMax := max s.cacheMax (s.cacheNext + 1) })

def setEntry (s : SegmentTable) (i : ℕ) (e : SLBEntry) : SegmentTable :=
  { s with SLBCache := update s.SLBCache i e }

def findSegmentTableEntry (s : SegmentTable) (vaddr : BitVec 64) : Option ℕ :=
  (List.range s.cacheMax).find? fun i =>
    (s.SLBCache i).V && (s.SLBCache i).ESID == segmentOf vaddr

/-- `vaddr & -SEGMENT_SIZE`, the valid bit and the slot. -/
def esidWord (vaddr : BitVec 64) (i : ℕ) : BitVec 64 :=
  (vaddr &&& -0x10000000#64) ||| 0x8000000#64 ||| BitVec.ofNat 64 i

def mapVmapsRSegment (s : SegmentTable) (vaddr : BitVec 64) (bolted : Option ℕ)
    (vsid : Option (BitVec 64)) (logPageSize : ℕ) (pageTable : LargePageInfo) : SegmentTable :=
  let vsid := vsid.getD ((vaddr >>> 28) ||| 0x0001000000000#64)
  let vsidword := (vsid <<< 12) ||| 0x400#64
  let vsidword := if logPageSize = LOG_PAGE_SIZE then vsidword
    else vsidword ||| (0x100#64 ||| BitVec.ofNat 64 (pageTable.getLS logPageSize))
  match bolted with
  | some i => s.setEntry i ⟨vsidword, esidWord vaddr i⟩
  | none =>
    match s.findSegmentTableEntry vaddr with
    | some _ => s
    | none =>
      let (i, s) := s.nextCacheNdx
      s.setEntry i ⟨vsidword, esidWord vaddr i⟩

/-- The addresses that are bolted, and the page sizes. -/
structure Bolted where
  criticalPage : BitVec 64
  this : BitVec 64
  boltedRfiStatePage : BitVec 64
  boltedRfiStatePageSize : BitVec 64
  exceptionLocal : BitVec 64
  kernelPSRVSID : BitVec 52
  commonPSpecificRegionStart : BitVec 64
  commonPSRVSID : BitVec 52
  pageTable : LargePageInfo

/-- A further bolted entry, and the number of them. -/
def bolt (pageTable : LargePageInfo) (vaddr : BitVec 64) (vsid : Option (BitVec 64))
    (logPageSize : ℕ) (p : SegmentTable × ℕ) : SegmentTable × ℕ :=
  (p.1.mapVmapsRSegment vaddr (some p.2) vsid logPageSize pageTable, p.2 + 1)

/-- `for (uval i=0; i<boltedPageSize; i += SEGMENT_SIZE)` -/
def boltRfiStatePages (b : Bolted) (p : SegmentTable × ℕ) : SegmentTable × ℕ :=
  (List.range ((b.boltedRfiStatePageSize.toNat + 0xFFFFFFF) / 0x10000000)).foldl
    (fun p k =>
      let page := b.boltedRfiStatePage + BitVec.ofNat 64 (k * 0x10000000)
      match p.1.findSegmentTableEntry page with
      | some _ => p
      | none => bolt b.pageTable page none b.pageTable.getLogLargestPageSize p) p

def setupBoltedSegments (s : SegmentTable) (b : Bolted) : SegmentTable × ℕ :=
  let logLargestPageSize := b.pageTable.getLogLargestPageSize
  let p := bolt b.pageTable b.criticalPage none logLargestPageSize (s, 0)
  let p := if (b.criticalPage ^^^ b.this) &&& -0x10000000#64 = 0#64 then p
    else bolt b.pageTable b.this none logLargestPageSize p
  let p := boltRfiStatePages b p
  let p := bolt b.pageTable b.exceptionLocal (some (b.kernelPSRVSID.setWidth 64)) LOG_PAGE_SIZE p
  bolt b.pageTable b.commonPSpecificRegionStart (some (b.commonPSRVSID.setWidth 64))
    LOG_PAGE_SIZE p

/-- From whatever the memory of the table holds. -/
def init (s : SegmentTable) (b : Bolted) : SegmentTable :=
  let s := s.setEntry 1 ⟨0#64, 1#64⟩
  let (s, numBolted) := s.setupBoltedSegments b
  { s with
    numBolted := numBolted
    cacheMax := numBolted
    cacheNext := numBolted
    slbNext := numBolted }

/-- `current` says whether the table is the one in use; the buffer is loaded only then. -/
def mapSegment (s : SegmentTable) (pageTable : LargePageInfo) (current : Bool) (VSID : BitVec 52)
    (vaddr : BitVec 64) (logPageSize : ℕ) : SegmentTable :=
  let vsid := (VSID.setWidth 64 <<< 12) ||| 0x400#64
  let vsid := if logPageSize = LOG_PAGE_SIZE then vsid
    else vsid ||| (0x100#64 ||| (BitVec.ofNat 64 (pageTable.getLS logPageSize) <<< 4))
  let s := if current then s.nextSlbNdx else s
  match s.findSegmentTableEntry vaddr with
  | some _ => s
  | none =>
    let (i, s) := s.nextCacheNdx
    s.setEntry i ⟨vsid, esidWord vaddr i⟩

def unmapSegment (s : SegmentTable) (vaddr : BitVec 64) : SegmentTable :=
  match s.findSegmentTableEntry vaddr with
  | none => s
  | some index =>
    let s := { s with
      cacheMax := s.cacheMax - 1
      cacheNext := min s.cacheNext (s.cacheMax - 1) }
    let s := if index = s.cacheMax then s
      else s.setEntry index ((s.SLBCache s.cacheMax).setIndex index)
    s.setEntry s.cacheMax { s.SLBCache s.cacheMax with esid := BitVec.ofNat 64 s.cacheMax }

end SegmentTable

/-! ## The fields of the words -/

section

theorem mask_getLsbD (j : ℕ) :
    (-0x10000000#64).getLsbD j = (decide (28 ≤ j) && decide (j < 64)) := by
  have hmask : -0x10000000#64 = ~~~BitVec.ofNat 64 (2 ^ 28 - 1) := by decide
  rw [hmask, BitVec.getLsbD_not, BitVec.getLsbD_ofNat, Nat.testBit_two_pow_sub_one]
  by_cases h : j < 28
  · simp [h, Nat.lt_of_lt_of_le h (by decide : 28 ≤ 64)]
  · simp [h, Nat.le_of_not_lt h]

theorem valid_getLsbD (j : ℕ) : (0x8000000#64).getLsbD j = decide (j = 27) := by
  have htwo : 0x8000000#64 = BitVec.twoPow 64 27 := by decide
  rw [htwo, BitVec.getLsbD_twoPow]
  simp [eq_comm]

theorem ofNat_getLsbD {n k i : ℕ} (hi : i < 2 ^ k) {j : ℕ} (hj : k ≤ j) :
    (BitVec.ofNat n i).getLsbD j = false := by
  rw [BitVec.getLsbD_ofNat, Nat.testBit_lt_two_pow, Bool.and_false]
  exact hi.trans_le (Nat.pow_le_pow_right (by decide) hj)

open SegmentTable

theorem esidWord_getLsbD (vaddr : BitVec 64) (i j : ℕ) : (esidWord vaddr i).getLsbD j =
      ((vaddr.getLsbD j && (decide (28 ≤ j) && decide (j < 64)) || decide (j = 27)) ||
        (BitVec.ofNat 64 i).getLsbD j) := by
  rw [esidWord, BitVec.getLsbD_or, BitVec.getLsbD_or, BitVec.getLsbD_and, mask_getLsbD,
    valid_getLsbD]

variable {v : BitVec 64} {vaddr : BitVec 64} {i : ℕ}

@[simp] theorem esidWord_ESID (hi : i < 4096) :
    SLBEntry.ESID ⟨v, esidWord vaddr i⟩ = segmentOf vaddr := by
  apply BitVec.eq_of_getLsbD_eq
  intro j hj
  have hlow : (BitVec.ofNat 64 i).getLsbD (28 + j) = false :=
    ofNat_getLsbD (k := 12) hi (by omega)
  have hne : ¬ 28 + j = 27 := by omega
  have hlt : 28 + j < 64 := by omega
  rw [SLBEntry.ESID, segmentOf, BitVec.getLsbD_extractLsb', BitVec.getLsbD_extractLsb',
    esidWord_getLsbD, hlow]
  simp [hne, hlt]

@[simp] theorem esidWord_V : SLBEntry.V ⟨v, esidWord vaddr i⟩ = true := by
  rw [SLBEntry.V, esidWord_getLsbD]
  simp

@[simp] theorem esidWord_index (hi : i < 4096) : SLBEntry.index ⟨v, esidWord vaddr i⟩ = i := by
  have hword : (esidWord vaddr i).extractLsb' 0 12 = BitVec.ofNat 12 i := by
    apply BitVec.eq_of_getLsbD_eq
    intro j hj
    have hge : ¬ 28 ≤ j := by omega
    have hne : ¬ j = 27 := by omega
    have hlt : j < 64 := by omega
    rw [BitVec.getLsbD_extractLsb', Nat.zero_add, esidWord_getLsbD, BitVec.getLsbD_ofNat,
      BitVec.getLsbD_ofNat]
    simp [hge, hne, hlt, hj]
  rw [SLBEntry.index, hword, BitVec.toNat_ofNat]
  exact Nat.mod_eq_of_lt hi

theorem setIndex_getLsbD (e : SLBEntry) (i : ℕ) {j : ℕ} (hj : 12 ≤ j) :
    (e.setIndex i).esid.getLsbD j = e.esid.getLsbD j := by
  have hlow : (BitVec.ofNat 64 (i % 4096)).getLsbD j = false :=
    ofNat_getLsbD (k := 12) (Nat.mod_lt _ (by decide)) hj
  have hmask : (~~~0xFFF#64).getLsbD j = decide (j < 64) := by
    have hones : (0xFFF#64).getLsbD j = false := ofNat_getLsbD (k := 12) (by decide) hj
    rw [BitVec.getLsbD_not, hones, Bool.not_false, Bool.and_true]
  rw [SLBEntry.setIndex, BitVec.getLsbD_or, hlow, Bool.or_false, BitVec.getLsbD_and, hmask]
  by_cases hlt : j < 64
  · simp [hlt]
  · simp [hlt, BitVec.getLsbD_of_ge _ _ (Nat.le_of_not_lt hlt)]

@[simp] theorem setIndex_VSID (e : SLBEntry) (i : ℕ) : (e.setIndex i).VSID = e.VSID := rfl

@[simp] theorem setIndex_ESID (e : SLBEntry) (i : ℕ) : (e.setIndex i).ESID = e.ESID := by
  apply BitVec.eq_of_getLsbD_eq
  intro j hj
  rw [SLBEntry.ESID, SLBEntry.ESID, BitVec.getLsbD_extractLsb', BitVec.getLsbD_extractLsb',
    setIndex_getLsbD e i (by omega)]

@[simp] theorem setIndex_V (e : SLBEntry) (i : ℕ) : (e.setIndex i).V = e.V :=
  setIndex_getLsbD e i (by decide)

@[simp] theorem setIndex_index (e : SLBEntry) (hi : i < 4096) : (e.setIndex i).index = i := by
  have hword : (e.setIndex i).esid.extractLsb' 0 12 = BitVec.ofNat 12 i := by
    apply BitVec.eq_of_getLsbD_eq
    intro j hj
    have hmask : (~~~0xFFF#64).getLsbD j = false := by
      have hones : 0xFFF#64 = BitVec.ofNat 64 (2 ^ 12 - 1) := by decide
      rw [BitVec.getLsbD_not, hones, BitVec.getLsbD_ofNat, Nat.testBit_two_pow_sub_one]
      simp [hj]
    have hlt : j < 64 := by omega
    rw [BitVec.getLsbD_extractLsb', Nat.zero_add, SLBEntry.setIndex, BitVec.getLsbD_or,
      BitVec.getLsbD_and, hmask, Nat.mod_eq_of_lt hi, BitVec.getLsbD_ofNat, BitVec.getLsbD_ofNat]
    simp [hlt, hj]
  rw [SLBEntry.index, hword, BitVec.toNat_ofNat]
  exact Nat.mod_eq_of_lt hi

theorem vsidWord_VSID (v : BitVec 52) {low : BitVec 64} (hlow : low.toNat < 4096)
    (esid : BitVec 64) : SLBEntry.VSID ⟨(v.setWidth 64 <<< 12) ||| low, esid⟩ = v := by
  apply BitVec.eq_of_getLsbD_eq
  intro j hj
  have hfalse : low.getLsbD (12 + j) = false := by
    have hof := ofNat_getLsbD (n := 64) (k := 12) hlow (Nat.le_add_right 12 j)
    rwa [BitVec.ofNat_toNat, BitVec.setWidth_eq] at hof
  have hlt : 12 + j < 64 := by omega
  rw [SLBEntry.VSID, BitVec.getLsbD_extractLsb', BitVec.getLsbD_or, hfalse]
  simp [hlt, hj]

theorem LargePageInfo.getLS_lt (t : LargePageInfo) (logPageSize : ℕ) :
    t.getLS logPageSize < 8 := by
  rw [getLS]
  cases hfind : t.logSizes.findIdx? (· == logPageSize) with
  | none => decide
  | some k => exact (List.findIdx?_eq_some_iff_getElem.mp hfind).1.trans_le t.numSizes_le

theorem mapSegment_VSID (t : LargePageInfo) (v : BitVec 52) (logPageSize : ℕ) (esid : BitVec 64) :
    SLBEntry.VSID ⟨if logPageSize = SegmentTable.LOG_PAGE_SIZE
      then (v.setWidth 64 <<< 12) ||| 0x400#64
      else (v.setWidth 64 <<< 12) ||| 0x400#64 |||
        (0x100#64 ||| (BitVec.ofNat 64 (t.getLS logPageSize) <<< 4)), esid⟩ = v := by
  by_cases hsize : logPageSize = SegmentTable.LOG_PAGE_SIZE
  · rw [if_pos hsize]
    exact vsidWord_VSID v (by decide) esid
  · rw [if_neg hsize, BitVec.or_assoc]
    refine vsidWord_VSID v ?_ esid
    have hLS := t.getLS_lt logPageSize
    generalize t.getLS logPageSize = k at hLS
    revert k
    decide

end

namespace SegmentTable

/-! ## The bolted entries -/

/-- The first `n` entries are valid and name their slots. -/
def BoltedTo (p : SegmentTable × ℕ) : Prop :=
  ∀ i < p.2, i < 4096 → (p.1.SLBCache i).V = true ∧ (p.1.SLBCache i).index = i

theorem BoltedTo.bolt {p : SegmentTable × ℕ} (h : BoltedTo p) (t : LargePageInfo)
    (vaddr : BitVec 64) (vsid : Option (BitVec 64)) (logPageSize : ℕ) :
    BoltedTo (bolt t vaddr vsid logPageSize p) := by
  intro i hi hlt
  simp only [SegmentTable.bolt, mapVmapsRSegment, setEntry]
  rcases Nat.lt_succ_iff_lt_or_eq.mp hi with hi | rfl
  · rw [update_of_ne hi.ne]
    exact h i hi hlt
  · rw [update_self]
    exact ⟨esidWord_V, esidWord_index hlt⟩

theorem BoltedTo.boltRfiStatePages {p : SegmentTable × ℕ} (h : BoltedTo p) (b : Bolted) :
    BoltedTo (boltRfiStatePages b p) := by
  rw [SegmentTable.boltRfiStatePages]
  generalize List.range _ = pages
  induction pages generalizing p with
  | nil => exact h
  | cons k pages ih =>
    rw [List.foldl_cons]
    apply ih
    dsimp only
    split
    · exact h
    · exact h.bolt _ _ _ _

theorem setupBoltedSegments_boltedTo (s : SegmentTable) (b : Bolted) :
    BoltedTo (s.setupBoltedSegments b) := by
  rw [setupBoltedSegments]
  have hnone : BoltedTo (s, 0) := fun i hi => absurd hi (Nat.not_lt_zero i)
  have hcode := hnone.bolt b.pageTable b.criticalPage none b.pageTable.getLogLargestPageSize
  apply BoltedTo.bolt
  apply BoltedTo.bolt
  apply BoltedTo.boltRfiStatePages
  split
  · exact hcode
  · exact hcode.bolt _ _ _ _

theorem init_bolted (s : SegmentTable) (b : Bolted) {i : ℕ} (hi : i < (s.init b).numBolted)
    (hlt : i < 4096) : ((s.init b).SLBCache i).V = true ∧ ((s.init b).SLBCache i).index = i :=
  setupBoltedSegments_boltedTo _ b i hi hlt

/-! ## Runs -/

inductive Op
  | mapSegment (current : Bool) (VSID : BitVec 52) (vaddr : BitVec 64) (logPageSize : ℕ)
  | unmapSegment (vaddr : BitVec 64)

/-- The table, and what each segment was last mapped to. -/
structure Client where
  table : SegmentTable
  last : BitVec 36 → Option (BitVec 52)

def step (t : LargePageInfo) (c : Client) : Op → Client
  | .mapSegment current VSID vaddr logPageSize =>
    ⟨c.table.mapSegment t current VSID vaddr logPageSize,
      update c.last (segmentOf vaddr) (some VSID)⟩
  | .unmapSegment vaddr => ⟨c.table.unmapSegment vaddr, c.last⟩

/-- A segment that is in the cache is mapped to what it was mapped to, and a bolted one stays. -/
def adm (c : Client) : Op → Prop
  | .mapSegment _ VSID vaddr _ => c.table.findSegmentTableEntry vaddr ≠ none →
      c.last (segmentOf vaddr) = some VSID
  | .unmapSegment vaddr => ∀ i ∈ c.table.findSegmentTableEntry vaddr, c.table.numBolted ≤ i

def machine (t : LargePageInfo) : Machine Client Op := ⟨step t, adm⟩

instance (t : LargePageInfo) (c : Client) : ∀ op, Decidable ((machine t).adm c op)
  | .mapSegment .. => inferInstanceAs (Decidable (_ → _))
  | .unmapSegment vaddr => inferInstanceAs (Decidable
      (∀ i ∈ c.table.findSegmentTableEntry vaddr, c.table.numBolted ≤ i))

/-- After `init` the bolted segments are mapped. -/
def start (s : SegmentTable) (b : Bolted) : Client :=
  ⟨s.init b, fun e => ((List.range (s.init b).numBolted).find? fun i =>
    ((s.init b).SLBCache i).ESID == e).map fun i => ((s.init b).SLBCache i).VSID⟩

/-- The bolted entries fit, and are for distinct segments. -/
def Distinct (s : SegmentTable) : Prop :=
  s.numBolted < NumCached ∧ ∀ i < s.numBolted, ∀ j < s.numBolted,
    (s.SLBCache i).ESID = (s.SLBCache j).ESID → i = j

instance (s : SegmentTable) : Decidable (Distinct s) :=
  inferInstanceAs (Decidable (_ ∧ ∀ i < s.numBolted, ∀ j < s.numBolted, _))

/-- The counters are in order, and the entries below `cacheMax` are valid, name their slots and
map distinct segments to what these were last mapped to. -/
structure Inv (s₀ : SegmentTable) (c : Client) : Prop where
  numBolted_eq : c.table.numBolted = s₀.numBolted
  bolted : ∀ i < s₀.numBolted, c.table.SLBCache i = s₀.SLBCache i
  numBolted_le : c.table.numBolted ≤ c.table.cacheNext
  cacheNext_le : c.table.cacheNext ≤ c.table.cacheMax
  cacheMax_le : c.table.cacheMax ≤ NumCached
  cacheNext_lt : c.table.cacheNext < NumCached
  index : ∀ i < c.table.cacheMax, (c.table.SLBCache i).index = i
  valid : ∀ i < c.table.cacheMax, (c.table.SLBCache i).V = true
  distinct : ∀ i < c.table.cacheMax, ∀ j < c.table.cacheMax,
    (c.table.SLBCache i).ESID = (c.table.SLBCache j).ESID → i = j
  last : ∀ i < c.table.cacheMax,
    c.last (c.table.SLBCache i).ESID = some (c.table.SLBCache i).VSID

theorem start_inv {s : SegmentTable} {b : Bolted} (h : Distinct (s.init b)) :
    Inv (s.init b) (start s b) where
  numBolted_eq := rfl
  bolted _ _ := rfl
  numBolted_le := le_refl _
  cacheNext_le := le_refl _
  cacheMax_le := h.1.le
  cacheNext_lt := h.1
  index i hi := (init_bolted s b hi (hi.trans (h.1.trans (by decide)))).2
  valid i hi := (init_bolted s b hi (hi.trans (h.1.trans (by decide)))).1
  distinct := h.2
  last := by
    intro i hi
    have hfind : ((List.range (s.init b).numBolted).find? fun j =>
        ((s.init b).SLBCache j).ESID == ((s.init b).SLBCache i).ESID) = some i := by
      cases hj : (List.range (s.init b).numBolted).find? fun j =>
          ((s.init b).SLBCache j).ESID == ((s.init b).SLBCache i).ESID with
      | none =>
        have hnot := List.find?_eq_none.mp hj i (List.mem_range.mpr hi)
        exact absurd (beq_self_eq_true ((s.init b).SLBCache i).ESID) hnot
      | some j =>
        have hlt := List.mem_range.mp (List.mem_of_find?_eq_some hj)
        have htest := List.find?_some hj
        exact congrArg some (h.2 j hlt i hi (beq_iff_eq.mp htest))
    exact congrArg (Option.map fun i => ((s.init b).SLBCache i).VSID) hfind

/-- A segment is in the cache with a virtual segment identifier. -/
def Caches (s : SegmentTable) (e : BitVec 36) (v : BitVec 52) : Prop :=
  ∃ i < s.cacheMax, (s.SLBCache i).V = true ∧ (s.SLBCache i).ESID = e ∧ (s.SLBCache i).VSID = v

section

variable {s₀ : SegmentTable} {c : Client} {vaddr : BitVec 64} {i : ℕ}

theorem Inv.find_eq_some (h : Inv s₀ c) : c.table.findSegmentTableEntry vaddr = some i ↔
    i < c.table.cacheMax ∧ (c.table.SLBCache i).ESID = segmentOf vaddr := by
  constructor
  · intro hfind
    have hmem := List.mem_range.mp (List.mem_of_find?_eq_some hfind)
    have htest := List.find?_some hfind
    rw [Bool.and_eq_true, beq_iff_eq] at htest
    exact ⟨hmem, htest.2⟩
  · rintro ⟨hi, hesid⟩
    cases hfind : c.table.findSegmentTableEntry vaddr with
    | none =>
      have hnot := List.find?_eq_none.mp hfind i (List.mem_range.mpr hi)
      rw [h.valid i hi, hesid, beq_self_eq_true] at hnot
      exact absurd rfl hnot
    | some j =>
      have hmem := List.mem_range.mp (List.mem_of_find?_eq_some hfind)
      have htest := List.find?_some hfind
      rw [Bool.and_eq_true, beq_iff_eq] at htest
      exact congrArg some (h.distinct j hmem i hi (htest.2.trans hesid.symm))

theorem Inv.find_eq_none (h : Inv s₀ c) : c.table.findSegmentTableEntry vaddr = none ↔
    ∀ i < c.table.cacheMax, (c.table.SLBCache i).ESID ≠ segmentOf vaddr := by
  rw [Option.eq_none_iff_forall_ne_some]
  constructor
  · intro hnone i hi hesid
    exact hnone i (h.find_eq_some.mpr ⟨hi, hesid⟩)
  · intro hall i hfind
    obtain ⟨hi, hesid⟩ := h.find_eq_some.mp hfind
    exact hall i hi hesid

/-! ## One call -/

variable (t : LargePageInfo) (current : Bool) (VSID : BitVec 52) (vaddr : BitVec 64)
  (logPageSize : ℕ)

omit c i in
theorem mapSegment_found {s : SegmentTable} (hfind : s.findSegmentTableEntry vaddr ≠ none) :
    ∃ slbNext, s.mapSegment t current VSID vaddr logPageSize = { s with slbNext := slbNext } := by
  obtain ⟨j, hj⟩ := Option.ne_none_iff_exists'.mp hfind
  cases current with
  | false =>
    refine ⟨s.slbNext, ?_⟩
    simp [mapSegment, hj]
  | true =>
    have hj' : s.nextSlbNdx.findSegmentTableEntry vaddr = some j := hj
    refine ⟨s.nextSlbNdx.slbNext, ?_⟩
    simp only [mapSegment, if_true, hj']
    rfl

omit c i in
theorem mapSegment_new {s : SegmentTable} (hlt : s.cacheNext < NumCached)
    (hfind : s.findSegmentTableEntry vaddr = none) :
    ∃ slbNext e, s.mapSegment t current VSID vaddr logPageSize =
        { slbNext := slbNext
          cacheNext := if s.cacheNext + 1 = NumCached then s.numBolted else s.cacheNext + 1
          cacheMax := max s.cacheMax (s.cacheNext + 1)
          numBolted := s.numBolted
          SLBCache := update s.SLBCache s.cacheNext e } ∧
      e.VSID = VSID ∧ e.ESID = segmentOf vaddr ∧ e.V = true ∧ e.index = s.cacheNext := by
  have hword : s.cacheNext < 4096 := hlt.trans (by decide)
  cases current with
  | false =>
    refine ⟨s.slbNext, _, ?_, mapSegment_VSID t VSID logPageSize _, esidWord_ESID hword,
      esidWord_V, esidWord_index hword⟩
    simp [mapSegment, hfind, nextCacheNdx, setEntry]
  | true =>
    have hfind' : s.nextSlbNdx.findSegmentTableEntry vaddr = none := hfind
    refine ⟨s.nextSlbNdx.slbNext, _, ?_, mapSegment_VSID t VSID logPageSize _,
      esidWord_ESID hword, esidWord_V, esidWord_index hword⟩
    simp only [mapSegment, if_true, hfind']
    rfl

omit c i in
theorem unmapSegment_found {s : SegmentTable} {i : ℕ}
    (hfind : s.findSegmentTableEntry vaddr = some i) :
    ∃ cache, s.unmapSegment vaddr =
        { s with
          cacheMax := s.cacheMax - 1
          cacheNext := min s.cacheNext (s.cacheMax - 1)
          SLBCache := cache } ∧
      ∀ j < s.cacheMax - 1,
        cache j = if j = i then (s.SLBCache (s.cacheMax - 1)).setIndex i else s.SLBCache j := by
  by_cases hlast : i = s.cacheMax - 1
  · refine ⟨update s.SLBCache (s.cacheMax - 1)
      { s.SLBCache (s.cacheMax - 1) with esid := BitVec.ofNat 64 (s.cacheMax - 1) }, ?_,
      fun j hj => ?_⟩
    · simp only [unmapSegment, hfind, if_pos hlast]
      rfl
    · rw [update_of_ne hj.ne, if_neg (hlast ▸ hj.ne)]
  · have hmoved : update s.SLBCache i ((s.SLBCache (s.cacheMax - 1)).setIndex i)
        (s.cacheMax - 1) = s.SLBCache (s.cacheMax - 1) :=
      update_of_ne (Ne.symm hlast) _ _
    refine ⟨update (update s.SLBCache i
      ((s.SLBCache (s.cacheMax - 1)).setIndex i)) (s.cacheMax - 1)
      { s.SLBCache (s.cacheMax - 1) with esid := BitVec.ofNat 64 (s.cacheMax - 1) }, ?_,
      fun j hj => ?_⟩
    · simp only [unmapSegment, hfind, if_neg hlast, setEntry, hmoved]
    · rw [update_of_ne hj.ne]
      by_cases hji : j = i
      · rw [hji, update_self, if_pos rfl]
      · rw [update_of_ne hji, if_neg hji]

/-! ## The invariant -/

variable {t current VSID vaddr logPageSize}

theorem Inv.mapSegment (h : Inv s₀ c) (hadm : adm c (.mapSegment current VSID vaddr logPageSize)) :
    Inv s₀ (step t c (.mapSegment current VSID vaddr logPageSize)) := by
  by_cases hfind : c.table.findSegmentTableEntry vaddr = none
  · obtain ⟨slbNext, e, heq, hVSID, hESID, hV, hindex⟩ :=
      mapSegment_new t current VSID vaddr logPageSize h.cacheNext_lt hfind
    have hnone := h.find_eq_none.mp hfind
    have hnext := h.cacheNext_le
    have hle := h.cacheMax_le
    have hnum := h.numBolted_le
    have hlt := h.cacheNext_lt
    have hother : ∀ j < max c.table.cacheMax (c.table.cacheNext + 1), j ≠ c.table.cacheNext →
        j < c.table.cacheMax ∧
          update c.table.SLBCache c.table.cacheNext e j = c.table.SLBCache j := by
      intro j hj hne
      refine ⟨?_, update_of_ne hne _ _⟩
      omega
    have hnew : update c.table.SLBCache c.table.cacheNext e c.table.cacheNext = e :=
      update_self _ _ _
    rw [step, heq]
    refine ⟨h.numBolted_eq, fun j hj => ?_, ?_, ?_, ?_, ?_, fun j hj => ?_, fun j hj => ?_,
      fun j hj k hk hjk => ?_, fun j hj => ?_⟩
    · have hne : j ≠ c.table.cacheNext := by
        rw [← h.numBolted_eq] at hj
        exact (hj.trans_le hnum).ne
      exact (update_of_ne hne _ _).trans (h.bolted j hj)
    · dsimp only
      split <;> omega
    · dsimp only
      split <;> omega
    · exact max_le hle hlt
    · dsimp only
      split <;> omega
    · by_cases hne : j = c.table.cacheNext
      · rw [hne]
        exact (congrArg SLBEntry.index hnew).trans hindex
      · exact (congrArg SLBEntry.index (hother j hj hne).2).trans (h.index j (hother j hj hne).1)
    · by_cases hne : j = c.table.cacheNext
      · rw [hne]
        exact (congrArg SLBEntry.V hnew).trans hV
      · exact (congrArg SLBEntry.V (hother j hj hne).2).trans (h.valid j (hother j hj hne).1)
    · dsimp only at hjk
      by_cases hj' : j = c.table.cacheNext
      · by_cases hk' : k = c.table.cacheNext
        · exact hj'.trans hk'.symm
        · rw [hj', hnew, hESID, (hother k hk hk').2] at hjk
          exact absurd hjk.symm (hnone k (hother k hk hk').1)
      · by_cases hk' : k = c.table.cacheNext
        · rw [hk', hnew, hESID, (hother j hj hj').2] at hjk
          exact absurd hjk (hnone j (hother j hj hj').1)
        · rw [(hother j hj hj').2, (hother k hk hk').2] at hjk
          exact h.distinct j (hother j hj hj').1 k (hother k hk hk').1 hjk
    · dsimp only
      by_cases hne : j = c.table.cacheNext
      · rw [hne, hnew, hESID, update_self, hVSID]
      · rw [(hother j hj hne).2, update_of_ne (hnone j (hother j hj hne).1)]
        exact h.last j (hother j hj hne).1
  · obtain ⟨slbNext, heq⟩ := mapSegment_found t current VSID vaddr logPageSize hfind
    have hlast := hadm hfind
    have hsame : update c.last (segmentOf vaddr) (some VSID) = c.last := by
      rw [← hlast, update_eq_self]
    rw [step, heq, hsame]
    exact ⟨h.numBolted_eq, h.bolted, h.numBolted_le, h.cacheNext_le, h.cacheMax_le,
      h.cacheNext_lt, h.index, h.valid, h.distinct, h.last⟩

theorem Inv.unmapSegment_spec (h : Inv s₀ c)
    (hfind : c.table.findSegmentTableEntry vaddr = some i) :
    ∃ cache, ∃ was : ℕ → ℕ, c.table.unmapSegment vaddr =
        { c.table with
          cacheMax := c.table.cacheMax - 1
          cacheNext := min c.table.cacheNext (c.table.cacheMax - 1)
          SLBCache := cache } ∧
      (∀ j, was j = if j = i then c.table.cacheMax - 1 else j) ∧
      (∀ j < c.table.cacheMax - 1, j ≠ i → cache j = c.table.SLBCache j) ∧
      ∀ j < c.table.cacheMax - 1, was j < c.table.cacheMax ∧
        (cache j).ESID = (c.table.SLBCache (was j)).ESID ∧
        (cache j).VSID = (c.table.SLBCache (was j)).VSID ∧
        (cache j).V = (c.table.SLBCache (was j)).V ∧ (cache j).index = j := by
  obtain ⟨cache, heq, hcache⟩ := unmapSegment_found vaddr hfind
  obtain ⟨hi, -⟩ := h.find_eq_some.mp hfind
  refine ⟨cache, _, heq, fun _ => rfl, fun j hj hne => ?_, fun j hj => ?_⟩
  · rw [hcache j hj, if_neg hne]
  · rw [hcache j hj]
    by_cases hji : j = i
    · have hslot : i < 4096 := hi.trans_le (h.cacheMax_le.trans (by decide))
      rw [if_pos hji, if_pos hji, setIndex_ESID, setIndex_VSID, setIndex_V, setIndex_index _ hslot]
      exact ⟨Nat.sub_lt (Nat.zero_lt_of_lt hi) Nat.one_pos, rfl, rfl, rfl, hji.symm⟩
    · have hj' : j < c.table.cacheMax := hj.trans_le (Nat.sub_le _ _)
      rw [if_neg hji, if_neg hji]
      exact ⟨hj', rfl, rfl, rfl, h.index j hj'⟩

theorem Inv.unmapSegment (h : Inv s₀ c) (hadm : adm c (.unmapSegment vaddr)) :
    Inv s₀ (step t c (.unmapSegment vaddr)) := by
  cases hfind : c.table.findSegmentTableEntry vaddr with
  | none =>
    have hsame : c.table.unmapSegment vaddr = c.table := by rw [SegmentTable.unmapSegment, hfind]
    rw [step, hsame]
    exact h
  | some i =>
    obtain ⟨cache, was, heq, hwas, hstays, hmoved⟩ := h.unmapSegment_spec hfind
    obtain ⟨hi, -⟩ := h.find_eq_some.mp hfind
    have hbolted : c.table.numBolted ≤ i := hadm i hfind
    have hlast : i ≤ c.table.cacheMax - 1 := Nat.le_sub_one_of_lt hi
    rw [step, heq]
    refine ⟨h.numBolted_eq, fun j hj => ?_, le_min h.numBolted_le (hbolted.trans hlast),
      min_le_right _ _, (Nat.sub_le _ _).trans h.cacheMax_le,
      (min_le_left _ _).trans_lt h.cacheNext_lt, fun j hj => (hmoved j hj).2.2.2.2,
      fun j hj => ?_, fun j hj k hk hjk => ?_, fun j hj => ?_⟩
    · have hji : j < i := (h.numBolted_eq ▸ hj : j < c.table.numBolted).trans_le hbolted
      exact (hstays j (hji.trans_le hlast) hji.ne).trans (h.bolted j hj)
    · obtain ⟨hlt, -, -, hV, -⟩ := hmoved j hj
      exact hV.trans (h.valid _ hlt)
    · obtain ⟨hj', hjE, -⟩ := hmoved j hj
      obtain ⟨hk', hkE, -⟩ := hmoved k hk
      have hsame := h.distinct _ hj' _ hk' (hjE.symm.trans (hjk.trans hkE))
      rw [hwas, hwas] at hsame
      dsimp only at hj hk
      split at hsame <;> split at hsame <;> omega
    · obtain ⟨hj', hjE, hjV, -⟩ := hmoved j hj
      dsimp only
      rw [hjE, hjV]
      exact h.last _ hj'

theorem Inv.step (h : Inv s₀ c) {op : Op} (hadm : adm c op) :
    Inv s₀ (SegmentTable.step t c op) := by
  cases op with
  | mapSegment current VSID vaddr logPageSize => exact h.mapSegment hadm
  | unmapSegment vaddr => exact h.unmapSegment hadm

/-! ## What is found, and what disappears -/
theorem Inv.find_last (h : Inv s₀ c) (hfind : c.table.findSegmentTableEntry vaddr = some i) :
    c.last (segmentOf vaddr) = some (c.table.SLBCache i).VSID := by
  obtain ⟨hi, hESID⟩ := h.find_eq_some.mp hfind
  rw [← hESID]
  exact h.last i hi

theorem Inv.unmapSegment_find (t : LargePageInfo) (h : Inv s₀ c) (hadm : adm c (.unmapSegment vaddr)) :
    (c.table.unmapSegment vaddr).findSegmentTableEntry vaddr = none := by
  have hinv : Inv s₀ (SegmentTable.step t c (.unmapSegment vaddr)) := h.unmapSegment hadm
  cases hfind : c.table.findSegmentTableEntry vaddr with
  | none =>
    rw [SegmentTable.unmapSegment, hfind]
    exact hfind
  | some i =>
    obtain ⟨cache, was, heq, hwas, -, hmoved⟩ := h.unmapSegment_spec hfind
    obtain ⟨hi, hESID⟩ := h.find_eq_some.mp hfind
    refine hinv.find_eq_none.mpr fun j hj hjE => ?_
    simp only [SegmentTable.step, heq] at hj hjE
    obtain ⟨hj', hsame, -⟩ := hmoved j hj
    -- it would be the entry that has gone
    have hgone := h.distinct _ hj' i hi ((hsame.symm.trans hjE).trans hESID.symm)
    rw [hwas] at hgone
    split at hgone <;> omega

theorem Inv.mapSegment_find (h : Inv s₀ c)
    (hadm : adm c (.mapSegment current VSID vaddr logPageSize)) :
    ∃ i, (c.table.mapSegment t current VSID vaddr logPageSize).findSegmentTableEntry vaddr =
      some i ∧ ((c.table.mapSegment t current VSID vaddr logPageSize).SLBCache i).VSID = VSID := by
  have hinv : Inv s₀ (SegmentTable.step t c (.mapSegment current VSID vaddr logPageSize)) :=
    h.mapSegment hadm
  have hfound : ∃ i < (c.table.mapSegment t current VSID vaddr logPageSize).cacheMax,
      ((c.table.mapSegment t current VSID vaddr logPageSize).SLBCache i).ESID =
        segmentOf vaddr := by
    cases hfind : c.table.findSegmentTableEntry vaddr with
    | none =>
      obtain ⟨slbNext, e, heq, -, hESID, -⟩ :=
        mapSegment_new t current VSID vaddr logPageSize h.cacheNext_lt hfind
      refine ⟨c.table.cacheNext, ?_, ?_⟩
      · rw [heq]
        exact lt_max_of_lt_right (Nat.lt_succ_self _)
      · rw [heq]
        exact (congrArg SLBEntry.ESID (update_self _ _ _)).trans hESID
    | some i =>
      obtain ⟨slbNext, heq⟩ := mapSegment_found t current VSID vaddr logPageSize
        (hfind ▸ Option.some_ne_none i)
      rw [heq]
      exact ⟨i, h.find_eq_some.mp hfind⟩
  obtain ⟨i, hi, hESID⟩ := hfound
  have hlast := hinv.last i hi
  refine ⟨i, hinv.find_eq_some.mpr ⟨hi, hESID⟩, ?_⟩
  simp only [SegmentTable.step, hESID, update_self] at hlast
  exact (Option.some.inj hlast).symm

theorem Inv.disappears (h : Inv s₀ c) {op : Op} (hadm : adm c op) {e : BitVec 36} {v : BitVec 52}
    (hcaches : c.table.Caches e v) (hnot : ¬ (SegmentTable.step t c op).table.Caches e v) :
    (∃ vaddr, op = .unmapSegment vaddr ∧ segmentOf vaddr = e) ∨
      ∃ current VSID vaddr logPageSize, op = .mapSegment current VSID vaddr logPageSize ∧
        c.table.findSegmentTableEntry vaddr = none ∧ c.table.cacheNext < c.table.cacheMax ∧
        (c.table.SLBCache c.table.cacheNext).ESID = e := by
  obtain ⟨i, hi, hV, hESID, hVSID⟩ := hcaches
  cases op with
  | mapSegment current VSID vaddr logPageSize =>
    by_cases hfind : c.table.findSegmentTableEntry vaddr = none
    · obtain ⟨slbNext, e', heq, -⟩ :=
        mapSegment_new t current VSID vaddr logPageSize h.cacheNext_lt hfind
      by_cases hne : i = c.table.cacheNext
      · exact .inr ⟨_, _, vaddr, _, rfl, hfind, hne ▸ hi, hne ▸ hESID⟩
      · refine absurd ⟨i, ?_, ?_⟩ hnot
        · rw [SegmentTable.step, heq]
          exact lt_max_of_lt_left hi
        · simp only [SegmentTable.step, heq, update_of_ne hne]
          exact ⟨hV, hESID, hVSID⟩
    · obtain ⟨slbNext, heq⟩ := mapSegment_found t current VSID vaddr logPageSize hfind
      refine absurd ⟨i, ?_⟩ hnot
      simp only [SegmentTable.step, heq]
      exact ⟨hi, hV, hESID, hVSID⟩
  | unmapSegment vaddr =>
    cases hfind : c.table.findSegmentTableEntry vaddr with
    | none =>
      refine absurd ⟨i, ?_⟩ hnot
      have hsame : c.table.unmapSegment vaddr = c.table := by
        rw [SegmentTable.unmapSegment, hfind]
      rw [SegmentTable.step, hsame]
      exact ⟨hi, hV, hESID, hVSID⟩
    | some k =>
      obtain ⟨cache, was, heq, hwas, -, hmoved⟩ := h.unmapSegment_spec hfind
      obtain ⟨hk, hkE⟩ := h.find_eq_some.mp hfind
      by_cases hik : i = k
      · exact .inl ⟨vaddr, rfl, hkE.symm.trans (hik ▸ hESID)⟩
      -- the last entry has moved to the place of the one that went
      obtain ⟨j, hj, hji⟩ : ∃ j < c.table.cacheMax - 1, was j = i := by
        by_cases hlast : i = c.table.cacheMax - 1
        · refine ⟨k, by omega, ?_⟩
          rw [hwas, if_pos rfl, hlast]
        · refine ⟨i, by omega, ?_⟩
          rw [hwas, if_neg hik]
      obtain ⟨-, hjE, hjV, hjvalid, -⟩ := hmoved j hj
      rw [hji] at hjE hjV hjvalid
      refine absurd ⟨j, ?_⟩ hnot
      rw [SegmentTable.step, heq]
      exact ⟨hj, hjvalid.trans hV, hjE.trans hESID, hjV.trans hVSID⟩

end

/-- What a call does that the cache is to keep to. -/
structure Follows (t : LargePageInfo) (c : Client) : Prop where
  unmapped : ∀ vaddr, adm c (.unmapSegment vaddr) →
    (c.table.unmapSegment vaddr).findSegmentTableEntry vaddr = none
  mapped : ∀ current VSID vaddr logPageSize,
    adm c (.mapSegment current VSID vaddr logPageSize) →
    ∃ i, (c.table.mapSegment t current VSID vaddr logPageSize).findSegmentTableEntry vaddr =
      some i ∧ ((c.table.mapSegment t current VSID vaddr logPageSize).SLBCache i).VSID = VSID
  turn : ∀ current VSID vaddr logPageSize, c.table.findSegmentTableEntry vaddr = none →
    (c.table.mapSegment t current VSID vaddr logPageSize).cacheNext =
      if c.table.cacheNext + 1 = NumCached then c.table.numBolted else c.table.cacheNext + 1
  disappears : ∀ op e v, adm c op → c.table.Caches e v → ¬ (step t c op).table.Caches e v →
    (∃ vaddr, op = .unmapSegment vaddr ∧ segmentOf vaddr = e) ∨
      ∃ current VSID vaddr logPageSize, op = .mapSegment current VSID vaddr logPageSize ∧
        c.table.findSegmentTableEntry vaddr = none ∧ c.table.cacheNext < c.table.cacheMax ∧
        (c.table.SLBCache c.table.cacheNext).ESID = e

/-- **The cache.** After any calls the counters are in order, the entries are valid, distinct and
in the slots they name, the bolted ones are as they were, what is found for an address is what its
segment was last mapped to, and an entry goes only if its segment is unmapped or its place has its
turn. -/
theorem run_cache (t : LargePageInfo) (s : SegmentTable) (b : Bolted)
    (hdistinct : Distinct (s.init b)) {ops : List Op} {c : Client}
    (h : (machine t).Run (start s b) ops c) :
    Inv (s.init b) c ∧ (∀ vaddr i, c.table.findSegmentTableEntry vaddr = some i →
      c.last (segmentOf vaddr) = some (c.table.SLBCache i).VSID) ∧ Follows t c := by
  have hinv : Inv (s.init b) c := by
    refine h.invariant (I := Inv (s.init b)) (start_inv hdistinct) ?_
    intro c op hc hadm
    exact Inv.step hc hadm
  refine ⟨hinv, fun vaddr i => hinv.find_last, fun vaddr => hinv.unmapSegment_find t,
    fun _ _ _ _ hadm => hinv.mapSegment_find hadm, fun current VSID vaddr logPageSize hfind => ?_,
    fun op e v hadm => hinv.disappears hadm⟩
  obtain ⟨slbNext, e, heq, -⟩ :=
    mapSegment_new t current VSID vaddr logPageSize hinv.cacheNext_lt hfind
  rw [heq]

/-- One large page size, and four segments to be bolted. -/
def pageSizes : LargePageInfo := ⟨[24], by decide⟩

def boltedSegments : Bolted where
  criticalPage := 0xC000000000000000#64
  this := 0xC000000000001000#64
  boltedRfiStatePage := 0xC000000040000000#64
  boltedRfiStatePageSize := 0x1000#64
  exceptionLocal := 0xD000000000000000#64
  kernelPSRVSID := 7#52
  commonPSpecificRegionStart := 0xE000000000000000#64
  commonPSRVSID := 8#52
  pageTable := pageSizes

def emptyMemory : SegmentTable := ⟨0, 0, 0, 0, fun _ => ⟨0#64, 0#64⟩⟩

/-- Three segments are mapped, and the first of them is unmapped; the third is in its slot then,
and the turn is behind the second. -/
theorem run_cache_unmapped : ∃ c, Inv (emptyMemory.init boltedSegments) c ∧
    c.table.cacheMax = 6 ∧ c.table.cacheNext = 6 ∧
    c.table.findSegmentTableEntry 0x10000000#64 = none ∧
    c.table.findSegmentTableEntry 0x30000000#64 = some 4 ∧
    ((c.table.SLBCache 4).VSID, (c.table.SLBCache 4).index) = (13#52, 4) := by
  have hrun : (machine pageSizes).Run (start emptyMemory boltedSegments)
      [.mapSegment true 11#52 0x10000000#64 12, .mapSegment true 12#52 0x20000000#64 24,
        .mapSegment false 13#52 0x30000000#64 12, .mapSegment true 12#52 0x20001000#64 24,
        .unmapSegment 0x10002000#64] _ :=
    Machine.Admits.run (by decide +kernel)
  exact ⟨_, (run_cache pageSizes emptyMemory boltedSegments (by decide +kernel) hrun).1,
    by decide +kernel, by decide +kernel, by decide +kernel, by decide +kernel, by decide +kernel⟩

end SegmentTable

end K42
