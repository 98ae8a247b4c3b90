import K42.Lib.Run
import K42.Lib.Update
import K42.Mem.VPSet
import Mathlib.Data.BitVec
import Mathlib.Tactic.Ring

/-!
# Shared segments of a file cache

An FCM maps its pages into the address spaces of the regions attached to it. Where a whole
segment lies in a region, the address spaces share one `SegmentHATShared`, found by the file
offset of the start of the segment and by the access mode; elsewhere each address space has a
private segment. A page is unmapped on the processors that have mapped it: from the shared
segments by its distance from their offsets, and from the private ones by each region.

The FCM lock is held over each operation, so an operation is one step.
-/

open Function (update update_cases update_of_ne update_self)

namespace K42

/-- A region that is attached to the FCM. -/
structure FCMCommon.Region (η : Type) where
  hat : η
  regionVaddr : BitVec 64
  regionSize : BitVec 64
  fileOffset : BitVec 64
deriving DecidableEq

/-- A segment of an address space: a shared one of this FCM, named by the two keys under which
`segmentHATList` has it, or a private one. -/
inductive FCMCommon.Seg
  | shared (offkey : BitVec 64) (acckey : ℕ)
  | priv
deriving DecidableEq

/-- `frame` and `ppset` are the fields of the page descriptors, `frame` being `paddr` where
there is a page; `offsets` are the offsets that have had one. `regionInfo` has the `ppset` of a
region, and `segs` the segments of an address space by their first address. The translations are
by processor: of a shared segment from addresses relative to it, and of the private segments of an
address space from addresses. -/
structure FCMCommon (η : Type) where
  frame : BitVec 64 → Option ℕ
  offsets : Finset (BitVec 64)
  ppset : BitVec 64 → VPSet
  regionInfo : FCMCommon.Region η → VPSet
  segs : η → BitVec 64 → Option FCMCommon.Seg
  sharedHAT : BitVec 64 → ℕ → ℕ → BitVec 64 → Option ℕ
  privateHAT : η → ℕ → BitVec 64 → Option ℕ

namespace FCMCommon

variable {η : Type} [DecidableEq η]

def init : FCMCommon η where
  frame := fun _ => none
  offsets := ∅
  ppset := fun _ => VPSet.init
  regionInfo := fun _ => VPSet.init
  segs := fun _ _ => none
  sharedHAT := fun _ _ _ _ => none
  privateHAT := fun _ _ _ => none

/-! ## Addresses -/

section Addresses

variable (LOG_SEGMENT_SIZE : ℕ)

def SEGMENT_SIZE : BitVec 64 := BitVec.ofNat 64 (2 ^ LOG_SEGMENT_SIZE)

def SEGMENT_MASK : BitVec 64 := BitVec.ofNat 64 (2 ^ LOG_SEGMENT_SIZE - 1)

/-- `SEGMENT_ROUND_DOWN`. -/
def roundDown (x : BitVec 64) : BitVec 64 := x &&& ~~~SEGMENT_MASK LOG_SEGMENT_SIZE

/-- The address within its segment. -/
def relative (x : BitVec 64) : BitVec 64 := x &&& SEGMENT_MASK LOG_SEGMENT_SIZE

namespace Region

variable (r : Region η)

/-- `coverVaddr`. -/
def Covers (vaddr : BitVec 64) : Prop :=
  ¬ (vaddr < r.regionVaddr ∨ r.regionVaddr + r.regionSize ≤ vaddr)

/-- The file offset of an address. -/
def offset (vaddr : BitVec 64) : BitVec 64 := r.fileOffset + (vaddr - r.regionVaddr)

def isSharedVaddr (vaddr : BitVec 64) : Prop :=
  r.regionVaddr ≤ roundDown LOG_SEGMENT_SIZE vaddr ∧
    roundDown LOG_SEGMENT_SIZE vaddr + SEGMENT_SIZE LOG_SEGMENT_SIZE ≤
      r.regionVaddr + r.regionSize

def isSharedOffset (offset : BitVec 64) : Prop :=
  r.isSharedVaddr LOG_SEGMENT_SIZE (r.regionVaddr + offset - r.fileOffset)

instance (vaddr : BitVec 64) : Decidable (r.Covers vaddr) := inferInstanceAs (Decidable (¬ _))

instance (vaddr : BitVec 64) : Decidable (r.isSharedVaddr LOG_SEGMENT_SIZE vaddr) :=
  inferInstanceAs (Decidable (_ ∧ _))

instance (offset : BitVec 64) : Decidable (r.isSharedOffset LOG_SEGMENT_SIZE offset) :=
  inferInstanceAs (Decidable (r.isSharedVaddr LOG_SEGMENT_SIZE _))

end Region

end Addresses

/-- The regions attached to an FCM. They end more than a segment below the end of the address
space, and two regions of one address space do not overlap. -/
structure Regions (η : Type) (LOG_SEGMENT_SIZE : ℕ) where
  regionList : List (Region η)
  below : ∀ r ∈ regionList,
    r.regionVaddr.toNat + r.regionSize.toNat + 2 ^ LOG_SEGMENT_SIZE < 2 ^ 64
  apart : ∀ r ∈ regionList, ∀ r' ∈ regionList, r.hat = r'.hat →
    ∀ v, r.Covers v → r'.Covers v → r = r'

section Operations

variable (L : ℕ) (noSharedSegments : Bool) (s : FCMCommon η)

/-- `mapPage` of a segment, which enters the page or returns without it. -/
def enterPage (seg : Seg) (hat : η) (pp : ℕ) (vaddr : BitVec 64) (paddr : Option ℕ)
    (entered : Bool) : FCMCommon η :=
  match entered, seg with
  | false, _ => s
  | true, .shared offkey acckey =>
    { s with
      sharedHAT := fun k a p v =>
        if k = offkey ∧ a = acckey ∧ p = pp ∧ v = relative L vaddr then paddr
        else s.sharedHAT k a p v }
  | true, .priv =>
    { s with
      privateHAT := fun h p v =>
        if h = hat ∧ p = pp ∧ v = vaddr then paddr else s.privateHAT h p v }

/-- The address space gets the segment at `vaddr`. -/
def setSeg (hat : η) (vaddr : BitVec 64) (seg : Seg) : FCMCommon η :=
  { s with
    segs := update s.segs hat
      (update (s.segs hat) (roundDown L vaddr) (some seg)) }

/-- `offset - vaddr + vaddr&~SEGMENT_MASK`, in which the sum is taken first. -/
def offkey (offset vaddr : BitVec 64) : BitVec 64 :=
  (offset - vaddr + vaddr) &&& ~~~SEGMENT_MASK L

/-- The segment that `mapPageInHAT` finds or creates when the address space has none. -/
def newSeg (reg : Region η) (vaddr offset : BitVec 64) (access : ℕ) : Seg :=
  if noSharedSegments then .priv
  else if ¬ reg.isSharedVaddr L vaddr then .priv
  else .shared (offkey L offset vaddr) access

/-- `mapPageInHAT` on the processor `pp`, for the page at `offset`. -/
def mapPageInHAT (vaddr : BitVec 64) (access : ℕ) (reg : Region η) (offset : BitVec 64) (pp : ℕ)
    (entered : Bool) : FCMCommon η :=
  let s' := { s with ppset := update s.ppset offset ((s.ppset offset).addVP pp) }
  match s'.segs reg.hat (roundDown L vaddr) with
  | some seg => s'.enterPage L seg reg.hat pp vaddr (s.frame offset) entered
  | none =>
    let seg := newSeg L noSharedSegments reg vaddr offset access
    (s'.setSeg L reg.hat vaddr seg).enterPage L seg reg.hat pp vaddr (s.frame offset) entered

/-- A fault in a region: `updateRegionPPSet`, and then the page is mapped. -/
def fault (reg : Region η) (vaddr : BitVec 64) (access pp : ℕ) (entered : Bool) : FCMCommon η :=
  { s with
    regionInfo :=
      update s.regionInfo reg ((s.regionInfo reg).addVP pp) }.mapPageInHAT L
    noSharedSegments vaddr access reg (reg.offset vaddr) pp entered

/-- `unmapPage` of a region on the processor `pp`: the private segment at the address of the page
forgets it. -/
def unmapRegion (fileOffset : BitVec 64) (pp : ℕ) (s : FCMCommon η) (reg : Region η) :
    FCMCommon η :=
  if s.regionInfo reg |>.isSet pp then
    if noSharedSegments ∨ ¬ reg.isSharedOffset L fileOffset then
      if fileOffset - reg.fileOffset < reg.regionSize ∧
          s.segs reg.hat (roundDown L (fileOffset - reg.fileOffset + reg.regionVaddr)) =
            some .priv then
        { s with
          privateHAT := fun h p v =>
            if h = reg.hat ∧ p = pp ∧ v = fileOffset - reg.fileOffset + reg.regionVaddr then none
            else s.privateHAT h p v }
      else s
    else s
  else s

/-- The loop of `unmapPageLocal` over `segmentHATList`. -/
def unmapShared (fileOffset : BitVec 64) (pp : ℕ) : FCMCommon η :=
  { s with
    sharedHAT := fun baseOffset a p v =>
      if p = pp ∧ fileOffset - baseOffset < SEGMENT_SIZE L ∧ v = fileOffset - baseOffset then none
      else s.sharedHAT baseOffset a p v }

/-- `unmapPageLocal` on the processor `pp`. -/
def unmapPageLocal (regionList : List (Region η)) (fileOffset : BitVec 64) (s : FCMCommon η)
    (pp : ℕ) : FCMCommon η :=
  regionList.foldl (unmapRegion L noSharedSegments fileOffset pp) (s.unmapShared L fileOffset pp)

/-- `unmapPage`, with `internal_unmapPage` on the processors of the page. -/
def unmapPage (regionList : List (Region η)) (numprocs : ℕ) (fileOffset : BitVec 64) :
    FCMCommon η :=
  let s' := ((s.ppset fileOffset).members numprocs).foldl
    (unmapPageLocal L noSharedSegments regionList fileOffset) s
  { s' with ppset := update s'.ppset fileOffset VPSet.init }

end Operations

/-- A page is put into the page list or taken out. -/
def setPage (s : FCMCommon η) (offset : BitVec 64) (paddr : Option ℕ) : FCMCommon η :=
  { s with
    frame := update s.frame offset paddr
    offsets := insert offset s.offsets }

/-! ## Runs -/

/-- The operations. -/
inductive Op (η : Type)
  | setPage (offset : BitVec 64) (paddr : Option ℕ)
  | fault (reg : FCMCommon.Region η) (vaddr : BitVec 64) (access pp : ℕ) (entered : Bool)
  | unmapPage (offset : BitVec 64)

section Runs

variable {L : ℕ} (R : Regions η L) (noSharedSegments : Bool) (numprocs : ℕ)

def step (s : FCMCommon η) : Op η → FCMCommon η
  | .setPage offset paddr => s.setPage offset paddr
  | .fault reg vaddr access pp entered => s.fault L noSharedSegments reg vaddr access pp entered
  | .unmapPage offset => s.unmapPage L noSharedSegments R.regionList numprocs offset

/-- A page that is put in or taken out is not mapped, and gets a frame that is not in use; a fault
is at an address of a region, and its page is there. -/
def adm (s : FCMCommon η) : Op η → Prop
  | .setPage offset paddr => s.ppset offset = VPSet.init ∧
      (paddr.isSome → ∀ o ∈ s.offsets, s.frame o ≠ paddr)
  | .fault reg vaddr _ pp _ => reg ∈ R.regionList ∧ reg.Covers vaddr ∧
      (s.frame (reg.offset vaddr)).isSome ∧ pp < numprocs ∧ pp < 32
  | .unmapPage _ => True

def runs : Machine (FCMCommon η) (Op η) := ⟨step R noSharedSegments numprocs, adm R numprocs⟩

/-- A fault at an address for which shared segments are used has a file offset that is the
address modulo the size of a segment. -/
def aligned : Op η → Prop
  | .fault reg vaddr _ _ _ => noSharedSegments = false → reg.isSharedVaddr L vaddr →
      relative L (reg.offset vaddr) = relative L vaddr
  | _ => True

def alignedRuns : Machine (FCMCommon η) (Op η) :=
  ⟨step R noSharedSegments numprocs,
    fun s op => s.adm R numprocs op ∧ aligned (L := L) noSharedSegments op⟩

end Runs

/-! ## Addresses and segments -/

section Addresses

variable {L : ℕ} {v w : BitVec 64} {r : Region η}

theorem toNat_mask (hL : L < 64) : (SEGMENT_MASK L).toNat = 2 ^ L - 1 := by
  unfold SEGMENT_MASK
  rw [BitVec.toNat_ofNat]
  apply Nat.mod_eq_of_lt
  have hlt : 2 ^ L < 2 ^ 64 := Nat.pow_lt_pow_right (by decide) hL
  omega

theorem toNat_size (hL : L < 64) : (SEGMENT_SIZE L).toNat = 2 ^ L := by
  unfold SEGMENT_SIZE
  rw [BitVec.toNat_ofNat]
  exact Nat.mod_eq_of_lt (Nat.pow_lt_pow_right (by decide) hL)

theorem toNat_relative (hL : L < 64) : (relative L v).toNat = v.toNat % 2 ^ L := by
  unfold relative
  rw [BitVec.toNat_and, toNat_mask hL, Nat.and_two_pow_sub_one_eq_mod]

theorem roundDown_add_relative : roundDown L v + relative L v = v := by
  have hdisj : roundDown L v &&& relative L v = 0#64 := by
    ext i hi
    unfold roundDown relative
    simp only [BitVec.getElem_and, BitVec.getElem_not, BitVec.getElem_zero]
    cases v[i] <;> cases (SEGMENT_MASK L)[i] <;> rfl
  rw [BitVec.add_eq_or_of_and_eq_zero _ _ hdisj]
  ext i hi
  unfold roundDown relative
  simp only [BitVec.getElem_and, BitVec.getElem_not, BitVec.getElem_or]
  cases v[i] <;> cases (SEGMENT_MASK L)[i] <;> rfl

theorem toNat_roundDown (hL : L < 64) : (roundDown L v).toNat + v.toNat % 2 ^ L = v.toNat := by
  have hdisj : roundDown L v &&& relative L v = 0#64 := by
    ext i hi
    unfold roundDown relative
    simp only [BitVec.getElem_and, BitVec.getElem_not, BitVec.getElem_zero]
    cases v[i] <;> cases (SEGMENT_MASK L)[i] <;> rfl
  have hsum := BitVec.toNat_add_of_and_eq_zero hdisj
  rw [roundDown_add_relative, toNat_relative hL] at hsum
  exact hsum.symm

theorem relative_lt (hL : L < 64) : relative L v < SEGMENT_SIZE L := by
  rw [BitVec.lt_def, toNat_relative hL, toNat_size hL]
  exact Nat.mod_lt _ (Nat.two_pow_pos L)

section

omit [DecidableEq η]

theorem Region.vaddr_of_offset (r : Region η) (v : BitVec 64) :
    r.offset v - r.fileOffset + r.regionVaddr = v ∧
      r.regionVaddr + r.offset v - r.fileOffset = v ∧
      r.offset v - r.fileOffset = v - r.regionVaddr := by
  unfold Region.offset
  refine ⟨?_, ?_, ?_⟩
  · ring
  · ring
  · ring

theorem Region.offset_sub (h : roundDown L v = roundDown L w) :
    r.offset v - relative L v = r.offset w - relative L w := by
  have hv := roundDown_add_relative (L := L) (v := v)
  have hw := roundDown_add_relative (L := L) (v := w)
  unfold Region.offset
  calc r.fileOffset + (v - r.regionVaddr) - relative L v
      = r.fileOffset + (roundDown L v + relative L v - r.regionVaddr) - relative L v := by rw [hv]
    _ = r.fileOffset + (roundDown L w + relative L w - r.regionVaddr) - relative L w := by
        rw [h]
        ring
    _ = r.fileOffset + (w - r.regionVaddr) - relative L w := by rw [hw]

end

/-- The key is the file offset of the start of the segment, if the file offset is the address
modulo the size of a segment. -/
theorem offkey_add {o : BitVec 64} (h : relative L o = relative L v) :
    offkey L o v + relative L v = o := by
  have hsum : o - v + v = o := by ring
  unfold offkey
  rw [hsum, ← h]
  exact roundDown_add_relative

section

omit [DecidableEq η]

theorem Regions.lt_of_covers (R : Regions η L) (hr : r ∈ R.regionList) (hv : r.Covers v) :
    L < 64 ∧ r.regionVaddr.toNat ≤ v.toNat ∧
      v.toNat < r.regionVaddr.toNat + r.regionSize.toNat := by
  have hbelow := R.below r hr
  have hL : L < 64 := by
    by_contra hge
    have hle : 2 ^ 64 ≤ 2 ^ L := Nat.pow_le_pow_right (by decide) (not_lt.1 hge)
    omega
  unfold Region.Covers at hv
  rw [not_or, BitVec.not_lt, BitVec.not_le, BitVec.le_def, BitVec.lt_def, BitVec.toNat_add] at hv
  rw [Nat.mod_eq_of_lt (by omega)] at hv
  exact ⟨hL, hv.1, hv.2⟩

theorem Regions.covers_of_shared (R : Regions η L) (hr : r ∈ R.regionList) (hv : r.Covers v)
    (hshared : r.isSharedVaddr L v) (hw : roundDown L w = roundDown L v) : r.Covers w := by
  obtain ⟨hL, hlow, hhigh⟩ := R.lt_of_covers hr hv
  have hbelow := R.below r hr
  obtain ⟨hstart, hend⟩ := hshared
  have hpos := Nat.two_pow_pos L
  have hvsum := toNat_roundDown (v := v) hL
  have hwsum := toNat_roundDown (v := w) hL
  have hwmod := Nat.mod_lt w.toNat hpos
  rw [hw] at hwsum
  have hsize := toNat_size hL
  rw [BitVec.le_def] at hstart hend
  rw [BitVec.toNat_add, BitVec.toNat_add, hsize, Nat.mod_eq_of_lt (by omega),
    Nat.mod_eq_of_lt (by omega)] at hend
  unfold Region.Covers
  rw [not_or, BitVec.not_lt, BitVec.not_le, BitVec.le_def, BitVec.lt_def, BitVec.toNat_add,
    Nat.mod_eq_of_lt (by omega)]
  omega

theorem Region.isSharedVaddr_congr (h : roundDown L v = roundDown L w) :
    r.isSharedVaddr L v ↔ r.isSharedVaddr L w := by
  unfold Region.isSharedVaddr
  rw [h]

end

end Addresses

/-! ## The invariant -/

/-- The page at the offset has the frame, and is mapped on the processor. -/
def MappedOn (s : FCMCommon η) (offset : BitVec 64) (pp paddr : ℕ) : Prop :=
  s.frame offset = some paddr ∧ (s.ppset offset).isSet pp

structure Inv {L : ℕ} (R : Regions η L) (noSharedSegments : Bool) (numprocs : ℕ)
    (s : FCMCommon η) : Prop where
  onMachine : ∀ o pp, (s.ppset o).isSet pp → pp < numprocs
  listed : ∀ o p, s.frame o = some p → o ∈ s.offsets
  frames : ∀ o o' p, s.frame o = some p → s.frame o' = some p → o = o'
  keys : ∀ r ∈ R.regionList, ∀ v, r.Covers v → ∀ k a,
    s.segs r.hat (roundDown L v) = some (.shared k a) → r.offset v = k + relative L v
  shared : ∀ k a pp v p, s.sharedHAT k a pp v = some p →
    s.MappedOn (k + v) pp p ∧ v < SEGMENT_SIZE L
  private_ : ∀ h pp v p, s.privateHAT h pp v = some p → s.segs h (roundDown L v) = some .priv ∧
    ∃ r ∈ R.regionList, r.hat = h ∧ r.Covers v ∧ s.MappedOn (r.offset v) pp p ∧
      (s.regionInfo r).isSet pp
  privates : noSharedSegments = false → ∀ r ∈ R.regionList, ∀ v, r.Covers v →
    s.segs r.hat (roundDown L v) = some .priv → ¬ r.isSharedVaddr L v

section Invariant

variable {L : ℕ} {R : Regions η L} {noSharedSegments : Bool} {numprocs : ℕ} {s : FCMCommon η}
  {r : Region η} {v o : BitVec 64} {pp access : ℕ}

theorem not_isSet_init : ¬ VPSet.init.isSet pp := by
  rw [VPSet.isSet_iff]
  simp [VPSet.init]

omit [DecidableEq η] in
theorem inv_init : Inv R noSharedSegments numprocs init := by
  refine ⟨?_, nofun, nofun, nofun, nofun, nofun, nofun⟩
  exact fun o pp hpp => absurd hpp not_isSet_init

section

variable (h : Inv R noSharedSegments numprocs s)

include h

omit [DecidableEq η] in
theorem Inv.setPage {paddr : Option ℕ} (hunmapped : s.ppset o = VPSet.init)
    (hfree : paddr.isSome → ∀ o ∈ s.offsets, s.frame o ≠ paddr) :
    Inv R noSharedSegments numprocs (s.setPage o paddr) := by
  have hmapped : ∀ o' pp p, s.MappedOn o' pp p → (s.setPage o paddr).frame o' = some p := by
    rintro o' pp p ⟨hframe, hset⟩
    have hne : o' ≠ o := by
      rintro rfl
      rw [hunmapped] at hset
      exact not_isSet_init hset
    change update s.frame o paddr o' = some p
    rw [update_of_ne hne]
    exact hframe
  have hother : ∀ o' p, o' ≠ o → (s.setPage o paddr).frame o' = some p → s.frame o' = some p := by
    intro o' p hne hp
    change update s.frame o paddr o' = some p at hp
    rw [update_of_ne hne] at hp
    exact hp
  -- no other page has the frame that comes in
  have hnew : ∀ o' p, o' ≠ o → (s.setPage o paddr).frame o = some p →
      (s.setPage o paddr).frame o' ≠ some p := by
    intro o' p hne hp ho'
    have hold := hother o' p hne ho'
    change update s.frame o paddr o = some p at hp
    rw [update_self] at hp
    subst paddr
    exact hfree rfl o' (h.listed o' p hold) hold
  refine ⟨h.onMachine, ?_, ?_, h.keys, ?_, ?_, h.privates⟩
  · intro o' p hp
    by_cases hne : o' = o
    · subst o'
      exact Finset.mem_insert_self _ _
    · exact Finset.mem_insert_of_mem (h.listed o' p (hother o' p hne hp))
  · intro a b p ha hb
    by_cases hao : a = o
    · subst a
      by_contra hne
      exact hnew b p (Ne.symm hne) ha hb
    · by_cases hbo : b = o
      · subst b
        exact absurd ha (hnew a p hao hb)
      · exact h.frames a b p (hother a p hao ha) (hother b p hbo hb)
  · intro k a pp v p hp
    obtain ⟨hon, hlt⟩ := h.shared k a pp v p hp
    exact ⟨⟨hmapped _ _ _ hon, hon.2⟩, hlt⟩
  · intro hat pp v p hp
    obtain ⟨hseg, r, hr, hhat, hv, hon, hinfo⟩ := h.private_ hat pp v p hp
    exact ⟨hseg, r, hr, hhat, hv, ⟨hmapped _ _ _ hon, hon.2⟩, hinfo⟩

/-! ### Faults -/

theorem Inv.record (hpp : pp < numprocs) (hlt : pp < 64) :
    Inv R noSharedSegments numprocs { s with
      regionInfo := update s.regionInfo r ((s.regionInfo r).addVP pp)
      ppset := update s.ppset o ((s.ppset o).addVP pp) } := by
  have hset : ∀ o' q, (s.ppset o').isSet q →
      (update s.ppset o ((s.ppset o).addVP pp) o').isSet q := by
    intro o' q
    exact update_cases (fun hq => (VPSet.isSet_addVP hlt).2 (.inl hq)) (fun _ _ => id) o'
  have hinfo : ∀ r' q, (s.regionInfo r').isSet q →
      (update s.regionInfo r ((s.regionInfo r).addVP pp) r').isSet q := by
    intro r' q
    exact update_cases (fun hq => (VPSet.isSet_addVP hlt).2 (.inl hq)) (fun _ _ => id) r'
  refine ⟨?_, h.listed, h.frames, h.keys, ?_, ?_, h.privates⟩
  · intro o' q
    change (update s.ppset o _ o').isSet q → _
    refine update_cases (fun hq => ?_) (fun o' _ => h.onMachine o' q) o'
    rcases (VPSet.isSet_addVP hlt).mp hq with hq | rfl
    · exact h.onMachine o q hq
    · exact hpp
  · intro k a q v p hp
    obtain ⟨hon, hv⟩ := h.shared k a q v p hp
    exact ⟨⟨hon.1, hset _ _ hon.2⟩, hv⟩
  · intro hat q v p hp
    obtain ⟨hseg, r', hr', hhat, hv, hon, hq⟩ := h.private_ hat q v p hp
    exact ⟨hseg, r', hr', hhat, hv, ⟨hon.1, hset _ _ hon.2⟩, hinfo r' q hq⟩

theorem Inv.enterPage (hr : r ∈ R.regionList)
    (hv : r.Covers v) {seg : Seg} (hseg : s.segs r.hat (roundDown L v) = some seg)
    (hset : (s.ppset (r.offset v)).isSet pp) (hinfo : (s.regionInfo r).isSet pp) {entered : Bool} :
    Inv R noSharedSegments numprocs
      (s.enterPage L seg r.hat pp v (s.frame (r.offset v)) entered) := by
  have hL := (R.lt_of_covers hr hv).1
  cases entered with
  | false => exact h
  | true =>
    cases seg with
    | shared k a =>
      refine ⟨h.onMachine, h.listed, h.frames, h.keys, ?_, h.private_, h.privates⟩
      intro k' a' q w p hp
      change (if k' = k ∧ a' = a ∧ q = pp ∧ w = relative L v then s.frame (r.offset v)
        else s.sharedHAT k' a' q w) = some p at hp
      split_ifs at hp with heq
      · obtain ⟨rfl, rfl, rfl, rfl⟩ := heq
        have hkey := h.keys r hr v hv _ _ hseg
        rw [hkey] at hp hset
        exact ⟨⟨hp, hset⟩, relative_lt hL⟩
      · exact h.shared k' a' q w p hp
    | priv =>
      refine ⟨h.onMachine, h.listed, h.frames, h.keys, h.shared, ?_, h.privates⟩
      intro hat q w p hp
      change (if hat = r.hat ∧ q = pp ∧ w = v then s.frame (r.offset v)
        else s.privateHAT hat q w) = some p at hp
      split_ifs at hp with heq
      · obtain ⟨rfl, rfl, rfl⟩ := heq
        exact ⟨hseg, r, hr, rfl, hv, ⟨hp, hset⟩, hinfo⟩
      · exact h.private_ hat q w p hp

theorem Inv.setSeg (access : ℕ) (hr : r ∈ R.regionList)
    (hv : r.Covers v) (hnone : s.segs r.hat (roundDown L v) = none)
    (haligned : noSharedSegments = false → r.isSharedVaddr L v →
      relative L (r.offset v) = relative L v) :
    Inv R noSharedSegments numprocs
      (s.setSeg L r.hat v (newSeg L noSharedSegments r v (r.offset v) access)) := by
  generalize hnew : newSeg L noSharedSegments r v (r.offset v) access = seg
  have hsegs : ∀ hat b x, (s.setSeg L r.hat v seg).segs hat b = some x →
      (hat = r.hat ∧ b = roundDown L v ∧ x = seg) ∨ s.segs hat b = some x := by
    intro hat b x hx
    change update s.segs r.hat (update (s.segs r.hat) _ (some seg)) hat b =
      _ at hx
    by_cases hhat : hat = r.hat
    · subst hat
      rw [update_self] at hx
      by_cases hb : b = roundDown L v
      · subst b
        rw [update_self] at hx
        exact .inl ⟨rfl, rfl, (Option.some.inj hx).symm⟩
      · rw [update_of_ne hb] at hx
        exact .inr hx
    · rw [update_of_ne hhat] at hx
      exact .inr hx
  have hkeep : ∀ hat b x, s.segs hat b = some x → (s.setSeg L r.hat v seg).segs hat b = some x := by
    intro hat b x hx
    change update s.segs r.hat (update (s.segs r.hat) _ (some seg)) hat b = _
    by_cases hhat : hat = r.hat
    · subst hat
      rw [update_self]
      by_cases hb : b = roundDown L v
      · subst b
        rw [hnone] at hx
        cases hx
      · rw [update_of_ne hb]
        exact hx
    · rw [update_of_ne hhat]
      exact hx
  unfold newSeg at hnew
  refine ⟨h.onMachine, h.listed, h.frames, ?_, h.shared, ?_, ?_⟩
  · intro r' hr' w hw k a hx
    rcases hsegs _ _ _ hx with ⟨hhat, hb, heq⟩ | hold
    · subst seg
      split_ifs at heq with hno hshared
      -- the whole segment is the region's
      have hsame := R.apart r' hr' r hr hhat w hw
        (R.covers_of_shared hr hv hshared hb)
      subst r'
      cases heq
      have hkey := offkey_add (haligned (by simpa using hno) hshared)
      have hsub := Region.offset_sub (r := r) hb
      calc r.offset w = r.offset w - relative L w + relative L w := by ring
        _ = r.offset v - relative L v + relative L w := by rw [hsub]
        _ = offkey L (r.offset v) v + relative L v - relative L v + relative L w := by rw [hkey]
        _ = offkey L (r.offset v) v + relative L w := by ring
    · exact h.keys r' hr' w hw k a hold
  · intro hat q w p hp
    obtain ⟨hseg, hrest⟩ := h.private_ hat q w p hp
    exact ⟨hkeep _ _ _ hseg, hrest⟩
  · intro hno r' hr' w hw hx hshared
    rcases hsegs _ _ _ hx with ⟨hhat, hb, heq⟩ | hold
    · subst seg
      have hsame := R.apart r' hr' r hr hhat v (R.covers_of_shared hr' hw hshared hb.symm) hv
      subst r'
      rw [if_neg (by simp [hno])] at heq
      split_ifs at heq with hnot
      exact hnot ((Region.isSharedVaddr_congr hb).1 hshared)
    · exact h.privates hno r' hr' w hw hold hshared

theorem Inv.fault {entered : Bool}
    (hr : r ∈ R.regionList) (hv : r.Covers v) (hpp : pp < numprocs) (hlt : pp < 64)
    (haligned : noSharedSegments = false → r.isSharedVaddr L v →
      relative L (r.offset v) = relative L v) :
    Inv R noSharedSegments numprocs (s.fault L noSharedSegments r v access pp entered) := by
  have hrec := h.record (r := r) (o := r.offset v) hpp hlt
  have hset : (update s.ppset (r.offset v) ((s.ppset (r.offset v)).addVP pp)
      (r.offset v)).isSet pp := by
    rw [update_self]
    exact (VPSet.isSet_addVP hlt).2 (.inr rfl)
  have hinfo : (update s.regionInfo r ((s.regionInfo r).addVP pp) r).isSet pp := by
    rw [update_self]
    exact (VPSet.isSet_addVP hlt).2 (.inr rfl)
  unfold FCMCommon.fault FCMCommon.mapPageInHAT
  dsimp only
  cases hseg : s.segs r.hat (roundDown L v) with
  | some seg => exact hrec.enterPage hr hv hseg hset hinfo
  | none =>
    refine (hrec.setSeg access hr hv hseg haligned).enterPage hr hv ?_ hset hinfo
    change update s.segs r.hat (update (s.segs r.hat) _ _) _ _ = _
    rw [update_self, update_self]

end

/-! ### Unmapping -/

/-- What unmapping the page at `o` on some processors has left: nothing new, and no translation
of the page on these processors. -/
structure Left (R : Regions η L) (noSharedSegments : Bool) (o : BitVec 64) (s s' : FCMCommon η)
    (ps : List ℕ) : Prop where
  same : s'.frame = s.frame ∧ s'.offsets = s.offsets ∧ s'.ppset = s.ppset ∧
    s'.regionInfo = s.regionInfo ∧ s'.segs = s.segs
  shared : ∀ k a pp v p, s'.sharedHAT k a pp v = some p → s.sharedHAT k a pp v = some p ∧
    (pp ∈ ps → v < SEGMENT_SIZE L → k + v ≠ o)
  private_ : ∀ hat pp v p, s'.privateHAT hat pp v = some p → s.privateHAT hat pp v = some p ∧
    (pp ∈ ps → ∀ r ∈ R.regionList, r.hat = hat → r.Covers v → (s.regionInfo r).isSet pp →
      s.segs hat (roundDown L v) = some .priv →
      (noSharedSegments = false → ¬ r.isSharedVaddr L v) → r.offset v ≠ o)

theorem unmapRegion_spec (L : ℕ) (noSharedSegments : Bool) (o : BitVec 64) (pp : ℕ)
    (s : FCMCommon η) (r : Region η) :
    let s' := unmapRegion L noSharedSegments o pp s r
    (s'.frame = s.frame ∧ s'.offsets = s.offsets ∧ s'.ppset = s.ppset ∧
      s'.regionInfo = s.regionInfo ∧ s'.segs = s.segs ∧ s'.sharedHAT = s.sharedHAT) ∧
      ∀ hat q v p, s'.privateHAT hat q v = some p → s.privateHAT hat q v = some p ∧
        (q = pp → r.hat = hat → r.Covers v → r.offset v - r.fileOffset < r.regionSize →
          (s.regionInfo r).isSet pp → s.segs hat (roundDown L v) = some .priv →
          (noSharedSegments = false → ¬ r.isSharedVaddr L v) → r.offset v ≠ o) := by
  obtain hvaddr := Region.vaddr_of_offset r
  unfold unmapRegion
  dsimp only
  split_ifs with hinfo hnot hpriv
  · refine ⟨⟨rfl, rfl, rfl, rfl, rfl, rfl⟩, ?_⟩
    intro hat q v p hp
    change (if hat = r.hat ∧ q = pp ∧ v = o - r.fileOffset + r.regionVaddr then none
      else s.privateHAT hat q v) = some p at hp
    split_ifs at hp with heq
    refine ⟨hp, ?_⟩
    rintro rfl rfl - - - - - rfl
    exact heq ⟨rfl, rfl, (hvaddr v).1.symm⟩
  · refine ⟨⟨rfl, rfl, rfl, rfl, rfl, rfl⟩, fun hat q v p hp => ⟨hp, ?_⟩⟩
    rintro rfl rfl - hlt - hseg - rfl
    refine hpriv ⟨hlt, ?_⟩
    rw [(hvaddr v).1]
    exact hseg
  · refine ⟨⟨rfl, rfl, rfl, rfl, rfl, rfl⟩, fun hat q v p hp => ⟨hp, ?_⟩⟩
    rintro rfl rfl - - - - hunshared rfl
    obtain ⟨hno, hshared⟩ := not_or.1 hnot
    rw [not_not] at hshared
    unfold Region.isSharedOffset at hshared
    rw [(hvaddr v).2.1] at hshared
    exact hunshared (by simpa using hno) hshared
  · refine ⟨⟨rfl, rfl, rfl, rfl, rfl, rfl⟩, fun hat q v p hp => ⟨hp, ?_⟩⟩
    exact fun _ _ _ _ hset => absurd hset hinfo

theorem unmapRegions_spec (L : ℕ) (noSharedSegments : Bool) (o : BitVec 64) (pp : ℕ)
    (rs : List (Region η)) :
    ∀ s : FCMCommon η,
      let s' := rs.foldl (unmapRegion L noSharedSegments o pp) s
      (s'.frame = s.frame ∧ s'.offsets = s.offsets ∧ s'.ppset = s.ppset ∧
        s'.regionInfo = s.regionInfo ∧ s'.segs = s.segs ∧ s'.sharedHAT = s.sharedHAT) ∧
        ∀ hat q v p, s'.privateHAT hat q v = some p → s.privateHAT hat q v = some p ∧
          (q = pp → ∀ r ∈ rs, r.hat = hat → r.Covers v →
            r.offset v - r.fileOffset < r.regionSize → (s.regionInfo r).isSet pp →
            s.segs hat (roundDown L v) = some .priv →
            (noSharedSegments = false → ¬ r.isSharedVaddr L v) → r.offset v ≠ o) := by
  induction rs with
  | nil => exact fun s => ⟨⟨rfl, rfl, rfl, rfl, rfl, rfl⟩, fun hat q v p hp => ⟨hp, fun _ => nofun⟩⟩
  | cons r rest ih =>
    intro s
    obtain ⟨⟨hf, ho, hp, hi, hs, hsh⟩, hfirst⟩ :=
      unmapRegion_spec L noSharedSegments o pp s r
    obtain ⟨⟨hf', ho', hp', hi', hs', hsh'⟩, hrest⟩ :=
      ih (unmapRegion L noSharedSegments o pp s r)
    rw [List.foldl_cons]
    refine ⟨⟨hf'.trans hf, ho'.trans ho, hp'.trans hp, hi'.trans hi, hs'.trans hs,
      hsh'.trans hsh⟩, ?_⟩
    intro hat q v p hget
    obtain ⟨hmid, hlater⟩ := hrest hat q v p hget
    obtain ⟨hold, hnow⟩ := hfirst hat q v p hmid
    refine ⟨hold, ?_⟩
    rw [hi, hs] at hlater
    intro hq r' hr'
    rcases List.mem_cons.1 hr' with rfl | hr'
    · exact hnow hq
    · exact hlater hq r' hr'

theorem left_unmapPageLocal (R : Regions η L) (noSharedSegments : Bool) (o : BitVec 64) (pp : ℕ)
    (s : FCMCommon η) :
    Left R noSharedSegments o s (unmapPageLocal L noSharedSegments R.regionList o s pp) [pp] := by
  obtain ⟨⟨hframe, hoffsets, hppset, hinfo, hsegs, hshared⟩, hpriv⟩ :=
    unmapRegions_spec L noSharedSegments o pp R.regionList
      (s.unmapShared L o pp)
  refine ⟨⟨hframe, hoffsets, hppset, hinfo, hsegs⟩, ?_, ?_⟩
  · intro k a q v p hp
    unfold unmapPageLocal at hp
    rw [hshared] at hp
    change (if q = pp ∧ o - k < SEGMENT_SIZE L ∧ v = o - k then none
      else s.sharedHAT k a q v) = some p at hp
    split_ifs at hp with heq
    refine ⟨hp, ?_⟩
    rintro hq hv rfl
    have hsub : k + v - k = v := by ring
    rw [List.mem_singleton] at hq
    rw [hsub] at heq
    exact heq ⟨hq, hv, rfl⟩
  · intro hat q v p hp
    obtain ⟨hold, hnot⟩ := hpriv hat q v p hp
    refine ⟨hold, ?_⟩
    intro hq r hr hhat hv
    obtain rfl := List.mem_singleton.1 hq
    refine hnot rfl r hr hhat hv ?_
    -- the address is in the region, and so is the offset
    obtain ⟨-, hlow, hhigh⟩ := R.lt_of_covers hr hv
    rw [(Region.vaddr_of_offset r v).2.2, BitVec.lt_def, BitVec.toNat_sub_of_le hlow]
    omega

theorem left_unmapPageLocals (R : Regions η L) (noSharedSegments : Bool) (o : BitVec 64)
    (ps : List ℕ) : ∀ s : FCMCommon η, Left R noSharedSegments o s
      (ps.foldl (unmapPageLocal L noSharedSegments R.regionList o) s) ps := by
  induction ps with
  | nil =>
    exact fun s => ⟨⟨rfl, rfl, rfl, rfl, rfl⟩, fun k a pp v p hp => ⟨hp, nofun⟩,
      fun hat pp v p hp => ⟨hp, nofun⟩⟩
  | cons pp rest ih =>
    intro s
    rw [List.foldl_cons]
    obtain ⟨⟨hf, ho, hp, hi, hs⟩, hsh, hpr⟩ :=
      left_unmapPageLocal R noSharedSegments o pp s
    obtain ⟨⟨hf', ho', hp', hi', hs'⟩, hsh', hpr'⟩ :=
      ih (unmapPageLocal L noSharedSegments R.regionList o s pp)
    refine ⟨⟨hf'.trans hf, ho'.trans ho, hp'.trans hp, hi'.trans hi, hs'.trans hs⟩, ?_, ?_⟩
    · intro k a q v p hget
      obtain ⟨hmid, hlater⟩ := hsh' k a q v p hget
      obtain ⟨hold, hnow⟩ := hsh k a q v p hmid
      refine ⟨hold, ?_⟩
      intro hq
      rcases List.mem_cons.1 hq with rfl | hq
      · exact hnow (List.mem_singleton_self q)
      · exact hlater hq
    · intro hat q v p hget
      obtain ⟨hmid, hlater⟩ := hpr' hat q v p hget
      obtain ⟨hold, hnow⟩ := hpr hat q v p hmid
      refine ⟨hold, ?_⟩
      rw [hi, hs] at hlater
      intro hq
      rcases List.mem_cons.1 hq with rfl | hq
      · exact hnow (List.mem_singleton_self q)
      · exact hlater hq

theorem Inv.unmapPage (h : Inv R noSharedSegments numprocs s) :
    Inv R noSharedSegments numprocs (s.unmapPage L noSharedSegments R.regionList numprocs o) := by
  obtain ⟨⟨hframe, hoffsets, hppset, hinfo, hsegs⟩, hshared, hpriv⟩ :=
    left_unmapPageLocals R noSharedSegments o
      ((s.ppset o).members numprocs) s
  unfold FCMCommon.unmapPage
  dsimp only
  generalize List.foldl (unmapPageLocal L noSharedSegments R.regionList o) s _ = t at *
  have hset : ∀ o' q, (update t.ppset o VPSet.init o').isSet q → (s.ppset o').isSet q := by
    intro o' q
    rw [← hppset]
    exact update_cases (fun hq => absurd hq not_isSet_init) (fun _ _ => id) o'
  -- a page other than the one that is unmapped is mapped as before
  have hmapped : ∀ o' q p, o' ≠ o → s.MappedOn o' q p → MappedOn
      { t with ppset := update t.ppset o VPSet.init } o' q p := by
    rintro o' q p ho ⟨hon, hq⟩
    refine ⟨?_, ?_⟩
    · change t.frame o' = some p
      rw [hframe]
      exact hon
    · change (update t.ppset o VPSet.init o').isSet q
      rw [update_of_ne ho, hppset]
      exact hq
  refine ⟨fun o' q hq => h.onMachine o' q (hset o' q hq), ?_, ?_, ?_, ?_, ?_, ?_⟩
  · change ∀ o p, t.frame o = some p → o ∈ t.offsets
    rw [hframe, hoffsets]
    exact h.listed
  · change ∀ o o' p, t.frame o = some p → t.frame o' = some p → o = o'
    rw [hframe]
    exact h.frames
  · change ∀ r ∈ R.regionList, ∀ v, r.Covers v → ∀ k a,
      t.segs r.hat (roundDown L v) = some (.shared k a) → r.offset v = k + relative L v
    rw [hsegs]
    exact h.keys
  · intro k a q v p hp
    obtain ⟨hold, hnot⟩ := hshared k a q v p hp
    obtain ⟨hon, hv⟩ := h.shared k a q v p hold
    refine ⟨hmapped _ _ _ ?_ hon, hv⟩
    rintro rfl
    exact hnot (VPSet.mem_members.2 ⟨h.onMachine _ q hon.2, hon.2⟩) hv rfl
  · intro hat q v p hp
    obtain ⟨hold, hnot⟩ := hpriv hat q v p hp
    obtain ⟨hseg, r, hr, hhat, hv, hon, hq⟩ := h.private_ hat q v p hold
    change t.segs hat (roundDown L v) = some .priv ∧ ∃ r ∈ R.regionList, r.hat = hat ∧
      r.Covers v ∧ _ ∧ (t.regionInfo r).isSet q
    rw [hsegs, hinfo]
    refine ⟨hseg, r, hr, hhat, hv, hmapped _ _ _ ?_ hon, hq⟩
    rintro rfl
    refine hnot (VPSet.mem_members.2 ⟨h.onMachine _ q hon.2, hon.2⟩) r hr hhat hv hq hseg ?_ rfl
    subst hat
    exact fun hno => h.privates hno r hr v hv hseg
  · change noSharedSegments = false → ∀ r ∈ R.regionList, ∀ v, r.Covers v →
      t.segs r.hat (roundDown L v) = some .priv → _
    rw [hsegs]
    exact h.privates

theorem Inv.step (h : Inv R noSharedSegments numprocs s) {op : Op η}
    (hadm : s.adm R numprocs op) (haligned : aligned (L := L) noSharedSegments op) :
    Inv R noSharedSegments numprocs (s.step R noSharedSegments numprocs op) := by
  cases op with
  | setPage offset paddr => exact h.setPage hadm.1 hadm.2
  | fault reg vaddr access pp entered =>
    obtain ⟨hreg, hv, -, hpp, hlt⟩ := hadm
    exact h.fault hreg hv hpp (hlt.trans (by decide)) haligned
  | unmapPage offset => exact h.unmapPage

end Invariant

/-! ## What the segments translate -/

/-- Every translation is to the frame of the page at the file offset that the region has for the
address, and regions that use a shared segment agree on the file offset of its start. -/
def Translates {L : ℕ} (R : Regions η L) (s : FCMCommon η) : Prop :=
  (∀ r ∈ R.regionList, ∀ v, r.Covers v → ∀ k a pp p,
    s.segs r.hat (roundDown L v) = some (.shared k a) →
      s.sharedHAT k a pp (relative L v) = some p → s.frame (r.offset v) = some p) ∧
  (∀ r ∈ R.regionList, ∀ v, r.Covers v → ∀ pp p,
    s.privateHAT r.hat pp v = some p → s.frame (r.offset v) = some p) ∧
  ∀ r ∈ R.regionList, ∀ r' ∈ R.regionList, ∀ v v', r.Covers v → r'.Covers v' → ∀ k a,
    s.segs r.hat (roundDown L v) = some (.shared k a) →
      s.segs r'.hat (roundDown L v') = some (.shared k a) →
        r.offset v - relative L v = r'.offset v' - relative L v'

/-- No shared or private segment translates to the frame. -/
def Untranslated (s : FCMCommon η) (paddr : ℕ) : Prop :=
  (∀ k a pp v, s.sharedHAT k a pp v ≠ some paddr) ∧ ∀ hat pp v, s.privateHAT hat pp v ≠ some paddr

/-- If every fault in a shared segment has a file offset that is its address modulo the size of a
segment, then every translation is to the page of the region, and after a page is unmapped no
segment translates to it. -/
theorem run_translates {L : ℕ} {R : Regions η L} {noSharedSegments : Bool} {numprocs : ℕ}
    {ops : List (Op η)} {s : FCMCommon η}
    (h : (alignedRuns R noSharedSegments numprocs).Run init ops s) :
    s.Translates R ∧ ∀ o p, s.frame o = some p →
      (s.step R noSharedSegments numprocs (.unmapPage o)).Untranslated p := by
  have hinv : Inv R noSharedSegments numprocs s := by
    refine h.invariant inv_init ?_
    rintro s op hs ⟨hadm, haligned⟩
    exact hs.step hadm haligned
  refine ⟨⟨?_, ?_, ?_⟩, ?_⟩
  · intro r hr v hv k a pp p hseg hp
    rw [hinv.keys r hr v hv k a hseg]
    exact (hinv.shared k a pp _ p hp).1.1
  · intro r hr v hv pp p hp
    obtain ⟨-, r', hr', hhat, hv', hon, -⟩ := hinv.private_ r.hat pp v p hp
    rw [R.apart r hr r' hr' hhat.symm v hv hv']
    exact hon.1
  · intro r hr r' hr' v v' hv hv' k a hseg hseg'
    rw [hinv.keys r hr v hv k a hseg, hinv.keys r' hr' v' hv' k a hseg']
    ring
  · intro o p hp
    have hafter : Inv R noSharedSegments numprocs
        (s.step R noSharedSegments numprocs (.unmapPage o)) := hinv.unmapPage
    obtain ⟨⟨hframe, -⟩, -⟩ :=
      left_unmapPageLocals R noSharedSegments o
        ((s.ppset o).members numprocs) s
    have hempty : ∀ o' q,
        ¬ MappedOn (s.step R noSharedSegments numprocs (.unmapPage o)) o' q p := by
      rintro o' q ⟨hon, hq⟩
      have ho : (s.step R noSharedSegments numprocs (.unmapPage o)).frame o = some p := by
        change (List.foldl _ s _).frame o = some p
        rw [hframe]
        exact hp
      have heq := hafter.frames o' o p hon ho
      subst o'
      change VPSet.isSet (update (_ : BitVec 64 → VPSet) o VPSet.init o) q = true at hq
      rw [update_self] at hq
      exact not_isSet_init hq
    refine ⟨?_, ?_⟩
    · intro k a pp v hget
      exact hempty _ _ (hafter.shared k a pp v p hget).1
    · intro hat pp v hget
      obtain ⟨-, r, hr, -, hv, hon, -⟩ := hafter.private_ hat pp v p hget
      exact hempty _ _ hon

instance {L : ℕ} (R : Regions η L) (numprocs : ℕ) (s : FCMCommon η) : (op : Op η) →
    Decidable (s.adm R numprocs op)
  | .setPage offset paddr =>
    -- not by trying every offset
    letI : Decidable (∀ o ∈ s.offsets, s.frame o ≠ paddr) := Finset.decidableDforallFinset
    inferInstanceAs (Decidable (s.ppset offset = VPSet.init ∧
      (paddr.isSome → ∀ o ∈ s.offsets, s.frame o ≠ paddr)))
  | .fault .. => inferInstanceAs (Decidable (_ ∧ _))
  | .unmapPage _ => isTrue trivial

instance (L : ℕ) (noSharedSegments : Bool) : (op : Op η) →
    Decidable (aligned (L := L) noSharedSegments op)
  | .setPage .. | .unmapPage _ => isTrue trivial
  | .fault .. => inferInstanceAs (Decidable (_ → _))

instance {L : ℕ} (R : Regions η L) (noSharedSegments : Bool) (numprocs : ℕ) (s : FCMCommon η)
    (op : Op η) : Decidable ((runs R noSharedSegments numprocs).adm s op) :=
  inferInstanceAs (Decidable (s.adm R numprocs op))

instance {L : ℕ} (R : Regions η L) (noSharedSegments : Bool) (numprocs : ℕ) (s : FCMCommon η)
    (op : Op η) : Decidable ((alignedRuns R noSharedSegments numprocs).adm s op) :=
  inferInstanceAs (Decidable (s.adm R numprocs op ∧ aligned (L := L) noSharedSegments op))

/-- One segment in each of two address spaces, from the file offset `fileOffset i`. -/
def twoRegions (fileOffset : Bool → BitVec 64) : Regions Bool 28 where
  regionList := [⟨false, 0x10000000, 0x10000000, fileOffset false⟩,
    ⟨true, 0x10000000, 0x10000000, fileOffset true⟩]
  below := by
    intro r hr
    rw [List.mem_cons, List.mem_singleton] at hr
    have hsize : r.regionVaddr = 0x10000000 ∧ r.regionSize = 0x10000000 := by
      rcases hr with rfl | rfl
      · exact ⟨rfl, rfl⟩
      · exact ⟨rfl, rfl⟩
    rw [hsize.1, hsize.2]
    decide +kernel
  apart := by
    intro r hr r' hr' hhat v _ _
    rw [List.mem_cons, List.mem_singleton] at hr hr'
    rcases hr with rfl | rfl
    · rcases hr' with rfl | rfl
      · rfl
      · cases hhat
    · rcases hr' with rfl | rfl
      · cases hhat
      · rfl

/-- Both regions map the file from its start, and fault at the same address. -/
def sharesPage : List (Op Bool) :=
  [.setPage 0x2000 (some 7), .fault ⟨false, 0x10000000, 0x10000000, 0⟩ 0x10002000 1 0 true,
    .fault ⟨true, 0x10000000, 0x10000000, 0⟩ 0x10002000 1 1 true]

theorem run_translates_sharesPage :
    let R := twoRegions fun _ => 0
    let s := sharesPage.foldl (alignedRuns R false 2).step init
    (alignedRuns R false 2).Run init sharesPage s ∧ s.Translates R ∧
      s.segs true 0x10000000 = some (.shared 0 1) ∧ s.sharedHAT 0 1 1 0x2000 = some 7 ∧
      (s.step R false 2 (.unmapPage 0x2000)).Untranslated 7 := by
  intro R s
  have hadmits : (alignedRuns R false 2).Admits init sharesPage := by decide +kernel
  obtain ⟨htranslates, hunmaps⟩ := run_translates hadmits.run
  exact ⟨hadmits.run, htranslates, by decide +kernel, by decide +kernel,
    hunmaps 0x2000 7 (by decide +kernel)⟩

/-- The second region maps the file from its second page. -/
def sharesSegment : List (Op Bool) :=
  [.setPage 0x2000 (some 7), .setPage 0x3000 (some 8),
    .fault ⟨false, 0x10000000, 0x10000000, 0⟩ 0x10002000 1 0 true,
    .fault ⟨true, 0x10000000, 0x10000000, 0x1000⟩ 0x10002000 1 0 true]

/-- Both regions use the segment with the key 0. The fault of the second maps its page at the
address at which the first has another page, and the page stays there when it is unmapped. -/
theorem shares_wrong_segment :
    let R := twoRegions fun hat => if hat then 0x1000 else 0
    let s := sharesSegment.foldl (runs R false 2).step init
    (runs R false 2).Run init sharesSegment s ∧ ¬ s.Translates R ∧
      s.frame 0x3000 = some 8 ∧
      ¬ (s.step R false 2 (.unmapPage 0x3000)).Untranslated 8 := by
  intro R s
  have hadmits : (runs R false 2).Admits init sharesSegment := by decide +kernel
  refine ⟨hadmits.run, ?_, by decide +kernel, ?_⟩
  · rintro ⟨hshared, -⟩
    have hframe := hshared ⟨false, 0x10000000, 0x10000000, 0⟩ (by decide +kernel) 0x10002000
      (by decide +kernel) 0 1 0 8 (by decide +kernel) (by decide +kernel)
    have hpage : s.frame (Region.offset ⟨false, 0x10000000, 0x10000000, 0⟩ 0x10002000) =
        some 7 := by decide +kernel
    rw [hpage] at hframe
    cases hframe
  · rintro ⟨hshared, -⟩
    exact hshared 0 1 0 0x2000 (by decide +kernel)

end FCMCommon

end K42
