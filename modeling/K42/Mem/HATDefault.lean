import K42.Lib.Run
import K42.Lib.Update
import K42.Mem.SegmentList
import Mathlib.Algebra.Group.Nat.Defs
import Mathlib.Data.Finset.Card

/-!
# The address translation of a process

`HATDefault` has three structures: the global list of segments, in which each segment has the
set of processors with cached copies of it; for each virtual processor a list of the segments it
has cached, filled by its page faults; and the processor it is on. `unmapRange` deletes from the
global list, and visits only the processors that the sets and the region name.

An operation runs to completion. Of what a segment keeps, the model has the pages that each
virtual processor has mapped.
-/

open Function (update update_cases update_of_ne update_self)

namespace K42

open SegmentList

/-- `Scheduler::VPLimit`. -/
abbrev HATDefault.VPLimit : ℕ := 32

abbrev HATDefault.VPNum := Fin HATDefault.VPLimit

/-- An element of `byVP`. No `pp` is `VPNum(-1)`. -/
structure HATDefault.ByVP where
  segmentList : List Segment
  pp : Option ℕ

/-- `mapped vp` are the pages that `vp` has mapped, and `nextRef` is the next private segment to
be created. `detached` is `ProcessVPList`'s `NO_PHYS_PROC`. The history `faults` has the
processors and addresses of the page faults that no `unmapRange` has covered since. -/
structure HATDefault where
  segmentList : List Segment
  byVP : HATDefault.VPNum → HATDefault.ByVP
  mapped : HATDefault.VPNum → Finset ℕ
  nextRef : ℕ
  detached : HATDefault.VPNum → Bool
  faults : Finset (ℕ × ℕ)

namespace HATDefault

def init : HATDefault where
  segmentList := []
  byVP := fun _ => ⟨[], none⟩
  mapped := fun _ => ∅
  nextRef := 1
  detached := fun _ => false
  faults := ∅

section Operations

variable (LOG_SEGMENT_SIZE : ℕ)

def SEGMENT_SIZE : ℕ := 2 ^ LOG_SEGMENT_SIZE

/-- `virtAddr&(~(SEGMENT_SIZE-1))`. -/
def segmentBase (virtAddr : ℕ) : ℕ :=
  virtAddr / SEGMENT_SIZE LOG_SEGMENT_SIZE * SEGMENT_SIZE LOG_SEGMENT_SIZE

/-- `getSegmentTable`: it records the processor. -/
def setPP (s : HATDefault) (vp : VPNum) (pp : ℕ) : HATDefault :=
  { s with byVP := update s.byVP vp { s.byVP vp with pp := some pp } }

/-- `findSegmentGlobal` on the processor `pp`, with `none` for `HAT::NOSEG`. -/
def findSegmentGlobal (s : HATDefault) (virtAddr : ℕ) (createIfNoSeg : Bool) (pp : ℕ) :
    Option (ℕ × HATDefault) :=
  match findSegment virtAddr s.segmentList with
  | some next =>
    some (next.segmentHATRef, { s with segmentList := addVP virtAddr pp s.segmentList })
  | none =>
    if createIfNoSeg then
      some (s.nextRef, { s with
          segmentList := addVP virtAddr pp
            (addSegment (segmentBase LOG_SEGMENT_SIZE virtAddr) (SEGMENT_SIZE LOG_SEGMENT_SIZE)
              s.nextRef s.segmentList)
          nextRef := s.nextRef + 1 })
    else none

/-- The segment gets into the list of `vp`. -/
def cache (s : HATDefault) (vp : VPNum) (virtAddr ref : ℕ) : HATDefault :=
  { s with
    byVP := update s.byVP vp
      { s.byVP vp with
        segmentList := addSegment (segmentBase LOG_SEGMENT_SIZE virtAddr)
          (SEGMENT_SIZE LOG_SEGMENT_SIZE) ref (s.byVP vp).segmentList } }

/-- `findSegment`, with the state unchanged for `HAT::NOSEG`, and whether there is a segment. -/
def findSegment (s : HATDefault) (virtAddr : ℕ) (vp : VPNum) (createIfNoSeg : Bool) (pp : ℕ) :
    Bool × HATDefault :=
  match SegmentList.findSegment virtAddr (s.byVP vp).segmentList with
  | some _ => (true, s)
  | none =>
    match s.findSegmentGlobal LOG_SEGMENT_SIZE virtAddr createIfNoSeg pp with
    | none => (false, s)
    | some (ref, s') => (true, s'.cache LOG_SEGMENT_SIZE vp virtAddr ref)

/-- The segment enters the page, or returns without it. -/
def enterPage (s : HATDefault) (vp : VPNum) (virtAddr : ℕ) (entered : Bool) : HATDefault :=
  if entered then { s with mapped := update s.mapped vp (insert virtAddr (s.mapped vp)) }
  else s

/-- `mapPage` on the processor `pp`, for the page fault at `virtAddr`. -/
def mapPage (s : HATDefault) (virtAddr : ℕ) (vp : VPNum) (createIfNoSeg entered : Bool) (pp : ℕ) :
    HATDefault :=
  let s' := { s with faults := insert (pp, virtAddr) s.faults }.setPP vp pp
  match s'.findSegment LOG_SEGMENT_SIZE virtAddr vp createIfNoSeg pp with
  | (false, s') => s'
  | (true, s') => s'.enterPage vp virtAddr entered

/-- `attachRegion`; it fails for what is not made of segments. -/
def attachRegion (s : HATDefault) (regionAddr regionSize segmentHATRef : ℕ) : HATDefault :=
  if segmentHATRef = 0 then s
  else if SEGMENT_SIZE LOG_SEGMENT_SIZE ∣ regionAddr ∧
      SEGMENT_SIZE LOG_SEGMENT_SIZE ∣ regionSize then
    { s with segmentList := addSegment regionAddr regionSize segmentHATRef s.segmentList }
  else s

/-- What is left of the pages `m` after the calls of `detachHAT` and `unmapRange` for the
segments that the loop over `DeleteSegment` returns. -/
def unmapFound (rangeAddr rangeEnd : ℕ) : List (Bool × Segment) → Finset ℕ → Finset ℕ
  | [], m => m
  | (true, seg) :: rest, m =>
    unmapFound rangeAddr rangeEnd rest (m.filter fun v => ¬ (seg.segmentstart ≤ v ∧
      v < seg.segmentstart + SEGMENT_SIZE LOG_SEGMENT_SIZE))
  | (false, seg) :: rest, m =>
    unmapFound rangeAddr rangeEnd rest (m.filter fun v =>
      ¬ (max rangeAddr seg.segmentstart ≤ v ∧ v < min rangeEnd seg.segmentend))

/-- `unmapRangeLocal` on the processor `myPP`. -/
def unmapRangeLocal (rangeAddr rangeEnd : ℕ) (s : HATDefault) (myPP : ℕ) : HATDefault :=
  { s with
    byVP := fun vp =>
      if (s.byVP vp).pp = some myPP then
        { s.byVP vp with
          segmentList := (deleteSegments rangeAddr rangeEnd (s.byVP vp).segmentList).2 }
      else s.byVP vp
    mapped := fun vp =>
      if (s.byVP vp).pp = some myPP then
        unmapFound LOG_SEGMENT_SIZE rangeAddr rangeEnd
          (deleteSegments rangeAddr rangeEnd (s.byVP vp).segmentList).1 (s.mapped vp)
      else s.mapped vp }

/-- `unionset` and `ppset` after the loop over the global list. -/
def gather : List (Bool × Segment) → VPSet × VPSet → VPSet × VPSet
  | [], sets => sets
  | (deleted, seg) :: rest, (unionset, ppset) =>
    gather rest (unionset.unite seg.ppset, if deleted then ppset.unite seg.ppset else ppset)

/-- The processors that `unmapRange` visits from `mypp`, the remote ones first. -/
def visited (unionset : VPSet) (numprocs mypp : ℕ) : List ℕ :=
  (unionset.members numprocs).filter (· ≠ mypp) ++ if unionset.isSet mypp then [mypp] else []

/-- `unmapRange` on the processor `mypp`. -/
def unmapRange (s : HATDefault) (rangeAddr rangeSize : ℕ) (ppset : VPSet) (numprocs mypp : ℕ) :
    HATDefault :=
  let found := (deleteSegments rangeAddr (rangeAddr + rangeSize) s.segmentList).1
  let sets := gather found (VPSet.init, ppset)
  let s' := { s with
    segmentList := (deleteSegments rangeAddr (rangeAddr + rangeSize) s.segmentList).2
    faults := s.faults.filter fun f => ¬ (rangeAddr ≤ f.2 ∧ f.2 < rangeAddr + rangeSize) }
  (visited (sets.1.intersect sets.2) numprocs mypp).foldl
    (unmapRangeLocal LOG_SEGMENT_SIZE rangeAddr (rangeAddr + rangeSize)) s'

/-- `detachVP`: `unmapRange(0, uval(-1))` for each segment of `vp`. -/
def detachVP (s : HATDefault) (vp : VPNum) : HATDefault :=
  { s with
    mapped := update s.mapped vp
      ((s.byVP vp).segmentList.foldl
        (fun m seg => m.filter fun v => ¬ (seg.segmentstart ≤ v ∧ v < seg.segmentend))
        (s.mapped vp))
    detached := update s.detached vp true }

/-- `activeSet`. `VPNum(-1)` shifts the bit out of the word. -/
def activeSet (byVP : VPNum → ByVP) : VPSet :=
  (List.finRange VPLimit).foldl
    (fun set vp =>
      match (byVP vp).pp with
      | some pp => set.addVP pp
      | none => set) VPSet.init

/-- `attachVP` on the processor `pp`: each segment of `vp` is looked up globally to record the
processor, and then the sets are cut down to the processors that some `vp` is on. -/
def attachVP (s : HATDefault) (vp : VPNum) (pp : ℕ) : HATDefault :=
  let s' := s.setPP vp pp
  let recorded := (s'.byVP vp).segmentList.foldl (fun l seg => addVP seg.segmentstart pp l)
    s'.segmentList
  { s' with
    segmentList := recorded.map fun seg =>
      { seg with ppset := seg.ppset.intersect (activeSet s'.byVP) }
    detached := update s.detached vp false }

end Operations

/-! ## Runs -/

/-- The operations, each with the processor it runs on. -/
inductive Op
  | mapPage (virtAddr : ℕ) (vp : VPNum) (createIfNoSeg entered : Bool) (pp : ℕ)
  | attachRegion (regionAddr regionSize segmentHATRef : ℕ)
  | unmapRange (rangeAddr rangeSize : ℕ) (ppset : VPSet) (mypp : ℕ)
  | detachVP (vp : VPNum) (pp : ℕ)
  | attachVP (vp : VPNum) (pp : ℕ)

section Runs

variable (L numprocs : ℕ)

def step (s : HATDefault) : Op → HATDefault
  | .mapPage virtAddr vp createIfNoSeg entered pp =>
    s.mapPage L virtAddr vp createIfNoSeg entered pp
  | .attachRegion regionAddr regionSize segmentHATRef =>
    s.attachRegion L regionAddr regionSize segmentHATRef
  | .unmapRange rangeAddr rangeSize ppset mypp =>
    s.unmapRange L rangeAddr rangeSize ppset numprocs mypp
  | .detachVP vp _ => s.detachVP vp
  | .attachVP vp pp => s.attachVP vp pp

/-- A processor of the machine. -/
def Processor (pp : ℕ) : Prop := pp < numprocs ∧ pp < VPLimit

/-- Page faults of any attached `vp` on any processor, and any region that is attached. A region
passes to `unmapRange` a set with every processor that has faulted in the range; `detachVP` runs
on the processor of `vp`, and `attachVP` after it. -/
def adm (s : HATDefault) : Op → Prop
  | .mapPage _ vp _ _ pp => Processor numprocs pp ∧ s.detached vp = false
  | .attachRegion _ _ _ => True
  | .unmapRange rangeAddr rangeSize ppset mypp => Processor numprocs mypp ∧
      ∀ f ∈ s.faults, rangeAddr ≤ f.2 → f.2 < rangeAddr + rangeSize → ppset.isSet f.1
  | .detachVP vp pp => s.detached vp = false ∧ (s.byVP vp).pp = some pp
  | .attachVP vp pp => Processor numprocs pp ∧ s.detached vp = true

/-- A `vp` faults on the processor on which it was attached, or faulted first; and a region
attaches one segment, at an address for which there is none. -/
def placed (s : HATDefault) : Op → Prop
  | .mapPage _ vp _ _ pp => (s.byVP vp).pp = none ∨ (s.byVP vp).pp = some pp
  | .attachRegion regionAddr regionSize _ => regionSize = SEGMENT_SIZE L ∧
      SegmentList.findSegment regionAddr s.segmentList = none
  | _ => True

def runs : Machine HATDefault Op := ⟨step L numprocs, adm numprocs⟩

def placedRuns : Machine HATDefault Op :=
  ⟨step L numprocs, fun s op => s.adm numprocs op ∧ s.placed L op⟩

end Runs

/-- Each segment that a `vp` has cached is in the global list under the same address, and the
processor of the `vp` is in its set. -/
def Covered (s : HATDefault) : Prop :=
  ∀ vp, ∀ e ∈ (s.byVP vp).segmentList, ∃ pp, (s.byVP vp).pp = some pp ∧
    ∃ g ∈ s.segmentList, g.segmentstart = e.segmentstart ∧ g.segmentHATRef = e.segmentHATRef ∧
      g.ppset.isSet pp

/-- No `vp` has a segment inside the range or a page of it. -/
def Unmapped (s : HATDefault) (rangeAddr rangeSize : ℕ) : Prop :=
  ∀ vp, (∀ e ∈ (s.byVP vp).segmentList, ¬ Inside rangeAddr (rangeAddr + rangeSize) e) ∧
    ∀ v ∈ s.mapped vp, ¬ (rangeAddr ≤ v ∧ v < rangeAddr + rangeSize)

/-! ## The invariant -/

structure Inv (L numprocs : ℕ) (s : HATDefault) : Prop where
  grid : Grid (SEGMENT_SIZE L) s.segmentList
  localGrid : ∀ vp, Grid (SEGMENT_SIZE L) (s.byVP vp).segmentList
  covered : s.Covered
  pages : ∀ vp, ∀ v ∈ s.mapped vp, ∃ e ∈ (s.byVP vp).segmentList, Has v e
  faulted : ∀ vp, ∀ v ∈ s.mapped vp, ∃ pp, (s.byVP vp).pp = some pp ∧ (pp, v) ∈ s.faults
  unmapped : ∀ vp, s.detached vp = true → s.mapped vp = ∅
  onMachine : ∀ vp pp, (s.byVP vp).pp = some pp → Processor numprocs pp

section Invariant

variable {L numprocs : ℕ} {s : HATDefault} {vp : VPNum} {pp v ref a b : ℕ} {ps : List ℕ}
  {found : List (Bool × Segment)} {m : Finset ℕ} {l : List Segment}

theorem SEGMENT_SIZE_pos : 0 < SEGMENT_SIZE L := Nat.two_pow_pos L

theorem inv_init : Inv L numprocs init := by
  refine ⟨grid_nil SEGMENT_SIZE_pos, fun _ => grid_nil SEGMENT_SIZE_pos, nofun, ?_, ?_,
    fun _ _ => rfl, nofun⟩
  · exact fun vp v hv => absurd hv (Finset.notMem_empty v)
  · exact fun vp v hv => absurd hv (Finset.notMem_empty v)

section

variable (h : Inv L numprocs s)

include h

theorem Inv.inside_iff {e g : Segment} (he : e ∈ (s.byVP vp).segmentList) (hg : g ∈ s.segmentList)
    (hstart : g.segmentstart = e.segmentstart) :
    (Has v g ↔ Has v e) ∧ (Inside a b g ↔ Inside a b e) := by
  have hend : g.segmentend = e.segmentend := by
    rw [(h.grid.cell g hg).1, ((h.localGrid vp).cell e he).1, hstart]
  unfold Has Inside
  rw [hstart, hend]
  exact ⟨Iff.rfl, Iff.rfl⟩

/-! ### Page faults -/

theorem Inv.fault :
    Inv L numprocs { s with faults := insert (pp, v) s.faults } := by
  refine ⟨h.grid, h.localGrid, h.covered, h.pages, ?_, h.unmapped, h.onMachine⟩
  intro u x hx
  obtain ⟨p, hp, hmem⟩ := h.faulted u x hx
  exact ⟨p, hp, Finset.mem_insert_of_mem hmem⟩

theorem Inv.setPP (hpp : Processor numprocs pp)
    (hplaced : (s.byVP vp).pp = none ∨ (s.byVP vp).pp = some pp) :
    Inv L numprocs (s.setPP vp pp) := by
  have hlist : ∀ u, ((s.setPP vp pp).byVP u).segmentList = (s.byVP u).segmentList := by
    intro u
    change (update s.byVP vp _ u).segmentList = _
    exact update_cases rfl (fun _ _ => rfl) u
  -- a processor that was known stays
  have hkeep : ∀ u p, (s.byVP u).pp = some p → ((s.setPP vp pp).byVP u).pp = some p := by
    intro u p hp
    change (update s.byVP vp _ u).pp = _
    revert hp
    refine update_cases (fun hp => ?_) (fun _ _ => id) u
    rw [hp] at hplaced
    exact (hplaced.resolve_left nofun).symm
  refine ⟨h.grid, ?_, ?_, ?_, ?_, h.unmapped, ?_⟩
  · intro u
    rw [hlist]
    exact h.localGrid u
  · intro u e he
    rw [hlist] at he
    obtain ⟨p, hp, hg⟩ := h.covered u e he
    exact ⟨p, hkeep u p hp, hg⟩
  · intro u x hx
    rw [hlist]
    exact h.pages u x hx
  · intro u x hx
    obtain ⟨p, hp, hmem⟩ := h.faulted u x hx
    exact ⟨p, hkeep u p hp, hmem⟩
  · intro u p
    change (update s.byVP vp _ u).pp = _ → _
    refine update_cases ?_ (fun u _ => h.onMachine u p) u
    rintro ⟨⟩
    exact hpp

theorem Inv.grow {n : ℕ} (hgrid : Grid (SEGMENT_SIZE L) l)
    (hgrow : ∀ g ∈ s.segmentList, ∃ g' ∈ l, g'.segmentstart = g.segmentstart ∧
      g'.segmentHATRef = g.segmentHATRef ∧ ∀ p, g.ppset.isSet p → g'.ppset.isSet p) :
    Inv L numprocs { s with segmentList := l, nextRef := n } := by
  refine ⟨hgrid, h.localGrid, ?_, h.pages, h.faulted, h.unmapped, h.onMachine⟩
  intro u e he
  obtain ⟨p, hp, g, hg, hstart, href, hset⟩ := h.covered u e he
  obtain ⟨g', hg', hstart', href', hset'⟩ := hgrow g hg
  exact ⟨p, hp, g', hg', hstart'.trans hstart, href'.trans href, hset' p hset⟩

theorem Inv.findSegmentGlobal (hpp : Processor numprocs pp) {create : Bool}
    {s' : HATDefault} (hfind : s.findSegmentGlobal L v create pp = some (ref, s')) :
    Inv L numprocs s' ∧ s'.byVP = s.byVP ∧ s'.detached = s.detached ∧ s'.faults = s.faults ∧
      ∃ g ∈ s'.segmentList, Has v g ∧ g.segmentHATRef = ref ∧ g.ppset.isSet pp := by
  have hlt : pp < 64 := hpp.2.trans (by decide)
  -- the list in which the processor is recorded
  have htouch : ∀ l : List Segment, Grid (SEGMENT_SIZE L) l → ∀ g ∈ l, Has v g →
      ∃ g' ∈ addVP v pp l, Has v g' ∧ g'.segmentHATRef = g.segmentHATRef ∧ g'.ppset.isSet pp := by
    intro l hl g hg hhas
    obtain ⟨g', hg', hstart, href, -, hset⟩ := addVP_mem (s := v) hlt hl hg
    refine ⟨g', hg', ?_, href, hset hhas⟩
    unfold Has
    rw [(hl.addVP.cell g' hg').1, hstart, ← (hl.cell g hg).1]
    exact hhas
  unfold HATDefault.findSegmentGlobal at hfind
  split at hfind
  · next next hnext =>
      cases hfind
      obtain ⟨hmem, hhas⟩ := findSegment_some hnext
      refine ⟨h.grow h.grid.addVP ?_, rfl, rfl, rfl, htouch _ h.grid next hmem hhas⟩
      intro g hg
      obtain ⟨g', hg', hstart, href, hset, -⟩ := addVP_mem (s := v) hlt h.grid hg
      exact ⟨g', hg', hstart, href, hset⟩
  · next hnone =>
      split_ifs at hfind
      cases hfind
      obtain ⟨hlow, hhigh⟩ := has_base (s := v) (SEGMENT_SIZE_pos (L := L))
      have hadd : Grid (SEGMENT_SIZE L)
          (addSegment (segmentBase L v) (SEGMENT_SIZE L) s.nextRef s.segmentList) := by
        refine h.grid.addSegment (Nat.dvd_mul_left _ _) ?_
        intro e he hstart
        apply findSegment_none hnone e he
        unfold Has
        rw [(h.grid.cell e he).1, hstart]
        exact ⟨hlow, hhigh⟩
      refine ⟨h.grow hadd.addVP ?_, rfl, rfl, rfl,
        htouch _ hadd _ (mem_addSegment.2 (.inl rfl)) ⟨hlow, hhigh⟩⟩
      intro g hg
      obtain ⟨g', hg', hstart, href, hset, -⟩ :=
        addVP_mem (s := v) hlt hadd (mem_addSegment.2 (.inr hg))
      exact ⟨g', hg', hstart, href, hset⟩

theorem Inv.cache (hpp : (s.byVP vp).pp = some pp) {g : Segment}
    (hg : g ∈ s.segmentList) (hhas : Has v g) (href : g.segmentHATRef = ref)
    (hset : g.ppset.isSet pp) (hnone : SegmentList.findSegment v (s.byVP vp).segmentList = none) :
    Inv L numprocs (s.cache L vp v ref) ∧
      ∃ e ∈ ((s.cache L vp v ref).byVP vp).segmentList, Has v e := by
  obtain ⟨hlow, hhigh⟩ := has_base (s := v) (SEGMENT_SIZE_pos (L := L))
  have hbase : g.segmentstart = segmentBase L v := by
    obtain ⟨hend, hdvd⟩ := h.grid.cell g hg
    unfold Has at hhas
    rw [hend] at hhas
    exact start_eq hdvd (Nat.dvd_mul_left _ _) hhas ⟨hlow, hhigh⟩
  have hpps : ∀ u, ((s.cache L vp v ref).byVP u).pp = (s.byVP u).pp := by
    intro u
    change (update s.byVP vp _ u).pp = _
    exact update_cases rfl (fun _ _ => rfl) u
  have hmem : ∀ u e, e ∈ ((s.cache L vp v ref).byVP u).segmentList ↔
      (u = vp ∧ e = ⟨segmentBase L v, segmentBase L v + SEGMENT_SIZE L, VPSet.init, ref⟩) ∨
        e ∈ (s.byVP u).segmentList := by
    intro u e
    change e ∈ (update s.byVP vp _ u).segmentList ↔ _
    refine update_cases ?_ (fun u hu => by simp [hu]) u
    change e ∈ addSegment _ _ _ _ ↔ _
    rw [mem_addSegment]
    simp
  refine ⟨⟨h.grid, ?_, ?_, ?_, ?_, h.unmapped, ?_⟩, ?_⟩
  · intro u
    change Grid _ (update s.byVP vp _ u).segmentList
    refine update_cases ?_ (fun u _ => h.localGrid u) u
    refine (h.localGrid vp).addSegment (Nat.dvd_mul_left _ _) ?_
    intro e he hstart
    apply findSegment_none hnone e he
    unfold Has
    rw [((h.localGrid vp).cell e he).1, hstart]
    exact ⟨hlow, hhigh⟩
  · intro u e he
    rw [hpps]
    rcases (hmem u e).1 he with ⟨rfl, rfl⟩ | he
    · exact ⟨pp, hpp, g, hg, hbase, href, hset⟩
    · exact h.covered u e he
  · intro u x hx
    obtain ⟨e, he, hxe⟩ := h.pages u x hx
    exact ⟨e, (hmem u e).2 (.inr he), hxe⟩
  · intro u x hx
    rw [hpps]
    exact h.faulted u x hx
  · intro u p hp
    rw [hpps] at hp
    exact h.onMachine u p hp
  · exact ⟨_, (hmem vp _).2 (.inl ⟨rfl, rfl⟩), hlow, hhigh⟩

theorem Inv.enterPage {entered : Bool} (hpp : (s.byVP vp).pp = some pp)
    (hattached : s.detached vp = false) (hfault : (pp, v) ∈ s.faults)
    (he : ∃ e ∈ (s.byVP vp).segmentList, Has v e) :
    Inv L numprocs (s.enterPage vp v entered) := by
  unfold HATDefault.enterPage
  split_ifs
  · have hmem : ∀ u x, x ∈ update s.mapped vp (insert v (s.mapped vp)) u →
        (u = vp ∧ x = v) ∨ x ∈ s.mapped u := by
      intro u x
      refine update_cases (fun hx => ?_) (fun _ _ => .inr) u
      exact (Finset.mem_insert.mp hx).imp_left fun heq => ⟨rfl, heq⟩
    refine ⟨h.grid, h.localGrid, h.covered, ?_, ?_, ?_, h.onMachine⟩
    · intro u x hx
      rcases hmem u x hx with ⟨rfl, rfl⟩ | hx
      · exact he
      · exact h.pages u x hx
    · intro u x hx
      rcases hmem u x hx with ⟨rfl, rfl⟩ | hx
      · exact ⟨pp, hpp, hfault⟩
      · exact h.faulted u x hx
    · intro u hu
      have hne : u ≠ vp := by
        rintro rfl
        rw [hattached] at hu
        cases hu
      change update s.mapped vp _ u = ∅
      rw [update_of_ne hne]
      exact h.unmapped u hu
  · exact h

theorem Inv.mapPage {create entered : Bool} (hpp : Processor numprocs pp)
    (hattached : s.detached vp = false)
    (hplaced : (s.byVP vp).pp = none ∨ (s.byVP vp).pp = some pp) :
    Inv L numprocs (s.mapPage L v vp create entered pp) := by
  have hset : Inv L numprocs ({ s with faults := insert (pp, v) s.faults }.setPP vp pp) :=
    h.fault.setPP hpp hplaced
  have hself : (({ s with faults := insert (pp, v) s.faults }.setPP vp pp).byVP vp).pp =
      some pp := by
    change (update s.byVP vp _ vp).pp = _
    rw [update_self]
  have hfault : (pp, v) ∈ insert (pp, v) s.faults := Finset.mem_insert_self _ _
  unfold HATDefault.mapPage HATDefault.findSegment
  dsimp only
  generalize hs' : { s with faults := insert (pp, v) s.faults }.setPP vp pp = s' at hset hself ⊢
  have hdetached : s'.detached vp = false := by
    rw [← hs']
    exact hattached
  have hmem : (pp, v) ∈ s'.faults := by
    rw [← hs']
    exact hfault
  cases hlocal : SegmentList.findSegment v (s'.byVP vp).segmentList with
  | some e =>
    exact hset.enterPage hself hdetached hmem ⟨e, findSegment_some hlocal⟩
  | none =>
    cases hglobal : s'.findSegmentGlobal L v create pp with
    | none => exact hset
    | some r =>
      obtain ⟨ref, t⟩ := r
      obtain ⟨hinv, hbyVP, hdet, hfaults, g, hg, hhas, href, hgset⟩ :=
        hset.findSegmentGlobal hpp hglobal
      rw [← hbyVP] at hself hlocal
      obtain ⟨hcache, he⟩ := hinv.cache hself hg hhas href hgset hlocal
      have hcached : ((t.cache L vp v ref).byVP vp).pp = some pp := by
        change (update t.byVP vp _ vp).pp = _
        rw [update_self]
        exact hself
      refine hcache.enterPage hcached ?_ ?_ he
      · change t.detached vp = false
        rw [hdet]
        exact hdetached
      · change _ ∈ t.faults
        rw [hfaults]
        exact hmem

end

/-! ### Unmapping -/

/-- The pages that the calls for one returned segment take away. -/
def Removed (L a b : ℕ) (w : Bool) (e : Segment) (v : ℕ) : Prop :=
  if w then e.segmentstart ≤ v ∧ v < e.segmentstart + SEGMENT_SIZE L
  else max a e.segmentstart ≤ v ∧ v < min b e.segmentend

theorem mem_unmapFound :
    v ∈ unmapFound L a b found m ↔ v ∈ m ∧ ∀ w e, (w, e) ∈ found → ¬ Removed L a b w e v := by
  induction found generalizing m with
  | nil => exact ⟨fun hv => ⟨hv, nofun⟩, And.left⟩
  | cons f rest ih =>
    obtain ⟨w, e⟩ := f
    have hstep : v ∈ unmapFound L a b ((w, e) :: rest) m ↔
        (v ∈ m ∧ ¬ Removed L a b w e v) ∧ ∀ w e, (w, e) ∈ rest → ¬ Removed L a b w e v := by
      cases w with
      | true =>
        unfold unmapFound
        rw [ih, Finset.mem_filter]
        rfl
      | false =>
        unfold unmapFound
        rw [ih, Finset.mem_filter]
        rfl
    rw [hstep]
    constructor
    · rintro ⟨⟨hv, hnot⟩, hrest⟩
      refine ⟨hv, ?_⟩
      intro w' e' hmem
      rcases List.mem_cons.1 hmem with heq | hmem
      · cases heq
        exact hnot
      · exact hrest w' e' hmem
    · rintro ⟨hv, hall⟩
      exact ⟨⟨hv, hall w e List.mem_cons_self⟩,
        fun w' e' hmem => hall w' e' (List.mem_cons_of_mem _ hmem)⟩

/-- The cached segments and pages of every `vp` that unmapping goes through. -/
structure Cached (L : ℕ) (s : HATDefault) : Prop where
  localGrid : ∀ vp, Grid (SEGMENT_SIZE L) (s.byVP vp).segmentList
  pages : ∀ vp, ∀ v ∈ s.mapped vp, ∃ e ∈ (s.byVP vp).segmentList, Has v e

/-- What unmapping on some processors has left: less than before, and on these processors
nothing in the range. -/
structure Left (a b : ℕ) (s s' : HATDefault) (ps : List ℕ) : Prop where
  same : s'.segmentList = s.segmentList ∧ s'.detached = s.detached ∧ s'.faults = s.faults
  pp : ∀ vp, (s'.byVP vp).pp = (s.byVP vp).pp
  sub : ∀ vp, (s'.byVP vp).segmentList.Sublist (s.byVP vp).segmentList
  subset : ∀ vp, s'.mapped vp ⊆ s.mapped vp
  clear : ∀ vp p, p ∈ ps → (s.byVP vp).pp = some p →
    (∀ e ∈ (s'.byVP vp).segmentList, ¬ Inside a b e) ∧ ∀ v ∈ s'.mapped vp, ¬ (a ≤ v ∧ v < b)

theorem Cached.unmapRangeLocal (h : Cached L s) (p : ℕ) :
    Cached L (HATDefault.unmapRangeLocal L a b s p) ∧
      Left a b s (HATDefault.unmapRangeLocal L a b s p) [p] := by
  -- what is left at a `vp` that is on the processor
  have hthere : ∀ u, (s.byVP u).pp = some p →
      ((HATDefault.unmapRangeLocal L a b s p).byVP u).segmentList =
        (deleteSegments a b (s.byVP u).segmentList).2 ∧
      (HATDefault.unmapRangeLocal L a b s p).mapped u =
        unmapFound L a b (deleteSegments a b (s.byVP u).segmentList).1 (s.mapped u) := by
    intro u hu
    unfold HATDefault.unmapRangeLocal
    dsimp only
    rw [if_pos hu, if_pos hu]
    exact ⟨rfl, rfl⟩
  have helse : ∀ u, (s.byVP u).pp ≠ some p →
      (HATDefault.unmapRangeLocal L a b s p).byVP u = s.byVP u ∧
        (HATDefault.unmapRangeLocal L a b s p).mapped u = s.mapped u := by
    intro u hu
    unfold HATDefault.unmapRangeLocal
    dsimp only
    rw [if_neg hu, if_neg hu]
    exact ⟨rfl, rfl⟩
  have hsub : ∀ u, ((HATDefault.unmapRangeLocal L a b s p).byVP u).segmentList.Sublist
      (s.byVP u).segmentList := by
    intro u
    by_cases hu : (s.byVP u).pp = some p
    · rw [(hthere u hu).1]
      exact deleteSegments_sublist
    · rw [(helse u hu).1]
  have hsubset : ∀ u, (HATDefault.unmapRangeLocal L a b s p).mapped u ⊆ s.mapped u := by
    intro u v hv
    by_cases hu : (s.byVP u).pp = some p
    · rw [(hthere u hu).2] at hv
      exact (mem_unmapFound.1 hv).1
    · rw [(helse u hu).2] at hv
      exact hv
  have hpages : ∀ u, ∀ v ∈ (HATDefault.unmapRangeLocal L a b s p).mapped u,
      ∃ e ∈ ((HATDefault.unmapRangeLocal L a b s p).byVP u).segmentList, Has v e := by
    intro u v hv
    obtain ⟨e, he, hhas⟩ := h.pages u v (hsubset u hv)
    by_cases hu : (s.byVP u).pp = some p
    · rw [(hthere u hu).1]
      rw [(hthere u hu).2] at hv
      refine ⟨e, (h.localGrid u).mem_delete.2 ⟨he, ?_⟩, hhas⟩
      intro hinside
      have hend := ((h.localGrid u).cell e he).1
      obtain ⟨hlow, hhigh⟩ := hhas
      refine (mem_unmapFound.1 hv).2 true e ((h.localGrid u).mem_found.2 ⟨he, ?_, ?_, ?_⟩) ?_
      · exact hinside.1.trans_lt (hlow.trans_lt hhigh)
      · exact (hlow.trans_lt hhigh).trans_le hinside.2
      · exact iff_of_true rfl hinside
      · rw [hend] at hhigh
        exact ⟨hlow, hhigh⟩
    · rw [(helse u hu).1]
      exact ⟨e, he, hhas⟩
  refine ⟨⟨fun u => (h.localGrid u).sublist (hsub u), hpages⟩,
    ⟨rfl, rfl, rfl⟩, ?_, hsub, hsubset, ?_⟩
  · intro u
    unfold HATDefault.unmapRangeLocal
    dsimp only
    split_ifs <;> rfl
  · intro u q hq hu
    rw [List.mem_singleton] at hq
    subst q
    rw [(hthere u hu).1, (hthere u hu).2]
    refine ⟨fun e he => ((h.localGrid u).mem_delete.1 he).2, ?_⟩
    rintro v hv ⟨hav, hvb⟩
    obtain ⟨hmem, hkept⟩ := mem_unmapFound.1 hv
    obtain ⟨e, he, hlow, hhigh⟩ := h.pages u v hmem
    have hmeets : a < e.segmentend ∧ e.segmentstart < b :=
      ⟨hav.trans_lt hhigh, hlow.trans_lt hvb⟩
    by_cases hinside : Inside a b e
    · refine hkept true e ((h.localGrid u).mem_found.2
        ⟨he, hmeets.1, hmeets.2, iff_of_true rfl hinside⟩) ⟨hlow, ?_⟩
      rw [← ((h.localGrid u).cell e he).1]
      exact hhigh
    · exact hkept false e ((h.localGrid u).mem_found.2
        ⟨he, hmeets.1, hmeets.2, iff_of_false nofun hinside⟩)
        ⟨max_le hav hlow, lt_min hvb hhigh⟩

theorem Cached.unmapRangeLocals (ps : List ℕ) : ∀ {s : HATDefault}, Cached L s →
    Cached L (ps.foldl (HATDefault.unmapRangeLocal L a b) s) ∧
      Left a b s (ps.foldl (HATDefault.unmapRangeLocal L a b) s) ps := by
  induction ps with
  | nil =>
    intro s h
    exact ⟨h, ⟨rfl, rfl, rfl⟩, fun _ => rfl, fun _ => List.Sublist.refl _,
      fun _ => Finset.Subset.refl _, nofun⟩
  | cons p rest ih =>
    intro s h
    obtain ⟨hcached, hleft⟩ := h.unmapRangeLocal (a := a) (b := b) p
    obtain ⟨hcached', hleft'⟩ := ih hcached
    refine ⟨hcached', ?_, ?_, ?_, ?_, ?_⟩
    · exact ⟨hleft'.same.1.trans hleft.same.1, hleft'.same.2.1.trans hleft.same.2.1,
        hleft'.same.2.2.trans hleft.same.2.2⟩
    · exact fun u => (hleft'.pp u).trans (hleft.pp u)
    · exact fun u => (hleft'.sub u).trans (hleft.sub u)
    · exact fun u => (hleft'.subset u).trans (hleft.subset u)
    · intro u q hq hu
      rcases List.mem_cons.1 hq with rfl | hq
      · obtain ⟨hsegs, hpages⟩ := hleft.clear u q (List.mem_singleton_self q) hu
        exact ⟨fun e he => hsegs e ((hleft'.sub u).subset he),
          fun v hv => hpages v (hleft'.subset u hv)⟩
      · exact hleft'.clear u q hq ((hleft.pp u).trans hu)

theorem isSet_gather (found : List (Bool × Segment)) (p : ℕ) : ∀ sets : VPSet × VPSet,
    (sets.1.isSet p ∨ (∃ w g, (w, g) ∈ found ∧ g.ppset.isSet p) → (gather found sets).1.isSet p) ∧
      (sets.2.isSet p ∨ (∃ g, (true, g) ∈ found ∧ g.ppset.isSet p) →
        (gather found sets).2.isSet p) := by
  induction found with
  | nil =>
    intro sets
    refine ⟨?_, ?_⟩
    · rintro (h | ⟨w, g, hmem, -⟩)
      · exact h
      · cases hmem
    · rintro (h | ⟨g, hmem, -⟩)
      · exact h
      · cases hmem
  | cons f rest ih =>
    rintro ⟨unionset, ppset⟩
    obtain ⟨w, g⟩ := f
    unfold gather
    obtain ⟨hunion, hpp⟩ :=
      ih (unionset.unite g.ppset, if w then ppset.unite g.ppset else ppset)
    refine ⟨?_, ?_⟩
    · rintro (h | ⟨w', g', hmem, hset⟩)
      · exact hunion (.inl (VPSet.isSet_unite.2 (.inl h)))
      · rcases List.mem_cons.1 hmem with heq | hmem
        · cases heq
          exact hunion (.inl (VPSet.isSet_unite.2 (.inr hset)))
        · exact hunion (.inr ⟨w', g', hmem, hset⟩)
    · rintro (h | ⟨g', hmem, hset⟩)
      · refine hpp (.inl ?_)
        cases w with
        | true => exact VPSet.isSet_unite.2 (.inl h)
        | false => exact h
      · rcases List.mem_cons.1 hmem with heq | hmem
        · cases heq
          exact hpp (.inl (VPSet.isSet_unite.2 (.inr hset)))
        · exact hpp (.inr ⟨g', hmem, hset⟩)

theorem mem_visited {unionset : VPSet} {mypp p : ℕ} (hp : p < numprocs)
    (hset : unionset.isSet p) : p ∈ visited unionset numprocs mypp := by
  unfold visited
  rw [List.mem_append]
  by_cases heq : p = mypp
  · subst p
    right
    rw [if_pos hset]
    exact List.mem_singleton_self _
  · left
    rw [List.mem_filter]
    exact ⟨VPSet.mem_members.2 ⟨hp, hset⟩, by simp [heq]⟩

theorem Inv.unmapRange (h : Inv L numprocs s) {rangeAddr rangeSize mypp : ℕ} {ppset : VPSet}
    (hregion : ∀ f ∈ s.faults, rangeAddr ≤ f.2 → f.2 < rangeAddr + rangeSize →
      ppset.isSet f.1) :
    Inv L numprocs (s.unmapRange L rangeAddr rangeSize ppset numprocs mypp) ∧
      (s.unmapRange L rangeAddr rangeSize ppset numprocs mypp).Unmapped rangeAddr rangeSize := by
  unfold HATDefault.unmapRange
  dsimp only
  generalize hb : rangeAddr + rangeSize = b at hregion ⊢
  generalize hsets : gather (deleteSegments rangeAddr b s.segmentList).1 (VPSet.init, ppset) = sets
  have hcached : Cached L { s with
      segmentList := (deleteSegments rangeAddr b s.segmentList).2
      faults := s.faults.filter fun f => ¬ (rangeAddr ≤ f.2 ∧ f.2 < b) } :=
    ⟨h.localGrid, h.pages⟩
  obtain ⟨hfinal, hleft⟩ := hcached.unmapRangeLocals (a := rangeAddr) (b := b)
    (visited (sets.1.intersect sets.2) numprocs mypp)
  generalize List.foldl (HATDefault.unmapRangeLocal L rangeAddr b) _ _ = t at hfinal hleft ⊢
  obtain ⟨⟨hlist, hdetached, hfaults⟩, hpps, hsub, hsubset, hclear⟩ := hleft
  change t.segmentList = (deleteSegments rangeAddr b s.segmentList).2 at hlist
  change t.faults = s.faults.filter _ at hfaults
  -- a processor that has a copy of a segment in the range, and is named, is visited
  have hvisit : ∀ u p g, (s.byVP u).pp = some p → g ∈ s.segmentList → g.ppset.isSet p →
      rangeAddr < g.segmentend → g.segmentstart < b → (Inside rangeAddr b g ∨ ppset.isSet p) →
      (∀ e ∈ (t.byVP u).segmentList, ¬ Inside rangeAddr b e) ∧
        ∀ v ∈ t.mapped u, ¬ (rangeAddr ≤ v ∧ v < b) := by
    intro u p g hp hg hset hlow hhigh hnamed
    refine hclear u p (mem_visited (h.onMachine u p hp).1 ?_) hp
    rw [VPSet.isSet_intersect, ← hsets]
    obtain ⟨hunion, hpp⟩ :=
      isSet_gather (deleteSegments rangeAddr b s.segmentList).1 p (VPSet.init, ppset)
    refine ⟨?_, ?_⟩
    · by_cases hinside : Inside rangeAddr b g
      · exact hunion (.inr ⟨true, g,
          h.grid.mem_found.2 ⟨hg, hlow, hhigh, iff_of_true rfl hinside⟩, hset⟩)
      · exact hunion (.inr ⟨false, g,
          h.grid.mem_found.2 ⟨hg, hlow, hhigh, iff_of_false nofun hinside⟩, hset⟩)
    · rcases hnamed with hinside | hregion
      · exact hpp (.inr ⟨g, h.grid.mem_found.2 ⟨hg, hlow, hhigh, iff_of_true rfl hinside⟩, hset⟩)
      · exact hpp (.inl hregion)
  -- a cached segment inside the range would have been visited
  have hsegs : ∀ u, ∀ e ∈ (t.byVP u).segmentList, ¬ Inside rangeAddr b e := by
    intro u e he hinside
    have hold := (hsub u).subset he
    obtain ⟨p, hp, g, hg, hstart, -, hset⟩ := h.covered u e hold
    have hin := ((h.inside_iff (v := 0) hold hg hstart).2).2 hinside
    have hend := (h.grid.cell g hg).1
    have hpos := SEGMENT_SIZE_pos (L := L)
    obtain ⟨ha, hbe⟩ := id hin
    exact (hvisit u p g hp hg hset (by omega) (by omega) (.inl hin)).1 e he hinside
  have hpages : ∀ u, ∀ v ∈ t.mapped u, ¬ (rangeAddr ≤ v ∧ v < b) := by
    rintro u v hv ⟨hav, hvb⟩
    obtain ⟨e, he, hhas⟩ := hfinal.pages u v hv
    have hold := (hsub u).subset he
    obtain ⟨p, hp, g, hg, hstart, -, hset⟩ := h.covered u e hold
    obtain ⟨hlow, hhigh⟩ := ((h.inside_iff (a := 0) (b := 0) hold hg hstart).1).2 hhas
    obtain ⟨q, hq, hfault⟩ := h.faulted u v (hsubset u hv)
    rw [hp] at hq
    cases hq
    exact (hvisit u p g hp hg hset (hav.trans_lt hhigh) (hlow.trans_lt hvb)
      (.inr (hregion (p, v) hfault hav hvb))).2 v hv ⟨hav, hvb⟩
  refine ⟨⟨?_, hfinal.localGrid, ?_, hfinal.pages, ?_, ?_, ?_⟩, ?_⟩
  · rw [hlist]
    exact h.grid.sublist deleteSegments_sublist
  · intro u e he
    have hold := (hsub u).subset he
    obtain ⟨p, hp, g, hg, hstart, href, hset⟩ := h.covered u e hold
    refine ⟨p, (hpps u).trans hp, g, ?_, hstart, href, hset⟩
    rw [hlist]
    refine h.grid.mem_delete.2 ⟨hg, ?_⟩
    intro hinside
    exact hsegs u e he (((h.inside_iff (v := 0) hold hg hstart).2).1 hinside)
  · intro u v hv
    obtain ⟨p, hp, hfault⟩ := h.faulted u v (hsubset u hv)
    refine ⟨p, (hpps u).trans hp, ?_⟩
    rw [hfaults, Finset.mem_filter]
    exact ⟨hfault, hpages u v hv⟩
  · intro u hu
    rw [hdetached] at hu
    have hnone := h.unmapped u hu
    exact Finset.subset_empty.1 (hnone ▸ hsubset u)
  · intro u p hp
    exact h.onMachine u p ((hpps u).symm.trans hp)
  · intro u
    refine ⟨?_, ?_⟩
    · rw [hb]
      exact hsegs u
    · rw [hb]
      exact hpages u

/-! ### Migration -/

theorem mem_foldl_filter :
    v ∈ l.foldl (fun m seg => m.filter fun v => ¬ (seg.segmentstart ≤ v ∧ v < seg.segmentend)) m ↔
      v ∈ m ∧ ∀ e ∈ l, ¬ Has v e := by
  induction l generalizing m with
  | nil => exact ⟨fun hv => ⟨hv, nofun⟩, And.left⟩
  | cons e rest ih =>
    rw [List.foldl_cons, ih, Finset.mem_filter, List.forall_mem_cons, and_assoc]
    rfl

theorem Inv.detachVP (h : Inv L numprocs s) : Inv L numprocs (s.detachVP vp) := by
  have hnone : (s.detachVP vp).mapped vp = ∅ := by
    change update s.mapped vp _ vp = ∅
    rw [update_self]
    refine Finset.eq_empty_of_forall_notMem ?_
    intro v hv
    obtain ⟨hmem, hnot⟩ := mem_foldl_filter.1 hv
    obtain ⟨e, he, hhas⟩ := h.pages vp v hmem
    exact hnot e he hhas
  have hsubset : ∀ u, (s.detachVP vp).mapped u ⊆ s.mapped u := by
    intro u
    by_cases hu : u = vp
    · subst u
      rw [hnone]
      exact Finset.empty_subset _
    · change update s.mapped vp _ u ⊆ _
      rw [update_of_ne hu]
  refine ⟨h.grid, h.localGrid, h.covered, fun u v hv => h.pages u v (hsubset u hv),
    fun u v hv => h.faulted u v (hsubset u hv), ?_, h.onMachine⟩
  intro u hu
  by_cases huvp : u = vp
  · subst u
    exact hnone
  · change update s.detached vp true u = true at hu
    rw [update_of_ne huvp] at hu
    exact Finset.subset_empty.1 (h.unmapped u hu ▸ hsubset u)

theorem isSet_activeSet {byVP : VPNum → ByVP} (hpp : (byVP vp).pp = some pp)
    (hlt : ∀ u p, (byVP u).pp = some p → p < 64) : (activeSet byVP).isSet pp := by
  have hfold : ∀ (vps : List VPNum) (set : VPSet), set.isSet pp ∨ vp ∈ vps →
      (vps.foldl (fun set u =>
        match (byVP u).pp with
        | some p => set.addVP p
        | none => set) set).isSet pp := by
    intro vps
    induction vps with
    | nil =>
      rintro set (hset | hmem)
      · exact hset
      · cases hmem
    | cons u rest ih =>
      intro set hor
      rw [List.foldl_cons]
      apply ih
      rcases hor with hset | hmem
      · left
        cases hu : (byVP u).pp with
        | none => exact hset
        | some p => exact (VPSet.isSet_addVP (hlt u p hu)).2 (.inl hset)
      · rcases List.mem_cons.1 hmem with rfl | hmem
        · left
          rw [hpp]
          exact (VPSet.isSet_addVP (hlt vp pp hpp)).2 (.inr rfl)
        · exact .inr hmem
  exact hfold _ _ (.inr (List.mem_finRange vp))

theorem record_spec (hpp : pp < 64) (cached : List Segment) :
    ∀ {l : List Segment}, Grid (SEGMENT_SIZE L) l →
      Grid (SEGMENT_SIZE L) (cached.foldl (fun l seg => addVP seg.segmentstart pp l) l) ∧
        ∀ g ∈ l, ∃ g' ∈ cached.foldl (fun l seg => addVP seg.segmentstart pp l) l,
          g'.segmentstart = g.segmentstart ∧ g'.segmentHATRef = g.segmentHATRef ∧
            (∀ p, g.ppset.isSet p → g'.ppset.isSet p) ∧
            ∀ e ∈ cached, e.segmentstart = g.segmentstart → g'.ppset.isSet pp := by
  induction cached with
  | nil => exact fun hl => ⟨hl, fun g hg => ⟨g, hg, rfl, rfl, fun _ => id, nofun⟩⟩
  | cons e rest ih =>
    intro l hl
    rw [List.foldl_cons]
    obtain ⟨hgrid, hrest⟩ := ih (hl.addVP : Grid _ (addVP e.segmentstart pp l))
    refine ⟨hgrid, ?_⟩
    intro g hg
    obtain ⟨g', hg', hstart, href, hset, hhas⟩ := addVP_mem (s := e.segmentstart) hpp hl hg
    obtain ⟨g'', hg'', hstart', href', hset', hlater⟩ := hrest g' hg'
    refine ⟨g'', hg'', hstart'.trans hstart, href'.trans href, fun p hp => hset' p (hset p hp), ?_⟩
    intro c hc hceq
    rcases List.mem_cons.1 hc with rfl | hc
    · refine hset' pp (hhas ?_)
      unfold Has
      rw [hceq, (hl.cell g hg).1]
      exact ⟨le_rfl, Nat.lt_add_of_pos_right hl.pos⟩
    · exact hlater c hc (hceq.trans hstart.symm)

theorem Inv.attachVP (h : Inv L numprocs s) (hpp : Processor numprocs pp)
    (hdetached : s.detached vp = true) : Inv L numprocs (s.attachVP vp pp) := by
  have hlist : ∀ u, ((s.attachVP vp pp).byVP u).segmentList = (s.byVP u).segmentList := by
    intro u
    change (update s.byVP vp _ u).segmentList = _
    exact update_cases rfl (fun _ _ => rfl) u
  have hself : ((s.attachVP vp pp).byVP vp).pp = some pp := by
    change (update s.byVP vp _ vp).pp = _
    rw [update_self]
  have hother : ∀ u, u ≠ vp → (s.attachVP vp pp).byVP u = s.byVP u :=
    fun u hu => update_of_ne hu _ _
  have hmachine : ∀ u p, ((s.attachVP vp pp).byVP u).pp = some p → Processor numprocs p := by
    intro u p hp
    by_cases hu : u = vp
    · subst u
      rw [hself] at hp
      cases hp
      exact hpp
    · rw [hother u hu] at hp
      exact h.onMachine u p hp
  have hlt : ∀ p, Processor numprocs p → p < 64 := fun p hp => hp.2.trans (by decide)
  obtain ⟨hgrid, hrecord⟩ := record_spec (L := L) (hlt pp hpp)
    ((s.attachVP vp pp).byVP vp).segmentList h.grid
  generalize hrec : ((s.attachVP vp pp).byVP vp).segmentList.foldl
    (fun l seg => addVP seg.segmentstart pp l) s.segmentList = recorded at hgrid hrecord
  have hsegs : (s.attachVP vp pp).segmentList = recorded.map fun seg =>
      { seg with ppset := seg.ppset.intersect (activeSet (s.attachVP vp pp).byVP) } := by
    rw [← hrec]
    rfl
  have hempty : s.mapped vp = ∅ := h.unmapped vp hdetached
  refine ⟨?_, ?_, ?_, ?_, ?_, ?_, hmachine⟩
  · rw [hsegs]
    refine hgrid.congr ?_ ?_
    · intro e he
      obtain ⟨g, hg, rfl⟩ := List.mem_map.1 he
      exact ⟨g, hg, rfl, rfl⟩
    · rw [List.map_map]
      rfl
  · intro u
    rw [hlist]
    exact h.localGrid u
  · intro u e he
    rw [hlist] at he
    obtain ⟨p, hp, g, hg, hstart, href, hset⟩ := h.covered u e he
    obtain ⟨g', hg', hstart', href', hset', hnew⟩ := hrecord g hg
    -- the processor that the `vp` is on now
    obtain ⟨q, hq, hqset⟩ : ∃ q, ((s.attachVP vp pp).byVP u).pp = some q ∧ g'.ppset.isSet q := by
      by_cases hu : u = vp
      · subst u
        refine ⟨pp, hself, hnew e ?_ hstart.symm⟩
        rw [hlist]
        exact he
      · refine ⟨p, ?_, hset' p hset⟩
        rw [hother u hu]
        exact hp
    refine ⟨q, hq, { g' with ppset := g'.ppset.intersect (activeSet (s.attachVP vp pp).byVP) },
      ?_, hstart'.trans hstart, href'.trans href, ?_⟩
    · rw [hsegs]
      exact List.mem_map_of_mem hg'
    · exact VPSet.isSet_intersect.2
        ⟨hqset, isSet_activeSet hq fun w p hp => hlt p (hmachine w p hp)⟩
  · intro u v hv
    rw [hlist]
    exact h.pages u v hv
  · intro u v hv
    have hu : u ≠ vp := by
      rintro rfl
      change v ∈ s.mapped u at hv
      rw [hempty] at hv
      exact absurd hv (Finset.notMem_empty v)
    rw [hother u hu]
    exact h.faulted u v hv
  · intro u hu
    by_cases huvp : u = vp
    · subst u
      exact hempty
    · change update s.detached vp false u = true at hu
      rw [update_of_ne huvp] at hu
      exact h.unmapped u hu

theorem Inv.attachRegion (h : Inv L numprocs s) {regionAddr : ℕ}
    (hnone : SegmentList.findSegment regionAddr s.segmentList = none) :
    Inv L numprocs (s.attachRegion L regionAddr (SEGMENT_SIZE L) ref) := by
  unfold HATDefault.attachRegion
  split_ifs with _ haligned
  · exact h
  · refine h.grow (n := s.nextRef) (h.grid.addSegment haligned.1 ?_) ?_
    · intro e he hstart
      apply findSegment_none hnone e he
      unfold Has
      rw [(h.grid.cell e he).1, hstart]
      exact ⟨le_rfl, Nat.lt_add_of_pos_right h.grid.pos⟩
    · exact fun g hg => ⟨g, mem_addSegment.2 (.inr hg), rfl, rfl, fun _ => id⟩
  · exact h

theorem Inv.step (h : Inv L numprocs s) {op : Op} (hadm : s.adm numprocs op)
    (hplaced : s.placed L op) : Inv L numprocs (s.step L numprocs op) := by
  cases op with
  | mapPage virtAddr vp createIfNoSeg entered pp => exact h.mapPage hadm.1 hadm.2 hplaced
  | attachRegion regionAddr regionSize segmentHATRef =>
    obtain ⟨rfl, hnone⟩ := hplaced
    exact h.attachRegion hnone
  | unmapRange rangeAddr rangeSize ppset mypp => exact (h.unmapRange hadm.2).1
  | detachVP vp pp => exact h.detachVP
  | attachVP vp pp => exact h.attachVP hadm.1 hadm.2

end Invariant

/-- In every run in which a `vp` faults on the processor it is on, and single segments are
attached where there is none: each cached segment is covered by the global list; and when an
`unmapRange` is over, no `vp` has a segment inside the range or a page of it. -/
theorem run_covers {L numprocs : ℕ} {ops : List Op} {s : HATDefault}
    (h : (placedRuns L numprocs).Run init ops s) :
    s.Covered ∧ ∀ rangeAddr rangeSize ppset mypp,
      s.adm numprocs (.unmapRange rangeAddr rangeSize ppset mypp) →
        (s.step L numprocs (.unmapRange rangeAddr rangeSize ppset mypp)).Unmapped
          rangeAddr rangeSize := by
  have hinv : Inv L numprocs s := by
    refine h.invariant inv_init ?_
    rintro s op hs ⟨hadm, hplaced⟩
    exact hs.step hadm hplaced
  exact ⟨hinv.covered, fun rangeAddr rangeSize ppset mypp hadm => (hinv.unmapRange hadm.2).2⟩

instance (numprocs pp : ℕ) : Decidable (Processor numprocs pp) :=
  inferInstanceAs (Decidable (_ ∧ _))

instance (numprocs : ℕ) (s : HATDefault) : (op : Op) → Decidable (s.adm numprocs op)
  | .attachRegion .. => isTrue trivial
  | .unmapRange rangeAddr rangeSize ppset mypp =>
    inferInstanceAs (Decidable (Processor numprocs mypp ∧
      ∀ f ∈ s.faults, rangeAddr ≤ f.2 → f.2 < rangeAddr + rangeSize → ppset.isSet f.1))
  | .mapPage .. | .detachVP .. | .attachVP .. => inferInstanceAs (Decidable (_ ∧ _))

instance (L : ℕ) (s : HATDefault) : (op : Op) → Decidable (s.placed L op)
  | .mapPage .. => inferInstanceAs (Decidable (_ ∨ _))
  | .attachRegion .. => inferInstanceAs (Decidable (_ ∧ _))
  | .unmapRange .. | .detachVP .. | .attachVP .. => isTrue trivial

instance (L numprocs : ℕ) (s : HATDefault) (op : Op) : Decidable ((runs L numprocs).adm s op) :=
  inferInstanceAs (Decidable (s.adm numprocs op))

instance (L numprocs : ℕ) (s : HATDefault) (op : Op) :
    Decidable ((placedRuns L numprocs).adm s op) :=
  inferInstanceAs (Decidable (s.adm numprocs op ∧ s.placed L op))

/-- A `vp` faults on processor 0 and migrates to processor 1, which the region has not seen. -/
def migrates : List Op :=
  [.mapPage 0x1000 0 true true 0, .mapPage 0x10003000 0 true true 0, .detachVP 0 0,
    .attachVP 0 1, .mapPage 0x10003000 0 true true 1]

theorem run_covers_migrates :
    let s := migrates.foldl (placedRuns 28 2).step init
    (placedRuns 28 2).Run init migrates s ∧ s.Covered ∧ (s.byVP 0).segmentList.length = 2 ∧
      s.mapped 0 = {0x10003000} ∧
      (s.step 28 2 (.unmapRange 0 0x10004000 ⟨3⟩ 0)).Unmapped 0 0x10004000 ∧
      ((s.step 28 2 (.unmapRange 0 0x10004000 ⟨3⟩ 0)).byVP 0).segmentList.length = 1 := by
  intro s
  have hadmits : (placedRuns 28 2).Admits init migrates := by decide +kernel
  obtain ⟨hcovered, hunmaps⟩ := run_covers hadmits.run
  have hadm : s.adm 2 (.unmapRange 0 0x10004000 ⟨3⟩ 0) := by decide +kernel
  exact ⟨hadmits.run, hcovered, by decide +kernel, by decide +kernel, hunmaps _ _ _ _ hadm,
    by decide +kernel⟩

/-- A `vp` faults on processor 1 in a segment that it has cached on processor 0. -/
def faultsElsewhere : List Op := [.mapPage 0x1000 0 true true 0, .mapPage 0x2000 0 true true 1]

/-- A region of two segments is attached, and the `vp` that has cached the second migrates. -/
def attachesTwo : List Op :=
  [.attachRegion 0 0x20000000 7, .mapPage 0x10001000 0 false true 0, .detachVP 0 0, .attachVP 0 1]

/-- A segment is attached where there is one that a `vp` has cached, and the `vp` migrates. -/
def attachesTwice : List Op :=
  [.mapPage 0x1000 0 true true 0, .attachRegion 0 0x10000000 7, .detachVP 0 0, .attachVP 0 1]

theorem not_covered {s : HATDefault} (vp : VPNum) (pp : ℕ) (e : Segment)
    (he : e ∈ (s.byVP vp).segmentList) (hpp : (s.byVP vp).pp = some pp)
    (hnone : ∀ g ∈ s.segmentList, ¬ (g.segmentstart = e.segmentstart ∧
      g.segmentHATRef = e.segmentHATRef ∧ g.ppset.isSet pp)) : ¬ s.Covered := by
  intro hcovered
  obtain ⟨p, hp, g, hg, hstart, href, hset⟩ := hcovered vp e he
  rw [hpp] at hp
  cases hp
  exact hnone g hg ⟨hstart, href, hset⟩

/-- Without either condition a cached segment is not covered, and unmapping leaves segments and
pages of the range where they are. -/
theorem unmapRange_misses : (let s := faultsElsewhere.foldl (runs 28 2).step init
    (runs 28 2).Run init faultsElsewhere s ∧ ¬ s.Covered ∧
      s.adm 2 (.unmapRange 0 0x10000000 ⟨3⟩ 0) ∧
      ¬ (s.step 28 2 (.unmapRange 0 0x10000000 ⟨3⟩ 0)).Unmapped 0 0x10000000 ∧
      (s.step 28 2 (.unmapRange 0 0x10000000 ⟨3⟩ 0)).mapped 0 = {0x1000, 0x2000}) ∧
    (let s := attachesTwo.foldl (runs 28 2).step init
    (runs 28 2).Run init attachesTwo s ∧ ¬ s.Covered ∧
      s.adm 2 (.unmapRange 0x10000000 0x10000000 ⟨1⟩ 0) ∧
      ¬ (s.step 28 2 (.unmapRange 0x10000000 0x10000000 ⟨1⟩ 0)).Unmapped 0x10000000 0x10000000) ∧
    (let s := attachesTwice.foldl (runs 28 2).step init
    (runs 28 2).Run init attachesTwice s ∧ ¬ s.Covered) := by
  refine ⟨⟨?_, ?_, ?_, ?_, ?_⟩, ⟨?_, ?_, ?_, ?_⟩, ?_, ?_⟩
  · have hadmits : (runs 28 2).Admits init faultsElsewhere := by decide +kernel
    exact hadmits.run
  · exact not_covered 0 1 ⟨0, 0x10000000, VPSet.init, 1⟩ (by decide +kernel)
      (by decide +kernel) (by decide +kernel)
  · decide +kernel
  · intro hunmapped
    exact (hunmapped 0).1 ⟨0, 0x10000000, VPSet.init, 1⟩ (by decide +kernel) (by decide)
  · decide +kernel
  · have hadmits : (runs 28 2).Admits init attachesTwo := by decide +kernel
    exact hadmits.run
  · exact not_covered 0 1 ⟨0x10000000, 0x20000000, VPSet.init, 7⟩
      (by decide +kernel) (by decide +kernel) (by decide +kernel)
  · decide +kernel
  · intro hunmapped
    exact (hunmapped 0).1 ⟨0x10000000, 0x20000000, VPSet.init, 7⟩ (by decide +kernel) (by decide)
  · have hadmits : (runs 28 2).Admits init attachesTwice := by decide +kernel
    exact hadmits.run
  · exact not_covered 0 1 ⟨0, 0x10000000, VPSet.init, 1⟩ (by decide +kernel)
      (by decide +kernel) (by decide +kernel)

end HATDefault

end K42
