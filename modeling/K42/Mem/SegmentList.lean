import K42.Mem.VPSet

/-!
# Lists of segments

A `SegmentList` has the segments of an address space by ascending address, each with the set of
processors that have accessed it. `DeleteSegment` takes out one segment that lies in a range, or
reports one that sticks out of it, and is restarted behind that one; the loop around it is a
walk over the list.
-/

open List (mem_cons mem_cons_self mem_cons_of_mem map_cons)

namespace K42

/-- An element of the list. A `SegmentHATRef` is a number, and zero is the null reference. -/
structure Segment where
  segmentstart : ℕ
  segmentend : ℕ
  ppset : VPSet
  segmentHATRef : ℕ
deriving DecidableEq

namespace SegmentList

/-- The first segment that has the address. -/
def findSegment (s : ℕ) : List Segment → Option Segment
  | [] => none
  | next :: rest =>
    if next.segmentstart ≤ s ∧ s < next.segmentend then some next else findSegment s rest

/-- `ppset->addVP(pp)` for the `ppset` that `findSegment` returns. -/
def addVP (s pp : ℕ) : List Segment → List Segment
  | [] => []
  | next :: rest =>
    if next.segmentstart ≤ s ∧ s < next.segmentend then
      { next with ppset := next.ppset.addVP pp } :: rest
    else next :: addVP s pp rest

def addSegment (s l ref : ℕ) : List Segment → List Segment
  | [] => [⟨s, s + l, VPSet.init, ref⟩]
  | next :: rest =>
    if next.segmentstart < s then next :: addSegment s l ref rest
    else ⟨s, s + l, VPSet.init, ref⟩ :: next :: rest

/-- The loop over `DeleteSegment`: the segments it returns, each with whether it was deleted
(`rc == 0`) or is partial, and the list that remains. The caller reads the set of a deleted
element after `delete`, which writes only the links of the free list over its first words. -/
def deleteSegments (regionStart regionEnd : ℕ) :
    List Segment → List (Bool × Segment) × List Segment
  | [] => ([], [])
  | next :: rest =>
    if next.segmentend ≤ regionStart then
      ((deleteSegments regionStart regionEnd rest).1,
        next :: (deleteSegments regionStart regionEnd rest).2)
    else if regionEnd ≤ next.segmentstart then
      -- all following segments are above the range
      ([], next :: rest)
    else if regionStart ≤ next.segmentstart ∧ next.segmentend ≤ regionEnd then
      ((true, next) :: (deleteSegments regionStart regionEnd rest).1,
        (deleteSegments regionStart regionEnd rest).2)
    else
      ((false, next) :: (deleteSegments regionStart regionEnd rest).1,
        next :: (deleteSegments regionStart regionEnd rest).2)

/-! ## Segments on a grid -/

/-- Every element is one segment of the address space, and no segment is there twice. -/
structure Grid (size : ℕ) (l : List Segment) : Prop where
  pos : 0 < size
  cell : ∀ e ∈ l, e.segmentend = e.segmentstart + size ∧ size ∣ e.segmentstart
  sorted : l.Pairwise fun a b => a.segmentstart < b.segmentstart

/-- The segment lies in the range. -/
def Inside (a b : ℕ) (e : Segment) : Prop := a ≤ e.segmentstart ∧ e.segmentend ≤ b

instance (a b : ℕ) (e : Segment) : Decidable (Inside a b e) :=
  inferInstanceAs (Decidable (_ ∧ _))

/-- The segment has the address. -/
def Has (s : ℕ) (e : Segment) : Prop := e.segmentstart ≤ s ∧ s < e.segmentend

variable {size s ref a b pp : ℕ} {l m : List Segment} {e g : Segment} {w : Bool}

theorem grid_nil (h : 0 < size) : Grid size [] := ⟨h, nofun, List.Pairwise.nil⟩

theorem Grid.tail (h : Grid size (e :: l)) : Grid size l :=
  ⟨h.pos, fun g hg => h.cell g (mem_cons_of_mem _ hg), (List.pairwise_cons.1 h.sorted).2⟩

theorem Grid.sublist (h : Grid size l) (hm : m.Sublist l) : Grid size m :=
  ⟨h.pos, fun g hg => h.cell g (hm.subset hg), h.sorted.sublist hm⟩

theorem start_eq {u v : ℕ} (hu : size ∣ u) (hv : size ∣ v) (hus : u ≤ s ∧ s < u + size)
    (hvs : v ≤ s ∧ s < v + size) : u = v := by
  obtain ⟨j, rfl⟩ := hu
  obtain ⟨k, rfl⟩ := hv
  have hjk : j = k := by
    rcases Nat.lt_trichotomy j k with hlt | heq | hlt
    · have hle : size * (j + 1) ≤ size * k := Nat.mul_le_mul_left size hlt
      rw [Nat.mul_add] at hle
      omega
    · exact heq
    · have hle : size * (k + 1) ≤ size * j := Nat.mul_le_mul_left size hlt
      rw [Nat.mul_add] at hle
      omega
  rw [hjk]

theorem Grid.start_eq (h : Grid size l) (hm : Grid size m) (he : e ∈ l) (hg : g ∈ m)
    (hes : Has s e) (hgs : Has s g) : e.segmentstart = g.segmentstart := by
  obtain ⟨hend, hdvd⟩ := h.cell e he
  obtain ⟨hgend, hgdvd⟩ := hm.cell g hg
  unfold Has at hes hgs
  rw [hend] at hes
  rw [hgend] at hgs
  exact SegmentList.start_eq hdvd hgdvd hes hgs

theorem has_base (hpos : 0 < size) : s / size * size ≤ s ∧ s < s / size * size + size := by
  have hdiv := Nat.div_add_mod s size
  have hmod := Nat.mod_lt s hpos
  rw [Nat.mul_comm] at hdiv
  omega

/-! ## Find and add -/

theorem findSegment_some (h : findSegment s l = some e) : e ∈ l ∧ Has s e := by
  induction l with
  | nil => cases h
  | cons next rest ih =>
    unfold findSegment at h
    split_ifs at h with hhas
    · cases h
      exact ⟨mem_cons_self, hhas⟩
    · obtain ⟨hmem, hs⟩ := ih h
      exact ⟨mem_cons_of_mem _ hmem, hs⟩

theorem findSegment_none (h : findSegment s l = none) : ∀ e ∈ l, ¬ Has s e := by
  induction l with
  | nil => nofun
  | cons next rest ih =>
    unfold findSegment at h
    split_ifs at h with hhas
    rintro e he
    rcases mem_cons.1 he with rfl | he
    · exact hhas
    · exact ih h e he

theorem mem_addSegment {n : ℕ} :
    e ∈ addSegment s n ref l ↔ e = ⟨s, s + n, VPSet.init, ref⟩ ∨ e ∈ l := by
  induction l with
  | nil => exact mem_cons
  | cons next rest ih =>
    unfold addSegment
    split_ifs
    · rw [mem_cons, ih, mem_cons]
      exact or_left_comm
    · exact mem_cons

theorem Grid.addSegment (h : Grid size l) (hs : size ∣ s) (hnew : ∀ e ∈ l, e.segmentstart ≠ s) :
    Grid size (addSegment s size ref l) := by
  refine ⟨h.pos, ?_, ?_⟩
  · intro e he
    rcases mem_addSegment.1 he with rfl | he
    · exact ⟨rfl, hs⟩
    · exact h.cell e he
  · have hsorted := h.sorted
    clear h
    induction l with
    | nil => exact List.pairwise_singleton _ _
    | cons next rest ih =>
      obtain ⟨hfirst, hrest⟩ := List.pairwise_cons.1 hsorted
      unfold SegmentList.addSegment
      split_ifs with hlt
      · refine List.Pairwise.cons ?_ (ih ?_ hrest)
        · intro e he
          rcases mem_addSegment.1 he with rfl | he
          · exact hlt
          · exact hfirst e he
        · exact fun e he => hnew e (mem_cons_of_mem _ he)
      · have hle : s < next.segmentstart :=
          lt_of_le_of_ne (not_lt.1 hlt) (hnew next mem_cons_self).symm
        refine List.Pairwise.cons ?_ hsorted
        intro e he
        rcases mem_cons.1 he with rfl | he
        · exact hle
        · exact hle.trans (hfirst e he)

theorem mem_addVP (he : e ∈ addVP s pp l) : ∃ g ∈ l, e.segmentstart = g.segmentstart ∧
    e.segmentend = g.segmentend ∧ e.segmentHATRef = g.segmentHATRef := by
  induction l with
  | nil => cases he
  | cons next rest ih =>
    unfold addVP at he
    split_ifs at he
    · rcases mem_cons.1 he with rfl | he
      · exact ⟨next, mem_cons_self, rfl, rfl, rfl⟩
      · exact ⟨e, mem_cons_of_mem _ he, rfl, rfl, rfl⟩
    · rcases mem_cons.1 he with rfl | he
      · exact ⟨e, mem_cons_self, rfl, rfl, rfl⟩
      · obtain ⟨g, hg, hsame⟩ := ih he
        exact ⟨g, mem_cons_of_mem _ hg, hsame⟩

/-- Where an element is after `addVP`; the processor is in the set of the one with the
address. -/
theorem addVP_mem (hpp : pp < 64) (hgrid : Grid size l) (he : e ∈ l) :
    ∃ g ∈ addVP s pp l, g.segmentstart = e.segmentstart ∧ g.segmentHATRef = e.segmentHATRef ∧
      (∀ p, e.ppset.isSet p → g.ppset.isSet p) ∧ (Has s e → g.ppset.isSet pp) := by
  induction l with
  | nil => cases he
  | cons next rest ih =>
    unfold addVP
    split_ifs with hhas
    · rcases mem_cons.1 he with rfl | hrest
      · refine ⟨_, mem_cons_self, rfl, rfl, ?_, ?_⟩
        · exact fun p hp => (VPSet.isSet_addVP hpp).2 (.inl hp)
        · exact fun _ => (VPSet.isSet_addVP hpp).2 (.inr rfl)
      · refine ⟨e, mem_cons_of_mem _ hrest, rfl, rfl, fun p => id, ?_⟩
        intro hs
        have heq := hgrid.start_eq hgrid mem_cons_self he hhas hs
        exact absurd heq (Nat.ne_of_lt ((List.pairwise_cons.1 hgrid.sorted).1 e hrest))
    · rcases mem_cons.1 he with rfl | hrest
      · exact ⟨e, mem_cons_self, rfl, rfl, fun p => id, fun hs => absurd hs hhas⟩
      · obtain ⟨g, hg, hsame⟩ := ih hgrid.tail hrest
        exact ⟨g, mem_cons_of_mem _ hg, hsame⟩

theorem map_start_addVP : (addVP s pp l).map Segment.segmentstart = l.map Segment.segmentstart := by
  induction l with
  | nil => rfl
  | cons next rest ih =>
    unfold addVP
    split_ifs
    · rfl
    · rw [map_cons, map_cons, ih]

theorem Grid.congr (h : Grid size l)
    (hcell : ∀ e ∈ m, ∃ g ∈ l, e.segmentstart = g.segmentstart ∧ e.segmentend = g.segmentend)
    (hmap : m.map Segment.segmentstart = l.map Segment.segmentstart) : Grid size m := by
  refine ⟨h.pos, ?_, ?_⟩
  · intro e he
    obtain ⟨g, hg, hstart, hend⟩ := hcell e he
    rw [hstart, hend]
    exact h.cell g hg
  · have hsorted := List.pairwise_map.2 h.sorted
    rw [← hmap] at hsorted
    exact List.pairwise_map.1 hsorted

theorem Grid.addVP (h : Grid size l) : Grid size (addVP s pp l) := by
  refine h.congr ?_ map_start_addVP
  intro e he
  obtain ⟨g, hg, hstart, hend, -⟩ := mem_addVP he
  exact ⟨g, hg, hstart, hend⟩

/-! ## Delete -/

theorem deleteSegments_sublist : (deleteSegments a b l).2.Sublist l := by
  induction l with
  | nil => exact List.Sublist.refl _
  | cons next rest ih =>
    unfold deleteSegments
    split_ifs
    · exact ih.cons_cons next
    · exact List.Sublist.refl _
    · exact ih.cons next
    · exact ih.cons_cons next

theorem Grid.mem_delete (h : Grid size l) :
    e ∈ (deleteSegments a b l).2 ↔ e ∈ l ∧ ¬ Inside a b e := by
  induction l with
  | nil => exact ⟨nofun, fun hmem => hmem.1⟩
  | cons next rest ih =>
    have hsize := (h.cell next mem_cons_self).1
    have hpos := h.pos
    unfold deleteSegments
    split_ifs with hbelow habove hinside
    · rw [mem_cons, ih h.tail, mem_cons]
      constructor
      · rintro (rfl | ⟨hmem, hnot⟩)
        · refine ⟨.inl rfl, ?_⟩
          rintro ⟨ha, -⟩
          omega
        · exact ⟨.inr hmem, hnot⟩
      · rintro ⟨rfl | hmem, hnot⟩
        · exact .inl rfl
        · exact .inr ⟨hmem, hnot⟩
    · refine ⟨fun hmem => ⟨hmem, ?_⟩, And.left⟩
      rintro ⟨-, hb⟩
      have hcell := (h.cell e hmem).1
      rcases mem_cons.1 hmem with rfl | hrest
      · omega
      · have hlt := (List.pairwise_cons.1 h.sorted).1 e hrest
        omega
    · rw [ih h.tail, mem_cons]
      constructor
      · exact fun hmem => ⟨.inr hmem.1, hmem.2⟩
      · rintro ⟨rfl | hmem, hnot⟩
        · exact absurd hinside hnot
        · exact ⟨hmem, hnot⟩
    · rw [mem_cons, ih h.tail, mem_cons]
      constructor
      · rintro (rfl | ⟨hmem, hnot⟩)
        · exact ⟨.inl rfl, hinside⟩
        · exact ⟨.inr hmem, hnot⟩
      · rintro ⟨rfl | hmem, hnot⟩
        · exact .inl rfl
        · exact .inr ⟨hmem, hnot⟩

theorem Grid.mem_found (h : Grid size l) : (w, e) ∈ (deleteSegments a b l).1 ↔
      e ∈ l ∧ a < e.segmentend ∧ e.segmentstart < b ∧ (w = true ↔ Inside a b e) := by
  induction l with
  | nil => exact ⟨nofun, fun hmem => absurd hmem.1 List.not_mem_nil⟩
  | cons next rest ih =>
    unfold deleteSegments
    split_ifs with hbelow habove hinside
    · rw [ih h.tail, mem_cons]
      constructor
      · exact fun hmem => ⟨.inr hmem.1, hmem.2⟩
      · rintro ⟨rfl | hmem, hmeets⟩
        · exact absurd hmeets.1 (Nat.not_lt.2 hbelow)
        · exact ⟨hmem, hmeets⟩
    · refine iff_of_false List.not_mem_nil ?_
      rintro ⟨hmem, -, hb, -⟩
      rcases mem_cons.1 hmem with rfl | hrest
      · omega
      · have hlt := (List.pairwise_cons.1 h.sorted).1 e hrest
        omega
    · rw [mem_cons, ih h.tail, mem_cons]
      constructor
      · rintro (heq | ⟨hmem, hmeets⟩)
        · cases heq
          exact ⟨.inl rfl, not_le.1 hbelow, not_le.1 habove, iff_of_true rfl hinside⟩
        · exact ⟨.inr hmem, hmeets⟩
      · rintro ⟨rfl | hmem, ha, hb, hw⟩
        · rw [hw.2 hinside]
          exact .inl rfl
        · exact .inr ⟨hmem, ha, hb, hw⟩
    · rw [mem_cons, ih h.tail, mem_cons]
      constructor
      · rintro (heq | ⟨hmem, hmeets⟩)
        · cases heq
          exact ⟨.inl rfl, not_le.1 hbelow, not_le.1 habove, iff_of_false nofun hinside⟩
        · exact ⟨.inr hmem, hmeets⟩
      · rintro ⟨rfl | hmem, ha, hb, hw⟩
        · have hfalse : w = false := by
            cases w with
            | false => rfl
            | true => exact absurd (hw.1 rfl) hinside
          rw [hfalse]
          exact .inl rfl
        · exact .inr ⟨hmem, ha, hb, hw⟩

end SegmentList

end K42
