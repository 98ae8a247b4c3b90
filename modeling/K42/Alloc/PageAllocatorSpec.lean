import K42.Alloc.FreeTree

/-!
# What the operations of the page allocator do to the free space

Each operation is described by the set of free addresses before and after it;
the tree stays in order. At most one page per operation is carved into records.
-/

open List (mem_cons mem_append cons_ne_nil)

namespace K42.PageAllocatorDefault

open Interval
open MachineWord (sub_of_le add_of_lt)
open BinTree (Path Below Heap)
open BinTree (below_node below_set get_high get_lowPath get_root mem_of_get node root?)

/-! ## Cutting ranges out of blocks -/

variable {a n v k size align offset s : ℕ} {cur c : FreePages} {S D : Set ℕ} {t l h : Tree}
  {pa pa' : PageAllocatorDefault} {top : Path}

theorem mem_range {x : ℕ} : x ∈ range a n ↔ a ≤ x ∧ x < a + n := Iff.rfl

theorem PageBlock.piece (h : PageBlock cur) (ha : cur.start ≤ c.start)
    (hn : c.stop ≤ cur.stop) (hpa : PAGE_SIZE ∣ c.start) (hpn : PAGE_SIZE ∣ c.size) :
    PageBlock c :=
  ⟨Nat.lt_of_lt_of_le h.start_pos ha, Nat.lt_of_le_of_lt hn h.stop_lt, hpa, hpn⟩

theorem diff_range {T : Set ℕ} (hS : S = range a n ∪ T)
    (hd : Disjoint (range a n) T) (hv : a ≤ v) (hk : v + k ≤ a + n) :
    S \ range v k = range a (v - a) ∪ (range (v + k) (a + n - (v + k)) ∪ T) := by
  subst hS
  ext x
  have hx : x ∈ range a n → x ∉ T := fun h => Set.disjoint_left.mp hd h
  simp only [Set.mem_sdiff, Set.mem_union, mem_range] at hx ⊢
  by_cases hT : x ∈ T
  · simp only [hT, not_true_eq_false, imp_false, or_true, true_and, iff_true] at hx ⊢
    omega
  · simp only [hT, or_false]
    omega

theorem range_subset_of_eq {T : Set ℕ} (hS : S = range a n ∪ T) (hv : a ≤ v)
    (hk : v + k ≤ a + n) : range v k ⊆ S := by
  subst hS
  rintro x ⟨h1, h2⟩
  exact .inl ⟨by omega, by omega⟩

theorem range_zero (a : ℕ) : range a 0 = ∅ := by simp [range]

theorem merge_nil_low (high : Tree) : merge .nil high = high := by simp [merge]

/-- The block without its first `k` addresses. -/
def FreePages.drop (cur : FreePages) (k : ℕ) : FreePages :=
  { cur with start := cur.start + k, size := cur.size - k }

section Front

variable {cur : FreePages} {k : ℕ}

theorem PageBlock.start_add (h : PageBlock cur) (hk : k ≤ cur.size) :
    MachineWord.add 64 cur.start k = cur.start + k :=
  add_of_lt (Nat.lt_of_le_of_lt (Nat.add_le_add_left hk _) h.stop_lt)

theorem PageBlock.size_lt (h : PageBlock cur) : cur.size < UVAL :=
  Nat.lt_of_le_of_lt (Nat.le_add_left _ _) h.stop_lt

theorem PageBlock.size_sub (h : PageBlock cur) (hk : k ≤ cur.size) :
    MachineWord.sub 64 cur.size k = cur.size - k :=
  sub_of_le h.size_lt hk

theorem FreePages.stop_drop (hk : k ≤ cur.size) : (cur.drop k).stop = cur.stop := by
  simp only [FreePages.stop, FreePages.drop]
  omega

theorem PageBlock.drop (h : PageBlock cur) (hk : k ≤ cur.size) (hpk : PAGE_SIZE ∣ k) :
    PageBlock (cur.drop k) :=
  h.piece (Nat.le_add_right _ _) (FreePages.stop_drop hk).le
    ((Nat.dvd_add_right h.start_page).mpr hpk) (Nat.dvd_sub h.size_page hpk)

theorem ClearOf.drop {t : Tree} (h : ClearOf t cur) (hk : k ≤ cur.size) :
    ClearOf t (cur.drop k) :=
  h.narrow (Nat.le_add_right _ _) (FreePages.stop_drop hk).le

theorem TreeInv.diff_front {t low high : Tree} {top : Path} (ht : TreeInv t)
    (hg : t.get top = .node low cur high) (hk : k ≤ cur.size) :
    range cur.start k ⊆ space t ∧ space t \ range cur.start k =
      range (cur.drop k).start (cur.drop k).size ∪ space (t.set top (merge low high)) := by
  obtain ⟨hclear, hspace⟩ := ht.remove_clear hg
  have hle : cur.start + k ≤ cur.start + cur.size := Nat.add_le_add_left hk _
  refine ⟨range_subset_of_eq hspace le_rfl hle, ?_⟩
  rw [diff_range hspace hclear.disjoint le_rfl hle, Nat.sub_self, range_zero,
    Set.empty_union, Nat.add_sub_add_left]
  rfl

end Front

/-! ## Carving a page into records -/

/-- From `pa` to `pa'` the page at `d` has been taken out of the free space and
carved into records. -/
structure Carving (pa pa' : PageAllocatorDefault) (d : ℕ) : Prop where
  tree : TreeInv pa'.anchor
  page : PAGE_SIZE ∣ d
  subset : range d PAGE_SIZE ⊆ space pa.anchor
  space : space pa'.anchor = space pa.anchor \ range d PAGE_SIZE
  carved : pa'.carved = d :: pa.carved
  freeList : pa'.freeList ≠ []
  available : pa'.available = MachineWord.sub 64 pa.available PAGE_SIZE

theorem one_lt_length_carve (pa : PageAllocatorDefault) (l : ℕ) :
    1 < (pa.carve l).freeList.length := by
  have hrecords : 1 < PAGE_SIZE / sizeofFreePages := by decide
  rw [carve, List.length_append, List.length_map, List.length_range]
  omega

theorem carve_freeList_ne_nil (pa : PageAllocatorDefault) (l : ℕ) : (pa.carve l).freeList ≠ [] :=
  List.ne_nil_of_length_pos (Nat.lt_trans Nat.zero_lt_one (one_lt_length_carve pa l))

theorem extendFreeList_nil (pa : PageAllocatorDefault) (hn : pa.anchor = .nil) (vaddr size : ℕ) :
    ∃ pa', pa.extendFreeList vaddr size = (pa', MachineWord.add 64 vaddr PAGE_SIZE,
        MachineWord.sub 64 size PAGE_SIZE) ∧ pa'.anchor = .nil ∧ 1 < pa'.freeList.length ∧
      pa'.carved = vaddr :: pa.carved ∧
      pa'.available = MachineWord.sub 64 pa.available PAGE_SIZE := by
  refine ⟨carve { pa with available := MachineWord.sub 64 pa.available PAGE_SIZE } vaddr, ?_,
    hn, one_lt_length_carve _ _, rfl, rfl⟩
  rw [extendFreeList, hn]
  rfl

theorem largerThan_eq_false (h : ¬ largerThan t n = true) :
    Below FreePages.size n t := by
  intro c hc
  cases t with
  | nil => cases hc
  | node l d r =>
    obtain rfl : d = c := by simpa [root?] using hc
    simpa [largerThan, root?] using h

/-- **Extension.** With a block in the tree, the page comes from the lowest one
and the caller's range is left alone. -/
theorem extendFreeList_spec (pa : PageAllocatorDefault) (ht : TreeInv pa.anchor)
    (hne : pa.anchor ≠ .nil) (vaddr size : ℕ) :
    ∃ pa' d, pa.extendFreeList vaddr size = (pa', vaddr, size) ∧ Carving pa pa' d := by
  obtain ⟨cur, high, post, hg, hl, -⟩ := get_lowPath hne
  have hmem : cur ∈ pa.anchor.toList := by simp [hl]
  have hp := ht.page cur hmem
  have hle : PAGE_SIZE ≤ cur.size := Nat.le_of_dvd (ht.size_pos hmem) hp.size_page
  have hprune := ht.pruned hg
  have htree := ht.remove hg hprune
  obtain ⟨hclear, -⟩ := ht.remove_clear hg
  obtain ⟨hsub, hdiff⟩ := ht.diff_front hg hle
  have hblock := hp.drop hle dvd_rfl
  have hcleard := hclear.drop hle
  rw [merge_nil_low] at htree hclear hdiff hcleard
  simp only [extendFreeList, hg, hp.start_add hle, hp.size_sub hle]
  split_ifs with h1 h2
  · refine ⟨_, _, rfl, htree, hp.start_page, hsub, ?_, rfl, carve_freeList_ne_nil _ _, rfl⟩
    rw [hdiff, FreePages.drop, h1, Nat.sub_self, range_zero, Set.empty_union]
    rfl
  · have hpos : 0 < (cur.drop PAGE_SIZE).size := Nat.sub_pos_of_lt (lt_of_le_of_ne hle (Ne.symm h1))
    obtain ⟨htree', hspace'⟩ := htree.add hblock hpos hcleard
    exact ⟨_, _, rfl, htree', hp.start_page, hsub, hspace'.trans hdiff.symm, rfl,
      carve_freeList_ne_nil _ _, rfl⟩
  · have hpos : 0 < (cur.drop PAGE_SIZE).size := Nat.sub_pos_of_lt (lt_of_le_of_ne hle (Ne.symm h1))
    have hbelow := largerThan_eq_false h2
    have hmeet : (cur.drop PAGE_SIZE).start < cur.stop ∧ cur.start < (cur.drop PAGE_SIZE).stop := by
      have h3 := FreePages.start_lt_stop.mpr hpos
      have h4 := FreePages.start_lt_stop.mpr (ht.size_pos hmem)
      rw [FreePages.stop_drop hle] at h3 ⊢
      exact ⟨h3, h4⟩
    have hpar : ∀ b ∈ pa.anchor.parent? pa.anchor.lowPath,
        Below FreePages.size b.size (.node .nil (cur.drop PAGE_SIZE) high) := by
      intro b hb
      have hpar := ht.heap.below_parent b hb
      rw [hg, below_node] at hpar
      exact below_node.mpr (Nat.le_trans (Nat.sub_le _ _) hpar)
    rw [← merge_nil_low high] at hcleard
    have hheap : (node .nil (cur.drop PAGE_SIZE) high).Heap FreePages.size :=
      ⟨by simp, hbelow, trivial, hprune.high_heap⟩
    obtain ⟨htree', hspace'⟩ := ht.relink hg hprune rfl hheap hpar hblock hpos hmeet hcleard
    rw [merge_nil_low] at hspace'
    exact ⟨_, _, rfl, htree', hp.start_page, hsub, hspace'.trans hdiff.symm, rfl,
      carve_freeList_ne_nil _ _, rfl⟩

/-! ## The account of an operation -/

/-- The operation from `pa` to `pa'` has left the free space `S`, except for `D`:
nothing, or one page that is now records. -/
structure Accounted (pa pa' : PageAllocatorDefault) (S D : Set ℕ) : Prop where
  tree : TreeInv pa'.anchor
  space : space pa'.anchor = S \ D
  subset : D ⊆ S
  freeList : pa'.freeList ≠ []
  carved : (D = ∅ ∧ pa'.carved = pa.carved ∧ pa'.available = pa.available) ∨
    ∃ d, PAGE_SIZE ∣ d ∧ D = range d PAGE_SIZE ∧ pa'.carved = d :: pa.carved ∧
      pa'.available = MachineWord.sub 64 pa.available PAGE_SIZE

theorem Accounted.plain
    (tree : TreeInv pa'.anchor) (hspace : PageAllocatorDefault.space pa'.anchor = S)
    (freeList : pa'.freeList ≠ []) (hc : pa'.carved = pa.carved)
    (ha : pa'.available = pa.available) : Accounted pa pa' S ∅ :=
  ⟨tree, by rw [hspace, Set.sdiff_empty], Set.empty_subset S, freeList, .inl ⟨rfl, hc, ha⟩⟩

theorem Accounted.congr {S' : Set ℕ}
    (h : Accounted pa pa' S D) (hS : S = S') : Accounted pa pa' S' D := hS ▸ h

theorem Accounted.rebase {pa₁ : PageAllocatorDefault}
    (h : Accounted pa₁ pa' S D) (hc : pa₁.carved = pa.carved)
    (ha : pa₁.available = pa.available) : Accounted pa pa' S D :=
  ⟨h.tree, h.space, h.subset, h.freeList, hc ▸ ha ▸ h.carved⟩

theorem Accounted.add {n : FreePages}
    (h : Accounted pa pa' S D) (hn : PageBlock n) (hpos : 0 < n.size)
    (hc : ∀ x ∈ S, x + 1 < n.start ∨ n.stop + 1 ≤ x) :
    Accounted pa { pa' with anchor := PageAllocatorDefault.add pa'.anchor n }
      (range n.start n.size ∪ S) D := by
  have hclear : ClearOf pa'.anchor n := by
    rw [h.tree.clearOf_iff hpos, h.space]
    exact fun x hx => hc x hx.1
  obtain ⟨htree, hspace⟩ := h.tree.add hn hpos hclear
  refine ⟨htree, ?_, h.subset.trans Set.subset_union_right, h.freeList, h.carved⟩
  have hdisj : Disjoint (range n.start n.size) D := by
    rw [Set.disjoint_left]
    rintro x ⟨h1, h2⟩ hx
    have hstop : n.stop = n.start + n.size := rfl
    rcases hc x (h.subset hx) with h | h <;> omega
  rw [hspace, h.space, Set.union_sdiff_distrib, hdisj.sdiff_eq_left]

/-- **A record for a new block**, when the tree has a block to extend from. -/
theorem takeRecord_spec (pa : PageAllocatorDefault) (ht : TreeInv pa.anchor)
    (hne : pa.anchor ≠ .nil) (hfl : pa.freeList ≠ []) (vaddr size : ℕ) :
    ∃ r pa' D, pa.takeRecord vaddr size = .ok (r, pa', vaddr, size) ∧
      Accounted pa pa' (space pa.anchor) D := by
  match hf : pa.freeList with
  | [] => exact absurd hf hfl
  | [r] =>
    obtain ⟨pa', d, he, hcv⟩ :=
      extendFreeList_spec { pa with freeList := [] } ht hne vaddr size
    refine ⟨r, pa', range d PAGE_SIZE, ?_, hcv.tree, hcv.space, hcv.subset, hcv.freeList,
      .inr ⟨d, hcv.page, rfl, hcv.carved, hcv.available⟩⟩
    simp only [takeRecord, hf, he]
  | r :: r' :: rest =>
    refine ⟨r, { pa with freeList := r' :: rest }, ∅, ?_,
      Accounted.plain ht rfl (cons_ne_nil _ _) rfl rfl⟩
    simp only [takeRecord, hf]

/-! ## Allocation -/

theorem add_ne_nil (t : Tree) (n : FreePages) : add t n ≠ .nil := by
  cases t with
  | nil => simp [add]
  | node l c h =>
    rw [add]
    split_ifs <;> simp

theorem TreeInv.pageBlock {low high : Tree} (ht : TreeInv t)
    (hg : t.get top = .node low cur high) : PageBlock cur ∧ 0 < cur.size :=
  have hmem := mem_of_get hg
  ⟨ht.page cur hmem, ht.size_pos hmem⟩

/-- **Allocation from a block.** The range asked for leaves the free space. -/
theorem allocFromBlock_spec {low high : Tree}
    {vaddr : ℕ} (ht : TreeInv pa.anchor) (hfl : pa.freeList ≠ [])
    (hg : pa.anchor.get top = .node low cur high) (hv : cur.start ≤ vaddr)
    (hs : vaddr + size ≤ cur.start + cur.size) (hpos : 0 < size) (hpv : PAGE_SIZE ∣ vaddr)
    (hps : PAGE_SIZE ∣ size) :
    ∃ pa' D, pa.allocFromBlock top vaddr size = .ok pa' ∧
      Accounted pa pa' (space pa.anchor \ range vaddr size) D := by
  obtain ⟨hp, hcpos⟩ := ht.pageBlock hg
  have htree := ht.remove hg (ht.pruned hg)
  obtain ⟨hclear, hspace⟩ := ht.remove_clear hg
  have hdiff := diff_range hspace hclear.disjoint hv hs
  have hclear' := (htree.clearOf_iff hcpos).mp hclear
  have hstart := hp.start_pos
  have hlt : cur.start + cur.size < UVAL := hp.stop_lt
  have hbound : cur.bound = cur.start + cur.size := hp.bound_eq
  have hadd : MachineWord.add 64 vaddr size = vaddr + size :=
    add_of_lt (Nat.lt_of_le_of_lt hs hlt)
  have hrest : MachineWord.sub 64 (cur.start + cur.size) (vaddr + size) =
      cur.start + cur.size - (vaddr + size) := sub_of_le hlt hs
  have hextra : MachineWord.sub 64 vaddr cur.start = vaddr - cur.start :=
    sub_of_le (Nat.lt_of_le_of_lt (by omega) hlt) hv
  -- the pieces in front of and behind the range
  have hfront : ∀ r, PageBlock ⟨r, cur.start, vaddr - cur.start⟩ := fun r =>
    hp.piece le_rfl (by simp only [FreePages.stop]; omega) hp.start_page
      (Nat.dvd_sub hpv hp.start_page)
  have hafter : PageBlock ⟨cur.self, vaddr + size, cur.start + cur.size - (vaddr + size)⟩ := by
    have hpa : PAGE_SIZE ∣ vaddr + size := (Nat.dvd_add_right hpv).mpr hps
    have hpstop := (Nat.dvd_add_right hp.start_page).mpr hp.size_page
    exact hp.piece (Nat.le_trans hv (Nat.le_add_right _ _))
      (by simp only [FreePages.stop]; omega) hpa (Nat.dvd_sub hpstop hpa)
  have hplain : Accounted pa { pa with anchor := pa.anchor.set top (merge low high) }
      (space (pa.anchor.set top (merge low high))) ∅ := .plain htree rfl hfl rfl rfl
  have hclearFront : ∀ x ∈ space (pa.anchor.set top (merge low high)),
      x + 1 < cur.start ∨ cur.start + (vaddr - cur.start) + 1 ≤ x := by
    intro x hx
    have hstop : cur.stop = cur.start + cur.size := rfl
    have := hclear' x hx
    omega
  simp only [allocFromBlock, hg, hbound, hadd, hrest, hextra]
  by_cases hr : cur.start + cur.size - (vaddr + size) = 0
  · rw [if_neg (not_not.mpr hr)]
    rw [hr, range_zero, Set.empty_union] at hdiff
    by_cases hx : vaddr > cur.start
    · -- only a piece in front: the record is used again
      rw [if_pos hx, if_pos hstart.ne']
      have hacc := hplain.add (hfront cur.self) (Nat.sub_pos_of_lt hx) hclearFront
      exact ⟨_, _, rfl, hacc.congr hdiff.symm⟩
    · rw [if_neg hx, if_neg (by simp)]
      rw [Nat.sub_eq_zero_of_le (not_lt.mp hx), range_zero, Set.empty_union] at hdiff
      exact ⟨_, _, rfl, .plain htree hdiff.symm (cons_ne_nil _ _) rfl rfl⟩
  · rw [if_pos hr]
    have hacc := hplain.add hafter (Nat.pos_of_ne_zero hr) (by
      intro x hx
      have hstop : cur.stop = cur.start + cur.size := rfl
      have := hclear' x hx
      simp only [FreePages.stop]
      omega)
    by_cases hx : vaddr > cur.start
    · -- a piece on both sides: the one in front needs a new record
      rw [if_pos hx, if_pos hstart.ne']
      obtain ⟨r, pa', D, htake, hrec⟩ := takeRecord_spec _ hacc.tree (add_ne_nil _ _) hfl
        cur.start (vaddr - cur.start)
      have hspace2 := hacc.space
      rw [Set.sdiff_empty] at hspace2
      have hfinal := (hrec.congr hspace2).add (hfront r) (Nat.sub_pos_of_lt hx) (by
        rintro x (⟨h1, h2⟩ | hx')
        · right
          simp only [FreePages.stop] at h1 ⊢
          omega
        · exact hclearFront x hx')
      rw [htake]
      exact ⟨_, _, rfl, (hfinal.congr hdiff.symm).rebase rfl rfl⟩
    · rw [if_neg hx, if_neg (by simp)]
      rw [Nat.sub_eq_zero_of_le (not_lt.mp hx), range_zero, Set.empty_union] at hdiff
      exact ⟨_, _, rfl, hacc.congr hdiff.symm⟩

/-! ### First fit -/

theorem provides_node :
    provides (.node l c h) n = true ↔ n ≤ c.size := by simp [provides, root?]

/-- What the walk of `allocPages` does to a subtree whose root provides the size:
nodes move, their order and the heap stay, and it stops at a block that provides
the size. -/
structure Walked (size : ℕ) (t : Tree) (r : Tree × Path) : Prop where
  toList : r.1.toList = t.toList
  below : ∀ n, Below FreePages.size n t → Below FreePages.size n r.1
  heap : r.1.Heap FreePages.size
  found : ∃ low cur high, r.1.get r.2 = .node low cur high ∧ size ≤ cur.size

theorem Walked.low {r : Tree × Path}
    (hw : Walked size l r) (hh : (node l c h).Heap FreePages.size) :
    Walked size (.node l c h) (.node r.1 c h, .low :: r.2) :=
  ⟨by simp [hw.toList], fun n hn => by simpa using hn,
    ⟨hw.below _ hh.1, hh.2.1, hw.heap, hh.2.2.2⟩, hw.found⟩

theorem Walked.high {r : Tree × Path}
    (hw : Walked size h r) (hh : (node l c h).Heap FreePages.size) :
    Walked size (.node l c h) (.node l c r.1, .high :: r.2) :=
  ⟨by simp [hw.toList], fun n hn => by simpa using hn,
    ⟨hh.1, hw.below _ hh.2.1, hh.2.2.1, hw.heap⟩, hw.found⟩

theorem Walked.stop (hh : (node l c h).Heap FreePages.size) (hs : size ≤ c.size) :
    Walked size (.node l c h) (.node l c h, []) :=
  ⟨rfl, fun _ hn => hn, hh, l, c, h, by simp, hs⟩

theorem allocWalk_spec (hh : t.Heap FreePages.size)
    (hs : provides t size = true) : Walked size t (allocWalk size t) := by
  fun_induction allocWalk size t with
  | case1 => cases hs
  | case2 ll next lh cur high heq ih =>
    -- reroot at the lower node of the same size
    obtain ⟨hbl, hbh, ⟨hbll, hblh, hhll, hhlh⟩, hhh⟩ := hh
    have hle : cur.size ≤ next.size := heq.ge
    have hw := ih ⟨hbll, by simpa using hle, hhll, ⟨heq ▸ hblh, hbh, hhlh, hhh⟩⟩
      (provides_node.mpr (heq ▸ provides_node.mp hs))
    exact ⟨hw.toList.trans (by simp), fun n hn => hw.below n (by simpa [heq] using hn),
      hw.heap, hw.found⟩
  | case3 ll next lh cur high hne hge r ih =>
    exact (ih hh.2.2.1 (provides_node.mpr hge)).low hh
  | case4 ll next lh cur high hne hlt hp r ih => exact (ih hh.2.2.2 hp).high hh
  | case5 ll next lh cur high hne hlt hp => exact .stop hh (provides_node.mp hs)
  | case6 cur high hp r ih => exact (ih hh.2.2.2 hp).high hh
  | case7 cur high hp => exact .stop hh (provides_node.mp hs)

theorem TreeInv.of_toList_eq {t' : Tree} (ht : TreeInv t) (hl : t'.toList = t.toList)
    (hh : t'.Heap FreePages.size) : TreeInv t' :=
  ⟨hh, hl ▸ ht.spaced, hl ▸ ht.page⟩

theorem TreeInv.resettle {low high : Tree}
    (ht : TreeInv t) (hg : t.get top = .node low cur high) (hk : k < cur.size)
    (hpk : PAGE_SIZE ∣ k) :
    TreeInv (t.set top (PageAllocatorDefault.add (merge low high) (cur.drop k))) ∧
      space (t.set top (PageAllocatorDefault.add (merge low high) (cur.drop k))) =
        space t \ range cur.start k := by
  obtain ⟨hp, hcpos⟩ := ht.pageBlock hg
  have hprune := ht.pruned hg
  obtain ⟨hclear, -⟩ := ht.remove_clear hg
  have hsub : cur.size - k = (cur.drop k).size := rfl
  have hstart : cur.start + k = (cur.drop k).start := rfl
  have hstop := FreePages.stop_drop hk.le
  have hcstop : cur.stop = cur.start + cur.size := rfl
  have hsp : Spaced FreePages.start FreePages.stop 1 (low.toList ++ cur :: high.toList) := by
    obtain ⟨pre, post, hl, -⟩ := BinTree.exists_context hg
    have h := ht.spaced
    rw [hl] at h
    exact (Spaced.append_iff.mp (Spaced.append_iff.mp h).1).2.1
  have hcut : Cut (cur.drop k).start low.toList high.toList := by
    refine ⟨?_, ?_⟩
    · intro a ha
      have h1 := hsp.below a ha
      have h2 := hsp.pos a (List.mem_append_left _ ha)
      omega
    · intro b hb
      have h1 := hsp.above b hb
      omega
  have hlist := toList_add (n := cur.drop k) hcut (toList_merge low high)
  obtain ⟨htree, hspace⟩ := ht.relink hg hprune hlist
    (heap_add (heap_merge hprune.low_heap hprune.high_heap)) (by
      intro b hb
      have hpar := ht.heap.below_parent b hb
      rw [hg, below_node] at hpar
      exact below_add (below_merge (hprune.low_below.mono hpar) (hprune.high_below.mono hpar))
        (Nat.le_trans (Nat.sub_le _ _) hpar))
    (hp.drop hk.le hpk) (Nat.sub_pos_of_lt hk) (by omega) (hclear.drop hk.le)
  exact ⟨htree, hspace.trans (ht.diff_front hg hk.le).2.symm⟩

theorem pageRoundUp_eq (hpos : 0 < size) (hlt : size < UVAL)
    (hp : PAGE_SIZE ∣ size) : pageRoundUp size = size := by
  obtain ⟨m, rfl⟩ := hp
  have hroom : PAGE_SIZE * m - 1 + PAGE_SIZE < 2 ^ 64 := by
    norm_num at hlt ⊢
    omega
  have hsub : MachineWord.sub 64 (PAGE_SIZE * m) 1 = PAGE_SIZE * m - 1 := sub_of_le hlt hpos
  rw [pageRoundUp, hsub, add_of_lt hroom]
  change MachineWord.andNot 64 _ (2 ^ 12 - 1) = _
  rw [MachineWord.andNot_two_pow hroom (by decide)]
  unfold PAGE_SIZE at hpos ⊢
  omega

/-! ### The three ways to allocate -/

/-- The allocation of `[vaddr, vaddr + size)` takes `pa` to `pa'`: the range was
free, and the free space is what remains without it. -/
def Allocated (pa pa' : PageAllocatorDefault) (vaddr size : ℕ) : Prop :=
  range vaddr size ⊆ space pa.anchor ∧ ∃ D,
    Accounted { pa with available := MachineWord.sub 64 pa.available size } pa'
      (space pa.anchor \ range vaddr size) D

theorem Accounted.charge {q : PageAllocatorDefault} (h : Accounted pa q S D) (k : ℕ) :
    Accounted { pa with available := MachineWord.sub 64 pa.available k }
      { q with available := MachineWord.sub 64 q.available k } S D := by
  refine ⟨h.tree, h.space, h.subset, h.freeList, ?_⟩
  rcases h.carved with ⟨hD, hc, ha⟩ | ⟨d, hd, hD, hc, ha⟩
  · exact .inl ⟨hD, hc, by rw [ha]⟩
  · exact .inr ⟨d, hd, hD, hc, by rw [ha, MachineWord.sub_right_comm]⟩

/-- A size argument: a positive multiple of the page. -/
structure SizeArg (size : ℕ) : Prop where
  pos : 0 < size
  lt : size < UVAL
  page : PAGE_SIZE ∣ size

theorem allocPages_round (ht : TreeInv pa.anchor)
    (hfl : pa.freeList ≠ []) (hround : pageRoundUp size = n) (hn : PAGE_SIZE ∣ n) :
    pa.allocPages size = .error (.serror 1474 0 .ENOMEM) ∨
      ∃ pa' vaddr, pa.allocPages size = .ok (pa', vaddr) ∧ Allocated pa pa' vaddr n := by
  subst hround
  rw [allocPages]
  generalize pageRoundUp size = size at hn ⊢
  by_cases hp : provides pa.anchor size = true
  · right
    obtain ⟨hl, -, hheap, low, cur, high, hg, hsz⟩ := allocWalk_spec ht.heap hp
    have ht' := ht.of_toList_eq hl hheap
    have hsp : space (allocWalk size pa.anchor).1 = space pa.anchor := by rw [space, hl, space]
    obtain ⟨hb, -⟩ := ht'.pageBlock hg
    obtain ⟨hsub, hdiff⟩ := ht'.diff_front hg hsz
    rw [hsp] at hsub hdiff
    simp only [if_pos hp, hg, hb.start_add hsz, hb.size_sub hsz]
    by_cases hz : cur.size - size = 0
    · -- the whole block
      rw [if_neg (not_not.mpr hz)]
      refine ⟨_, _, rfl, hsub, ∅, .plain (ht'.remove hg (ht'.pruned hg)) ?_
        (cons_ne_nil _ _) rfl rfl⟩
      rw [hdiff, FreePages.drop, hz, range_zero, Set.empty_union]
    · rw [if_pos hz]
      obtain ⟨htree, hspace⟩ := ht'.resettle hg (by omega) hn
      rw [hsp] at hspace
      exact ⟨_, _, rfl, hsub, ∅, .plain htree hspace hfl rfl rfl⟩
  · left
    simp only [if_neg hp]

theorem allocPages_spec (ht : TreeInv pa.anchor) (hfl : pa.freeList ≠ []) (hs : SizeArg size) :
    pa.allocPages size = .error (.serror 1474 0 .ENOMEM) ∨
      ∃ pa' vaddr, pa.allocPages size = .ok (pa', vaddr) ∧ Allocated pa pa' vaddr size :=
  allocPages_round ht hfl (pageRoundUp_eq hs.pos hs.lt hs.page) hs.page

theorem findAt_spec {vaddr size : ℕ} : ∀ {t : Tree} {top : Path},
    findAt vaddr size t = some top → ∃ low cur high, t.get top = .node low cur high ∧
      cur.start ≤ vaddr ∧ MachineWord.add 64 vaddr size ≤ cur.bound
  | .nil, _, h => by simp [findAt] at h
  | .node low cur high, top, h => by
    rw [findAt] at h
    split_ifs at h with h1 h2 h3
    · obtain rfl := Option.some.inj h
      exact ⟨low, cur, high, by simp, h1.1, h2⟩
    · obtain ⟨p, hp, rfl⟩ := Option.map_eq_some_iff.mp h
      exact findAt_spec (t := low) hp
    · obtain ⟨p, hp, rfl⟩ := Option.map_eq_some_iff.mp h
      exact findAt_spec (t := high) hp

/-- A range argument: page aligned and not wrapping. -/
structure RangeArg (vaddr size : ℕ) : Prop extends SizeArg size where
  vaddr_page : PAGE_SIZE ∣ vaddr
  no_wrap : vaddr + size < UVAL

theorem allocPagesAt_spec {vaddr : ℕ}
    (ht : TreeInv pa.anchor) (hfl : pa.freeList ≠ []) (hr : RangeArg vaddr size) :
    pa.allocPagesAt vaddr size = .error (.serror 1475 0 .ENOMEM) ∨
      ∃ pa', pa.allocPagesAt vaddr size = .ok pa' ∧ Allocated pa pa' vaddr size := by
  unfold allocPagesAt
  cases hf : findAt vaddr size pa.anchor with
  | none => exact .inl rfl
  | some top =>
    right
    obtain ⟨low, cur, high, hg, hle, hend⟩ := findAt_spec hf
    obtain ⟨hb, -⟩ := ht.pageBlock hg
    rw [add_of_lt hr.no_wrap, hb.bound_eq] at hend
    obtain ⟨pa', D, hal, hacc⟩ := allocFromBlock_spec ht hfl hg hle hend hr.pos
      hr.vaddr_page hr.page
    obtain ⟨-, hspace⟩ := ht.remove_clear hg
    refine ⟨_, ?_, range_subset_of_eq hspace hle hend, D, hacc.charge size⟩
    simp only [hal]
    rfl

/-- The link leads to a block that the request fits in. -/
def FitsAt (fits : FreePages → Bool) (root : Tree) (p : Path) : Prop :=
  ∃ low cur high, root.get p = .node low cur high ∧ fits cur = true

theorem searchAligned_spec {fits : FreePages → Bool} {root : Tree}
    {stack : List (Tree × Path)} {found : Option Path} (ht : root.get top = t)
    (hst : ∀ e ∈ stack, root.get e.2 = e.1) (hf : ∀ p ∈ found, FitsAt fits root p)
    {p : Path} (h : searchAligned fits size t top stack found = some p) :
    FitsAt fits root p := by
  -- what the visit of a node adds to `found`
  have hvisit : ∀ {low high : Tree} {cur : FreePages} {top : Path} {found : Option Path},
      root.get top = .node low cur high → (∀ p ∈ found, FitsAt fits root p) →
      ∀ p ∈ (if fits cur then some top else found), FitsAt fits root p := by
    intro low high cur top found hg hf p hp
    split_ifs at hp with hc
    · obtain rfl := Option.some.inj hp
      exact ⟨low, cur, high, hg, hc⟩
    · exact hf p hp
  fun_induction searchAligned fits size t top stack found with
  | case1 => cases h
  | case2 low cur high top stack found _ _ q hq =>
    obtain rfl := Option.some.inj h
    exact hvisit ht hf q hq
  | case3 => cases h
  | case4 low cur high top found _ _ t q stack _ ih =>
    exact ih (hst (t, q) (by simp)) (fun e he => hst e (List.mem_cons_of_mem _ he))
      (by simp) h
  | case5 low cur high top stack found _ _ _ ih =>
    refine ih (BinTree.get_low ht) ?_ (hvisit ht hf) h
    intro e he
    unfold pushHigh at he
    split_ifs at he
    · rcases mem_cons.mp he with rfl | he
      · exact get_high ht
      · exact hst e he
    · exact hst e he
  | case6 low cur high top stack found _ _ _ ih =>
    exact ih (get_high ht) hst (hvisit ht hf) h

/-- The first address from `start` on that is `offset` modulo `align`, for an
`offset` below `align`. -/
def roundedAddr (start align offset : ℕ) : ℕ :=
  (start + align - offset - 1) / align * align + offset

/-- The arguments of an aligned allocation: page multiples, and neither the
rounding nor the end of the range wraps in any block. -/
structure AlignedArg (pa : PageAllocatorDefault) (size align offset : ℕ) : Prop
    extends SizeArg size where
  align_page : PAGE_SIZE ∣ align
  offset_page : PAGE_SIZE ∣ offset
  offset_lt : offset < align
  align_lt : align < UVAL
  no_wrap : ∀ c ∈ pa.anchor.toList, c.start + align - offset - 1 < UVAL ∧
    roundedAddr c.start align offset + size < UVAL

theorem le_roundedAddr (start : ℕ) (h : offset < align) :
    start ≤ roundedAddr start align offset := by
  have hdm := Nat.div_add_mod (start + align - offset - 1) align
  have hlt := Nat.mod_lt (start + align - offset - 1) (Nat.zero_lt_of_lt h)
  rw [Nat.mul_comm] at hdm
  unfold roundedAddr
  omega

theorem page_dvd_roundedAddr {start : ℕ} (ha : PAGE_SIZE ∣ align)
    (ho : PAGE_SIZE ∣ offset) : PAGE_SIZE ∣ roundedAddr start align offset :=
  (Nat.dvd_add_right (Dvd.dvd.mul_left ha _)).mpr ho

theorem alignedAddr_eq {start : ℕ} (ho : offset < align)
    (ha : align < UVAL) (h1 : start + align - offset - 1 < UVAL)
    (h2 : roundedAddr start align offset + size < UVAL) :
    alignedAddr start align offset = roundedAddr start align offset := by
  have hword : MachineWord.sub 64 (MachineWord.sub 64 (MachineWord.add 64 start align) offset) 1 =
      start + align - offset - 1 := by
    unfold MachineWord.sub MachineWord.add
    norm_num at ha h1 ⊢
    omega
  rw [alignedAddr, hword]
  exact add_of_lt (Nat.lt_of_le_of_lt (Nat.le_add_right _ _) h2)

theorem allocPagesAligned_spec
    (ht : TreeInv pa.anchor) (hfl : pa.freeList ≠ []) (ha : AlignedArg pa size align offset) :
    pa.allocPagesAligned size align offset = .error (.serror 1476 0 .ENOMEM) ∨
      ∃ pa' vaddr, pa.allocPagesAligned size align offset = .ok (pa', vaddr) ∧
        Allocated pa pa' vaddr size := by
  simp only [allocPagesAligned, pageRoundUp_eq ha.pos ha.lt ha.page]
  cases hf : searchAligned (fitsAligned size align offset) size pa.anchor [] [] none with
  | none => exact .inl rfl
  | some top =>
    right
    obtain ⟨low, cur, high, hg, hfit⟩ :=
      searchAligned_spec (get_root pa.anchor) (by simp) (by simp) hf
    obtain ⟨hb, -⟩ := ht.pageBlock hg
    obtain ⟨hw1, hw2⟩ := ha.no_wrap cur (mem_of_get hg)
    have haddr := alignedAddr_eq ha.offset_lt ha.align_lt hw1 hw2
    have hend : roundedAddr cur.start align offset + size ≤ cur.stop := by
      have := of_decide_eq_true hfit
      rwa [haddr, add_of_lt hw2, hb.bound_eq] at this
    have hle := le_roundedAddr cur.start ha.offset_lt
    obtain ⟨pa', D, hal, hacc⟩ := allocFromBlock_spec ht hfl hg hle hend ha.pos
      (page_dvd_roundedAddr ha.align_page ha.offset_page) ha.page
    obtain ⟨-, hspace⟩ := ht.remove_clear hg
    refine ⟨_, _, ?_, range_subset_of_eq hspace hle hend, D, hacc.charge size⟩
    simp only [hg, haddr, hal]
    rfl

/-! ## Deallocation -/

/-- Every block lies on one side of the range. -/
def Apart (v s : ℕ) (l : List FreePages) : Prop := ∀ c ∈ l, c.stop ≤ v ∨ v + s ≤ c.start

theorem Apart.subset {l l' : List FreePages} (h : Apart v s l) (hl : l' ⊆ l) :
    Apart v s l' := fun c hc => h c (hl hc)

theorem Apart.disjoint (h : Apart v s t.toList) :
    Disjoint (range v s) (space t) := by
  rw [Set.disjoint_left]
  rintro x ⟨h1, h2⟩ ⟨c, hc, h3, h4⟩
  rcases h c hc with h | h <;> omega

/-- The search for `[v, v + s)` has reached the block `cur`: what it passed on the
way down, and what lies beyond that, does not touch the range. -/
structure Reached (v s : ℕ) (t : Tree) (top : Path) (low : Tree) (cur : FreePages)
    (high : Tree) (pre post : List FreePages) : Prop where
  get : t.get top = .node low cur high
  toList : t.toList = (pre ++ low.toList) ++ cur :: (high.toList ++ post)
  set : ∀ u, (t.set top u).toList = pre ++ u.toList ++ post
  before : ∀ a ∈ pre, a.stop + 1 ≤ v
  after : ∀ b ∈ post, v + s + 1 ≤ b.start

/-- The search of `deallocPages` leaves behind only blocks that do not touch the
range: what it passed on the way down, and what lies beyond that. -/
theorem findNeighbour_some {v s : ℕ} (hs : 0 < s) (hw : v + s < UVAL) :
    ∀ {t : Tree} {top : Path}, Spaced FreePages.start FreePages.stop 1 t.toList →
    (∀ c ∈ t.toList, PageBlock c) → Apart v s t.toList → findNeighbour v s t = some top →
    ∃ low cur high pre post, Reached v s t top low cur high pre post ∧
      (cur.stop = v ∨ v + s = cur.start)
  | .nil, _, _, _, _, h => by simp [findNeighbour] at h
  | .node l c r, top, hsp, hpg, hap, h => by
    have hb : c.bound = c.stop := (hpg c (by simp)).bound_eq
    have hadd : MachineWord.add 64 v s = v + s := add_of_lt hw
    have hc := hap c (by simp)
    have hcpos := hsp.pos c (by simp)
    obtain ⟨hspl, hspr, -⟩ := Spaced.append_iff.mp hsp
    rw [findNeighbour, hb, hadd] at h
    split_ifs at h with h1 h2
    · obtain rfl := Option.some.inj h
      exact ⟨l, c, r, [], [], ⟨by simp, by simp, by simp, by simp, by simp⟩, h1⟩
    · -- the range is below `c`, and so below everything on its high side
      obtain ⟨p, hp, rfl⟩ := Option.map_eq_some_iff.mp h
      obtain ⟨low, cur, high, pre, post, ⟨hg, hl, hset, hpre, hpost⟩, hadj⟩ :=
        findNeighbour_some hs hw (t := l) hspl (fun x hx => hpg x (by simp [hx]))
          (hap.subset (by simp)) hp
      refine ⟨low, cur, high, pre, post ++ c :: r.toList, ⟨hg, ?_, ?_, hpre, ?_⟩, hadj⟩
      · rw [BinTree.toList_node, hl]
        simp
      · intro u
        rw [BinTree.set, BinTree.toList_node, hset]
        simp
      · intro b hb
        have hcs : v + s + 1 ≤ c.start := by omega
        rcases mem_append.mp hb with hb | hb
        · exact hpost b hb
        · rcases mem_cons.mp hb with rfl | hb
          · exact hcs
          · have := hsp.above b hb
            omega
    · obtain ⟨p, hp, rfl⟩ := Option.map_eq_some_iff.mp h
      obtain ⟨low, cur, high, pre, post, ⟨hg, hl, hset, hpre, hpost⟩, hadj⟩ :=
        findNeighbour_some hs hw (t := r) (Spaced.cons_iff.mp hspr).2.1
          (fun x hx => hpg x (by simp [hx])) (hap.subset (by simp)) hp
      refine ⟨low, cur, high, l.toList ++ c :: pre, post, ⟨hg, ?_, ?_, ?_, hpost⟩, hadj⟩
      · rw [BinTree.toList_node, hl]
        simp
      · intro u
        rw [BinTree.set, BinTree.toList_node, hset]
        simp
      · intro a ha
        have hcs : c.stop + 1 ≤ v := by omega
        rcases mem_append.mp ha with ha | ha
        · have := hsp.below a ha
          omega
        · rcases mem_cons.mp ha with rfl | ha
          · exact hcs
          · exact hpre a ha

theorem findNeighbour_none {v s : ℕ} (hs : 0 < s) (hw : v + s < UVAL) :
    ∀ {t : Tree}, Spaced FreePages.start FreePages.stop 1 t.toList →
    (∀ c ∈ t.toList, PageBlock c) → Apart v s t.toList → findNeighbour v s t = none →
    ∀ c ∈ t.toList, c.stop + 1 ≤ v ∨ v + s + 1 ≤ c.start
  | .nil, _, _, _, _ => by simp
  | .node l c r, hsp, hpg, hap, h => by
    have hb : c.bound = c.stop := (hpg c (by simp)).bound_eq
    have hadd : MachineWord.add 64 v s = v + s := add_of_lt hw
    have hc := hap c (by simp)
    have hcpos := hsp.pos c (by simp)
    obtain ⟨hspl, hspr, -⟩ := Spaced.append_iff.mp hsp
    rw [findNeighbour, hb, hadd] at h
    split_ifs at h with h1 h2
    · have hrec := findNeighbour_none hs hw hspl (fun x hx => hpg x (by simp [hx]))
        (hap.subset (by simp)) (Option.map_eq_none_iff.mp h)
      intro b hb
      rcases mem_append.mp hb with hb | hb
      · exact hrec b hb
      · right
        rcases mem_cons.mp hb with rfl | hb
        · omega
        · have := hsp.above b hb
          omega
    · have hrec := findNeighbour_none hs hw (Spaced.cons_iff.mp hspr).2.1
        (fun x hx => hpg x (by simp [hx])) (hap.subset (by simp))
        (Option.map_eq_none_iff.mp h)
      intro b hb
      rcases mem_append.mp hb with hb | hb
      · have := hsp.below b hb
        left
        omega
      · rcases mem_cons.mp hb with rfl | hb
        · left
          omega
        · exact hrec b hb

/-- A block of the tree that has grown to `cur'`, perhaps swallowing a block from
one of its children: with what is left of the children it makes up the old space
and the range `[v, v + s)`. -/
structure Coalesced (t : Tree) (top : Path) (low : Tree) (cur : FreePages) (high : Tree)
    (low' : Tree) (cur' : FreePages) (high' : Tree) (v s : ℕ) : Prop where
  pruned : Pruned low cur high low' high'
  block : PageBlock cur'
  start_le : cur'.start ≤ cur.start
  stop_le : cur.stop ≤ cur'.stop
  clear : ClearOf (t.set top (merge low' high')) cur'
  space_eq : range cur'.start cur'.size ∪ space (t.set top (merge low' high')) =
    space t ∪ range v s

/-- **Enlarging.** Whether the block stays in place or is reinserted, the tree is
in order and has the space of the account. -/
theorem enlarge_spec (pa : PageAllocatorDefault) {low high low' high' : Tree}
    {cur' : FreePages} (ht : TreeInv pa.anchor) (hg : pa.anchor.get top = .node low cur high)
    (hc : Coalesced pa.anchor top low cur high low' cur' high' v s) :
    TreeInv (pa.enlarge top low' cur' high').anchor ∧
      space (pa.enlarge top low' cur' high').anchor = space pa.anchor ∪ range v s := by
  obtain ⟨-, hcpos⟩ := ht.pageBlock hg
  have h1 := hc.start_le
  have h2 := hc.stop_le
  have h3 : cur.stop = cur.start + cur.size := rfl
  have h4 : cur'.stop = cur'.start + cur'.size := rfl
  have hsize : cur.size ≤ cur'.size := by omega
  unfold enlarge
  split_ifs with hpar
  · obtain ⟨htree, hspace⟩ :=
      (ht.remove hg hc.pruned).add hc.block (by omega) hc.clear
    exact ⟨htree, hspace.trans hc.space_eq⟩
  · have hheap : (node low' cur' high').Heap FreePages.size :=
      ⟨hc.pruned.low_below.mono hsize, hc.pruned.high_below.mono hsize, hc.pruned.low_heap,
        hc.pruned.high_heap⟩
    have hbelow : ∀ b ∈ pa.anchor.parent? top,
        Below FreePages.size b.size (.node low' cur' high') := by
      intro b hb
      rw [Option.mem_def.mp hb] at hpar
      simpa using hpar
    obtain ⟨htree, hspace⟩ := ht.relink hg hc.pruned rfl hheap hbelow hc.block (by omega)
      (by omega) hc.clear
    exact ⟨htree, hspace.trans hc.space_eq⟩

section Enlarge

variable (pa : PageAllocatorDefault) (top : Path) (low : Tree) (cur : FreePages) (high : Tree)

@[simp] theorem enlarge_freeList : (pa.enlarge top low cur high).freeList = pa.freeList := by
  unfold enlarge
  split_ifs <;> rfl

@[simp] theorem enlarge_carved : (pa.enlarge top low cur high).carved = pa.carved := by
  unfold enlarge
  split_ifs <;> rfl

@[simp] theorem enlarge_available : (pa.enlarge top low cur high).available = pa.available := by
  unfold enlarge
  split_ifs <;> rfl

end Enlarge

section Coalesce

variable {t low high low' high' : Tree} {top : Path} {cur cur' : FreePages}
  {pre post : List FreePages} {v s : ℕ}

/-- The grown block as a piece of the in-order list: it keeps clear of what is
left before and after it, and the addresses agree. -/
theorem Reached.coalesced (hr : Reached v s t top low cur high pre post)
    (hp : Pruned low cur high low' high') (hb : PageBlock cur')
    (h1 : cur'.start ≤ cur.start) (h2 : cur.stop ≤ cur'.stop)
    (hbefore : ∀ a ∈ pre ++ low'.toList, a.stop + 1 ≤ cur'.start)
    (hafter : ∀ b ∈ high'.toList ++ post, cur'.stop + 1 ≤ b.start)
    (hspace : Set.Ico cur'.start cur'.stop ∪ cover FreePages.start FreePages.stop
      ((pre ++ low'.toList) ++ (high'.toList ++ post)) = space t ∪ range v s) :
    Coalesced t top low cur high low' cur' high' v s := by
  have hlist : (t.set top (merge low' high')).toList =
      (pre ++ low'.toList) ++ (high'.toList ++ post) := by
    rw [hr.set, toList_merge]
    simp
  refine ⟨hp, hb, h1, h2, ?_, ?_⟩
  · intro b hbm
    rw [hlist] at hbm
    rcases mem_append.mp hbm with hbm | hbm
    · exact .inl (hbefore b hbm)
    · exact .inr (hafter b hbm)
  · rw [space, hlist]
    exact hspace

variable (ht : TreeInv t) (hr : Reached v s t top low cur high pre post)
include ht hr

theorem Reached.spaced : Spaced FreePages.start FreePages.stop 1
    ((pre ++ low.toList) ++ cur :: (high.toList ++ post)) := hr.toList ▸ ht.spaced

theorem Reached.growHigh (hend : cur.start + cur.size = v) (harg : RangeArg v s)
    (hgap : ∀ b ∈ high.toList, v + s + 1 ≤ b.start) :
    Coalesced t top low cur high low { cur with size := cur.size + s } high v s := by
  obtain ⟨hp, -⟩ := ht.pageBlock hr.get
  have hw := harg.no_wrap
  have hstop : FreePages.stop { cur with size := cur.size + s } = v + s := by
    simp only [FreePages.stop]
    omega
  refine hr.coalesced (ht.pruned hr.get) ⟨hp.start_pos, ?_, hp.start_page,
    (Nat.dvd_add_right hp.size_page).mpr harg.page⟩ le_rfl ?_ (hr.spaced ht).below ?_ ?_
  · omega
  · simp only [FreePages.stop]
    omega
  · intro b hb
    rw [hstop]
    rcases mem_append.mp hb with hb | hb
    · exact hgap b hb
    · exact hr.after b hb
  · have hico : Set.Ico cur.start (v + s) = Set.Ico cur.start cur.stop ∪ range v s := by
      ext x
      simp only [Set.mem_union, Set.mem_Ico, mem_range, FreePages.stop]
      omega
    rw [space, hr.toList, hstop, hico]
    simp only [cover_append, cover_cons]
    ac_rfl

theorem Reached.growLow (hend : v + s = cur.start) (harg : RangeArg v s) (hv : 0 < v)
    (hgap : ∀ a ∈ low.toList, a.stop + 1 ≤ v) :
    Coalesced t top low cur high low { cur with start := v, size := cur.size + s } high v s := by
  obtain ⟨hp, -⟩ := ht.pageBlock hr.get
  have hlt := hp.stop_lt
  have hstop : FreePages.stop { cur with start := v, size := cur.size + s } = cur.stop := by
    simp only [FreePages.stop]
    omega
  refine hr.coalesced (ht.pruned hr.get) ⟨hv, ?_, harg.vaddr_page,
    (Nat.dvd_add_right hp.size_page).mpr harg.page⟩ ?_ hstop.ge ?_ ?_ ?_
  · rw [hstop]
    exact hlt
  · change v ≤ cur.start
    omega
  · intro a ha
    rcases mem_append.mp ha with ha | ha
    · exact hr.before a ha
    · exact hgap a ha
  · rw [hstop]
    exact (hr.spaced ht).above
  · have hico : Set.Ico v cur.stop = Set.Ico cur.start cur.stop ∪ range v s := by
      ext x
      simp only [Set.mem_union, Set.mem_Ico, mem_range, FreePages.stop]
      omega
    rw [space, hr.toList, hstop, hico]
    simp only [cover_append, cover_cons]
    ac_rfl

theorem Reached.swallowHigh {cur1 : FreePages} {rest : Tree} {post1 : List FreePages}
    (hend : cur.start + cur.size = v) (harg : RangeArg v s)
    (hg1 : high.get high.lowPath = .node .nil cur1 rest)
    (hl1 : high.toList = cur1 :: rest.toList ++ post1)
    (hset1 : ∀ u, (high.set high.lowPath u).toList = u.toList ++ post1) (heq : v + s = cur1.start) :
    Coalesced t top low cur high low { cur with size := cur.size + s + cur1.size }
      (high.set high.lowPath rest) v s := by
  obtain ⟨hp, -⟩ := ht.pageBlock hr.get
  have hp1 := ht.page cur1 (by simp [hr.toList, hl1])
  have hprune := ht.pruned hr.get
  have hheap1 : (node .nil cur1 rest).Heap FreePages.size :=
    hg1 ▸ hprune.high_heap.get (p := high.lowPath)
  have hbelow1 : ∀ n, Below FreePages.size n (high.get high.lowPath) →
      Below FreePages.size n rest := by
    intro n hn
    rw [hg1, below_node] at hn
    exact hheap1.2.1.mono hn
  have hstop : FreePages.stop { cur with size := cur.size + s + cur1.size } = cur1.stop := by
    simp only [FreePages.stop]
    omega
  have hsp := hr.spaced ht
  rw [hl1] at hsp
  refine hr.coalesced ⟨List.Sublist.refl _, ?_, hprune.low_heap,
    hprune.high_heap.set_of_below hheap1.2.2.2 hbelow1, hprune.low_below,
    below_set hprune.high_below ?_⟩ ?_ le_rfl ?_ hsp.below ?_ ?_
  · rw [hset1, hl1]
    exact List.sublist_cons_self _ _
  · intro hroot
    have hb := hbelow1 cur.size
    rw [hroot, get_root] at hb
    exact hb hprune.high_below
  · refine ⟨hp.start_pos, hstop ▸ hp1.stop_lt, hp.start_page,
      (Nat.dvd_add_right ((Nat.dvd_add_right hp.size_page).mpr harg.page)).mpr hp1.size_page⟩
  · rw [hstop]
    simp only [FreePages.stop]
    omega
  · rw [hset1, hstop]
    have hsp1 : Spaced FreePages.start FreePages.stop 1
        (((pre ++ low.toList) ++ [cur]) ++ cur1 :: ((rest.toList ++ post1) ++ post)) := by
      simpa using hsp
    exact hsp1.above
  · have hico : Set.Ico cur.start cur1.stop = Set.Ico cur.start cur.stop ∪
        (range v s ∪ Set.Ico cur1.start cur1.stop) := by
      ext x
      simp only [Set.mem_union, Set.mem_Ico, mem_range, FreePages.stop]
      omega
    rw [space, hr.toList, hset1, hl1, hstop, hico]
    simp only [List.cons_append, cover_append, cover_cons]
    ac_rfl

theorem Reached.swallowLow {cur1 : FreePages} {rest : Tree} {pre1 : List FreePages}
    (hend : v + s = cur.start) (harg : RangeArg v s)
    (hg1 : low.get low.highPath = .node rest cur1 .nil)
    (hl1 : low.toList = pre1 ++ rest.toList ++ [cur1])
    (hset1 : ∀ u, (low.set low.highPath u).toList = pre1 ++ u.toList)
    (heq : cur1.start + cur1.size = v) :
    Coalesced t top low cur high (low.set low.highPath rest)
      { cur with start := cur1.start, size := cur.size + s + cur1.size } high v s := by
  obtain ⟨hp, -⟩ := ht.pageBlock hr.get
  have hp1 := ht.page cur1 (by simp [hr.toList, hl1])
  have hprune := ht.pruned hr.get
  have hheap1 : (node rest cur1 .nil).Heap FreePages.size :=
    hg1 ▸ hprune.low_heap.get (p := low.highPath)
  have hbelow1 : ∀ n, Below FreePages.size n (low.get low.highPath) →
      Below FreePages.size n rest := by
    intro n hn
    rw [hg1, below_node] at hn
    exact hheap1.1.mono hn
  have hstop : FreePages.stop
      { cur with start := cur1.start, size := cur.size + s + cur1.size } = cur.stop := by
    simp only [FreePages.stop]
    omega
  have hsp := hr.spaced ht
  have habove := hsp.above
  rw [hl1] at hsp
  refine hr.coalesced ⟨?_, List.Sublist.refl _,
    hprune.low_heap.set_of_below hheap1.2.2.1 hbelow1, hprune.high_heap,
    below_set hprune.low_below ?_, hprune.high_below⟩ ?_ ?_ hstop.ge ?_ ?_ ?_
  · rw [hset1, hl1]
    exact List.sublist_append_left _ _
  · intro hroot
    have hb := hbelow1 cur.size
    rw [hroot, get_root] at hb
    exact hb hprune.low_below
  · refine ⟨hp1.start_pos, hstop ▸ hp.stop_lt, hp1.start_page,
      (Nat.dvd_add_right ((Nat.dvd_add_right hp.size_page).mpr harg.page)).mpr hp1.size_page⟩
  · change cur1.start ≤ cur.start
    omega
  · rw [hset1]
    have hsp1 : Spaced FreePages.start FreePages.stop 1
        ((pre ++ (pre1 ++ rest.toList)) ++ cur1 :: cur :: (high.toList ++ post)) := by
      simpa using hsp
    exact hsp1.below
  · rw [hstop]
    exact habove
  · have hico : Set.Ico cur1.start cur.stop = Set.Ico cur1.start cur1.stop ∪
        (range v s ∪ Set.Ico cur.start cur.stop) := by
      ext x
      simp only [Set.mem_union, Set.mem_Ico, mem_range, FreePages.stop]
      omega
    rw [space, hr.toList, hset1, hl1, hstop, hico]
    simp only [cover_append, cover_cons, cover_nil, Set.union_empty]
    ac_rfl

/-- **Coalescing upwards.** -/
theorem Reached.coalesceHigh (hap : Apart v s t.toList) (hend : cur.start + cur.size = v)
    (harg : RangeArg v s) :
    Coalesced t top low cur high low
      (coalesceHigh { cur with size := MachineWord.add 64 cur.size s } high).1
      (coalesceHigh { cur with size := MachineWord.add 64 cur.size s } high).2.1 v s := by
  have hsp := hr.spaced ht
  have hw := harg.no_wrap
  have hspos := harg.pos
  have hadd : MachineWord.add 64 cur.size s = cur.size + s :=
    add_of_lt (Nat.lt_of_le_of_lt (by omega) hw)
  have hstop : MachineWord.add 64 cur.start (cur.size + s) = v + s := by
    rw [add_of_lt (Nat.lt_of_le_of_lt (by omega) hw)]
    omega
  rw [hadd, PageAllocatorDefault.coalesceHigh]
  by_cases hne : high = .nil
  · subst hne
    exact hr.growHigh ht hend harg (by simp)
  · obtain ⟨cur1, rest, post1, hg1, hl1, hset1⟩ := get_lowPath hne
    have hp1 := ht.page cur1 (by simp [hr.toList, hl1])
    have hcur1 : v + s ≤ cur1.start := by
      have h1 := hsp.above cur1 (by simp [hl1])
      have h2 := hsp.pos cur1 (by simp [hl1])
      have h3 : cur.stop = cur.start + cur.size := rfl
      rcases hap cur1 (by simp [hr.toList, hl1]) with h | h <;> omega
    simp only [hg1, FreePages.bound, hstop]
    split_ifs with heq
    · have hlt1 : cur1.start + cur1.size < UVAL := hp1.stop_lt
      rw [add_of_lt (Nat.lt_of_le_of_lt (by omega) hlt1)]
      exact hr.swallowHigh ht hend harg hg1 hl1 hset1 heq
    · refine hr.growHigh ht hend harg ?_
      rw [hl1] at hsp ⊢
      have hsp1 : Spaced FreePages.start FreePages.stop 1
          (((pre ++ low.toList) ++ [cur]) ++ cur1 :: ((rest.toList ++ post1) ++ post)) := by
        simpa using hsp
      intro b hb
      rcases mem_cons.mp hb with rfl | hb
      · omega
      · have h1 := hsp1.above b (List.mem_append_left _ hb)
        have h2 := hsp.pos cur1 (by simp)
        omega

/-- **Coalescing downwards.** -/
theorem Reached.coalesceLow (hap : Apart v s t.toList) (hend : v + s = cur.start)
    (harg : RangeArg v s) (hv : 0 < v) :
    Coalesced t top low cur high
      (coalesceLow low { cur with start := v, size := MachineWord.add 64 cur.size s }).2.1
      (coalesceLow low { cur with start := v, size := MachineWord.add 64 cur.size s }).1
      high v s := by
  have hsp := hr.spaced ht
  obtain ⟨hp, -⟩ := ht.pageBlock hr.get
  have hlt : cur.start + cur.size < UVAL := hp.stop_lt
  have hspos := harg.pos
  have hadd : MachineWord.add 64 cur.size s = cur.size + s :=
    add_of_lt (Nat.lt_of_le_of_lt (by omega) hlt)
  rw [hadd, PageAllocatorDefault.coalesceLow]
  by_cases hne : low = .nil
  · subst hne
    exact hr.growLow ht hend harg hv (by simp)
  · obtain ⟨rest, cur1, pre1, hg1, hl1, hset1⟩ := BinTree.get_highPath hne
    have hp1 := ht.page cur1 (by simp [hr.toList, hl1])
    have hstop1 : cur1.stop = cur1.start + cur1.size := rfl
    have hcur1 : cur1.start + cur1.size ≤ v := by
      have h1 := hsp.below cur1 (by simp [hl1])
      have h2 := hsp.pos cur1 (by simp [hl1])
      rcases hap cur1 (by simp [hr.toList, hl1]) with h | h <;> omega
    simp only [hg1, hp1.bound_eq, hstop1]
    split_ifs with heq
    · rw [add_of_lt (Nat.lt_of_le_of_lt (by omega) hlt)]
      exact hr.swallowLow ht hend harg hg1 hl1 hset1 heq
    · refine hr.growLow ht hend harg hv ?_
      rw [hl1] at hsp ⊢
      have hsp1 : Spaced FreePages.start FreePages.stop 1
          ((pre ++ (pre1 ++ rest.toList)) ++ cur1 :: cur :: (high.toList ++ post)) := by
        simpa using hsp
      intro a ha
      rcases mem_append.mp ha with ha | ha
      · have h1 := hsp1.below a (List.mem_append_right _ ha)
        have h2 := hsp.pos cur1 (by simp)
        omega
      · obtain rfl := List.mem_singleton.mp ha
        omega

end Coalesce

/-- The deallocation of `[vaddr, vaddr + size)` takes `pa` to `pa'`: the range
joins the free space. -/
def Freed (pa pa' : PageAllocatorDefault) (vaddr size : ℕ) : Prop :=
  ∃ D, Accounted { pa with available := MachineWord.add 64 pa.available size } pa'
    (space pa.anchor ∪ range vaddr size) D

theorem RangeArg.pageBlock (harg : RangeArg v s) (hv : 0 < v) (r : ℕ) :
    PageBlock ⟨r, v, s⟩ := ⟨hv, harg.no_wrap, harg.vaddr_page, harg.page⟩

theorem space_nil : space .nil = ∅ := cover_nil


theorem mem_space_of_clear (h : ∀ c ∈ t.toList, c.stop + 1 ≤ v ∨ v + s + 1 ≤ c.start) :
    ∀ x ∈ space t, x + 1 < v ∨ v + s + 1 ≤ x := by
  rintro x ⟨c, hc, h1, h2⟩
  rcases h c hc with h | h <;> omega

theorem insertRange_empty (pa : PageAllocatorDefault) (hn : pa.anchor = .nil)
    (hfl : pa.freeList ≠ []) (harg : RangeArg v s) (hv : 0 < v) :
    ∃ r D, pa.takeRecord v s = .ok r ∧ Accounted pa (insertRange r) (range v s) D := by
  have hblock := harg.pageBlock hv
  have hempty : Accounted pa pa ∅ ∅ := by
    refine .plain ?_ ?_ hfl rfl rfl
    · rw [hn]
      exact treeInv_nil
    · rw [hn, space_nil]
  match hf : pa.freeList with
  | [] => exact absurd hf hfl
  | r :: r' :: rest =>
    refine ⟨(r, { pa with freeList := r' :: rest }, v, s), ∅, by simp only [takeRecord, hf], ?_⟩
    have hrest : Accounted pa { pa with freeList := r' :: rest } ∅ ∅ :=
      .plain hempty.tree (hempty.space.trans (Set.sdiff_empty)) (cons_ne_nil _ _) rfl rfl
    rw [insertRange, if_neg harg.pos.ne']
    have hadd := hrest.add (hblock r) harg.pos (by simp)
    exact hadd.congr (Set.union_empty _)
  | [r] =>
    have hle : PAGE_SIZE ≤ s := Nat.le_of_dvd harg.pos harg.page
    have hsub : range v PAGE_SIZE ⊆ range v s := by
      rintro x ⟨h1, h2⟩
      exact ⟨h1, Nat.lt_of_lt_of_le h2 (Nat.add_le_add_left hle v)⟩
    have hdiff : range v s \ range v PAGE_SIZE = range (v + PAGE_SIZE) (s - PAGE_SIZE) := by
      ext x
      simp only [Set.mem_sdiff, mem_range]
      omega
    obtain ⟨q, hext, hqn, hqf, hqc, hqa⟩ :=
      extendFreeList_nil { pa with freeList := [] } hn v s
    have hstart : MachineWord.add 64 v PAGE_SIZE = v + PAGE_SIZE := (hblock r).start_add hle
    have hsize : MachineWord.sub 64 s PAGE_SIZE = s - PAGE_SIZE := (hblock r).size_sub hle
    rw [hstart, hsize] at hext
    have hqspace : space q.anchor = ∅ := by rw [hqn, space_nil]
    have hqne : q.freeList ≠ [] := List.ne_nil_of_length_pos (Nat.zero_lt_of_lt hqf)
    have hqtree : TreeInv q.anchor := hqn ▸ treeInv_nil
    refine ⟨(r, q, v + PAGE_SIZE, s - PAGE_SIZE), range v PAGE_SIZE, ?_, ?_⟩
    · simp only [takeRecord, hf, hext]
    · rw [insertRange]
      split_ifs with hz
      · change s - PAGE_SIZE = 0 at hz
        refine ⟨hqtree, ?_, hsub, hqne, .inr ⟨v, harg.vaddr_page, rfl, hqc, hqa⟩⟩
        rw [hdiff, hz, range_zero, hqspace]
      · have hpos : 0 < (FreePages.drop ⟨r, v, s⟩ PAGE_SIZE).size := Nat.pos_of_ne_zero hz
        have hclear : ClearOf q.anchor (FreePages.drop ⟨r, v, s⟩ PAGE_SIZE) := by
          rw [hqtree.clearOf_iff hpos, hqspace]
          simp
        obtain ⟨htree, hspace⟩ := hqtree.add ((hblock r).drop hle dvd_rfl) hpos hclear
        refine ⟨htree, ?_, hsub, hqne, .inr ⟨v, harg.vaddr_page, rfl, hqc, hqa⟩⟩
        rw [hqspace, Set.union_empty] at hspace
        rw [hdiff]
        exact hspace

/-- **Deallocation.** It always succeeds, and the range joins the free space. -/
theorem deallocPages_spec (ht : TreeInv pa.anchor)
    (hfl : pa.freeList ≠ []) (harg : RangeArg v s) (hv : 0 < v) (hap : Apart v s pa.anchor.toList) :
    ∃ pa', pa.deallocPages v s = .ok pa' ∧ Freed pa pa' v s := by
  simp only [deallocPages, pageRoundUp_eq harg.pos harg.lt harg.page]
  cases hf : findNeighbour v s pa.anchor with
  | some top =>
    obtain ⟨low, cur, high, pre, post, hr, hadj⟩ :=
      findNeighbour_some harg.pos harg.no_wrap ht.spaced ht.page hap hf
    obtain ⟨hp, -⟩ := ht.pageBlock hr.get
    simp only [hr.get, hp.bound_eq]
    split_ifs with heq
    · obtain ⟨htree, hspace⟩ := enlarge_spec
        { pa with freeList := _ ++ pa.freeList, available := MachineWord.add 64 pa.available s }
        ht hr.get (hr.coalesceHigh ht hap heq harg)
      exact ⟨_, rfl, ∅, .plain htree hspace (by simp [hfl]) (enlarge_carved ..)
        (enlarge_available ..)⟩
    · obtain ⟨htree, hspace⟩ := enlarge_spec
        { pa with freeList := _ ++ pa.freeList, available := MachineWord.add 64 pa.available s }
        ht hr.get (hr.coalesceLow ht hap (hadj.resolve_left heq) harg hv)
      exact ⟨_, rfl, ∅, .plain htree hspace (by simp [hfl]) (enlarge_carved ..)
        (enlarge_available ..)⟩
  | none =>
    have hfar := findNeighbour_none harg.pos harg.no_wrap ht.spaced ht.page hap hf
    by_cases hn : pa.anchor = .nil
    · obtain ⟨r, D, htake, hacc⟩ := insertRange_empty
        { pa with available := MachineWord.add 64 pa.available s } hn hfl harg hv
      simp only [htake]
      refine ⟨_, rfl, D, hacc.congr ?_⟩
      rw [hn, space_nil, Set.empty_union]
    · obtain ⟨r, pa', D, htake, hacc⟩ := takeRecord_spec
        { pa with available := MachineWord.add 64 pa.available s } ht hn hfl v s
      have hadd := hacc.add (harg.pageBlock hv r) harg.pos (mem_space_of_clear hfar)
      simp only [htake]
      refine ⟨_, rfl, D, ?_⟩
      rw [insertRange, if_neg harg.pos.ne']
      exact hadd.congr (Set.union_comm _ _)

end K42.PageAllocatorDefault
