import K42.Alloc.PageAllocatorDefault
import K42.Lib.Interval

/-!
# The tree of free blocks

What `merge` and `add` do to the in-order list of a tree and to the heap order.
The order in which `add` cuts the subtree below the new node does not matter to
the result: both loops sort nodes by their address.
-/

namespace K42.PageAllocatorDefault

open Interval
open BinTree (Path Below Heap)
open BinTree (append_cons_eq_append exists_context node toList_node)

/-- The first address after the block. -/
def FreePages.stop (c : FreePages) : ℕ := c.start + c.size

/-! ## Merging -/

theorem toList_merge (low high : Tree) : (merge low high).toList = low.toList ++ high.toList := by
  fun_induction merge low high with
  | case1 high => simp
  | case2 low _ => simp
  | case3 ll lc lh hl hc hh hlt ih => simp [ih]
  | case4 ll lc lh hl hc hh hle ih =>
    rw [toList_node, ih]
    simp

variable {n c : FreePages} {low high t : Tree}

theorem below_merge {n : ℕ} (hl : Below FreePages.size n low)
    (hh : Below FreePages.size n high) : Below FreePages.size n (merge low high) := by
  fun_induction merge low high with
  | case1 high => exact hh
  | case2 low _ => exact hl
  | case3 => simpa using hl
  | case4 => simpa using hh

theorem heap_merge (hl : low.Heap FreePages.size)
    (hh : high.Heap FreePages.size) : (merge low high).Heap FreePages.size := by
  fun_induction merge low high with
  | case1 high => exact hh
  | case2 low _ => exact hl
  | case3 ll lc lh hl' hc hh' hlt ih =>
    obtain ⟨hbl, hbh, hhl, hhh⟩ := hl
    exact ⟨hbl, below_merge hbh (by simpa using hlt.le), hhl, ih hhh hh⟩
  | case4 ll lc lh hl' hc hh' hle ih =>
    obtain ⟨hbl, hbh, hhl, hhh⟩ := hh
    exact ⟨below_merge (by simpa using not_lt.mp hle) hbl, hbh, ih hl hhl, hhh⟩

/-! ## Splitting -/

/-- Every block of the first list starts below `s`, every one of the second above. -/
def Cut (s : ℕ) (pre post : List FreePages) : Prop :=
  (∀ a ∈ pre, a.start < s) ∧ ∀ b ∈ post, s < b.start

mutual
theorem toList_findhigh {s : ℕ} : ∀ {t : Tree} {pre post : List FreePages}, Cut s pre post →
    t.toList = pre ++ post → (findhigh s t).1.toList = pre ∧ (findhigh s t).2.toList = post
  | .nil, pre, post, _, ht => by
    obtain ⟨rfl, rfl⟩ := List.append_eq_nil_iff.mp ht.symm
    exact ⟨rfl, rfl⟩
  | .node l c h, pre, post, hcut, ht => by
    rcases append_cons_eq_append ht with ⟨mid, rfl, hh⟩ | ⟨mid, hl, rfl⟩
    · have hc : c.start < s := hcut.1 c (by simp)
      have hcut' : Cut s mid post := ⟨fun a ha => hcut.1 a (by simp [ha]), hcut.2⟩
      obtain ⟨h1, h2⟩ := toList_findhigh hcut' hh
      rw [findhigh, if_pos hc]
      exact ⟨by rw [toList_node, h1], h2⟩
    · have hc : ¬ c.start < s := (hcut.2 c (by simp)).not_gt
      have hcut' : Cut s pre mid := ⟨hcut.1, fun b hb => hcut.2 b (by simp [hb])⟩
      obtain ⟨h1, h2⟩ := toList_findlow hcut' hl
      rw [findhigh, if_neg hc]
      exact ⟨h2, by rw [toList_node, h1]⟩
theorem toList_findlow {s : ℕ} : ∀ {t : Tree} {pre post : List FreePages}, Cut s pre post →
    t.toList = pre ++ post → (findlow s t).1.toList = post ∧ (findlow s t).2.toList = pre
  | .nil, pre, post, _, ht => by
    obtain ⟨rfl, rfl⟩ := List.append_eq_nil_iff.mp ht.symm
    exact ⟨rfl, rfl⟩
  | .node l c h, pre, post, hcut, ht => by
    rcases append_cons_eq_append ht with ⟨mid, rfl, hh⟩ | ⟨mid, hl, rfl⟩
    · have hc : ¬ c.start > s := (hcut.1 c (by simp)).not_gt
      have hcut' : Cut s mid post := ⟨fun a ha => hcut.1 a (by simp [ha]), hcut.2⟩
      obtain ⟨h1, h2⟩ := toList_findhigh hcut' hh
      rw [findlow, if_neg hc]
      exact ⟨h2, by rw [toList_node, h1]⟩
    · have hc : c.start > s := hcut.2 c (by simp)
      have hcut' : Cut s pre mid := ⟨hcut.1, fun b hb => hcut.2 b (by simp [hb])⟩
      obtain ⟨h1, h2⟩ := toList_findlow hcut' hl
      rw [findlow, if_pos hc]
      exact ⟨by rw [toList_node, h1], h2⟩
end

mutual
theorem heap_findhigh {s n : ℕ} : ∀ {t : Tree}, t.Heap FreePages.size →
    Below FreePages.size n t →
    ((findhigh s t).1.Heap FreePages.size ∧ Below FreePages.size n (findhigh s t).1) ∧
      (findhigh s t).2.Heap FreePages.size ∧ Below FreePages.size n (findhigh s t).2
  | .nil, _, _ => by simp [findhigh]
  | .node l c h, ⟨hbl, hbh, hl, hh⟩, hb => by
    have hcn : c.size ≤ n := by simpa using hb
    rw [findhigh]
    split_ifs
    · obtain ⟨⟨h1, h2⟩, h3, h4⟩ := heap_findhigh (s := s) hh hbh
      exact ⟨⟨⟨hbl, h2, hl, h1⟩, by simpa using hcn⟩, h3, h4.mono hcn⟩
    · obtain ⟨⟨h1, h2⟩, h3, h4⟩ := heap_findlow (s := s) hl hbl
      exact ⟨⟨h3, h4.mono hcn⟩, ⟨h2, hbh, h1, hh⟩, by simpa using hcn⟩
theorem heap_findlow {s n : ℕ} : ∀ {t : Tree}, t.Heap FreePages.size →
    Below FreePages.size n t →
    ((findlow s t).1.Heap FreePages.size ∧ Below FreePages.size n (findlow s t).1) ∧
      (findlow s t).2.Heap FreePages.size ∧ Below FreePages.size n (findlow s t).2
  | .nil, _, _ => by simp [findlow]
  | .node l c h, ⟨hbl, hbh, hl, hh⟩, hb => by
    have hcn : c.size ≤ n := by simpa using hb
    rw [findlow]
    split_ifs
    · obtain ⟨⟨h1, h2⟩, h3, h4⟩ := heap_findlow (s := s) hl hbl
      exact ⟨⟨⟨h2, hbh, h1, hh⟩, by simpa using hcn⟩, h3, h4.mono hcn⟩
    · obtain ⟨⟨h1, h2⟩, h3, h4⟩ := heap_findhigh (s := s) hh hbh
      exact ⟨⟨h3, h4.mono hcn⟩, ⟨hbl, h2, hl, h1⟩, by simpa using hcn⟩
end

/-! ## Insertion -/

theorem toList_add {n : FreePages} : ∀ {t : Tree} {pre post : List FreePages},
    Cut n.start pre post → t.toList = pre ++ post → (add t n).toList = pre ++ n :: post
  | .nil, pre, post, _, ht => by
    obtain ⟨rfl, rfl⟩ := List.append_eq_nil_iff.mp ht.symm
    rfl
  | .node l c h, pre, post, hcut, ht => by
    rcases append_cons_eq_append ht with ⟨mid, rfl, hh⟩ | ⟨mid, hl, rfl⟩
    · have hc : c.start < n.start := hcut.1 c (by simp)
      have hcut' : Cut n.start mid post :=
        ⟨fun a ha => hcut.1 a (by simp [ha]), hcut.2⟩
      rw [add, if_pos hc, if_pos hc]
      split_ifs
      · rw [toList_node, toList_add hcut' hh]
        simp
      · obtain ⟨h1, h2⟩ := toList_findhigh hcut' hh
        simp [h1, h2]
    · have hc : ¬ c.start < n.start := (hcut.2 c (by simp)).not_gt
      have hcut' : Cut n.start pre mid :=
        ⟨hcut.1, fun b hb => hcut.2 b (by simp [hb])⟩
      rw [add, if_neg hc, if_neg hc]
      split_ifs
      · rw [toList_node, toList_add hcut' hl]
        simp
      · obtain ⟨h1, h2⟩ := toList_findlow hcut' hl
        simp [h1, h2]

/-! ### In any tree

Neither the split nor the insertion needs the tree to be in order to lose no block. -/

mutual
theorem perm_findhigh (s : ℕ) : ∀ t : Tree,
    ((findhigh s t).1.toList ++ (findhigh s t).2.toList).Perm t.toList
  | .nil => .refl _
  | .node l next h => by
    apply List.perm_iff_count.mpr
    intro c
    rw [findhigh]
    split
    · have hrest := (perm_findhigh s h).count_eq c
      simp only [toList_node, List.count_append, List.count_cons] at hrest ⊢
      omega
    · have hrest := (perm_findlow s l).count_eq c
      simp only [toList_node, List.count_append, List.count_cons] at hrest ⊢
      omega
theorem perm_findlow (s : ℕ) : ∀ t : Tree,
    ((findlow s t).1.toList ++ (findlow s t).2.toList).Perm t.toList
  | .nil => .refl _
  | .node l next h => by
    apply List.perm_iff_count.mpr
    intro c
    rw [findlow]
    split
    · have hrest := (perm_findlow s l).count_eq c
      simp only [toList_node, List.count_append, List.count_cons] at hrest ⊢
      omega
    · have hrest := (perm_findhigh s h).count_eq c
      simp only [toList_node, List.count_append, List.count_cons] at hrest ⊢
      omega
end

theorem perm_add (n : FreePages) : ∀ t : Tree, (add t n).toList.Perm (n :: t.toList)
  | .nil => .refl _
  | .node l cur h => by
    apply List.perm_iff_count.mpr
    intro c
    have hl := (perm_add n l).count_eq c
    have hh := (perm_add n h).count_eq c
    have hhigh := (perm_findhigh n.start h).count_eq c
    have hlow := (perm_findlow n.start l).count_eq c
    rw [add]
    split_ifs
    all_goals
      simp only [toList_node, List.count_append, List.count_cons] at *
      omega

theorem mem_add : c ∈ (add t n).toList ↔ c = n ∨ c ∈ t.toList :=
  (perm_add n t).mem_iff.trans List.mem_cons

theorem below_add {k : ℕ} (ht : Below FreePages.size k t)
    (hn : n.size ≤ k) : Below FreePages.size k (add t n) := by
  cases t with
  | nil => simpa [add] using hn
  | node l c h =>
    have hc : c.size ≤ k := by simpa using ht
    rw [add]
    split_ifs
    · simpa using hc
    · simpa using hc
    · simpa using hn
    · simpa using hn

theorem heap_add {n : FreePages} : ∀ {t : Tree}, t.Heap FreePages.size →
    (add t n).Heap FreePages.size
  | .nil, _ => by simp [add]
  | .node l c h, ⟨hbl, hbh, hl, hh⟩ => by
    rw [add]
    split_ifs with hsize hstart hstart
    · exact ⟨hbl, below_add hbh hsize.le, hl, heap_add hh⟩
    · exact ⟨below_add hbl hsize.le, hbh, heap_add hl, hh⟩
    · have hle : c.size ≤ n.size := not_lt.mp hsize
      obtain ⟨⟨h1, h2⟩, h3, h4⟩ := heap_findhigh (s := n.start) hh hbh
      exact ⟨by simpa using hle, h4.mono hle, ⟨hbl, h2, hl, h1⟩, h3⟩
    · have hle : c.size ≤ n.size := not_lt.mp hsize
      obtain ⟨⟨h1, h2⟩, h3, h4⟩ := heap_findlow (s := n.start) hl hbl
      exact ⟨h4.mono hle, by simpa using hle, h3, ⟨h2, hbh, h1, hh⟩⟩

/-! ## Trees of free blocks -/

/-- A page-aligned block that neither wraps nor starts at the null address. -/
structure PageBlock (c : FreePages) : Prop where
  start_pos : 0 < c.start
  stop_lt : c.stop < UVAL
  start_page : PAGE_SIZE ∣ c.start
  size_page : PAGE_SIZE ∣ c.size

/-- Heap order, blocks that ascend without touching, and page alignment. -/
structure TreeInv (t : Tree) : Prop where
  heap : t.Heap FreePages.size
  spaced : Spaced FreePages.start FreePages.stop 1 t.toList
  page : ∀ c ∈ t.toList, PageBlock c

/-- The block keeps clear of every block of the tree. -/
abbrev ClearOf (t : Tree) (c : FreePages) : Prop :=
  Clear FreePages.start FreePages.stop 1 c t.toList

theorem PageBlock.bound_eq (h : PageBlock c) : c.bound = c.stop :=
  MachineWord.add_of_lt h.stop_lt

theorem treeInv_nil : TreeInv .nil := ⟨trivial, .nil, by simp⟩

/-- The free addresses of a tree. -/
def space (t : Tree) : Set ℕ := cover FreePages.start FreePages.stop t.toList

/-- The addresses of a range. -/
def range (vaddr size : ℕ) : Set ℕ := Set.Ico vaddr (vaddr + size)

theorem space_of_perm {l : List FreePages} (h : t.toList.Perm (c :: l)) :
    space t = range c.start c.size ∪ cover FreePages.start FreePages.stop l := by
  rw [space, cover_perm h, cover_cons]
  rfl

theorem FreePages.start_lt_stop : c.start < c.stop ↔ 0 < c.size := by
  unfold FreePages.stop
  omega

theorem TreeInv.size_pos (ht : TreeInv t) (hc : c ∈ t.toList) :
    0 < c.size :=
  FreePages.start_lt_stop.mp (ht.spaced.pos c hc)

theorem TreeInv.clearOf_iff (ht : TreeInv t) (hc : 0 < c.size) :
    ClearOf t c ↔ ∀ x ∈ space t, x + 1 < c.start ∨ c.stop + 1 ≤ x :=
  clear_iff (FreePages.start_lt_stop.mpr hc) ht.spaced.pos

theorem ClearOf.disjoint (h : ClearOf t c) :
    Disjoint (range c.start c.size) (space t) :=
  Clear.disjoint h

theorem TreeInv.ncard_space (ht : TreeInv t) :
    (space t).Finite ∧ (space t).ncard = (t.toList.map FreePages.size).sum := by
  obtain ⟨hfin, hcard⟩ := ht.spaced.ncard_cover
  refine ⟨hfin, hcard.trans ?_⟩
  congr 1
  refine List.map_congr_left ?_
  intro c _
  simp [FreePages.stop]

theorem TreeInv.space_subset (ht : TreeInv t) : space t ⊆ Set.Ico 1 UVAL := by
  rintro x ⟨c, hc, h1, h2⟩
  have hp := ht.page c hc
  exact ⟨Nat.le_trans hp.start_pos h1, Nat.lt_trans h2 hp.stop_lt⟩

theorem ncard_lt_of_subset {S : Set ℕ} (h : S ⊆ Set.Ico 1 UVAL) : S.ncard < UVAL := by
  have hle := Set.ncard_le_ncard h (Set.finite_Ico 1 UVAL)
  have hcard : (Set.Ico 1 UVAL).ncard = UVAL - 1 := by
    rw [← Finset.coe_Ico, Set.ncard_coe_finset, Nat.card_Ico]
  have hpos : 0 < UVAL := by decide
  omega

theorem TreeInv.ncard_space_lt (ht : TreeInv t) : (space t).ncard < UVAL :=
  ncard_lt_of_subset ht.space_subset

/-- **Insertion.** Adding a block that keeps clear of the tree keeps the tree in
order and adds the space of that block. -/
theorem TreeInv.add (ht : TreeInv t) (hn : PageBlock n) (hpos : 0 < n.size) (hc : ClearOf t n) :
    TreeInv (PageAllocatorDefault.add t n) ∧
      space (PageAllocatorDefault.add t n) = range n.start n.size ∪ space t := by
  have hlt : n.start < n.stop := FreePages.start_lt_stop.mpr hpos
  obtain ⟨pre, post, hl, hpre, hpost⟩ := ht.spaced.exists_place hlt hc
  have hcut : Cut n.start pre post := by
    refine ⟨?_, ?_⟩
    · intro a ha
      have h1 := hpre a ha
      have h2 := ht.spaced.pos a (by simp [hl, ha])
      omega
    · intro b hb
      have h1 := hpost b hb
      omega
  have hlist := toList_add hcut hl
  have hsp := ht.spaced
  rw [hl] at hsp
  have hperm : (PageAllocatorDefault.add t n).toList.Perm (n :: t.toList) := by
    rw [hlist, hl]
    exact List.perm_middle
  refine ⟨⟨heap_add ht.heap, ?_, ?_⟩, space_of_perm hperm⟩
  · rw [hlist]
    exact hsp.insert hlt hpre hpost
  · intro c hc
    rcases List.mem_cons.mp (hperm.subset hc) with rfl | hc
    · exact hn
    · exact ht.page c hc

/-- The subtree at a link with a block taken out, and perhaps more blocks below
it: what is left of the two children. -/
structure Pruned (low cur high low' high') : Prop where
  low_sub : (BinTree.toList low').Sublist (BinTree.toList low)
  high_sub : (BinTree.toList high').Sublist (BinTree.toList high)
  low_heap : low'.Heap FreePages.size
  high_heap : high'.Heap FreePages.size
  low_below : Below FreePages.size (FreePages.size cur) low'
  high_below : Below FreePages.size (FreePages.size cur) high'

theorem TreeInv.pruned {top : Path} {cur : FreePages} (ht : TreeInv t)
    (hg : t.get top = .node low cur high) : Pruned low cur high low high := by
  have hheap : (node low cur high).Heap FreePages.size := hg ▸ ht.heap.get (p := top)
  obtain ⟨hbl, hbh, hhl, hhh⟩ := hheap
  exact ⟨List.Sublist.refl _, List.Sublist.refl _, hhl, hhh, hbl, hbh⟩

section Relink

variable {t low high low' high' : Tree} {top : Path} {cur : FreePages}

/-- **Removal.** Storing the merged children in the link to a block takes the
block out. -/
theorem TreeInv.remove (ht : TreeInv t) (hg : t.get top = .node low cur high)
    (hp : Pruned low cur high low' high') : TreeInv (t.set top (merge low' high')) := by
  obtain ⟨pre, post, hl, hs⟩ := exists_context hg
  have hsub : (t.set top (merge low' high')).toList.Sublist t.toList := by
    rw [hs, hl, toList_merge, toList_node]
    refine ((List.Sublist.append ?_ ?_).append_left pre).append_right post
    · exact hp.low_sub
    · exact hp.high_sub.cons cur
  refine ⟨ht.heap.set_of_below (heap_merge hp.low_heap hp.high_heap) ?_,
    ht.spaced.sublist hsub, fun c hc => ht.page c (hsub.subset hc)⟩
  intro n hn
  rw [hg] at hn
  have hcn : cur.size ≤ n := by simpa using hn
  exact below_merge (hp.low_below.mono hcn) (hp.high_below.mono hcn)

theorem TreeInv.remove_clear (ht : TreeInv t) (hg : t.get top = .node low cur high) :
    ClearOf (t.set top (merge low high)) cur ∧
      space t = range cur.start cur.size ∪ space (t.set top (merge low high)) := by
  obtain ⟨pre, post, hl, hs⟩ := exists_context hg
  have hnew : (t.set top (merge low high)).toList =
      (pre ++ low.toList) ++ (high.toList ++ post) := by
    rw [hs, toList_merge]
    simp
  have hold : t.toList = (pre ++ low.toList) ++ cur :: (high.toList ++ post) := by
    rw [hl]
    simp
  have hsp := ht.spaced
  rw [hold] at hsp
  refine ⟨?_, space_of_perm ?_⟩
  · unfold ClearOf
    rw [hnew]
    exact hsp.clear
  · rw [hold, hnew]
    exact List.perm_middle

/-- **Replacement.** Storing in the link to a block a subtree that holds what is
left of its children, and in its place a block that overlaps it and keeps clear
of the rest. -/
theorem TreeInv.relink {s : Tree} {cur' : FreePages} (ht : TreeInv t)
    (hg : t.get top = .node low cur high) (hp : Pruned low cur high low' high')
    (hs : s.toList = low'.toList ++ cur' :: high'.toList) (hheap : s.Heap FreePages.size)
    (hpar : ∀ b ∈ t.parent? top, Below FreePages.size b.size s) (hb : PageBlock cur')
    (hpos : 0 < cur'.size) (hmeet : cur'.start < cur.stop ∧ cur.start < cur'.stop)
    (hc : ClearOf (t.set top (merge low' high')) cur') :
    TreeInv (t.set top s) ∧
      space (t.set top s) =
        range cur'.start cur'.size ∪ space (t.set top (merge low' high')) := by
  have hrem := ht.remove hg hp
  obtain ⟨pre, post, hl, hset⟩ := exists_context hg
  have hnew : (t.set top s).toList =
      (pre ++ low'.toList) ++ cur' :: (high'.toList ++ post) := by
    rw [hset, hs]
    simp
  have hrest : (t.set top (merge low' high')).toList =
      (pre ++ low'.toList) ++ (high'.toList ++ post) := by
    rw [hset, toList_merge]
    simp
  have hold := ht.spaced
  rw [hl, show pre ++ (node low cur high).toList ++ post =
    (pre ++ low.toList) ++ cur :: (high.toList ++ post) by simp] at hold
  have hsp := hrem.spaced
  have hpage := hrem.page
  unfold ClearOf at hc
  rw [hrest] at hsp hpage hc
  have hperm : (t.set top s).toList.Perm (cur' :: (t.set top (merge low' high')).toList) := by
    rw [hnew, hrest]
    exact List.perm_middle
  refine ⟨⟨ht.heap.set hheap hpar, ?_, ?_⟩, space_of_perm hperm⟩
  · rw [hnew]
    refine hsp.insert (FreePages.start_lt_stop.mpr hpos) ?_ ?_
    · intro a ha
      have hbelow := hold.below a
        ((hp.low_sub.append_left pre).subset ha)
      have hapos := hsp.pos a (List.mem_append_left _ ha)
      rcases hc a (List.mem_append_left _ ha) with h | h
      · exact h
      · omega
    · intro b hb'
      have habove := hold.above b ((hp.high_sub.append_right post).subset hb')
      have hbpos := hsp.pos b (List.mem_append_right _ hb')
      rcases hc b (List.mem_append_right _ hb') with h | h
      · omega
      · exact h
  · intro c hcm
    rcases List.mem_cons.mp (hperm.subset hcm) with rfl | hcm
    · exact hb
    · rw [hrest] at hcm
      exact hpage c hcm

end Relink

end K42.PageAllocatorDefault
