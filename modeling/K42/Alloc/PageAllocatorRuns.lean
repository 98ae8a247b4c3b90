import K42.Alloc.PageAllocatorSpec

/-!
# Runs of the page allocator

The invariant ties the tree, the count and the list of records together; every
admissible call keeps it. Two kinds of calls with page-multiple arguments are
left out: freeing a range at address `0`, which stands for "no fragment" inside
the allocator, and an aligned request whose rounding wraps around.
-/

namespace K42.PageAllocatorDefault

open Interval
open BinTree (Heap SearchTree)

/-! ## The calls -/

inductive Op
  | allocPages (size : ℕ)
  | allocPagesAt (vaddr size : ℕ)
  | allocPagesAligned (size align offset : ℕ)
  | deallocPages (vaddr size : ℕ)
deriving DecidableEq

/-- A call, with the range it hands out. -/
def exec (pa : PageAllocatorDefault) :
    Op → Except Failure (PageAllocatorDefault × Option (ℕ × ℕ))
  | .allocPages size => (pa.allocPages size).map fun r => (r.1, some (r.2, size))
  | .allocPagesAt vaddr size =>
    (pa.allocPagesAt vaddr size).map fun pa => (pa, some (vaddr, size))
  | .allocPagesAligned size align offset =>
    (pa.allocPagesAligned size align offset).map fun r => (r.1, some (r.2, size))
  | .deallocPages vaddr size => (pa.deallocPages vaddr size).map fun pa => (pa, none)

/-- The state after a call; a call that fails leaves it alone. -/
def step (pa : PageAllocatorDefault) (op : Op) : PageAllocatorDefault :=
  match pa.exec op with
  | .ok r => r.1
  | .error _ => pa

/-- Positive page-multiple sizes, page-aligned ranges that do not wrap, an offset
below the alignment, and only ranges freed that are not free. -/
def PageArgs (pa : PageAllocatorDefault) : Op → Prop
  | .allocPages size => SizeArg size
  | .allocPagesAt vaddr size => RangeArg vaddr size
  | .allocPagesAligned size align offset => SizeArg size ∧ PAGE_SIZE ∣ align ∧
      PAGE_SIZE ∣ offset ∧ offset < align ∧ align < UVAL
  | .deallocPages vaddr size => RangeArg vaddr size ∧ Apart vaddr size pa.anchor.toList

/-- No range at address `0` is freed, and no rounding or range end wraps in a
free block. -/
def Avoids (pa : PageAllocatorDefault) : Op → Prop
  | .allocPagesAligned size align offset => ∀ c ∈ pa.anchor.toList,
      c.start + align - offset - 1 < UVAL ∧ roundedAddr c.start align offset + size < UVAL
  | .deallocPages vaddr _ => 0 < vaddr
  | _ => True

def machine : Machine PageAllocatorDefault Op :=
  ⟨step, fun pa op => PageArgs pa op ∧ Avoids pa op⟩

instance (size : ℕ) : Decidable (SizeArg size) :=
  decidable_of_iff (0 < size ∧ size < UVAL ∧ PAGE_SIZE ∣ size)
    ⟨fun h => ⟨h.1, h.2.1, h.2.2⟩, fun h => ⟨h.pos, h.lt, h.page⟩⟩

instance (vaddr size : ℕ) : Decidable (RangeArg vaddr size) :=
  decidable_of_iff (SizeArg size ∧ PAGE_SIZE ∣ vaddr ∧ vaddr + size < UVAL)
    ⟨fun h => ⟨h.1, h.2.1, h.2.2⟩, fun h => ⟨h.toSizeArg, h.vaddr_page, h.no_wrap⟩⟩

instance (v s : ℕ) (l : List FreePages) : Decidable (Apart v s l) :=
  inferInstanceAs (Decidable (∀ c ∈ l, _))

instance (pa : PageAllocatorDefault) : ∀ op, Decidable (PageArgs pa op)
  | .allocPages size => inferInstanceAs (Decidable (SizeArg size))
  | .allocPagesAt vaddr size => inferInstanceAs (Decidable (RangeArg vaddr size))
  | .allocPagesAligned .. | .deallocPages .. => inferInstanceAs (Decidable (_ ∧ _))

instance (pa : PageAllocatorDefault) : ∀ op, Decidable (Avoids pa op)
  | .allocPages _ | .allocPagesAt .. => isTrue trivial
  | .allocPagesAligned .. => inferInstanceAs (Decidable (∀ _, _ → _))
  | .deallocPages _ _ => inferInstanceAs (Decidable (_ < _))

instance (pa : PageAllocatorDefault) (op : Op) : Decidable (machine.adm pa op) :=
  inferInstanceAs (Decidable (PageArgs pa op ∧ Avoids pa op))

/-! ## The invariant -/

/-- The tree is in order, the count is the number of free addresses, and there is
a record to spare. -/
structure Inv (pa : PageAllocatorDefault) : Prop where
  tree : TreeInv pa.anchor
  available : pa.available = (space pa.anchor).ncard
  freeList : pa.freeList ≠ []

theorem ncard_range (v s : ℕ) : (range v s).ncard = s := by
  rw [range, ← Finset.coe_Ico, Set.ncard_coe_finset, Nat.card_Ico]
  omega

theorem finite_range (v s : ℕ) : (range v s).Finite := Set.finite_Ico _ _

variable {S : Set ℕ} {v s : ℕ} {pa pa' : PageAllocatorDefault}

theorem sub_ncard_eq (hfin : S.Finite) (hlt : S.ncard < UVAL)
    (hsub : range v s ⊆ S) : MachineWord.sub 64 S.ncard s = (S \ range v s).ncard := by
  have hle := Set.ncard_le_ncard hsub hfin
  rw [ncard_range] at hle
  rw [Set.ncard_sdiff hsub (finite_range v s), ncard_range]
  exact MachineWord.sub_of_le hlt hle

/-- An account of a state whose count agrees with the space keeps the invariant. -/
theorem Accounted.inv {D : Set ℕ}
    (h : Accounted pa pa' S D) (hfin : S.Finite) (hlt : S.ncard < UVAL)
    (ha : pa.available = S.ncard) : Inv pa' := by
  refine ⟨h.tree, ?_, h.freeList⟩
  rw [h.space]
  rcases h.carved with ⟨rfl, -, hav⟩ | ⟨d, -, rfl, -, hav⟩
  · rw [hav, Set.sdiff_empty, ha]
  · rw [hav, ha, sub_ncard_eq hfin hlt h.subset]

theorem Inv.finite (hi : Inv pa) : (space pa.anchor).Finite :=
  hi.tree.ncard_space.1

theorem Allocated.inv (hi : Inv pa) (h : Allocated pa pa' v s) : Inv pa' := by
  obtain ⟨hsub, D, hacc⟩ := h
  refine hacc.inv (hi.finite.subset Set.sdiff_subset) ?_ ?_
  · exact Nat.lt_of_le_of_lt (Set.ncard_le_ncard Set.sdiff_subset hi.finite)
      hi.tree.ncard_space_lt
  · change MachineWord.sub 64 pa.available s = _
    rw [hi.available, sub_ncard_eq hi.finite hi.tree.ncard_space_lt hsub]

theorem Freed.inv (hi : Inv pa) (hv : 0 < v)
    (hw : v + s < UVAL) (hap : Apart v s pa.anchor.toList) (h : Freed pa pa' v s) :
    Inv pa' := by
  obtain ⟨D, hacc⟩ := h
  have hcard : (space pa.anchor ∪ range v s).ncard = (space pa.anchor).ncard + s := by
    rw [Set.ncard_union_eq hap.disjoint.symm hi.finite (finite_range v s), ncard_range]
  have hlt : (space pa.anchor ∪ range v s).ncard < UVAL := by
    refine ncard_lt_of_subset (Set.union_subset hi.tree.space_subset ?_)
    rintro x ⟨h1, h2⟩
    exact ⟨Nat.le_trans hv h1, Nat.lt_trans h2 hw⟩
  refine hacc.inv (hi.finite.union (finite_range v s)) hlt ?_
  change MachineWord.add 64 pa.available s = _
  rw [hcard] at hlt ⊢
  rw [hi.available]
  exact MachineWord.add_of_lt hlt

/-! ## Initialisation -/

/-- **Initialisation.** The first page becomes records, the rest is one block. -/
theorem init_spec {start size : ℕ} (harg : RangeArg start size) (hs : 0 < start)
    (h2 : 2 * PAGE_SIZE ≤ size) :
    ∃ pa, init start size = .ok pa ∧ Inv pa ∧ pa.carved = [start] ∧
      space pa.anchor = range start size \ range start PAGE_SIZE := by
  obtain ⟨q, hext, hqn, hqf, hqc, hqa⟩ := extendFreeList_nil ⟨.nil, [], size, []⟩ rfl start size
  match hfl : q.freeList with
  | [] => simp [hfl] at hqf
  | [_] => simp [hfl] at hqf
  | r :: r' :: rest =>
    have hle : PAGE_SIZE ≤ size := by omega
    have hb := harg.pageBlock hs r
    have hstart : MachineWord.add 64 start PAGE_SIZE = start + PAGE_SIZE := hb.start_add hle
    have hsize : MachineWord.sub 64 size PAGE_SIZE = size - PAGE_SIZE := hb.size_sub hle
    have hpos : 0 < (FreePages.drop ⟨r, start, size⟩ PAGE_SIZE).size := by
      change 0 < size - PAGE_SIZE
      have hpage : 0 < PAGE_SIZE := by decide
      omega
    obtain ⟨htree, hspace⟩ := treeInv_nil.add (hb.drop hle dvd_rfl) hpos (by simp [ClearOf, Clear])
    rw [space_nil, Set.union_empty] at hspace
    refine ⟨{ q with anchor := .node .nil (FreePages.drop ⟨r, start, size⟩ PAGE_SIZE) .nil,
                     freeList := r' :: rest }, ?_, ⟨htree, ?_, List.cons_ne_nil _ _⟩, hqc, ?_⟩
    · simp only [init, hext, hfl, hstart, hsize]
      rfl
    · change q.available = _
      rw [hqa, hsize]
      exact ((congrArg Set.ncard hspace).trans (ncard_range _ _)).symm
    · refine hspace.trans ?_
      ext x
      simp only [Set.mem_sdiff, mem_range, FreePages.drop]
      omega

/-! ## Every call -/

/-- **What a call does.** It fails for want of memory, or hands out a free range,
or frees one. -/
theorem exec_cases {op : Op} (hi : Inv pa) (hp : PageArgs pa op) (ha : Avoids pa op) :
    (∃ ec, pa.exec op = .error (.serror ec 0 .ENOMEM)) ∨
      (∃ pa' v s, pa.exec op = .ok (pa', some (v, s)) ∧ Allocated pa pa' v s) ∨
      ∃ pa' v s, op = .deallocPages v s ∧ pa.exec op = .ok (pa', none) ∧ Freed pa pa' v s := by
  cases op with
  | allocPages size =>
    rcases allocPages_spec hi.tree hi.freeList hp with h | ⟨pa', v, h, hal⟩
    · exact .inl ⟨1474, by rw [exec, h]; rfl⟩
    · exact .inr (.inl ⟨pa', v, size, by rw [exec, h]; rfl, hal⟩)
  | allocPagesAt vaddr size =>
    rcases allocPagesAt_spec hi.tree hi.freeList hp with h | ⟨pa', h, hal⟩
    · exact .inl ⟨1475, by rw [exec, h]; rfl⟩
    · exact .inr (.inl ⟨pa', vaddr, size, by rw [exec, h]; rfl, hal⟩)
  | allocPagesAligned size align offset =>
    obtain ⟨hs, hpa, hpo, hlt, hlt'⟩ := hp
    rcases allocPagesAligned_spec hi.tree hi.freeList ⟨hs, hpa, hpo, hlt, hlt', ha⟩ with
      h | ⟨pa', v, h, hal⟩
    · exact .inl ⟨1476, by rw [exec, h]; rfl⟩
    · exact .inr (.inl ⟨pa', v, size, by rw [exec, h]; rfl, hal⟩)
  | deallocPages vaddr size =>
    obtain ⟨pa', h, hf⟩ := deallocPages_spec hi.tree hi.freeList hp.1 ha hp.2
    exact .inr (.inr ⟨pa', vaddr, size, rfl, by rw [exec, h]; rfl, hf⟩)

/-- **Step.** Every admissible call keeps the invariant. -/
theorem step_inv {op : Op} (hi : Inv pa) (hp : PageArgs pa op)
    (ha : Avoids pa op) : Inv (pa.step op) := by
  unfold step
  rcases exec_cases hi hp ha with ⟨ec, h⟩ | ⟨pa', v, s, h, hal⟩ | ⟨pa', v, s, rfl, h, hf⟩
  · rw [h]
    exact hi
  · rw [h]
    exact hal.inv hi
  · rw [h]
    exact hf.inv hi ha hp.1.no_wrap hp.2

theorem run_inv {pa₀ : PageAllocatorDefault} {ops : List Op} (h₀ : Inv pa₀)
    (h : machine.Run pa₀ ops pa) : Inv pa := by
  refine h.invariant h₀ ?_
  rintro pa op hi ⟨hp, ha⟩
  exact step_inv hi hp ha

/-! ## The representation invariant -/

/-- Search tree on addresses, heap on sizes, nonempty page-aligned blocks that
neither overlap nor touch, and a count that is the sum of their sizes. -/
def Represents (pa : PageAllocatorDefault) : Prop :=
  pa.anchor.SearchTree FreePages.start ∧ pa.anchor.Heap FreePages.size ∧
    (∀ c ∈ pa.anchor.toList, 0 < c.size ∧ PAGE_SIZE ∣ c.start ∧ PAGE_SIZE ∣ c.size) ∧
    pa.anchor.toList.Pairwise (fun a b => a.start + a.size < b.start) ∧
    pa.available = (pa.anchor.toList.map FreePages.size).sum

theorem Inv.represents (hi : Inv pa) : Represents pa := by
  refine ⟨BinTree.searchTree_iff.mpr ?_, hi.tree.heap, ?_, ?_, ?_⟩
  · refine List.Pairwise.imp_of_mem ?_ hi.tree.spaced.apart
    intro a b ha _ hab
    have := hi.tree.spaced.pos a ha
    omega
  · intro c hc
    have hp := hi.tree.page c hc
    exact ⟨hi.tree.size_pos hc, hp.start_page, hp.size_page⟩
  · exact hi.tree.spaced.apart.imp fun hab => hab
  · rw [hi.available, hi.tree.ncard_space.2]

/-- **The page allocator's tree.** Initialisation succeeds, and after every run of
admissible calls from it the representation invariant holds. -/
theorem run_represents {start size : ℕ} (harg : RangeArg start size) (hs : 0 < start)
    (h2 : 2 * PAGE_SIZE ≤ size) :
    ∃ pa₀, init start size = .ok pa₀ ∧
      ∀ (ops : List Op) (pa : PageAllocatorDefault), machine.Run pa₀ ops pa → Represents pa := by
  obtain ⟨pa₀, h, hi, -⟩ := init_spec harg hs h2
  exact ⟨pa₀, h, fun ops pa hrun => (run_inv hi hrun).represents⟩

/-- The allocator after `init(0x10000, 0x9000)`. -/
def nineHeap : PageAllocatorDefault :=
  ⟨.node .nil ⟨0x10000, 0x11000, 0x8000⟩ .nil, (List.range 127).map (0x10020 + 32 * ·),
    0x8000, [0x10000]⟩

theorem init_nineHeap : init 0x10000 0x9000 = .ok nineHeap := by decide +kernel

/-- Two allocations that split the block, and a range freed between them. -/
def splitAndJoin : List Op :=
  [.allocPagesAt 0x13000 0x1000, .allocPagesAligned 0x1000 0x4000 0x2000,
    .deallocPages 0x13000 0x1000, .allocPages 0x2000]

theorem run_represents_splitAndJoin :
    machine.Admits nineHeap splitAndJoin ∧ Represents (splitAndJoin.foldl step nineHeap) := by
  have harg : RangeArg 0x10000 0x9000 := by decide
  obtain ⟨pa₀, h, hrun⟩ := run_represents harg (by decide) (by decide)
  obtain rfl : nineHeap = pa₀ := Except.ok.inj (init_nineHeap.symm.trans h)
  have hadm : machine.Admits nineHeap splitAndJoin := by decide +kernel
  exact ⟨hadm, hrun _ _ hadm.run⟩

/-- A block at address `0` loses the part in front of a range taken out of it. -/
def nullFront : List Op := [.deallocPages 0 0x4000, .allocPagesAt 0x2000 0x1000]

/-- Page-multiple arguments alone are not enough: freeing a range at address `0`
breaks the count. -/
theorem not_represents_of_null_range :
    ¬ ∀ (start size : ℕ) (pa₀ pa : PageAllocatorDefault) (ops : List Op),
      RangeArg start size → 0 < start → 2 * PAGE_SIZE ≤ size → init start size = .ok pa₀ →
      Machine.Run ⟨step, PageArgs⟩ pa₀ ops pa → Represents pa := by
  intro h
  have hadm : Machine.Admits ⟨step, PageArgs⟩ nineHeap nullFront := by decide +kernel
  obtain ⟨-, -, -, -, hsum⟩ := h 0x10000 0x9000 nineHeap _ nullFront (by decide) (by decide)
    (by decide) init_nineHeap hadm.run
  revert hsum
  decide +kernel

/-! ## Who owns which page -/

/-- From `pa` to `pa'` the addresses `D` went to records: none, or one page. -/
def OnePage (pa pa' : PageAllocatorDefault) (D : Set ℕ) : Prop :=
  (D = ∅ ∧ pa'.carved = pa.carved) ∨
    ∃ d, PAGE_SIZE ∣ d ∧ D = range d PAGE_SIZE ∧ pa'.carved = d :: pa.carved

/-- A call that hands out `[v, v + s)`: it was free, and what stays free is the
rest, up to a page of records. -/
def HandsOut (pa pa' : PageAllocatorDefault) (v s : ℕ) : Prop :=
  range v s ⊆ space pa.anchor ∧ ∃ D, OnePage pa pa' D ∧
    D ⊆ space pa.anchor \ range v s ∧ space pa'.anchor = (space pa.anchor \ range v s) \ D

/-- A call that takes `[v, v + s)` back. -/
def TakesBack (pa pa' : PageAllocatorDefault) (v s : ℕ) : Prop :=
  ∃ D, OnePage pa pa' D ∧ D ⊆ space pa.anchor ∪ range v s ∧
    space pa'.anchor = (space pa.anchor ∪ range v s) \ D

theorem Accounted.onePage {D : Set ℕ} (h : Accounted pa pa' S D) : OnePage pa pa' D := by
  rcases h.carved with ⟨hD, hc, -⟩ | ⟨d, hd, hD, hc, -⟩
  · exact .inl ⟨hD, hc⟩
  · exact .inr ⟨d, hd, hD, hc⟩

theorem Allocated.handsOut (h : Allocated pa pa' v s) : HandsOut pa pa' v s := by
  obtain ⟨hsub, D, hacc⟩ := h
  exact ⟨hsub, D, hacc.onePage, hacc.subset, hacc.space⟩

theorem Freed.takesBack (h : Freed pa pa' v s) : TakesBack pa pa' v s := by
  obtain ⟨D, hacc⟩ := h
  exact ⟨D, hacc.onePage, hacc.subset, hacc.space⟩

/-- The allocator with the allocations that are still outstanding: the addresses
of each that have not been freed since. -/
structure Ledger where
  pa : PageAllocatorDefault
  outstanding : List (Set ℕ)

namespace Ledger

def step (l : Ledger) (op : Op) : Ledger :=
  match l.pa.exec op, op with
  | .ok (pa', some (v, s)), _ => ⟨pa', range v s :: l.outstanding⟩
  | .ok (pa', none), .deallocPages v s => ⟨pa', l.outstanding.map (· \ range v s)⟩
  | .ok (pa', none), _ => ⟨pa', l.outstanding⟩
  | .error _, _ => l

/-- Nor is a page of records freed. -/
def KeepsRecords (pa : PageAllocatorDefault) : Op → Prop
  | .deallocPages v s => ∀ d ∈ pa.carved, d + PAGE_SIZE ≤ v ∨ v + s ≤ d
  | _ => True

variable {v s : ℕ} {pa' : PageAllocatorDefault} {l : Ledger}

theorem disjoint_range {d n : ℕ} (h : d + n ≤ v ∨ v + s ≤ d) :
    Disjoint (range v s) (range d n) := by
  rw [Set.disjoint_left]
  rintro x ⟨h1, h2⟩ ⟨h3, h4⟩
  omega

instance (pa : PageAllocatorDefault) : ∀ op, Decidable (KeepsRecords pa op)
  | .allocPages _ | .allocPagesAt .. | .allocPagesAligned .. => isTrue trivial
  | .deallocPages .. => inferInstanceAs (Decidable (∀ _, _ → _))

def machine : Machine Ledger Op :=
  ⟨step, fun l op => PageArgs l.pa op ∧ Avoids l.pa op ∧ KeepsRecords l.pa op⟩

instance (l : Ledger) (op : Op) : Decidable (machine.adm l op) :=
  inferInstanceAs (Decidable (PageArgs l.pa op ∧ Avoids l.pa op ∧ KeepsRecords l.pa op))

/-- Free space, outstanding allocations and pages of records are apart. -/
structure Inv (l : Ledger) : Prop where
  pa : PageAllocatorDefault.Inv l.pa
  disjoint : l.outstanding.Pairwise Disjoint
  free : ∀ A ∈ l.outstanding, Disjoint A (space l.pa.anchor)
  records : ∀ A ∈ l.outstanding, ∀ d ∈ l.pa.carved, Disjoint A (range d PAGE_SIZE)
  carved : ∀ d ∈ l.pa.carved, Disjoint (range d PAGE_SIZE) (space l.pa.anchor)

/-- A set disjoint from the pages of records before is disjoint from those after,
if it is disjoint from the page carved. -/
theorem disjoint_records {pa : PageAllocatorDefault} {D A : Set ℕ}
    (h : OnePage pa pa' D) (hA : ∀ d ∈ pa.carved, Disjoint A (range d PAGE_SIZE))
    (hD : Disjoint A D) : ∀ d ∈ pa'.carved, Disjoint A (range d PAGE_SIZE) := by
  rcases h with ⟨-, hc⟩ | ⟨d, -, rfl, hc⟩
  · rw [hc]
    exact hA
  · rw [hc]
    intro e he
    rcases List.mem_cons.mp he with rfl | he
    · exact hD
    · exact hA e he

theorem records_disjoint {pa : PageAllocatorDefault} {D S : Set ℕ}
    (h : OnePage pa pa' D) (hS : ∀ d ∈ pa.carved, Disjoint (range d PAGE_SIZE) S) :
    ∀ d ∈ pa'.carved, Disjoint (range d PAGE_SIZE) (S \ D) := by
  have hold : ∀ d ∈ pa.carved, Disjoint (range d PAGE_SIZE) (S \ D) := fun d hd =>
    (hS d hd).mono_right Set.sdiff_subset
  rcases h with ⟨-, hc⟩ | ⟨d, -, rfl, hc⟩
  · rw [hc]
    exact hold
  · rw [hc]
    intro e he
    rcases List.mem_cons.mp he with rfl | he
    · exact Set.disjoint_sdiff_right
    · exact hold e he

theorem Inv.handsOut (hi : Inv l) (hpa : PageAllocatorDefault.Inv pa') (h : HandsOut l.pa pa' v s) :
    Inv ⟨pa', range v s :: l.outstanding⟩ := by
  obtain ⟨hsub, D, hone, hD, hspace⟩ := h
  have hDfree : D ⊆ space l.pa.anchor := hD.trans Set.sdiff_subset
  have hnew : Disjoint (range v s) D :=
    Set.disjoint_sdiff_right.mono_right hD
  refine ⟨hpa, List.pairwise_cons.mpr ⟨?_, hi.disjoint⟩, ?_, ?_, ?_⟩
  · intro A hA
    exact (hi.free A hA).symm.mono_left hsub
  · intro A hA
    rw [hspace]
    rcases List.mem_cons.mp hA with rfl | hA
    · exact Set.disjoint_sdiff_right.mono_right Set.sdiff_subset
    · exact (hi.free A hA).mono_right (Set.sdiff_subset.trans Set.sdiff_subset)
  · intro A hA
    rcases List.mem_cons.mp hA with rfl | hA
    · exact disjoint_records hone (fun d hd => (hi.carved d hd).symm.mono_left hsub) hnew
    · exact disjoint_records hone (hi.records A hA) ((hi.free A hA).mono_right hDfree)
  · rw [hspace]
    exact records_disjoint hone fun d hd => (hi.carved d hd).mono_right Set.sdiff_subset

theorem Inv.takesBack (hi : Inv l) (hpa : PageAllocatorDefault.Inv pa') (h : TakesBack l.pa pa' v s)
    (hrec : ∀ d ∈ l.pa.carved, Disjoint (range v s) (range d PAGE_SIZE)) :
    Inv ⟨pa', l.outstanding.map (· \ range v s)⟩ := by
  obtain ⟨D, hone, hD, hspace⟩ := h
  have hrest : ∀ A ∈ l.outstanding,
      Disjoint (A \ range v s) (space l.pa.anchor ∪ range v s) := by
    intro A hA
    exact Set.disjoint_union_right.mpr
      ⟨(hi.free A hA).mono_left Set.sdiff_subset, Set.disjoint_sdiff_left⟩
  refine ⟨hpa, ?_, ?_, ?_, ?_⟩
  · refine List.pairwise_map.mpr (hi.disjoint.imp ?_)
    intro A B hAB
    exact hAB.mono Set.sdiff_subset Set.sdiff_subset
  · intro B hB
    obtain ⟨A, hA, rfl⟩ := List.mem_map.mp hB
    rw [hspace]
    exact (hrest A hA).mono_right Set.sdiff_subset
  · intro B hB
    obtain ⟨A, hA, rfl⟩ := List.mem_map.mp hB
    exact disjoint_records hone
      (fun d hd => (hi.records A hA d hd).mono_left Set.sdiff_subset)
      ((hrest A hA).mono_right hD)
  · rw [hspace]
    refine records_disjoint hone ?_
    intro d hd
    exact Set.disjoint_union_right.mpr ⟨hi.carved d hd, (hrec d hd).symm⟩

/-- **Step.** Every admissible call keeps the ledger. -/
theorem step_inv {op : Op} (hi : Inv l) (ha : machine.adm l op) :
    Inv (l.step op) := by
  obtain ⟨hp, hav, hrec⟩ := ha
  unfold step
  rcases exec_cases hi.pa hp hav with ⟨ec, h⟩ | ⟨pa', v, s, h, hal⟩ | ⟨pa', v, s, rfl, h, hf⟩
  · rw [h]
    exact hi
  · rw [h]
    exact hi.handsOut (hal.inv hi.pa) hal.handsOut
  · rw [h]
    exact hi.takesBack (hf.inv hi.pa hav hp.1.no_wrap hp.2) hf.takesBack
      fun d hd => disjoint_range (hrec d hd)

end Ledger

/-- **No page has two owners and none is lost.** In every state reached, each call
that hands out a range or takes one back moves exactly that range between the
free space and the caller, up to one page that becomes records, and the
outstanding allocations are disjoint from each other and from the records. -/
theorem run_owners {start size : ℕ} (harg : RangeArg start size) (hs : 0 < start)
    (h2 : 2 * PAGE_SIZE ≤ size) :
    ∃ pa₀, init start size = .ok pa₀ ∧
      ∀ (ops : List Op) (l : Ledger), Ledger.machine.Run ⟨pa₀, []⟩ ops l →
        (∀ op pa' v s, Ledger.machine.adm l op → l.pa.exec op = .ok (pa', some (v, s)) →
          HandsOut l.pa pa' v s) ∧
        (∀ v s, Ledger.machine.adm l (.deallocPages v s) →
          ∃ pa', l.pa.exec (.deallocPages v s) = .ok (pa', none) ∧ TakesBack l.pa pa' v s) ∧
        l.outstanding.Pairwise Disjoint ∧
        ∀ A ∈ l.outstanding, ∀ d ∈ l.pa.carved, Disjoint A (range d PAGE_SIZE) := by
  obtain ⟨pa₀, h, hi, hc, hsp⟩ := init_spec harg hs h2
  refine ⟨pa₀, h, ?_⟩
  intro ops l hrun
  have hl : Ledger.Inv l := by
    refine hrun.invariant ⟨hi, .nil, by simp, by simp, ?_⟩ fun _ _ => Ledger.step_inv
    intro d hd
    rw [hc] at hd
    obtain rfl := List.mem_singleton.mp hd
    rw [hsp]
    exact Set.disjoint_sdiff_right
  refine ⟨?_, ?_, hl.disjoint, hl.records⟩
  · rintro op pa' v s ⟨hp, hav, -⟩ hex
    rcases exec_cases hl.pa hp hav with ⟨ec, h'⟩ | ⟨q, v', s', h', hal⟩ | ⟨q, v', s', rfl, h', -⟩
    · rw [h'] at hex
      cases hex
    · rw [h'] at hex
      obtain ⟨rfl, hr⟩ := Prod.mk.inj (Except.ok.inj hex)
      obtain ⟨rfl, rfl⟩ := Prod.mk.inj (Option.some.inj hr)
      exact hal.handsOut
    · rw [h'] at hex
      cases hex
  · rintro v s ⟨hp, hav, -⟩
    obtain ⟨pa', h', hf⟩ := deallocPages_spec hl.pa.tree hl.pa.freeList hp.1 hav hp.2
    exact ⟨pa', by rw [exec, h']; rfl, hf.takesBack⟩

/-- Two allocations, one of which is returned. -/
def lendAndReturn : List Op :=
  [.allocPages 0x2000, .allocPagesAt 0x15000 0x1000, .deallocPages 0x11000 0x2000]

theorem run_owners_lendAndReturn :
    Ledger.machine.Admits ⟨nineHeap, []⟩ lendAndReturn ∧
      (lendAndReturn.foldl Ledger.step ⟨nineHeap, []⟩).outstanding.Pairwise Disjoint := by
  have harg : RangeArg 0x10000 0x9000 := by decide
  obtain ⟨pa₀, h, hrun⟩ := run_owners harg (by decide) (by decide)
  obtain rfl : nineHeap = pa₀ := Except.ok.inj (init_nineHeap.symm.trans h)
  have hadm : Ledger.machine.Admits ⟨nineHeap, []⟩ lendAndReturn := by decide +kernel
  exact ⟨hadm, (hrun _ _ hadm.run).2.2.1⟩

/-- Page-multiple arguments alone lose pages: from a block at address `0` the
part in front of a range taken out of it is gone, and no page was carved. -/
theorem not_handsOut_of_null_range :
    ¬ ∀ (start size : ℕ) (pa₀ pa pa' : PageAllocatorDefault) (ops : List Op) (op : Op)
      (v s : ℕ), RangeArg start size → 0 < start → 2 * PAGE_SIZE ≤ size →
      init start size = .ok pa₀ → Machine.Run ⟨step, PageArgs⟩ pa₀ ops pa →
      PageArgs pa op → pa.exec op = .ok (pa', some (v, s)) → HandsOut pa pa' v s := by
  intro h
  have hadm : Machine.Admits ⟨step, PageArgs⟩ nineHeap [.deallocPages 0 0x4000] := by
    decide +kernel
  obtain ⟨-, D, hone, -, hspace⟩ := h 0x10000 0x9000 nineHeap (nineHeap.step (.deallocPages 0 0x4000))
    (nullFront.foldl step nineHeap) _ (.allocPagesAt 0x2000 0x1000) 0x2000 0x1000 (by decide)
    (by decide) (by decide) init_nineHeap hadm.run (by decide +kernel) (by decide +kernel)
  have hcarved : (nullFront.foldl step nineHeap).carved =
      (nineHeap.step (.deallocPages 0 0x4000)).carved := by decide +kernel
  have hD : D = ∅ := by
    rcases hone with ⟨hD, -⟩ | ⟨d, -, -, hc⟩
    · exact hD
    · rw [hcarved] at hc
      exact absurd hc (by simp)
  have hmem : 0 ∈ space (nineHeap.step (.deallocPages 0 0x4000)).anchor :=
    ⟨⟨0x10020, 0, 0x4000⟩, by decide +kernel, by decide, by decide⟩
  have hlost : ∀ c ∈ (nullFront.foldl step nineHeap).anchor.toList, ¬ (c.start ≤ 0 ∧ 0 < c.stop) := by
    decide +kernel
  have hkept : 0 ∈ space (nullFront.foldl step nineHeap).anchor := by
    rw [hspace, hD, Set.sdiff_empty]
    exact ⟨hmem, by simp [range]⟩
  obtain ⟨c, hc, h1, h2⟩ := hkept
  exact hlost c hc ⟨h1, h2⟩

end K42.PageAllocatorDefault
