import K42.Alloc.PageAllocatorRuns

/-!
# The block that allocPages chooses

`allocPages` rounds the size to pages in machine arithmetic and walks down from the root, to the
low child where that provides the size, or else to the high child where that does. On the way it
reroots subtrees at a low child of the same size.
-/

namespace K42.PageAllocatorDefault

open BinTree (Heap SearchTree Below)
open BinTree (first? first?_eq_none first?_node mem_of_get nil node searchTree_iff)
open FreePages (size start)

/-! ## Sizes of whole pages -/

/-- The size in whole pages, which may be one past the last word. -/
def rounded (size : ℕ) : ℕ := (size + (PAGE_SIZE - 1)) / PAGE_SIZE * PAGE_SIZE

theorem page_dvd_rounded (size : ℕ) : PAGE_SIZE ∣ rounded size := Dvd.intro_left _ rfl

theorem le_rounded (size : ℕ) : size ≤ rounded size := by
  unfold rounded PAGE_SIZE
  omega

theorem rounded_of_dvd {size : ℕ} (h : PAGE_SIZE ∣ size) : rounded size = size := by
  obtain ⟨m, rfl⟩ := h
  unfold rounded PAGE_SIZE
  omega

theorem pageRoundUp_of_pos {size : ℕ} (hpos : 0 < size) (hlt : size < UVAL) :
    pageRoundUp size = if rounded size < UVAL then rounded size else 0 := by
  have hsub : MachineWord.sub 64 size 1 = size - 1 := MachineWord.sub_of_le hlt hpos
  have hmask : PAGE_MASK = 2 ^ 12 - 1 := rfl
  rw [pageRoundUp, hsub, hmask]
  by_cases hroom : size - 1 + PAGE_SIZE < 2 ^ 64
  · have hround : rounded size < UVAL := by
      unfold rounded PAGE_SIZE at *
      norm_num at hroom ⊢
      omega
    rw [MachineWord.add_of_lt hroom, MachineWord.andNot_two_pow hroom (by decide), if_pos hround]
    unfold rounded PAGE_SIZE
    omega
  · have hround : ¬ rounded size < UVAL := by
      unfold rounded PAGE_SIZE at *
      norm_num at hroom ⊢
      omega
    rw [MachineWord.andNot_two_pow (MachineWord.add_lt _ _ _) (by decide), if_neg hround]
    unfold MachineWord.add PAGE_SIZE at *
    norm_num at hlt hroom ⊢
    omega

theorem pageRoundUp_rounded {size : ℕ} (hpos : 0 < size) (hlt : rounded size < UVAL) :
    pageRoundUp size = rounded size ∧ pageRoundUp (rounded size) = rounded size := by
  have hle := le_rounded size
  rw [pageRoundUp_of_pos hpos (by omega), pageRoundUp_of_pos (by omega) hlt,
    rounded_of_dvd (page_dvd_rounded size), if_pos hlt]
  exact ⟨rfl, rfl⟩

/-! ## The states reached -/

/-- Any size may be asked for of `allocPages`; other sizes count in whole pages. -/
def Requests (pa : PageAllocatorDefault) : Op → Prop
  | .allocPages size => 0 < size ∧ size < UVAL
  | .allocPagesAt vaddr size => RangeArg vaddr size
  | .allocPagesAligned size align offset => 0 < size ∧ AlignedArg pa (rounded size) align offset
  | .deallocPages vaddr size => 0 < size ∧ 0 < vaddr ∧ RangeArg vaddr (rounded size) ∧
      Apart vaddr (rounded size) pa.anchor.toList

def requests : Machine PageAllocatorDefault Op := ⟨step, Requests⟩

/-- The states that requests lead to from an initialisation. -/
def Reachable (pa : PageAllocatorDefault) : Prop :=
  ∃ start size pa₀ ops, RangeArg start size ∧ 0 < start ∧ 2 * PAGE_SIZE ≤ size ∧
    init start size = .ok pa₀ ∧ requests.Run pa₀ ops pa

theorem step_aligned_congr (pa : PageAllocatorDefault) {size size' : ℕ} (align offset : ℕ)
    (h : pageRoundUp size = pageRoundUp size') :
    pa.step (.allocPagesAligned size align offset) =
      pa.step (.allocPagesAligned size' align offset) := by
  have hcall : pa.allocPagesAligned size align offset =
      pa.allocPagesAligned size' align offset := by
    simp only [allocPagesAligned, h]
  unfold step exec
  simp only [hcall]
  cases pa.allocPagesAligned size' align offset <;> rfl

theorem step_dealloc_congr (pa : PageAllocatorDefault) {size size' : ℕ} (vaddr : ℕ)
    (h : pageRoundUp size = pageRoundUp size') :
    pa.step (.deallocPages vaddr size) = pa.step (.deallocPages vaddr size') := by
  have hcall : pa.deallocPages vaddr size = pa.deallocPages vaddr size' := by
    simp only [deallocPages, h]
  unfold step exec
  simp only [hcall]

theorem step_requests_inv {pa : PageAllocatorDefault} {op : Op} (hi : Inv pa)
    (h : Requests pa op) : Inv (pa.step op) := by
  cases op with
  | allocPages size =>
    have hdvd : PAGE_SIZE ∣ pageRoundUp size := by
      rw [pageRoundUp_of_pos h.1 h.2]
      split
      · exact page_dvd_rounded size
      · exact dvd_zero _
    rcases allocPages_round hi.tree hi.freeList rfl hdvd with herr | ⟨pa', v, hok, hal⟩
    · have hstep : pa.step (.allocPages size) = pa := by
        rw [step, exec, herr]
        rfl
      rw [hstep]
      exact hi
    · have hstep : pa.step (.allocPages size) = pa' := by
        rw [step, exec, hok]
        rfl
      rw [hstep]
      exact hal.inv hi
  | allocPagesAt vaddr size => exact step_inv hi h trivial
  | allocPagesAligned size align offset =>
    obtain ⟨hpos, ha⟩ := h
    obtain ⟨hround, hround'⟩ := pageRoundUp_rounded hpos ha.lt
    rw [step_aligned_congr pa align offset (hround.trans hround'.symm)]
    exact step_inv hi ⟨ha.toSizeArg, ha.align_page, ha.offset_page, ha.offset_lt, ha.align_lt⟩
      ha.no_wrap
  | deallocPages vaddr size =>
    obtain ⟨hpos, hv, harg, hapart⟩ := h
    obtain ⟨hround, hround'⟩ := pageRoundUp_rounded hpos harg.lt
    rw [step_dealloc_congr pa vaddr (hround.trans hround'.symm)]
    exact step_inv hi ⟨harg, hapart⟩ hv

theorem Reachable.inv {pa : PageAllocatorDefault} (h : Reachable pa) : Inv pa := by
  obtain ⟨start, size, pa₀, ops, harg, hstart, hsize, hinit, hrun⟩ := h
  obtain ⟨pa₁, hinit', hi, -⟩ := init_spec harg hstart hsize
  obtain rfl : pa₀ = pa₁ := Except.ok.inj (hinit.symm.trans hinit')
  exact hrun.invariant hi fun _ _ => step_requests_inv

/-! ## The walk -/

/-- The block fits. -/
def fitsSize (n : ℕ) (c : FreePages) : Bool := decide (n ≤ c.size)

theorem fitsSize_iff {n : ℕ} {c : FreePages} : fitsSize n c = true ↔ n ≤ c.size :=
  decide_eq_true_iff

/-- The root of the low subtree is not what the walk stops at, or it is smaller than its parent. -/
def rootKept (n : ℕ) (cur : FreePages) : Tree → Bool
  | .nil => true
  | .node ll next _ => provides ll n || decide (next.size ≠ cur.size)

/-- No block in the high subtree of the first block that fits does fit, and the parent of that
block is larger. -/
def settles (n : ℕ) : Tree → Bool
  | .nil => true
  | .node low cur high =>
    if provides low n then settles n low && rootKept n cur low else !provides high n

section Walk

variable {n : ℕ} {t low high : Tree} {cur : FreePages}

theorem not_provides (hh : t.Heap size) (hp : ¬ provides t n = true) :
    ∀ c ∈ t.toList, fitsSize n c = false := by
  intro c hc
  cases t with
  | nil => cases hc
  | node low cur high =>
    rw [provides_node, Nat.not_le] at hp
    have hle := hh.le_of_mem (n := cur.size) (by simp) c hc
    exact decide_eq_false (by omega)

theorem provides_iff (hh : t.Heap size) :
    provides t n = true ↔ ∃ c ∈ t.toList, n ≤ c.size := by
  constructor
  · intro hp
    cases t with
    | nil => cases hp
    | node low cur high => exact ⟨cur, by simp, provides_node.mp hp⟩
  · rintro ⟨c, hc, hle⟩
    by_contra hp
    have hnot := not_provides hh hp c hc
    rw [fitsSize_iff.mpr hle] at hnot
    cases hnot

theorem settles_of_not_provides (hh : t.Heap size) (hp : ¬ provides t n = true) :
    settles n t = true := by
  cases t with
  | nil => rfl
  | node low cur high =>
    have hchild : ∀ s : Tree, (∀ c ∈ s.toList, c ∈ (node low cur high).toList) →
        s.Heap size → ¬ provides s n = true := by
      intro s hsub hs hps
      obtain ⟨c, hc, hle⟩ := (provides_iff hs).mp hps
      exact hp ((provides_iff hh).mpr ⟨c, hsub c hc, hle⟩)
    rw [settles, if_neg (hchild low (by simp +contextual) hh.2.2.1)]
    simpa using hchild high (by simp +contextual) hh.2.2.2

theorem first?_root (hh : (node low cur high).Heap size)
    (hs : provides (node low cur high) n = true) (hlow : ¬ provides low n = true) :
    (node low cur high).first? (fitsSize n) = some cur := by
  rw [first?_node, first?_eq_none.mpr (not_provides hh.2.2.1 hlow),
    if_pos (fitsSize_iff.mpr (provides_node.mp hs))]
  rfl

theorem first?_low (hlow : provides low n = true) :
    (node low cur high).first? (fitsSize n) = low.first? (fitsSize n) := by
  cases low with
  | nil => cases hlow
  | node ll next lh =>
    obtain ⟨c, hc⟩ : ∃ c, (node ll next lh).first? (fitsSize n) = some c := by
      cases hf : (node ll next lh).first? (fitsSize n) with
      | none =>
        have hnot := first?_eq_none.mp hf next (by simp)
        rw [fitsSize_iff.mpr (provides_node.mp hlow)] at hnot
        cases hnot
      | some c => exact ⟨c, rfl⟩
    rw [first?_node, hc]
    rfl

theorem high_ne_root (hsort : (node low cur high).SearchTree start)
    (hh : high.Heap size) (hp : provides high n = true) :
    ((allocWalk n high).1.get (allocWalk n high).2).root? ≠ some cur := by
  obtain ⟨hl, -, -, l, c, h, hg, -⟩ := allocWalk_spec hh hp
  have hmem := mem_of_get hg
  rw [hl] at hmem
  rw [hg]
  intro heq
  obtain rfl : c = cur := Option.some.inj heq
  exact absurd (hsort.2.1 c hmem) (Nat.lt_irrefl _)

/-- Rerooting keeps what the walk settles at: if the low child is the first block that fits, its
old parent is now in its high subtree. -/
theorem settles_reroot {ll lh : Tree} {next : FreePages} (heq : next.size = cur.size)
    (hs : n ≤ cur.size) :
    settles n (.node (.node ll next lh) cur high) =
      settles n (.node ll next (.node lh cur high)) := by
  have hlow : provides (node ll next lh) n = true := provides_node.mpr (heq ▸ hs)
  have hhigh : provides (node lh cur high) n = true := provides_node.mpr hs
  rw [settles, if_pos hlow, settles, settles, rootKept, hhigh, heq]
  by_cases hll : provides ll n = true
  · have hkept : rootKept n next ll = rootKept n cur ll := by
      cases ll with
      | nil => rfl
      | node l c h => rw [rootKept, rootKept, heq]
    rw [if_pos hll, if_pos hll, hll]
    simp [hkept]
  · rw [if_neg hll, if_neg hll]
    simp [hll]

/-- **The walk** stops at the first block that fits exactly if it settles there. -/
theorem allocWalk_first (hh : t.Heap size) (hsort : t.SearchTree start)
    (hs : provides t n = true) :
    ((allocWalk n t).1.get (allocWalk n t).2).root? = t.first? (fitsSize n) ↔
      settles n t = true := by
  fun_induction allocWalk n t with
  | case1 => cases hs
  | case2 ll next lh cur high heq ih =>
    obtain ⟨hbl, hbh, ⟨hbll, hblh, hhll, hhlh⟩, hhh⟩ := hh
    have hfit : n ≤ cur.size := provides_node.mp hs
    have hlist : (node ll next (.node lh cur high)).toList =
        (node (.node ll next lh) cur high).toList := by simp
    have hfirst : (node (.node ll next lh) cur high).first? (fitsSize n) =
        (node ll next (.node lh cur high)).first? (fitsSize n) := by
      rw [first?, first?, hlist]
    rw [hfirst, settles_reroot heq hfit]
    refine ih ⟨hbll, by simpa using heq.ge, hhll, heq ▸ hblh, hbh, hhlh, hhh⟩ ?_
      (provides_node.mpr (heq ▸ hfit))
    rw [searchTree_iff, hlist, ← searchTree_iff]
    exact hsort
  | case3 ll next lh cur high hne hge r ih =>
    have hlow : provides (node ll next lh) n = true := provides_node.mpr hge
    have hkept : rootKept n cur (.node ll next lh) = true := by simp [rootKept, hne]
    rw [first?_low hlow, settles, if_pos hlow, hkept, Bool.and_true]
    exact ih hh.2.2.1 hsort.2.2.1 hlow
  | case4 ll next lh cur high hne hlt hp r ih =>
    have hlow : ¬ provides (node ll next lh) n = true := fun h => hlt (provides_node.mp h)
    rw [first?_root hh hs hlow, settles, if_neg hlow, hp]
    exact iff_of_false (high_ne_root hsort hh.2.2.2 hp) Bool.false_ne_true
  | case5 ll next lh cur high hne hlt hp =>
    have hlow : ¬ provides (node ll next lh) n = true := fun h => hlt (provides_node.mp h)
    rw [first?_root hh hs hlow, settles, if_neg hlow]
    exact iff_of_true rfl (by simpa using hp)
  | case6 cur high hp r ih =>
    have hlow : ¬ provides nil n = true := Bool.false_ne_true
    rw [first?_root hh hs hlow, settles, if_neg hlow, hp]
    exact iff_of_false (high_ne_root hsort hh.2.2.2 hp) Bool.false_ne_true
  | case7 cur high hp =>
    have hlow : ¬ provides nil n = true := Bool.false_ne_true
    rw [first?_root hh hs hlow, settles, if_neg hlow]
    exact iff_of_true rfl (by simpa using hp)

end Walk

/-! ## First fit -/

/-- The free block with the lowest address of those that have at least `n`. -/
def LowestFit (pa : PageAllocatorDefault) (n : ℕ) (c : FreePages) : Prop :=
  c ∈ pa.anchor.toList ∧ n ≤ c.size ∧ ∀ b ∈ pa.anchor.toList, n ≤ b.size → c.start ≤ b.start

/-- `allocPages` takes the lowest block that has the pages asked for, and fails if there is
none. A call that fails leaves the allocator alone. -/
def FirstFit (pa : PageAllocatorDefault) (size : ℕ) : Prop :=
  (∀ c, LowestFit pa (rounded size) c → ∃ pa', pa.allocPages size = .ok (pa', c.start)) ∧
    ((∀ c ∈ pa.anchor.toList, c.size < rounded size) →
      pa.allocPages size = .error (.serror 1474 0 .ENOMEM))

section FirstFit

variable {pa : PageAllocatorDefault} {size n : ℕ}

theorem Inv.searchTree (hi : Inv pa) : pa.anchor.SearchTree start := hi.represents.1

theorem Inv.first?_iff (hi : Inv pa) {c : FreePages} :
    pa.anchor.first? (fitsSize n) = some c ↔ LowestFit pa n c := by
  rw [BinTree.first?_eq_some_iff hi.searchTree]
  simp only [fitsSize_iff]
  rfl

theorem Inv.eq_of_start (hi : Inv pa) {b c : FreePages} (hb : b ∈ pa.anchor.toList)
    (hc : c ∈ pa.anchor.toList) (h : b.start = c.start) : b = c := by
  have hsorted := searchTree_iff.mp hi.searchTree
  have hnodup : (pa.anchor.toList.map start).Nodup :=
    List.pairwise_map.mpr (hsorted.imp Nat.ne_of_lt)
  exact List.inj_on_of_nodup_map hnodup hb hc h

theorem allocPages_start (ht : TreeInv pa.anchor) (hround : pageRoundUp size = n)
    (hp : provides pa.anchor n = true) :
    ∃ pa' cur, pa.allocPages size = .ok (pa', cur.start) ∧ cur ∈ pa.anchor.toList ∧
      ((allocWalk n pa.anchor).1.get (allocWalk n pa.anchor).2).root? = some cur := by
  obtain ⟨hl, -, -, low, cur, high, hg, -⟩ := allocWalk_spec ht.heap hp
  have hmem := mem_of_get hg
  rw [hl] at hmem
  simp only [allocPages, hround, if_pos hp, hg]
  split
  · exact ⟨_, cur, rfl, hmem, rfl⟩
  · exact ⟨_, cur, rfl, hmem, rfl⟩

theorem allocPages_none (hround : pageRoundUp size = n) (hp : ¬ provides pa.anchor n = true) :
    pa.allocPages size = .error (.serror 1474 0 .ENOMEM) := by
  rw [allocPages, hround]
  simp only [if_neg hp]

theorem Inv.firstFit_iff (hi : Inv pa) (hround : pageRoundUp size = rounded size) :
    FirstFit pa size ↔ settles (rounded size) pa.anchor = true := by
  generalize hn : rounded size = n at hround
  by_cases hp : provides pa.anchor n = true
  · obtain ⟨pa', cur, hok, hmem, hwalk⟩ := allocPages_start hi.tree hround hp
    rw [← allocWalk_first hi.tree.heap hi.searchTree hp, hwalk]
    obtain ⟨b, hb, hfits⟩ := (provides_iff hi.tree.heap).mp hp
    constructor
    · rintro ⟨hfit, -⟩
      cases hfirst : pa.anchor.first? (fitsSize n) with
      | none =>
        have hnot := first?_eq_none.mp hfirst b hb
        rw [fitsSize_iff.mpr hfits] at hnot
        cases hnot
      | some c =>
        -- the call returns the address of the first block, so it stopped at that block
        have hlowest := hi.first?_iff.mp hfirst
        obtain ⟨pa'', hok'⟩ := hfit c (by rw [hn]; exact hlowest)
        rw [hok] at hok'
        have hstart : cur.start = c.start := (Prod.mk.inj (Except.ok.inj hok')).2
        rw [hi.eq_of_start hmem hlowest.1 hstart]
    · intro hfirst
      refine ⟨fun c hc => ?_, fun hnone => ?_⟩
      · rw [hn] at hc
        rw [hi.first?_iff.mpr hc] at hfirst
        obtain rfl : cur = c := Option.some.inj hfirst
        exact ⟨pa', hok⟩
      · rw [hn] at hnone
        exact absurd hfits (Nat.not_le.mpr (hnone b hb))
  · refine iff_of_true ⟨fun c hc => ?_, fun _ => allocPages_none hround hp⟩
      (settles_of_not_provides hi.tree.heap hp)
    rw [hn] at hc
    exact absurd ((provides_iff hi.tree.heap).mpr ⟨c, hc.1, hc.2.1⟩) hp

theorem Inv.firstFit_wrap (hi : Inv pa) (hround : pageRoundUp size = 0)
    (hwrap : UVAL ≤ rounded size) : FirstFit pa size ↔ pa.anchor = .nil := by
  have hnone : ∀ c ∈ pa.anchor.toList, c.size < rounded size := fun c hc =>
    Nat.lt_of_lt_of_le (hi.tree.page c hc).size_lt hwrap
  constructor
  · rintro ⟨-, hfail⟩
    have herr := hfail hnone
    cases hanchor : pa.anchor with
    | nil => rfl
    | node low cur high =>
      have hp : provides pa.anchor 0 = true := by
        rw [hanchor]
        exact provides_node.mpr (Nat.zero_le _)
      obtain ⟨pa', cur, hok, -⟩ := allocPages_start hi.tree hround hp
      rw [hok] at herr
      cases herr
  · intro hnil
    refine ⟨fun c hc => absurd hc.2.1 (Nat.not_le.mpr (hnone c hc.1)), fun _ => ?_⟩
    refine allocPages_none hround ?_
    rw [hnil]
    exact nofun

end FirstFit

/-- In every state reached, `allocPages` is first fit exactly if the rounding does not wrap (or
nothing is free) and the walk settles at the lowest block that fits. -/
theorem allocPages_firstFit_iff {pa : PageAllocatorDefault} (h : Reachable pa) {size : ℕ}
    (hpos : 0 < size) (hlt : size < UVAL) :
    FirstFit pa size ↔
      (rounded size < UVAL ∨ pa.anchor = .nil) ∧ settles (rounded size) pa.anchor = true := by
  have hi := h.inv
  have hround := pageRoundUp_of_pos hpos hlt
  by_cases hwrap : rounded size < UVAL
  · rw [if_pos hwrap] at hround
    rw [hi.firstFit_iff hround]
    exact (and_iff_right (.inl hwrap)).symm
  · rw [if_neg hwrap] at hround
    rw [hi.firstFit_wrap hround (Nat.not_lt.mp hwrap)]
    constructor
    · intro hnil
      rw [hnil]
      exact ⟨.inr rfl, rfl⟩
    · exact fun hand => hand.1.resolve_left hwrap

/-- One page is taken out of the only block: a block of five pages and one of two remain. -/
def fiveAndTwo : PageAllocatorDefault := nineHeap.step (.allocPagesAt 0x16000 0x1000)

example : settles 0x3000 fiveAndTwo.anchor = true := by decide +kernel

theorem fiveAndTwo_reachable : Reachable fiveAndTwo := by
  refine ⟨0x10000, 0x9000, nineHeap, [.allocPagesAt 0x16000 0x1000], by decide, by decide,
    by decide, init_nineHeap, ?_⟩
  have harg : requests.adm nineHeap (.allocPagesAt 0x16000 0x1000) :=
    (by decide : RangeArg 0x16000 0x1000)
  exact .snoc .nil harg

/-- Three pages are only in the lower block, which the walk settles at. -/
theorem allocPages_firstFit_iff_fiveAndTwo :
    FirstFit fiveAndTwo 0x2800 ↔
      (rounded 0x2800 < UVAL ∨ fiveAndTwo.anchor = .nil) ∧
        settles (rounded 0x2800) fiveAndTwo.anchor = true :=
  allocPages_firstFit_iff fiveAndTwo_reachable (by decide) (by decide)

/-- A page comes from the upper block, though the lower one has it; and a size whose rounding
wraps is granted. -/
theorem not_firstFit_fiveAndTwo :
    (¬ ∀ (pa : PageAllocatorDefault) (size : ℕ), Reachable pa → 0 < size → size < UVAL →
      FirstFit pa size) ∧ ¬ FirstFit fiveAndTwo (UVAL - 1) := by
  refine ⟨fun h => ?_, fun h => ?_⟩
  swap
  · have hnil := (fiveAndTwo_reachable.inv.firstFit_wrap (by decide +kernel) (by decide)).mp h
    exact absurd hnil (by decide +kernel)
  obtain ⟨hfit, -⟩ := h fiveAndTwo 0x1000 fiveAndTwo_reachable (by decide) (by decide)
  have hlowest : LowestFit fiveAndTwo (rounded 0x1000) ⟨0x10020, 0x11000, 0x5000⟩ := by
    unfold LowestFit
    decide +kernel
  obtain ⟨pa', hok⟩ := hfit _ hlowest
  have hstart : (fiveAndTwo.allocPages 0x1000).map Prod.snd = .ok 0x17000 := by decide +kernel
  rw [hok] at hstart
  have heq : 0x11000 = 0x17000 := Except.ok.inj hstart
  exact absurd heq (by decide)

end K42.PageAllocatorDefault
