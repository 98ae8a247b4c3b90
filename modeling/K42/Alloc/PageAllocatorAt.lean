import K42.Alloc.PageAllocatorFit

/-!
# What allocPagesAt takes

`allocPagesAt` takes the size as it is: it is not rounded to pages, and the end of the range is
computed in machine arithmetic. A size that is no page multiple leaves a block that is ragged,
neither starting at a page nor ending a page multiple later.
-/

namespace K42.PageAllocatorDefault

open BinTree (Path)
open Interval

/-! ## The search -/

section Search

variable {t : Tree} {v s : ℕ} {c : FreePages}

/-- The address is in the block. -/
def Holds (v : ℕ) (c : FreePages) : Prop := c.start ≤ v ∧ v < c.stop

theorem findAt_none (ht : ∀ c ∈ t.toList, PageBlock c) (h : ∀ c ∈ t.toList, ¬ Holds v c) :
    findAt v s t = none := by
  induction t with
  | nil => rfl
  | node low cur high ihl ihh =>
    have hcur : ¬ (cur.start ≤ v ∧ cur.bound > v) := by
      rw [(ht cur (by simp)).bound_eq]
      exact h cur (by simp)
    have hlow := ihl (fun c hc => ht c (by simp [hc])) fun c hc => h c (by simp [hc])
    have hhigh := ihh (fun c hc => ht c (by simp [hc])) fun c hc => h c (by simp [hc])
    rw [findAt, if_neg hcur, hlow, hhigh]
    split <;> rfl

theorem findAt_holds (hsp : Spaced FreePages.start FreePages.stop 1 t.toList)
    (hpage : ∀ c ∈ t.toList, PageBlock c) (hc : c ∈ t.toList) (hv : Holds v c) :
    ∃ top low high, t.get top = .node low c high ∧
      findAt v s t = if MachineWord.add 64 v s ≤ c.stop then some top else none := by
  induction t with
  | nil => cases hc
  | node low cur high ihl ihh =>
    have hbound : cur.bound = cur.stop := (hpage cur (by simp)).bound_eq
    rw [findAt, hbound]
    by_cases hcur : Holds v cur
    · obtain rfl := hsp.eq_of_mem (by simp) hc hcur hv
      have hcur' : cur.start ≤ v ∧ cur.stop > v := hcur
      rw [if_pos hcur']
      exact ⟨[], low, high, rfl, rfl⟩
    · have hcur' : ¬ (cur.start ≤ v ∧ cur.stop > v) := hcur
      rw [if_neg hcur']
      rw [BinTree.toList_node] at hsp
      obtain ⟨hspl, hspr, -⟩ := Spaced.append_iff.mp hsp
      obtain ⟨hpos, hsph, -⟩ := Spaced.cons_iff.mp hspr
      rw [BinTree.toList_node, List.mem_append, List.mem_cons] at hc
      rcases hc with hc | rfl | hc
      · -- the blocks of the low subtree end before the root
        have hgt : cur.start > v := by
          have hbelow := hsp.below c hc
          have hstop := hv.2
          omega
        obtain ⟨top, l, h, hg, hfind⟩ := ihl hspl (fun c hc => hpage c (by simp [hc])) hc
        rw [if_pos hgt, hfind]
        refine ⟨.low :: top, l, h, hg, ?_⟩
        split <;> rfl
      · exact absurd hv hcur
      · have hgt : ¬ cur.start > v := by
          have habove := hsp.above c hc
          have hstart := hv.1
          omega
        obtain ⟨top, l, h, hg, hfind⟩ := ihh hsph (fun c hc => hpage c (by simp [hc])) hc
        rw [if_neg hgt, hfind]
        refine ⟨.high :: top, l, h, hg, ?_⟩
        split <;> rfl

end Search

/-! ## The range is always taken -/

theorem takeRecord_ok (pa : PageAllocatorDefault) (hfl : pa.freeList ≠ []) (vaddr size : ℕ) :
    ∃ r, pa.takeRecord vaddr size = .ok r ∧
      (r.2.1.carved = pa.carved ∨ pa.freeList.length = 1) := by
  match hf : pa.freeList with
  | [] => exact absurd hf hfl
  | [r] =>
    refine ⟨(r, extendFreeList { pa with freeList := [] } vaddr size), ?_, .inr rfl⟩
    simp only [takeRecord, hf]
  | r :: r' :: rest =>
    refine ⟨(r, { pa with freeList := r' :: rest }, vaddr, size), ?_, .inl rfl⟩
    simp only [takeRecord, hf]

theorem allocFromBlock_ok {pa : PageAllocatorDefault} {top : Path} {low high : Tree}
    {cur : FreePages} (hfl : pa.freeList ≠ []) (hg : pa.anchor.get top = .node low cur high)
    (vaddr size : ℕ) :
    ∃ pa', pa.allocFromBlock top vaddr size = .ok pa' ∧
      (pa'.carved = pa.carved ∨ pa.freeList.length = 1) := by
  simp only [allocFromBlock, hg]
  generalize (if vaddr > cur.start then cur.start else 0) = extraaddr
  generalize MachineWord.sub 64 vaddr cur.start = extrasize
  split
  · split
    · -- a piece on both sides
      obtain ⟨r, htake, hcarved⟩ := takeRecord_ok
        { pa with anchor := add (pa.anchor.set top (merge low high)) ⟨cur.self,
            MachineWord.add 64 vaddr size,
            MachineWord.sub 64 cur.bound (MachineWord.add 64 vaddr size)⟩ } hfl extraaddr extrasize
      rw [htake]
      exact ⟨_, rfl, hcarved⟩
    · exact ⟨_, rfl, .inl rfl⟩
  · split
    · exact ⟨_, rfl, .inl rfl⟩
    · exact ⟨_, rfl, .inl rfl⟩

/-! ## Ragged blocks -/

/-- The block neither starts at a page nor is a page multiple long. -/
def Ragged (c : FreePages) : Prop := ¬ PAGE_SIZE ∣ c.start ∧ ¬ PAGE_SIZE ∣ c.size

def HasRagged (t : Tree) : Prop := ∃ c ∈ t.toList, Ragged c

section Ragged

variable {s : ℕ} {c : FreePages}

theorem HasRagged.add {t : Tree} (h : HasRagged t) (n : FreePages) :
    HasRagged (PageAllocatorDefault.add t n) := by
  obtain ⟨c, hc, hragged⟩ := h
  exact ⟨c, mem_add.mpr (.inr hc), hragged⟩

theorem Ragged.cut (h : Ragged c) :
    Ragged { c with start := MachineWord.add 64 c.start PAGE_SIZE,
                    size := MachineWord.sub 64 c.size PAGE_SIZE } := by
  have hword : PAGE_SIZE ∣ 2 ^ 64 := by decide
  have hless : PAGE_SIZE ∣ 2 ^ 64 - PAGE_SIZE := by decide
  constructor
  · show ¬ PAGE_SIZE ∣ (c.start + PAGE_SIZE) % 2 ^ 64
    rw [Nat.dvd_mod_iff hword, Nat.dvd_add_left (dvd_refl PAGE_SIZE)]
    exact h.1
  · show ¬ PAGE_SIZE ∣ (c.size + (2 ^ 64 - PAGE_SIZE)) % 2 ^ 64
    rw [Nat.dvd_mod_iff hword, Nat.dvd_add_left hless]
    exact h.2

theorem HasRagged.extendFreeList {pa : PageAllocatorDefault} (h : HasRagged pa.anchor)
    (vaddr size : ℕ) : HasRagged (pa.extendFreeList vaddr size).1.anchor := by
  have hne : pa.anchor ≠ .nil := by
    rintro hnil
    obtain ⟨c, hc, -⟩ := h
    rw [hnil] at hc
    cases hc
  obtain ⟨cur, high, post, hg, hl, hset⟩ := BinTree.get_lowPath hne
  obtain ⟨c, hc, hragged⟩ := h
  rw [hl, List.mem_append, List.mem_cons, or_assoc, ← List.mem_append] at hc
  simp only [PageAllocatorDefault.extendFreeList, hg]
  split
  · rename_i hpage
    rcases hc with rfl | hc
    · exact absurd hpage.symm.dvd hragged.2
    · refine ⟨c, ?_, hragged⟩
      show c ∈ (pa.anchor.set pa.anchor.lowPath high).toList
      rw [hset]
      exact hc
  · split
    · rcases hc with rfl | hc
      · exact ⟨_, mem_add.mpr (.inl rfl), hragged.cut⟩
      · refine ⟨c, mem_add.mpr (.inr ?_), hragged⟩
        rw [hset]
        exact hc
    · rcases hc with rfl | hc
      · refine ⟨_, ?_, hragged.cut⟩
        show _ ∈ (pa.anchor.set pa.anchor.lowPath (.node .nil _ high)).toList
        rw [hset]
        exact List.mem_append_left _ List.mem_cons_self
      · refine ⟨c, ?_, hragged⟩
        show _ ∈ (pa.anchor.set pa.anchor.lowPath (.node .nil _ high)).toList
        rw [hset]
        exact List.mem_cons_of_mem _ hc

theorem HasRagged.takeRecord {pa : PageAllocatorDefault} (h : HasRagged pa.anchor)
    {vaddr size : ℕ} {r : ℕ × PageAllocatorDefault × ℕ × ℕ}
    (htake : pa.takeRecord vaddr size = .ok r) : HasRagged r.2.1.anchor := by
  unfold PageAllocatorDefault.takeRecord at htake
  split at htake
  · cases htake
  · cases htake
    have hempty : HasRagged { pa with freeList := [] }.anchor := h
    exact hempty.extendFreeList vaddr size
  · cases htake
    exact h

end Ragged

theorem allocFromBlock_ragged {pa pa' : PageAllocatorDefault} {top : Path} {low high : Tree}
    {cur : FreePages} {vaddr size : ℕ} (hb : PageBlock cur)
    (hg : pa.anchor.get top = .node low cur high) (hv : PAGE_SIZE ∣ vaddr)
    (hs : ¬ PAGE_SIZE ∣ size) (hend : vaddr + size ≤ cur.stop)
    (hok : pa.allocFromBlock top vaddr size = .ok pa') : HasRagged pa'.anchor := by
  have hadd : MachineWord.add 64 vaddr size = vaddr + size :=
    MachineWord.add_of_lt (Nat.lt_of_le_of_lt hend hb.stop_lt)
  have hsub : MachineWord.sub 64 cur.bound (vaddr + size) = cur.stop - (vaddr + size) := by
    rw [hb.bound_eq]
    exact MachineWord.sub_of_le hb.stop_lt hend
  have hstop : PAGE_SIZE ∣ cur.stop := (Nat.dvd_add_right hb.start_page).mpr hb.size_page
  have hstart : ¬ PAGE_SIZE ∣ vaddr + size := by
    rw [Nat.dvd_add_right hv]
    exact hs
  have hrest : ¬ PAGE_SIZE ∣ cur.stop - (vaddr + size) := by
    intro hdvd
    have hsum := Nat.dvd_sub hstop hdvd
    rw [Nat.sub_sub_self hend] at hsum
    exact hstart hsum
  have hne : cur.stop - (vaddr + size) ≠ 0 := by
    intro hzero
    rw [hzero] at hrest
    exact hrest (dvd_zero _)
  simp only [allocFromBlock, hg, hadd, hsub, if_pos hne] at hok
  -- the block behind the range
  have hafter : HasRagged (add (pa.anchor.set top (merge low high))
      ⟨cur.self, vaddr + size, cur.stop - (vaddr + size)⟩) :=
    ⟨_, mem_add.mpr (.inl rfl), hstart, hrest⟩
  generalize (if vaddr > cur.start then cur.start else 0) = extraaddr at hok
  generalize MachineWord.sub 64 vaddr cur.start = extrasize at hok
  split at hok
  · cases htake : PageAllocatorDefault.takeRecord { pa with
        anchor := add (pa.anchor.set top (merge low high))
          ⟨cur.self, vaddr + size, cur.stop - (vaddr + size)⟩ } extraaddr extrasize with
    | error e =>
      rw [htake] at hok
      cases hok
    | ok r =>
      rw [htake] at hok
      cases hok
      exact (HasRagged.takeRecord hafter htake).add _
  · cases hok
    exact hafter

/-! ## The range of a request -/

/-- The call takes exactly the range out of the free space; only where the last record is used a
further page becomes records. -/
def Removes (pa pa' : PageAllocatorDefault) (v s : ℕ) : Prop :=
  range v s ⊆ space pa.anchor ∧
    (space pa'.anchor = space pa.anchor \ range v s ∨
      pa.freeList.length = 1 ∧ ∃ d, PAGE_SIZE ∣ d ∧ range d PAGE_SIZE ⊆ space pa.anchor \ range v s ∧
        space pa'.anchor = (space pa.anchor \ range v s) \ range d PAGE_SIZE ∧
        pa'.carved = d :: pa.carved)

/-- `allocPagesAt` succeeds exactly if the pages lie in one free block, takes exactly these, keeps
blocks of whole pages, and fails in no other way than for want of memory. -/
def TakesPages (pa : PageAllocatorDefault) (vaddr size : ℕ) : Prop :=
  ((∃ pa', pa.allocPagesAt vaddr size = .ok pa') ↔
      ∃ c ∈ pa.anchor.toList, c.start ≤ vaddr ∧ vaddr + rounded size ≤ c.stop) ∧
    (∀ pa', pa.allocPagesAt vaddr size = .ok pa' → Removes pa pa' vaddr (rounded size) ∧
      ∀ c ∈ pa'.anchor.toList, PAGE_SIZE ∣ c.start ∧ PAGE_SIZE ∣ c.size) ∧
    ∀ e, pa.allocPagesAt vaddr size = .error e → e = .serror 1475 0 .ENOMEM

section Requests

variable {pa : PageAllocatorDefault} {vaddr size : ℕ} {c : FreePages}

theorem Allocated.removes {pa' : PageAllocatorDefault} (h : Allocated pa pa' vaddr size)
    (hcarved : pa'.carved = pa.carved ∨ pa.freeList.length = 1) :
    Removes pa pa' vaddr size := by
  obtain ⟨hsub, D, hacc⟩ := h
  refine ⟨hsub, ?_⟩
  rcases hacc.carved with ⟨rfl, -, -⟩ | ⟨d, hd, rfl, hc, -⟩
  · left
    rw [hacc.space, Set.sdiff_empty]
  · right
    refine ⟨hcarved.resolve_left ?_, d, hd, hacc.subset, hacc.space, hc⟩
    rw [hc]
    exact List.cons_ne_self d pa.carved

theorem allocPagesAt_error (hfind : findAt vaddr size pa.anchor = none) :
    pa.allocPagesAt vaddr size = .error (.serror 1475 0 .ENOMEM) := by
  rw [allocPagesAt, hfind]

theorem Inv.takesPages_miss (hi : Inv pa) (hpos : 0 < size)
    (h : ∀ c ∈ pa.anchor.toList, ¬ Holds vaddr c) : TakesPages pa vaddr size := by
  have herr := allocPagesAt_error (findAt_none (s := size) hi.tree.page h)
  have hround := le_rounded size
  refine ⟨iff_of_false ?_ ?_, ?_, ?_⟩
  · rintro ⟨pa', hok⟩
    rw [herr] at hok
    cases hok
  · rintro ⟨c, hc, hstart, hstop⟩
    exact h c hc ⟨hstart, by omega⟩
  · intro pa' hok
    rw [herr] at hok
    cases hok
  · intro e he
    rw [herr] at he
    cases he
    rfl

theorem Inv.takesPages_long (hi : Inv pa) (hpos : 0 < size) (hc : c ∈ pa.anchor.toList)
    (hv : Holds vaddr c) (hwrap : vaddr + size < UVAL) (hlong : c.stop < vaddr + size) :
    TakesPages pa vaddr size := by
  obtain ⟨top, low, high, -, hfind⟩ := findAt_holds (s := size) hi.tree.spaced hi.tree.page hc hv
  rw [MachineWord.add_of_lt hwrap, if_neg (Nat.not_le.mpr hlong)] at hfind
  have herr := allocPagesAt_error hfind
  have hround := le_rounded size
  refine ⟨iff_of_false ?_ ?_, ?_, ?_⟩
  · rintro ⟨pa', hok⟩
    rw [herr] at hok
    cases hok
  · rintro ⟨d, hd, hstart, hstop⟩
    have hvd : Holds vaddr d := ⟨hstart, by omega⟩
    obtain rfl := hi.tree.spaced.eq_of_mem hd hc hvd hv
    omega
  · intro pa' hok
    rw [herr] at hok
    cases hok
  · intro e he
    rw [herr] at he
    cases he
    rfl

theorem Inv.allocPagesAt_ok (hi : Inv pa) (hc : c ∈ pa.anchor.toList) (hv : Holds vaddr c)
    (hend : MachineWord.add 64 vaddr size ≤ c.stop) :
    ∃ top low high q, pa.anchor.get top = .node low c high ∧
      pa.allocFromBlock top vaddr size = .ok q ∧
      pa.allocPagesAt vaddr size =
        .ok { q with available := MachineWord.sub 64 q.available size } ∧
      (q.carved = pa.carved ∨ pa.freeList.length = 1) := by
  obtain ⟨top, low, high, hg, hfind⟩ :=
    findAt_holds (s := size) hi.tree.spaced hi.tree.page hc hv
  obtain ⟨q, hok, hcarved⟩ := allocFromBlock_ok hi.freeList hg vaddr size
  refine ⟨top, low, high, q, hg, hok, ?_, hcarved⟩
  rw [allocPagesAt, hfind, if_pos hend]
  simp only [hok]
  rfl

theorem Inv.takesPages_whole (hi : Inv pa) (hvaddr : PAGE_SIZE ∣ vaddr) (hpos : 0 < size)
    (hc : c ∈ pa.anchor.toList) (hv : Holds vaddr c) (hend : vaddr + size ≤ c.stop)
    (hpage : PAGE_SIZE ∣ size) : TakesPages pa vaddr size := by
  have hlt := (hi.tree.page c hc).stop_lt
  have hadd : MachineWord.add 64 vaddr size = vaddr + size :=
    MachineWord.add_of_lt (Nat.lt_of_le_of_lt hend hlt)
  have harg : RangeArg vaddr size := ⟨⟨hpos, by omega, hpage⟩, hvaddr, by omega⟩
  obtain ⟨top, low, high, q, hg, -, hok, hcarved⟩ :=
    hi.allocPagesAt_ok hc hv (by rw [hadd]; exact hend)
  rw [TakesPages, rounded_of_dvd hpage, hok]
  refine ⟨iff_of_true ⟨_, rfl⟩ ⟨c, hc, hv.1, hend⟩, ?_, nofun⟩
  intro pa' heq
  cases heq
  rcases allocPagesAt_spec hi.tree hi.freeList harg with herr | ⟨pa', hok', hal⟩
  · rw [hok] at herr
    cases herr
  · rw [hok] at hok'
    cases hok'
    refine ⟨hal.removes hcarved, fun c hc => ?_⟩
    have hp := (hal.inv hi).tree.page c hc
    exact ⟨hp.start_page, hp.size_page⟩

theorem Inv.not_takesPages_ragged (hi : Inv pa) (hvaddr : PAGE_SIZE ∣ vaddr)
    (hc : c ∈ pa.anchor.toList) (hv : Holds vaddr c) (hend : vaddr + size ≤ c.stop)
    (hpage : ¬ PAGE_SIZE ∣ size) : ¬ TakesPages pa vaddr size := by
  have hb := hi.tree.page c hc
  have hlt := hb.stop_lt
  have hadd : MachineWord.add 64 vaddr size = vaddr + size :=
    MachineWord.add_of_lt (Nat.lt_of_le_of_lt hend hlt)
  obtain ⟨top, low, high, q, hg, hal, hok, -⟩ :=
    hi.allocPagesAt_ok hc hv (by rw [hadd]; exact hend)
  rintro ⟨-, hkeep, -⟩
  obtain ⟨b, hmem, hstart, -⟩ := allocFromBlock_ragged hb hg hvaddr hpage hend hal
  exact hstart ((hkeep _ hok).2 b hmem).1

theorem Inv.not_takesPages_wrap (hi : Inv pa) (hlt : size < UVAL) (hc : c ∈ pa.anchor.toList)
    (hv : Holds vaddr c) (hwrap : UVAL ≤ vaddr + size) : ¬ TakesPages pa vaddr size := by
  have hstop := (hi.tree.page c hc).stop_lt
  have hlast := hv.2
  have hadd : MachineWord.add 64 vaddr size ≤ c.stop := by
    show (vaddr + size) % 2 ^ 64 ≤ c.stop
    have hpow : UVAL = 2 ^ 64 := rfl
    omega
  obtain ⟨top, low, high, q, -, -, hok, -⟩ := hi.allocPagesAt_ok hc hv hadd
  rintro ⟨hiff, -⟩
  obtain ⟨d, hd, -, hend⟩ := hiff.mp ⟨_, hok⟩
  have hround := le_rounded size
  have hdstop := (hi.tree.page d hd).stop_lt
  omega

end Requests

/-- In every state reached, `allocPagesAt` does what is asked exactly if the end of the range does
not wrap and the size is a page multiple, where a free block holds the address; a size that does
not fit in that block need not be one. -/
theorem allocPagesAt_takesPages_iff {pa : PageAllocatorDefault} (h : Reachable pa)
    {vaddr size : ℕ} (hvaddr : PAGE_SIZE ∣ vaddr) (hpos : 0 < size) (hlt : size < UVAL) :
    TakesPages pa vaddr size ↔ ∀ c ∈ pa.anchor.toList, Holds vaddr c →
      vaddr + size < UVAL ∧ (vaddr + size ≤ c.stop → PAGE_SIZE ∣ size) := by
  have hi := h.inv
  by_cases hmiss : ∀ c ∈ pa.anchor.toList, ¬ Holds vaddr c
  · exact iff_of_true (hi.takesPages_miss hpos hmiss) fun c hc hv => absurd hv (hmiss c hc)
  · push Not at hmiss
    obtain ⟨c, hc, hv⟩ := hmiss
    have hcond : (∀ d ∈ pa.anchor.toList, Holds vaddr d →
        vaddr + size < UVAL ∧ (vaddr + size ≤ d.stop → PAGE_SIZE ∣ size)) ↔
        vaddr + size < UVAL ∧ (vaddr + size ≤ c.stop → PAGE_SIZE ∣ size) := by
      refine ⟨fun hall => hall c hc hv, fun hone d hd hvd => ?_⟩
      obtain rfl := hi.tree.spaced.eq_of_mem hd hc hvd hv
      exact hone
    rw [hcond]
    by_cases hwrap : vaddr + size < UVAL
    · by_cases hend : vaddr + size ≤ c.stop
      · by_cases hpage : PAGE_SIZE ∣ size
        · exact iff_of_true (hi.takesPages_whole hvaddr hpos hc hv hend hpage)
            ⟨hwrap, fun _ => hpage⟩
        · exact iff_of_false (hi.not_takesPages_ragged hvaddr hc hv hend hpage)
            fun hand => hpage (hand.2 hend)
      · exact iff_of_true (hi.takesPages_long hpos hc hv hwrap (Nat.not_le.mp hend))
          ⟨hwrap, fun hle => absurd hle hend⟩
    · exact iff_of_false (hi.not_takesPages_wrap hlt hc hv (Nat.not_lt.mp hwrap))
        fun hand => hwrap hand.1

/-- A page in the upper block of `fiveAndTwo`. -/
theorem allocPagesAt_takesPages_iff_fiveAndTwo :
    TakesPages fiveAndTwo 0x17000 0x1000 ↔ ∀ c ∈ fiveAndTwo.anchor.toList, Holds 0x17000 c →
      0x17000 + 0x1000 < UVAL ∧ (0x17000 + 0x1000 ≤ c.stop → PAGE_SIZE ∣ 0x1000) :=
  allocPagesAt_takesPages_iff fiveAndTwo_reachable (by decide) (by decide) (by decide)

/-- Half a page is taken as half a page, and a range that wraps is granted. -/
theorem not_takesPages_fiveAndTwo :
    (¬ ∀ (pa : PageAllocatorDefault) (vaddr size : ℕ), Reachable pa → PAGE_SIZE ∣ vaddr →
      0 < size → size < UVAL → TakesPages pa vaddr size) ∧
    ¬ TakesPages fiveAndTwo 0x17000 (UVAL - 0x1000) := by
  have hc : ⟨0x10000, 0x17000, 0x2000⟩ ∈ fiveAndTwo.anchor.toList := by decide +kernel
  have hv : Holds 0x17000 ⟨0x10000, 0x17000, 0x2000⟩ := ⟨by decide, by decide⟩
  constructor
  · intro h
    have htakes := h fiveAndTwo 0x17000 0x800 fiveAndTwo_reachable (by decide) (by decide)
      (by decide)
    exact fiveAndTwo_reachable.inv.not_takesPages_ragged (by decide) hc hv (by decide)
      (by decide) htakes
  · exact fiveAndTwo_reachable.inv.not_takesPages_wrap (by decide) hc hv (by decide)

end K42.PageAllocatorDefault
