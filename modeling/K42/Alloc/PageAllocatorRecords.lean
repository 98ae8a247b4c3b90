import K42.Alloc.PageAllocatorAt

/-!
# Where the records are

A record is in the tree, where it describes a block, or on the free list. The records ever
made are those of the pages in the history `carved`. A count of all of them shows why the free
list never runs empty and why a page of records never has to come out of the range being freed.
-/

open List (map_cons append_nil map_append perm_middle count_append)

namespace K42.PageAllocatorDefault

open BinTree (Path)
open Interval
open FreePages (self)
open Except (ok)

/-- The records that the page at `d` holds. -/
def records (d : ℕ) : List ℕ :=
  (List.range (PAGE_SIZE / sizeofFreePages)).map (d + sizeofFreePages * ·)

/-- The records in the tree. -/
def inTree (pa : PageAllocatorDefault) : List ℕ := pa.anchor.toList.map FreePages.self

/-- The records in the tree and on the free list. -/
def nodes (pa : PageAllocatorDefault) : List ℕ := pa.inTree ++ pa.freeList

/-- The records of all pages carved. -/
def made (pa : PageAllocatorDefault) : List ℕ := pa.carved.flatMap records

/-! ## What a step does to the records -/

/-- From `pa` to `pa'` pages have been carved and the records `held` have been taken; no
other record has come or gone. -/
def Keeps (pa pa' : PageAllocatorDefault) (held : List ℕ) : Prop :=
  ∃ new, pa'.carved = new ++ pa.carved ∧
    (held ++ pa'.nodes).Perm (new.flatMap records ++ pa.nodes)

section Keeps

variable {pa pa' pa'' : PageAllocatorDefault} {held held' : List ℕ}

theorem Keeps.plain (hc : pa'.carved = pa.carved) (h : (held ++ pa'.nodes).Perm pa.nodes) :
    Keeps pa pa' held :=
  ⟨[], hc, h⟩

theorem Keeps.trans (h : Keeps pa pa' held) (h' : Keeps pa' pa'' held') :
    Keeps pa pa'' (held ++ held') := by
  obtain ⟨new, hc, hp⟩ := h
  obtain ⟨new', hc', hp'⟩ := h'
  refine ⟨new' ++ new, by rw [hc', hc, List.append_assoc], ?_⟩
  apply List.perm_iff_count.mpr
  intro r
  have h₁ := hp.count_eq r
  have h₂ := hp'.count_eq r
  simp only [List.flatMap_append, count_append] at h₁ h₂ ⊢
  omega

theorem Keeps.add {n : FreePages} (h : Keeps pa pa' (n.self :: held)) :
    Keeps pa { pa' with anchor := PageAllocatorDefault.add pa'.anchor n } held := by
  obtain ⟨new, hc, hp⟩ := h
  refine ⟨new, hc, ?_⟩
  apply List.perm_iff_count.mpr
  intro r
  have h₁ := hp.count_eq r
  have h₂ := ((perm_add n pa'.anchor).map self).count_eq r
  simp only [nodes, inTree, map_cons, count_append, List.count_cons] at h₁ h₂ ⊢
  omega

theorem Keeps.release (h : Keeps pa pa' held) :
    Keeps pa { pa' with freeList := held ++ pa'.freeList } [] := by
  obtain ⟨new, hc, hp⟩ := h
  refine ⟨new, hc, ?_⟩
  apply List.perm_iff_count.mpr
  intro r
  have hr := hp.count_eq r
  simp only [nodes, inTree, count_append, List.count_nil] at hr ⊢
  omega

theorem Keeps.charge (h : Keeps pa pa' held) (n : ℕ) :
    Keeps pa { pa' with available := n } held := h

theorem Keeps.of_charge {n : ℕ} (h : Keeps { pa with available := n } pa' held) :
    Keeps pa pa' held := h

theorem Keeps.of_tree (hc : pa'.carved = pa.carved) (hf : pa'.freeList = pa.freeList)
    (h : (held ++ pa'.inTree).Perm pa.inTree) : Keeps pa pa' held := by
  refine .plain hc ?_
  rw [nodes, nodes, hf, ← List.append_assoc]
  exact h.append_right _

end Keeps

variable {top : Path} {low high : Tree} {cur : FreePages} {pa pa' : PageAllocatorDefault}
  {vaddr size : ℕ} {r : ℕ × PageAllocatorDefault × ℕ × ℕ}

theorem keeps_relink (pa : PageAllocatorDefault) {s t : Tree} {held : List ℕ}
    (hg : pa.anchor.get top = t) (hne : t ≠ .nil)
    (h : (held ++ s.toList.map self).Perm (t.toList.map self)) :
    Keeps pa { pa with anchor := pa.anchor.set top s } held := by
  refine .of_tree rfl rfl ?_
  cases t with
  | nil => exact absurd rfl hne
  | node low cur high =>
    obtain ⟨pre, post, hl, hs⟩ := BinTree.exists_context hg
    apply List.perm_iff_count.mpr
    intro r
    have hr := h.count_eq r
    simp only [inTree, hs, hl, map_append, count_append] at hr ⊢
    omega

theorem perm_merge (low : Tree) (cur : FreePages) (high : Tree) :
    (cur.self :: (merge low high).toList.map self).Perm
      ((BinTree.node low cur high).toList.map self) := by
  rw [toList_merge, BinTree.toList_node, map_append, map_append, map_cons]
  exact perm_middle.symm

theorem keeps_remove (pa : PageAllocatorDefault) (hg : pa.anchor.get top = .node low cur high) :
    Keeps pa { pa with anchor := pa.anchor.set top (merge low high) } [cur.self] :=
  keeps_relink pa hg nofun (perm_merge low cur high)

theorem keeps_resettle (pa : PageAllocatorDefault)
    (hg : pa.anchor.get top = .node low cur high) (start size : ℕ) :
    Keeps pa
      { pa with
        anchor := pa.anchor.set top
          (add (merge low high) { cur with start := start, size := size }) } [] := by
  refine keeps_relink pa hg nofun ?_
  exact ((perm_add _ _).map self).trans (perm_merge low cur high)

/-! ## Taking a record -/

theorem carve_keeps {q : PageAllocatorDefault} (d : ℕ) (hc : q.carved = pa.carved)
    (h : q.nodes.Perm pa.nodes) : Keeps pa (carve q d) [] := by
  refine ⟨[d], by rw [← hc]; rfl, ?_⟩
  have hcarve : (carve q d).nodes = q.inTree ++ (records d ++ q.freeList) := rfl
  apply List.perm_iff_count.mpr
  intro r
  have hr := h.count_eq r
  rw [hcarve]
  simp only [nodes, List.flatMap_cons, List.flatMap_nil, List.nil_append, append_nil,
    count_append] at hr ⊢
  omega

theorem extendFreeList_keeps (pa : PageAllocatorDefault) (hf : pa.freeList = [])
    (vaddr size : ℕ) : Keeps pa (pa.extendFreeList vaddr size).1 [] := by
  by_cases hne : pa.anchor = .nil
  · have hget : pa.anchor.get pa.anchor.lowPath = .nil := by rw [hne]; rfl
    simp only [extendFreeList, hget]
    apply carve_keeps
    · rfl
    · simp only [nodes, inTree, List.Perm.refl]
  · obtain ⟨cur, high, post, hg, hl, hs⟩ := BinTree.get_lowPath hne
    simp only [extendFreeList, hg]
    split_ifs with h1 h2
    · apply carve_keeps
      · rfl
      · simp only [nodes, inTree, hl, hs, hf, map_append, map_cons, append_nil]
        exact List.perm_append_singleton _ _
    · apply carve_keeps
      · rfl
      · simp only [nodes, inTree, hf, append_nil]
        refine ((perm_add _ _).map self).trans ?_
        rw [hs, hl]
        simp only [map_cons, List.cons_append, List.Perm.refl]
    · apply carve_keeps
      · rfl
      · simp only [nodes, inTree, hl, hs, BinTree.toList_node, BinTree.toList_nil,
          List.nil_append, List.cons_append, map_cons, List.Perm.refl]

theorem takeRecord_keeps (h : pa.takeRecord vaddr size = .ok r) :
    Keeps pa r.2.1 [r.1] := by
  -- the record leaves the list before the list is extended
  have htake : ∀ cur rest, pa.freeList = cur :: rest →
      Keeps pa { pa with freeList := rest } [cur] := by
    intro cur rest hf
    refine .plain rfl ?_
    simp only [nodes, inTree, hf, List.singleton_append]
    exact perm_middle.symm
  rw [takeRecord] at h
  split at h
  · cases h
  · next cur hf =>
      obtain rfl := ok.inj h
      exact (htake cur [] hf).trans (extendFreeList_keeps _ rfl vaddr size)
  · next hf =>
      obtain rfl := ok.inj h
      exact htake _ _ hf

/-! ## The operations -/

theorem allocFromBlock_keeps
    (h : pa.allocFromBlock top vaddr size = .ok pa') : Keeps pa pa' [] := by
  cases hg : pa.anchor.get top with
  | nil =>
    rw [allocFromBlock, hg] at h
    cases h
  | node low cur high =>
    have hremove := keeps_remove pa hg
    have hpiece : ∀ start size, Keeps pa { pa with
        anchor := add (pa.anchor.set top (merge low high))
          { cur with start := start, size := size } } [] :=
      fun start size => hremove.add (n := { cur with start := start, size := size })
    simp only [allocFromBlock, hg] at h
    generalize (if vaddr > cur.start then cur.start else 0) = extraaddr at h
    split_ifs at h with hrest hfront hfront
    · -- the block keeps its record for the piece behind, the piece in front needs another
      obtain ⟨r, htake, rfl⟩ := map_eq_ok h
      have hrecord := (hpiece _ _).trans (takeRecord_keeps htake)
      exact hrecord.add (n := ⟨r.1, r.2.2.1, r.2.2.2⟩)
    · obtain rfl := ok.inj h
      exact hpiece _ _
    · obtain rfl := ok.inj h
      exact hpiece _ _
    · obtain rfl := ok.inj h
      exact hremove.release

theorem allocPages_keeps
    (hh : pa.anchor.Heap FreePages.size) (h : pa.allocPages size = .ok (pa', vaddr)) :
    Keeps pa pa' [] := by
  simp only [allocPages] at h
  split_ifs at h with hp
  obtain ⟨hl, -⟩ := allocWalk_spec hh hp
  -- the walk turns the tree but has the same blocks in the same order
  have hwalk : Keeps pa { pa with anchor := (allocWalk (pageRoundUp size) pa.anchor).1 } [] := by
    refine .of_tree rfl rfl ?_
    rw [inTree, hl]
    exact .refl _
  split at h
  · cases h
  · next low cur high hg =>
      split at h
      · obtain ⟨rfl, -⟩ := Prod.mk.inj (ok.inj h)
        -- what is left of the block goes back into the same link
        exact (hwalk.trans (keeps_resettle { pa with anchor := _ } hg _ _)).charge _
      · obtain ⟨rfl, -⟩ := Prod.mk.inj (ok.inj h)
        exact ((hwalk.trans (keeps_remove { pa with anchor := _ } hg)).release).charge _

theorem allocPagesAt_keeps (h : pa.allocPagesAt vaddr size = .ok pa') : Keeps pa pa' [] := by
  rw [allocPagesAt] at h
  split at h
  · cases h
  · obtain ⟨q, hblock, rfl⟩ := map_eq_ok h
    exact (allocFromBlock_keeps hblock).charge _

theorem allocPagesAligned_keeps {align offset : ℕ}
    (h : pa.allocPagesAligned size align offset = .ok (pa', vaddr)) : Keeps pa pa' [] := by
  simp only [allocPagesAligned] at h
  split at h
  · cases h
  · split at h
    · cases h
    · obtain ⟨q, hblock, hq⟩ := map_eq_ok h
      obtain rfl := (Prod.mk.inj hq).1
      exact (allocFromBlock_keeps hblock).charge _

theorem coalesceHigh_keeps (cur : FreePages) (high : Tree) :
    (coalesceHigh cur high).1.self = cur.self ∧
      ((coalesceHigh cur high).2.2 ++ (coalesceHigh cur high).2.1.toList.map self).Perm
        (high.toList.map self) := by
  by_cases hne : high = .nil
  · rw [hne]
    exact ⟨rfl, .refl _⟩
  · obtain ⟨cur1, rest, post, hg, hl, hs⟩ := BinTree.get_lowPath hne
    simp only [coalesceHigh, hg]
    split_ifs
    · refine ⟨rfl, ?_⟩
      rw [hs, hl]
      exact .refl _
    · exact ⟨rfl, .refl _⟩

theorem coalesceLow_keeps (low : Tree) (cur : FreePages) : (coalesceLow low cur).1.self = cur.self ∧
      ((coalesceLow low cur).2.2 ++ (coalesceLow low cur).2.1.toList.map self).Perm
        (low.toList.map self) := by
  by_cases hne : low = .nil
  · rw [hne]
    exact ⟨rfl, .refl _⟩
  · obtain ⟨rest, cur1, pre, hg, hl, hs⟩ := BinTree.get_highPath hne
    simp only [coalesceLow, hg]
    split_ifs
    · refine ⟨rfl, ?_⟩
      simp only [hs, hl, map_append]
      exact List.perm_append_comm
    · exact ⟨rfl, .refl _⟩

/-- The enlarged block goes into the tree, in its old place or in a new one; the records
that coalescing has set free go on the free list. -/
theorem enlarge_keeps (pa : PageAllocatorDefault) {t : Tree}
    {freed : List ℕ} (n : ℕ) (hg : pa.anchor.get top = t) (hne : t ≠ .nil)
    (h : (freed ++ (BinTree.node low cur high).toList.map self).Perm
      (t.toList.map self)) :
    Keeps pa (enlarge { pa with freeList := freed ++ pa.freeList, available := n } top low cur
      high) [] := by
  rw [enlarge]
  split
  · have hout : ((cur.self :: freed) ++ (merge low high).toList.map self).Perm
        (t.toList.map self) := by
      refine List.Perm.trans ?_ h
      refine perm_middle.symm.trans ?_
      exact (perm_merge low cur high).append_left freed
    exact ((keeps_relink pa hg hne hout).add.release).charge n
  · exact ((keeps_relink pa hg hne h).release).charge n

/-- A record is taken without touching the range unless the tree is empty and the record is
the last one. -/
theorem takeRecord_range (h : pa.takeRecord vaddr size = .ok r)
    (hlast : pa.freeList.length = 1 → pa.anchor ≠ .nil) : r.2.2 = (vaddr, size) := by
  rw [takeRecord] at h
  split at h
  · cases h
  · next cur hf =>
      obtain rfl := ok.inj h
      have hne : pa.anchor ≠ .nil := hlast (by rw [hf]; rfl)
      obtain ⟨cur, high, post, hg, -⟩ := BinTree.get_lowPath hne
      simp only [extendFreeList, hg]
      split_ifs <;> rfl
  · obtain rfl := ok.inj h
    rfl

theorem deallocPages_keeps
    (hround : pageRoundUp size ≠ 0) (hlast : pa.freeList.length = 1 → pa.anchor ≠ .nil)
    (h : pa.deallocPages vaddr size = .ok pa') : Keeps pa pa' [] := by
  simp only [deallocPages] at h
  split at h
  · next top hfind =>
      split at h
      · cases h
      · next low cur high hg =>
          split_ifs at h with hbound
          · obtain rfl := ok.inj h
            obtain ⟨hself, hperm⟩ := coalesceHigh_keeps
              { cur with size := MachineWord.add 64 cur.size (pageRoundUp size) } high
            refine enlarge_keeps pa _ hg (by simp) ?_
            rw [BinTree.toList_node, BinTree.toList_node, map_append, map_append,
              map_cons, map_cons, hself]
            exact (List.perm_append_comm_assoc ..).trans
              ((perm_middle.trans (hperm.cons _)).append_left _)
          · obtain rfl := ok.inj h
            obtain ⟨hself, hperm⟩ := coalesceLow_keeps low
              { cur with start := vaddr, size := MachineWord.add 64 cur.size (pageRoundUp size) }
            refine enlarge_keeps pa _ hg (by simp) ?_
            rw [BinTree.toList_node, BinTree.toList_node, map_append, map_append,
              map_cons, map_cons, hself]
            rw [← List.append_assoc]
            exact hperm.append_right _
  · obtain ⟨r, htake, rfl⟩ := map_eq_ok h
    have hrange := takeRecord_range htake hlast
    have hkeeps := (takeRecord_keeps htake).of_charge
    rw [insertRange, hrange, if_neg hround]
    exact hkeeps.add (n := ⟨r.1, vaddr, pageRoundUp size⟩)

theorem exec_keeps {op : Op} {out : Option (ℕ × ℕ)} (hi : Inv pa)
    (hp : PageArgs pa op) (hlast : pa.freeList.length = 1 → pa.anchor ≠ .nil)
    (h : pa.exec op = .ok (pa', out)) : Keeps pa pa' [] := by
  cases op with
  | allocPages size =>
    obtain ⟨⟨q, v⟩, hcall, hq⟩ := map_eq_ok h
    obtain ⟨rfl, -⟩ := Prod.mk.inj hq
    exact allocPages_keeps hi.tree.heap hcall
  | allocPagesAt vaddr size =>
    obtain ⟨q, hcall, hq⟩ := map_eq_ok h
    obtain ⟨rfl, -⟩ := Prod.mk.inj hq
    exact allocPagesAt_keeps hcall
  | allocPagesAligned size align offset =>
    obtain ⟨⟨q, v⟩, hcall, hq⟩ := map_eq_ok h
    obtain ⟨rfl, -⟩ := Prod.mk.inj hq
    exact allocPagesAligned_keeps hcall
  | deallocPages vaddr size =>
    obtain ⟨q, hcall, hq⟩ := map_eq_ok h
    obtain ⟨rfl, -⟩ := Prod.mk.inj hq
    refine deallocPages_keeps ?_ hlast hcall
    rw [pageRoundUp_eq hp.1.pos hp.1.lt hp.1.page]
    exact hp.1.pos.ne'

/-! ## Where the list is extended -/

theorem length_records (d : ℕ) : (records d).length = PAGE_SIZE / sizeofFreePages := by
  rw [records, List.length_map, List.length_range]

/-- The ledger with all records accounted for: those of the pages carved, each in the tree or on
the free list. -/
structure Recorded (l : Ledger) : Prop where
  ledger : Ledger.Inv l
  nodes : l.pa.nodes.Perm l.pa.made
  page : ∀ d ∈ l.pa.carved, PAGE_SIZE ∣ d
  nodup : l.pa.carved.Nodup
  carved : l.pa.carved ≠ []

section Recorded

variable {l : Ledger}

theorem Recorded.extends (h : Recorded l) (hlast : l.pa.freeList.length = 1) :
    l.pa.anchor ≠ .nil := by
  intro hnil
  obtain ⟨d, rest, hcarved⟩ := List.exists_cons_of_ne_nil h.carved
  have hlen := h.nodes.length_eq
  rw [PageAllocatorDefault.nodes, inTree, hnil, made, hcarved, List.flatMap_cons,
    List.length_append, List.length_append, length_records, hlast] at hlen
  have hrecords : PAGE_SIZE / sizeofFreePages = 128 := rfl
  rw [hrecords] at hlen
  simp only [BinTree.toList_nil, List.map_nil, List.length_nil] at hlen
  omega

/-- A call after which the ledger is in order keeps the account of the records, if the page it
carves is none of the pages carved before. -/
theorem Recorded.moved {l' : Ledger} {D : Set ℕ} (h : Recorded l) (hledger : Ledger.Inv l')
    (hk : Keeps l.pa l'.pa []) (hone : OnePage l.pa l'.pa D)
    (hD : ∀ d ∈ l.pa.carved, Disjoint (range d PAGE_SIZE) D) : Recorded l' := by
  obtain ⟨new, hnew, hp⟩ := hk
  have hnodes : l'.pa.nodes.Perm l'.pa.made := by
    rw [made, hnew, List.flatMap_append]
    exact hp.trans (h.nodes.append_left _)
  rcases hone with ⟨-, hc⟩ | ⟨d, hd, rfl, hc⟩
  · exact ⟨hledger, hnodes, hc ▸ h.page, hc ▸ h.nodup, hc ▸ h.carved⟩
  · refine ⟨hledger, hnodes, ?_, ?_, hc ▸ List.cons_ne_nil _ _⟩
    · rw [hc]
      intro e he
      rcases List.mem_cons.mp he with rfl | he
      · exact hd
      · exact h.page e he
    · rw [hc]
      refine List.nodup_cons.mpr ⟨?_, h.nodup⟩
      intro hmem
      have hself := disjoint_self.mp (hD d hmem)
      have hd' : d ∈ range d PAGE_SIZE := by simp [mem_range]
      rw [hself] at hd'
      exact hd'

/-- **Step.** -/
theorem Recorded.step {op : Op} (h : Recorded l) (ha : Ledger.machine.adm l op) :
    Recorded (l.step op) := by
  have hledger := Ledger.step_inv h.ledger ha
  obtain ⟨hp, hav, hrec⟩ := ha
  unfold Ledger.step at hledger ⊢
  rcases exec_cases h.ledger.pa hp hav with
    ⟨ec, hex⟩ | ⟨pa', v, s, hex, hal⟩ | ⟨pa', v, s, rfl, hex, hf⟩
  · rw [hex]
    exact h
  · have hk := exec_keeps h.ledger.pa hp h.extends hex
    obtain ⟨-, D, hone, hD, -⟩ := hal.handsOut
    rw [hex] at hledger ⊢
    refine h.moved hledger hk hone ?_
    intro d hd
    exact (h.ledger.carved d hd).mono_right (hD.trans Set.sdiff_subset)
  · have hk := exec_keeps h.ledger.pa hp h.extends hex
    obtain ⟨D, hone, hD, -⟩ := hf.takesBack
    rw [hex] at hledger ⊢
    refine h.moved hledger hk hone ?_
    intro d hd
    have hfreed := (Ledger.disjoint_range (hrec d hd)).symm
    exact (Set.disjoint_union_right.mpr ⟨h.ledger.carved d hd, hfreed⟩).mono_right hD

end Recorded

end K42.PageAllocatorDefault
