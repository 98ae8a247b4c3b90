import K42.Lib.RadixPath
import K42.KFS.Truncate

/-!
# Runs of block maps

`getDblk` and `freeDblk` change the tree of one slot; the map stays a forest, so
that truncation can be said of every map that a run of calls builds.
-/

open Function (update update_of_ne update_self)
open List (mem_cons_self mem_singleton not_mem_nil forall_mem_cons mem_range mem_flatMap)

namespace K42

open RadixTree

namespace PSOSmall

open RadixTree (blocks inner)

variable {p p' : PSOSmall} {F : Forest}

/-! ## Changing one slot -/

/-- The tree at slot `i` of `dblk` has become `t'`; its blocks are its own or from
`G`. -/
structure SlotChange {h : ℕ} (p p' : PSOSmall) (dblk : Option ℕ) (i : ℕ) (t t' : RadixTree ℕ h)
    (G : List ℕ) : Prop where
  ptr : p'.ptrs dblk i = t'.root
  reps : t'.Reps 1024 p'.disk
  nodup : (t'.blocks 1024).Nodup
  nonzero : ∀ x ∈ t'.blocks 1024, x ≠ 0
  pruned : t'.Pruned 1024
  sub : ∀ x ∈ t'.blocks 1024, x ∈ t.blocks 1024 ∨ x ∈ G
  frame : ∀ d j, (d, j) ≠ (dblk, i) → (∀ x, d = some x → x ∉ t.inner 1024 ∧ x ∉ G) →
    p'.ptrs d j = p.ptrs d j

variable {i h c j b l : ℕ} {q : PSOSmall} {dblk : Option ℕ} {rest : List ℕ}

theorem Holds.change {t' : RadixTree ℕ (i - 24)} {G : List ℕ} (h : Holds p F)
    (hi : i < 28) (hch : SlotChange p p' none i (F i) t' G)
    (hfresh : ∀ x ∈ G, ∀ k < 28, x ∉ (F k).blocks 1024) : Holds p' (update F i t') where
  word k hk := by
    by_cases hki : k = i
    · subst hki
      rw [update_self]
      exact hch.ptr
    · rw [update_of_ne hki, ← h.word k hk]
      exact hch.frame none k (by simpa using hki) (by simp)
  reps k hk := by
    by_cases hki : k = i
    · subst hki
      rw [update_self]
      exact hch.reps
    · rw [update_of_ne hki]
      refine (h.reps k hk).congr ?_
      intro x hx j _
      refine hch.frame (some x) j (by simp) ?_
      rintro y ⟨rfl⟩
      constructor
      · intro hxi
        exact disjoint_of_flatMap h.nodup hk hi hki (mem_blocks_of_inner hx) (mem_blocks_of_inner hxi)
      · intro hxG
        exact hfresh x hxG k hk (mem_blocks_of_inner hx)
  nodup := by
    have hsame : (fun k => (update F i t' k).blocks 1024) =
        update (fun k => (F k).blocks 1024) i (t'.blocks 1024) := by
      funext k
      exact Function.apply_update (fun _ t => t.blocks 1024) F i t' k
    rw [hsame]
    refine nodup_flatMap_update h.nodup hch.nodup ?_ hi
    intro x hx
    refine (hch.sub x hx).imp id ?_
    intro hxG hmem
    obtain ⟨k, hk, hxk⟩ := mem_flatMap.mp hmem
    exact hfresh x hxG k (mem_range.mp hk) hxk
  nonzero k hk := by
    by_cases hki : k = i
    · subst hki
      rw [update_self]
      exact hch.nonzero
    · rw [update_of_ne hki]
      exact h.nonzero k hk
  pruned k hk := by
    by_cases hki : k = i
    · subst hki
      rw [update_self]
      exact hch.pruned
    · rw [update_of_ne hki]
      exact h.pruned k hk

/-- A change at slot `j` of a node is a change of the tree. The pointer to the node
has been set by then. -/
theorem SlotChange.node
    {kids : ℕ → RadixTree ℕ h} {t' : RadixTree ℕ h} {t : RadixTree ℕ (h + 1)} {G G' : List ℕ}
    (hj : j < 1024) (hch : SlotChange q p' (some c) j (kids j) t' G)
    (hreps : (RadixTree.node c kids).Reps 1024 q.disk)
    (hnd : ((RadixTree.node c kids).blocks 1024).Nodup)
    (hne : ∀ x ∈ (RadixTree.node c kids).blocks 1024, x ≠ 0)
    (hpruned : ∀ k < 1024, (kids k).Pruned 1024) (hkids : ∃ k < 1024, update kids j t' k ≠ empty)
    (hfresh : ∀ x ∈ G, x ∉ (RadixTree.node c kids).blocks 1024) (hptr : q.ptrs dblk i = c)
    (hout : ∀ x, dblk = some x → x ∉ (RadixTree.node c kids).blocks 1024 ∧ x ∉ G)
    (hsub : ∀ x ∈ (RadixTree.node c kids).blocks 1024, x ∈ t.blocks 1024 ∨ x ∈ G')
    (hG : ∀ x ∈ G, x ∈ G')
    (hframe : ∀ d k, (d, k) ≠ (dblk, i) → (∀ x, d = some x → x ∉ t.inner 1024 ∧ x ∉ G') →
      q.ptrs d k = p.ptrs d k)
    (hinner : ∀ x ∈ (RadixTree.node c kids).inner 1024, x ∈ t.inner 1024 ∨ x ∈ G') :
    SlotChange p p' dblk i t (RadixTree.node c (update kids j t')) G' := by
  have hother : ∀ k, k ≠ j → p'.disk c k = q.disk c k := by
    intro k hk
    refine hch.frame (some c) k (by simpa using hk) ?_
    rintro y ⟨rfl⟩
    constructor
    · exact fun hx => notMem_kid_of_nodup hnd hj (mem_blocks_of_inner hx)
    · exact fun hx => hfresh c hx (mem_blocks_node.mpr (.inr rfl))
  have hblocks : ∀ x, x ∈ (RadixTree.node c (update kids j t')).blocks 1024 →
      x ∈ (RadixTree.node c kids).blocks 1024 ∨ x ∈ G := by
    intro x hx
    obtain ⟨k, hk, hx⟩ | rfl := mem_blocks_node.mp hx
    · by_cases hkj : k = j
      · subst hkj
        rw [update_self] at hx
        exact (hch.sub x hx).imp (fun hx => mem_blocks_node.mpr (.inl ⟨k, hk, hx⟩)) id
      · rw [update_of_ne hkj] at hx
        exact .inl (mem_blocks_node.mpr (.inl ⟨k, hk, hx⟩))
    · exact .inl (mem_blocks_node.mpr (.inr rfl))
  constructor
  · show p'.ptrs dblk i = c
    rw [← hptr]
    refine hch.frame dblk i ?_ ?_
    · intro heq
      exact (hout c (congrArg Prod.fst heq)).1 (mem_blocks_node.mpr (.inr rfl))
    · intro x hx
      refine ⟨fun hin => (hout x hx).1 ?_, (hout x hx).2⟩
      exact mem_blocks_node.mpr (.inl ⟨j, hj, mem_blocks_of_inner hin⟩)
  · intro k hk
    by_cases hkj : k = j
    · subst hkj
      rw [update_self]
      exact ⟨hch.ptr, hch.reps⟩
    · rw [update_of_ne hkj, hother k hkj]
      refine ⟨(hreps k hk).1, (hreps k hk).2.congr ?_⟩
      intro x hx m _
      refine hch.frame (some x) m ?_ ?_
      · intro heq
        cases heq
        exact notMem_kid_of_nodup hnd hk (mem_blocks_of_inner hx)
      · rintro y ⟨rfl⟩
        constructor
        · intro hxj
          exact disjoint_of_flatMap (nodup_kids hnd) hk hj hkj (mem_blocks_of_inner hx)
            (mem_blocks_of_inner hxj)
        · intro hxG
          exact hfresh x hxG (mem_blocks_node.mpr (.inl ⟨k, hk, mem_blocks_of_inner hx⟩))
  · have hsame : (fun k => (update kids j t' k).blocks 1024) =
        update (fun k => (kids k).blocks 1024) j (t'.blocks 1024) := by
      funext k
      exact Function.apply_update (fun _ t => t.blocks 1024) kids j t' k
    rw [blocks, hsame, List.nodup_append]
    refine ⟨nodup_flatMap_update (nodup_kids hnd) hch.nodup ?_ hj, List.nodup_singleton c, ?_⟩
    · intro x hx
      refine (hch.sub x hx).imp id ?_
      intro hxG hmem
      obtain ⟨k, hk, hxk⟩ := mem_flatMap.mp hmem
      exact hfresh x hxG (mem_blocks_node.mpr (.inl ⟨k, mem_range.mp hk, hxk⟩))
    · rintro x hx y hy rfl
      rw [mem_singleton] at hy
      subst hy
      obtain ⟨k, hk, hxk⟩ := mem_flatMap.mp hx
      rw [mem_range] at hk
      by_cases hkj : k = j
      · subst hkj
        rw [update_self] at hxk
        obtain hxk | hxG := hch.sub x hxk
        · exact notMem_kid_of_nodup hnd hk hxk
        · exact hfresh x hxG (mem_blocks_node.mpr (.inr rfl))
      · rw [update_of_ne hkj] at hxk
        exact notMem_kid_of_nodup hnd hk hxk
  · intro x hx
    obtain ⟨k, hk, hx⟩ | rfl := mem_blocks_node.mp hx
    · by_cases hkj : k = j
      · subst hkj
        rw [update_self] at hx
        exact hch.nonzero x hx
      · rw [update_of_ne hkj] at hx
        exact hne x (mem_blocks_node.mpr (.inl ⟨k, hk, hx⟩))
    · exact hne x (mem_blocks_node.mpr (.inr rfl))
  · refine ⟨hkids, fun k hk => ?_⟩
    by_cases hkj : k = j
    · subst hkj
      rw [update_self]
      exact hch.pruned
    · rw [update_of_ne hkj]
      exact hpruned k hk
  · intro x hx
    obtain hx | hx := hblocks x hx
    · exact hsub x hx
    · exact .inr (hG x hx)
  · intro d k hne' hd
    rw [← hframe d k hne' hd]
    refine hch.frame d k ?_ ?_
    · intro heq
      have hin := hinner c (mem_inner_node.mpr (.inr rfl))
      have hnot := hd c (congrArg Prod.fst heq)
      exact hin.elim hnot.1 hnot.2
    · intro x hx
      refine ⟨fun hin => ?_, fun hxG => (hd x hx).2 (hG x hxG)⟩
      exact (hinner x (mem_inner_node.mpr (.inl ⟨j, hj, hin⟩))).elim (hd x hx).1 (hd x hx).2

/-! ## Allocation and freeing keep the forest -/

theorem ptrs_setPtr_self (p : PSOSmall) (dblk : Option ℕ) (i v : ℕ) :
    (p.setPtr dblk i v).ptrs dblk i = v := by
  cases dblk with
  | none => exact update_self i v p.dBlk
  | some b =>
    show update p.disk b (update (p.disk b) i v) b i = v
    rw [update_self, update_self]

theorem ptrs_setPtr_of_ne (p : PSOSmall) {d : Option ℕ} (v : ℕ)
    (hne : (d, j) ≠ (dblk, i)) : (p.setPtr dblk i v).ptrs d j = p.ptrs d j := by
  cases dblk with
  | none =>
    cases d with
    | none =>
      show update p.dBlk i v j = p.dBlk j
      rw [update_of_ne]
      rintro rfl
      exact hne rfl
    | some x => rfl
  | some b =>
    cases d with
    | none => rfl
    | some x =>
      show (p.setPtr (some b) i v).disk x j = p.disk x j
      rw [setPtr_some_disk, if_neg]
      rintro ⟨rfl, rfl⟩
      exact hne rfl

theorem ptrs_zeroBlock_of_ne (p : PSOSmall) {d : Option ℕ} (hne : d ≠ some b) (j : ℕ) :
    (p.zeroBlock b).ptrs d j = p.ptrs d j := by
  cases d with
  | none => rfl
  | some x =>
    show update p.disk b (fun _ => 0) x j = p.disk x j
    rw [update_of_ne]
    rintro rfl
    exact hne rfl

/-- A tree at a slot, as the calls find it. -/
structure SlotHolds {h : ℕ} (p : PSOSmall) (dblk : Option ℕ) (i : ℕ) (t : RadixTree ℕ h) : Prop where
  ptr : p.ptrs dblk i = t.root
  reps : t.Reps 1024 p.disk
  nodup : (t.blocks 1024).Nodup
  nonzero : ∀ x ∈ t.blocks 1024, x ≠ 0
  pruned : t.Pruned 1024
  outside : ∀ x, dblk = some x → x ∉ t.blocks 1024

theorem SlotHolds.refl {t : RadixTree ℕ h}
    (hs : SlotHolds p dblk i t) (G : List ℕ) : SlotChange p p dblk i t t G :=
  ⟨hs.ptr, hs.reps, hs.nodup, hs.nonzero, hs.pruned, fun _ hx => .inl hx, fun _ _ _ _ => rfl⟩

theorem SlotHolds.kid {kids : ℕ → RadixTree ℕ h}
    (hs : SlotHolds p dblk i (RadixTree.node c kids)) (hj : j < 1024) :
    SlotHolds p (some c) j (kids j) where
  ptr := (hs.reps j hj).1
  reps := (hs.reps j hj).2
  nodup := nodup_of_flatMap (nodup_kids hs.nodup) hj
  nonzero x hx := hs.nonzero x (mem_blocks_node.mpr (.inl ⟨j, hj, hx⟩))
  pruned := hs.pruned.2 j hj
  outside := by
    intro x heq
    cases heq
    exact notMem_kid_of_nodup hs.nodup hj

theorem getDblkFrom_true : ∀ {h : ℕ} {p p' : PSOSmall} {dblk : Option ℕ}
    {i b : ℕ} {t : RadixTree ℕ h} {fresh : List ℕ}, SlotHolds p dblk i t → rest.length = h →
    (∀ j ∈ rest, j < 1024) → fresh.Nodup → (∀ x ∈ fresh, x ≠ 0) →
    (∀ x ∈ fresh, x ∉ t.blocks 1024) → (∀ x, dblk = some x → x ∉ fresh) →
    getDblkFrom true p dblk (i :: rest) fresh = .ok (p', b) →
    t.put rest fresh ≠ empty ∧ SlotChange p p' dblk i t (t.put rest fresh) fresh ∧
      b ≠ 0 ∧ find (t.put rest fresh) rest = b := by
  induction rest with
  | nil =>
    intro h p p' dblk i b t fresh hs hlen _ hfnd hfne hfresh hout hok
    obtain rfl : h = 0 := hlen.symm
    rw [getDblkFrom_cons] at hok
    by_cases hzero : p.ptrs dblk i = 0
    · rw [if_pos hzero, if_neg (by simp)] at hok
      rw [hs.ptr, root_eq_zero hs.nonzero] at hzero
      subst hzero
      cases fresh with
      | nil => cases hok
      | cons c fresh =>
        simp only [if_true, Except.ok.injEq, Prod.mk.injEq] at hok
        obtain ⟨rfl, rfl⟩ := hok
        have hput : put (empty : RadixTree ℕ 0) [] (c :: fresh) = leaf c := rfl
        rw [hput]
        refine ⟨nofun, ⟨ptrs_setPtr_self .., trivial, ?_, ?_, trivial, ?_, ?_⟩,
          hfne _ mem_cons_self, rfl⟩
        · simp [blocks]
        · intro x hx
          rw [blocks, mem_singleton] at hx
          subst hx
          exact hfne x mem_cons_self
        · intro x hx
          rw [blocks, mem_singleton] at hx
          subst hx
          exact .inr mem_cons_self
        · intro d j hne _
          exact ptrs_setPtr_of_ne p c hne
    · rw [if_neg hzero, if_pos rfl] at hok
      cases hok
      cases t with
      | empty => exact absurd hs.ptr hzero
      | leaf c => exact ⟨nofun, hs.refl fresh, hzero, hs.ptr.symm⟩
  | cons j rest ih =>
    intro h p p' dblk i b t fresh hs hlen hlt hfnd hfne hfresh hout hok
    obtain ⟨h, rfl⟩ : ∃ k, h = k + 1 := ⟨rest.length, hlen.symm⟩
    simp only [forall_mem_cons] at hlt
    have hlen' : rest.length = h := Nat.succ.inj hlen
    rw [getDblkFrom_cons] at hok
    by_cases hzero : p.ptrs dblk i = 0
    · -- the block that is allocated is a node without subtrees, and the walk goes on in it
      rw [if_pos hzero, if_neg (by simp)] at hok
      rw [hs.ptr, root_eq_zero hs.nonzero] at hzero
      subst hzero
      cases fresh with
      | nil => cases hok
      | cons c fresh =>
        simp only [if_neg (List.cons_ne_nil _ _)] at hok
        simp only [forall_mem_cons] at hfne
        rw [List.nodup_cons] at hfnd
        have hdblk : dblk ≠ some c := fun heq => hout c heq mem_cons_self
        have hblocks : (RadixTree.node c fun _ => (empty : RadixTree ℕ h)).blocks 1024 = [c] := by
          simp [blocks]
        have hinner : (RadixTree.node c fun _ => (empty : RadixTree ℕ h)).inner 1024 = [c] := by
          simp [RadixTree.inner]
        have hnull : ∀ k, ((p.setPtr dblk i c).zeroBlock c).disk c k = 0 := by
          intro k
          show update (p.setPtr dblk i c).disk c (fun _ => 0) c k = 0
          rw [update_self]
        have hslot : SlotHolds ((p.setPtr dblk i c).zeroBlock c) (some c) j
            (empty : RadixTree ℕ h) :=
          ⟨hnull j, trivial, by simp [blocks], by simp [blocks], trivial,
            by simp [blocks]⟩
        obtain ⟨ht', hch, hb, hfind⟩ := ih hslot hlen' hlt.2 hfnd.2 hfne.2
          (by simp [blocks])
          (by
            intro x heq
            cases heq
            exact hfnd.1) hok
        have hnode : (RadixTree.node c fun _ => (empty : RadixTree ℕ h)).Reps 1024
            ((p.setPtr dblk i c).zeroBlock c).disk := fun k _ => ⟨hnull k, trivial⟩
        refine ⟨nofun, SlotChange.node hlt.1 hch hnode
          (by rw [hblocks]; exact List.nodup_singleton c) ?_ (fun _ _ => trivial)
          ⟨j, hlt.1, by rwa [update_self]⟩ ?_ ?_ ?_ ?_
          (fun x hx => List.mem_cons_of_mem c hx) ?_ ?_, hb, ?_⟩
        · simpa [hblocks] using hfne.1
        · intro x hx hmem
          rw [hblocks, mem_singleton] at hmem
          subst hmem
          exact hfnd.1 hx
        · rw [ptrs_zeroBlock_of_ne _ hdblk, ptrs_setPtr_self]
        · intro x hx
          refine ⟨?_, fun hmem => hout x hx (List.mem_cons_of_mem c hmem)⟩
          rw [hblocks, mem_singleton]
          rintro rfl
          exact hdblk hx
        · intro x hx
          rw [hblocks, mem_singleton] at hx
          subst hx
          exact .inr mem_cons_self
        · intro d k hne hd
          rw [ptrs_zeroBlock_of_ne, ptrs_setPtr_of_ne p c hne]
          intro heq
          exact (hd c heq).2 mem_cons_self
        · intro x hx
          rw [hinner, mem_singleton] at hx
          subst hx
          exact .inr mem_cons_self
        · rw [put, find_node_update, if_pos rfl, hfind]
    · rw [if_neg hzero, if_neg (List.cons_ne_nil _ _)] at hok
      cases t with
      | empty => exact absurd hs.ptr hzero
      | node c kids =>
        have hptr : p.ptrs dblk i = c := hs.ptr
        rw [hptr] at hok
        obtain ⟨ht', hch, hb, hfind⟩ := ih (hs.kid hlt.1) hlen' hlt.2 hfnd hfne
          (fun x hx hin => hfresh x hx (mem_blocks_node.mpr (.inl ⟨j, hlt.1, hin⟩)))
          (by
            intro x heq hx
            cases heq
            exact hfresh _ hx (mem_blocks_node.mpr (.inr rfl))) hok
        refine ⟨nofun, hch.node hlt.1 hs.reps hs.nodup hs.nonzero hs.pruned.2
          ⟨j, hlt.1, by rwa [update_self]⟩ hfresh hptr
          (fun x hx => ⟨hs.outside x hx, hout x hx⟩) (fun x hx => .inl hx) (fun x hx => hx)
          (fun _ _ _ _ => rfl) (fun x hx => .inl hx), hb, ?_⟩
        rw [put, find_node_update, if_pos rfl, hfind]

theorem sweepBack_append (p : PSOSmall) (freed : List ℕ) (xs ys : List (Option ℕ × ℕ)) :
    sweepBack p freed (xs ++ ys) =
      if (sweepBack p freed xs).2.2 then
        sweepBack (sweepBack p freed xs).1 (sweepBack p freed xs).2.1 ys
      else sweepBack p freed xs := by
  induction xs generalizing p freed with
  | nil => rfl
  | cons x xs ih =>
    obtain ⟨dblk, i⟩ := x
    rw [List.cons_append]
    simp only [sweepBack]
    split
    · rfl
    · cases dblk with
      | none => exact ih _ _
      | some b =>
        simp only
        split
        · rfl
        · exact ih _ _

theorem SlotChange.freed {t : RadixTree ℕ h} (dblk : Option ℕ) (i : ℕ)
    (hframe : ∀ d j, (∀ x, d = some x → x ∉ t.inner 1024) → q.ptrs d j = p.ptrs d j) :
    SlotChange p (q.setPtr dblk i 0) dblk i t empty [] := by
  refine ⟨ptrs_setPtr_self .., trivial, List.nodup_nil, ?_, trivial, ?_, ?_⟩
  · exact fun x hx => absurd hx not_mem_nil
  · exact fun x hx => absurd hx not_mem_nil
  · intro d j hne hd
    rw [ptrs_setPtr_of_ne q 0 hne]
    exact hframe d j fun x hx => (hd x hx).1

theorem SlotHolds.change_kid {kids : ℕ → RadixTree ℕ h} {t' : RadixTree ℕ h}
    (hs : SlotHolds p dblk i (RadixTree.node c kids)) (hj : j < 1024)
    (hch : SlotChange p q (some c) j (kids j) t' [])
    (hkids : ∃ k < 1024, update kids j t' k ≠ empty) :
    SlotChange p q dblk i (RadixTree.node c kids) (RadixTree.node c (update kids j t'))
      [] := by
  refine SlotChange.node hj hch hs.reps hs.nodup hs.nonzero hs.pruned.2 hkids ?_ hs.ptr ?_ ?_ ?_
    (fun _ _ _ _ => rfl) ?_
  · exact fun x hx => absurd hx not_mem_nil
  · exact fun x hx => ⟨hs.outside x hx, not_mem_nil⟩
  · exact fun x hx => .inl hx
  · exact fun x hx => hx
  · exact fun x hx => .inl hx

theorem mem_inner_of_update {x : ℕ} {kids : ℕ → RadixTree ℕ h} {t' : RadixTree ℕ h}
    (hj : j < 1024) (hx : x ∈ (RadixTree.node c kids).inner 1024)
    (hgone : x ∉ (RadixTree.node c (update kids j t')).inner 1024) :
    x ∈ (kids j).inner 1024 ∧ x ∉ t'.inner 1024 := by
  obtain ⟨k, hk, hxk⟩ | rfl := mem_inner_node.mp hx
  · by_cases hkj : k = j
    · subst hkj
      refine ⟨hxk, fun hxt => hgone (mem_inner_node.mpr (.inl ⟨k, hk, ?_⟩))⟩
      rwa [update_self]
    · refine absurd (mem_inner_node.mpr (.inl ⟨k, hk, ?_⟩)) hgone
      rwa [update_of_ne hkj]
  · exact absurd (mem_inner_node.mpr (.inr rfl)) hgone

/-- What the sweep below a slot has done: either all of the tree but its root has gone, or the
tree stays without what the path prunes. -/
structure Swept {h : ℕ} (p q : PSOSmall) (dblk : Option ℕ) (i : ℕ) (t : RadixTree ℕ h)
    (rest freed g : List ℕ) (go : Bool) : Prop where
  zero : ∀ x ∈ t.inner 1024, x ∉ (prune 1024 t rest).1.inner 1024 → ∀ k < 1024, q.disk x k = 0
  cases : (go = true ∧ (prune 1024 t rest).1 = empty ∧
      freed ++ (prune 1024 t rest).2 = g ++ [t.root] ∧
      ∀ d j, (∀ x, d = some x → x ∉ t.inner 1024) → q.ptrs d j = p.ptrs d j) ∨
    (go = false ∧ g = freed ++ (prune 1024 t rest).2 ∧
      SlotChange p q dblk i t (prune 1024 t rest).1 [] ∧ (prune 1024 t rest).1 ≠ empty)

section Node

variable {h : ℕ} {q : PSOSmall} {dblk : Option ℕ} {i c j : ℕ} {kids : ℕ → RadixTree ℕ h}
  {rest freed g : List ℕ}

theorem Swept.node_stays (hs : SlotHolds p dblk i (RadixTree.node c kids)) (hj : j < 1024)
    (hw : Swept p q (some c) j (kids j) rest freed g false) :
    Swept p q dblk i (RadixTree.node c kids) (j :: rest) freed g false := by
  obtain ⟨hwiped, ⟨hgo, -⟩ | ⟨-, hgone, hch, hne⟩⟩ := hw
  · cases hgo
  have hkids : ∃ k < 1024, update kids j (prune 1024 (kids j) rest).1 k ≠ empty :=
    ⟨j, hj, by rwa [update_self]⟩
  obtain ⟨hall, -⟩ | ⟨-, heq⟩ := prune_node (n := 1024) c kids j rest
  · obtain ⟨k, hk, hne'⟩ := hkids
    exact absurd (hall k hk) hne'
  · refine ⟨?_, .inr ⟨rfl, ?_, ?_, ?_⟩⟩
    · rw [heq]
      intro x hx hx'
      obtain ⟨hin, hout⟩ := mem_inner_of_update hj hx hx'
      exact hwiped x hin hout
    · rw [heq]
      exact hgone
    · rw [heq]
      exact hs.change_kid hj hch hkids
    · rw [heq]
      exact nofun

/-- The subtree below pointer `j` has gone but for its root. The pointer is cleared, and the
node stays or goes. -/
theorem Swept.node_clears (hs : SlotHolds p dblk i (RadixTree.node c kids)) (hj : j < 1024)
    (hword : p.ptrs (some c) j ≠ 0) (hw : Swept p q (some c) j (kids j) rest freed g true) :
    ∃ q' g' go, sweepBack q g [(some c, j)] = (q', g', go) ∧
      Swept p q' dblk i (RadixTree.node c kids) (j :: rest) freed g' go := by
  obtain ⟨hwiped, ⟨-, hempty, hgone, hframe⟩ | ⟨hgo, -⟩⟩ := hw
  swap
  · cases hgo
  have hkid : ∀ x, some c = some x → x ∉ (kids j).inner 1024 := by
    intro x heq
    cases heq
    exact fun hx => notMem_kid_of_nodup hs.nodup hj (mem_blocks_of_inner hx)
  have hstill : q.ptrs (some c) j = (kids j).root := by
    rw [hframe (some c) j hkid]
    exact (hs.kid hj).ptr
  have hroot : (kids j).root ≠ 0 := by
    rw [← hstill, hframe (some c) j hkid]
    exact hword
  have hch := SlotChange.freed (some c) j hframe
  have hwiped' : ∀ x ∈ (kids j).inner 1024, ∀ k < 1024,
      (q.setPtr (some c) j 0).disk x k = 0 := by
    intro x hx k hk
    have hxc : x ≠ c := by
      rintro rfl
      exact hkid x rfl hx
    rw [setPtr_some_disk, if_neg (fun heq => hxc heq.1)]
    exact hwiped x hx (by rw [hempty]; exact not_mem_nil) k hk
  -- the other pointers are as they were, and lead to subtrees
  have hother : ∀ k < 1024, k ≠ j →
      ((q.setPtr (some c) j 0).disk c k = 0 ↔ update kids j empty k = empty) := by
    intro k hk hkj
    rw [update_of_ne hkj, ← root_eq_zero (hs.kid hk).nonzero, ← (hs.kid hk).ptr,
      ← hframe (some c) k hkid, setPtr_some_disk, if_neg (fun heq => hkj heq.2)]
    rfl
  have hprune := prune_node (n := 1024) c kids j rest
  rw [hempty] at hprune
  simp only [sweepBack, hstill, if_neg hroot, ← hgone]
  by_cases hused : (q.setPtr (some c) j 0).used c = true
  · have hkids : ∃ k < 1024, update kids j empty k ≠ empty := by
      obtain ⟨k, hk, hne⟩ := List.any_eq_true.mp hused
      have hne : (q.setPtr (some c) j 0).disk c k ≠ 0 := by simpa using hne
      rw [mem_range] at hk
      have hkj : k ≠ j := by
        rintro rfl
        exact hne (ptrs_setPtr_self q (some c) k 0)
      exact ⟨k, hk, fun hempty => hne ((hother k hk hkj).mpr hempty)⟩
    obtain ⟨hall, -⟩ | ⟨-, heq⟩ := hprune
    · obtain ⟨k, hk, hne⟩ := hkids
      exact absurd (hall k hk) hne
    · rw [if_pos hused]
      refine ⟨_, _, _, rfl, ?_, .inr ⟨rfl, ?_, ?_, ?_⟩⟩
      · rw [heq]
        intro x hx hx'
        exact hwiped' x (mem_inner_of_update hj hx hx').1
      · rw [heq]
      · rw [heq]
        exact hs.change_kid hj hch hkids
      · rw [heq]
        exact nofun
  · have hnull : ∀ k < 1024, (q.setPtr (some c) j 0).disk c k = 0 := by
      simpa [used] using hused
    obtain ⟨hall, heq⟩ | ⟨⟨k, hk, hne⟩, -⟩ := hprune
    · rw [if_neg hused]
      refine ⟨_, _, _, rfl, ?_, .inl ⟨rfl, ?_, ?_, ?_⟩⟩
      · intro x hx _
        obtain ⟨k, hk, hxk⟩ | rfl := mem_inner_node.mp hx
        · by_cases hkj : k = j
          · subst hkj
            exact hwiped' x hxk
          · have hkempty := hall k hk
            rw [update_of_ne hkj] at hkempty
            rw [hkempty] at hxk
            exact absurd hxk not_mem_nil
        · exact hnull
      · rw [heq]
      · rw [heq]
        exact (List.append_assoc _ _ _).symm
      · intro d k hd
        refine hch.frame d k ?_ ?_
        · intro heq
          exact hd c (congrArg Prod.fst heq) (mem_inner_node.mpr (.inr rfl))
        · intro x hx
          refine ⟨fun hin => hd x hx ?_, not_mem_nil⟩
          exact mem_inner_node.mpr (.inl ⟨j, hj, hin⟩)
    · refine absurd ?_ hne
      by_cases hkj : k = j
      · rw [hkj, update_self]
      · exact (hother k hk hkj).mp (hnull k hk)

end Node

theorem sweepBack_below : ∀ {h : ℕ} {p : PSOSmall} {dblk : Option ℕ} {i : ℕ}
    {t : RadixTree ℕ h} {cs : List (Option ℕ × ℕ)}, SlotHolds p dblk i t → rest.length = h →
    (∀ j ∈ rest, j < 1024) → p.cells dblk (i :: rest) = some cs → ∀ freed,
    ∃ sub q g go, cs = (dblk, i) :: sub ∧ p.ptrs dblk i ≠ 0 ∧
      sweepBack p freed sub.reverse = (q, g, go) ∧ Swept p q dblk i t rest freed g go := by
  induction rest with
  | nil =>
    intro h p dblk i t cs hs hlen _ hcells freed
    obtain rfl : h = 0 := hlen.symm
    rw [cells] at hcells
    by_cases hzero : p.ptrs dblk i = 0
    · rw [if_pos hzero] at hcells
      cases hcells
    · rw [if_neg hzero] at hcells
      cases hcells
      cases t with
      | empty => exact absurd hs.ptr hzero
      | leaf c =>
        refine ⟨[], p, freed, true, rfl, hzero, rfl, ?_, .inl ⟨rfl, rfl, rfl, ?_⟩⟩
        · exact fun x hx => absurd hx not_mem_nil
        · exact fun _ _ _ => rfl
  | cons j rest ih =>
    intro h p dblk i t cs hs hlen hlt hcells freed
    obtain ⟨h, rfl⟩ : ∃ k, h = k + 1 := ⟨rest.length, hlen.symm⟩
    simp only [forall_mem_cons] at hlt
    rw [cells] at hcells
    by_cases hzero : p.ptrs dblk i = 0
    · rw [if_pos hzero] at hcells
      cases hcells
    rw [if_neg hzero] at hcells
    cases t with
    | empty => exact absurd hs.ptr hzero
    | node c kids =>
      have hptr : p.ptrs dblk i = c := hs.ptr
      rw [hptr] at hcells
      obtain ⟨cs', hcells', rfl⟩ := Option.map_eq_some_iff.mp hcells
      obtain ⟨sub, q, g, go, rfl, hword, hsweep, hw⟩ :=
        ih (hs.kid hlt.1) (Nat.succ.inj hlen) hlt.2 hcells' freed
      have hrev : ((some c, j) :: sub).reverse = sub.reverse ++ [(some c, j)] := by simp
      have happend := sweepBack_append p freed sub.reverse [(some c, j)]
      rw [hsweep, ← hrev] at happend
      cases go with
      | true =>
        obtain ⟨q', g', go, hlast, hw'⟩ := hw.node_clears hs hlt.1 hword
        refine ⟨_, q', g', go, rfl, hzero, ?_, hw'⟩
        rw [happend, if_pos rfl, hlast]
      | false =>
        refine ⟨_, q, g, false, rfl, hzero, ?_, hw.node_stays hs hlt.1⟩
        rw [happend, if_neg (by simp)]

theorem cells_eq_none_iff : ∀ {h : ℕ} {dblk : Option ℕ} {i : ℕ}
    {t : RadixTree ℕ h}, SlotHolds p dblk i t → rest.length = h → (∀ j ∈ rest, j < 1024) →
    (p.cells dblk (i :: rest) = none ↔ find t rest = 0) := by
  induction rest with
  | nil =>
    intro h dblk i t hs hlen _
    obtain rfl : h = 0 := hlen.symm
    have hroot : find t [] = t.root := by cases t <;> rfl
    rw [cells, hs.ptr, hroot]
    split
    · next hzero => exact iff_of_true rfl hzero
    · next hzero => exact iff_of_false nofun hzero
  | cons j rest ih =>
    intro h dblk i t hs hlen hlt
    obtain ⟨h, rfl⟩ : ∃ k, h = k + 1 := ⟨rest.length, hlen.symm⟩
    simp only [forall_mem_cons] at hlt
    cases t with
    | empty =>
      rw [cells, hs.ptr, root_empty, if_pos rfl]
      exact iff_of_true rfl (find_empty _)
    | node c kids =>
      have hc : c ≠ 0 := hs.nonzero c (mem_blocks_node.mpr (.inr rfl))
      rw [cells, hs.ptr, root_node, if_neg hc, Option.map_eq_none_iff]
      exact ih (hs.kid hlt.1) (Nat.succ.inj hlen) hlt.2

theorem Holds.slot (h : Holds p F) (hi : i < 28) : SlotHolds p none i (F i) :=
  ⟨h.word i hi, h.reps i hi, nodup_of_flatMap h.nodup hi, h.nonzero i hi, h.pruned i hi,
    fun _ hx => nomatch hx⟩

/-- `getDblk` with allocation puts what is missing on the path, and returns what is at its end. -/
theorem Holds.getDblk_put (h : Holds p F) {fresh : List ℕ} (his : IsPath i rest)
    (hpath : blockToPath l = .ok (i :: rest)) (hnd : fresh.Nodup) (hne : ∀ x ∈ fresh, x ≠ 0)
    (hfresh : ∀ x ∈ fresh, ∀ k < 28, x ∉ (F k).blocks 1024)
    (hok : p.getDblk l true fresh = .ok (p', b)) :
    Holds p' (update F i ((F i).put rest fresh)) ∧
      (∀ x ∈ ((F i).put rest fresh).blocks 1024, x ∈ (F i).blocks 1024 ∨ x ∈ fresh) ∧
      b ≠ 0 ∧ find ((F i).put rest fresh) rest = b := by
  unfold PSOSmall.getDblk at hok
  rw [hpath] at hok
  obtain ⟨-, hch, hb, hfind⟩ := getDblkFrom_true (h.slot his.slot) his.length his.offsets hnd hne
    (fun x hx => hfresh x hx i his.slot) (fun _ hx => nomatch hx) hok
  exact ⟨h.change his.slot hch hfresh, hch.sub, hb, hfind⟩

theorem Holds.getDblk_create (h : Holds p F) {fresh : List ℕ}
    (hl : l < PSO_SMALL_MAXBLK) (hnd : fresh.Nodup) (hne : ∀ x ∈ fresh, x ≠ 0)
    (hfresh : ∀ x ∈ fresh, ∀ k < 28, x ∉ (F k).blocks 1024)
    (hok : p.getDblk l true fresh = .ok (p', b)) :
    ∃ F', Holds p' F' ∧ ∀ k < 28, ∀ x ∈ (F' k).blocks 1024, x ∈ (F k).blocks 1024 ∨ x ∈ fresh := by
  obtain ⟨i, rest, hpath, his, -⟩ := blockToPath_spec hl
  obtain ⟨hholds, hsub, -⟩ := h.getDblk_put his hpath hnd hne hfresh hok
  refine ⟨_, hholds, ?_⟩
  intro k hk x hx
  by_cases hki : k = i
  · subst hki
    rw [update_self] at hx
    exact hsub x hx
  · rw [update_of_ne hki] at hx
    exact .inl hx

theorem Holds.freeDblk_prune (h : Holds p F) (his : IsPath i rest)
    (hpath : blockToPath l = .ok (i :: rest)) (hfind : find (F i) rest ≠ 0) :
    ∃ p', p.freeDblk l = .ok (p', (prune 1024 (F i) rest).2) ∧
      Holds p' (update F i (prune 1024 (F i) rest).1) ∧
      ∀ x ∈ (F i).inner 1024, x ∉ (prune 1024 (F i) rest).1.inner 1024 →
        ∀ k < 1024, p'.disk x k = 0 := by
  unfold PSOSmall.freeDblk
  rw [hpath]
  simp only
  cases hcells : p.cells none (i :: rest) with
  | none => exact absurd ((cells_eq_none_iff (h.slot his.slot) his.length his.offsets).mp hcells) hfind
  | some cs =>
    obtain ⟨sub, q, g, go, rfl, hword, hsweep, hzero, hcase⟩ :=
      sweepBack_below (h.slot his.slot) his.length his.offsets hcells []
    have hrev : ((none, i) :: sub).reverse = sub.reverse ++ [(none, i)] := by simp
    simp only [hrev, sweepBack_append, hsweep]
    obtain ⟨rfl, hempty, hgone, hframe⟩ | ⟨rfl, rfl, hch, -⟩ := hcase
    · have hstill : q.ptrs none i = (F i).root := by
        rw [hframe none i fun _ hx => nomatch hx]
        exact (h.slot his.slot).ptr
      have hroot : (F i).root ≠ 0 := by
        rw [← hstill, hframe none i fun _ hx => nomatch hx]
        exact hword
      have hch := SlotChange.freed none i hframe
      rw [List.nil_append] at hgone
      simp only [if_true, sweepBack, hstill, if_neg hroot, ← hgone, hempty] at hzero ⊢
      exact ⟨_, rfl, h.change his.slot hch fun x hx => absurd hx not_mem_nil, hzero⟩
    · exact ⟨q, rfl, h.change his.slot hch fun x hx => absurd hx not_mem_nil, hzero⟩

theorem Holds.freeDblk_absent (h : Holds p F) (his : IsPath i rest)
    (hpath : blockToPath l = .ok (i :: rest)) (hfind : find (F i) rest = 0) :
    p.freeDblk l = .ok (p, []) := by
  unfold PSOSmall.freeDblk
  rw [hpath]
  simp only [(cells_eq_none_iff (h.slot his.slot) his.length his.offsets).mpr hfind]

theorem Holds.freeDblk (h : Holds p F) (hl : l < PSO_SMALL_MAXBLK) :
    ∃ p' freed F', p.freeDblk l = .ok (p', freed) ∧ Holds p' F' := by
  obtain ⟨i, rest, hpath, his, -⟩ := blockToPath_spec hl
  by_cases hfind : find (F i) rest = 0
  · exact ⟨p, [], F, h.freeDblk_absent his hpath hfind, h⟩
  · obtain ⟨p', hok, hF', -⟩ := h.freeDblk_prune his hpath hfind
    exact ⟨p', _, _, hok, hF'⟩

theorem Holds.write (h : Holds p F) (hb : ¬ IsIndirect p b) (data : ℕ → ℕ) :
    Holds { p with disk := update p.disk b data } F where
  word := h.word
  reps i hi := by
    refine (h.reps i hi).congr ?_
    intro x hx j _
    show update p.disk b data x j = p.disk x j
    rw [update_of_ne]
    rintro rfl
    exact hb (h.isIndirect_iff.mpr ⟨i, hi, hx⟩)
  nodup := h.nodup
  nonzero := h.nonzero
  pruned := h.pruned

/-! ## Runs -/

/-- The file has block `b`, for data or as an indirect block. -/
def InUse (p : PSOSmall) (b : ℕ) : Prop :=
  IsIndirect p b ∨ b ≠ 0 ∧ ∃ k < PSO_SMALL_MAXBLK, p.blockAt k = b

theorem Holds.inUse_of_mem (h : Holds p F) {k : ℕ} (hk : k < 28) (hb : b ∈ (F k).blocks 1024) :
    InUse p b := by
  obtain hin | ⟨hb0, rest, hlen, hlt, hfind⟩ := (mem_blocks_iff (h.nonzero k hk)).mp hb
  · exact .inl (h.isIndirect_iff.mpr ⟨k, hk, hin⟩)
  · have hpath : IsPath k rest := ⟨hk, hlen, hlt⟩
    obtain ⟨l, hl, hlpath, -⟩ := exists_blockToPath hpath
    exact .inr ⟨hb0, l, hl, by rw [h.blockAt hpath hlpath, hfind]⟩

theorem Holds.mem_of_inUse (h : Holds p F) (hb : InUse p b) :
    ∃ k < 28, b ∈ (F k).blocks 1024 := by
  obtain hind | ⟨hb0, l, hl, hblk⟩ := hb
  · obtain ⟨k, hk, hin⟩ := h.isIndirect_iff.mp hind
    exact ⟨k, hk, mem_blocks_of_inner hin⟩
  · obtain ⟨i, rest, hpath, his, -⟩ := blockToPath_spec hl
    rw [h.blockAt his hpath] at hblk
    exact ⟨i, his.slot, (mem_blocks_iff (h.nonzero i his.slot)).mpr
      (.inr ⟨hb0, rest, his.length, his.offsets, hblk⟩)⟩

inductive Call
  | getDblk (lblkno : ℕ) (fresh : List ℕ)
  | freeDblk (lblkno : ℕ)
  | truncate (lblkno : ℕ)
  | write (b : ℕ) (data : ℕ → ℕ)

/-- A call that panics leaves no map; the one before it stands for it. -/
def step (p : PSOSmall) : Call → PSOSmall
  | .getDblk lblkno fresh => ((p.getDblk lblkno true fresh).toOption.map Prod.fst).getD p
  | .freeDblk lblkno => ((p.freeDblk lblkno).toOption.map Prod.fst).getD p
  | .truncate lblkno => (p.truncate lblkno).1.pso
  | .write b data => { p with disk := update p.disk b data }

/-- Blocks are below the maximum, `allocBlock` returns blocks that are not in use,
and what is written is not an indirect block. A `truncate` that starts behind an
indirect pointer leaves no map (`truncate_fault`). -/
def Checked (p : PSOSmall) : Call → Prop
  | .getDblk lblkno fresh =>
    lblkno < PSO_SMALL_MAXBLK ∧ fresh.Nodup ∧ ∀ x ∈ fresh, x ≠ 0 ∧ ¬ InUse p x
  | .freeDblk lblkno => lblkno < PSO_SMALL_MAXBLK
  | .truncate lblkno => lblkno < PSO_SMALL_RECORD_MAXBLK
  | .write b _ => ¬ IsIndirect p b

def calls : Machine PSOSmall Call := ⟨step, Checked⟩

/-- A file without blocks. -/
def start : PSOSmall := ⟨fun _ => 0, fun _ _ => 0⟩

theorem start_holds : Holds start fun _ => empty where
  word _ _ := rfl
  reps _ _ := trivial
  nodup := by
    have hnil : (List.range 28).flatMap
        (fun i => (empty : RadixTree ℕ (i - 24)).blocks 1024) = [] :=
      List.flatMap_eq_nil_iff.mpr fun _ _ => rfl
    rw [hnil]
    exact List.nodup_nil
  nonzero _ _ x hx := absurd hx not_mem_nil
  pruned _ _ := trivial

theorem Holds.step (h : Holds p F) {call : Call} (hadm : p.Checked call) :
    ∃ F', Holds (p.step call) F' := by
  cases call with
  | getDblk l fresh =>
    obtain ⟨hl, hnd, hfresh⟩ := hadm
    change ∃ F', Holds (((p.getDblk l true fresh).toOption.map Prod.fst).getD p) F'
    cases hok : p.getDblk l true fresh with
    | error e => exact ⟨F, h⟩
    | ok r =>
      obtain ⟨F', hF', -⟩ := h.getDblk_create hl hnd (fun x hx => (hfresh x hx).1)
        (fun x hx k hk hmem => (hfresh x hx).2 (h.inUse_of_mem hk hmem)) hok
      exact ⟨F', hF'⟩
  | freeDblk l =>
    obtain ⟨p', freed, F', hok, hF'⟩ := h.freeDblk hadm
    refine ⟨F', ?_⟩
    change Holds (((p.freeDblk l).toOption.map Prod.fst).getD p) F'
    rw [hok]
    exact hF'
  | truncate l =>
    obtain ⟨s, hok, -, hpso⟩ := h.truncate hadm
    refine ⟨F.below l, ?_⟩
    change Holds (p.truncate l).1.pso _
    rw [hok, hpso]
    exact h.cut hadm
  | write b data => exact ⟨F, h.write hadm data⟩

theorem run_holds {ops : List Call} (hrun : calls.Run start ops p) : ∃ F, Holds p F := by
  refine hrun.invariant (I := fun p => ∃ F, Holds p F) ⟨_, start_holds⟩ ?_
  rintro p call ⟨F, h⟩ hadm
  exact h.step hadm

/-- In every map that the calls build. -/
theorem run_truncates {ops : List Call} (hrun : calls.Run start ops p) {l : ℕ}
    (hl : l < PSO_SMALL_MAXBLK) : (∃ s, p.truncate l = (s, none) ∧ Truncated p l s.pso s.freed) ↔
      l < PSO_SMALL_RECORD_MAXBLK := by
  obtain ⟨F, h⟩ := run_holds hrun
  exact h.truncate_iff hl

theorem not_inUse_start (b : ℕ) : ¬ InUse start b := by
  intro hb
  obtain ⟨k, -, hmem⟩ := start_holds.mem_of_inUse hb
  exact absurd hmem not_mem_nil

/-- A block behind two indirect blocks. -/
theorem run_truncates_deep :
    calls.Run start [.getDblk 1054 [7, 8, 9]] (start.step (.getDblk 1054 [7, 8, 9])) ∧
      ∃ s, (start.step (.getDblk 1054 [7, 8, 9])).truncate 3 = (s, none) ∧
        Truncated (start.step (.getDblk 1054 [7, 8, 9])) 3 s.pso s.freed := by
  have hrun : calls.Run start [.getDblk 1054 [7, 8, 9]]
      (start.step (.getDblk 1054 [7, 8, 9])) := by
    refine Machine.Run.snoc .nil ⟨by decide, by decide, fun x hx => ⟨?_, not_inUse_start x⟩⟩
    rintro rfl
    exact absurd hx (by decide)
  exact ⟨hrun, (run_truncates hrun (by decide)).mpr (by decide)⟩

/-- Data block `5`, behind a direct pointer, and data block `30`, behind an indirect
one. -/
def twoBlocks : List Call := [.getDblk 5 [77], .getDblk 30 [90, 91]]

/-- Truncating to block `30` frees block `5`, and then runs past the record. -/
theorem not_truncated_of_indirect :
    ∃ p, calls.Run start twoBlocks p ∧ p.blockAt 5 = 77 ∧ 77 ∈ (p.truncate 30).1.freed ∧
      ¬ ∃ s, p.truncate 30 = (s, none) ∧ Truncated p 30 s.pso s.freed := by
  have hfirst : start.getDblk 5 true [77] = .ok (start.step (.getDblk 5 [77]), 77) := rfl
  have hused : ∀ x, InUse (start.step (.getDblk 5 [77])) x → x = 77 := by
    intro x hx
    obtain ⟨F', hF', hsub⟩ := start_holds.getDblk_create (by decide) (by decide) (by decide)
      (fun _ _ _ _ => not_mem_nil) hfirst
    obtain ⟨k, hk, hmem⟩ := hF'.mem_of_inUse hx
    simpa [RadixTree.blocks] using hsub k hk x hmem
  have hrun : calls.Run start twoBlocks
      ((start.step (.getDblk 5 [77])).step (.getDblk 30 [90, 91])) := by
    have hone : calls.Run start [.getDblk 5 [77]] (start.step (.getDblk 5 [77])) := by
      refine Machine.Run.snoc .nil ?_
      refine ⟨by decide, by decide, fun x hx => ⟨?_, not_inUse_start x⟩⟩
      rintro rfl
      exact absurd hx (by decide)
    refine Machine.Run.snoc hone ⟨by decide, by decide, fun x hx => ⟨?_, fun hin => ?_⟩⟩
    · rintro rfl
      exact absurd hx (by decide)
    · rw [hused x hin] at hx
      exact absurd hx (by decide)
  refine ⟨_, hrun, by decide +kernel, by decide +kernel, ?_⟩
  rintro ⟨s, hs, -⟩
  obtain ⟨s', f, hs'⟩ := truncate_fault
    ((start.step (.getDblk 5 [77])).step (.getDblk 30 [90, 91])) (by decide : 25 ≤ 30) (by decide)
  rw [hs'] at hs
  cases hs

end PSOSmall

end K42
