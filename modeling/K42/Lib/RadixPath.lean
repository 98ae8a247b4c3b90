import K42.Lib.RadixTree

/-!
# One path of a tree of pointers

`put` makes the nodes that a path lacks, and a leaf at its end, out of a list of new labels.
`prune` takes the leaf at the end of a path away, and with it every node that has no subtree
left. Neither changes what is at the end of another path.
-/

open Function (update update_of_ne update_self)
open List (mem_cons mem_cons_self mem_cons_of_mem mem_singleton not_mem_nil mem_append_left
  append_assoc nil_append cons_append forall_mem_cons)

universe u

namespace RadixTree

variable {α : Type u} {h n : ℕ}

/-! ## Labels at the end of a path -/

theorem find_mem_blocks [Zero α] : ∀ {h : ℕ} (t : RadixTree α h) {path : List ℕ},
    (∀ i ∈ path, i < n) → find t path ≠ 0 → find t path ∈ blocks n t
  | _, empty, path, _, hne => absurd (by cases path <;> rfl) hne
  | _, leaf b, path, _, _ => by
    rw [find, blocks]
    exact mem_cons_self
  | _, node b kids, [], _, hne => absurd rfl hne
  | _, node b kids, j :: path, hlt, hne => by
    simp only [forall_mem_cons] at hlt
    exact mem_blocks_node.mpr (.inl ⟨j, hlt.1, find_mem_blocks (kids j) hlt.2 hne⟩)

/-- Where no label is there twice, no two paths lead to the same one. -/
theorem find_injective [Zero α] : ∀ {h : ℕ} (t : RadixTree α h) {path path' : List ℕ},
    (blocks n t).Nodup → path.length = h → path'.length = h → (∀ i ∈ path, i < n) →
    (∀ i ∈ path', i < n) → find t path ≠ 0 → find t path = find t path' → path = path'
  | 0, t, [], [], _, _, _, _, _, _, _ => rfl
  | h + 1, empty, j :: path, _, _, _, _, _, _, hne, _ => absurd rfl hne
  | h + 1, node b kids, j :: path, i :: path', hnd, hlen, hlen', hlt, hlt', hne, heq => by
    simp only [forall_mem_cons] at hlt hlt'
    have hmem := find_mem_blocks (kids j) hlt.2 hne
    have hmem' : find (kids j) path ∈ blocks n (kids i) := by
      have hfind : find (kids j) path = find (kids i) path' := heq
      rw [hfind]
      rw [find, hfind] at hne
      exact find_mem_blocks (kids i) hlt'.2 hne
    have hij : j = i := by
      by_contra hji
      exact disjoint_of_flatMap (nodup_kids hnd) hlt.1 hlt'.1 hji hmem hmem'
    subst hij
    rw [find_injective (kids j) (nodup_of_flatMap (nodup_kids hnd) hlt.1) (Nat.succ.inj hlen)
      (Nat.succ.inj hlen') hlt.2 hlt'.2 hne heq]

/-! ## Adding a leaf -/

/-- A leaf at the end of the path, unless there is one. The labels are used from the front. -/
def put : {h : ℕ} → RadixTree α h → List ℕ → List α → RadixTree α h
  | 0, empty, _, c :: _ => leaf c
  | _ + 1, empty, j :: path, c :: fresh =>
    node c (update (fun _ => empty) j (put empty path fresh))
  | _ + 1, node b kids, j :: path, fresh =>
    node b (update kids j (put (kids j) path fresh))
  | _, t, _, _ => t

attribute [local simp] find put

section Put

variable [Zero α]

@[simp] theorem find_empty (path : List ℕ) : find (empty : RadixTree α h) path = 0 := by
  cases path <;> rfl

theorem find_node_update {b : α} {kids : ℕ → RadixTree α h} {t : RadixTree α h} {i j : ℕ}
    (path : List ℕ) : find (node b (update kids j t)) (i :: path) =
      if i = j then find t path else find (kids i) path := by
  rw [find]
  by_cases hij : i = j
  · rw [if_pos hij, hij, update_self]
  · rw [if_neg hij, update_of_ne hij]

theorem find_put_of_ne : ∀ {h : ℕ} (t : RadixTree α h) {path path' : List ℕ} (fresh : List α),
    path.length = h → path'.length = h → path' ≠ path →
    find (put t path fresh) path' = find t path'
  | 0, t, [], [], _, _, _, hne => absurd rfl hne
  | h + 1, t, j :: path, i :: path', fresh, hlen, hlen', hne => by
    have hpath := Nat.succ.inj hlen
    have hpath' := Nat.succ.inj hlen'
    cases t with
    | empty =>
      cases fresh with
      | nil => rfl
      | cons c fresh =>
        rw [put, find_node_update]
        split
        · next hij =>
            rw [find_put_of_ne empty fresh hpath hpath' (fun heq => hne (by rw [hij, heq]))]
            rw [find_empty, find_empty]
        · rw [find_empty, find_empty]
    | node b kids =>
      rw [put, find_node_update]
      split
      · next hij =>
          subst hij
          exact find_put_of_ne (kids i) fresh hpath hpath' (fun heq => hne (by rw [heq]))
      · rfl

end Put

/-! ## Taking a leaf away -/

def isEmpty : RadixTree α h → Bool
  | empty => true
  | leaf _ => false
  | node _ _ => false

theorem isEmpty_iff {t : RadixTree α h} : t.isEmpty = true ↔ t = empty := by
  cases t <;> simp [isEmpty]

/-- The tree without the leaf at the end of the path and the nodes that this leaves without
subtrees, and the labels that go, deepest first. -/
def prune (n : ℕ) : {h : ℕ} → RadixTree α h → List ℕ → RadixTree α h × List α
  | _, empty, _ => (empty, [])
  | _, leaf b, _ => (empty, [b])
  | _, node b kids, [] => (node b kids, [])
  | _, node b kids, j :: path =>
    let r := prune n (kids j) path
    if (List.range n).all fun k => (update kids j r.1 k).isEmpty then
      (empty, r.2 ++ [b])
    else (node b (update kids j r.1), r.2)

/-- The labels of the nodes on a path. -/
def along : {h : ℕ} → RadixTree α h → List ℕ → List α
  | _, empty, _ => []
  | _, leaf _, _ => []
  | _, node _ _, [] => []
  | _, node b kids, j :: path => b :: along (kids j) path

/-- A node without subtrees goes, any other one stays. -/
theorem prune_node (b : α) (kids : ℕ → RadixTree α h) (j : ℕ) (path : List ℕ) :
    (∀ k < n, update kids j (prune n (kids j) path).1 k = empty) ∧
        prune n (node b kids) (j :: path) = (empty, (prune n (kids j) path).2 ++ [b]) ∨
      (∃ k < n, update kids j (prune n (kids j) path).1 k ≠ empty) ∧
        prune n (node b kids) (j :: path) =
          (node b (update kids j (prune n (kids j) path).1), (prune n (kids j) path).2) := by
  rw [prune]
  by_cases hall : ∀ k < n, update kids j (prune n (kids j) path).1 k = empty
  · refine .inl ⟨hall, if_pos ?_⟩
    simpa [isEmpty_iff] using hall
  · refine .inr ⟨by push Not at hall; exact hall, if_neg ?_⟩
    simpa [isEmpty_iff] using hall

attribute [local simp] prune

section Prune

variable [Zero α]

theorem find_prune_self : ∀ {h : ℕ} (t : RadixTree α h) (path : List ℕ), path.length = h →
    find (prune n t path).1 path = 0
  | _, empty, path, _ => by rw [prune, find_empty]
  | _, leaf b, path, _ => by rw [prune, find_empty]
  | _, node b kids, j :: path, hlen => by
    obtain ⟨-, heq⟩ | ⟨-, heq⟩ := prune_node (n := n) b kids j path
    · rw [heq, find_empty]
    · rw [heq, find_node_update, if_pos rfl]
      exact find_prune_self (kids j) path (Nat.succ.inj hlen)

theorem find_prune_of_ne : ∀ {h : ℕ} (t : RadixTree α h) {path path' : List ℕ},
    path.length = h → path'.length = h → (∀ i ∈ path', i < n) → path' ≠ path →
    find (prune n t path).1 path' = find t path'
  | 0, t, [], [], _, _, _, hne => absurd rfl hne
  | h + 1, empty, j :: path, _, _, _, _, _ => rfl
  | h + 1, node b kids, j :: path, i :: path', hlen, hlen', hlt, hne => by
    have hpath := Nat.succ.inj hlen
    have hpath' := Nat.succ.inj hlen'
    simp only [forall_mem_cons] at hlt
    have hkid : find (update kids j (prune n (kids j) path).1 i) path' =
        find (kids i) path' := by
      by_cases hij : i = j
      · subst hij
        rw [update_self]
        exact find_prune_of_ne (kids i) hpath hpath' hlt.2 (fun heq => hne (by rw [heq]))
      · rw [update_of_ne hij]
    obtain ⟨hall, heq⟩ | ⟨-, heq⟩ := prune_node (n := n) b kids j path
    · rw [heq, find_empty, find, ← hkid, hall i hlt.1, find_empty]
    · rw [heq]
      exact hkid

/-- What goes is on the path, or is the leaf at its end. -/
theorem mem_prune : ∀ {h : ℕ} (t : RadixTree α h) {path : List ℕ} {x : α},
    x ∈ (prune n t path).2 → x ∈ along t path ∨ x = find t path
  | _, empty, path, x, hx => absurd hx not_mem_nil
  | _, leaf b, path, x, hx => by
    rw [prune, mem_singleton] at hx
    exact .inr hx
  | _, node b kids, [], x, hx => absurd hx not_mem_nil
  | _, node b kids, j :: path, x, hx => by
    obtain ⟨-, heq⟩ | ⟨-, heq⟩ := prune_node (n := n) b kids j path
    · rw [heq, List.mem_append, mem_singleton] at hx
      rcases hx with hx | rfl
      · exact (mem_prune (kids j) hx).imp (mem_cons_of_mem b) id
      · exact .inl mem_cons_self
    · rw [heq] at hx
      exact (mem_prune (kids j) hx).imp (mem_cons_of_mem b) id

end Prune

/-! ### The labels that go -/

theorem perm_flatMap_update {β : Type u} (f : ℕ → List β) (ys : List β) {j : ℕ} : ∀ {l : List ℕ},
    l.Nodup → j ∈ l → (f j ++ l.flatMap (update f j ys)).Perm (ys ++ l.flatMap f)
  | i :: l, hnd, hj => by
    obtain ⟨hi, hnd⟩ := List.nodup_cons.mp hnd
    rw [List.flatMap_cons, List.flatMap_cons]
    by_cases hij : i = j
    · subst hij
      have hrest : l.flatMap (update f i ys) = l.flatMap f := by
        apply List.flatMap_congr
        intro k hk
        rw [update_of_ne]
        rintro rfl
        exact hi hk
      rw [hrest, update_self, ← append_assoc, ← append_assoc]
      exact List.perm_append_comm.append_right _
    · have hjl : j ∈ l := by simpa [Ne.symm hij] using hj
      have hrest := perm_flatMap_update f ys hnd hjl
      rw [update_of_ne hij]
      calc List.Perm (f j ++ (f i ++ l.flatMap (update f j ys)))
            (f i ++ (f j ++ l.flatMap (update f j ys))) := by
              rw [← append_assoc, ← append_assoc]
              exact List.perm_append_comm.append_right _
        List.Perm _ (f i ++ (ys ++ l.flatMap f)) := hrest.append_left _
        List.Perm _ (ys ++ (f i ++ l.flatMap f)) := by
              rw [← append_assoc, ← append_assoc]
              exact List.perm_append_comm.append_right _

theorem perm_prune : ∀ {h : ℕ} (t : RadixTree α h) {path : List ℕ}, (∀ i ∈ path, i < n) →
    ((prune n t path).2 ++ blocks n (prune n t path).1).Perm (blocks n t)
  | _, empty, path, _ => .refl _
  | _, leaf b, path, _ => .refl _
  | _, node b kids, [], _ => .refl _
  | _, node b kids, j :: path, hlt => by
    simp only [forall_mem_cons] at hlt
    have hkid := perm_prune (kids j) hlt.2
    have hsame : (fun k => blocks n (update kids j (prune n (kids j) path).1 k)) =
        update (fun k => blocks n (kids k)) j
          (blocks n (prune n (kids j) path).1) := by
      funext k
      exact Function.apply_update (fun _ t => blocks n t) kids j _ k
    have hkids : ((prune n (kids j) path).2 ++ (List.range n).flatMap
        fun k => blocks n (update kids j (prune n (kids j) path).1 k)).Perm
          ((List.range n).flatMap fun k => blocks n (kids k)) := by
      have hupdate := perm_flatMap_update (fun k => blocks n (kids k))
        (blocks n (prune n (kids j) path).1) List.nodup_range (List.mem_range.mpr hlt.1)
      rw [← hsame] at hupdate
      refine (List.perm_append_left_iff (blocks n (kids j))).mp ?_
      refine (List.perm_append_comm_assoc _ _ _).trans ?_
      refine (hupdate.append_left _).trans ?_
      rw [← append_assoc]
      exact hkid.append_right _
    obtain ⟨hall, heq⟩ | ⟨-, heq⟩ := prune_node (n := n) b kids j path
    · have hnil : ((List.range n).flatMap
          fun k => blocks n (update kids j (prune n (kids j) path).1 k)) = [] := by
        apply List.flatMap_eq_nil_iff.mpr
        intro k hk
        rw [hall k (List.mem_range.mp hk)]
        rfl
      rw [hnil, List.append_nil] at hkids
      rw [heq, blocks, blocks, List.append_nil]
      exact hkids.append_right _
    · rw [heq, blocks, blocks, ← append_assoc]
      exact hkids.append_right _

/-- A leaf at the end of the path goes. -/
theorem find_mem_prune [Zero α] : ∀ {h : ℕ} (t : RadixTree α h) {path : List ℕ},
    find t path ≠ 0 → find t path ∈ (prune n t path).2
  | _, empty, path, hne => absurd (find_empty path) hne
  | _, leaf b, path, _ => by
    rw [prune, find]
    exact mem_cons_self
  | _, node b kids, [], hne => absurd rfl hne
  | _, node b kids, j :: path, hne => by
    have hmem := find_mem_prune (kids j) hne
    obtain ⟨-, heq⟩ | ⟨-, heq⟩ := prune_node (n := n) b kids j path
    · rw [heq]
      exact mem_append_left _ hmem
    · rw [heq]
      exact hmem

/-- A node on the path goes or stays. -/
theorem mem_prune_or_inner {x : α} : ∀ {h : ℕ} {t : RadixTree α h} {path : List ℕ},
    (∀ i ∈ path, i < n) → x ∈ along t path →
    x ∈ (prune n t path).2 ∨ x ∈ inner n (prune n t path).1
  | _, node b kids, j :: path, hlt, hx => by
    simp only [forall_mem_cons] at hlt
    obtain ⟨hall, heq⟩ | ⟨-, heq⟩ := prune_node (n := n) b kids j path
    · rw [heq]
      rcases mem_cons.mp hx with rfl | hx
      · exact .inl (List.mem_append_right _ mem_cons_self)
      · have hkid := hall j hlt.1
        rw [update_self] at hkid
        have hgone := mem_prune_or_inner hlt.2 hx
        rw [hkid] at hgone
        exact .inl (mem_append_left _ (hgone.resolve_right not_mem_nil))
    · rw [heq]
      rcases mem_cons.mp hx with rfl | hx
      · exact .inr (mem_inner_node.mpr (.inr rfl))
      · refine (mem_prune_or_inner hlt.2 hx).imp id fun hin => ?_
        refine mem_inner_node.mpr (.inl ⟨j, hlt.1, ?_⟩)
        rw [update_self]
        exact hin

/-- A node of a tree without empty nodes has a pointer that is not null. -/
theorem Reps.exists_ne_zero [Zero α] {mem : α → ℕ → α} {x : α} {t : RadixTree α h}
    (hreps : Reps n mem t) (hpruned : Pruned n t) (hne : ∀ x ∈ blocks n t, x ≠ 0)
    (hx : x ∈ inner n t) : ∃ i < n, mem x i ≠ 0 := by
  induction t with
  | empty => exact absurd hx not_mem_nil
  | leaf b => exact absurd hx not_mem_nil
  | node b kids ih =>
    have hkids : ∀ i < n, ∀ x ∈ blocks n (kids i), x ≠ 0 := fun i hi x hx =>
      hne x (mem_blocks_node.mpr (.inl ⟨i, hi, hx⟩))
    obtain ⟨i, hi, hx⟩ | rfl := mem_inner_node.mp hx
    · exact ih i (hreps i hi).2 (hpruned.2 i hi) (hkids i hi) hx
    · obtain ⟨i, hi, hkid⟩ := hpruned.1
      refine ⟨i, hi, ?_⟩
      rw [(hreps i hi).1]
      exact fun hroot => hkid ((root_eq_zero (hkids i hi)).mp hroot)

theorem mem_along {x : α} : ∀ {h : ℕ} {t : RadixTree α h} {path : List ℕ},
    (∀ i ∈ path, i < n) → x ∈ along t path → x ∈ inner n t
  | _, node b kids, j :: path, hlt, hx => by
    simp only [forall_mem_cons] at hlt
    rcases mem_cons.mp hx with rfl | hx
    · exact mem_inner_node.mpr (.inr rfl)
    · exact mem_inner_node.mpr (.inl ⟨j, hlt.1, mem_along hlt.2 hx⟩)

/-- The last index of the path leads to the only subtree of its node. -/
def Lonely [Zero α] (n : ℕ) (t : RadixTree α h) (path : List ℕ) (last : ℕ) : Prop :=
  ∀ j < n, j ≠ last → find t (path ++ [j]) = 0

theorem along_zero (t : RadixTree α 0) (path : List ℕ) : along t path = [] := by
  cases t <;> rfl

section Lonely

variable [Zero α]

/-- A leaf that is the only subtree of its node takes the node away. -/
theorem Lonely.exists_prune : ∀ {h : ℕ} {t : RadixTree α h} {path : List ℕ} {last : ℕ},
    (path ++ [last]).length = h → (∀ i ∈ path ++ [last], i < n) → (∀ x ∈ blocks n t, x ≠ 0) →
    find t (path ++ [last]) ≠ 0 → Lonely n t path last →
    ∃ x ∈ along t (path ++ [last]), x ∈ (prune n t (path ++ [last])).2
  | _, empty, path, last, _, _, _, hfind, _ => absurd (find_empty _) hfind
  | _, leaf b, path, last, hlen, _, _, _, _ => by simp at hlen
  | h + 2, node b kids, [], last, hlen, _, _, _, _ => by simp at hlen
  | 1, node b kids, [], last, _, _, hne, _, hlonely => by
    refine ⟨b, mem_cons_self, ?_⟩
    rw [nil_append]
    obtain ⟨-, heq⟩ | ⟨⟨k, hk, hkid⟩, -⟩ := prune_node (n := n) b kids last []
    · rw [heq]
      exact List.mem_append_right _ mem_cons_self
    · -- the subtree that keeps the node is another leaf
      exfalso
      apply hkid
      by_cases hkl : k = last
      · subst hkl
        rw [update_self]
        cases kids k <;> rfl
      · rw [update_of_ne hkl]
        have hzero := hlonely k hk hkl
        rw [nil_append, find] at hzero
        cases hkid' : kids k with
        | empty => rfl
        | leaf c =>
          rw [hkid'] at hzero
          refine absurd hzero (hne c (mem_blocks_node.mpr (.inl ⟨k, hk, ?_⟩)))
          rw [hkid']
          exact mem_cons_self
  | _, node b kids, i :: path, last, hlen, hlt, hne, hfind, hlonely => by
    rw [cons_append, forall_mem_cons] at hlt
    have hkid : ∀ x ∈ blocks n (kids i), x ≠ 0 := fun x hx =>
      hne x (mem_blocks_node.mpr (.inl ⟨i, hlt.1, hx⟩))
    obtain ⟨x, hx, hgone⟩ :=
      Lonely.exists_prune (t := kids i) (Nat.succ.inj hlen) hlt.2 hkid hfind hlonely
    refine ⟨x, mem_cons_of_mem b hx, ?_⟩
    obtain ⟨-, heq⟩ | ⟨-, heq⟩ := prune_node (n := n) b kids i (path ++ [last])
    · rw [cons_append, heq]
      exact mem_append_left _ hgone
    · rw [cons_append, heq]
      exact hgone

/-- The nodes on the way to a leaf that is left stay. -/
theorem along_prune : ∀ {h : ℕ} {t : RadixTree α h} {path : List ℕ} {last j : ℕ},
    (path ++ [last]).length = h → find (prune n t (path ++ [last])).1 (path ++ [j]) ≠ 0 →
    ∀ x ∈ along t (path ++ [last]), x ∈ along (prune n t (path ++ [last])).1 (path ++ [j])
  | _, empty, path, last, j, _, hfind, _, hx => hx
  | _, leaf b, path, last, j, hlen, _, _, _ => by simp at hlen
  | h + 2, node b kids, [], last, j, hlen, _, _, _ => by simp at hlen
  | 1, node b kids, [], last, j, _, hfind, x, hx => by
    rw [nil_append] at hfind hx ⊢
    obtain ⟨-, heq⟩ | ⟨-, heq⟩ := prune_node (n := n) b kids last []
    · rw [heq, find_empty] at hfind
      exact absurd rfl hfind
    · have hb : x = b := by simpa [along, along_zero] using hx
      rw [heq, hb]
      exact mem_cons_self
  | _, node b kids, i :: path, last, j, hlen, hfind, x, hx => by
    rw [cons_append] at hfind hx ⊢
    obtain ⟨-, heq⟩ | ⟨-, heq⟩ := prune_node (n := n) b kids i (path ++ [last])
    · rw [heq, find_empty] at hfind
      exact absurd rfl hfind
    · rw [heq] at hfind ⊢
      rw [cons_append, find_node_update, if_pos rfl] at hfind
      rw [cons_append, along, update_self]
      rcases mem_cons.mp hx with rfl | hx
      · exact mem_cons_self
      · exact mem_cons_of_mem b (along_prune (Nat.succ.inj hlen) hfind x hx)

/-- A node on the way to a leaf goes exactly if the leaf is the only subtree of its node. -/
theorem exists_along_prune_iff {t : RadixTree α h} {path : List ℕ} {last : ℕ}
    (hlen : (path ++ [last]).length = h) (hlt : ∀ i ∈ path ++ [last], i < n)
    (hne : ∀ x ∈ blocks n t, x ≠ 0) (hnd : (blocks n t).Nodup)
    (hfind : find t (path ++ [last]) ≠ 0) :
    (∃ x ∈ along t (path ++ [last]), x ∈ (prune n t (path ++ [last])).2) ↔
      Lonely n t path last := by
  constructor
  · rintro ⟨x, hx, hgone⟩ j hj hjl
    by_contra hother
    have hlen' : (path ++ [j]).length = h := by simpa using hlen
    have hlt' : ∀ i ∈ path ++ [j], i < n := by
      intro i hi
      rcases List.mem_append.mp hi with hi | hi
      · exact hlt i (mem_append_left _ hi)
      · rw [mem_singleton.mp hi]
        exact hj
    have hstill := find_prune_of_ne t hlen hlen' hlt' (by simpa using hjl)
    rw [← hstill] at hother
    -- the node is in the tree that is left, and no label is there twice
    have hstays := mem_blocks_of_inner (mem_along hlt' (along_prune hlen hother x hx))
    have hnd' := (perm_prune t hlt).nodup_iff.mpr hnd
    exact (List.nodup_append.mp hnd').2.2 x hgone x hstays rfl
  · exact Lonely.exists_prune hlen hlt hne hfind

end Lonely

end RadixTree
