import Mathlib.Data.List.Nodup
import Mathlib.Data.List.Range

/-!
# Trees of pointers

A tree of height `h` is empty, or a leaf if `h` is zero, or a node with `n`
subtrees of height `h - 1`. Leaves and nodes carry a label, the address at which
they live; an empty subtree stands for a null pointer. `Reps mem t` says that the
memory `mem` holds the nodes of `t`: word `i` of a node is the label of its
`i`-th subtree. Leaves are data, and the memory at them is free.
-/

open Function (update_of_ne update_self update)

universe u

inductive RadixTree (α : Type u) : ℕ → Type u
  | empty {h : ℕ} : RadixTree α h
  | leaf (b : α) : RadixTree α 0
  | node {h : ℕ} (b : α) (kids : ℕ → RadixTree α h) : RadixTree α (h + 1)

namespace RadixTree

open List (mem_range nodup_flatMap not_mem_nil range)

variable {α : Type u} {h : ℕ}

/-- The label at the top, zero if there is none. -/
def root [Zero α] : RadixTree α h → α
  | empty => 0
  | leaf b => b
  | node b _ => b

/-- All labels, those of a node's subtrees before its own. -/
def blocks (n : ℕ) : {h : ℕ} → RadixTree α h → List α
  | _, empty => []
  | _, leaf b => [b]
  | _, node b kids => ((List.range n).flatMap fun i => blocks n (kids i)) ++ [b]

/-- The labels of the nodes. -/
def inner (n : ℕ) : {h : ℕ} → RadixTree α h → List α
  | _, empty => []
  | _, leaf _ => []
  | _, node b kids => ((List.range n).flatMap fun i => inner n (kids i)) ++ [b]

/-- The leaf at the end of a path, zero if there is none. -/
def find [Zero α] : {h : ℕ} → RadixTree α h → List ℕ → α
  | _, leaf b, _ => b
  | _, node _ kids, i :: path => find (kids i) path
  | _, _, _ => 0

/-- No node is without subtrees. -/
def Pruned (n : ℕ) : {h : ℕ} → RadixTree α h → Prop
  | _, empty => True
  | _, leaf _ => True
  | _, node _ kids => (∃ i < n, kids i ≠ empty) ∧ ∀ i < n, Pruned n (kids i)

/-- The memory holds the nodes of the tree. -/
def Reps [Zero α] (n : ℕ) (mem : α → ℕ → α) : {h : ℕ} → RadixTree α h → Prop
  | _, empty => True
  | _, leaf _ => True
  | _, node b kids => ∀ i < n, mem b i = root (kids i) ∧ Reps n mem (kids i)

attribute [local simp] blocks inner

variable {n : ℕ} {b : α} {kids : ℕ → RadixTree α h} {t : RadixTree α h}

theorem mem_blocks_node {x : α} :
    x ∈ blocks n (node b kids) ↔ (∃ i < n, x ∈ blocks n (kids i)) ∨ x = b := by
  simp

theorem mem_inner_node {x : α} :
    x ∈ inner n (node b kids) ↔ (∃ i < n, x ∈ inner n (kids i)) ∨ x = b := by
  simp

theorem mem_blocks_of_inner {x : α} (hx : x ∈ inner n t) : x ∈ blocks n t := by
  induction t with
  | empty => exact hx
  | leaf b => exact absurd hx not_mem_nil
  | node b kids ih =>
    obtain ⟨i, hi, hx⟩ | rfl := mem_inner_node.mp hx
    · exact mem_blocks_node.mpr (.inl ⟨i, hi, ih i hx⟩)
    · exact mem_blocks_node.mpr (.inr rfl)

section Zero

variable [Zero α] {mem mem' : α → ℕ → α}

@[simp] theorem root_empty : root (empty : RadixTree α h) = 0 := rfl

@[simp] theorem root_leaf (b : α) : root (leaf b) = b := rfl

@[simp] theorem root_node (b : α) (kids : ℕ → RadixTree α h) : root (node b kids) = b := rfl

/-- A tree whose labels are not zero is empty exactly if its top label is zero. -/
theorem root_eq_zero (hne : ∀ x ∈ blocks n t, x ≠ 0) : root t = 0 ↔ t = empty := by
  constructor
  · intro hroot
    cases t with
    | empty => rfl
    | leaf b => exact absurd hroot (hne b (by simp))
    | node b kids => exact absurd hroot (hne b (by simp))
  · rintro rfl
    rfl

/-- The memory elsewhere does not matter. -/
theorem Reps.congr (hreps : Reps n mem t) (heq : ∀ x ∈ inner n t, ∀ i < n, mem' x i = mem x i) :
    Reps n mem' t := by
  induction t with
  | empty => trivial
  | leaf b => trivial
  | node b kids ih =>
    intro i hi
    obtain ⟨hword, hkid⟩ := hreps i hi
    constructor
    · rw [heq b (mem_inner_node.mpr (.inr rfl)) i hi, hword]
    · apply ih i hkid
      intro x hx
      exact heq x (mem_inner_node.mpr (.inl ⟨i, hi, hx⟩))

/-- The labels are those of the nodes and those found at the end of a path. -/
theorem mem_blocks_iff (hne : ∀ x ∈ blocks n t, x ≠ 0) {x : α} :
    x ∈ blocks n t ↔ x ∈ inner n t ∨
      x ≠ 0 ∧ ∃ path : List ℕ, path.length = h ∧ (∀ i ∈ path, i < n) ∧ find t path = x := by
  induction t with
  | empty =>
    simp only [blocks, inner, find, not_mem_nil, false_or, false_iff]
    rintro ⟨hx0, -, -, -, rfl⟩
    exact hx0 rfl
  | leaf b =>
    have hb : b ≠ 0 := hne b (by simp)
    simp only [blocks, inner, find, List.mem_singleton, not_mem_nil, false_or]
    constructor
    · rintro rfl
      exact ⟨hb, [], rfl, by simp, rfl⟩
    · rintro ⟨-, path, -, -, rfl⟩
      rfl
  | node b kids ih =>
    have hkids : ∀ i < n, ∀ x ∈ blocks n (kids i), x ≠ 0 := fun i hi x hx =>
      hne x (mem_blocks_node.mpr (.inl ⟨i, hi, hx⟩))
    rw [mem_blocks_node, mem_inner_node]
    constructor
    · rintro (⟨i, hi, hx⟩ | rfl)
      · obtain hin | ⟨hx0, path, hlen, hlt, hfind⟩ := (ih i (hkids i hi)).mp hx
        · exact .inl (.inl ⟨i, hi, hin⟩)
        · refine .inr ⟨hx0, i :: path, by simp [hlen], ?_, hfind⟩
          simp only [List.forall_mem_cons]
          exact ⟨hi, hlt⟩
      · exact .inl (.inr rfl)
    · rintro ((⟨i, hi, hin⟩ | rfl) | ⟨hx0, path, hlen, hlt, hfind⟩)
      · exact .inl ⟨i, hi, mem_blocks_of_inner hin⟩
      · exact .inr rfl
      · cases path with
        | nil => simp at hlen
        | cons i path =>
          simp only [List.forall_mem_cons] at hlt
          refine .inl ⟨i, hlt.1, (ih i (hkids i hlt.1)).mpr (.inr ⟨hx0, path, ?_, hlt.2, ?_⟩)⟩
          · simpa using hlen
          · exact hfind

end Zero

/-! ## Labels that do not repeat -/

section Nodup

variable {f : ℕ → List α} {i j : ℕ}

theorem nodup_of_flatMap (hnd : ((range n).flatMap f).Nodup) (hi : i < n) : (f i).Nodup :=
  (nodup_flatMap.mp hnd).1 i (mem_range.mpr hi)

theorem disjoint_of_flatMap (hnd : ((range n).flatMap f).Nodup) (hi : i < n) (hj : j < n)
    (hne : i ≠ j) : List.Disjoint (f i) (f j) := by
  have hpair := (nodup_flatMap.mp hnd).2
  have : Std.Symm (Function.onFun List.Disjoint f) := ⟨fun _ _ h => List.disjoint_symm h⟩
  exact hpair.forall (mem_range.mpr hi) (mem_range.mpr hj) hne

/-- One of the lists is exchanged for one whose elements are its own or new. -/
theorem nodup_flatMap_update {ys : List α} (hnd : ((range n).flatMap f).Nodup)
    (hys : ys.Nodup) (hsub : ∀ x ∈ ys, x ∈ f i ∨ x ∉ (range n).flatMap f) (hi : i < n) :
    ((range n).flatMap (update f i ys)).Nodup := by
  have hother : ∀ j < n, j ≠ i → List.Disjoint ys (f j) := by
    intro j hj hne x hx hxj
    obtain hxi | hfresh := hsub x hx
    · exact disjoint_of_flatMap hnd hi hj (Ne.symm hne) hxi hxj
    · exact hfresh (List.mem_flatMap.mpr ⟨j, mem_range.mpr hj, hxj⟩)
  rw [nodup_flatMap]
  constructor
  · intro j hj
    by_cases hji : j = i
    · subst hji
      simpa using hys
    · rw [update_of_ne hji]
      exact nodup_of_flatMap hnd (mem_range.mp hj)
  · refine List.Pairwise.imp_of_mem ?_ List.nodup_range
    intro j k hj hk hne
    rw [mem_range] at hj hk
    show List.Disjoint (update f i ys j) (update f i ys k)
    by_cases hji : j = i
    · subst hji
      rw [update_self, update_of_ne (Ne.symm hne)]
      exact hother k hk (Ne.symm hne)
    · rw [update_of_ne hji]
      by_cases hki : k = i
      · subst hki
        rw [update_self]
        exact List.disjoint_symm (hother j hj hji)
      · rw [update_of_ne hki]
        exact disjoint_of_flatMap hnd hj hk hne

theorem nodup_kids (hnd : (blocks n (node b kids)).Nodup) :
    ((range n).flatMap fun i => blocks n (kids i)).Nodup :=
  (List.nodup_append.mp hnd).1

theorem notMem_kid_of_nodup (hnd : (blocks n (node b kids)).Nodup) (hi : i < n) :
    b ∉ blocks n (kids i) := by
  intro hb
  refine (List.nodup_append.mp hnd).2.2 b ?_ b List.mem_cons_self rfl
  exact List.mem_flatMap.mpr ⟨i, mem_range.mpr hi, hb⟩

end Nodup

end RadixTree
