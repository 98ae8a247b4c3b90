import Mathlib.Data.List.Basic

/-!
# Binary trees with links

A binary tree whose nodes hold values, read in order as a list. A link of the
tree (the pointer to the root, or a child field of a node) is a path of
directions; `get` follows a link and `set` stores another subtree in it. Two
orders may hold: `SearchTree`, ascending keys from left to right, which is a
fact about the in-order list alone, and `Heap`, no child above its parent.

The lemmas say what storing in a link does to the in-order list and when it
keeps the heap order, so that an algorithm that works by relinking subtrees is
verified by computing with lists.
-/

universe u

inductive BinTree (α : Type u)
  | nil
  | node (low : BinTree α) (val : α) (high : BinTree α)
deriving DecidableEq

namespace BinTree

variable {α : Type u}

/-- The two child fields of a node. -/
inductive Dir
  | low | high
deriving DecidableEq

/-- A link, as the directions taken from the root. -/
abbrev Path := List Dir

def toList : BinTree α → List α
  | nil => []
  | node l a h => l.toList ++ a :: h.toList

def numNodes : BinTree α → ℕ
  | nil => 0
  | node l _ h => l.numNodes + h.numNodes + 1

/-- The most nodes with two children on a path from the root. -/
def branching : BinTree α → ℕ
  | nil => 0
  | node nil _ h => h.branching
  | node l _ nil => l.branching
  | node l _ h => max l.branching h.branching + 1

def root? : BinTree α → Option α
  | nil => none
  | node _ a _ => some a

/-- The subtree a link points to. -/
def get : BinTree α → Path → BinTree α
  | t, [] => t
  | nil, _ :: _ => nil
  | node l _ _, .low :: p => l.get p
  | node _ _ h, .high :: p => h.get p

/-- The tree after storing `s` in a link. -/
def set : BinTree α → Path → BinTree α → BinTree α
  | _, [], s => s
  | nil, _ :: _, _ => nil
  | node l a h, .low :: p, s => node (l.set p s) a h
  | node l a h, .high :: p, s => node l a (h.set p s)

/-- The node that holds the link; the link to the root is in no node. -/
def parent? : BinTree α → Path → Option α
  | _, [] => none
  | nil, _ :: _ => none
  | node _ a _, [_] => some a
  | node l _ _, .low :: d :: p => l.parent? (d :: p)
  | node _ _ h, .high :: d :: p => h.parent? (d :: p)

/-- The link to the leftmost node. -/
def lowPath : BinTree α → Path
  | nil => []
  | node nil _ _ => []
  | node l _ _ => .low :: l.lowPath

/-- The link to the rightmost node. -/
def highPath : BinTree α → Path
  | nil => []
  | node _ _ nil => []
  | node _ _ h => .high :: h.highPath

variable {t l h : BinTree α} {p : Path} {a : α}

@[simp] theorem numNodes_eq_zero : t.numNodes = 0 ↔ t = nil := by
  cases t <;> simp [numNodes]

theorem branching_node (l : BinTree α) (a : α) (h : BinTree α) : (node l a h).branching =
    if l.numNodes = 0 then h.branching
    else if h.numNodes = 0 then l.branching else max l.branching h.branching + 1 := by
  cases l <;> cases h <;> simp [branching, numNodes]

@[simp] theorem toList_nil : (nil : BinTree α).toList = [] := rfl

@[simp] theorem toList_node (l : BinTree α) (a : α) (h : BinTree α) :
    (node l a h).toList = l.toList ++ a :: h.toList := rfl

@[simp] theorem get_root (t : BinTree α) : t.get [] = t := by cases t <;> rfl

@[simp] theorem set_root (t s : BinTree α) : t.set [] s = s := by cases t <;> rfl

theorem get_append : ∀ (t : BinTree α) (p q : Path), t.get (p ++ q) = (t.get p).get q
  | t, [], q => by simp
  | nil, _ :: _, q => by cases q <;> rfl
  | node l _ _, .low :: p, q => get_append l p q
  | node _ _ h, .high :: p, q => get_append h p q

theorem get_low (hg : t.get p = node l a h) :
    t.get (p ++ [.low]) = l := by
  rw [get_append, hg]
  exact get_root l

theorem get_high (hg : t.get p = node l a h) :
    t.get (p ++ [.high]) = h := by
  rw [get_append, hg]
  exact get_root h

/-! ## Storing in a link, seen in order -/

/-- **Context.** A link to a node cuts the in-order list into what stands before,
the subtree, and what stands after; storing in the link changes only the middle. -/
theorem exists_context : ∀ {t : BinTree α} {p : Path} {l : BinTree α} {a : α}
    {h : BinTree α}, t.get p = node l a h →
    ∃ pre post, t.toList = pre ++ (node l a h).toList ++ post ∧
      ∀ s, (t.set p s).toList = pre ++ s.toList ++ post
  | t, [], l, a, h, hg => by
    rw [get_root] at hg
    subst hg
    exact ⟨[], [], by simp, by simp⟩
  | nil, _ :: _, l, a, h, hg => by cases hg
  | node tl b th, .low :: p, l, a, h, hg => by
    obtain ⟨pre, post, hl, hs⟩ := exists_context (t := tl) hg
    refine ⟨pre, post ++ b :: th.toList, ?_, ?_⟩
    · rw [toList_node, hl]
      simp
    · intro s
      rw [set, toList_node, hs s]
      simp
  | node tl b th, .high :: p, l, a, h, hg => by
    obtain ⟨pre, post, hl, hs⟩ := exists_context (t := th) hg
    refine ⟨tl.toList ++ b :: pre, post, ?_, ?_⟩
    · rw [toList_node, hl]
      simp
    · intro s
      rw [set, toList_node, hs s]
      simp

/-- What a link leads to is in the tree. -/
theorem mem_of_get (hg : t.get p = node l a h) : a ∈ t.toList := by
  obtain ⟨pre, post, hl, -⟩ := exists_context hg
  simp [hl]

theorem mem_of_mem_get (h : a ∈ (t.get p).toList) :
    a ∈ t.toList := by
  cases hg : t.get p with
  | nil =>
    rw [hg] at h
    cases h
  | node l b r =>
    obtain ⟨pre, post, hl, -⟩ := exists_context hg
    rw [hg] at h
    rw [hl]
    exact List.mem_append_left _ (List.mem_append_right _ h)

/-- The leftmost link leads to a node without a low child, and nothing stands
before it. -/
theorem get_lowPath : ∀ {t : BinTree α}, t ≠ nil → ∃ a h post,
    t.get t.lowPath = node nil a h ∧ t.toList = a :: h.toList ++ post ∧
      ∀ s, (t.set t.lowPath s).toList = s.toList ++ post
  | nil, hne => absurd rfl hne
  | node nil a h, _ => ⟨a, h, [], by simp [lowPath], by simp, by simp [lowPath]⟩
  | node (node ll b lh) c th, _ => by
    obtain ⟨a, h, post, hg, hl, hs⟩ := get_lowPath (t := node ll b lh) (by simp)
    refine ⟨a, h, post ++ c :: th.toList, ?_, ?_, ?_⟩
    · rw [lowPath, get, hg]
      simp
    · rw [toList_node, hl]
      simp
    · intro s
      rw [lowPath, set, toList_node, hs s]
      · simp
      · simp

/-- The rightmost link, likewise. -/
theorem get_highPath : ∀ {t : BinTree α}, t ≠ nil → ∃ l a pre,
    t.get t.highPath = node l a nil ∧ t.toList = pre ++ l.toList ++ [a] ∧
      ∀ s, (t.set t.highPath s).toList = pre ++ s.toList
  | nil, hne => absurd rfl hne
  | node l a nil, _ => ⟨l, a, [], by simp [highPath], by simp, by simp [highPath]⟩
  | node tl c (node hl b hh), _ => by
    obtain ⟨l, a, pre, hg, hl', hs⟩ := get_highPath (t := node hl b hh) (by simp)
    refine ⟨l, a, tl.toList ++ c :: pre, ?_, ?_, ?_⟩
    · rw [highPath, get, hg]
      simp
    · rw [toList_node, hl']
      simp
    · intro s
      rw [highPath, set, toList_node, hs s]
      · simp
      · simp

/-! ## Search trees -/

/-- Keys ascend from left to right at every node. -/
def SearchTree (key : α → ℕ) : BinTree α → Prop
  | nil => True
  | node l a h => (∀ x ∈ l.toList, key x < key a) ∧ (∀ x ∈ h.toList, key a < key x) ∧
      l.SearchTree key ∧ h.SearchTree key

/-- A search tree is a tree whose in-order list ascends. -/
theorem searchTree_iff {key : α → ℕ} : ∀ {t : BinTree α},
    t.SearchTree key ↔ t.toList.Pairwise (fun a b => key a < key b)
  | nil => by simp [SearchTree]
  | node l a h => by
    rw [SearchTree, toList_node, List.pairwise_append, List.pairwise_cons,
      searchTree_iff (t := l), searchTree_iff (t := h)]
    constructor
    · rintro ⟨hl, hh, hsl, hsh⟩
      refine ⟨hsl, ⟨hh, hsh⟩, ?_⟩
      intro x hx y hy
      rcases List.mem_cons.mp hy with rfl | hy
      · exact hl x hx
      · exact Nat.lt_trans (hl x hx) (hh y hy)
    · rintro ⟨hsl, ⟨hh, hsh⟩, hx⟩
      exact ⟨fun x hm => hx x hm a (by simp), hh, hsl, hsh⟩

/-- Where a cut of the in-order list of a node falls: behind the node's value or
in front of it. -/
theorem append_cons_eq_append {L R pre post : List α} {c : α} (h : L ++ c :: R = pre ++ post) :
    (∃ mid, pre = L ++ c :: mid ∧ R = mid ++ post) ∨
      ∃ mid, L = pre ++ mid ∧ post = mid ++ c :: R := by
  rcases List.append_eq_append_iff.mp h with ⟨mid, rfl, hmid⟩ | ⟨mid, rfl, hmid⟩
  · cases mid with
    | nil => exact .inr ⟨[], by simp, by simpa using hmid.symm⟩
    | cons x mid =>
      obtain ⟨rfl, rfl⟩ := List.cons.inj hmid
      exact .inl ⟨mid, rfl, rfl⟩
  · exact .inr ⟨mid, rfl, hmid⟩

/-! ## Heaps -/

variable {prio : α → ℕ} {n m : ℕ}

/-- The root of the tree, if there is one, has at most priority `n`. -/
def Below (prio : α → ℕ) (n : ℕ) (t : BinTree α) : Prop := ∀ a ∈ t.root?, prio a ≤ n

/-- No child is above its parent. -/
def Heap (prio : α → ℕ) : BinTree α → Prop
  | nil => True
  | node l a h => Below prio (prio a) l ∧ Below prio (prio a) h ∧ l.Heap prio ∧ h.Heap prio

@[simp] theorem below_nil : Below prio n nil := by simp [Below, root?]

@[simp] theorem below_node :
    Below prio n (node l a h) ↔ prio a ≤ n := by simp [Below, root?]

theorem Below.mono (h : Below prio n t) (hnm : n ≤ m) : Below prio m t :=
  fun a ha => Nat.le_trans (h a ha) hnm

@[simp] theorem heap_nil : Heap prio nil := trivial

@[simp] theorem heap_node : Heap prio (node l a h) ↔
    Below prio (prio a) l ∧ Below prio (prio a) h ∧ l.Heap prio ∧ h.Heap prio := Iff.rfl

theorem Heap.get : ∀ {t : BinTree α} {p : Path}, t.Heap prio → (t.get p).Heap prio
  | t, [], h => by rwa [get_root]
  | nil, _ :: _, _ => trivial
  | node l _ _, .low :: p, h => Heap.get (t := l) (p := p) h.2.2.1
  | node _ _ r, .high :: p, h => Heap.get (t := r) (p := p) h.2.2.2

/-- In a heap the parent of a link is not below what the link points to. -/
theorem Heap.below_parent : ∀ {t : BinTree α} {p : Path}, t.Heap prio →
    ∀ b ∈ t.parent? p, Below prio (prio b) (t.get p)
  | _, [], _, b, hb => by simp [parent?] at hb
  | nil, _ :: _, _, _, _ => by simp [BinTree.get]
  | node l a h, [.low], hh, b, hb => by
    obtain rfl : a = b := by simpa [parent?] using hb
    simpa [BinTree.get] using hh.1
  | node l a h, [.high], hh, b, hb => by
    obtain rfl : a = b := by simpa [parent?] using hb
    simpa [BinTree.get] using hh.2.1
  | node _ _ _, .low :: _ :: _, hh, b, hb => Heap.below_parent hh.2.2.1 b hb
  | node _ _ _, .high :: _ :: _, hh, b, hb => Heap.below_parent hh.2.2.2 b hb

theorem below_set {s : BinTree α} (ht : Below prio n t)
    (hs : p = [] → Below prio n s) : Below prio n (t.set p s) := by
  cases p with
  | nil =>
    rw [set_root]
    exact hs rfl
  | cons d p =>
    cases t with
    | nil => cases d <;> exact ht
    | node l a h => cases d <;> exact ht

/-- **Storing in a link keeps the heap** when the new subtree is a heap that is
not above the parent of the link. -/
theorem Heap.set : ∀ {t s : BinTree α} {p : Path}, t.Heap prio → s.Heap prio →
    (∀ b ∈ t.parent? p, Below prio (prio b) s) → (t.set p s).Heap prio
  | _, _, [], _, hs, _ => by rwa [set_root]
  | nil, _, _ :: _, _, _, _ => trivial
  | node l a h, s, .low :: p, ht, hs, hp => by
    obtain ⟨hbl, hbh, hl, hh⟩ := ht
    refine ⟨below_set hbl ?_, hbh, Heap.set hl hs ?_, hh⟩
    · rintro rfl
      exact hp a (by simp [parent?])
    · cases p with
      | nil => simp [parent?]
      | cons d p => exact hp
  | node l a h, s, .high :: p, ht, hs, hp => by
    obtain ⟨hbl, hbh, hl, hh⟩ := ht
    refine ⟨hbl, below_set hbh ?_, hl, Heap.set hh hs ?_⟩
    · rintro rfl
      exact hp a (by simp [parent?])
    · cases p with
      | nil => simp [parent?]
      | cons d p => exact hp

/-- Replacing a subtree by one that is not above it keeps the heap. -/
theorem Heap.set_of_below {s : BinTree α} (ht : t.Heap prio)
    (hs : s.Heap prio) (hb : ∀ n, Below prio n (t.get p) → Below prio n s) :
    (t.set p s).Heap prio :=
  ht.set hs fun b hm => hb _ (ht.below_parent b hm)

/-- No value of a heap is above its root. -/
theorem Heap.le_of_mem : ∀ {t : BinTree α}, t.Heap prio → Below prio n t →
    ∀ a ∈ t.toList, prio a ≤ n
  | nil, _, _, a, ha => absurd ha List.not_mem_nil
  | node l b h, hh, hb, a, ha => by
    rw [below_node] at hb
    rw [toList_node, List.mem_append, List.mem_cons] at ha
    rcases ha with ha | rfl | ha
    · exact Heap.le_of_mem hh.2.2.1 (hh.1.mono hb) a ha
    · exact hb
    · exact Heap.le_of_mem hh.2.2.2 (hh.2.1.mono hb) a ha

/-! ## The first value in order -/

/-- The first value in order that has the property. -/
def first? (p : α → Bool) (t : BinTree α) : Option α := t.toList.find? p

variable {p : α → Bool}

@[simp] theorem first?_nil : (nil : BinTree α).first? p = none := rfl

theorem first?_node (l : BinTree α) (a : α) (h : BinTree α) :
    (node l a h).first? p = (l.first? p).or (if p a then some a else h.first? p) := by
  rw [first?, toList_node, List.find?_append, List.find?_cons]
  cases p a <;> rfl

theorem first?_eq_none : t.first? p = none ↔ ∀ a ∈ t.toList, p a = false := by
  simp [first?]

theorem mem_of_first? (h : t.first? p = some a) :
    a ∈ t.toList ∧ p a = true :=
  ⟨List.mem_of_find?_eq_some h, List.find?_some h⟩

/-- In a search tree the first value has the smallest key. -/
theorem first?_eq_some_iff {key : α → ℕ} (hs : t.SearchTree key) :
    t.first? p = some a ↔
      a ∈ t.toList ∧ p a = true ∧ ∀ b ∈ t.toList, p b = true → key a ≤ key b := by
  have hsorted := searchTree_iff.mp hs
  constructor
  · intro h
    obtain ⟨hpa, pre, post, hl, hpre⟩ := List.find?_eq_some_iff_append.mp h
    rw [hl] at hsorted ⊢
    refine ⟨List.mem_append_right _ List.mem_cons_self, hpa, fun b hb hpb => ?_⟩
    rcases List.mem_append.mp hb with hb | hb
    · have hnot := hpre b hb
      rw [hpb] at hnot
      cases hnot
    · rcases List.mem_cons.mp hb with rfl | hb
      · exact Nat.le_refl _
      · exact Nat.le_of_lt (List.rel_of_pairwise_cons (List.pairwise_append.mp hsorted).2.1 hb)
  · rintro ⟨hmem, hpa, hleast⟩
    cases hf : t.first? p with
    | none =>
      rw [first?_eq_none.mp hf a hmem] at hpa
      cases hpa
    | some b =>
      -- the first value has no greater key, and keys differ
      obtain ⟨hpb, pre, post, hl, hpre⟩ := List.find?_eq_some_iff_append.mp hf
      rw [hl] at hsorted hmem
      have hle := hleast b (by rw [hl]; exact List.mem_append_right _ List.mem_cons_self) hpb
      rcases List.mem_append.mp hmem with ha | ha
      · have hnot := hpre a ha
        rw [hpa] at hnot
        cases hnot
      · rcases List.mem_cons.mp ha with rfl | ha
        · rfl
        · have hlt := List.rel_of_pairwise_cons (List.pairwise_append.mp hsorted).2.1 ha
          exact absurd hle (Nat.not_le.mpr hlt)

end BinTree
