import K42.Lib.Forest

/-!
# The fork tree

The managers of the computational regions form a forest. A leaf is forked by a new parent
that is pushed between it and its parent, or, if its parent has no other child, by a second
child of that parent. A leaf that is destroyed is detached from its parent: a parent without
children is destroyed too, and a single child that is not a leaf is collapsed into it.

The pointers and counters are here, and with them the assertions on these; each call runs to
its end.
-/

open Function (update update_of_ne update_self)

namespace K42

namespace ForkTree

/-- The assertions on the shape of the tree. -/
inductive Fault
  | referenceCountFumble
  | extraChild
  | otherChild
  | stillHaveChildren
  | impossibleLoop
deriving DecidableEq

/-- The pointers, the counter and the flags of one manager. -/
structure Links where
  forkChild1 : Option ℕ
  forkChild2 : Option ℕ
  forkParent : Option ℕ
  referenceCount : ℕ
  hasCollapsed : Bool
  beingDestroyed : Bool
deriving DecidableEq

namespace Links

def init : Links := ⟨none, none, none, 0, false, false⟩

def childCount (l : Links) : ℕ :=
  (if l.forkChild1.isSome then 1 else 0) + (if l.forkChild2.isSome then 1 else 0)

def isLeaf (l : Links) : Bool := l.forkChild1.isNone && l.forkChild2.isNone

def isLive (l : Links) : Bool := !l.beingDestroyed && !l.hasCollapsed

/-- `c` is in one of the two places for children. -/
def HasChild (l : Links) (c : ℕ) : Prop := l.forkChild1 = some c ∨ l.forkChild2 = some c

instance (l : Links) (c : ℕ) : Decidable (l.HasChild c) :=
  inferInstanceAs (Decidable (_ ∨ _))

end Links

/-- The managers by number; those from `next` on have not been created. -/
structure Tree where
  links : ℕ → Links
  next : ℕ
  faults : List Fault

namespace Tree

def init : Tree := ⟨fun _ => .init, 0, []⟩

def set (t : Tree) (n : ℕ) (l : Links) : Tree :=
  { t with links := update t.links n l }

/-- An assertion. -/
def check (t : Tree) (ok : Bool) (f : Fault) : Tree :=
  if ok then t else { t with faults := f :: t.faults }

def create (t : Tree) : Tree := { t.set t.next .init with next := t.next + 1 }

/-! ## Forking -/

def setParent (t : Tree) (n : ℕ) (p : Option ℕ) : Tree :=
  t.set n { t.links n with forkParent := p }

/-- `adoptChildAndLock` has room. -/
def canAdopt (t : Tree) (p : ℕ) : Bool :=
  !((t.links p).forkChild1.isSome && (t.links p).forkChild2.isSome)

def addChild (l : Links) (child : ℕ) : Links :=
  if l.forkChild1.isNone then { l with forkChild1 := some child }
  else if l.forkChild2.isNone then { l with forkChild2 := some child }
  else l

/-- The pointers of the adopting parent. -/
def adopting (l : Links) (child : ℕ) : Links :=
  { addChild l child with referenceCount := l.referenceCount + 1 }

def adoptChildAndLock (t : Tree) (p child : ℕ) : Tree :=
  let l := adopting (t.links p) child
  ((t.check (t.canAdopt p) .extraChild).set p l).check
    (decide (l.childCount = l.referenceCount)) .referenceCountFumble

def setChildrenAndLock (t : Tree) (p c₁ c₂ : ℕ) : Tree :=
  let l := t.links p
  t.set p { l with
    forkChild1 := some c₁
    forkChild2 := some c₂
    referenceCount := l.referenceCount + 2 }

def replaceChild (l : Links) (old new : ℕ) : Links :=
  if l.forkChild1 = some old then { l with forkChild1 := some new }
  else { l with forkChild2 := some new }

def locked_replaceChild (t : Tree) (p : Option ℕ) (old new : ℕ) : Tree :=
  match p with
  | none => t
  | some p => t.set p (replaceChild (t.links p) old new)

/-- A new parent of the leaf and of its new child takes the place of the leaf. -/
def pushParent (t : Tree) (leaf child parent : ℕ) : Tree :=
  let old := (t.links leaf).forkParent
  ((((t.setChildrenAndLock parent leaf child).setParent parent old).locked_replaceChild old leaf
    parent).setParent leaf (some parent)).setParent child (some parent)

/-- The parent that takes the pages of the leaf. -/
def forkParentOf (t : Tree) (leaf : ℕ) : ℕ :=
  match (t.links leaf).forkParent with
  | some p => if t.canAdopt p then p else t.next + 1
  | none => t.next + 1

def adopts (t : Tree) (leaf : ℕ) : Bool :=
  match (t.links leaf).forkParent with
  | some p => t.canAdopt p
  | none => false

/-- The pointers after `forkCopy`; the new child is the manager `next`. -/
def forkCopy (t : Tree) (leaf : ℕ) : Tree :=
  let child := t.next
  if t.adopts leaf then
    (t.create.adoptChildAndLock (t.forkParentOf leaf) child).setParent child
      (some (t.forkParentOf leaf))
  else t.create.create.pushParent leaf child (t.next + 1)

/-! ## Detaching and collapsing -/

/-- What `detachForkChild` finds: the manager is not in use any more, it has one child left,
it has collapsed, or its caller is not a child of it. -/
inductive Detached
  | unused
  | only (child : ℕ)
  | kept
  | collapsed
  | notChild
deriving DecidableEq

def dropChild (l : Links) (child : ℕ) : Links :=
  if l.forkChild1 = some child then { l with forkChild1 := none }
  else { l with forkChild2 := none }

/-- The pointers of a parent that has lost a child. -/
def dropping (l : Links) (child : ℕ) : Links :=
  { dropChild l child with referenceCount := l.referenceCount - 1 }

def detachForkChild (t : Tree) (p child : ℕ) : Tree × Detached :=
  if (t.links p).HasChild child then
    let l := dropping (t.links p) child
    ((t.set p l).check (decide (l.childCount = l.referenceCount)) .referenceCountFumble,
      if l.referenceCount = 0 then .unused
      else
        match l.forkChild1.or l.forkChild2 with
        | none => .kept
        | some c => .only c)
  else (t, if (t.links p).hasCollapsed then .collapsed else .notChild)

def setParentOf (t : Tree) (child : Option ℕ) (p : ℕ) : Tree :=
  match child with
  | none => t
  | some c => t.setParent c (some p)

/-- The pointers of a parent that takes the children of its only child. -/
def adoptingBoth (l : Links) (c₁ c₂ : Option ℕ) : Links :=
  { l with
    forkChild1 := c₁
    forkChild2 := c₂
    referenceCount := if c₁.isSome && c₂.isSome then l.referenceCount + 1
      else l.referenceCount }

/-- The children of a collapsing manager become those of its parent. -/
def adoptChildrenAndLock (t : Tree) (p : ℕ) (c₁ c₂ : Option ℕ) : Tree :=
  let l := adoptingBoth (t.links p) c₁ c₂
  let t := (t.check (t.canAdopt p) .otherChild).set p l
  ((t.setParentOf c₁ p).setParentOf c₂ p).check (decide (l.childCount = l.referenceCount))
    .referenceCountFumble

/-- The parent that a manager can be collapsed into: leaves stay. -/
def collapseInto (t : Tree) (n : ℕ) : Option ℕ :=
  let l := t.links n
  if l.isLive && !l.isLeaf then
    match l.forkParent with
    | none => none
    | some p =>
      if (t.links p).isLive && !(t.links p).isLeaf then some p else none
  else none

/-- The pointers of a manager that has collapsed. It keeps the one to its parent. -/
def collapsed (l : Links) : Links :=
  { l with
    forkChild1 := none
    forkChild2 := none
    referenceCount := 0
    hasCollapsed := true
    beingDestroyed := true }

def forkCollapse (t : Tree) (n : ℕ) : Tree :=
  match t.collapseInto n with
  | none => t
  | some p =>
    let l := t.links n
    let t := (t.adoptChildrenAndLock p l.forkChild1 l.forkChild2).check
      (decide (l.childCount = l.referenceCount)) .referenceCountFumble
    t.set n (collapsed l)

/-- `destroy` of a manager: it is marked, and it must not have children. -/
def markDestroyed (t : Tree) (n : ℕ) : Tree :=
  (t.check (t.links n).isLeaf .stillHaveChildren).set n
    { t.links n with beingDestroyed := true, forkParent := none }

/-- The managers that a `destroy` takes out, and the one that is collapsed, with its
parent. -/
structure Gone where
  destroyed : List ℕ
  collapsed : Option (ℕ × ℕ)

/-- `doDestroy`, `completeDetachForkChild` and so on upwards, as long as a parent is left
without children. The flag of a manager is set before it is detached; nobody looks at it in
between. -/
def destroyLoop : ℕ → Tree → ℕ → Tree × Gone
  | 0, t, _ => (t, ⟨[], none⟩)
  | fuel + 1, t, n =>
    match (t.links n).forkParent with
    | none => (t.markDestroyed n, ⟨[n], none⟩)
    | some p =>
      match (t.markDestroyed n).detachForkChild p n with
      | (t, .unused) =>
        let (t, g) := destroyLoop fuel t p
        (t, { g with destroyed := n :: g.destroyed })
      | (t, .only x) =>
        (t.forkCollapse x, ⟨[n], (t.collapseInto x).map fun p => (x, p)⟩)
      | (t, .collapsed) => (t.check false .impossibleLoop, ⟨[n], none⟩)
      | (t, .kept) | (t, .notChild) => (t, ⟨[n], none⟩)

def destroy (t : Tree) (leaf : ℕ) : Tree × Gone := destroyLoop t.next t leaf

end Tree

/-! ## One manager -/

namespace Links

open Tree (addChild dropChild replaceChild)

variable {l : Links} {c x : ℕ}

/-- The two children differ, the counter counts them, and a dead manager has none. -/
structure Ok (l : Links) : Prop where
  distinct : ∀ c, l.forkChild1 = some c → l.forkChild2 ≠ some c
  count : l.isLive = true → l.isLeaf = false → l.childCount = l.referenceCount
  dead : l.isLive = false → l.isLeaf = true

theorem init_ok : Ok init := ⟨nofun, nofun, nofun⟩

theorem isLeaf_iff : l.isLeaf = true ↔ ∀ c, ¬ l.HasChild c := by
  obtain ⟨c₁, c₂, p, r, hc, hd⟩ := l
  cases c₁ with
  | none => cases c₂ <;> simp [isLeaf, HasChild]
  | some c₁ =>
    refine iff_of_false ?_ fun h => h c₁ (.inl rfl)
    simp [isLeaf]

theorem not_isLeaf (h : l.HasChild c) : l.isLeaf = false := by
  rw [Bool.eq_false_iff]
  exact fun hl => isLeaf_iff.mp hl c h

theorem Ok.counted (h : l.Ok) (hl : l.isLive = true) (hc : l.HasChild c) :
    l.childCount = l.referenceCount := h.count hl (not_isLeaf hc)

theorem addChild_hasChild (hroom : (l.forkChild1.isSome && l.forkChild2.isSome) = false) :
    (addChild l c).HasChild x ↔ l.HasChild x ∨ x = c := by
  obtain ⟨c₁, c₂, p, r, hcol, hd⟩ := l
  cases c₁ with
  | none => simp [addChild, HasChild, or_comm, eq_comm]
  | some c₁ =>
    cases c₂ with
    | none => simp [addChild, HasChild, eq_comm]
    | some c₂ => cases hroom

theorem addChild_childCount (hroom : (l.forkChild1.isSome && l.forkChild2.isSome) = false) :
    (addChild l c).childCount = l.childCount + 1 := by
  obtain ⟨c₁, c₂, p, r, hc, hd⟩ := l
  cases c₁ <;> cases c₂ <;> simp_all [addChild, childCount]

theorem addChild_distinct (h : l.Ok) (hc : ¬ l.HasChild c) :
    ∀ x, (addChild l c).forkChild1 = some x → (addChild l c).forkChild2 ≠ some x := by
  obtain ⟨c₁, c₂, p, r, hcol, hd⟩ := l
  have hdist := h.distinct
  cases c₁ <;> cases c₂ <;> simp_all [addChild, HasChild, eq_comm]

variable {new : ℕ}

theorem replaceChild_hasChild (h : l.Ok) (hc : l.HasChild c) :
    (replaceChild l c new).HasChild x ↔ (l.HasChild x ∧ x ≠ c) ∨ x = new := by
  have hdist := h.distinct
  obtain ⟨c₁, c₂, p, r, hcol, hd⟩ := l
  unfold replaceChild HasChild at *
  grind

theorem replaceChild_childCount (hc : l.HasChild c) :
    (replaceChild l c new).childCount = l.childCount := by
  obtain ⟨c₁, c₂, p, r, hcol, hd⟩ := l
  unfold replaceChild HasChild childCount at *
  grind

theorem replaceChild_distinct (h : l.Ok) (hnew : ¬ l.HasChild new) :
    ∀ x, (replaceChild l c new).forkChild1 = some x →
      (replaceChild l c new).forkChild2 ≠ some x := by
  have hdist := h.distinct
  obtain ⟨c₁, c₂, p, r, hcol, hd⟩ := l
  unfold replaceChild HasChild at *
  grind

theorem dropChild_hasChild (h : l.Ok) (hc : l.HasChild c) :
    (dropChild l c).HasChild x ↔ l.HasChild x ∧ x ≠ c := by
  have hdist := h.distinct
  obtain ⟨c₁, c₂, p, r, hcol, hd⟩ := l
  unfold dropChild HasChild at *
  grind

theorem dropChild_childCount (hc : l.HasChild c) :
    (dropChild l c).childCount + 1 = l.childCount := by
  obtain ⟨c₁, c₂, p, r, hcol, hd⟩ := l
  unfold dropChild HasChild childCount at *
  grind

theorem dropChild_distinct (h : l.Ok) :
    ∀ x, (dropChild l c).forkChild1 = some x → (dropChild l c).forkChild2 ≠ some x := by
  have hdist := h.distinct
  obtain ⟨c₁, c₂, p, r, hcol, hd⟩ := l
  unfold dropChild at *
  grind

theorem isLeaf_of_childCount (h : l.childCount = 0) : l.isLeaf = true := by
  obtain ⟨c₁, c₂, p, r, hcol, hd⟩ := l
  cases c₁ <;> cases c₂ <;> simp_all [childCount, isLeaf]

theorem hasChild_of_or (h : l.forkChild1.or l.forkChild2 = some c) : l.HasChild c := by
  obtain ⟨c₁, c₂, p, r, hcol, hd⟩ := l
  cases c₁ with
  | none => exact .inr h
  | some c₁ => exact .inl h

theorem Ok.single (h : l.Ok) (hc : l.HasChild c) (honly : ∀ x, l.HasChild x → x = c) :
    l.childCount = 1 ∧ (l.forkChild1.isSome && l.forkChild2.isSome) = false := by
  obtain ⟨c₁, c₂, p, r, hcol, hd⟩ := l
  cases c₁ with
  | none =>
    cases c₂ with
    | none => exact hc.elim nofun nofun
    | some c₂ => exact ⟨rfl, rfl⟩
  | some c₁ =>
    cases c₂ with
    | none => exact ⟨rfl, rfl⟩
    | some c₂ =>
      have h₁ := honly c₁ (.inl rfl)
      have h₂ := honly c₂ (.inr rfl)
      exact absurd (congrArg some (h₂.trans h₁.symm)) (h.distinct c₁ rfl)

theorem childCount_of_not_isLeaf (h : l.isLeaf = false) :
    l.childCount = if l.forkChild1.isSome && l.forkChild2.isSome then 2 else 1 := by
  obtain ⟨c₁, c₂, p, r, hcol, hd⟩ := l
  cases c₁ <;> cases c₂ <;> simp_all [childCount, isLeaf]

end Links

/-! ## The shape of the forest -/

namespace Tree

def Live (t : Tree) (n : ℕ) : Prop := n < t.next ∧ (t.links n).isLive = true

def Child (t : Tree) (n c : ℕ) : Prop := (t.links n).HasChild c

def parent (t : Tree) (n : ℕ) : Option ℕ := (t.links n).forkParent

/-- The pointers agree in both directions, the counters are right, there are no cycles, and
no assertion has failed. -/
structure Shape (t : Tree) : Prop where
  fresh : ∀ n, t.next ≤ n → t.links n = .init
  linked : Forest.Linked t.Live t.Child t.parent
  ok : ∀ n, (t.links n).Ok
  ranked : ∃ rank, Forest.Ranked t.Live t.parent rank ∧ ∀ n, n < t.next → rank n < t.next
  faults : t.faults = []

theorem check_true (t : Tree) (f : Fault) : t.check true f = t := rfl

theorem init_shape : Shape init := by
  refine ⟨fun _ _ => rfl, ⟨fun hn => absurd hn.1 (Nat.not_lt_zero _), ?_⟩, fun _ => ?_, ?_, rfl⟩
  · exact fun hn => absurd hn.1 (Nat.not_lt_zero _)
  · exact Links.init_ok
  · exact ⟨fun _ => 0, fun n p hn => absurd hn.1 (Nat.not_lt_zero _),
      fun n hn => absurd hn (Nat.not_lt_zero _)⟩

variable {t : Tree}

theorem canAdopt_iff {p : ℕ} : t.canAdopt p = true ↔
    ((t.links p).forkChild1.isSome && (t.links p).forkChild2.isSome) = false := by
  rw [canAdopt, Bool.not_eq_true']

theorem adopting_isLive (l : Links) (c : ℕ) : (adopting l c).isLive = l.isLive := by
  unfold adopting addChild Links.isLive
  split
  · rfl
  · split <;> rfl

theorem adopting_forkParent (l : Links) (c : ℕ) : (adopting l c).forkParent = l.forkParent := by
  unfold adopting addChild
  split
  · rfl
  · split <;> rfl

/-- The pointers of the new parent. -/
def pushed (old : Option ℕ) (leaf child : ℕ) : Links :=
  ⟨some leaf, some child, old, 2, false, false⟩

theorem replaceChild_isLive (l : Links) (c c' : ℕ) : (replaceChild l c c').isLive = l.isLive := by
  unfold replaceChild Links.isLive
  split <;> rfl

theorem replaceChild_forkParent (l : Links) (c c' : ℕ) :
    (replaceChild l c c').forkParent = l.forkParent := by
  unfold replaceChild
  split <;> rfl

theorem replaceChild_referenceCount (l : Links) (c c' : ℕ) :
    (replaceChild l c c').referenceCount = l.referenceCount := by
  unfold replaceChild
  split <;> rfl

theorem pushParent_links (t : Tree) {x y z : ℕ} (hxy : x ≠ y) (hxz : x ≠ z) (hyz : y ≠ z)
    (hz : t.links z = .init) (hold : ∀ g, (t.links x).forkParent = some g → g ≠ x ∧ g ≠ y ∧ g ≠ z)
    (n : ℕ) : (t.pushParent x y z).links n =
      if n = y then { t.links y with forkParent := some z }
      else if n = x then { t.links x with forkParent := some z }
      else if n = z then pushed (t.links x).forkParent x y
      else if (t.links x).forkParent = some n then replaceChild (t.links n) x z
      else t.links n := by
  cases hx : (t.links x).forkParent with
  | none =>
    simp only [pushParent, setParent, setChildrenAndLock, locked_replaceChild, set, hx, pushed]
    by_cases hny : n = y
    · subst hny
      simp [Ne.symm hxy, hyz]
    · by_cases hnx : n = x
      · subst hnx
        simp [hny, hxz]
      · by_cases hnz : n = z
        · subst hnz
          simp [hny, hnx, hz, Links.init]
        · simp [hny, hnx, hnz]
  | some g =>
    obtain ⟨hgx, hgy, hgz⟩ := hold g hx
    simp only [pushParent, setParent, setChildrenAndLock, locked_replaceChild, set, hx, pushed]
    by_cases hny : n = y
    · subst hny
      simp [Ne.symm hxy, hyz, Ne.symm hgy]
    · by_cases hnx : n = x
      · subst hnx
        simp [hny, hxz, Ne.symm hgx]
      · by_cases hnz : n = z
        · subst hnz
          simp [hny, hnx, hz, Links.init, Ne.symm hgz]
        · by_cases hng : n = g
          · subst hng
            simp [hny, hnx, hnz]
          · simp [hny, hnx, hnz, hng, Ne.symm hng]

theorem pushParent_next (t : Tree) (x y z : ℕ) : (t.pushParent x y z).next = t.next := by
  unfold pushParent
  cases hx : (t.links x).forkParent <;> simp [setParent, setChildrenAndLock, locked_replaceChild,
    set]

theorem pushParent_faults (t : Tree) (x y z : ℕ) : (t.pushParent x y z).faults = t.faults := by
  unfold pushParent
  cases hx : (t.links x).forkParent <;> simp [setParent, setChildrenAndLock, locked_replaceChild,
    set]

theorem dropping_isLive (l : Links) (c : ℕ) : (dropping l c).isLive = l.isLive := by
  unfold dropping dropChild Links.isLive
  split <;> rfl

theorem dropping_forkParent (l : Links) (c : ℕ) : (dropping l c).forkParent = l.forkParent := by
  unfold dropping dropChild
  split <;> rfl

/-- The manager is marked and its parent has forgotten it. -/
def unlinked (t : Tree) (n p : ℕ) : Tree :=
  { t with links := update (update t.links n
      { t.links n with beingDestroyed := true, forkParent := none }) p (dropping (t.links p) n) }

/-- A manager without a parent is gone. -/
def removed (t : Tree) (n : ℕ) : Tree :=
  t.set n { t.links n with beingDestroyed := true, forkParent := none }

theorem setParentOf_links (t : Tree) (c : Option ℕ) (p n : ℕ) : (t.setParentOf c p).links n =
    if c = some n then { t.links n with forkParent := some p } else t.links n := by
  cases c with
  | none => rfl
  | some c =>
    by_cases hn : c = n
    · subst hn
      simp [setParentOf, setParent, set]
    · simp [setParentOf, setParent, set, hn, Ne.symm hn]

theorem setParentOf_next (t : Tree) (c : Option ℕ) (p : ℕ) : (t.setParentOf c p).next = t.next := by
  cases c <;> rfl

theorem setParentOf_faults (t : Tree) (c : Option ℕ) (p : ℕ) :
    (t.setParentOf c p).faults = t.faults := by
  cases c <;> rfl

section

variable {t : Tree} (h : t.Shape)

include h

variable {n c p leaf x : ℕ}

theorem Shape.not_child_of_fresh (hn : t.next ≤ n) : ¬ t.Child n c := by
  rw [Child, h.fresh n hn]
  exact fun hc => hc.elim nofun nofun

theorem Shape.child_lt (hc : t.Child n c) : n < t.next := by
  by_contra hn
  exact h.not_child_of_fresh (Nat.le_of_not_lt hn) hc

theorem Shape.live_of_child (hc : t.Child n c) : t.Live n := by
  refine ⟨h.child_lt hc, ?_⟩
  by_contra hl
  exact Links.isLeaf_iff.mp ((h.ok n).dead (Bool.not_eq_true _ ▸ hl)) c hc

theorem Shape.live_child (hc : t.Child n c) : t.Live c ∧ t.parent c = some n :=
  h.linked.down (h.live_of_child hc) hc

theorem Shape.create_eq : t.create = { t with next := t.next + 1 } := by
  have hlinks : update t.links t.next .init = t.links :=
    Function.update_eq_self_iff.mpr (h.fresh t.next (Nat.le_refl _)).symm
  rw [Tree.create, set, hlinks]

theorem Shape.create : t.create.Shape := by
  rw [h.create_eq]
  have hfresh := h.fresh t.next (Nat.le_refl _)
  have hlive : ∀ n, Live { t with next := t.next + 1 } n ↔ t.Live n ∨ n = t.next := by
    intro n
    change n < t.next + 1 ∧ _ ↔ _
    constructor
    · rintro ⟨hn, hl⟩
      rcases Nat.lt_succ_iff_lt_or_eq.mp hn with hn | hn
      · exact .inl ⟨hn, hl⟩
      · exact .inr hn
    · rintro (⟨hn, hl⟩ | rfl)
      · exact ⟨Nat.lt_succ_of_lt hn, hl⟩
      · exact ⟨Nat.lt_succ_self _, by rw [hfresh]; rfl⟩
  refine ⟨fun n hn => h.fresh n (Nat.le_of_succ_le hn),
    ⟨fun {n c} hn hc => ?_, fun {c n} hc hp => ?_⟩, h.ok, ?_, h.faults⟩
  · obtain ⟨hl, hp⟩ := h.live_child hc
    exact ⟨(hlive c).mpr (.inl hl), hp⟩
  · rcases (hlive c).mp hc with hc | rfl
    · obtain ⟨hl, hch⟩ := h.linked.up hc hp
      exact ⟨(hlive n).mpr (.inl hl), hch⟩
    · change (t.links t.next).forkParent = _ at hp
      rw [hfresh] at hp
      cases hp
  · obtain ⟨rank, hr, hlt⟩ := h.ranked
    refine ⟨update rank t.next 0, fun n p hn hp => ?_, fun n hn => ?_⟩
    · rcases (hlive n).mp hn with hn | rfl
      · have hlp := (h.linked.up hn hp).1
        rw [update_of_ne (Nat.ne_of_lt hn.1), update_of_ne (Nat.ne_of_lt hlp.1)]
        exact hr n p hn hp
      · change (t.links t.next).forkParent = _ at hp
        rw [hfresh] at hp
        cases hp
    · change n < t.next + 1 at hn
      change _ < t.next + 1
      by_cases hne : n = t.next
      · rw [hne, update_self]
        exact Nat.succ_pos _
      · rw [update_of_ne hne]
        exact Nat.lt_succ_of_lt (hlt n (Nat.lt_of_le_of_ne (Nat.lt_succ_iff.mp hn) hne))

/-! ### Forking -/

theorem Shape.adopt_eq (hc : t.Child p leaf) (hroom : t.canAdopt p = true) :
    (t.create.adoptChildAndLock p t.next).setParent t.next (some p) =
      { links := update (update t.links p (adopting (t.links p) t.next))
          t.next { Links.init with forkParent := some p }
        next := t.next + 1
        faults := [] } := by
  have hp := h.live_of_child hc
  have hne : t.next ≠ p := (Nat.ne_of_lt hp.1).symm
  have hcount : (adopting (t.links p) t.next).childCount =
      (adopting (t.links p) t.next).referenceCount := by
    refine (Links.addChild_childCount (canAdopt_iff.mp hroom)).trans ?_
    rw [(h.ok p).counted hp.2 hc]
    rfl
  rw [h.create_eq]
  change setParent (check (set (check _ (t.canAdopt p) .extraChild) p (adopting (t.links p) t.next))
    (decide ((adopting (t.links p) t.next).childCount =
      (adopting (t.links p) t.next).referenceCount)) .referenceCountFumble) t.next (some p) = _
  rw [hroom, decide_eq_true hcount, check_true, check_true]
  simp only [setParent, set, update_of_ne hne, h.fresh t.next (Nat.le_refl _), h.faults]

theorem Shape.adopt (hc : t.Child p leaf) (hroom : t.canAdopt p = true) :
    ((t.create.adoptChildAndLock p t.next).setParent t.next (some p)).Shape := by
  rw [h.adopt_eq hc hroom]
  have hp := h.live_of_child hc
  have hne : p ≠ t.next := Nat.ne_of_lt hp.1
  have hfull := canAdopt_iff.mp hroom
  have hnew : ¬ (t.links p).HasChild t.next := fun hx =>
    absurd (h.live_child hx).1.1 (Nat.lt_irrefl _)
  set t' : Tree := { links := _, next := _, faults := [] } with ht'
  have hself : t'.links t.next = { Links.init with forkParent := some p } :=
    update_self _ _ _
  have hatp : t'.links p = adopting (t.links p) t.next := by
    rw [ht']
    exact (update_of_ne hne _ _).trans (update_self _ _ _)
  have helse : ∀ n, n ≠ t.next → n ≠ p → t'.links n = t.links n := by
    intro n hn hnp
    rw [ht']
    exact (update_of_ne hn _ _).trans (update_of_ne hnp _ _)
  have hisLive : ∀ n, n ≠ t.next → (t'.links n).isLive = (t.links n).isLive := by
    intro n hn
    by_cases hnp : n = p
    · rw [hnp, hatp, adopting_isLive]
    · rw [helse n hn hnp]
  have hlive : ∀ n, t'.Live n ↔ t.Live n ∨ n = t.next := by
    intro n
    by_cases hn : n = t.next
    · rw [Live, hn, hself]
      exact iff_of_true ⟨Nat.lt_succ_self _, rfl⟩ (.inr rfl)
    · rw [Live, hisLive n hn]
      change n < t.next + 1 ∧ _ ↔ _
      rw [or_iff_left hn, Live]
      refine and_congr_left fun _ => ?_
      exact ⟨fun hlt => Nat.lt_of_le_of_ne (Nat.lt_succ_iff.mp hlt) hn, Nat.lt_succ_of_lt⟩
  have hparent : ∀ n, t'.parent n = t.parent n ∨ n = t.next := by
    intro n
    by_cases hn : n = t.next
    · exact .inr hn
    · left
      by_cases hnp : n = p
      · rw [hnp, parent, hatp, adopting_forkParent]
        rfl
      · rw [parent, helse n hn hnp]
        rfl
  have hpself : t'.parent t.next = some p := by
    rw [parent, hself]
  have hx : ¬ t.Live t.next := fun hl => absurd hl.1 (Nat.lt_irrefl _)
  refine ⟨fun n hn => ?_, ?_, fun n => ?_, ?_, rfl⟩
  · have hn' : t.next < n := hn
    rw [helse n (Nat.ne_of_gt hn') (Nat.ne_of_gt (Nat.lt_trans hp.1 hn'))]
    exact h.fresh n (Nat.le_of_lt hn')
  · refine h.linked.add hp hx hlive (fun n c _ => ?_) hparent hpself
    by_cases hn : n = t.next
    · rw [Child, hn, hself]
      refine iff_of_false (fun hc => hc.elim nofun nofun) ?_
      rintro (⟨hne', -⟩ | ⟨he, -⟩)
      · exact hne' rfl
      · exact hne he.symm
    · by_cases hnp : n = p
      · rw [hnp, Child, hatp]
        refine (Links.addChild_hasChild hfull).trans ?_
        rw [and_iff_right hne, eq_self_iff_true, true_and]
        rfl
      · rw [Child, helse n hn hnp]
        constructor
        · exact fun hc => .inl ⟨hn, hc⟩
        · rintro (⟨-, hc⟩ | ⟨he, -⟩)
          · exact hc
          · exact absurd he hnp
  · by_cases hn : n = t.next
    · rw [hn, hself]
      exact ⟨nofun, nofun, nofun⟩
    · by_cases hnp : n = p
      · rw [hnp, hatp]
        refine ⟨Links.addChild_distinct (h.ok p) hnew, fun _ _ => ?_, fun hd => ?_⟩
        · refine (Links.addChild_childCount hfull).trans ?_
          rw [(h.ok p).counted hp.2 hc]
          rfl
        · rw [adopting_isLive, hp.2] at hd
          cases hd
      · rw [helse n hn hnp]
        exact h.ok n
  · obtain ⟨rank, hr, hlt⟩ := h.ranked
    refine ⟨_, hr.add hp hx h.linked hlive hparent hpself, fun n hn => ?_⟩
    change n < t.next + 1 at hn
    change _ < t.next + 1
    by_cases hne' : n = t.next
    · rw [hne', update_self]
      exact Nat.succ_lt_succ (hlt p hp.1)
    · rw [update_of_ne hne']
      exact Nat.lt_succ_of_lt (hlt n (Nat.lt_of_le_of_ne (Nat.lt_succ_iff.mp hn) hne'))

theorem Shape.push (hl : t.Live leaf) (hleaf : (t.links leaf).isLeaf = true) :
    (t.create.create.pushParent leaf t.next (t.next + 1)).Shape := by
  have hcc : t.create.create = { t with next := t.next + 2 } := by
    rw [h.create.create_eq, h.create_eq]
  rw [hcc]
  have hnochild : ∀ c, ¬ t.Child leaf c := Links.isLeaf_iff.mp hleaf
  have hxy : leaf ≠ t.next := Nat.ne_of_lt hl.1
  have hxz : leaf ≠ t.next + 1 := Nat.ne_of_lt (Nat.lt_succ_of_lt hl.1)
  have hyz : t.next ≠ t.next + 1 := Nat.ne_of_lt (Nat.lt_succ_self _)
  have hy : ¬ t.Live t.next := fun hl => absurd hl.1 (Nat.lt_irrefl _)
  have hz : ¬ t.Live (t.next + 1) := fun hl => absurd hl.1 (Nat.not_lt.mpr (Nat.le_succ _))
  have hfy := h.fresh t.next (Nat.le_refl _)
  have hfz := h.fresh (t.next + 1) (Nat.le_succ _)
  have hg : ∀ g, (t.links leaf).forkParent = some g → t.Live g ∧ t.Child g leaf := fun g hp =>
    h.linked.up hl hp
  have hold : ∀ g, (t.links leaf).forkParent = some g →
      g ≠ leaf ∧ g ≠ t.next ∧ g ≠ t.next + 1 := by
    intro g hp
    have hgl := hg g hp
    refine ⟨?_, Nat.ne_of_lt hgl.1.1, Nat.ne_of_lt (Nat.lt_succ_of_lt hgl.1.1)⟩
    rintro rfl
    exact hnochild _ hgl.2
  set t' := pushParent { t with next := t.next + 2 } leaf t.next (t.next + 1) with ht'
  have hlinks : ∀ n, t'.links n = _ := pushParent_links { t with next := t.next + 2 } hxy hxz hyz
    hfz hold
  have hnext : t'.next = t.next + 2 := pushParent_next _ _ _ _
  have haty : t'.links t.next = { Links.init with forkParent := some (t.next + 1) } := by
    rw [hlinks, if_pos rfl, hfy]
  have hatx : t'.links leaf = { t.links leaf with forkParent := some (t.next + 1) } := by
    rw [hlinks, if_neg hxy, if_pos rfl]
  have hatz : t'.links (t.next + 1) = pushed (t.links leaf).forkParent leaf t.next := by
    rw [hlinks, if_neg hyz.symm, if_neg hxz.symm, if_pos rfl]
  have hatg : ∀ g, (t.links leaf).forkParent = some g →
      t'.links g = replaceChild (t.links g) leaf (t.next + 1) := by
    intro g hp
    obtain ⟨h1, h2, h3⟩ := hold g hp
    rw [hlinks, if_neg h2, if_neg h1, if_neg h3, if_pos hp]
  have helse : ∀ n, n ≠ leaf → n ≠ t.next → n ≠ t.next + 1 → (t.links leaf).forkParent ≠ some n →
      t'.links n = t.links n := by
    intro n h1 h2 h3 h4
    rw [hlinks, if_neg h2, if_neg h1, if_neg h3, if_neg h4]
  have hisLive : ∀ n, n ≠ t.next → n ≠ t.next + 1 → (t'.links n).isLive = (t.links n).isLive := by
    intro n h2 h3
    by_cases h1 : n = leaf
    · rw [h1, hatx]
      rfl
    · by_cases h4 : (t.links leaf).forkParent = some n
      · rw [hatg n h4, replaceChild_isLive]
      · rw [helse n h1 h2 h3 h4]
  have hlive : ∀ n, t'.Live n ↔ t.Live n ∨ n = t.next ∨ n = t.next + 1 := by
    intro n
    rw [Live, hnext]
    by_cases h2 : n = t.next
    · rw [h2, haty]
      exact iff_of_true ⟨by omega, rfl⟩ (.inr (.inl rfl))
    · by_cases h3 : n = t.next + 1
      · rw [h3, hatz]
        exact iff_of_true ⟨by omega, rfl⟩ (.inr (.inr rfl))
      · rw [hisLive n h2 h3, Live, or_iff_left (not_or.mpr ⟨h2, h3⟩)]
        refine and_congr_left fun _ => ?_
        omega
  have hparent : ∀ n, t'.parent n = t.parent n ∨ n = leaf ∨ n = t.next ∨ n = t.next + 1 := by
    intro n
    by_cases h1 : n = leaf
    · exact .inr (.inl h1)
    · by_cases h2 : n = t.next
      · exact .inr (.inr (.inl h2))
      · by_cases h3 : n = t.next + 1
        · exact .inr (.inr (.inr h3))
        · left
          by_cases h4 : (t.links leaf).forkParent = some n
          · rw [parent, hatg n h4, replaceChild_forkParent]
            rfl
          · rw [parent, helse n h1 h2 h3 h4]
            rfl
  have hpx : t'.parent leaf = some (t.next + 1) := by rw [parent, hatx]
  have hpy : t'.parent t.next = some (t.next + 1) := by rw [parent, haty]
  have hpz : t'.parent (t.next + 1) = t.parent leaf := by
    rw [parent, hatz]
    rfl
  have hchild : ∀ n c, t'.Live n → (t'.Child n c ↔ n = t.next + 1 ∧ (c = leaf ∨ c = t.next) ∨
      n ≠ t.next ∧ n ≠ t.next + 1 ∧
        (t.Child n c ∧ c ≠ leaf ∨ c = t.next + 1 ∧ t.Child n leaf)) := by
    intro n c _
    by_cases h2 : n = t.next
    · subst h2
      rw [Child, haty]
      exact iff_of_false (fun hc => hc.elim nofun nofun) (by simp)
    · by_cases h3 : n = t.next + 1
      · subst h3
        rw [Child, hatz]
        simp [pushed, Links.HasChild, eq_comm]
      · rw [and_iff_right h2, and_iff_right h3, or_iff_right (fun he => h3 he.1)]
        by_cases h1 : n = leaf
        · subst h1
          rw [Child, hatx]
          refine iff_of_false (fun hc => hnochild c hc) ?_
          rintro (⟨hc, -⟩ | ⟨-, hc⟩)
          · exact hnochild c hc
          · exact hnochild n hc
        · by_cases h4 : (t.links leaf).forkParent = some n
          · have hcn := (hg n h4).2
            rw [Child, hatg n h4, Links.replaceChild_hasChild (h.ok n) hcn]
            refine or_congr_right ?_
            exact ⟨fun he => ⟨he, hcn⟩, fun he => he.1⟩
          · have hno : ¬ t.Child n leaf := fun hc => h4 (h.live_child hc).2
            rw [Child, helse n h1 h2 h3 h4]
            constructor
            · intro hc
              refine .inl ⟨hc, ?_⟩
              rintro rfl
              exact hno hc
            · rintro (⟨hc, -⟩ | ⟨-, hc⟩)
              · exact hc
              · exact absurd hc hno
  refine ⟨fun n hn => ?_, ?_, fun n => ?_, ?_, ?_⟩
  · rw [hnext] at hn
    have h4 : (t.links leaf).forkParent ≠ some n := by
      intro hp
      have := (hg n hp).1.1
      omega
    have h1 := hl.1
    rw [helse n (by omega) (by omega) (by omega) h4]
    exact h.fresh n (by omega)
  · exact Forest.Linked.push hl hy hz hyz hlive hparent hpx hpy hpz h.linked hchild
  · by_cases h2 : n = t.next
    · rw [h2, haty]
      exact ⟨nofun, nofun, nofun⟩
    · by_cases h3 : n = t.next + 1
      · rw [h3, hatz]
        refine ⟨fun c hc hc' => ?_, fun _ _ => rfl, nofun⟩
        cases hc
        cases hc'
        exact hxy rfl
      · by_cases h1 : n = leaf
        · rw [h1, hatx]
          refine ⟨(h.ok leaf).distinct, fun _ hnl => ?_, (h.ok leaf).dead⟩
          change (t.links leaf).isLeaf = false at hnl
          rw [hleaf] at hnl
          cases hnl
        · by_cases h4 : (t.links leaf).forkParent = some n
          · have hgn := hg n h4
            have hnew : ¬ (t.links n).HasChild (t.next + 1) := fun hc =>
              hz (h.live_child hc).1
            rw [hatg n h4]
            refine ⟨Links.replaceChild_distinct (h.ok n) hnew, fun _ _ => ?_, fun hd => ?_⟩
            · rw [Links.replaceChild_childCount hgn.2, replaceChild_referenceCount]
              exact (h.ok n).counted hgn.1.2 hgn.2
            · rw [replaceChild_isLive, hgn.1.2] at hd
              cases hd
          · rw [helse n h1 h2 h3 h4]
            exact h.ok n
  · obtain ⟨rank, hr, hlt⟩ := h.ranked
    refine ⟨_, Forest.Ranked.push hl hy hz hyz hnochild hlive hparent hpx hpy hpz hr h.linked,
      fun n hn => ?_⟩
    have hlx := hlt leaf hl.1
    rw [hnext] at hn ⊢
    simp only [Function.update_apply]
    split_ifs
    · omega
    · omega
    · omega
    · have := hlt n (by omega)
      omega
  · rw [pushParent_faults]
    exact h.faults

theorem Shape.forkCopy (hl : t.Live leaf) (hleaf : (t.links leaf).isLeaf = true) :
    (t.forkCopy leaf).Shape := by
  unfold Tree.forkCopy adopts forkParentOf
  cases hp : (t.links leaf).forkParent with
  | none => exact h.push hl hleaf
  | some p =>
    have hc : t.Child p leaf := (h.linked.up hl hp).2
    by_cases hroom : t.canAdopt p = true
    · simp only [hroom, if_true]
      exact h.adopt hc hroom
    · simp only [hroom, Bool.false_eq_true, if_false]
      exact h.push hl hleaf

/-! ### Detaching -/

omit h in
theorem markDestroyed_eq (hleaf : (t.links n).isLeaf = true) :
    t.markDestroyed n = t.removed n := by
  rw [markDestroyed, hleaf, check_true]
  rfl

theorem Shape.parent_ne (hc : t.Child p x) : x ≠ p := by
  obtain ⟨rank, hr, -⟩ := h.ranked
  obtain ⟨hl, hp⟩ := h.live_child hc
  rintro rfl
  exact Nat.lt_irrefl _ (hr x x hl hp)

theorem Shape.dropping_count (hc : t.Child p n) :
    (dropping (t.links p) n).childCount = (dropping (t.links p) n).referenceCount := by
  have hdrop := Links.dropChild_childCount (l := t.links p) hc
  have hok := (h.ok p).counted (h.live_of_child hc).2 hc
  change (dropChild (t.links p) n).childCount = (t.links p).referenceCount - 1
  omega

theorem Shape.detach_eq (hc : t.Child p n) (hleaf : (t.links n).isLeaf = true) :
    (t.markDestroyed n).detachForkChild p n =
      (t.unlinked n p, if (dropping (t.links p) n).referenceCount = 0 then .unused
        else match (dropping (t.links p) n).forkChild1.or (dropping (t.links p) n).forkChild2 with
          | none => .kept
          | some c => .only c) := by
  have hlinks : (t.removed n).links p = t.links p := update_of_ne (h.parent_ne hc).symm _ _
  have hhas : ((t.removed n).links p).HasChild n := hlinks ▸ hc
  rw [markDestroyed_eq hleaf, detachForkChild, if_pos hhas, hlinks]
  simp only [decide_eq_true (h.dropping_count hc), check_true]
  rfl

theorem Shape.only_child {c' : ℕ}
    (hc₁ : (dropping (t.links p) n).HasChild c) (hc₂ : (dropping (t.links p) n).HasChild c') :
    c = c' := by
  have hdist := (h.ok p).distinct
  unfold dropping dropChild Links.HasChild at *
  generalize t.links p = l at *
  grind

theorem Shape.unlinked_else (hc : t.Child p n) :
    p ≠ n ∧ (t.unlinked n p).links p = dropping (t.links p) n ∧
      (t.unlinked n p).links n = { t.links n with beingDestroyed := true, forkParent := none } ∧
      ∀ m, m ≠ n → m ≠ p → (t.unlinked n p).links m = t.links m := by
  have hne := (h.parent_ne hc).symm
  refine ⟨hne, update_self _ _ _, ?_, fun m hm hmp => ?_⟩
  · exact (update_of_ne hne.symm _ _).trans (update_self _ _ _)
  · exact (update_of_ne hmp _ _).trans (update_of_ne hm _ _)

theorem Shape.unlinked_live (hc : t.Child p n) (m : ℕ) :
    ((t.unlinked n p).Live m ↔ t.Live m ∧ m ≠ n) ∧
      ((t.unlinked n p).Live m → (t.unlinked n p).parent m = t.parent m) := by
  obtain ⟨hne, hatp, hatn, helse⟩ := h.unlinked_else hc
  by_cases hm : m = n
  · subst hm
    have hdead : ¬ (t.unlinked m p).Live m := by
      intro hl
      have hd := hl.2
      rw [hatn] at hd
      cases hd
    exact ⟨iff_of_false hdead fun hl => hl.2 rfl, fun hl => absurd hl hdead⟩
  · rw [and_iff_left hm]
    by_cases hmp : m = p
    · rw [hmp, Live, hatp, dropping_isLive, parent, hatp, dropping_forkParent]
      exact ⟨Iff.rfl, fun _ => rfl⟩
    · rw [Live, parent, helse m hm hmp]
      exact ⟨Iff.rfl, fun _ => rfl⟩

/-- The parent has lost its last child. -/
theorem Shape.unlinked_leaf (hc : t.Child p n)
    (hzero : (dropping (t.links p) n).referenceCount = 0) :
    (t.unlinked n p).Live p ∧ ((t.unlinked n p).links p).isLeaf = true := by
  have hlp := h.live_of_child hc
  obtain ⟨hne, hatp, -⟩ := h.unlinked_else hc
  refine ⟨((h.unlinked_live hc p).1).mpr ⟨hlp, hne⟩, ?_⟩
  rw [hatp]
  rw [← h.dropping_count hc] at hzero
  exact Links.isLeaf_of_childCount hzero

theorem Shape.unlinked (hl : t.Live n) (hc : t.Child p n)
    (hleaf : (t.links n).isLeaf = true) : (t.unlinked n p).Shape := by
  have hp := h.live_of_child hc
  obtain ⟨hne, hatp, hatn, helse⟩ := h.unlinked_else hc
  have hlive := fun m => (h.unlinked_live hc m).1
  have hparent := fun m => (h.unlinked_live hc m).2
  have hchild : ∀ m c, (t.unlinked n p).Live m →
      ((t.unlinked n p).Child m c ↔ t.Child m c ∧ c ≠ n) := by
    intro m c hm
    have hmn := ((hlive m).mp hm).2
    by_cases hmp : m = p
    · rw [hmp, Child, hatp]
      exact Links.dropChild_hasChild (h.ok p) hc
    · rw [Child, helse m hmn hmp]
      refine ⟨fun hch => ⟨hch, ?_⟩, fun hch => hch.1⟩
      rintro rfl
      have hpar := (h.live_child hch).2
      rw [(h.live_child hc).2] at hpar
      exact hmp (Option.some.inj hpar).symm
  refine ⟨fun m hm => ?_, h.linked.remove (Links.isLeaf_iff.mp hleaf) hlive hchild hparent,
    fun m => ?_, ?_, h.faults⟩
  · have hm' : t.next ≤ m := hm
    rw [helse m (by have := hl.1; omega) (by have := hp.1; omega)]
    exact h.fresh m hm
  · by_cases hm : m = n
    · rw [hm, hatn]
      exact ⟨(h.ok n).distinct, nofun, fun _ => hleaf⟩
    · by_cases hmp : m = p
      · rw [hmp, hatp]
        refine ⟨Links.dropChild_distinct (h.ok p), fun _ _ => h.dropping_count hc, fun hd => ?_⟩
        rw [dropping_isLive, hp.2] at hd
        cases hd
      · rw [helse m hm hmp]
        exact h.ok m
  · obtain ⟨rank, hr, hlt⟩ := h.ranked
    exact ⟨rank, hr.remove (fun m hm => ((hlive m).mp hm).1) hparent, hlt⟩

theorem Shape.removed (hl : t.Live n) (hroot : t.parent n = none)
    (hleaf : (t.links n).isLeaf = true) : (t.removed n).Shape := by
  have hatn : (t.removed n).links n = { t.links n with beingDestroyed := true, forkParent := none } :=
    update_self _ _ _
  have helse : ∀ m, m ≠ n → (t.removed n).links m = t.links m := fun m hm =>
    update_of_ne hm _ _
  have hlive : ∀ m, (t.removed n).Live m ↔ t.Live m ∧ m ≠ n := by
    intro m
    by_cases hm : m = n
    · subst hm
      refine iff_of_false (fun hl => ?_) fun hl => hl.2 rfl
      have hd := hl.2
      rw [hatn] at hd
      cases hd
    · rw [and_iff_left hm, Live, helse m hm]
      exact Iff.rfl
  have hparent : ∀ m, (t.removed n).Live m → (t.removed n).parent m = t.parent m := by
    intro m hm
    rw [parent, helse m ((hlive m).mp hm).2]
    rfl
  have hchild : ∀ m c, (t.removed n).Live m → ((t.removed n).Child m c ↔ t.Child m c ∧ c ≠ n) := by
    intro m c hm
    rw [Child, helse m ((hlive m).mp hm).2]
    refine ⟨fun hch => ⟨hch, ?_⟩, fun hch => hch.1⟩
    rintro rfl
    rw [(h.live_child hch).2] at hroot
    cases hroot
  refine ⟨fun m hm => ?_, h.linked.remove (Links.isLeaf_iff.mp hleaf) hlive hchild hparent,
    fun m => ?_, ?_, h.faults⟩
  · rw [helse m (Nat.ne_of_lt (Nat.lt_of_lt_of_le hl.1 hm)).symm]
    exact h.fresh m hm
  · by_cases hm : m = n
    · rw [hm, hatn]
      exact ⟨(h.ok n).distinct, nofun, fun _ => hleaf⟩
    · rw [helse m hm]
      exact h.ok m
  · obtain ⟨rank, hr, hlt⟩ := h.ranked
    exact ⟨rank, hr.remove (fun m hm => ((hlive m).mp hm).1) hparent, hlt⟩

/-! ### Collapsing -/

/-- The tree after a collapse of `x` into `p`. -/
structure Collapses (t t' : Tree) (x p : ℕ) : Prop where
  self : t'.links x = collapsed (t.links x)
  child : ∀ c, t.Child x c → t'.links c = { t.links c with forkParent := some p }
  parent : t'.links p = adoptingBoth (t.links p) (t.links x).forkChild1 (t.links x).forkChild2
  other : ∀ n, n ≠ x → n ≠ p → ¬ t.Child x n → t'.links n = t.links n
  next : t'.next = t.next
  faults : t'.faults = t.faults

theorem Shape.not_child_parent (hc : t.Child p x) : ¬ t.Child x p := by
  intro hc'
  obtain ⟨rank, hr, -⟩ := h.ranked
  obtain ⟨hl, hp⟩ := h.live_child hc
  obtain ⟨hl', hp'⟩ := h.live_child hc'
  exact Nat.lt_irrefl _ (Nat.lt_trans (hr x p hl hp) (hr p x hl' hp'))

theorem Shape.adoptingBoth_count (hc : t.Child p x)
    (honly : ∀ c, t.Child p c → c = x) (hleaf : (t.links x).isLeaf = false) :
    (adoptingBoth (t.links p) (t.links x).forkChild1 (t.links x).forkChild2).childCount =
      (adoptingBoth (t.links p) (t.links x).forkChild1 (t.links x).forkChild2).referenceCount := by
  have hcount := (h.ok p).counted (h.live_of_child hc).2 hc
  rw [((h.ok p).single hc honly).1] at hcount
  refine (Links.childCount_of_not_isLeaf (l := t.links x) hleaf).trans ?_
  change _ = if _ then (t.links p).referenceCount + 1 else (t.links p).referenceCount
  rw [← hcount]

theorem Shape.collapses (hc : t.Child p x) (honly : ∀ c, t.Child p c → c = x)
    (hleaf : (t.links x).isLeaf = false) : Collapses t (t.forkCollapse x) x p := by
  obtain ⟨hl, hp⟩ := h.live_child hc
  have hlp := h.live_of_child hc
  have hxp := h.parent_ne hc
  have hinto : t.collapseInto x = some p := by
    have hpl : (t.links p).isLeaf = false := Links.not_isLeaf hc
    have hpar : (t.links x).forkParent = some p := hp
    simp [collapseInto, hl.2, hleaf, hpar, hlp.2, hpl]
  have hroom : t.canAdopt p = true := canAdopt_iff.mpr ((h.ok p).single hc honly).2
  have hcount := h.adoptingBoth_count hc honly hleaf
  have hcx : (t.links x).childCount = (t.links x).referenceCount := (h.ok x).count hl.2 hleaf
  have hxx : ¬ t.Child x x := fun hcc => h.parent_ne hcc rfl
  have hxpc := h.not_child_parent hc
  have heq : t.forkCollapse x = set (setParentOf (setParentOf (t.set p (adoptingBoth (t.links p)
      (t.links x).forkChild1 (t.links x).forkChild2)) (t.links x).forkChild1 p)
      (t.links x).forkChild2 p) x (collapsed (t.links x)) := by
    simp only [forkCollapse, hinto, adoptChildrenAndLock, hroom, check_true,
      decide_eq_true hcount, decide_eq_true hcx]
  have hlinks : ∀ n, n ≠ x → (t.forkCollapse x).links n =
      if (t.links x).forkChild2 = some n ∨ (t.links x).forkChild1 = some n then
        { (t.set p (adoptingBoth (t.links p) (t.links x).forkChild1
          (t.links x).forkChild2)).links n with forkParent := some p }
      else (t.set p (adoptingBoth (t.links p) (t.links x).forkChild1
        (t.links x).forkChild2)).links n := by
    intro n hn
    rw [heq]
    refine (update_of_ne hn _ _).trans ?_
    rw [setParentOf_links, setParentOf_links]
    by_cases h2 : (t.links x).forkChild2 = some n <;> by_cases h1 : (t.links x).forkChild1 = some n
    · simp [h1, h2]
    · simp [h1, h2]
    · simp [h1, h2]
    · simp [h1, h2]
  refine ⟨?_, fun c hcc => ?_, ?_, fun n hn hnp hnc => ?_, ?_, ?_⟩
  · rw [heq]
    exact update_self _ _ _
  · have hne : c ≠ x := by
      rintro rfl
      exact hxx hcc
    have hcp : c ≠ p := by
      rintro rfl
      exact hxpc hcc
    rw [hlinks c hne, if_pos hcc.symm]
    simp [set, hcp]
  · rw [hlinks p hxp.symm, if_neg fun hcc => hxpc hcc.symm]
    exact update_self _ _ _
  · rw [hlinks n hn, if_neg fun hcc => hnc hcc.symm]
    exact update_of_ne hnp _ _
  · rw [heq]
    simp [set, setParentOf_next]
  · rw [heq]
    simp [set, setParentOf_faults]

theorem Shape.collapse {t' : Tree} (hc : t.Child p x)
    (honly : ∀ c, t.Child p c → c = x) (hleaf : (t.links x).isLeaf = false)
    (hcol : Collapses t t' x p) : t'.Shape := by
  obtain ⟨hl, hp⟩ := h.live_child hc
  have hlp := h.live_of_child hc
  have hxp := h.parent_ne hc
  have hisLive : ∀ n, n ≠ x → (t'.links n).isLive = (t.links n).isLive := by
    intro n hn
    by_cases hnc : t.Child x n
    · rw [hcol.child n hnc]
      rfl
    · by_cases hnp : n = p
      · rw [hnp, hcol.parent]
        rfl
      · rw [hcol.other n hn hnp hnc]
  have hlive : ∀ n, t'.Live n ↔ t.Live n ∧ n ≠ x := by
    intro n
    by_cases hn : n = x
    · subst hn
      refine iff_of_false (fun hl => ?_) fun hl => hl.2 rfl
      have hd := hl.2
      rw [hcol.self] at hd
      cases hd
    · rw [and_iff_left hn, Live, hcol.next, hisLive n hn]
      exact Iff.rfl
  have hparent : ∀ n, t'.Live n → t'.parent n =
      if t.parent n = some x then some p else t.parent n := by
    intro n hn
    obtain ⟨hln, hnx⟩ := (hlive n).mp hn
    by_cases hnc : t.Child x n
    · rw [if_pos (h.live_child hnc).2, parent, hcol.child n hnc]
    · have hno : t.parent n ≠ some x := fun he => hnc (h.linked.up hln he).2
      rw [if_neg hno]
      by_cases hnp : n = p
      · rw [hnp, parent, hcol.parent]
        rfl
      · rw [parent, hcol.other n hnx hnp hnc]
        rfl
  have hchild : ∀ n c, t'.Live n → (t'.Child n c ↔ if n = p then t.Child x c else t.Child n c) := by
    intro n c hn
    obtain ⟨hln, hnx⟩ := (hlive n).mp hn
    by_cases hnp : n = p
    · rw [hnp, if_pos rfl, Child, hcol.parent]
      exact Iff.rfl
    · rw [if_neg hnp]
      by_cases hnc : t.Child x n
      · rw [Child, hcol.child n hnc]
        exact Iff.rfl
      · rw [Child, hcol.other n hnx hnp hnc]
        exact Iff.rfl
  refine ⟨fun n hn => ?_, h.linked.collapse hl hp hxp honly hlive hchild hparent, fun n => ?_, ?_,
    hcol.faults.trans h.faults⟩
  · rw [hcol.next] at hn
    have hnc : ¬ t.Child x n := fun hcc =>
      absurd (h.live_child hcc).1.1 (Nat.not_lt.mpr hn)
    rw [hcol.other n ?_ ?_ hnc]
    · exact h.fresh n hn
    · rintro rfl
      exact absurd hl.1 (Nat.not_lt.mpr hn)
    · rintro rfl
      exact absurd hlp.1 (Nat.not_lt.mpr hn)
  · by_cases hn : n = x
    · rw [hn, hcol.self]
      exact ⟨nofun, nofun, fun _ => rfl⟩
    · by_cases hnc : t.Child x n
      · rw [hcol.child n hnc]
        exact ⟨(h.ok n).distinct, (h.ok n).count, (h.ok n).dead⟩
      · by_cases hnp : n = p
        · rw [hnp, hcol.parent]
          refine ⟨(h.ok x).distinct, fun _ _ => h.adoptingBoth_count hc honly hleaf, fun hd => ?_⟩
          change (t.links p).isLive = false at hd
          rw [hlp.2] at hd
          cases hd
        · rw [hcol.other n hn hnp hnc]
          exact h.ok n
  · obtain ⟨rank, hr, hlt⟩ := h.ranked
    rw [hcol.next]
    exact ⟨rank, hr.collapse hl hp (fun n hn => ((hlive n).mp hn).1) hparent, hlt⟩

theorem Shape.forkCollapse (hc : t.Child p x) (honly : ∀ c, t.Child p c → c = x) :
    (t.forkCollapse x).Shape := by
  cases hleaf : (t.links x).isLeaf with
  | true =>
    have hinto : t.collapseInto x = none := by simp [collapseInto, hleaf]
    rw [Tree.forkCollapse, hinto]
    exact h
  | false => exact h.collapse hc honly hleaf (h.collapses hc honly hleaf)

end

/-! ### Destroying -/

theorem destroyLoop_shape (fuel : ℕ) : ∀ (t : Tree) (n : ℕ), t.Shape → t.Live n →
    (t.links n).isLeaf = true → (destroyLoop fuel t n).1.Shape := by
  induction fuel with
  | zero => exact fun t n h _ _ => h
  | succ fuel ih =>
    intro t n h hl hleaf
    rw [destroyLoop]
    cases hp : (t.links n).forkParent with
    | none =>
      simp only
      rw [markDestroyed_eq hleaf]
      exact h.removed hl hp hleaf
    | some p =>
      have hc : t.Child p n := (h.linked.up hl hp).2
      have hun := h.unlinked hl hc hleaf
      simp only [h.detach_eq hc hleaf]
      by_cases hzero : (dropping (t.links p) n).referenceCount = 0
      · rw [if_pos hzero]
        -- the parent has no child left: it goes too
        obtain ⟨hlp', hleaf'⟩ := h.unlinked_leaf hc hzero
        exact ih _ p hun hlp' hleaf'
      · rw [if_neg hzero]
        cases hx : (dropping (t.links p) n).forkChild1.or (dropping (t.links p) n).forkChild2 with
        | none => exact hun
        | some x =>
          have hatp := (h.unlinked_else hc).2.1
          have hcx : (t.unlinked n p).Child p x := by
            rw [Child, hatp]
            exact Links.hasChild_of_or hx
          refine hun.forkCollapse hcx fun c hcc => ?_
          rw [Child, hatp] at hcc hcx
          exact h.only_child hcc hcx

/-- Ranks fall towards the root, so as many rounds as the rank of the leaf are enough. -/
theorem destroyLoop_succ {rank : ℕ → ℕ} (fuel : ℕ) : ∀ (t : Tree) (n : ℕ), t.Shape → t.Live n →
    (t.links n).isLeaf = true → Forest.Ranked t.Live t.parent rank → rank n < fuel →
    destroyLoop (fuel + 1) t n = destroyLoop fuel t n := by
  induction fuel with
  | zero => exact fun t n _ _ _ _ hlt => absurd hlt (Nat.not_lt_zero _)
  | succ fuel ih =>
    intro t n h hl hleaf hr hlt
    rw [destroyLoop, destroyLoop]
    cases hp : (t.links n).forkParent with
    | none => rfl
    | some p =>
      have hc : t.Child p n := (h.linked.up hl hp).2
      have hlive := h.unlinked_live hc
      simp only [h.detach_eq hc hleaf]
      by_cases hzero : (dropping (t.links p) n).referenceCount = 0
      · rw [if_pos hzero]
        obtain ⟨hlp', hleaf'⟩ := h.unlinked_leaf hc hzero
        have hr' := hr.remove (fun m hm => ((hlive m).1.mp hm).1) fun m => (hlive m).2
        have hrank := hr n p hl hp
        simp only [ih _ p (h.unlinked hl hc hleaf) hlp' hleaf' hr' (by omega)]
      · rw [if_neg hzero]
        cases (dropping (t.links p) n).forkChild1.or (dropping (t.links p) n).forkChild2 <;> rfl

theorem Shape.destroy_fuel (h : t.Shape) {leaf : ℕ} (hl : t.Live leaf)
    (hleaf : (t.links leaf).isLeaf = true) {fuel : ℕ} (hfuel : t.next ≤ fuel) :
    destroyLoop fuel t leaf = t.destroy leaf := by
  obtain ⟨rank, hr, hlt⟩ := h.ranked
  have hrank := hlt leaf hl.1
  induction hfuel with
  | refl => rfl
  | step hfuel ih =>
    exact (destroyLoop_succ _ t leaf h hl hleaf hr (Nat.lt_of_lt_of_le hrank hfuel)).trans ih

theorem Shape.destroy (h : t.Shape) {leaf : ℕ} (hl : t.Live leaf)
    (hleaf : (t.links leaf).isLeaf = true) : (t.destroy leaf).1.Shape :=
  destroyLoop_shape t.next t leaf h hl hleaf

end Tree

end ForkTree

end K42
