import K42.Lib.Run
import K42.Mem.ForkTree

/-!
# The pages of the fork tree

A page of a fork parent has two flags: the first child has a copy of it, and the second one
has. `getForkPage` sets them, unless the other child has its copy already or is missing; then
the page itself is given away. The pages go up to a parent with their flags, when a leaf is
forked and when a manager is collapsed, after those of the parent have been cleared.

Runs are of forks, destructions with the collapse that these end in, and what the managers
answer when a leaf asks for a page; each runs to its end.
-/

namespace K42.ForkTree

structure PageDesc where
  forkCopied1 : Bool
  forkCopied2 : Bool
  established : Bool
deriving DecidableEq

namespace PageDesc

def init : PageDesc := ⟨false, false, false⟩

/-- What `finishAllIO` does to a page of an adopting parent. -/
def clearCopyFlags (pg : PageDesc) : PageDesc :=
  { pg with forkCopied1 := false, forkCopied2 := false }

def hasBoth (pg : PageDesc) : Bool := pg.forkCopied1 && pg.forkCopied2

end PageDesc

/-- What a manager answers to a leaf that asks for a page. -/
inductive ForkPage
  | MAPPAGE
  | FRAMETOKEEP
  | FRAMETOCOPY
  | BLOCKIDTOKEEP
  | TRYPARENT (parent : ℕ)
  | NOPAGE
deriving DecidableEq

namespace Links

/-- The other child has a copy of the page, or there is none. -/
def givesAway (l : Links) (pg : PageDesc) (child : ℕ) : Bool :=
  ((pg.forkCopied1 || l.forkChild1.isNone) && l.forkChild2 = some child) ||
    ((pg.forkCopied2 || l.forkChild2.isNone) && l.forkChild1 = some child)

/-- The page once the child has copied it. -/
def copied (l : Links) (pg : PageDesc) (child : ℕ) : PageDesc :=
  if l.forkChild1 = some child then { pg with forkCopied1 := true }
  else if l.forkChild2 = some child then { pg with forkCopied2 := true }
  else pg

end Links

/-- The tree, the pages of each manager by their offsets, and whether copies of one page have
been given to both children. -/
structure Managers where
  tree : Tree
  pages : ℕ → ℕ → Option PageDesc
  gaveBoth : Bool

namespace Managers

def init : Managers := ⟨.init, fun _ _ => none, false⟩

def setPage (m : Managers) (n off : ℕ) (pg : Option PageDesc) : Managers :=
  { m with pages := Function.update m.pages n (Function.update (m.pages n) off pg) }

/-- The part of `getForkPage` for a page that is there. -/
def givePage (m : Managers) (n child off : ℕ) (pg : PageDesc) (copyOnWrite : Bool) :
    Managers × ForkPage :=
  let l := m.tree.links n
  if copyOnWrite then (m.setPage n off (some pg), .MAPPAGE)
  else if l.givesAway pg child then (m.setPage n off none, .FRAMETOKEEP)
  else
    let pg := l.copied pg child
    ({ m.setPage n off (some pg) with gaveBoth := m.gaveBoth || pg.hasBoth }, .FRAMETOCOPY)

/-- `onDisk`: there is a block for the page. A page is filled from it if both children may need
it. -/
def getForkPage (m : Managers) (n child off : ℕ) (copyOnWrite onDisk : Bool) :
    Managers × ForkPage :=
  let l := m.tree.links n
  match m.pages n off with
  | some pg => m.givePage n child off pg copyOnWrite
  | none =>
    if onDisk then
      if (l.forkChild1.isNone && l.forkChild2 = some child) ||
          (l.forkChild2.isNone && l.forkChild1 = some child) then (m, .BLOCKIDTOKEEP)
      else m.givePage n child off .init copyOnWrite
    else
      match l.forkParent with
      | some p => (m, .TRYPARENT p)
      | none => (m, .NOPAGE)

/-- What a fork finds in the pages of the leaf: those that are copied, because they are pinned or
because few are, those of which the parent drops a stale copy, and the offsets of the blocks
without a frame. -/
structure Copying where
  copies : ℕ → Bool
  drops : ℕ → Bool
  blocks : ℕ → Bool

/-- The leaf keeps the page. -/
def Copying.keeps (c : Copying) (off : ℕ) (pg : PageDesc) : Bool := pg.established || c.copies off

/-- The page of the parent, from the one it had and the one of the leaf. -/
def Copying.received (c : Copying) (off : ℕ) (old leaf : Option PageDesc) : Option PageDesc :=
  if c.blocks off then none
  else
    match leaf with
    | none => old
    | some pg =>
      if !c.keeps off pg then some pg
      else if !pg.established && c.drops off then none
      else old

def forkCopy (m : Managers) (leaf : ℕ) (c : Copying) : Managers :=
  let child := m.tree.next
  let p := m.tree.forkParentOf leaf
  let old := fun off =>
    if m.tree.adopts leaf then (m.pages p off).map .clearCopyFlags else none
  { m with
    tree := m.tree.forkCopy leaf
    pages := fun n off =>
      if n = leaf then (m.pages leaf off).filter (c.keeps off)
      else if n = child then
        if (m.pages leaf off).any (!·.established) && c.copies off then some .init else none
      else if n = p then c.received off (old off) (m.pages leaf off)
      else m.pages n off }

/-- `blocks`: the offsets of the blocks without a frame of a manager that collapses. -/
def destroy (m : Managers) (leaf : ℕ) (blocks : ℕ → Bool) : Managers :=
  let (tree, gone) := m.tree.destroy leaf
  { m with
    tree := tree
    pages := fun n off =>
      if n ∈ gone.destroyed then none
      else
        match gone.collapsed with
        | none => m.pages n off
        | some (x, p) =>
          if n = x then none
          else if n = p then
            if blocks off then none
            else (m.pages x off).or ((m.pages p off).map .clearCopyFlags)
          else m.pages n off }

inductive Op
  | create
  | forkCopy (leaf : ℕ) (c : Copying)
  | destroy (leaf : ℕ) (blocks : ℕ → Bool)
  | getForkPage (n child off : ℕ) (copyOnWrite onDisk : Bool)
  | addPage (leaf off : ℕ) (established : Bool)

def step (m : Managers) : Op → Managers
  | .create =>
    { m with
      tree := m.tree.create
      pages := Function.update m.pages m.tree.next fun _ => none }
  | .forkCopy leaf c => m.forkCopy leaf c
  | .destroy leaf blocks => m.destroy leaf blocks
  | .getForkPage n child off copyOnWrite onDisk =>
    (m.getForkPage n child off copyOnWrite onDisk).1
  | .addPage leaf off established => m.setPage leaf off (some { PageDesc.init with established })

/-- Leaves are forked and destroyed and have pages of their own; the others are asked for
theirs. -/
def Admissible (m : Managers) : Op → Prop
  | .create => True
  | .forkCopy leaf _ | .destroy leaf _ | .addPage leaf _ _ =>
    m.tree.Live leaf ∧ (m.tree.links leaf).isLeaf = true
  | .getForkPage n _ _ _ _ => m.tree.Live n ∧ (m.tree.links n).isLeaf = false

def calls : Machine Managers Op := ⟨step, Admissible⟩

/-! ## Flags -/

/-- No page says that both children have it. -/
def NotBoth (m : Managers) : Prop :=
  ∀ n off pg, m.pages n off = some pg → pg.hasBoth = false

structure Inv (m : Managers) : Prop where
  shape : m.tree.Shape
  notBoth : m.NotBoth
  gaveBoth : m.gaveBoth = false

variable {m : Managers} {n child off : ℕ} {pg : PageDesc}

theorem NotBoth.setPage (h : m.NotBoth) {o : Option PageDesc}
    (ho : ∀ pg, o = some pg → pg.hasBoth = false) : (m.setPage n off o).NotBoth := by
  intro n' off' pg' hpg
  by_cases hn : n' = n
  · subst hn
    by_cases hoff : off' = off
    · subst hoff
      exact ho pg' (by simpa [Managers.setPage] using hpg)
    · exact h n' off' pg' (by simpa [Managers.setPage, hoff] using hpg)
  · exact h n' off' pg' (by simpa [Managers.setPage, hn] using hpg)

/-- A copy is only made while the other child is there and has none. -/
theorem copied_hasBoth {l : Links} (hpg : pg.hasBoth = false)
    (hkeep : l.givesAway pg child = false) : (l.copied pg child).hasBoth = false := by
  unfold Links.givesAway at hkeep
  unfold Links.copied PageDesc.hasBoth
  split_ifs with h1 h2
  · simp_all
  · simp_all
  · exact hpg

theorem Inv.givePage (h : m.Inv) (hpg : pg.hasBoth = false) (copyOnWrite : Bool) :
    (m.givePage n child off pg copyOnWrite).1.Inv := by
  have hset (o : Option PageDesc) (ho : ∀ pg, o = some pg → pg.hasBoth = false) :
      (m.setPage n off o).Inv := ⟨h.shape, h.notBoth.setPage ho, h.gaveBoth⟩
  unfold Managers.givePage
  cases copyOnWrite with
  | true => exact hset (some pg) (by simpa using hpg)
  | false =>
    cases hgive : (m.tree.links n).givesAway pg child with
    | true => simpa [hgive] using hset none nofun
    | false =>
      have hcopied := copied_hasBoth hpg hgive
      simp only [hgive, Bool.false_eq_true, if_false, hcopied, Bool.or_false]
      exact hset _ fun pg' he => Option.some.inj he ▸ hcopied

theorem Inv.getForkPage (h : m.Inv) (copyOnWrite onDisk : Bool) :
    (m.getForkPage n child off copyOnWrite onDisk).1.Inv := by
  unfold Managers.getForkPage
  cases hpg : m.pages n off with
  | some pg => exact h.givePage (h.notBoth n off pg hpg) copyOnWrite
  | none =>
    simp only
    split_ifs
    · exact h
    · exact h.givePage rfl copyOnWrite
    · split <;> exact h

theorem NotBoth.received (c : Copying) {old leaf : Option PageDesc}
    (hold : ∀ pg, old = some pg → pg.hasBoth = false)
    (hleaf : ∀ pg, leaf = some pg → pg.hasBoth = false) :
    ∀ pg, c.received off old leaf = some pg → pg.hasBoth = false := by
  unfold Copying.received
  cases leaf with
  | none => split_ifs <;> simp_all
  | some pg => simp only; split_ifs <;> simp_all

theorem NotBoth.cleared (o : Option PageDesc) :
    ∀ pg, o.map PageDesc.clearCopyFlags = some pg → pg.hasBoth = false := by
  intro pg hpg
  obtain ⟨pg', -, rfl⟩ := Option.map_eq_some_iff.mp hpg
  rfl

theorem Inv.forkCopy (h : m.Inv) {leaf : ℕ} (hl : m.tree.Live leaf)
    (hleaf : (m.tree.links leaf).isLeaf = true) (c : Copying) : (m.forkCopy leaf c).Inv := by
  refine ⟨h.shape.forkCopy hl hleaf, fun n off => ?_, h.gaveBoth⟩
  simp only [Managers.forkCopy]
  split_ifs with hn hchild hcopy hp
  · exact fun pg hpg => h.notBoth leaf off pg (Option.filter_eq_some_iff.mp hpg).1
  · exact fun pg hpg => Option.some.inj hpg ▸ rfl
  · exact nofun
  · exact NotBoth.received c (NotBoth.cleared _) (h.notBoth leaf off)
  · exact NotBoth.received c nofun (h.notBoth leaf off)
  · exact h.notBoth n off

theorem Inv.destroy (h : m.Inv) {leaf : ℕ} (hl : m.tree.Live leaf)
    (hleaf : (m.tree.links leaf).isLeaf = true) (blocks : ℕ → Bool) :
    (m.destroy leaf blocks).Inv := by
  refine ⟨h.shape.destroy hl hleaf, fun n off => ?_, h.gaveBoth⟩
  simp only [Managers.destroy]
  cases (m.tree.destroy leaf).2.collapsed with
  | none =>
    simp only
    split_ifs
    · exact nofun
    · exact h.notBoth n off
  | some xp =>
    simp only
    split_ifs
    · exact nofun
    · exact nofun
    · exact nofun
    · intro pg hpg
      rcases Option.or_eq_some_iff.mp hpg with hpg | ⟨-, hpg⟩
      · exact h.notBoth xp.1 off pg hpg
      · exact NotBoth.cleared _ pg hpg
    · exact h.notBoth n off

theorem Inv.step (h : m.Inv) (op : Op) (hop : m.Admissible op) : (m.step op).Inv := by
  cases op with
  | create =>
    refine ⟨h.shape.create, fun n off pg hpg => ?_, h.gaveBoth⟩
    by_cases hn : n = m.tree.next
    · simp [Managers.step, hn] at hpg
    · exact h.notBoth n off pg (by simpa [Managers.step, hn] using hpg)
  | forkCopy leaf c => exact h.forkCopy hop.1 hop.2 c
  | destroy leaf blocks => exact h.destroy hop.1 hop.2 blocks
  | getForkPage n child off copyOnWrite onDisk => exact h.getForkPage copyOnWrite onDisk
  | addPage leaf off established =>
    exact ⟨h.shape, h.notBoth.setPage fun pg hpg => Option.some.inj hpg ▸ rfl, h.gaveBoth⟩

/-! ## Runs -/

/-- The managers that have not collapsed and are not destroyed form a forest: parents and children
agree in both directions, and nobody has one of the others as its child or parent. Parents count
their children, no page says that both children have it, no assertion has failed, and a destruction
goes to its end. -/
structure Sound (m : Managers) : Prop where
  agree : ∀ c n, m.tree.Live c → (m.tree.parent c = some n ↔ m.tree.Child n c)
  child : ∀ n c, m.tree.Child n c → m.tree.Live n ∧ m.tree.Live c
  parent : ∀ n c, m.tree.Live c → m.tree.parent c = some n → m.tree.Live n
  acyclic : ∃ rank : ℕ → ℕ, Forest.Ranked m.tree.Live m.tree.parent rank
  counted : ∀ n, m.tree.Live n → (m.tree.links n).isLeaf = false →
    (m.tree.links n).referenceCount = (m.tree.links n).childCount
  notBoth : m.NotBoth
  faults : m.tree.faults = [] ∧ m.gaveBoth = false
  ends : ∀ leaf, m.tree.Live leaf → (m.tree.links leaf).isLeaf = true → ∀ fuel, m.tree.next ≤ fuel →
    Tree.destroyLoop fuel m.tree leaf = m.tree.destroy leaf

theorem Inv.sound (h : m.Inv) : m.Sound where
  agree _ _ hc := ⟨fun hp => (h.shape.linked.up hc hp).2, fun hc => (h.shape.live_child hc).2⟩
  child _ _ hc := ⟨h.shape.live_of_child hc, (h.shape.live_child hc).1⟩
  parent _ _ hc hp := (h.shape.linked.up hc hp).1
  acyclic := h.shape.ranked.imp fun _ hr => hr.1
  counted n hn hleaf := ((h.shape.ok n).count hn.2 hleaf).symm
  notBoth := h.notBoth
  faults := ⟨h.shape.faults, h.gaveBoth⟩
  ends _ hl hleaf _ hfuel := h.shape.destroy_fuel hl hleaf hfuel

/-- **The fork tree** keeps its shape in every run of forks and destructions, whatever the leaves
read in between. -/
theorem run_treeSound {ops : List Op} (hrun : calls.Run init ops m) : m.Sound := by
  have hnone : NotBoth init := fun n off pg hpg => nomatch (show none = some pg from hpg)
  have hinit : Inv init := ⟨Tree.init_shape, hnone, rfl⟩
  exact (hrun.invariant hinit fun _ op h hop => h.step op hop).sound

instance (t : Tree) (n : ℕ) : Decidable (t.Live n) := inferInstanceAs (Decidable (_ ∧ _))

instance : ∀ (m : Managers) (op : Op), Decidable (calls.adm m op)
  | _, .create => inferInstanceAs (Decidable True)
  | _, .forkCopy .. | _, .destroy .. | _, .addPage .. | _, .getForkPage .. =>
    inferInstanceAs (Decidable (_ ∧ _))

/-- A shell forks a child, which copies a page of their parent and forks one of its own. When the
shell ends, the new parent is collapsed. -/
def shell : List Op :=
  let none := ⟨fun _ => false, fun _ => false, fun _ => false⟩
  [.create, .addPage 0 7 false, .forkCopy 0 none, .getForkPage 2 1 7 false false,
    .addPage 1 7 false, .forkCopy 1 none, .destroy 0 fun _ => false]

theorem run_treeSound_shell : Sound (shell.foldl calls.step init) :=
  run_treeSound (Machine.Admits.run (by decide +kernel))

example : let m := shell.foldl calls.step init
    ((m.tree.links 2).forkChild1, (m.tree.links 2).forkChild2) = (some 1, some 3) ∧
      m.pages 2 7 = some .init ∧ (m.tree.links 4).hasCollapsed := by decide +kernel

end Managers

end K42.ForkTree
