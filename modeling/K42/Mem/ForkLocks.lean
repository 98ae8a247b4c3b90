import K42.Mem.ForkFrames
import K42.Mem.ForkTree

/-!
# The locks of a fork

`forkCopy` holds the lock of the leaf, of the parent that takes its pages and, if a parent is
pushed in, of the one above. A parent may refuse the new child and stays locked then, it may
adopt it and stays locked, or it may have disappeared before it could be locked. While the
thread waits for IO or for frames it has released the lock of the manager whose pages it waits
for, and other threads run.
-/

open Function (update update_of_ne update_self)

namespace K42

namespace ForkLocks

open ForkTree (Tree)

open ForkCopy (Above)

/-- Only a manager of a computational region adopts children. The others refuse, the plain
one without being locked. -/
inductive Kind
  | computation
  | common
  | plain
deriving DecidableEq

/-- Why `forkCopy` does not return. -/
inductive Stop
  /-- A lock that the thread holds is acquired. -/
  | deadlock
  /-- A lock that the thread does not hold is released or asserted to be held. -/
  | notHeld
  | nullParent
  /-- No end of the search for a parent that answers. -/
  | spins
  /-- A failed `passertMsg`. -/
  | passert
deriving DecidableEq

inductive Rc
  | ok
  | EINVAL
  | failed
deriving DecidableEq

def Rc.isError : Rc → Bool
  | .ok => false
  | .EINVAL | .failed => true

/-- What other threads see and change: the pointers, the pages of the leaf and the page lists
of the other managers. -/
structure Shared (τ : Type) where
  tree : Tree
  kind : ℕ → Kind
  leaf : FCMDefault.State τ
  pages : ℕ → PageList

/-- `held` are the managers that the thread has locked. A file representative has the number
of its manager. -/
structure World (τ : Type) where
  shared : Shared τ
  held : Finset ℕ
  newChildFR : Option ℕ

variable {τ : Type} [DecidableEq τ] {this : ℕ}

namespace Shared

def parent (s : Shared τ) (n : ℕ) : Option ℕ := s.tree.parent n

def isLive (s : Shared τ) (n : ℕ) : Bool := (s.tree.links n).isLive

/-- A new file representative and its manager. -/
def create (s : Shared τ) : Shared τ :=
  { s with
    tree := s.tree.create
    kind := update s.kind s.tree.next .computation
    pages := update s.pages s.tree.next .empty }

/-- The leaf has been created, and its parent is another manager that is in use. -/
structure Sane (this : ℕ) (s : Shared τ) : Prop where
  created : this < s.tree.next
  parent : ∀ p, s.parent this = some p → p < s.tree.next ∧ p ≠ this ∧ s.isLive p = true

end Shared

/-- What other threads may do while this one is in `forkCopy` and holds the locks `held`. A
manager that is locked does not disappear, nor does one that never collapses. The leaf has a
region, so it is not destroyed, and its parent keeps it until it is collapsed into its own
parent. The pushed parents are younger than those above them, so the parent of the leaf only
becomes older. -/
structure Interferes (this : ℕ) (held : Finset ℕ) (s s' : Shared τ) : Prop where
  next : s.tree.next ≤ s'.tree.next
  kind : ∀ n < s.tree.next, s'.kind n = s.kind n
  sane : s.Sane this → s'.Sane this
  live : ∀ p, p ∈ held ∨ s.kind p ≠ .computation → s.isLive p = true → s'.isLive p = true
  kept : ∀ p, s.parent this = some p → s'.isLive p = true → s'.parent this = some p
  older : ∀ q, s'.parent this = some q → ∃ p, s.parent this = some p ∧ q ≤ p

/-- The other threads while this one does not hold a lock, or waits for one. -/
structure Others (this : ℕ) (τ : Type) where
  act : Finset ℕ → Shared τ → Shared τ
  interferes : ∀ held s, Interferes this held s (act held s)

/-- A round of the search for a parent. -/
structure Attempt (this : ℕ) (τ : Type) where
  /-- Between the read of `forkParent` and the lock of the parent. -/
  before : Others this τ
  /-- While the parent finishes its IO. -/
  duringIO : Others this τ
  parentCopies : ℕ
  childUnmapped : ℕ

/-- The outcomes of the calls of `forkCopy`. `none` and `false` are failures. -/
structure Env (this : ℕ) (τ : Type) where
  /-- The regions in `regionList`. -/
  regions : ℕ
  mapBase : Bool
  createCRW : Option ℕ
  finishAllIO : Others this τ
  createChild : Bool
  attempts : ℕ → Attempt this τ
  lastForkUsedCopy : Bool
  createParent : Bool
  unset : ℕ
  allocating : Others this τ
  allocListOfPages : Option (List ℕ)
  /-- The order of the pages in the list. -/
  walk : List ℕ

namespace World

def acquire (w : World τ) (p : ℕ) : Except Stop (World τ) :=
  if p ∈ w.held then .error .deadlock else .ok { w with held := insert p w.held }

def release (w : World τ) (p : ℕ) : Except Stop (World τ) :=
  if p ∈ w.held then .ok { w with held := w.held.erase p } else .error .notHeld

/-- `_ASSERT_HELD`. -/
def assertHeld (w : World τ) (p : ℕ) : Except Stop (World τ) :=
  if p ∈ w.held then .ok w else .error .notHeld

def interfere (w : World τ) (o : Others this τ) : World τ :=
  { w with shared := o.act w.held w.shared }

def setTree (w : World τ) (t : Tree) : World τ :=
  { w with shared := { w.shared with tree := t } }

/-- The lock is released while the thread waits. -/
def unlocked (w : World τ) (p : ℕ) (o : Others this τ) : Except Stop (World τ) := do
  let w ← w.release p
  (w.interfere o).acquire p

end World

/-! ## The parents -/

/-- The answers of `adoptChildAndLock`. -/
inductive Answer
  | deleted
  | refused
  | adopted
deriving DecidableEq

/-- The parent stays locked if it adopts or refuses. -/
def adoptChildAndLock (a : Attempt this τ) (p child : ℕ) (w : World τ) :
    Except Stop (World τ × Answer) :=
  match w.shared.kind p with
  | .plain => .ok (w, .refused)
  | .common => do
    let w ← w.acquire p
    .ok (w, .refused)
  | .computation => do
    let w ← w.acquire p
    if w.shared.isLive p = false then
      let w ← w.release p
      .ok (w, .deleted)
    else if w.shared.tree.canAdopt p = false then .ok (w, .refused)
    else
      let w ← w.unlocked p a.duringIO
      if w.shared.isLive p = false then
        let w ← w.release p
        .ok (w, .deleted)
      else if w.shared.tree.canAdopt p = false then .error .passert
      else .ok (w.setTree (w.shared.tree.adoptChildAndLock p child), .adopted)

def locked_completeAdoption (w : World τ) (p : ℕ) : Except Stop (World τ) :=
  match w.shared.kind p with
  | .plain => .ok w
  | .common => w.release p
  | .computation => do
    let w ← w.assertHeld p
    w.release p

def setChildrenAndLock (w : World τ) (p c₁ c₂ : ℕ) : Except Stop (World τ) := do
  let w ← w.acquire p
  .ok (w.setTree (w.shared.tree.setChildrenAndLock p c₁ c₂))

/-- Only a computational manager tracks its children. -/
def locked_replaceChild (w : World τ) (p : Option ℕ) (old new : ℕ) : Except Stop (World τ) :=
  match p with
  | none => .ok w
  | some p =>
    match w.shared.kind p with
    | .plain | .common => .ok w
    | .computation => do
      let w ← w.assertHeld p
      .ok (w.setTree (w.shared.tree.locked_replaceChild (some p) old new))

/-! ## `forkCopy` -/

/-- The loop that looks for a parent. It ends with the parent that it found, which is locked
unless it is a plain one, and its answer. -/
def adoptLoop (e : Env this τ) (child : ℕ) :
    ℕ → ℕ → World τ → Except Stop (World τ × Option ℕ × Above)
  | 0, _, _ => .error .spins
  | fuel + 1, k, w =>
    match w.shared.parent this with
    | none => .ok (w, none, .none)
    | some p => do
      let (w, answer) ←
        adoptChildAndLock (e.attempts k) p child (w.interfere (e.attempts k).before)
      match answer with
      | .deleted => adoptLoop e child fuel (k + 1) w
      | .refused => .ok (w, some p, .full)
      | .adopted =>
        .ok (w, none, .adopts (e.attempts k).parentCopies (e.attempts k).childUnmapped)

/-- The parent that is pushed in between the leaf and `old`. -/
def pushParent (e : Env this τ) (child : ℕ) (w : World τ) : Except Stop (World τ) :=
  if e.createParent = false then .error .passert
  else do
    let parent := w.shared.tree.next
    let old := w.shared.parent this
    let w ← setChildrenAndLock { w with shared := w.shared.create } parent this child
    let w := w.setTree (w.shared.tree.setParent parent old)
    let w ← locked_replaceChild w old this parent
    .ok (w.setTree (w.shared.tree.setParent this (some parent)))

/-- The pages of the leaf, of its parent and of the child. -/
def World.pageState (w : World τ) (p child : ℕ) : ForkCopy.State τ :=
  ⟨w.shared.leaf, w.shared.pages p, w.shared.pages child, .start, []⟩

def World.setPages (w : World τ) (p child : ℕ) (s : ForkCopy.State τ) : World τ :=
  { w with shared := { w.shared with
      leaf := s.leaf
      pages := update (update w.shared.pages p s.parent) child s.child } }

/-- Each `givePageCopy` takes the lock of the child and releases it; each `locked_givePage`
asserts that the parent is locked. -/
def movePages (e : Env this τ) (copyOnFork : Bool) (c : ForkCopy.Counts) (p child : ℕ)
    (w : World τ) : Except Stop (World τ) := do
  let w ← w.acquire child
  let w ← w.release child
  let w ← w.assertHeld p
  .ok (w.setPages p child ((w.pageState p child).movePages copyOnFork c e.walk))

/-- Frames for the copies, without the lock of the leaf. -/
def allocFrames (e : Env this τ) (copyCount : ℕ) (w : World τ) :
    Except Stop (World τ × List ℕ) :=
  if copyCount = 0 then .ok (w, [])
  else do
    let w ← w.unlocked this e.allocating
    match e.allocListOfPages with
    | none => .error .passert
    | some ffl => .ok (w, ffl)

/-- The parent is unlocked, the one above it and the leaf. -/
def releaseParents (this p : ℕ) (old : Option ℕ) (w : World τ) : Except Stop (World τ) := do
  let w ← locked_completeAdoption w p
  let w ← match old with
    | none => .ok w
    | some g => locked_completeAdoption w g
  w.release this

/-- `locked_unmapAll`, unless the pages are unmapped one by one later. -/
def unmapAll (e : Env this τ) (copyOnFork : Bool) (w : World τ) : World τ :=
  if copyOnFork then w
  else { w with shared := { w.shared with leaf := { w.shared.leaf with
    pageList := e.walk.foldl ForkCopy.unmap w.shared.leaf.pageList } } }

/-- The last section under the lock of the leaf. -/
def giveAll (e : Env this τ) (child : ℕ) (old : Option ℕ) (copyOnFork : Bool)
    (c : ForkCopy.Counts) (w : World τ) : Except Stop (World τ × Rc) :=
  match w.shared.parent this with
  | none => .error .nullParent
  | some p => do
    let w := w.setTree (w.shared.tree.setParent child (some p))
    let w ← movePages e copyOnFork c p child w
    let w ← releaseParents this p old w
    .ok (w, .ok)

/-- `forkCopy` from `adopted` on: the pages go to the parent, which is locked. -/
def completeFork (e : Env this τ) (child : ℕ) (old : Option ℕ) (above : Above) (w : World τ) :
    Except Stop (World τ × Rc) := do
  let a := above.adoption e.lastForkUsedCopy e.unset
  let s := w.pageState 0 0
  let (w, ffl) ← allocFrames e (s.copyCount a) (unmapAll e (s.copyOnFork a) w)
  giveAll e child old (s.copyOnFork a)
    ⟨s.copyCount a, s.leaf.pinnedCount, a.parentCopies, ffl⟩ w

/-- A parent is pushed in and takes the pages. -/
def forkPushed (e : Env this τ) (child : ℕ) (old : Option ℕ) (above : Above) (w : World τ) :
    Except Stop (World τ × Rc) := do
  let w ← pushParent e child w
  completeFork e child old above w

/-- The fork of a private manager. -/
def forkPrivate (e : Env this τ) (w : World τ) : Except Stop (World τ × Rc) := do
  let w ← w.unlocked this e.finishAllIO
  if e.createChild = false then .error .passert
  else
    let child := w.shared.tree.next
    let w := { w with shared := w.shared.create, newChildFR := some child }
    let (w, old, above) ← adoptLoop e child w.shared.tree.next 0 w
    match above with
    | .adopts _ _ => completeFork e child old above w
    | .none | .full => forkPushed e child old above w

/-- The state before the call is the one in which the lock is free. -/
def forkCopy (e : Env this τ) (w : World τ) : Except Stop (World τ × Rc) := do
  let w ← w.acquire this
  if e.regions = 0 then .error .passert
  else if e.regions ≠ 1 then .ok (w, .EINVAL)
  else if e.mapBase then
    match e.createCRW with
    | none => do
      let w ← w.release this
      .ok (w, .failed)
    | some fr => do
      let w ← { w with newChildFR := some fr }.release this
      .ok (w, .ok)
  else forkPrivate e w

/-! ## What the calls keep -/

namespace World

variable {w : World τ} {p : ℕ}

section

omit [DecidableEq τ]

theorem acquire_eq (h : p ∉ w.held) : w.acquire p = .ok { w with held := insert p w.held } :=
  if_neg h

theorem release_eq (h : p ∈ w.held) : w.release p = .ok { w with held := w.held.erase p } :=
  if_pos h

theorem assertHeld_eq (h : p ∈ w.held) : w.assertHeld p = .ok w := if_pos h

theorem unlocked_eq (h : p ∈ w.held) (o : Others this τ) : w.unlocked p o =
    .ok { w with shared := o.act (w.held.erase p) w.shared } := by
  rw [unlocked, release_eq h]
  change acquire { w with shared := _, held := w.held.erase p } p = _
  rw [acquire_eq (Finset.notMem_erase p w.held), Finset.insert_erase h]

end

end World

variable {s : Shared τ} {n child p : ℕ} {w : World τ} {old : Option ℕ}

section

omit [DecidableEq τ]

theorem parent_create (h : n < s.tree.next) :
    s.create.parent n = s.parent n := by
  change (update s.tree.links s.tree.next .init n).forkParent = _
  rw [update_of_ne (Nat.ne_of_lt h)]
  rfl

theorem isLive_create (h : n < s.tree.next) :
    s.create.isLive n = s.isLive n := by
  change (update s.tree.links s.tree.next .init n).isLive = _
  rw [update_of_ne (Nat.ne_of_lt h)]
  rfl

theorem kind_create (h : n < s.tree.next) :
    s.create.kind n = s.kind n := update_of_ne (Nat.ne_of_lt h) _ _

theorem Shared.Sane.create (h : s.Sane this) : s.create.Sane this where
  created := Nat.lt_succ_of_lt h.created
  parent := by
    intro p hp
    rw [parent_create h.created] at hp
    obtain ⟨hlt, hne, hlive⟩ := h.parent p hp
    exact ⟨Nat.lt_succ_of_lt hlt, hne, (isLive_create hlt).trans hlive⟩

end

theorem links_check (t : Tree) (ok : Bool) (f : ForkTree.Fault) :
    (t.check ok f).links = t.links := by
  cases ok <;> rfl

theorem next_check (t : Tree) (ok : Bool) (f : ForkTree.Fault) : (t.check ok f).next = t.next := by
  cases ok <;> rfl

theorem links_adopt (t : Tree) (p child n : ℕ) : (t.adoptChildAndLock p child).links n =
    if n = p then Tree.adopting (t.links p) child else t.links n := by
  rw [Tree.adoptChildAndLock, links_check, Tree.set, links_check]
  exact Function.update_apply _ _ _ _

theorem next_adopt (t : Tree) (p child : ℕ) : (t.adoptChildAndLock p child).next = t.next := by
  rw [Tree.adoptChildAndLock, next_check]
  exact next_check _ _ _

theorem parent_adopt (t : Tree) (p child n : ℕ) :
    (t.adoptChildAndLock p child).parent n = t.parent n := by
  rw [Tree.parent, links_adopt]
  split
  · next hn => rw [Tree.adopting_forkParent, hn]; rfl
  · rfl

theorem isLive_adopt (t : Tree) (p child n : ℕ) :
    ((t.adoptChildAndLock p child).links n).isLive = (t.links n).isLive := by
  rw [links_adopt]
  split
  · next hn => rw [Tree.adopting_isLive, hn]
  · rfl

/-! ## The search for a parent -/

/-- The leaf and its parent are older than the new child. -/
structure Located (this child : ℕ) (s : Shared τ) : Prop where
  sane : s.Sane this
  created : child < s.tree.next
  younger : this < child
  older : ∀ p, s.parent this = some p → p < child

section

omit [DecidableEq τ]

theorem Located.act (h : Located this child s) (o : Others this τ)
    (held : Finset ℕ) : Located this child (o.act held s) where
  sane := (o.interferes held s).sane h.sane
  created := Nat.lt_of_lt_of_le h.created (o.interferes held s).next
  younger := h.younger
  older := by
    intro q hq
    obtain ⟨p, hp, hle⟩ := (o.interferes held s).older q hq
    exact Nat.lt_of_le_of_lt hle (h.older p hp)

theorem Shared.Sane.parent_ne (h : s.Sane this) {q : ℕ}
    (hdead : s.isLive p = false) (hq : s.parent this = some q) : q ≠ p := by
  rintro rfl
  rw [(h.parent q hq).2.2] at hdead
  cases hdead

theorem Located.adopt (h : Located this child s) (p : ℕ) :
    Located this child { s with tree := s.tree.adoptChildAndLock p child } := by
  have hparent : ∀ n, (s.tree.adoptChildAndLock p child).parent n = s.parent n :=
    parent_adopt _ _ _
  refine ⟨⟨?_, fun q hq => ?_⟩, ?_, h.younger, fun q hq => ?_⟩
  · exact Nat.lt_of_lt_of_eq h.sane.created (next_adopt _ _ _).symm
  · obtain ⟨hlt, hne, hlive⟩ := h.sane.parent q ((hparent this).symm.trans hq)
    exact ⟨Nat.lt_of_lt_of_eq hlt (next_adopt _ _ _).symm, hne, (isLive_adopt _ _ _ _).trans hlive⟩
  · exact Nat.lt_of_lt_of_eq h.created (next_adopt _ _ _).symm
  · exact h.older q ((hparent this).symm.trans hq)

end

/-- The lock that a parent above the new one is left with. -/
def lockOf (kind : ℕ → Kind) : Option ℕ → Finset ℕ
  | none => ∅
  | some g => if kind g = .plain then ∅ else {g}

/-- What the answer of a parent means for the locks. -/
def Answered (this p : ℕ) (w : World τ) : Answer → Prop
  | .deleted => w.held = {this} ∧ ∀ q, w.shared.parent this = some q → q < p
  | .refused => w.held = insert this (lockOf w.shared.kind (some p)) ∧
      w.shared.parent this = some p
  | .adopted => w.held = insert this {p} ∧ w.shared.parent this = some p ∧
      w.shared.kind p = .computation ∧ w.shared.isLive p = true

omit [DecidableEq τ] in
theorem adoptChildAndLock_spec {a : Attempt this τ}
    (h : Located this child w.shared) (hheld : w.held = {this}) (hp : p < child)
    (hne : p ≠ this) (hkept : w.shared.isLive p = true → w.shared.parent this = some p)
    (hstays : w.shared.kind p ≠ .computation → w.shared.isLive p = true)
    (hle : ∀ q, w.shared.parent this = some q → q ≤ p) :
    adoptChildAndLock a p child w = .error .passert ∨ ∃ w' answer,
      adoptChildAndLock a p child w = .ok (w', answer) ∧ Located this child w'.shared ∧
      Answered this p w' answer := by
  have hfree : p ∉ w.held := by
    rw [hheld]
    exact Finset.notMem_singleton.mpr hne
  have hpair : insert p w.held = insert this {p} := by rw [hheld, Finset.pair_comm]
  have hback : (insert p w.held).erase p = {this} := by rw [Finset.erase_insert hfree, hheld]
  rw [adoptChildAndLock]
  cases hkind : w.shared.kind p with
  | plain =>
    refine .inr ⟨w, .refused, rfl, h, ?_, hkept (hstays (by rw [hkind]; nofun))⟩
    rw [hheld, lockOf, if_pos hkind]
    rfl
  | common =>
    simp only [World.acquire_eq hfree]
    refine .inr ⟨_, .refused, rfl, h, ?_, hkept (hstays (by rw [hkind]; nofun))⟩
    rw [lockOf, if_neg (by rw [hkind]; nofun)]
    exact hpair
  | computation =>
    simp only [World.acquire_eq hfree, bind, Except.bind]
    by_cases hlive : w.shared.isLive p = false
    · rw [if_pos hlive, World.release_eq (Finset.mem_insert_self p _)]
      refine .inr ⟨_, .deleted, rfl, h, hback, fun q hq => ?_⟩
      exact Nat.lt_of_le_of_ne (hle q hq) (h.sane.parent_ne hlive hq)
    · rw [if_neg hlive]
      have hparent := hkept ((Bool.not_eq_false _).mp hlive)
      by_cases hroom : w.shared.tree.canAdopt p = false
      · rw [if_pos hroom]
        refine .inr ⟨_, .refused, rfl, h, ?_, hparent⟩
        rw [lockOf, if_neg (by rw [hkind]; nofun)]
        exact hpair
      · rw [if_neg hroom, World.unlocked_eq (Finset.mem_insert_self p _)]
        have hact := a.duringIO.interferes ((insert p w.held).erase p) w.shared
        have hloc := h.act a.duringIO ((insert p w.held).erase p)
        set s := a.duringIO.act ((insert p w.held).erase p) w.shared
        simp only
        by_cases hlive' : s.isLive p = false
        · rw [if_pos hlive', World.release_eq (Finset.mem_insert_self p _)]
          refine .inr ⟨_, .deleted, rfl, hloc, hback, fun q hq => ?_⟩
          obtain ⟨p', hp', hqp⟩ := hact.older q hq
          have heq : p' = p := Option.some.inj (hp'.symm.trans hparent)
          exact Nat.lt_of_le_of_ne (heq ▸ hqp) (hloc.sane.parent_ne hlive' hq)
        · rw [if_neg hlive']
          have hlive'' := (Bool.not_eq_false _).mp hlive'
          by_cases hroom' : s.tree.canAdopt p = false
          · exact .inl (if_pos hroom')
          · rw [if_neg hroom']
            refine .inr ⟨_, .adopted, rfl, hloc.adopt p, hpair, ?_, ?_, ?_⟩
            · exact (parent_adopt _ _ _ _).trans (hact.kept p hparent hlive'')
            · exact (hact.kind p (Nat.lt_trans hp h.created)).trans hkind
            · exact (isLive_adopt _ _ _ _).trans hlive''

/-- How the search ends. -/
def Found (this : ℕ) (w : World τ) (old : Option ℕ) : Above → Prop
  | .none | .full => w.held = insert this (lockOf w.shared.kind old) ∧
      w.shared.parent this = old
  | .adopts _ _ => old = none ∧ ∃ p, w.held = insert this {p} ∧
      w.shared.parent this = some p ∧ w.shared.kind p = .computation ∧ w.shared.isLive p = true

omit [DecidableEq τ] in
theorem adoptLoop_spec (e : Env this τ) (fuel : ℕ) : ∀ (k : ℕ) (w : World τ),
    Located this child w.shared → w.held = {this} → 0 < fuel →
    (∀ p, w.shared.parent this = some p → p + 1 < fuel) →
    adoptLoop e child fuel k w = .error .passert ∨ ∃ w' old above,
      adoptLoop e child fuel k w = .ok (w', old, above) ∧ Located this child w'.shared ∧
      Found this w' old above := by
  induction fuel with
  | zero => exact fun k w h hheld hpos => absurd hpos (Nat.lt_irrefl 0)
  | succ fuel ih =>
    intro k w h hheld hpos hfuel
    rw [adoptLoop]
    cases hparent : w.shared.parent this with
    | none => exact .inr ⟨w, none, .none, rfl, h, hheld, hparent⟩
    | some p =>
      obtain ⟨hlt, hne, hlive⟩ := h.sane.parent p hparent
      have hact := (e.attempts k).before.interferes w.held w.shared
      have hle : ∀ q, ((e.attempts k).before.act w.held w.shared).parent this = some q →
          q ≤ p := by
        intro q hq
        obtain ⟨p', hp', hqp⟩ := hact.older q hq
        exact (Option.some.inj (hp'.symm.trans hparent)) ▸ hqp
      have hspec := adoptChildAndLock_spec (a := e.attempts k) (p := p)
        (w := w.interfere (e.attempts k).before) (h.act _ _) hheld (h.older p hparent) hne
        (hact.kept p hparent)
        (fun hkind => hact.live p (.inr (hact.kind p hlt ▸ hkind)) hlive) hle
      simp only [bind, Except.bind]
      rcases hspec with hfail | ⟨w', answer, heq, hloc, hans⟩
      · rw [hfail]
        exact .inl rfl
      · rw [heq]
        cases answer with
        | deleted =>
          obtain ⟨hheld', hdecr⟩ := hans
          have hfuel' := hfuel p hparent
          refine ih (k + 1) w' hloc hheld' (by omega) fun q hq => ?_
          have hq' := hdecr q hq
          omega
        | refused =>
          obtain ⟨hheld', hkept⟩ := hans
          exact .inr ⟨w', some p, .full, rfl, hloc, hheld', hkept⟩
        | adopted =>
          exact .inr ⟨w', none, _, rfl, hloc, rfl, p, hans⟩

/-! ## The rest of the fork -/

/-- The parent that takes the pages is locked, and the one above it unless it is plain. -/
structure Ready (this child : ℕ) (w : World τ) (old : Option ℕ) (p : ℕ) : Prop where
  parent : w.shared.parent this = some p
  live : w.shared.isLive p = true
  kind : w.shared.kind p = .computation
  created : p < w.shared.tree.next ∧ ∀ g, old = some g → g < w.shared.tree.next
  held : w.held = insert this (insert p (lockOf w.shared.kind old))
  distinct : this ≠ p ∧ child ≠ this ∧ child ≠ p
  old : ∀ g, old = some g → g ≠ this ∧ g ≠ p ∧ g ≠ child

theorem mem_lockOf {kind : ℕ → Kind} {g : ℕ} (h : g ∈ lockOf kind old) :
    old = some g := by
  cases old with
  | none => cases h
  | some g' =>
    rw [lockOf] at h
    split at h
    · cases h
    · rw [Finset.mem_singleton.mp h]

theorem lockOf_congr {kind kind' : ℕ → Kind}
    (h : ∀ g, old = some g → kind' g = kind g) : lockOf kind' old = lockOf kind old := by
  cases old with
  | none => rfl
  | some g => rw [lockOf, lockOf, h g rfl]

section

omit [DecidableEq τ]

theorem locked_completeAdoption_eq {g : ℕ}
    (h : lockOf w.shared.kind (some g) ⊆ w.held) : locked_completeAdoption w g =
      .ok { w with held := w.held \ lockOf w.shared.kind (some g) } := by
  rw [locked_completeAdoption]
  cases hkind : w.shared.kind g with
  | plain =>
    simp only
    rw [lockOf, if_pos hkind, Finset.sdiff_empty]
  | common =>
    rw [lockOf, if_neg (by rw [hkind]; nofun)] at h ⊢
    simp only
    rw [World.release_eq (Finset.singleton_subset_iff.mp h), Finset.sdiff_singleton_eq_erase]
  | computation =>
    rw [lockOf, if_neg (by rw [hkind]; nofun)] at h ⊢
    simp only [World.assertHeld_eq (Finset.singleton_subset_iff.mp h), bind, Except.bind]
    rw [World.release_eq (Finset.singleton_subset_iff.mp h), Finset.sdiff_singleton_eq_erase]

theorem movePages_eq (e : Env this τ) (copyOnFork : Bool) (c : ForkCopy.Counts)
    (hp : p ∈ w.held) (hchild : child ∉ w.held) :
    ∃ s, movePages e copyOnFork c p child w = .ok (w.setPages p child s) := by
  rw [movePages]
  simp only [World.acquire_eq hchild, bind, Except.bind]
  rw [World.release_eq (Finset.mem_insert_self child _)]
  simp only [Finset.erase_insert hchild]
  rw [World.assertHeld_eq hp]
  exact ⟨_, rfl⟩

theorem releaseParents_spec (hthis : this ≠ p) (hkind : w.shared.kind p = .computation)
    (hheld : w.held = insert this (insert p (lockOf w.shared.kind old)))
    (hold : ∀ g, old = some g → g ≠ this ∧ g ≠ p) :
    ∃ w', releaseParents this p old w = .ok w' ∧ w'.held = ∅ := by
  have hlock : lockOf w.shared.kind (some p) = {p} := if_neg (by rw [hkind]; nofun)
  have hleft : w.held \ {p} = insert this (lockOf w.shared.kind old) := by
    rw [hheld]
    ext x
    have hx : x ∈ lockOf w.shared.kind old → x ≠ p := fun hx => (hold x (mem_lockOf hx)).2
    simp only [Finset.mem_sdiff, Finset.mem_insert, Finset.mem_singleton]
    constructor
    · rintro ⟨rfl | rfl | h, hne⟩
      · exact .inl rfl
      · exact absurd rfl hne
      · exact .inr h
    · rintro (rfl | h)
      · exact ⟨.inl rfl, hthis⟩
      · exact ⟨.inr (.inr h), hx h⟩
  have hfirst : locked_completeAdoption w p =
      .ok { w with held := insert this (lockOf w.shared.kind old) } := by
    rw [locked_completeAdoption_eq (by rw [hlock, hheld]; simp), hlock, hleft]
  have hthisLock : this ∉ lockOf w.shared.kind old :=
    fun h => (hold this (mem_lockOf h)).1 rfl
  simp only [releaseParents, hfirst, bind, Except.bind]
  cases old with
  | none =>
    simp only
    rw [World.release_eq (Finset.mem_insert_self this _)]
    exact ⟨_, rfl, Finset.erase_insert hthisLock⟩
  | some g =>
    simp only
    rw [locked_completeAdoption_eq (Finset.subset_insert this _)]
    simp only
    rw [Finset.insert_sdiff_of_notMem _ hthisLock, Finset.sdiff_self,
      World.release_eq (Finset.mem_insert_self this _)]
    exact ⟨_, rfl, Finset.erase_insert (Finset.notMem_empty this)⟩

theorem allocFrames_spec (e : Env this τ) (copyCount : ℕ)
    (h : Ready this child w old p) : allocFrames e copyCount w = .error .passert ∨
      ∃ w' ffl, allocFrames e copyCount w = .ok (w', ffl) ∧ Ready this child w' old p := by
  rw [allocFrames]
  by_cases hzero : copyCount = 0
  · rw [if_pos hzero]
    exact .inr ⟨w, [], rfl, h⟩
  · rw [if_neg hzero]
    have hthis : this ∈ w.held := by
      rw [h.held]
      exact Finset.mem_insert_self this _
    simp only [World.unlocked_eq hthis, bind, Except.bind]
    cases e.allocListOfPages with
    | none => exact .inl rfl
    | some ffl =>
      have hact := e.allocating.interferes (w.held.erase this) w.shared
      have hlocked : p ∈ w.held.erase this := by
        rw [h.held]
        exact Finset.mem_erase.mpr ⟨h.distinct.1.symm,
          Finset.mem_insert_of_mem (Finset.mem_insert_self p _)⟩
      have hlive := hact.live p (.inl hlocked) h.live
      refine .inr ⟨_, ffl, rfl, hact.kept p h.parent hlive, hlive,
        (hact.kind p h.created.1).trans h.kind, ?_, ?_, h.distinct, h.old⟩
      · exact ⟨Nat.lt_of_lt_of_le h.created.1 hact.next,
          fun g hg => Nat.lt_of_lt_of_le (h.created.2 g hg) hact.next⟩
      · exact h.held.trans (by rw [lockOf_congr fun g hg => hact.kind g (h.created.2 g hg)])

theorem Ready.unmapAll (h : Ready this child w old p) (e : Env this τ) (copyOnFork : Bool) :
    Ready this child (unmapAll e copyOnFork w) old p := by
  cases copyOnFork with
  | true => exact h
  | false => exact ⟨h.parent, h.live, h.kind, h.created, h.held, h.distinct, h.old⟩

theorem giveAll_spec (e : Env this τ) (copyOnFork : Bool) (c : ForkCopy.Counts)
    (h : Ready this child w old p) :
    ∃ w', giveAll e child old copyOnFork c w = .ok (w', .ok) ∧ w'.held = ∅ := by
  obtain ⟨hthis, hchild, hchildp⟩ := h.distinct
  have hp : p ∈ w.held := by
    rw [h.held]
    exact Finset.mem_insert_of_mem (Finset.mem_insert_self p _)
  have hfree : child ∉ w.held := by
    rw [h.held, Finset.mem_insert, Finset.mem_insert]
    rintro (hc | hc | hc)
    · exact hchild hc
    · exact hchildp hc
    · exact (h.old child (mem_lockOf hc)).2.2 rfl
  obtain ⟨s, hmove⟩ := movePages_eq e copyOnFork c
    (w := w.setTree (w.shared.tree.setParent child (some p))) hp hfree
  obtain ⟨w', hrelease, hempty⟩ := releaseParents_spec
    (w := (w.setTree (w.shared.tree.setParent child (some p))).setPages p child s) hthis h.kind
    h.held fun g hg => ⟨(h.old g hg).1, (h.old g hg).2.1⟩
  refine ⟨w', ?_, hempty⟩
  simp only [giveAll, h.parent, hmove, hrelease, bind, Except.bind]

theorem completeFork_spec (e : Env this τ) (above : Above) (h : Ready this child w old p) :
    completeFork e child old above w = .error .passert ∨
      ∃ w', completeFork e child old above w = .ok (w', .ok) ∧ w'.held = ∅ := by
  simp only [completeFork, bind, Except.bind]
  rcases allocFrames_spec e _ (h.unmapAll e _) with hfail | ⟨w', ffl, heq, hready⟩
  · rw [hfail]
    exact .inl rfl
  · rw [heq]
    exact .inr (giveAll_spec e _ _ hready)

theorem locked_replaceChild_eq (old : Option ℕ) (this parent : ℕ)
    (h : lockOf w.shared.kind old ⊆ w.held) :
    locked_replaceChild w old this parent = .ok w ∨ locked_replaceChild w old this parent =
      .ok (w.setTree (w.shared.tree.locked_replaceChild old this parent)) := by
  cases old with
  | none => exact .inl rfl
  | some g =>
    rw [locked_replaceChild]
    cases hkind : w.shared.kind g with
    | plain => exact .inl rfl
    | common => exact .inl rfl
    | computation =>
      rw [lockOf, if_neg (by rw [hkind]; nofun)] at h
      refine .inr ?_
      simp only [World.assertHeld_eq (Finset.singleton_subset_iff.mp h), bind, Except.bind]

theorem setChildrenAndLock_eq (h : p ∉ w.held) (c₁ c₂ : ℕ) :
    setChildrenAndLock w p c₁ c₂ =
      .ok { w.setTree (w.shared.tree.setChildrenAndLock p c₁ c₂) with
        held := insert p w.held } := by
  rw [setChildrenAndLock, World.acquire_eq h]
  rfl

end

theorem locked_replaceChild_next (t : Tree) (old : Option ℕ) (c c' : ℕ) :
    (t.locked_replaceChild old c c').next = t.next := by
  cases old <;> rfl

theorem locked_replaceChild_isLive (t : Tree) (old : Option ℕ) (c c' n : ℕ) :
    ((t.locked_replaceChild old c c').links n).isLive = (t.links n).isLive := by
  cases old with
  | none => rfl
  | some g =>
    change (update t.links g _ n).isLive = _
    by_cases hn : n = g
    · rw [hn, update_self, Tree.replaceChild_isLive]
    · rw [update_of_ne hn]

theorem setParent_isLive (t : Tree) (n : ℕ) (p : Option ℕ) (m : ℕ) :
    ((t.setParent n p).links m).isLive = (t.links m).isLive := by
  change (update t.links n _ m).isLive = _
  by_cases hm : m = n
  · rw [hm, update_self]
    rfl
  · rw [update_of_ne hm]

theorem setParent_parent (t : Tree) (n : ℕ) (p : Option ℕ) : (t.setParent n p).parent n = p := by
  change (update t.links n _ n).forkParent = _
  rw [update_self]

section

omit [DecidableEq τ]

theorem pushParent_spec (e : Env this τ)
    (h : Located this child w.shared) (hheld : w.held = insert this (lockOf w.shared.kind old))
    (hold : w.shared.parent this = old) : pushParent e child w = .error .passert ∨
      ∃ w', pushParent e child w = .ok w' ∧ Ready this child w' old w.shared.tree.next := by
  rw [pushParent]
  by_cases hcreate : e.createParent = false
  · rw [if_pos hcreate]
    exact .inl rfl
  · rw [if_neg hcreate]
    have hbelow : ∀ g, old = some g → g < child := fun g hg => h.older g (hold.trans hg)
    have hfree : w.shared.tree.next ∉ w.held := by
      rw [hheld, Finset.mem_insert]
      rintro (hn | hn)
      · exact absurd h.sane.created (hn ▸ Nat.lt_irrefl _)
      · exact Nat.lt_asymm (hbelow _ (mem_lockOf hn)) h.created
    have hkinds : lockOf w.shared.create.kind old = lockOf w.shared.kind old :=
      lockOf_congr fun g hg => kind_create (Nat.lt_trans (hbelow g hg) h.created)
    -- what is left of the pointers does not matter but for those of the leaf
    have hready : ∀ t : Tree, t.next = w.shared.tree.next + 1 →
        (t.links w.shared.tree.next).isLive = true →
        Ready this child
          ⟨{ w.shared.create with tree := t.setParent this (some w.shared.tree.next) },
            insert w.shared.tree.next w.held, w.newChildFR⟩ old w.shared.tree.next := by
      intro t hnext hlive
      refine ⟨setParent_parent t this _, (setParent_isLive t this _ _).trans hlive,
        update_self _ _ _, ⟨?_, fun g hg => ?_⟩, ?_, ⟨?_, ?_, ?_⟩, fun g hg => ?_⟩
      · exact Nat.lt_of_lt_of_eq (Nat.lt_succ_self _) hnext.symm
      · exact Nat.lt_of_lt_of_eq
          (Nat.lt_succ_of_lt (Nat.lt_trans (hbelow g hg) h.created)) hnext.symm
      · change insert _ w.held = insert this (insert _ (lockOf w.shared.create.kind old))
        rw [hkinds, hheld, Finset.insert_comm]
      · exact Nat.ne_of_lt h.sane.created
      · exact (Nat.ne_of_lt h.younger).symm
      · exact Nat.ne_of_lt h.created
      · exact ⟨(h.sane.parent g (hold.trans hg)).2.1,
          Nat.ne_of_lt (Nat.lt_trans (hbelow g hg) h.created), Nat.ne_of_lt (hbelow g hg)⟩
    have hlocks : lockOf w.shared.create.kind old ⊆ insert w.shared.tree.next w.held := by
      rw [hkinds, hheld]
      exact (Finset.subset_insert this _).trans (Finset.subset_insert _ _)
    have hset := setChildrenAndLock_eq (w := { w with shared := w.shared.create }) hfree this child
    simp only [hset, hold, bind, Except.bind]
    set t : Tree := (w.shared.create.tree.setChildrenAndLock w.shared.tree.next this
      child).setParent w.shared.tree.next old with ht
    have hlive : (t.links w.shared.tree.next).isLive = true := by
      rw [ht, setParent_isLive]
      simp [Tree.setChildrenAndLock, Tree.set, Shared.create, Tree.create, ForkTree.Links.isLive,
        ForkTree.Links.init]
    rcases locked_replaceChild_eq (w := ⟨{ w.shared.create with tree := t },
      insert w.shared.tree.next w.held, w.newChildFR⟩) old this w.shared.tree.next hlocks
      with heq | heq
    · refine .inr ⟨_, ?_, hready t rfl hlive⟩
      rw [World.setTree, World.setTree, heq]
      rfl
    · refine .inr ⟨_, ?_, hready (t.locked_replaceChild old this w.shared.tree.next)
        (locked_replaceChild_next t old _ _) ((locked_replaceChild_isLive t old _ _ _).trans hlive)⟩
      rw [World.setTree, World.setTree, heq]
      rfl

theorem forkPushed_spec (e : Env this τ) (above : Above) (h : Located this child w.shared)
    (hheld : w.held = insert this (lockOf w.shared.kind old))
    (hold : w.shared.parent this = old) : forkPushed e child old above w = .error .passert ∨
      ∃ w', forkPushed e child old above w = .ok (w', .ok) ∧ w'.held = ∅ := by
  simp only [forkPushed, bind, Except.bind]
  rcases pushParent_spec e h hheld hold with hfail | ⟨w', heq, hready⟩
  · rw [hfail]
    exact .inl rfl
  · rw [heq]
    exact completeFork_spec e above hready

theorem forkPrivate_spec (e : Env this τ) (h : w.shared.Sane this)
    (hheld : w.held = {this}) : forkPrivate e w = .error .passert ∨
      ∃ w', forkPrivate e w = .ok (w', .ok) ∧ w'.held = ∅ := by
  have hthis : this ∈ w.held := by
    rw [hheld]
    exact Finset.mem_singleton_self this
  simp only [forkPrivate, World.unlocked_eq hthis, bind, Except.bind]
  have hsane := (e.finishAllIO.interferes (w.held.erase this) w.shared).sane h
  set s := e.finishAllIO.act (w.held.erase this) w.shared
  by_cases hcreate : e.createChild = false
  · rw [if_pos hcreate]
    exact .inl rfl
  · rw [if_neg hcreate]
    have hparent : s.create.parent this = s.parent this := parent_create hsane.created
    have hloc : Located this s.tree.next s.create := ⟨hsane.create, Nat.lt_succ_self _,
      hsane.created, fun p hp => (hsane.parent p (hparent ▸ hp)).1⟩
    rcases adoptLoop_spec e s.create.tree.next 0 ⟨s.create, w.held, some s.tree.next⟩ hloc hheld
      (Nat.succ_pos _) (fun p hp => Nat.succ_lt_succ (hloc.older p hp)) with
      hfail | ⟨w', old, above, heq, hloc', hfound⟩
    · rw [hfail]
      exact .inl rfl
    · rw [heq]
      cases above with
      | none => exact forkPushed_spec e _ hloc' hfound.1 hfound.2
      | full => exact forkPushed_spec e _ hloc' hfound.1 hfound.2
      | adopts parentCopies childUnmapped =>
        obtain ⟨rfl, p, hheld', hp, hkind, hlive⟩ := hfound
        obtain ⟨hlt, hne, -⟩ := hloc'.sane.parent p hp
        have hpc := hloc'.older p hp
        exact completeFork_spec e _ ⟨hp, hlive, hkind, ⟨hlt, nofun⟩, hheld',
          ⟨hne.symm, (Nat.ne_of_lt hloc'.younger).symm, (Nat.ne_of_lt hpc).symm⟩, nofun⟩

end

/-- If the call returns then no lock is held, and if it returns an error then nothing has
changed. It does not return only if an assertion on the outcome of a call fails. -/
def Meets (e : Env this τ) (w : World τ) : Prop :=
  match forkCopy e w with
  | .ok (w', rc) => w'.held = ∅ ∧
      (rc.isError = true → w'.shared = w.shared ∧ w'.newChildFR = w.newChildFR)
  | .error stop => stop = .passert

section

omit [DecidableEq τ]

theorem sane_of_shape (h : s.tree.Shape) (hl : s.tree.Live this) :
    s.Sane this where
  created := hl.1
  parent := by
    intro p hp
    obtain ⟨hlive, hchild⟩ := h.linked.up hl hp
    exact ⟨hlive.1, (h.parent_ne hchild).symm, hlive.2⟩

/-- The locks are released, and an error changes nothing, unless there are several regions:
then the call returns with the lock of the leaf held. -/
theorem forkCopy_meets_iff (e : Env this τ) {w : World τ} (hheld : w.held = ∅)
    (hshape : w.shared.tree.Shape) (hlive : w.shared.tree.Live this) :
    Meets e w ↔ e.regions ≤ 1 := by
  have hfree : this ∉ w.held := by
    rw [hheld]
    exact Finset.notMem_empty this
  have hinsert : insert this w.held = {this} := by
    rw [hheld]
    rfl
  simp only [Meets, forkCopy, World.acquire_eq hfree, hinsert, bind, Except.bind]
  by_cases hnone : e.regions = 0
  · rw [if_pos hnone]
    exact iff_of_true rfl (hnone ▸ Nat.zero_le 1)
  · rw [if_neg hnone]
    by_cases hone : e.regions ≠ 1
    · rw [if_pos hone]
      refine iff_of_false (fun h => Finset.singleton_ne_empty this h.1) ?_
      omega
    · rw [if_neg hone]
      refine iff_of_true ?_ (not_not.mp hone).le
      cases e.mapBase with
      | true =>
        have hrelease : ∀ (s : Shared τ) (fr : Option ℕ), (World.release ⟨s, {this}, fr⟩ this) =
            .ok ⟨s, ∅, fr⟩ := by
          intro s fr
          rw [World.release_eq (Finset.mem_singleton_self this)]
          simp
        cases e.createCRW with
        | none =>
          simp only [hrelease, if_true]
          exact ⟨trivial, fun _ => ⟨trivial, trivial⟩⟩
        | some fr =>
          simp only [hrelease, if_true]
          exact ⟨trivial, nofun⟩
      | false =>
        simp only [Bool.false_eq_true, if_false]
        rcases forkPrivate_spec e (w := ⟨w.shared, {this}, w.newChildFR⟩)
          (sane_of_shape hshape hlive) rfl with hfail | ⟨w', heq, hempty⟩
        · rw [hfail]
        · rw [heq]
          exact ⟨hempty, nofun⟩

end

/-! ## Two attached regions -/

/-- Nobody else runs. -/
def Others.idle : Others this τ where
  act := fun _ s => s
  interferes := fun _ _ => ⟨Nat.le_refl _, fun _ _ => rfl, id, fun _ _ => id, fun _ hp _ => hp,
    fun q hq => ⟨q, hq, Nat.le_refl q⟩⟩

/-- One manager, with a page that is pinned and one that is dirty. -/
def oneLeaf : World ℕ :=
  ⟨⟨Tree.init.create, fun _ => .computation, ForkCopy.pinnedAndDirty.leaf, fun _ => .empty⟩,
    ∅, none⟩

/-- Every call succeeds. -/
def granted (regions : ℕ) : Env 0 ℕ where
  regions := regions
  mapBase := false
  createCRW := none
  finishAllIO := .idle
  createChild := true
  attempts := fun _ => ⟨.idle, .idle, 0, 0⟩
  lastForkUsedCopy := false
  createParent := true
  unset := 0
  allocating := .idle
  allocListOfPages := some [7]
  walk := [0, 1]

theorem oneLeaf_shape : oneLeaf.shared.tree.Shape := Tree.init_shape.create

theorem oneLeaf_live : oneLeaf.shared.tree.Live 0 := ⟨Nat.one_pos, rfl⟩

theorem forkCopy_meets_oneRegion : Meets (granted 1) oneLeaf :=
  (forkCopy_meets_iff (granted 1) rfl oneLeaf_shape oneLeaf_live).mpr (Nat.le_refl 1)

/-- With two regions the lock is kept. -/
theorem forkCopy_keeps_lock : ¬ ∀ (e : Env 0 ℕ) (w : World ℕ), w.held = ∅ →
    w.shared.tree.Shape → w.shared.tree.Live 0 → Meets e w := by
  intro h
  have hheld : insert 0 (∅ : Finset ℕ) = ∅ :=
    (h (granted 2) oneLeaf rfl oneLeaf_shape oneLeaf_live).1
  exact Finset.insert_ne_empty 0 ∅ hheld

end ForkLocks

end K42
