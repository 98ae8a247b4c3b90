import K42.Lib.Buckets
import K42.Mem.PageEntry
import Mathlib.Algebra.Group.Nat.Defs

/-!
# Sets of pages

The three classes that hold page descriptors offer the same methods. Each has a table of
its own, through which a page is found and by which the pages are visited. What the methods
have to do with the table is `Lawful`, and from it follows that every run of a class does what
the map from offsets to descriptors with its queue of free pages does.

Callers enqueue a page only for an offset that `find` has no page for. A page goes on the
free list when its flag is not set and is taken off it when it is.
-/

namespace K42

namespace PageSets

open Linked Buckets

universe u

structure State (T : Type u) where
  heap : PageHeap
  freeList : FreeList
  numPages : ℕ
  table : T

/-- What `new Entry` returns: an address, and what is there in the place of the links. -/
structure NewEntry where
  addr : ℕ
  freeListNext : Option ℕ
  freeListPrev : Option ℕ
deriving DecidableEq

/-- `uval(-1)`. -/
def noOffset : ℕ := 2 ^ 64 - 1

/-- The methods of a class. `takeOut` is `dequeue` up to the test of the free flag. -/
structure Methods (T : Type u) where
  find : State T → ℕ → Option (Option ℕ)
  enqueue : State T → (tableAlloc : Bool) → Option NewEntry → (fileOffset : ℕ) →
    (paddr : Option ℕ) → Option (State T × Option ℕ)
  takeOut : State T → ℕ → Option (State T × Option ℕ)
  getFirst : State T → State T × Option ℕ
  getNextPage : State T → ℕ → Option (Option ℕ)
  getNext : State T → ℕ → Option (State T × Option ℕ)

namespace PageHeap

def alloc (h : PageHeap) (n : NewEntry) : PageHeap :=
  { h with freeLinks := (h.freeLinks.setNext n.addr n.freeListNext).setPrev n.addr n.freeListPrev }

end PageHeap

inductive Op
  | enqueue (fileOffset : ℕ) (paddr : Option ℕ) (new : Option NewEntry) (tableAlloc : Bool)
  | remove (fileOffset : ℕ)
  | getFirst
  | getNext (offset : ℕ)
  | write (fileOffset : ℕ) (pg : PageDesc)
  | enqueueFreeList (fileOffset : ℕ)
  | dequeueFreeListPage (fileOffset : ℕ)
  | dequeueFreeList (type : PageDesc.DqType)
deriving DecidableEq

section

variable {T : Type u}

/-- The file offset of the page at an address. -/
def key (s : State T) (p : ℕ) : ℕ := (s.heap.entry p).fileOffset

/-- A page goes on the free list, with its flag. -/
def State.joinFreeList (s : State T) (p : ℕ) : Option (State T) :=
  (PageSets.enqueueFreeList (s.heap.setFree p true) s.freeList p).map fun (h, f) =>
    { s with heap := h, freeList := f }

/-- A page leaves the free list, and the flag is cleared. -/
def State.leaveFreeList (s : State T) (p : ℕ) : Option (State T) :=
  (PageSets.dequeueFreeList s.heap s.freeList p).map fun (h, f) =>
    { s with heap := h.setFree p false, freeList := f }

namespace Methods

variable (M : Methods T)

def dequeue (s : State T) (fileOffset : ℕ) : Option (State T × Option ℕ) :=
  (M.takeOut s fileOffset).bind fun (s, p) =>
    match p with
    | none => some (s, none)
    | some p =>
      if (s.heap.entry p).free = true then
        (PageSets.dequeueFreeList s.heap s.freeList p).map fun (h, f) =>
          ({ s with heap := h, freeList := f }, some p)
      else some (s, some p)

/-- What a caller does with a page that it has found. -/
def onPage (s : State T) (fileOffset : ℕ) (f : ℕ → Option (State T)) : Option (State T) :=
  (M.find s fileOffset).bind fun p => p.bind f

def step (s : State T) : Op → Option (State T)
  | .enqueue fileOffset paddr new tableAlloc =>
    (M.enqueue s tableAlloc new fileOffset paddr).map (·.1)
  | .remove fileOffset => (M.dequeue s fileOffset).map (·.1)
  | .getFirst => some (M.getFirst s).1
  | .getNext offset => (M.getNext s offset).map (·.1)
  | .write fileOffset pg =>
    M.onPage s fileOffset fun p => some { s with heap := s.heap.setDesc p pg }
  | .enqueueFreeList fileOffset => M.onPage s fileOffset s.joinFreeList
  | .dequeueFreeListPage fileOffset => M.onPage s fileOffset s.leaveFreeList
  | .dequeueFreeList type =>
    match firstFree s.heap s.freeList type with
    | none => some s
    | some p => s.leaveFreeList p

end Methods

/-- What an operation is to do to the map and the queue. -/
def specStep (l : PageList) : Op → PageList
  | .enqueue fileOffset paddr (some _) _ => l.set fileOffset (PageDesc.init paddr)
  | .enqueue _ _ none _ => l
  | .remove fileOffset => l.remove fileOffset
  | .getFirst => l
  | .getNext _ => l
  | .write fileOffset pg => l.set fileOffset pg
  | .enqueueFreeList fileOffset =>
    match l.find fileOffset with
    | none => l
    | some pg => l.enqueueFreeList fileOffset pg
  | .dequeueFreeListPage fileOffset =>
    match l.find fileOffset with
    | none => l
    | some pg => l.dequeueFreeList fileOffset pg
  | .dequeueFreeList type =>
    match l.firstFree type with
    | none => l
    | some fileOffset =>
      match l.find fileOffset with
      | none => l
      | some pg => l.dequeueFreeList fileOffset pg

/-! ## Runs -/

/-- What the assertions of a class ask of a caller. -/
structure Accepts where
  offset : ℕ → Prop
  new : Option NewEntry → Prop

/-- When a caller may issue an operation. -/
def Admissible (M : Methods T) (A : Accepts) (s : State T) (l : PageList) : Op → Prop
  | .enqueue fileOffset _ new _ =>
    A.offset fileOffset ∧ A.new new ∧ l.find fileOffset = none ∧
      ∀ n ∈ new, ∀ o, A.offset o → M.find s o ≠ some (some n.addr)
  | .remove fileOffset => A.offset fileOffset
  | .getFirst => True
  | .getNext offset => offset = noOffset ∨ A.offset offset
  | .write fileOffset pg => ∃ pg' ∈ l.find fileOffset, pg.free = pg'.free
  | .enqueueFreeList fileOffset => ∃ pg ∈ l.find fileOffset, pg.free = false
  | .dequeueFreeListPage fileOffset => ∃ pg ∈ l.find fileOffset, pg.free = true
  | .dequeueFreeList _ => True

/-- The links of a page that goes on the free list are `NULL`. -/
def ClearLinks (M : Methods T) (s : State T) : Op → Prop
  | .enqueueFreeList fileOffset => ∀ p, M.find s fileOffset = some (some p) → Unlinked s.heap p
  | _ => True

/-- The class and the map side by side. -/
def machine (M : Methods T) (A : Accepts) : Machine (Option (State T) × PageList) Op where
  step c op := (c.1.bind (M.step · op), specStep c.2 op)
  adm c op := ∀ s, c.1 = some s → Admissible M A s c.2 op

/-- The runs in which only pages with clear links go on the free list. -/
def clearMachine (M : Methods T) (A : Accepts) : Machine (Option (State T) × PageList) Op where
  step := (machine M A).step
  adm c op := (machine M A).adm c op ∧ ∀ s, c.1 = some s → ClearLinks M s op

/-- The class answers as the map with its queue does. -/
structure Agrees (M : Methods T) (A : Accepts) (s : State T) (l : PageList) : Prop where
  find : ∀ off, A.offset off → ∃ p, M.find s off = some p ∧
    (∀ q, p = some q → key s q = off) ∧ l.find off = p.map fun q => (s.heap.entry q).toPageDesc
  numPages : s.numPages = l.getNumPages
  numPagesFree : s.freeList.numPagesFree = l.getNumPagesFree
  /-- The free list is linked in both directions, in the order of the queue. -/
  freeList : ∃ queue, s.heap.freeLinks.Deque s.freeList.freeListHead s.freeList.freeListTail queue ∧
    queue.map (key s) = l.freeList
  /-- The queue holds the pages that have `free` set, once. -/
  listed : l.Listed
  firstFree : ∀ type, (firstFree s.heap s.freeList type).map (key s) = l.firstFree type
  /-- From `getFirst()`, `getNext(page)` visits every page once. -/
  visits : ∃ all, Path (fun p => (M.getNextPage s p).join) (M.getFirst s).2 all ∧
    (∀ p ∈ all, (M.getNextPage s p).isSome) ∧ (all.map (key s)).Perm l.entries.keys

/-! ## What is asked of a table -/

/-- `inv s all` says that the table of `s` holds the pages `all`, in this order, and `clears`
that a new entry has no links. -/
structure Lawful (M : Methods T) (A : Accepts) (clears : Prop)
    (inv : State T → List ℕ → Prop) : Prop where
  find : ∀ {s all off}, inv s all → A.offset off →
    ∃ p, M.find s off = some p ∧ Finds (key s) all off p
  numPages : ∀ {s all}, inv s all → s.numPages = all.length
  /-- What the descriptors hold does not matter, but for the offsets. -/
  stable : ∀ {s all e f L}, inv s all → (∀ p, (e p).fileOffset = key s p) →
    inv { s with heap := { s.heap with entry := e, freeLinks := L }, freeList := f } all
  getFirst : ∀ {s all}, inv s all → (M.getFirst s).2 = all.head? ∧
    ∃ t, (M.getFirst s).1 = { s with table := t } ∧ inv { s with table := t } all
  getNext : ∀ {s all off}, inv s all → (off = noOffset ∨ A.offset off) →
    ∃ t p, M.getNext s off = some ({ s with table := t }, p) ∧ inv { s with table := t } all
  getNextPage : ∀ {s all}, inv s all →
    Path (fun p => (M.getNextPage s p).join) all.head? all ∧
      ∀ p ∈ all, (M.getNextPage s p).isSome
  enqueue_none : ∀ {s all off} (paddr : Option ℕ) (tableAlloc : Bool), inv s all →
    A.offset off → A.new none →
    ∃ s' all', M.enqueue s tableAlloc none off paddr = some (s', none) ∧ all'.Perm all ∧
      inv s' all' ∧ s'.freeList = s.freeList ∧ s'.heap.entry = s.heap.entry ∧
      s'.heap.freeLinks = s.heap.freeLinks
  enqueue_some : ∀ {s all off n} (paddr : Option ℕ) (tableAlloc : Bool), inv s all →
    A.offset off → A.new (some n) → n.addr ∉ all → (∀ p ∈ all, key s p ≠ off) →
    ∃ s' all', M.enqueue s tableAlloc (some n) off paddr = some (s', some n.addr) ∧
      all'.Perm (n.addr :: all) ∧ inv s' all' ∧ s'.freeList = s.freeList ∧
      s'.heap.entry = Function.update s.heap.entry n.addr
        { PageDesc.init paddr with fileOffset := off } ∧
      (∀ p, p ≠ n.addr → s'.heap.freeLinks.next p = s.heap.freeLinks.next p ∧
        s'.heap.freeLinks.prev p = s.heap.freeLinks.prev p) ∧ (clears → Unlinked s'.heap n.addr)
  takeOut : ∀ {s all off}, inv s all → A.offset off →
    ∃ s' p, M.takeOut s off = some (s', p) ∧ Finds (key s) all off p ∧ (p = none → s' = s) ∧
      s'.freeList = s.freeList ∧ s'.heap.entry = s.heap.entry ∧
      s'.heap.freeLinks = s.heap.freeLinks ∧
      ∀ q, p = some q → ∃ all', all.Perm (q :: all') ∧ inv s' all'

end

end PageSets

end K42
