import K42.Mem.PageSetsRefinement

/-!
# Pages in an array

`PageSetDense` has a place for each of the first pages of a file. Its `init` clears the
array only, and the one of its entries clears no links: what is in their memory when they are
made stays there.
-/

open Function (update update_of_ne update_self)

namespace K42

namespace PageSets

open Linked Buckets

structure PageSetDenseTable where
  pageArray : ℕ → Option ℕ

namespace PageSetDense

/-- `MAX_PAGES`. -/
@[irreducible] def maxPages : ℕ := 512

/-- The constructor, in memory that holds `memory` in the place of the free list. -/
def init (heap : PageHeap) (memory : FreeList) : State PageSetDenseTable where
  heap := heap
  freeList := memory
  numPages := 0
  table := ⟨fun _ => none⟩

def indexFromOffset (fileOffset : ℕ) : Option ℕ :=
  if fileOffset >>> 12 < maxPages then some (fileOffset >>> 12) else none

def find (s : State PageSetDenseTable) (fileOffset : ℕ) : Option (Option ℕ) :=
  (indexFromOffset fileOffset).bind fun index =>
    match s.table.pageArray index with
    | none => some none
    | some p => if key s p = fileOffset then some (some p) else none

def enqueue (s : State PageSetDenseTable) (_tableAlloc : Bool) (new : Option NewEntry)
    (fileOffset : ℕ) (paddr : Option ℕ) : Option (State PageSetDenseTable × Option ℕ) :=
  (indexFromOffset fileOffset).bind fun index =>
    new.map fun n =>
      ({ s with
          heap := (s.heap.alloc n).initDesc n.addr fileOffset paddr
          numPages := s.numPages + 1
          table := ⟨update s.table.pageArray index (some n.addr)⟩ }, some n.addr)

def takeOut (s : State PageSetDenseTable) (fileOffset : ℕ) :
    Option (State PageSetDenseTable × Option ℕ) :=
  (indexFromOffset fileOffset).map fun index =>
    match s.table.pageArray index with
    | none => (s, none)
    | some p =>
      ({ s with
          numPages := s.numPages - 1
          table := ⟨update s.table.pageArray index none⟩ }, some p)

def getFirst (s : State PageSetDenseTable) : State PageSetDenseTable × Option ℕ :=
  (s, firstFrom s.table.pageArray maxPages 0)

/-- `getNext` of an offset. -/
def getNext (s : State PageSetDenseTable) (offset : ℕ) :
    Option (State PageSetDenseTable × Option ℕ) :=
  if offset = noOffset then some (getFirst s)
  else
    (indexFromOffset offset).map fun i => (s, firstFrom s.table.pageArray maxPages (i + 1))

/-- `getNext` of a page. -/
def getNextPage (s : State PageSetDenseTable) (p : ℕ) : Option (Option ℕ) :=
  (getNext s (key s p)).map (·.2)

def methods : Methods PageSetDenseTable where
  find := find
  enqueue := enqueue
  takeOut := takeOut
  getFirst := getFirst
  getNextPage := getNextPage
  getNext := getNext

/-! ## The array -/

/-- Offsets are those of pages that have a place, and `new` does not fail. -/
def accepts : Accepts where
  offset off := off % 4096 = 0 ∧ off >>> 12 < maxPages
  new n := n ≠ none

/-- A place as a list. -/
def slot (t : PageSetDenseTable) (i : ℕ) : List ℕ := (t.pageArray i).toList

structure Inv (s : State PageSetDenseTable) (all : List ℕ) : Prop where
  chains : Chains (fun _ => none) s.table.pageArray (fun p => key s p >>> 12) maxPages
    (slot s.table)
  all_eq : all = Buckets.all (slot s.table) maxPages
  aligned : ∀ p ∈ all, key s p % 4096 = 0
  numPages : s.numPages = all.length

variable {s : State PageSetDenseTable} {all : List ℕ} {p off i : ℕ}

theorem init_inv (heap : PageHeap) (memory : FreeList) : Inv (init heap memory) [] where
  chains := ⟨fun _ _ => rfl, fun _ _ _ hmem => nomatch hmem⟩
  all_eq := by simp [Buckets.all, slot, init]
  aligned _ hmem := nomatch hmem
  numPages := rfl

theorem slot_update (t : PageSetDenseTable) (i : ℕ) (q : Option ℕ) :
    slot ⟨update t.pageArray i q⟩ = update (slot t) i q.toList := by
  funext j
  by_cases hji : j = i
  · subst hji
    simp [slot]
  · simp [slot, hji]

theorem indexFromOffset_eq (hoff : accepts.offset off) :
    indexFromOffset off = some (off >>> 12) := if_pos hoff.2

theorem offset_eq {off' : ℕ} (hoff : off % 4096 = 0) (hoff' : off' % 4096 = 0)
    (heq : off >>> 12 = off' >>> 12) : off = off' := by
  rw [Nat.shiftRight_eq_div_pow, Nat.shiftRight_eq_div_pow] at heq
  omega

theorem not_noOffset (hoff : accepts.offset off) : off ≠ noOffset := by
  rintro rfl
  have haligned := hoff.1
  revert haligned
  decide

section

variable (h : Inv s all)

include h

theorem Inv.accepted (hp : p ∈ all) : accepts.offset (key s p) := by
  refine ⟨h.aligned p hp, ?_⟩
  have hmem := hp
  rw [h.all_eq, h.chains.mem_all] at hmem
  exact hmem.1

theorem Inv.congr {heap : PageHeap} {f : FreeList}
    (hkey : ∀ p ∈ all, (heap.entry p).fileOffset = key s p) :
    Inv { s with heap := heap, freeList := f } all := by
  refine ⟨h.chains.congr (fun _ _ => rfl) ?_, h.all_eq, ?_, h.numPages⟩
  · intro p hp
    show (heap.entry p).fileOffset >>> 12 = _
    rw [hkey p (h.all_eq ▸ hp)]
  · intro p hp
    show (heap.entry p).fileOffset % 4096 = 0
    rw [hkey p hp]
    exact h.aligned p hp

theorem Inv.finds (hoff : accepts.offset off) :
    Finds (key s) all off (s.table.pageArray (off >>> 12)) := by
  have hslot : ∀ {q}, s.table.pageArray (off >>> 12) = q → slot s.table (off >>> 12) = q.toList :=
    fun heq => congrArg Option.toList heq
  cases hq : s.table.pageArray (off >>> 12) with
  | none =>
    rintro p hp rfl
    rw [h.all_eq, h.chains.mem_all, hslot hq] at hp
    exact nomatch hp.2
  | some p =>
    have hmem : p ∈ slot s.table (off >>> 12) := by
      rw [hslot hq]
      exact List.mem_singleton_self p
    have hp : p ∈ all := by
      rw [h.all_eq]
      exact Buckets.mem_all.mpr ⟨_, hoff.2, hmem⟩
    exact ⟨hp, offset_eq (h.aligned p hp) hoff.1 (h.chains.bucket_eq _ hoff.2 p hmem)⟩

theorem find_spec (hoff : accepts.offset off) :
    ∃ p, find s off = some p ∧ Finds (key s) all off p := by
  have hfinds := h.finds hoff
  refine ⟨s.table.pageArray (off >>> 12), ?_, hfinds⟩
  rw [find, indexFromOffset_eq hoff, Option.bind_some]
  cases hq : s.table.pageArray (off >>> 12) with
  | none => rfl
  | some p =>
    rw [hq] at hfinds
    exact if_pos hfinds.2

theorem getNext_spec (hoff : off = noOffset ∨ accepts.offset off) :
    ∃ t p, getNext s off = some ({ s with table := t }, p) ∧ Inv { s with table := t } all := by
  refine ⟨s.table, ?_⟩
  rw [getNext]
  split
  · exact ⟨_, rfl, h⟩
  · rename_i hne
    rw [indexFromOffset_eq (hoff.resolve_left hne), Option.map_some]
    exact ⟨_, rfl, h⟩

theorem getFirst_spec : (getFirst s).2 = all.head? ∧
    ∃ t, (getFirst s).1 = { s with table := t } ∧ Inv { s with table := t } all := by
  refine ⟨?_, s.table, rfl, h⟩
  rw [h.all_eq]
  exact h.chains.traversal.head_eq

theorem getNextPage_spec :
    Path (fun p => (getNextPage s p).join) all.head? all ∧
      ∀ p ∈ all, (getNextPage s p).isSome := by
  have hnext : ∀ p ∈ all, getNextPage s p =
      some (succ (fun _ => none) s.table.pageArray (fun p => key s p >>> 12) maxPages p) := by
    intro p hp
    have hoff := h.accepted hp
    rw [getNextPage, getNext, if_neg (not_noOffset hoff), indexFromOffset_eq hoff, succ,
      Option.none_or, Option.map_some, Option.map_some]
  constructor
  · have hpath := h.chains.traversal
    rw [← h.all_eq] at hpath
    rw [← hpath.head_eq]
    refine hpath.congr fun p hp => ?_
    rw [hnext p hp, Option.join_some]
  · intro p hp
    rw [hnext p hp]
    rfl

theorem Inv.put (hoff : accepts.offset off) (hp : p ∉ all)
    (hkey : key s p = off) (hfresh : ∀ q ∈ all, key s q ≠ off) : ∃ all', all'.Perm (p :: all) ∧ Inv
      { s with
        numPages := s.numPages + 1
        table := ⟨update s.table.pageArray (off >>> 12) (some p)⟩ } all' := by
  have hempty : slot s.table (off >>> 12) = [] := by
    have hfinds := h.finds hoff
    rw [slot]
    cases hq : s.table.pageArray (off >>> 12) with
    | none => rfl
    | some q =>
      rw [hq] at hfinds
      exact absurd hfinds.2 (hfresh q hfinds.1)
  have hperm : (Buckets.all (slot ⟨update s.table.pageArray (off >>> 12) (some p)⟩)
      maxPages).Perm (p :: all) := by
    rw [h.all_eq, slot_update]
    refine all_perm hoff.2 (fun j hj => update_of_ne hj ..) ?_
    rw [update_self, hempty]
    exact .refl _
  refine ⟨_, hperm, ⟨?_, rfl, ?_, ?_⟩⟩
  · rw [slot_update]
    refine h.chains.setBucket (fun j hj => update_of_ne hj ..) (fun _ _ _ _ _ => rfl) ?_ ?_
    · intro _
      show Path _ (update s.table.pageArray _ (some p) _) _
      rw [update_self]
      exact ⟨rfl, rfl⟩
    · intro a ha
      rw [List.mem_singleton.mp ha]
      exact congrArg (· >>> 12) hkey
  · intro q hq
    rcases List.mem_cons.mp (hperm.mem_iff.mp hq) with rfl | hq
    · show key s q % 4096 = 0
      rw [hkey]
      exact hoff.1
    · exact h.aligned q hq
  · exact (congrArg (· + 1) h.numPages).trans hperm.length_eq.symm

theorem takeOut_spec (hoff : accepts.offset off) :
    ∃ t p, takeOut s off = some (t, p) ∧
      Finds (key s) all off p ∧ (p = none → t = s) ∧ t.freeList = s.freeList ∧
      t.heap.entry = s.heap.entry ∧ t.heap.freeLinks = s.heap.freeLinks ∧
      ∀ q, p = some q → ∃ all', all.Perm (q :: all') ∧ Inv t all' := by
  have hfinds := h.finds hoff
  rw [takeOut, indexFromOffset_eq hoff, Option.map_some]
  cases hq : s.table.pageArray (off >>> 12) with
  | none =>
    rw [hq] at hfinds
    exact ⟨s, none, rfl, hfinds, fun _ => rfl, rfl, rfl, rfl, nofun⟩
  | some p =>
    rw [hq] at hfinds
    refine ⟨_, some p, rfl, hfinds, nofun, rfl, rfl, rfl, ?_⟩
    rintro q hq'
    obtain rfl : p = q := Option.some.inj hq'
    have hperm : all.Perm (p ::
        Buckets.all (slot ⟨update s.table.pageArray (off >>> 12) none⟩) maxPages) := by
      rw [h.all_eq, slot_update]
      refine all_perm hoff.2 (fun j hj => (update_of_ne hj ..).symm) ?_
      rw [update_self, slot, hq]
      exact .refl _
    refine ⟨_, hperm, ⟨?_, rfl, ?_, ?_⟩⟩
    · rw [slot_update]
      refine h.chains.setBucket (fun j hj => update_of_ne hj ..)
        (fun _ _ _ _ _ => rfl) ?_ (fun _ ha => nomatch ha)
      intro _
      show Path _ (update s.table.pageArray _ none _) _
      rw [update_self]
      rfl
    · exact fun q hq => h.aligned q (hperm.mem_iff.mpr (List.mem_cons_of_mem p hq))
    · show s.numPages - 1 = _
      rw [h.numPages, hperm.length_eq]
      rfl

end

theorem lawful : Lawful methods accepts False Inv where
  find := find_spec
  numPages h := h.numPages
  stable h hkey := h.congr fun p _ => hkey p
  getFirst := getFirst_spec
  getNext := getNext_spec
  getNextPage := getNextPage_spec
  enqueue_none _ _ _ _ hnew := absurd rfl hnew
  enqueue_some := by
    intro s all off n paddr tableAlloc h hoff _ hn hfresh
    have hne : ∀ p ∈ all, p ≠ n.addr := fun p hp heq => hn (heq ▸ hp)
    let t : State PageSetDenseTable :=
      { s with heap := (s.heap.alloc n).initDesc n.addr off paddr }
    have hold : ∀ p ∈ all, key t p = key s p := fun p hp =>
      congrArg PageEntry.fileOffset (update_of_ne (hne p hp) ..)
    have hkey : key t n.addr = off := by
      show (update s.heap.entry n.addr _ n.addr).fileOffset = off
      rw [update_self]
    have hinv : Inv t all := h.congr hold
    obtain ⟨all', hall, hinv'⟩ := hinv.put hoff hn hkey fun q hq => (hold q hq).symm ▸ hfresh q hq
    refine ⟨_, all', ?_, hall, hinv', rfl, rfl, ?_, False.elim⟩
    · show enqueue s tableAlloc (some n) off paddr = _
      rw [enqueue, indexFromOffset_eq hoff]
      rfl
    · intro p hp
      exact ⟨update_of_ne hp .., update_of_ne hp ..⟩
  takeOut := takeOut_spec

end PageSetDense

end PageSets

end K42
