import K42.Mem.PageSetsRefinement

/-!
# Pages in a linked list

`PageList` keeps the pages in the order in which they came. It remembers the page that
`getNext` returned last with its offset, so that the next call need not search for it, and
forgets it when the page is taken out.
-/

open Function (update_of_ne update_self update)

namespace K42

namespace PageSets

open Linked Buckets

structure PageListTable where
  head : Option ℕ
  tail : Option ℕ
  savedOffset : ℕ
  savedEntry : Option ℕ

namespace PageListTable

/-- A page is remembered. -/
def save (t : PageListTable) (heap : PageHeap) (e : ℕ) : PageListTable :=
  { t with savedOffset := (heap.entry e).fileOffset, savedEntry := some e }

def init (heap : PageHeap) : State PageListTable where
  heap := heap
  freeList := ⟨none, none, 0⟩
  numPages := 0
  table := ⟨none, none, noOffset, none⟩

def find (s : State PageListTable) (fileOffset : ℕ) : Option (Option ℕ) :=
  (walk s.heap.next (fun p => key s p == fileOffset) s.numPages none s.table.head).map (·.2)

/-- `enqueue` of an entry: it is the last one. -/
def enqueueEntry (s : State PageListTable) (p : ℕ) : State PageListTable :=
  let heap := s.heap.setNext p none
  match s.table.tail with
  | some t =>
    { s with
      heap := heap.setNext t (some p)
      numPages := s.numPages + 1
      table := { s.table with tail := some p } }
  | none =>
    { s with
      heap := heap
      numPages := s.numPages + 1
      table := { s.table with head := some p, tail := some p } }

def enqueue (s : State PageListTable) (_tableAlloc : Bool) (new : Option NewEntry)
    (fileOffset : ℕ) (paddr : Option ℕ) : Option (State PageListTable × Option ℕ) :=
  match new with
  | none => some (s, none)
  | some n =>
    let s := { s with heap := (s.heap.alloc n).initEntry n.addr fileOffset paddr }
    some (enqueueEntry s n.addr, some n.addr)

/-- The page `p` behind `prev` leaves the list. -/
def unlinkPage (s : State PageListTable) (prev : Option ℕ) (p : ℕ) : State PageListTable :=
  if s.table.head = some p then
    if s.table.head = s.table.tail then
      { s with table := { s.table with head := none, tail := none } }
    else { s with table := { s.table with head := s.heap.next p } }
  else
    match prev with
    | none => s
    | some b =>
      let q := s.heap.next p
      let s := { s with heap := s.heap.setNext b q }
      if q = none then { s with table := { s.table with tail := some b } } else s

def takeOut (s : State PageListTable) (fileOffset : ℕ) :
    Option (State PageListTable × Option ℕ) :=
  (walk s.heap.next (fun p => key s p == fileOffset) s.numPages none s.table.head).map fun
    | (_, none) => (s, none)
    | (prev, some p) =>
      let s := unlinkPage s prev p
      let savedOffset :=
        if fileOffset = s.table.savedOffset then noOffset else s.table.savedOffset
      ({ s with
          heap := s.heap.setNext p none
          numPages := s.numPages - 1
          table := { s.table with savedOffset := savedOffset } }, some p)

def getFirst (s : State PageListTable) : State PageListTable × Option ℕ := (s, s.table.head)

/-- `getNext` of a page. -/
def getNextPage (s : State PageListTable) (p : ℕ) : Option ℕ := s.heap.next p

/-- A page is returned and remembered. -/
def returnSaved (s : State PageListTable) : Option ℕ → State PageListTable × Option ℕ
  | none => (s, none)
  | some e => ({ s with table := s.table.save s.heap e }, some e)

/-- `getNext` of an offset, with the search that it does when no page is remembered. -/
def getNextUncached (s : State PageListTable) (offset : ℕ) :
    Option (State PageListTable × Option ℕ) :=
  if offset = noOffset then some (returnSaved s s.table.head)
  else
    (find s offset).map fun
      | none => returnSaved s s.table.head
      | some e => returnSaved s (s.heap.next e)

/-- `getNext` of an offset. -/
def getNext (s : State PageListTable) (offset : ℕ) : Option (State PageListTable × Option ℕ) :=
  if offset = noOffset then some (returnSaved s s.table.head)
  else if s.table.savedOffset = offset then
    s.table.savedEntry.map fun e => returnSaved s (s.heap.next e)
  else
    (find s offset).map fun
      | none => returnSaved s s.table.head
      | some e => returnSaved s (s.heap.next e)

def methods : Methods PageListTable where
  find := find
  enqueue := enqueue
  takeOut := takeOut
  getFirst := getFirst
  getNextPage s p := some (getNextPage s p)
  getNext := getNext

/-! ## The list -/

/-- The remembered page, if there is one, is a page of the list and has the remembered offset. -/
def Saved (s : State PageListTable) (all : List ℕ) : Prop :=
  s.table.savedOffset ≠ noOffset →
    ∃ e ∈ all, s.table.savedEntry = some e ∧ key s e = s.table.savedOffset

structure Inv (s : State PageListTable) (all : List ℕ) : Prop where
  queue : Queue s.heap.next s.table.head s.table.tail all
  numPages : s.numPages = all.length
  saved : Saved s all

variable {s : State PageListTable} {all : List ℕ} {p off : ℕ}

theorem init_inv (heap : PageHeap) : Inv (init heap) [] :=
  ⟨.empty, rfl, fun h => absurd rfl h⟩

theorem Inv.congr (h : Inv s all) {heap : PageHeap} {f : FreeList}
    (hnext : ∀ p ∈ all, heap.next p = s.heap.next p)
    (hkey : ∀ p ∈ all, (heap.entry p).fileOffset = key s p) :
    Inv { s with heap := heap, freeList := f } all := by
  refine ⟨⟨h.queue.path.congr hnext, h.queue.last_eq⟩, h.numPages, fun hsaved => ?_⟩
  obtain ⟨e, he, hentry, hoff⟩ := h.saved hsaved
  exact ⟨e, he, hentry, (hkey e he).trans hoff⟩

theorem find_spec (h : Inv s all) (off : ℕ) :
    ∃ p, find s off = some p ∧ Finds (key s) all off p := by
  obtain ⟨pre, post, -, hfinds, hwalk⟩ :=
    finds_walk (key s) off h.queue.path h.numPages.symm.le
  exact ⟨post.head?, by rw [find, hwalk, Option.map_some], hfinds⟩

theorem Inv.returnSaved (h : Inv s all) {q : Option ℕ} (hq : ∀ e ∈ q, e ∈ all) :
    ∃ t, returnSaved s q = ({ s with table := t }, q) ∧ Inv { s with table := t } all := by
  cases q with
  | none => exact ⟨s.table, rfl, h⟩
  | some e =>
    exact ⟨s.table.save s.heap e, rfl, h.queue, h.numPages, fun _ => ⟨e, hq e rfl, rfl, rfl⟩⟩

theorem Inv.enqueueEntry (h : Inv s all) (hp : p ∉ all) :
    Inv (enqueueEntry s p) (all ++ [p]) := by
  have hclear : Queue (update s.heap.next p none) s.table.head s.table.tail all :=
    ⟨h.queue.path.update hp none, h.queue.last_eq⟩
  have hnum : s.numPages + 1 = (all ++ [p]).length := by
    rw [h.numPages, List.length_append]
    rfl
  have hsaved : s.table.savedOffset ≠ noOffset → ∃ e ∈ all ++ [p],
      s.table.savedEntry = some e ∧ key s e = s.table.savedOffset := by
    intro hsome
    obtain ⟨e, he, hentry⟩ := h.saved hsome
    exact ⟨e, List.mem_append_left _ he, hentry⟩
  rw [PageListTable.enqueueEntry]
  cases htail : s.table.tail with
  | none =>
    rw [htail] at hclear
    obtain ⟨rfl, hqueue⟩ := hclear.add_first (update_self ..)
    exact ⟨hqueue, hnum, hsaved⟩
  | some t =>
    rw [htail] at hclear
    exact ⟨hclear.add_last hp (update_self ..), hnum, hsaved⟩

theorem enqueueEntry_same (s : State PageListTable) (p : ℕ) :
    (enqueueEntry s p).freeList = s.freeList ∧
      (enqueueEntry s p).heap.entry = s.heap.entry ∧
      (enqueueEntry s p).heap.freeLinks = s.heap.freeLinks := by
  rw [enqueueEntry]
  cases s.table.tail with
  | none => exact ⟨rfl, rfl, rfl⟩
  | some t => exact ⟨rfl, rfl, rfl⟩

/-- All but the list and its links. -/
structure SamePages (s t : State PageListTable) : Prop where
  entry : t.heap.entry = s.heap.entry
  freeLinks : t.heap.freeLinks = s.heap.freeLinks
  freeList : t.freeList = s.freeList
  numPages : t.numPages = s.numPages
  savedOffset : t.table.savedOffset = s.table.savedOffset
  savedEntry : t.table.savedEntry = s.table.savedEntry

theorem unlinkPage_spec {pre post : List ℕ}
    (h : Queue s.heap.next s.table.head s.table.tail (pre ++ p :: post)) :
    SamePages s (unlinkPage s pre.getLast? p) ∧
      Queue (update (unlinkPage s pre.getLast? p).heap.next p none)
        (unlinkPage s pre.getLast? p).table.head (unlinkPage s pre.getLast? p).table.tail
        (pre ++ post) := by
  have hnodup := h.path.nodup
  have hlast := h.last_eq
  have hnext : s.heap.next p = post.head? := (h.path.drop).head_eq
  rcases List.eq_nil_or_concat' pre with rfl | ⟨pre, b, rfl⟩
  · have hhead : s.table.head = some p := h.path.1
    have hppost : p ∉ post := (List.nodup_cons.mp hnodup).1
    simp only [unlinkPage, if_pos hhead]
    by_cases heq : s.table.head = s.table.tail
    · have hpost : post = [] := by
        cases post with
        | nil => rfl
        | cons c post =>
          rw [← heq, hhead, List.nil_append, List.getLast?_cons_cons] at hlast
          exact absurd (List.mem_of_getLast? hlast.symm) hppost
      subst hpost
      rw [if_pos heq]
      exact ⟨⟨rfl, rfl, rfl, rfl, rfl, rfl⟩, rfl, rfl⟩
    · have hpost : post ≠ [] := by
        rintro rfl
        exact heq (hhead.trans hlast.symm)
      rw [if_neg heq]
      refine ⟨⟨rfl, rfl, rfl, rfl, rfl, rfl⟩, h.path.remove_head, ?_⟩
      obtain ⟨c, m, rfl⟩ := List.exists_cons_of_ne_nil hpost
      rw [List.nil_append, List.getLast?_cons_cons] at hlast
      exact hlast
  · have hhead : s.table.head ≠ some p := by
      rw [h.path.head_eq]
      intro heq
      rw [List.append_assoc, List.singleton_append] at heq hnodup
      cases pre with
      | nil =>
        obtain rfl : b = p := Option.some.inj heq
        simp at hnodup
      | cons c pre =>
        obtain rfl : c = p := Option.some.inj heq
        simp at hnodup
    simp only [unlinkPage, if_neg hhead, List.getLast?_concat]
    have hpath := h.path
    rw [List.append_assoc, List.singleton_append] at hpath
    have hremoved := hpath.remove_after
    rw [List.append_assoc, List.singleton_append]
    cases post with
    | nil =>
      have hnone : s.heap.next p = none := hnext
      simp only [if_pos hnone]
      exact ⟨⟨rfl, rfl, rfl, rfl, rfl, rfl⟩, hremoved, by simp⟩
    | cons c post =>
      have hsome : s.heap.next p ≠ none := by
        rw [hnext]
        exact nofun
      simp only [if_neg hsome]
      refine ⟨⟨rfl, rfl, rfl, rfl, rfl, rfl⟩, hremoved, ?_⟩
      show s.table.tail = _
      rw [hlast]
      simp [List.getLast?_append]

theorem takeOut_spec (h : Inv s all) (off : ℕ) :
    ∃ t p, takeOut s off = some (t, p) ∧
      Finds (key s) all off p ∧ (p = none → t = s) ∧ t.freeList = s.freeList ∧
      t.heap.entry = s.heap.entry ∧ t.heap.freeLinks = s.heap.freeLinks ∧
      ∀ q, p = some q → ∃ all', all.Perm (q :: all') ∧ Inv t all' := by
  obtain ⟨pre, post, rfl, hfinds, hwalk⟩ :=
    finds_walk (key s) off h.queue.path h.numPages.symm.le
  rw [takeOut, hwalk, Option.map_some]
  cases post with
  | nil => exact ⟨s, none, rfl, hfinds, fun _ => rfl, rfl, rfl, rfl, nofun⟩
  | cons p post =>
    obtain ⟨hsame, hqueue⟩ := unlinkPage_spec h.queue
    refine ⟨_, some p, rfl, hfinds, nofun, hsame.freeList, hsame.entry, hsame.freeLinks, ?_⟩
    rintro q hq
    obtain rfl : p = q := Option.some.inj hq
    refine ⟨pre ++ post, List.perm_middle, hqueue, ?_, ?_⟩
    · show (unlinkPage s pre.getLast? p).numPages - 1 = _
      rw [hsame.numPages, h.numPages, List.length_append, List.length_append, List.length_cons]
      rfl
    · intro hsome
      show ∃ e ∈ pre ++ post, _
      change (if off = (unlinkPage s pre.getLast? p).table.savedOffset then noOffset
        else (unlinkPage s pre.getLast? p).table.savedOffset) ≠ noOffset at hsome
      rw [hsame.savedOffset] at hsome
      by_cases hoff : off = s.table.savedOffset
      · rw [if_pos hoff] at hsome
        exact absurd rfl hsome
      · rw [if_neg hoff] at hsome
        obtain ⟨e, he, hentry, hkey⟩ := h.saved hsome
        have hep : e ≠ p := by
          rintro rfl
          exact hoff (hfinds.2.symm.trans hkey)
        refine ⟨e, ?_, hsame.savedEntry.trans hentry, ?_⟩
        · simpa [hep] using he
        · show ((unlinkPage s pre.getLast? p).heap.entry e).fileOffset =
            if off = (unlinkPage s pre.getLast? p).table.savedOffset then noOffset
            else (unlinkPage s pre.getLast? p).table.savedOffset
          rw [hsame.entry, hsame.savedOffset, if_neg hoff]
          exact hkey

/-- **The remembered page gives the answer of the search.** -/
theorem getNext_eq (h : Inv s all) (hnodup : (all.map (key s)).Nodup) (off : ℕ) :
    getNext s off = getNextUncached s off := by
  rw [getNext, getNextUncached]
  split
  · rfl
  · rename_i hoff
    split
    · rename_i hsaved
      obtain ⟨e, he, hentry, hkey⟩ := h.saved fun heq => hoff (hsaved.symm.trans heq)
      obtain ⟨p, hfind, hfinds⟩ := find_spec h off
      have hp : p = some e := by
        cases p with
        | none => exact absurd (hkey.trans hsaved) (hfinds e he)
        | some q =>
          have hq := hfinds.2.trans (hkey.trans hsaved).symm
          rw [List.inj_on_of_nodup_map hnodup hfinds.1 he hq]
      rw [hentry, hfind, hp]
      rfl
    · rfl

theorem getNext_spec (h : Inv s all) (off : ℕ) :
    ∃ t p, getNext s off = some ({ s with table := t }, p) ∧ Inv { s with table := t } all := by
  have hpath := h.queue.path
  have hhead : ∀ e ∈ s.table.head, e ∈ all := fun e he =>
    List.mem_of_mem_head? (hpath.head_eq ▸ he)
  have hnext : ∀ e ∈ all, ∀ q ∈ s.heap.next e, q ∈ all := by
    intro e he q hq
    obtain ⟨l, m, rfl⟩ := List.append_of_mem he
    have hq' : q ∈ m := List.mem_of_mem_head? ((hpath.drop).head_eq ▸ hq)
    simp [hq']
  obtain ⟨t, hfirst, hinv⟩ := h.returnSaved hhead
  rw [getNext]
  split
  · exact ⟨t, s.table.head, congrArg some hfirst, hinv⟩
  · rename_i hoff
    split
    · rename_i hsaved
      obtain ⟨e, he, hentry, -⟩ := h.saved fun heq => hoff (hsaved.symm.trans heq)
      obtain ⟨t', hnexte, hinv'⟩ := h.returnSaved (hnext e he)
      rw [hentry]
      exact ⟨t', s.heap.next e, congrArg some hnexte, hinv'⟩
    · obtain ⟨p, hfind, hfinds⟩ := find_spec h off
      rw [hfind, Option.map_some]
      cases p with
      | none => exact ⟨t, s.table.head, congrArg some hfirst, hinv⟩
      | some e =>
        obtain ⟨t', hnexte, hinv'⟩ := h.returnSaved (hnext e hfinds.1)
        exact ⟨t', s.heap.next e, congrArg some hnexte, hinv'⟩

/-- Nothing is asserted of the offset, and `new` may fail. -/
def accepts : Accepts := ⟨fun _ => True, fun _ => True⟩

theorem lawful : Lawful methods accepts True Inv where
  find h _ := find_spec h _
  numPages h := h.numPages
  stable h hkey := h.congr (fun _ _ => rfl) fun p _ => hkey p
  getFirst {s _} h := ⟨h.queue.path.head_eq, s.table, rfl, h⟩
  getNext h _ := getNext_spec h _
  getNextPage h := ⟨h.queue.path.head_eq ▸ h.queue.path, fun _ _ => rfl⟩
  enqueue_none {s all off} paddr tableAlloc h _ _ := ⟨s, all, rfl, .refl _, h, rfl, rfl, rfl⟩
  enqueue_some := by
    intro s all off n paddr tableAlloc h _ _ hn _
    have hne : ∀ p ∈ all, p ≠ n.addr := fun p hp heq => hn (heq ▸ hp)
    let t : State PageListTable :=
      { s with heap := (s.heap.alloc n).initEntry n.addr off paddr }
    have hinv : Inv t all := by
      refine h.congr (fun p hp => update_of_ne (hne p hp) ..) fun p hp => ?_
      exact congrArg PageEntry.fileOffset (update_of_ne (hne p hp) ..)
    obtain ⟨hfree, hentry, hlinks⟩ := enqueueEntry_same t n.addr
    refine ⟨PageListTable.enqueueEntry t n.addr, all ++ [n.addr], rfl,
      List.perm_append_comm, hinv.enqueueEntry hn, hfree, hentry, ?_, ?_⟩
    · intro p hp
      rw [hlinks]
      constructor
      · exact (update_of_ne hp ..).trans (update_of_ne hp ..)
      · exact (update_of_ne hp ..).trans (update_of_ne hp ..)
    · rw [Unlinked, hlinks]
      exact fun _ => ⟨update_self .., update_self ..⟩
  takeOut h _ := takeOut_spec h _

end PageListTable

end PageSets

end K42
