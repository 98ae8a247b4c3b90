import K42.Lib.Deque
import K42.Lib.Linked
import K42.Lib.Run
import K42.Mem.PageList

/-!
# Page descriptors and their free list

`PageSet`, `PageList` and `PageSetDense` keep the descriptors of the pages of a file cache
manager in different ways. All three thread the pages that may be reclaimed onto a doubly
linked list with the same code. What they are for is said once: they are a map from file
offsets to descriptors together with a queue of free pages.

An operation whose assertion fails has no result. Callers set the `free` flag before
`enqueueFreeList` and clear it after `dequeueFreeList`, and this is part of the operation
here.
-/

namespace K42

namespace PageSets

/-- A descriptor, without its links. -/
structure PageEntry extends PageDesc where
  fileOffset : ℕ
deriving DecidableEq

/-- The descriptors by address: `next` links those of a bucket or of the list, and
`freeLinks` those of the free list. -/
structure PageHeap where
  entry : ℕ → PageEntry
  next : ℕ → Option ℕ
  freeLinks : Links ℕ

structure FreeList where
  freeListHead : Option ℕ
  freeListTail : Option ℕ
  numPagesFree : ℕ
deriving DecidableEq

namespace PageHeap

def setEntry (h : PageHeap) (p : ℕ) (e : PageEntry) : PageHeap :=
  { h with entry := Function.update h.entry p e }

def setNext (h : PageHeap) (p : ℕ) (q : Option ℕ) : PageHeap :=
  { h with next := Function.update h.next p q }

/-- What a caller writes to the descriptor of a page. -/
def setDesc (h : PageHeap) (p : ℕ) (d : PageDesc) : PageHeap :=
  h.setEntry p { d with fileOffset := (h.entry p).fileOffset }

def setFree (h : PageHeap) (p : ℕ) (b : Bool) : PageHeap :=
  h.setDesc p { (h.entry p).toPageDesc with free := b }

/-- `PageDesc::init`. -/
def initDesc (h : PageHeap) (p fileOffset : ℕ) (paddr : Option ℕ) : PageHeap :=
  h.setEntry p { PageDesc.init paddr with fileOffset := fileOffset }

/-- `Entry::init`, with all links. -/
def initEntry (h : PageHeap) (p fileOffset : ℕ) (paddr : Option ℕ) : PageHeap :=
  let h := (h.initDesc p fileOffset paddr).setNext p none
  { h with freeLinks := (h.freeLinks.setNext p none).setPrev p none }

end PageHeap

/-! ## The free list -/

def enqueueFreeList (h : PageHeap) (f : FreeList) (p : ℕ) : Option (PageHeap × FreeList) :=
  let L := h.freeLinks
  if L.next p = none ∧ L.prev p = none ∧ (h.entry p).free = true ∧
      (f.freeListTail = none ↔ f.freeListHead = none) then
    some ({ h with freeLinks := L.linkBack f.freeListTail p },
      ⟨if f.freeListTail = none then some p else f.freeListHead, some p, f.numPagesFree + 1⟩)
  else none

/-- `dequeueFreeList` of a page. -/
def dequeueFreeList (h : PageHeap) (f : FreeList) (p : ℕ) : Option (PageHeap × FreeList) :=
  let L := h.freeLinks
  if (h.entry p).free = true ∧ (L.prev p = none ↔ f.freeListHead = some p) ∧
      (L.next p = none → f.freeListTail = some p) then
    some ({ h with freeLinks := L.unlink p }, ⟨if L.prev p = none then L.next p else f.freeListHead,
        if L.next p = none then L.prev p else f.freeListTail, f.numPagesFree - 1⟩)
  else none

/-- The page that `dequeueFreeList` of a type finds. -/
def firstFree (h : PageHeap) (f : FreeList) (type : PageDesc.DqType) : Option ℕ :=
  (Linked.walk h.freeLinks.next (fun p => type.takes (h.entry p).toPageDesc) f.numPagesFree none
    f.freeListHead).bind (·.2)

/-- The queue is what is linked. -/
structure FreeOk (h : PageHeap) (f : FreeList) (queue : List ℕ) : Prop where
  deque : h.freeLinks.Deque f.freeListHead f.freeListTail queue
  nodup : queue.Nodup
  count : f.numPagesFree = queue.length

/-- The page is on no free list. -/
def Unlinked (h : PageHeap) (p : ℕ) : Prop :=
  h.freeLinks.next p = none ∧ h.freeLinks.prev p = none

variable {h : PageHeap} {f : FreeList} {queue : List ℕ} {p : ℕ}

theorem FreeOk.enqueue (hok : FreeOk h f queue) (hp : p ∉ queue) (hfree : (h.entry p).free = true)
    (hclear : Unlinked h p) : ∃ M f', enqueueFreeList h f p = some ({ h with freeLinks := M }, f') ∧
      FreeOk { h with freeLinks := M } f' (queue ++ [p]) ∧
      ∀ a, a ∉ queue → a ≠ p → Unlinked h a → Unlinked { h with freeLinks := M } a := by
  have hends : f.freeListTail = none ↔ f.freeListHead = none := by
    have hdeque := hok.deque
    rcases List.eq_nil_or_concat' queue with rfl | ⟨l, t, rfl⟩
    · obtain ⟨hhead, htail⟩ := hdeque.nil
      rw [hhead, htail]
    · have hhead : f.freeListHead ≠ none := by
        intro hnone
        rw [hnone] at hdeque
        exact List.append_ne_nil_of_right_ne_nil l (by simp) hdeque.eq_nil
      rw [hdeque.tail_append]
      exact ⟨nofun, fun hnone => absurd hnone hhead⟩
  refine ⟨_, _, if_pos ⟨hclear.1, hclear.2, hfree, hends⟩, ⟨?_, ?_, ?_⟩, ?_⟩
  · exact hok.deque.pushBack hp hok.nodup hclear.1
  · exact List.nodup_append.mpr ⟨hok.nodup, List.nodup_singleton p, fun a ha b hb hab =>
      hp (List.mem_singleton.mp hb ▸ hab ▸ ha)⟩
  · show f.numPagesFree + 1 = _
    rw [hok.count, List.length_append]
    rfl
  · intro a ha hap hunlinked
    rw [Unlinked]
    have hdeque := hok.deque
    cases htail : f.freeListTail with
    | none => exact ⟨hunlinked.1, (Function.update_of_ne hap _ _).trans hunlinked.2⟩
    | some t =>
      have hat : a ≠ t := by
        rcases List.eq_nil_or_concat' queue with rfl | ⟨l, t', rfl⟩
        · rw [htail] at hdeque
          exact nomatch hdeque.nil.2
        · rw [hdeque.tail_append, Option.some.injEq] at htail
          rintro rfl
          exact ha (by simp [htail])
      exact ⟨(Function.update_of_ne hat _ _).trans hunlinked.1,
        (Function.update_of_ne hap _ _).trans hunlinked.2⟩

theorem FreeOk.dequeue (hok : FreeOk h f queue) (hp : p ∈ queue) (hfree : (h.entry p).free = true) :
    ∃ M f', dequeueFreeList h f p = some ({ h with freeLinks := M }, f') ∧
      FreeOk { h with freeLinks := M } f' (queue.erase p) ∧ Unlinked { h with freeLinks := M } p ∧
      ∀ a, a ∉ queue → Unlinked h a → Unlinked { h with freeLinks := M } a := by
  obtain ⟨l, m, rfl⟩ := List.append_of_mem hp
  obtain ⟨hprev, hnext, hhead, htail⟩ := hok.deque.neighbours
  obtain ⟨hlnodup, hpmnodup, hdisj⟩ := List.nodup_append.mp hok.nodup
  have hpl : p ∉ l := fun hmem => hdisj p hmem p List.mem_cons_self rfl
  have hfront : h.freeLinks.prev p = none ↔ f.freeListHead = some p := by
    rw [hprev, hhead, List.getLast?_eq_none_iff]
    cases l with
    | nil => simp
    | cons b l =>
      have hbp : b ≠ p := fun heq => hpl (heq ▸ List.mem_cons_self)
      simp [hbp]
  have hback : h.freeLinks.next p = none → f.freeListTail = some p := by
    intro hnone
    rw [hnext, List.head?_eq_none_iff] at hnone
    exact htail hnone
  have herase : (l ++ p :: m).erase p = l ++ m := by
    rw [List.erase_append_right _ hpl, List.erase_cons_head]
  refine ⟨_, _, if_pos ⟨hfree, hfront, hback⟩, ⟨?_, ?_, ?_⟩, Links.unlink_self _ _, ?_⟩
  · rw [herase]
    exact hok.deque.unlink hok.nodup
  · exact hok.nodup.erase p
  · show f.numPagesFree - 1 = _
    rw [hok.count, List.length_erase_of_mem hp]
  · intro a ha hunlinked
    have hap : a ≠ p := fun heq => ha (heq ▸ hp)
    have hbefore : h.freeLinks.prev p ≠ some a := by
      rw [hprev]
      exact fun heq => ha (List.mem_append_left _ (List.mem_of_getLast? heq))
    have hafter : h.freeLinks.next p ≠ some a := by
      rw [hnext]
      exact fun heq => ha (List.mem_append_right _ (List.mem_cons_of_mem p
        (List.mem_of_mem_head? heq)))
    obtain ⟨hsame, hsame'⟩ := Links.unlink_other hap hbefore hafter
    exact ⟨hsame.trans hunlinked.1, hsame'.trans hunlinked.2⟩

theorem path_of_segment {L : Links ℕ} {before q tail : Option ℕ}
    (hsegment : L.Segment before q queue none tail) : Linked.Path L.next q queue := by
  induction queue generalizing before q with
  | nil => exact hsegment.1
  | cons a queue ih => exact ⟨hsegment.1, ih hsegment.2.2⟩

theorem FreeOk.firstFree (hok : FreeOk h f queue) (type : PageDesc.DqType) :
    firstFree h f type = queue.find? fun p => type.takes (h.entry p).toPageDesc := by
  obtain ⟨pre, post, hsplit, hpre, hpost, hwalk⟩ := (path_of_segment hok.deque).walk_eq
    (fun p => type.takes (h.entry p).toPageDesc) (Nat.le_of_eq hok.count.symm) none
  rw [PageSets.firstFree, hwalk, Option.bind_some, hsplit, List.find?_append]
  have hnone : pre.find? (fun p => type.takes (h.entry p).toPageDesc) = none :=
    List.find?_eq_none.mpr fun a ha => by
      rw [hpre a ha]
      exact Bool.false_ne_true
  rw [hnone, Option.none_or]
  cases post with
  | nil => rfl
  | cons b post =>
    exact (List.find?_cons_of_pos (p := fun p => type.takes (h.entry p).toPageDesc)
      (hpost b rfl)).symm

end PageSets

end K42
