import K42.Lib.Assoc

/-!
# The pages of a file cache manager

A page descriptor is found by its file offset. A descriptor that may be reclaimed is on the
free list too, and its `free` flag says so.

The order in which a scan meets the descriptors is that of a hash table. Nothing depends on
it: the descriptors are an association list here, and a scan is given the offsets that it
visits.
-/

namespace K42

/-- The flags and the frame of a page; `none` is the address `-1` of a page that has no
frame yet. -/
structure PageDesc where
  paddr : Option ℕ
  dirty : Bool
  doingIO : Bool
  freeAfterIO : Bool
  mapped : Bool
  free : Bool
  established : Bool
  forkCopied1 : Bool
  forkCopied2 : Bool
  pinCount : ℕ
deriving DecidableEq

namespace PageDesc

def init (paddr : Option ℕ) : PageDesc where
  paddr := paddr
  dirty := false
  doingIO := false
  freeAfterIO := false
  mapped := false
  free := false
  established := false
  forkCopied1 := false
  forkCopied2 := false
  pinCount := 0

/-- `dqtype`: which page is taken off the free list. -/
inductive DqType
  | DQ_CLEAN | DQ_DIRTY | DQ_HEAD
deriving DecidableEq

def DqType.takes : DqType → PageDesc → Bool
  | .DQ_HEAD, _ => true
  | .DQ_DIRTY, pg => pg.doingIO || pg.dirty
  | .DQ_CLEAN, pg => !(pg.doingIO || pg.dirty)

end PageDesc

structure PageList where
  entries : AList fun _ : ℕ => PageDesc
  freeList : List ℕ

namespace PageList

def empty : PageList := ⟨∅, []⟩

def find (l : PageList) (fileOffset : ℕ) : Option PageDesc := l.entries.lookup fileOffset

def getNumPages (l : PageList) : ℕ := l.entries.entries.length

def getNumPagesFree (l : PageList) : ℕ := l.freeList.length

/-- What is stored through a pointer to the descriptor of the page, or a new descriptor. -/
def set (l : PageList) (fileOffset : ℕ) (pg : PageDesc) : PageList :=
  { l with entries := l.entries.insert fileOffset pg }

/-- The page goes on the free list, with its flag. -/
def enqueueFreeList (l : PageList) (fileOffset : ℕ) (pg : PageDesc) : PageList where
  entries := l.entries.insert fileOffset { pg with free := true }
  freeList := l.freeList ++ [fileOffset]

/-- The page leaves the free list, and the caller clears its flag. -/
def dequeueFreeList (l : PageList) (fileOffset : ℕ) (pg : PageDesc) : PageList where
  entries := l.entries.insert fileOffset { pg with free := false }
  freeList := l.freeList.erase fileOffset

/-- The page that `dequeueFreeList` chooses. -/
def firstFree (l : PageList) (type : PageDesc.DqType) : Option ℕ :=
  l.freeList.find? fun off => (l.find off).any type.takes

def remove (l : PageList) (fileOffset : ℕ) : PageList :=
  match l.find fileOffset with
  | none => l
  | some pg =>
    { entries := l.entries.erase fileOffset
      freeList := if pg.free then l.freeList.erase fileOffset else l.freeList }

/-- The number of pages that `pinCount` counts a pin of. -/
def numPinned (l : PageList) : ℕ := Assoc.count (fun pg => decide (0 < pg.pinCount)) l.entries

/-! ## What the operations do to one page -/

section

variable (l : PageList) (off : ℕ) (pg : PageDesc) (fl : List ℕ)

@[simp] theorem find_insert : find ⟨l.entries.insert off pg, fl⟩ off = some pg :=
  AList.lookup_insert _

theorem find_insert_ne {o : ℕ} (h : o ≠ off) :
    find ⟨l.entries.insert off pg, fl⟩ o = l.find o := AList.lookup_insert_ne h

@[simp] theorem find_erase : find ⟨l.entries.erase off, fl⟩ off = none := AList.lookup_erase _ _

theorem find_erase_ne {o : ℕ} (h : o ≠ off) :
    find ⟨l.entries.erase off, fl⟩ o = l.find o := AList.lookup_erase_ne h

@[simp] theorem find_empty : empty.find off = none := AList.lookup_empty _

end

variable {l : PageList} {off : ℕ} {pg : PageDesc}

/-- The free list holds each page that has its flag set, once. -/
structure Listed (l : PageList) : Prop where
  nodup : l.freeList.Nodup
  flagged : ∀ off, off ∈ l.freeList ↔ ∃ pg, l.find off = some pg ∧ pg.free = true

theorem Listed.mem_iff (h : l.Listed) (hf : l.find off = some pg) :
    off ∈ l.freeList ↔ pg.free = true := by
  rw [h.flagged off, hf]
  constructor
  · rintro ⟨pg', hpg, hfree⟩
    cases hpg
    exact hfree
  · exact fun hfree => ⟨pg, rfl, hfree⟩

theorem Listed.not_mem (h : l.Listed) (hf : l.find off = none) : off ∉ l.freeList := by
  intro hmem
  obtain ⟨pg, hpg, -⟩ := (h.flagged off).mp hmem
  rw [hf] at hpg
  cases hpg

theorem empty_listed : empty.Listed := by
  refine ⟨List.nodup_nil, fun off => iff_of_false List.not_mem_nil ?_⟩
  rintro ⟨pg, hpg, -⟩
  rw [find_empty] at hpg
  cases hpg

section

variable (h : l.Listed)

include h

theorem Listed.insert {fl : List ℕ} (hnd : fl.Nodup)
    (hne : ∀ o, o ≠ off → (o ∈ fl ↔ o ∈ l.freeList)) (hoff : off ∈ fl ↔ pg.free = true) :
    Listed ⟨l.entries.insert off pg, fl⟩ where
  nodup := hnd
  flagged o := by
    by_cases ho : o = off
    · subst ho
      rw [find_insert]
      constructor
      · exact fun hmem => ⟨pg, rfl, hoff.mp hmem⟩
      · rintro ⟨pg', hpg, hfree⟩
        cases hpg
        exact hoff.mpr hfree
    · rw [find_insert_ne l off pg fl ho, ← h.flagged o]
      exact hne o ho

theorem Listed.set (hoff : off ∈ l.freeList ↔ pg.free = true) :
    (l.set off pg).Listed := h.insert h.nodup (fun _ _ => Iff.rfl) hoff

theorem Listed.enqueueFreeList (hf : off ∉ l.freeList) : (l.enqueueFreeList off pg).Listed := by
  refine h.insert ?_ (fun o ho => ?_) ?_
  · exact List.nodup_append.mpr ⟨h.nodup, List.nodup_singleton off, fun a ha b hb hab => by
      rw [List.mem_singleton.mp hb] at hab
      exact hf (hab ▸ ha)⟩
  · simp [ho]
  · simp

theorem Listed.dequeueFreeList : (l.dequeueFreeList off pg).Listed := by
  refine h.insert (h.nodup.erase off) (fun o ho => List.mem_erase_of_ne ho) ?_
  simp [h.nodup.not_mem_erase]

theorem Listed.erase :
    Listed ⟨l.entries.erase off, l.freeList.erase off⟩ where
  nodup := h.nodup.erase off
  flagged o := by
    by_cases ho : o = off
    · subst ho
      simp [h.nodup.not_mem_erase]
    · rw [find_erase_ne l off _ ho, ← h.flagged o]
      exact List.mem_erase_of_ne ho

theorem Listed.remove_eq (off : ℕ) :
    l.remove off = ⟨l.entries.erase off, l.freeList.erase off⟩ := by
  have hfree : off ∉ l.freeList → l.freeList.erase off = l.freeList := List.erase_of_not_mem
  unfold remove
  cases hf : l.find off with
  | none =>
    have hgone : l.entries.erase off = l.entries := by
      refine AList.ext (List.kerase_of_notMem_keys ?_)
      exact AList.lookup_eq_none.mp hf
    rw [hgone, hfree (h.not_mem hf)]
  | some pg =>
    have hiff := h.mem_iff hf
    by_cases hpg : pg.free = true
    · simp [hpg]
    · simp [hpg, hfree (fun hmem => hpg (hiff.mp hmem))]

theorem Listed.remove (off : ℕ) : (l.remove off).Listed := by
  rw [h.remove_eq]
  exact h.erase

end

theorem firstFree_some {type : PageDesc.DqType} (h : l.firstFree type = some off) :
    off ∈ l.freeList ∧ ∃ pg, l.find off = some pg ∧ type.takes pg = true := by
  refine ⟨List.mem_of_find?_eq_some h, ?_⟩
  have ht := List.find?_some h
  rw [Option.any_eq_true] at ht
  exact ht

end PageList

end K42
