import K42.Mem.PageListLinks
import K42.Mem.PageSet
import K42.Mem.PageSetDense

/-!
# Runs of the three sets of pages

`PageSet` and `PageList` agree with the map and its queue after every run. `PageSetDense` does
so when the memory of the set holds an empty free list by chance, and the memory of each
entry that goes on the free list no links.
-/

namespace K42

namespace PageSets

variable {heap : PageHeap} {ops : List Op}

theorem PageSetDense.init_agrees_iff {memory : FreeList} :
    Agrees methods accepts (init heap memory) PageList.empty ↔ memory = noFreePages := by
  constructor
  · intro h
    obtain ⟨queue, hdeque, horder⟩ := h.freeList
    obtain rfl : queue = [] := List.map_eq_nil_iff.mp horder
    exact freeOk_iff.mp ⟨hdeque, List.nodup_nil, h.numPagesFree⟩
  · intro hmemory
    have hrefined : Refined accepts False Inv (init heap memory) [] [] PageList.empty :=
      refined_init (init_inv heap memory) hmemory
    exact hrefined.agrees lawful

/-- An entry with other links fails the assertion of `enqueueFreeList`. -/
theorem joinFreeList_none {T : Type} {s : State T} {p : ℕ} (h : ¬ Unlinked s.heap p) :
    s.joinFreeList p = none := by
  have hnot : enqueueFreeList (s.heap.setFree p true) s.freeList p = none :=
    if_neg fun hall => h ⟨hall.1, hall.2.1⟩
  rw [State.joinFreeList, hnot]
  rfl

/-- **The sets of pages agree with a map from offsets to descriptors and a queue of free
pages.** -/
theorem run_agrees : (∀ {c}, (machine PageSet.methods PageSet.accepts).Run
        (some (PageSet.init heap), PageList.empty) ops c →
      ∃ s, c.1 = some s ∧ Agrees PageSet.methods PageSet.accepts s c.2 ∧
        PageSet.NoneBelow s.table) ∧
    (∀ {c}, (machine PageListTable.methods PageListTable.accepts).Run
        (some (PageListTable.init heap), PageList.empty) ops c →
      ∃ s, c.1 = some s ∧ Agrees PageListTable.methods PageListTable.accepts s c.2 ∧
        ∀ offset, PageListTable.getNext s offset = PageListTable.getNextUncached s offset) ∧
    ∀ {memory c}, memory = noFreePages →
      (clearMachine PageSetDense.methods PageSetDense.accepts).Run
        (some (PageSetDense.init heap memory), PageList.empty) ops c →
      ∃ s, c.1 = some s ∧ Agrees PageSetDense.methods PageSetDense.accepts s c.2 := by
  refine ⟨?_, ?_, ?_⟩
  · intro c hrun
    obtain ⟨s, all, queue, hs, hrefined⟩ := run_refined PageSet.lawful rfl
      (fun s l op hadm => ⟨hadm s rfl, .inl trivial⟩)
      (refined_init (PageSet.init_inv heap) rfl) hrun
    exact ⟨s, hs, hrefined.agrees PageSet.lawful, hrefined.inv.noneBelow⟩
  · intro c hrun
    obtain ⟨s, all, queue, hs, hrefined⟩ := run_refined PageListTable.lawful rfl
      (fun s l op hadm => ⟨hadm s rfl, .inl trivial⟩)
      (refined_init (PageListTable.init_inv heap) rfl) hrun
    exact ⟨s, hs, hrefined.agrees PageListTable.lawful,
      PageListTable.getNext_eq hrefined.inv hrefined.keys_nodup⟩
  · intro memory c hmemory hrun
    obtain ⟨s, all, queue, hs, hrefined⟩ := run_refined
      (N := clearMachine PageSetDense.methods PageSetDense.accepts) PageSetDense.lawful rfl
      (fun s l op hadm => ⟨hadm.1 s rfl, .inr (hadm.2 s rfl)⟩)
      (refined_init (PageSetDense.init_inv heap memory) hmemory) hrun
    exact ⟨s, hs, hrefined.agrees PageSetDense.lawful⟩

/-- Memory in which every word is zero. -/
def zeroHeap : PageHeap where
  entry _ := { PageDesc.init none with fileOffset := 0 }
  next _ := none
  freeLinks := ⟨fun _ => none, fun _ => none⟩

/-- A page is put into a hash table and then on the free list. -/
def enqueueAndFree : List Op :=
  [.enqueue 4096 none (some ⟨7, some 3, none⟩) true, .enqueueFreeList 4096]

theorem enqueueAndFree_admits : (machine PageSet.methods PageSet.accepts).Admits
    (some (PageSet.init zeroHeap), PageList.empty) enqueueAndFree := by
  refine ⟨?_, ?_, trivial⟩
  · rintro s hs
    obtain rfl := Option.some.inj hs
    refine ⟨trivial, trivial, rfl, ?_⟩
    intro n _ o _ hfind
    obtain ⟨p, hp, hfinds⟩ := PageSet.find_spec (PageSet.init_inv zeroHeap) o
    obtain rfl : p = some n.addr := Option.some.inj (hp.symm.trans hfind)
    exact nomatch hfinds.1
  · exact fun s hs => ⟨PageDesc.init none, by decide, rfl⟩

theorem run_agrees_enqueueAndFree : ∃ s, ((enqueueAndFree.foldl
      (machine PageSet.methods PageSet.accepts).step
      (some (PageSet.init zeroHeap), PageList.empty)).1 = some s ∧
        s.numPages = 1 ∧ s.freeList.numPagesFree = 1) ∧
    ∃ t, some (PageSetDense.init zeroHeap noFreePages) = some t ∧
      Agrees PageSetDense.methods PageSetDense.accepts t PageList.empty := by
  obtain ⟨s, hs, hagrees, -⟩ := run_agrees.1 enqueueAndFree_admits.run
  refine ⟨s, ⟨hs, hagrees.numPages.trans ?_, hagrees.numPagesFree.trans ?_⟩, ?_⟩
  · decide
  · decide
  · exact run_agrees.2.2 rfl .nil

/-- In other memory a set of the last class counts free pages that it does not have. -/
theorem not_run_agrees : ¬ ∀ (heap : PageHeap) (memory : FreeList) (ops : List Op)
    (c : Option (State PageSetDenseTable) × PageList),
    (machine PageSetDense.methods PageSetDense.accepts).Run
      (some (PageSetDense.init heap memory), PageList.empty) ops c →
    ∃ s, c.1 = some s ∧ Agrees PageSetDense.methods PageSetDense.accepts s c.2 := by
  intro hall
  obtain ⟨s, hs, hagrees⟩ := hall zeroHeap ⟨none, none, 1⟩ [] _ .nil
  obtain rfl := Option.some.inj hs
  exact absurd (PageSetDense.init_agrees_iff.mp hagrees) (by decide)

end PageSets

end K42
