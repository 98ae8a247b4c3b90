import K42.Lib.HoleHeap
import K42.Exception.KernelTimer

/-!
# The heap of the dispatch queue

A binary heap of at most sixteen CPU domains, ordered by a copy of their priorities.
Each operation is described by what it does to the multiset of the elements, and keeps
the order of the heap.
-/

open Function (update)

namespace K42

/-- The assertions of the queue, its heap, the domains and the annexes. -/
inductive DispatchAssert
  | heapEmpty | heapAboutToBeEmpty | heapOverflow | domainNotInHeap
  | removingDispatchedCDA | staleQuantum | noProcessAnnexes | currentNotRunnable
  | wrongDomain | notInRing | alreadyAttached | notAttached | reschedulingKernel | wrongThread
deriving DecidableEq

namespace DispatchHeap

structure Element where
  priority : SysTime
  cda : ℕ
deriving DecidableEq

end DispatchHeap

structure DispatchHeap where
  count : ℕ
  element : ℕ → DispatchHeap.Element

namespace DispatchHeap

open HoleHeap

abbrev HEAP_SIZE : ℕ := 16

def getHead (heap : DispatchHeap) : Except DispatchAssert ℕ :=
  if heap.count = 0 then .error .heapEmpty else .ok (heap.element 0).cda

/-- `replaceHead`: the head goes, and the new element takes its place. -/
def replaceHead (heap : DispatchHeap) (e : Element) : Except DispatchAssert DispatchHeap :=
  if heap.count = 0 then .error .heapEmpty
  else
    let (a, hole) := siftDown Element.priority e.priority heap.count heap.count heap.element 0
    .ok ⟨heap.count, update a hole e⟩

def deleteHead (heap : DispatchHeap) : Except DispatchAssert DispatchHeap :=
  if heap.count ≤ 1 then .error .heapAboutToBeEmpty
  else replaceHead ⟨heap.count - 1, heap.element⟩ (heap.element (heap.count - 1))

def insert (heap : DispatchHeap) (e : Element) : Except DispatchAssert DispatchHeap :=
  if HEAP_SIZE ≤ heap.count then .error .heapOverflow
  else
    let (a, hole) := siftUp Element.priority e.priority heap.count heap.element heap.count
    .ok ⟨heap.count + 1, update a hole e⟩

/-- The linear search of `swap`. -/
def search (element : ℕ → Element) (cda : ℕ) : ℕ → Option ℕ
  | 0 => none
  | n + 1 =>
    match search element cda n with
    | some hole => some hole
    | none => if (element n).cda = cda then some n else none

/-- The new element takes the place of `oldCDA`. -/
def swap (heap : DispatchHeap) (e : Element) (oldCDA : ℕ) : Except DispatchAssert DispatchHeap :=
  if heap.count = 0 then .error .heapEmpty
  else
    match search heap.element oldCDA heap.count with
    | none => .error .domainNotInHeap
    | some hole =>
      let (a, hole) := siftUp Element.priority e.priority hole heap.element hole
      let (a, hole) := siftDown Element.priority e.priority heap.count heap.count a hole
      .ok ⟨heap.count, update a hole e⟩

def remove (heap : DispatchHeap) (cda : ℕ) : Except DispatchAssert DispatchHeap :=
  if heap.count ≤ 1 then .error .heapAboutToBeEmpty
  else
    let last := heap.element (heap.count - 1)
    if last.cda ≠ cda then swap ⟨heap.count - 1, heap.element⟩ last cda
    else .ok ⟨heap.count - 1, heap.element⟩

/-! ## What the operations do -/

variable {heap heap' : DispatchHeap} {e : Element} {cda : ℕ}

def elements (heap : DispatchHeap) : Multiset Element := contents heap.count heap.element

/-- The domains in the heap. -/
def domains (heap : DispatchHeap) : Multiset ℕ := heap.elements.map Element.cda

theorem card_elements (heap : DispatchHeap) : heap.elements.card = heap.count :=
  card_contents _ _

theorem card_domains (heap : DispatchHeap) : heap.domains.card = heap.count := by
  rw [domains, Multiset.card_map, card_elements]

theorem getHead_ok (hcount : 0 < heap.count) : heap.getHead = .ok (heap.element 0).cda :=
  if_neg (by omega)

theorem getHead_mem (hcount : 0 < heap.count) : heap.element 0 ∈ heap.elements :=
  mem_contents.mpr ⟨0, hcount, rfl⟩

theorem replaceHead_ok (hcount : 0 < heap.count) (e : Element) :
    ∃ heap', heap.replaceHead e = .ok heap' ∧
      heap.element 0 ::ₘ heap'.elements = e ::ₘ heap.elements := by
  have hsift := siftDown_contents Element.priority e.priority e heap.count (a := heap.element) hcount
  refine ⟨_, if_neg (by omega), ?_⟩
  show _ ::ₘ contents heap.count (update _ _ e) = _
  rw [hsift.2, contents_update hcount]
  rfl

theorem deleteHead_ok (hcount : 1 < heap.count) :
    ∃ heap', heap.deleteHead = .ok heap' ∧ heap.elements = heap.element 0 ::ₘ heap'.elements := by
  obtain ⟨n, hn⟩ : ∃ n, heap.count = n + 1 := ⟨heap.count - 1, by omega⟩
  have hsmaller : 0 < (⟨n, heap.element⟩ : DispatchHeap).count := by
    simp only
    omega
  obtain ⟨heap', hok, helements⟩ := replaceHead_ok hsmaller (heap.element n)
  refine ⟨heap', ?_, ?_⟩
  · rw [deleteHead, if_neg (by omega), hn]
    exact hok
  · have hlast : heap.elements = heap.element n ::ₘ contents n heap.element := by
      rw [elements, hn, contents_succ]
    rw [hlast]
    exact helements.symm

theorem insert_ok (hcount : heap.count < HEAP_SIZE) (e : Element) :
    ∃ heap', heap.insert e = .ok heap' ∧ heap'.elements = e ::ₘ heap.elements := by
  have hsift := siftUp_contents Element.priority e.priority e heap.count (a := heap.element)
    (Nat.lt_succ_self heap.count)
  refine ⟨_, if_neg (by omega), ?_⟩
  show contents (heap.count + 1) (update _ _ e) = _
  rw [hsift.2, contents_succ, Function.update_self, contents_update_of_le le_rfl]
  rfl

theorem search_eq_some {a : ℕ → Element} {n hole : ℕ} (h : search a cda n = some hole) :
    hole < n ∧ (a hole).cda = cda := by
  induction n with
  | zero => cases h
  | succ n ih =>
    rw [search] at h
    split at h
    · rename_i hole' hfound
      cases h
      exact ⟨(ih hfound).1.trans (Nat.lt_succ_self n), (ih hfound).2⟩
    · split at h
      · cases h
        exact ⟨Nat.lt_succ_self _, by assumption⟩
      · cases h

theorem search_eq_none {a : ℕ → Element} {n : ℕ} (h : search a cda n = none) :
    ∀ i < n, (a i).cda ≠ cda := by
  induction n with
  | zero => exact fun i hi => absurd hi (Nat.not_lt_zero i)
  | succ n ih =>
    rw [search] at h
    split at h
    · cases h
    · rename_i hfound
      split at h
      · cases h
      · intro i hi
        rcases Nat.lt_succ_iff_lt_or_eq.mp hi with hlt | rfl
        · exact ih hfound i hlt
        · assumption

theorem swap_cases (heap : DispatchHeap) (e : Element) (oldCDA : ℕ) :
    (∃ heap' old, heap.swap e oldCDA = .ok heap' ∧ old.cda = oldCDA ∧
        old ::ₘ heap'.elements = e ::ₘ heap.elements) ∨
      ((∃ err, heap.swap e oldCDA = .error err) ∧ oldCDA ∉ heap.domains) := by
  by_cases hcount : heap.count = 0
  · refine .inr ⟨⟨.heapEmpty, if_pos hcount⟩, ?_⟩
    rw [domains, elements, hcount]
    exact Multiset.notMem_zero oldCDA
  cases hsearch : search heap.element oldCDA heap.count with
  | none =>
    refine .inr ⟨⟨.domainNotInHeap, ?_⟩, ?_⟩
    · rw [swap, if_neg hcount, hsearch]
    · intro hmem
      obtain ⟨x, hx, rfl⟩ := Multiset.mem_map.mp hmem
      obtain ⟨i, hi, rfl⟩ := mem_contents.mp hx
      exact search_eq_none hsearch i hi rfl
  | some hole =>
    obtain ⟨hhole, hcda⟩ := search_eq_some hsearch
    have hup := siftUp_contents Element.priority e.priority e hole (a := heap.element) hhole
    have hdown := siftDown_contents Element.priority e.priority e heap.count
      (a := (siftUp Element.priority e.priority hole heap.element hole).1) hup.1
    rw [swap, if_neg hcount, hsearch]
    refine .inl ⟨_, heap.element hole, rfl, hcda, ?_⟩
    show _ ::ₘ contents heap.count (update _ _ e) = _
    rw [hdown.2, hup.2, contents_update hhole]
    rfl

theorem remove_cases (heap : DispatchHeap) (cda : ℕ) :
    (∃ heap' old, heap.remove cda = .ok heap' ∧ old.cda = cda ∧
        heap.elements = old ::ₘ heap'.elements) ∨
      ((∃ err, heap.remove cda = .error err) ∧ (heap.count ≤ 1 ∨ cda ∉ heap.domains)) := by
  by_cases hcount : heap.count ≤ 1
  · exact .inr ⟨⟨.heapAboutToBeEmpty, if_pos hcount⟩, .inl hcount⟩
  obtain ⟨n, hn⟩ : ∃ n, heap.count = n + 1 := ⟨heap.count - 1, by omega⟩
  have hlast : heap.elements = heap.element n ::ₘ contents n heap.element := by
    rw [elements, hn, contents_succ]
  rw [remove, if_neg hcount]
  simp only [hn, Nat.add_sub_cancel]
  by_cases hcda : (heap.element n).cda = cda
  · rw [if_neg (not_not_intro hcda)]
    exact .inl ⟨_, _, rfl, hcda, hlast⟩
  · rw [if_pos hcda]
    rcases swap_cases ⟨n, heap.element⟩ (heap.element n) cda with
      ⟨heap', old, hok, hold, helements⟩ | ⟨herr, hnot⟩
    · exact .inl ⟨heap', old, hok, hold, by rw [hlast]; exact helements.symm⟩
    · refine .inr ⟨herr, .inr ?_⟩
      rw [domains, hlast, Multiset.map_cons, Multiset.mem_cons]
      rintro (heq | hmem)
      · exact hcda heq.symm
      · exact hnot hmem

/-! ## The order of the heap -/

@[reducible]
def sysTimeOrder : LinearOrder SysTime where
  le_refl := UInt64.le_refl
  le_trans _ _ _ := UInt64.le_trans
  le_antisymm _ _ := UInt64.le_antisymm
  le_total := UInt64.le_total
  lt_iff_le_not_ge a b := by
    rw [UInt64.not_le]
    exact ⟨fun h => ⟨UInt64.le_of_lt h, h⟩, And.right⟩
  toDecidableLE := inferInstance
  toDecidableLT := inferInstance
  toDecidableEq := inferInstance

attribute [local instance] sysTimeOrder

/-- The binary min-heap order on the priorities. -/
def InOrder (heap : DispatchHeap) : Prop := Ordered Element.priority heap.count heap.element

/-- `getHead` gives a domain of least priority. -/
def HeadLeast (heap : DispatchHeap) : Prop :=
  0 < heap.count → ∃ e ∈ heap.elements, heap.getHead = .ok e.cda ∧
    ∀ e' ∈ heap.elements, e.priority ≤ e'.priority

section

variable (h : heap.InOrder)

include h

theorem InOrder.headLeast : heap.HeadLeast := by
  intro hcount
  refine ⟨heap.element 0, getHead_mem hcount, getHead_ok hcount, ?_⟩
  intro e' he'
  obtain ⟨i, hi, rfl⟩ := mem_contents.1 he'
  exact h.head_le i hi

theorem InOrder.shorten {n : ℕ} (hn : n ≤ heap.count) :
    InOrder ⟨n, heap.element⟩ :=
  fun i hi hpos => h i (Nat.lt_of_lt_of_le hi hn) hpos

theorem InOrder.replaceHead (hok : heap.replaceHead e = .ok heap') :
    heap'.InOrder ∧ heap'.count = heap.count := by
  rw [DispatchHeap.replaceHead] at hok
  split at hok
  · cases hok
  · rename_i hcount
    have hhole := Ordered.toHole h (Nat.pos_of_ne_zero hcount)
    have habove : Above Element.priority e.priority heap.element 0 :=
      fun hpos => absurd hpos (Nat.lt_irrefl 0)
    obtain ⟨hhole', habove', hbelow'⟩ := siftDown_hole heap.count hhole habove (by omega)
    cases hok
    exact ⟨hhole'.fill habove' hbelow', rfl⟩

theorem InOrder.deleteHead (hok : heap.deleteHead = .ok heap') :
    heap'.InOrder ∧ heap'.count + 1 = heap.count := by
  rw [DispatchHeap.deleteHead] at hok
  split at hok
  · cases hok
  · rename_i hcount
    obtain ⟨horder, hsame⟩ := (h.shorten (Nat.sub_le _ 1)).replaceHead hok
    refine ⟨horder, ?_⟩
    rw [hsame]
    exact Nat.sub_add_cancel (by omega)

theorem InOrder.insert (hok : heap.insert e = .ok heap') :
    heap'.InOrder ∧ heap'.count = heap.count + 1 ∧ heap'.count ≤ HEAP_SIZE := by
  rw [DispatchHeap.insert] at hok
  split at hok
  · cases hok
  · rename_i hcount
    -- the hole is behind the last element
    have hhole : Hole Element.priority (heap.count + 1) heap.element heap.count := by
      refine ⟨Nat.lt_succ_self _, ?_, ?_⟩
      · intro i hi hpos hne _
        exact h i (by omega) hpos
      · intro i hi _ hparent _
        omega
    have hbelow : Below Element.priority e.priority (heap.count + 1) heap.element heap.count := by
      intro i hi hpos hparent
      omega
    obtain ⟨hhole', habove', hbelow'⟩ :=
      siftUp_hole (k := e.priority) heap.count hhole le_rfl
    cases hok
    exact ⟨hhole'.fill habove' (hbelow' hbelow), rfl, by simp only; omega⟩

theorem InOrder.swap (hok : heap.swap e cda = .ok heap') :
    heap'.InOrder ∧ heap'.count = heap.count := by
  rw [DispatchHeap.swap] at hok
  split at hok
  · cases hok
  · split at hok
    · cases hok
    · rename_i hole hsearch
      have hhole := Ordered.toHole h (search_eq_some hsearch).1
      obtain ⟨hup, habove, -⟩ := siftUp_hole (k := e.priority) hole hhole le_rfl
      obtain ⟨hdown, habove', hbelow'⟩ := siftDown_hole heap.count hup habove (by omega)
      cases hok
      exact ⟨hdown.fill habove' hbelow', rfl⟩

end

theorem mem_domains_of_swap (hok : heap.swap e cda = .ok heap') : cda ∈ heap.domains := by
  rw [DispatchHeap.swap] at hok
  split at hok
  · cases hok
  · split at hok
    · cases hok
    · rename_i hole hsearch
      obtain ⟨hlt, hcda⟩ := search_eq_some hsearch
      rw [← hcda]
      exact Multiset.mem_map_of_mem _ (mem_contents.2 ⟨hole, hlt, rfl⟩)

theorem InOrder.remove (h : heap.InOrder) (hok : heap.remove cda = .ok heap') :
    heap'.InOrder ∧ heap'.count + 1 = heap.count := by
  rw [DispatchHeap.remove] at hok
  split at hok
  · cases hok
  · rename_i hcount
    have hshort := h.shorten (Nat.sub_le heap.count 1)
    have hlast : heap.count - 1 + 1 = heap.count := by omega
    simp only at hok
    split at hok
    · obtain ⟨horder, hsame⟩ := hshort.swap hok
      refine ⟨horder, ?_⟩
      rw [hsame]
      exact hlast
    · cases hok
      exact ⟨hshort, hlast⟩

/-! ### All operations -/

inductive Edit
  | insert (e : Element)
  | replaceHead (e : Element)
  | deleteHead
  | remove (cda : ℕ)
  | swap (e : Element) (oldCDA : ℕ)

def Edit.run (heap : DispatchHeap) : Edit → Except DispatchAssert DispatchHeap
  | .insert e => heap.insert e
  | .replaceHead e => heap.replaceHead e
  | .deleteHead => heap.deleteHead
  | .remove cda => heap.remove cda
  | .swap e oldCDA => heap.swap e oldCDA

/-- The assertions of the operation. -/
def Edit.Allowed (heap : DispatchHeap) : Edit → Prop
  | .insert _ => heap.count < HEAP_SIZE
  | .replaceHead _ => 0 < heap.count
  | .deleteHead => 1 < heap.count
  | .remove cda => 1 < heap.count ∧ cda ∈ heap.domains
  | .swap _ oldCDA => oldCDA ∈ heap.domains

/-- What the operation is to do with the pairs of a priority and a domain. -/
def Edit.Does (heap heap' : DispatchHeap) : Edit → Prop
  | .insert e => heap'.elements = e ::ₘ heap.elements
  | .replaceHead e => heap.element 0 ::ₘ heap'.elements = e ::ₘ heap.elements
  | .deleteHead => heap.elements = heap.element 0 ::ₘ heap'.elements
  | .remove cda => ∃ old, old.cda = cda ∧ heap.elements = old ::ₘ heap'.elements
  | .swap e oldCDA => ∃ old, old.cda = oldCDA ∧ old ::ₘ heap'.elements = e ::ₘ heap.elements

theorem Edit.run_does (heap : DispatchHeap) (edit : Edit) :
    (edit.Allowed heap → ∃ heap', edit.run heap = .ok heap' ∧ edit.Does heap heap') ∧
      (¬ edit.Allowed heap → ∃ err, edit.run heap = .error err) := by
  cases edit with
  | insert e =>
    exact ⟨fun h => insert_ok h e, fun h => ⟨.heapOverflow, if_pos (Nat.le_of_not_lt h)⟩⟩
  | replaceHead e =>
    refine ⟨fun h => replaceHead_ok h e, fun h => ⟨.heapEmpty, if_pos ?_⟩⟩
    exact Nat.eq_zero_of_not_pos h
  | deleteHead =>
    exact ⟨fun h => deleteHead_ok h, fun h => ⟨.heapAboutToBeEmpty, if_pos (Nat.le_of_not_lt h)⟩⟩
  | remove cda =>
    rcases remove_cases heap cda with ⟨heap', old, hok, hold, helements⟩ | ⟨herr, hnot⟩
    · refine ⟨fun _ => ⟨heap', hok, old, hold, helements⟩, fun h => absurd ⟨?_, ?_⟩ h⟩
      · by_contra hcount
        have herr : heap.remove cda = .error .heapAboutToBeEmpty :=
          if_pos (Nat.le_of_not_lt hcount)
        rw [herr] at hok
        cases hok
      · rw [domains, helements, Multiset.map_cons, hold]
        exact Multiset.mem_cons_self cda _
    · refine ⟨fun h => ?_, fun _ => herr⟩
      rcases hnot with hcount | hdomains
      · exact absurd h.1 (Nat.not_lt_of_le hcount)
      · exact absurd h.2 hdomains
  | swap e oldCDA =>
    rcases swap_cases heap e oldCDA with ⟨heap', old, hok, hold, helements⟩ | ⟨herr, hnot⟩
    · refine ⟨fun _ => ⟨heap', hok, old, hold, helements⟩, fun h => absurd ?_ h⟩
      exact mem_domains_of_swap hok
    · exact ⟨fun h => absurd h hnot, fun _ => herr⟩

theorem InOrder.edit (h : heap.InOrder) (hcount : heap.count ≤ HEAP_SIZE) {edit : Edit}
    (hok : edit.run heap = .ok heap') : heap'.InOrder ∧ heap'.count ≤ HEAP_SIZE := by
  cases edit with
  | insert e => exact ⟨(h.insert hok).1, (h.insert hok).2.2⟩
  | replaceHead e =>
    obtain ⟨horder, hsame⟩ := h.replaceHead hok
    exact ⟨horder, hsame ▸ hcount⟩
  | deleteHead =>
    obtain ⟨horder, hless⟩ := h.deleteHead hok
    exact ⟨horder, by omega⟩
  | remove cda =>
    obtain ⟨horder, hless⟩ := h.remove hok
    exact ⟨horder, by omega⟩
  | swap e oldCDA =>
    obtain ⟨horder, hsame⟩ := h.swap hok
    exact ⟨horder, hsame ▸ hcount⟩

/-- Every operation on a heap in order that its assertions allow does what it is to do and leaves
a heap in order, with a least element at its head; one that they do not allow fails. -/
theorem edit_keeps_order (heap : DispatchHeap) (horder : heap.InOrder)
    (hcount : heap.count ≤ HEAP_SIZE) :
    heap.HeadLeast ∧
      ∀ edit : Edit,
        (edit.Allowed heap → ∃ heap', edit.run heap = .ok heap' ∧ edit.Does heap heap' ∧
          heap'.InOrder ∧ heap'.count ≤ HEAP_SIZE ∧ heap'.HeadLeast) ∧
        (¬ edit.Allowed heap → ∃ err, edit.run heap = .error err) := by
  refine ⟨horder.headLeast, fun edit => ⟨fun hallowed => ?_, (edit.run_does heap).2⟩⟩
  obtain ⟨heap', hok, hdoes⟩ := (edit.run_does heap).1 hallowed
  obtain ⟨horder', hcount'⟩ := horder.edit hcount hok
  exact ⟨heap', hok, hdoes, horder', hcount', horder'.headLeast⟩

/-- A full heap of sixteen domains, each with its number as its priority. -/
def numbered : DispatchHeap := ⟨HEAP_SIZE, fun i => ⟨UInt64.ofNat i, i⟩⟩

theorem edit_keeps_order_numbered :
    ∃ heap', numbered.remove 3 = .ok heap' ∧ heap'.InOrder ∧ heap'.HeadLeast := by
  have horder : numbered.InOrder := by
    unfold InOrder Ordered
    decide
  have hallowed : (Edit.remove 3).Allowed numbered := ⟨by decide, by decide⟩
  obtain ⟨heap', hok, -, horder', -, hleast⟩ :=
    ((edit_keeps_order numbered horder le_rfl).2 (.remove 3)).1 hallowed
  exact ⟨heap', hok, horder', hleast⟩

end DispatchHeap

end K42
