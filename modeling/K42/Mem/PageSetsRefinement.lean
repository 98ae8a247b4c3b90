import K42.Mem.PageSets
import Mathlib.Data.List.Find

/-!
# Sets of pages refine a map with a queue

`Refined` relates the pages in the table and on the free list to the map. Each operation of
a lawful table keeps it, and what it says includes `Agrees`.
-/

open Function (update_of_ne update_self)

open List (mem_cons mem_cons_of_mem map_cons mem_map mem_map_of_mem length_map)

namespace K42

namespace PageSets

open Linked Buckets

universe u

variable {T : Type u} {M : Methods T} {A : Accepts} {clears : Prop}
  {inv : State T → List ℕ → Prop} {s s' : State T} {all all' queue queue' : List ℕ} {l : PageList}
  {p q off : ℕ} {pg : PageDesc}

/-- The pages `all` of the table and the pages `queue` of the free list are those of `l`. -/
structure Refined (A : Accepts) (clears : Prop) (inv : State T → List ℕ → Prop) (s : State T)
    (all queue : List ℕ) (l : PageList) : Prop where
  inv : inv s all
  accepted : ∀ p ∈ all, A.offset (key s p)
  keys : (all.map (key s)).Perm l.entries.keys
  desc : ∀ p ∈ all, l.find (key s p) = some (s.heap.entry p).toPageDesc
  free : FreeOk s.heap s.freeList queue
  subset : ∀ p ∈ queue, p ∈ all
  order : queue.map (key s) = l.freeList
  unlinked : clears → ∀ p ∈ all, p ∉ queue → Unlinked s.heap p
  listed : l.Listed

namespace Refined

section

variable (h : Refined A clears inv s all queue l)

include h

theorem keys_nodup : (all.map (key s)).Nodup :=
  h.keys.nodup_iff.mpr l.entries.keys_nodup

theorem key_inj (hp : p ∈ all) (hq : q ∈ all) (heq : key s p = key s q) : p = q :=
  List.inj_on_of_nodup_map h.keys_nodup hp hq heq

theorem find_of_finds {r : Option ℕ}
    (hfinds : Finds (key s) all off r) : l.find off = r.map fun q => (s.heap.entry q).toPageDesc := by
  cases r with
  | none =>
    refine AList.lookup_eq_none.mpr fun hmem => ?_
    obtain ⟨p, hp, hkey⟩ := mem_map.mp (h.keys.mem_iff.mpr hmem)
    exact hfinds p hp hkey
  | some q =>
    obtain ⟨hq, rfl⟩ := hfinds
    exact h.desc q hq

theorem mem_queue (hp : p ∈ all) :
    p ∈ queue ↔ (s.heap.entry p).free = true := by
  rw [← h.listed.mem_iff (h.desc p hp), ← h.order, mem_map]
  constructor
  · exact fun hmem => ⟨p, hmem, rfl⟩
  · rintro ⟨q, hq, hkey⟩
    exact h.key_inj (h.subset q hq) hp hkey ▸ hq

end

end Refined

/-! ## The free list beside the descriptors -/

theorem FreeOk.of_links {h h' : PageHeap} {f : FreeList} (hok : FreeOk h f queue)
    (hnext : ∀ p ∈ queue, h'.freeLinks.next p = h.freeLinks.next p)
    (hprev : ∀ p ∈ queue, h'.freeLinks.prev p = h.freeLinks.prev p) : FreeOk h' f queue :=
  ⟨hok.deque.congr hnext hprev, hok.nodup, hok.count⟩

theorem key_setDesc (h : PageHeap) (p : ℕ) (d : PageDesc) (q : ℕ) :
    ((h.setDesc p d).entry q).fileOffset = (h.entry q).fileOffset := by
  simp only [PageHeap.setDesc, PageHeap.setEntry]
  by_cases hqp : q = p
  · subst hqp
    rw [update_self]
  · rw [update_of_ne hqp]

theorem map_erase {f : ℕ → ℕ} (hinj : ∀ q ∈ queue, f q = f p → q = p) (hp : p ∈ queue) :
    (queue.erase p).map f = (queue.map f).erase (f p) := by
  induction queue with
  | nil => cases hp
  | cons a queue ih =>
    by_cases hap : a = p
    · subst hap
      rw [List.erase_cons_head, map_cons, List.erase_cons_head]
    · have hne : f a ≠ f p := fun heq => hap (hinj a List.mem_cons_self heq)
      have hp : p ∈ queue := List.mem_of_ne_of_mem (Ne.symm hap) hp
      rw [List.erase_cons_tail (by simpa using hap), map_cons, map_cons,
        List.erase_cons_tail (by simpa using hne),
        ih (fun q hq => hinj q (mem_cons_of_mem a hq)) hp]

/-! ## What the operations keep -/

section

variable (hM : Lawful M A clears inv) (h : Refined A clears inv s all queue l)

include hM h

omit hM in
theorem Refined.retable (hinv : inv s' all')
    (hall : all'.Perm all) (hentry : s'.heap.entry = s.heap.entry)
    (hlinks : s'.heap.freeLinks = s.heap.freeLinks) (hfree : s'.freeList = s.freeList) :
    Refined A clears inv s' all' queue l := by
  have hkey : key s' = key s := by
    funext p
    rw [key, key, hentry]
  refine ⟨hinv, ?_, ?_, ?_, ?_, ?_, ?_, ?_, h.listed⟩
  · intro p hp
    rw [hkey]
    exact h.accepted p (hall.mem_iff.mp hp)
  · rw [hkey]
    exact (hall.map _).trans h.keys
  · intro p hp
    rw [hkey, hentry]
    exact h.desc p (hall.mem_iff.mp hp)
  · rw [hfree]
    exact h.free.of_links (fun p _ => by rw [hlinks]) fun p _ => by rw [hlinks]
  · exact fun p hp => hall.mem_iff.mpr (h.subset p hp)
  · rw [hkey]
    exact h.order
  · intro hclears p hp hnot
    rw [Unlinked, hlinks]
    exact h.unlinked hclears p (hall.mem_iff.mp hp) hnot

theorem Refined.store (hp : p ∈ all) {L : Links ℕ} {f : FreeList}
    {fl : List ℕ} (hfree : FreeOk { s.heap with freeLinks := L } f queue')
    (hsubset : ∀ q ∈ queue', q ∈ all) (horder : queue'.map (key s) = fl)
    (hunlinked : clears → ∀ q ∈ all, q ∉ queue' → Unlinked { s.heap with freeLinks := L } q)
    (hlisted : PageList.Listed ⟨l.entries.insert (key s p) pg, fl⟩) :
    Refined A clears inv
      { s with heap := { s.heap.setDesc p pg with freeLinks := L }, freeList := f }
      all queue' ⟨l.entries.insert (key s p) pg, fl⟩ := by
  have hkey : ∀ q, ((s.heap.setDesc p pg).entry q).fileOffset = key s q := key_setDesc s.heap p pg
  have hkeys : (fun q => ((s.heap.setDesc p pg).entry q).fileOffset) = key s := funext hkey
  refine ⟨?_, ?_, ?_, ?_, ⟨hfree.deque, hfree.nodup, hfree.count⟩, hsubset, ?_, hunlinked, hlisted⟩
  · exact hM.stable h.inv hkey
  · intro q hq
    show A.offset ((s.heap.setDesc p pg).entry q).fileOffset
    rw [hkey]
    exact h.accepted q hq
  · show (all.map fun q => ((s.heap.setDesc p pg).entry q).fileOffset).Perm _
    rw [hkeys, AList.keys_insert]
    have hmem : key s p ∈ l.entries.keys := h.keys.mem_iff.mp (mem_map_of_mem hp)
    exact h.keys.trans (List.perm_cons_erase hmem)
  · intro q hq
    show PageList.find _ ((s.heap.setDesc p pg).entry q).fileOffset = _
    rw [hkey]
    by_cases hqp : q = p
    · subst hqp
      rw [PageList.find_insert]
      simp only [PageHeap.setDesc, PageHeap.setEntry, update_self]
    · have hne : key s q ≠ key s p := fun heq => hqp (h.key_inj hq hp heq)
      rw [PageList.find_insert_ne _ _ _ _ hne, h.desc q hq]
      simp only [PageHeap.setDesc, PageHeap.setEntry, update_of_ne hqp]
  · show (queue'.map fun q => ((s.heap.setDesc p pg).entry q).fileOffset) = _
    rw [hkeys]
    exact horder

theorem Refined.onPage (hpg : l.find off = some pg)
    (f : ℕ → Option (State T)) : ∃ p ∈ all, key s p = off ∧ (s.heap.entry p).toPageDesc = pg ∧
      M.find s off = some (some p) ∧ M.onPage s off f = f p := by
  have hmem : off ∈ l.entries.keys := AList.lookup_isSome.mp (by
    rw [show l.entries.lookup off = some pg from hpg]
    rfl)
  obtain ⟨p, hp, rfl⟩ := mem_map.mp (h.keys.mem_iff.mpr hmem)
  obtain ⟨r, hfind, hfinds⟩ := hM.find h.inv (h.accepted p hp)
  have hdesc := h.desc p hp
  have hr : r = some p := by
    cases r with
    | none => exact absurd rfl (hfinds p hp)
    | some q => rw [h.key_inj hfinds.1 hp hfinds.2]
  subst hr
  refine ⟨p, hp, rfl, ?_, hfind, ?_⟩
  · rw [hpg] at hdesc
    exact (Option.some.inj hdesc).symm
  · rw [Methods.onPage, hfind]
    rfl

theorem Refined.joinFreeList (hp : p ∈ all)
    (hclear : (s.heap.entry p).free = false) (hlinks : Unlinked s.heap p) :
    ∃ s', s.joinFreeList p = some s' ∧
      Refined A clears inv s' all (queue ++ [p])
        (l.enqueueFreeList (key s p) (s.heap.entry p).toPageDesc) := by
  have hnot : p ∉ queue := by
    rw [h.mem_queue hp, hclear]
    exact Bool.false_ne_true
  have hoff : key s p ∉ l.freeList := by
    rw [h.listed.mem_iff (h.desc p hp), hclear]
    exact Bool.false_ne_true
  have hok : FreeOk (s.heap.setFree p true) s.freeList queue :=
    ⟨h.free.deque, h.free.nodup, h.free.count⟩
  have hset : ((s.heap.setFree p true).entry p).free = true := by
    simp only [PageHeap.setFree, PageHeap.setDesc, PageHeap.setEntry, update_self]
  obtain ⟨L, f, henqueue, hfree, hothers⟩ := hok.enqueue hnot hset hlinks
  refine ⟨_, ?_, h.store hM hp ⟨hfree.deque, hfree.nodup, hfree.count⟩ ?_ ?_ ?_
    (h.listed.enqueueFreeList hoff)⟩
  · rw [State.joinFreeList, henqueue]
    rfl
  · intro q hq
    rcases List.mem_append.mp hq with hq | hq
    · exact h.subset q hq
    · exact List.mem_singleton.mp hq ▸ hp
  · rw [List.map_append, h.order]
    rfl
  · intro hclears q hq hnotq
    have hqp : q ≠ p := fun heq => hnotq (by simp [heq])
    have hnotq : q ∉ queue := fun hmem => hnotq (List.mem_append_left _ hmem)
    exact hothers q hnotq hqp (h.unlinked hclears q hq hnotq)

theorem Refined.leaveFreeList (hp : p ∈ all)
    (hset : (s.heap.entry p).free = true) : ∃ s', s.leaveFreeList p = some s' ∧
      Refined A clears inv s' all (queue.erase p)
        (l.dequeueFreeList (key s p) (s.heap.entry p).toPageDesc) := by
  have hmem : p ∈ queue := (h.mem_queue hp).mpr hset
  obtain ⟨L, f, hdequeue, hfree, hself, hothers⟩ := h.free.dequeue hmem hset
  refine ⟨_, ?_, h.store hM hp hfree ?_ ?_ ?_ h.listed.dequeueFreeList⟩
  · rw [State.leaveFreeList, hdequeue]
    rfl
  · exact fun q hq => h.subset q (List.mem_of_mem_erase hq)
  · rw [map_erase (fun q hq heq => h.key_inj (h.subset q hq) hp heq) hmem, h.order]
  · intro hclears q hq hnotq
    by_cases hqp : q = p
    · subst hqp
      exact hself
    · have hnotq : q ∉ queue := fun hin => hnotq ((List.mem_erase_of_ne hqp).mpr hin)
      exact hothers q hnotq (h.unlinked hclears q hq hnotq)

theorem Refined.enqueue_some {n : NewEntry} {paddr : Option ℕ}
    {tableAlloc : Bool} (hnew : A.new (some n)) (hoff : A.offset off) (hnone : l.find off = none)
    (hn : n.addr ∉ all) :
    ∃ s' r all', M.enqueue s tableAlloc (some n) off paddr = some (s', r) ∧
      Refined A clears inv s' all' queue (l.set off (PageDesc.init paddr)) := by
  have hoffkeys : off ∉ l.entries.keys := AList.lookup_eq_none.mp hnone
  have hne : ∀ p ∈ all, key s p ≠ off := fun p hp heq =>
    hoffkeys (heq ▸ h.keys.mem_iff.mp (mem_map_of_mem hp))
  obtain ⟨s', all', henqueue, hall, hinv, hfree, hentry, hlinks, hself⟩ :=
    hM.enqueue_some paddr tableAlloc h.inv hoff hnew hn hne
  have hold : ∀ p ∈ all, s'.heap.entry p = s.heap.entry p := by
    intro p hp
    rw [hentry, update_of_ne (fun heq : p = n.addr => hn (heq ▸ hp))]
  have hkey : ∀ p ∈ all, key s' p = key s p := by
    intro p hp
    rw [key, key, hold p hp]
  have hmap : ∀ m : List ℕ, (∀ p ∈ m, p ∈ all) → m.map (key s') = m.map (key s) :=
    fun m hm => List.map_congr_left fun p hp => hkey p (hm p hp)
  have hnkey : key s' n.addr = off := by
    rw [key, hentry, update_self]
  have hnotfree : off ∉ l.freeList := h.listed.not_mem hnone
  refine ⟨s', _, all', henqueue, hinv, ?_, ?_, ?_, ?_, ?_, ?_, ?_, ?_⟩
  · intro p hp
    rcases mem_cons.mp (hall.mem_iff.mp hp) with rfl | hp
    · rw [hnkey]
      exact hoff
    · rw [hkey p hp]
      exact h.accepted p hp
  · have hkeys : (l.set off (PageDesc.init paddr)).entries.keys = off :: l.entries.keys := by
      rw [PageList.set, AList.keys_insert, List.erase_of_not_mem hoffkeys]
    refine (hall.map _).trans ?_
    rw [map_cons, hnkey, hmap all fun p hp => hp, hkeys]
    exact h.keys.cons off
  · intro p hp
    rcases mem_cons.mp (hall.mem_iff.mp hp) with rfl | hp
    · rw [hnkey, hentry, update_self]
      exact PageList.find_insert _ _ _ _
    · rw [hkey p hp, hold p hp]
      exact (PageList.find_insert_ne _ _ _ _ (hne p hp)).trans (h.desc p hp)
  · rw [hfree]
    have hqn : ∀ p ∈ queue, p ≠ n.addr := fun p hp heq => hn (heq ▸ h.subset p hp)
    exact h.free.of_links (fun p hp => (hlinks p (hqn p hp)).1) fun p hp => (hlinks p (hqn p hp)).2
  · exact fun p hp => hall.mem_iff.mpr (mem_cons_of_mem _ (h.subset p hp))
  · rw [hmap queue h.subset]
    exact h.order
  · intro hclears p hp hnot
    rcases mem_cons.mp (hall.mem_iff.mp hp) with rfl | hp
    · exact hself hclears
    · obtain ⟨hnext, hprev⟩ := hlinks p fun heq => hn (heq ▸ hp)
      rw [Unlinked, hnext, hprev]
      exact h.unlinked hclears p hp hnot
  · exact h.listed.set (iff_of_false hnotfree Bool.false_ne_true)

theorem Refined.enqueue {new : Option NewEntry}
    {paddr : Option ℕ} {tableAlloc : Bool} (hnew : A.new new) (hoff : A.offset off)
    (hnone : l.find off = none) (hfresh : ∀ n ∈ new, n.addr ∉ all) :
    ∃ s' r all', M.enqueue s tableAlloc new off paddr = some (s', r) ∧
      Refined A clears inv s' all' queue (specStep l (.enqueue off paddr new tableAlloc)) := by
  cases new with
  | none =>
    obtain ⟨s', all', henqueue, hall, hinv, hfree, hentry, hlinks⟩ :=
      hM.enqueue_none paddr tableAlloc h.inv hoff hnew
    exact ⟨s', none, all', henqueue, h.retable hinv hall hentry hlinks hfree⟩
  | some n => exact h.enqueue_some hM hnew hoff hnone (hfresh n rfl)

omit hM in
theorem Refined.drop (hp : p ∈ all)
    (hall : all.Perm (p :: all')) (hentry : s'.heap.entry = s.heap.entry) (hinv : inv s' all')
    (hok : FreeOk s'.heap s'.freeList (queue.erase p))
    (hunlinked : clears → ∀ q ∈ all', q ∉ queue → Unlinked s'.heap q) :
    Refined A clears inv s' all' (queue.erase p) (l.remove (key s p)) := by
  have hnot : p ∉ all' := by
    have hnodup := (hall.map (key s)).nodup_iff.mp h.keys_nodup
    rw [map_cons] at hnodup
    exact fun hmem => (List.nodup_cons.mp hnodup).1 (mem_map_of_mem hmem)
  have hin : ∀ q ∈ all', q ∈ all := fun q hq => hall.mem_iff.mpr (mem_cons_of_mem p hq)
  have hkey : key s' = key s := by
    funext q
    rw [key, key, hentry]
  rw [h.listed.remove_eq]
  refine ⟨hinv, ?_, ?_, ?_, hok, ?_, ?_, ?_, h.listed.erase⟩
  · intro q hq
    rw [hkey]
    exact h.accepted q (hin q hq)
  · rw [hkey, AList.keys_erase]
    refine (List.perm_cons (key s p)).mp ?_
    rw [← map_cons]
    refine ((hall.map (key s)).symm.trans h.keys).trans (List.perm_cons_erase ?_)
    exact h.keys.mem_iff.mp (mem_map_of_mem hp)
  · intro q hq
    have hne : key s q ≠ key s p := fun heq => hnot (h.key_inj (hin q hq) hp heq ▸ hq)
    rw [hkey, hentry, PageList.find_erase_ne _ _ _ hne]
    exact h.desc q (hin q hq)
  · intro q hq
    have hqp : q ≠ p := fun heq => h.free.nodup.not_mem_erase (heq ▸ hq)
    have hqall := h.subset q (List.mem_of_mem_erase hq)
    exact (mem_cons.mp (hall.mem_iff.mp hqall)).resolve_left hqp
  · rw [hkey]
    by_cases hmem : p ∈ queue
    · rw [map_erase (fun q hq heq => h.key_inj (h.subset q hq) hp heq) hmem, h.order]
    · have hoffnot : key s p ∉ l.freeList := by
        rw [h.listed.mem_iff (h.desc p hp), ← h.mem_queue hp]
        exact hmem
      rw [List.erase_of_not_mem hmem, List.erase_of_not_mem hoffnot, h.order]
  · intro hclears q hq hnotq
    have hqp : q ≠ p := fun heq => hnot (heq ▸ hq)
    exact hunlinked hclears q hq fun hmem => hnotq ((List.mem_erase_of_ne hqp).mpr hmem)

theorem Refined.dequeue (hoff : A.offset off) :
    ∃ s' r all' queue', M.dequeue s off = some (s', r) ∧
      Refined A clears inv s' all' queue' (l.remove off) := by
  obtain ⟨s₁, r, htake, hfinds, hsame, hfree, hentry, hlinks, hrest⟩ := hM.takeOut h.inv hoff
  have hfind := h.find_of_finds hfinds
  rw [Methods.dequeue, htake, Option.bind_some]
  cases r with
  | none =>
    obtain rfl := hsame rfl
    have hremove : l.remove off = l := by
      rw [PageList.remove, hfind]
      rfl
    refine ⟨_, _, all, queue, rfl, ?_⟩
    rw [hremove]
    exact h
  | some p =>
    obtain ⟨hp, rfl⟩ := hfinds
    obtain ⟨all', hall, hinv⟩ := hrest p rfl
    have hin : ∀ q ∈ all', q ∈ all := fun q hq => hall.mem_iff.mpr (mem_cons_of_mem p hq)
    have hold : FreeOk s₁.heap s₁.freeList queue := by
      rw [hfree]
      exact h.free.of_links (fun q _ => by rw [hlinks]) fun q _ => by rw [hlinks]
    have holdlinks : clears → ∀ q ∈ all', q ∉ queue → Unlinked s₁.heap q := by
      intro hclears q hq hnot
      rw [Unlinked, hlinks]
      exact h.unlinked hclears q (hin q hq) hnot
    have hflag : p ∈ queue ↔ (s₁.heap.entry p).free = true := by
      rw [h.mem_queue hp, hentry]
    by_cases hset : (s₁.heap.entry p).free = true
    · obtain ⟨L, f, hdequeue, hok, -, hothers⟩ := hold.dequeue (hflag.mpr hset) hset
      let s₂ : State T :=
        { s₁ with heap := { s₁.heap with freeLinks := L }, freeList := f }
      refine ⟨s₂, some p, all', queue.erase p, ?_, ?_⟩
      · show (if (s₁.heap.entry p).free = true then _ else _) = _
        rw [if_pos hset, hdequeue]
        rfl
      · exact h.drop hp hall hentry (hM.stable hinv fun _ => rfl) hok
          fun hclears q hq hnot => hothers q hnot (holdlinks hclears q hq hnot)
    · have hnot : p ∉ queue := fun hmem => hset (hflag.mp hmem)
      refine ⟨s₁, some p, all', queue.erase p, if_neg hset, h.drop hp hall hentry hinv ?_ holdlinks⟩
      rw [List.erase_of_not_mem hnot]
      exact hold

omit hM in
theorem Refined.firstFree_eq (type : PageDesc.DqType) :
    (firstFree s.heap s.freeList type).map (key s) = l.firstFree type := by
  rw [h.free.firstFree, PageList.firstFree, ← h.order, List.find?_map]
  congr 1
  refine List.find?_congr fun p hp => ?_
  rw [Function.comp_apply, h.desc p (h.subset p hp), Option.any_some]

/-! ## Runs -/

/-- **Every operation keeps the refinement.** -/
theorem Refined.step {op : Op} (hadm : Admissible M A s l op)
    (hclear : clears ∨ ClearLinks M s op) :
    ∃ s' all' queue', M.step s op = some s' ∧ Refined A clears inv s' all' queue' (specStep l op) := by
  cases op with
  | enqueue off paddr new tableAlloc =>
    obtain ⟨hoff, hnew, hnone, hfresh⟩ := hadm
    have hfresh' : ∀ n ∈ new, n.addr ∉ all := by
      intro n hn hmem
      have hkey := h.accepted n.addr hmem
      obtain ⟨r, hfind, hfinds⟩ := hM.find h.inv hkey
      cases r with
      | none => exact hfinds n.addr hmem rfl
      | some q =>
        rw [h.key_inj hfinds.1 hmem hfinds.2] at hfind
        exact hfresh n hn _ hkey hfind
    obtain ⟨s', r, all', henqueue, hrefined⟩ :=
      h.enqueue hM hnew hoff hnone hfresh'
    refine ⟨s', all', queue, ?_, hrefined⟩
    rw [Methods.step, henqueue]
    rfl
  | remove off =>
    obtain ⟨s', r, all', queue', hdequeue, hrefined⟩ := h.dequeue hM hadm
    refine ⟨s', all', queue', ?_, hrefined⟩
    rw [Methods.step, hdequeue]
    rfl
  | getFirst =>
    obtain ⟨-, t, hfirst, hinv⟩ := hM.getFirst h.inv
    refine ⟨_, all, queue, congrArg some hfirst, h.retable hinv (.refl all) rfl rfl rfl⟩
  | getNext off =>
    obtain ⟨t, p, hnext, hinv⟩ := hM.getNext h.inv hadm
    refine ⟨_, all, queue, ?_, h.retable hinv (.refl all) rfl rfl rfl⟩
    rw [Methods.step, hnext]
    rfl
  | write off pg =>
    obtain ⟨pg', hpg', hflag⟩ := hadm
    obtain ⟨p, hp, rfl, hdesc, -, honPage⟩ := h.onPage hM hpg'
      fun p => some { s with heap := s.heap.setDesc p pg }
    have hlisted : key s p ∈ l.freeList ↔ pg.free = true := by
      rw [h.listed.mem_iff hpg', hflag]
    exact ⟨_, all, queue, honPage, h.store hM hp h.free h.subset h.order h.unlinked
      (h.listed.set hlisted)⟩
  | enqueueFreeList off =>
    obtain ⟨pg, hpg, hflag⟩ := hadm
    obtain ⟨p, hp, rfl, rfl, hfind, honPage⟩ := h.onPage hM hpg s.joinFreeList
    have hlinks : Unlinked s.heap p := by
      rcases hclear with hclears | hclear
      · refine h.unlinked hclears p hp ?_
        rw [h.mem_queue hp, hflag]
        exact Bool.false_ne_true
      · exact hclear p hfind
    obtain ⟨s', hjoin, hrefined⟩ := h.joinFreeList hM hp hflag hlinks
    refine ⟨s', all, queue ++ [p], honPage.trans hjoin, ?_⟩
    rw [specStep, show l.find (key s p) = _ from hpg]
    exact hrefined
  | dequeueFreeListPage off =>
    obtain ⟨pg, hpg, hset⟩ := hadm
    obtain ⟨p, hp, rfl, rfl, -, honPage⟩ := h.onPage hM hpg s.leaveFreeList
    obtain ⟨s', hleave, hrefined⟩ := h.leaveFreeList hM hp hset
    refine ⟨s', all, queue.erase p, honPage.trans hleave, ?_⟩
    rw [specStep, show l.find (key s p) = _ from hpg]
    exact hrefined
  | dequeueFreeList type =>
    have hfirst := h.firstFree_eq type
    cases hq : firstFree s.heap s.freeList type with
    | none =>
      refine ⟨s, all, queue, ?_, ?_⟩
      · rw [Methods.step, hq]
      · rw [hq] at hfirst
        rw [specStep, ← hfirst]
        exact h
    | some p =>
      have hmem : p ∈ queue := by
        rw [h.free.firstFree] at hq
        exact List.mem_of_find?_eq_some hq
      have hp := h.subset p hmem
      obtain ⟨s', hleave, hrefined⟩ := h.leaveFreeList hM hp ((h.mem_queue hp).mp hmem)
      refine ⟨s', all, queue.erase p, ?_, ?_⟩
      · rw [Methods.step, hq]
        exact hleave
      · rw [hq, Option.map_some] at hfirst
        rw [specStep, ← hfirst]
        simp only [h.desc p hp]
        exact hrefined

theorem Refined.agrees : Agrees M A s l where
  find off hoff := by
    obtain ⟨r, hfind, hfinds⟩ := hM.find h.inv hoff
    refine ⟨r, hfind, ?_, h.find_of_finds hfinds⟩
    rintro q rfl
    exact hfinds.2
  numPages := by
    rw [hM.numPages h.inv, PageList.getNumPages, ← length_map (key s), h.keys.length_eq]
    exact length_map _
  numPagesFree := by
    rw [h.free.count, PageList.getNumPagesFree, ← h.order, length_map]
  freeList := ⟨queue, h.free.deque, h.order⟩
  listed := h.listed
  firstFree := h.firstFree_eq
  visits := by
    obtain ⟨hpath, hsome⟩ := hM.getNextPage h.inv
    refine ⟨all, ?_, hsome, h.keys⟩
    rw [(hM.getFirst h.inv).1]
    exact hpath

omit h in
/-- **A run of a lawful class does what the map with its queue does**, and no assertion
fails. A class that clears the links of its entries needs no condition on the steps. -/
theorem run_refined {N : Machine (Option (State T) × PageList) Op} {s₀ : State T}
    {c : Option (State T) × PageList} {ops : List Op} (hN : N.step = (machine M A).step)
    (hadm : ∀ s l op, N.adm (some s, l) op →
      Admissible M A s l op ∧ (clears ∨ ClearLinks M s op))
    (hinit : Refined A clears inv s₀ [] [] PageList.empty)
    (hrun : N.Run (some s₀, PageList.empty) ops c) :
    ∃ s all queue, c.1 = some s ∧ Refined A clears inv s all queue c.2 := by
  induction hrun with
  | nil => exact ⟨s₀, [], [], rfl, hinit⟩
  | @snoc ops c op _ hop ih =>
    obtain ⟨s, all, queue, hs, hrefined⟩ := ih
    obtain ⟨c₁, l⟩ := c
    obtain rfl : c₁ = some s := hs
    obtain ⟨hadmissible, hclear⟩ := hadm s l op hop
    obtain ⟨s', all', queue', hstep, hrefined'⟩ := hrefined.step hM hadmissible hclear
    rw [hN]
    exact ⟨s', all', queue', hstep, hrefined'⟩

end

/-- Two pointers and a counter that say that there is no free page. -/
def noFreePages : FreeList := ⟨none, none, 0⟩

theorem freeOk_iff {h : PageHeap} {f : FreeList} : FreeOk h f [] ↔ f = noFreePages := by
  constructor
  · intro hok
    obtain ⟨hhead, htail⟩ := hok.deque.nil
    obtain ⟨head, tail, count⟩ := f
    exact congr (congrArg₂ FreeList.mk hhead htail) hok.count
  · rintro rfl
    exact ⟨Links.deque_nil, List.nodup_nil, rfl⟩

theorem refined_init (hinv : inv s []) (hfree : s.freeList = noFreePages) :
    Refined A clears inv s [] [] PageList.empty where
  inv := hinv
  accepted _ hp := nomatch hp
  keys := .refl _
  desc _ hp := nomatch hp
  free := freeOk_iff.mpr hfree
  subset _ hp := nomatch hp
  order := rfl
  unlinked _ _ hp := nomatch hp
  listed := PageList.empty_listed

end PageSets

end K42
