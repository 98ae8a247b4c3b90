import K42.Lib.Run
import K42.Lib.Linked
import K42.Sys.SysStatus

/-!
# The block cache and its queue of dirty entries

Entries live on a heap and are named by their addresses, which are given out in
order. The hash finds the entry of a block number; an entry that the hash has
forgotten may still be held by a client and be on the queue. The queue links
its entries through their own `nextDirty` fields.

The calls of this file are atomic. Assertions of the debugging build
(`tassertMsg`) are left out, `passertMsg` stays. `users` is not modelled: entries
are not evicted.
-/

open Function (update update_of_ne)

namespace K42

open Linked

/-- `FLUSH_TIME`, in seconds. -/
abbrev FLUSH_TIME : ℕ := 30

variable {Block : Type*}

structure BlockCacheEntryK42 (Block : Type*) where
  blkno : ℕ
  isEmpty : Bool
  data : Block
  isDirty : Bool
  flushTime : ℕ
  nextDirty : Option ℕ

/-- The cache, and the disk that it writes to. -/
structure BlockCacheK42 (Block : Type*) where
  heap : ℕ → BlockCacheEntryK42 Block
  allocated : ℕ
  blockHash : ℕ → Option ℕ
  firstDirty : Option ℕ
  lastDirty : Option ℕ
  doingFlush : ℕ
  ticksPerSecond : ℕ
  disk : ℕ → Block

namespace BlockCacheK42

/-- The constructor of an entry. -/
def newEntry [Inhabited Block] (b : ℕ) : BlockCacheEntryK42 Block where
  blkno := b
  isEmpty := true
  data := default
  isDirty := false
  flushTime := 0
  nextDirty := none

/-- The constructor of the cache. -/
def init [Inhabited Block] (disk : ℕ → Block) (ticksPerSecond : ℕ) : BlockCacheK42 Block where
  heap := fun _ => newEntry 0
  allocated := 0
  blockHash := fun _ => none
  firstDirty := none
  lastDirty := none
  doingFlush := 0
  ticksPerSecond := ticksPerSecond
  disk := disk

/-- Change the entry at `e`. -/
def modify (c : BlockCacheK42 Block) (e : ℕ)
    (f : BlockCacheEntryK42 Block → BlockCacheEntryK42 Block) : BlockCacheK42 Block :=
  { c with heap := update c.heap e (f (c.heap e)) }

/-- A new entry at the next address. -/
def alloc (c : BlockCacheK42 Block) (entry : BlockCacheEntryK42 Block) : BlockCacheK42 Block :=
  { c with heap := update c.heap c.allocated entry, allocated := c.allocated + 1 }

/-- `getBlock`. Block `0` is not kept in the hash. -/
def getBlock [Inhabited Block] (c : BlockCacheK42 Block) (b : ℕ) : BlockCacheK42 Block × ℕ :=
  if b = 0 then (c.alloc { newEntry b with isEmpty := false }, c.allocated)
  else
    match c.blockHash b with
    | some e => (c, e)
    | none =>
      ({ c.alloc (newEntry b) with
         blockHash := update c.blockHash b (some c.allocated) }, c.allocated)

/-- `readData` of the entry at `e`. -/
def readData (c : BlockCacheK42 Block) (e : ℕ) : BlockCacheK42 Block :=
  if (c.heap e).blkno ≠ 0 ∧ (c.heap e).isEmpty then
    c.modify e fun entry => { entry with data := c.disk entry.blkno, isEmpty := false }
  else c

/-- `getBlockRead`. -/
def getBlockRead [Inhabited Block] (c : BlockCacheK42 Block) (b : ℕ) : BlockCacheK42 Block × ℕ :=
  ((c.getBlock b).1.readData (c.getBlock b).2, (c.getBlock b).2)

/-! ## The queue -/

/-- The successor pointers. -/
def next (c : BlockCacheK42 Block) (e : ℕ) : Option ℕ := (c.heap e).nextDirty

/-- The entries met from `firstDirty` on. -/
def queue (c : BlockCacheK42 Block) : List ℕ := follow c.next c.allocated c.firstDirty

/-- `DirtyQueue::add`. -/
def add (c : BlockCacheK42 Block) (e : ℕ) : BlockCacheK42 Block :=
  match c.lastDirty with
  | none => { c with firstDirty := some e, lastDirty := some e }
  | some z =>
    { c.modify z (fun entry => { entry with nextDirty := some e }) with lastDirty := some e }

/-- `DirtyQueue::remove`. -/
def remove (c : BlockCacheK42 Block) : BlockCacheK42 Block × Option ℕ :=
  match c.firstDirty with
  | none => (c, none)
  | some e =>
    ({ c.modify e (fun entry => { entry with nextDirty := none }) with
       firstDirty := c.next e
       lastDirty := if c.next e = none then none else c.lastDirty }, some e)

/-! ## Dirty and clean -/

/-- `BlockCacheEntryK42::markDirty`. -/
def entryMarkDirty (c : BlockCacheK42 Block) (e now : ℕ) : BlockCacheK42 Block :=
  if (c.heap e).isDirty then c
  else
    c.modify e fun entry =>
      { entry with
        isDirty := true
        isEmpty := false
        flushTime := now + c.ticksPerSecond * FLUSH_TIME }

/-- `markDirty`. -/
def markDirty (c : BlockCacheK42 Block) (e now : ℕ) : BlockCacheK42 Block :=
  if (c.heap e).isDirty then c.entryMarkDirty e now else (c.entryMarkDirty e now).add e

/-- `BlockCacheEntryK42::markClean`: the entry stays on the queue. -/
def markClean (c : BlockCacheK42 Block) (e : ℕ) : BlockCacheK42 Block :=
  c.modify e fun entry => { entry with isDirty := false }

/-- `forget`. -/
def forget (c : BlockCacheK42 Block) (b : ℕ) : BlockCacheK42 Block :=
  match c.blockHash b with
  | none => c
  | some e => { c.markClean e with blockHash := update c.blockHash b none }

/-! ## Flush -/

/-- `d->writeBlock` of the data of the entry, when the disk takes it. -/
def writeBlock (c : BlockCacheK42 Block) (e : ℕ) : BlockCacheK42 Block :=
  { c with disk := update c.disk (c.heap e).blkno (c.heap e).data }

/-- The entry after a write that succeeded. -/
def clearDirty (c : BlockCacheK42 Block) (e : ℕ) : BlockCacheK42 Block :=
  c.modify e fun entry => { entry with isDirty := false, flushTime := 0, nextDirty := none }

/-- `BlockCacheEntryK42::flush`; `ok` says whether the write succeeds. -/
def entryFlush (c : BlockCacheK42 Block) (e : ℕ) (ok : Bool) : BlockCacheK42 Block :=
  if ok then (c.writeBlock e).clearDirty e else c

/-- The entry is written now: it is not asked whether its time has come, or it has. -/
def Due (c : BlockCacheK42 Block) (checkFlushTime e now : ℕ) : Prop :=
  checkFlushTime ≠ 1 ∨ (c.heap e).flushTime ≤ now

instance (c : BlockCacheK42 Block) (checkFlushTime e now : ℕ) :
    Decidable (c.Due checkFlushTime e now) :=
  inferInstanceAs (Decidable (_ ∨ _))

/-- What is sent to the disk in the round `counter`. -/
def sent (c : BlockCacheK42 Block) (e : ℕ) (ok : Bool) : List (ℕ × Block) :=
  if ok then [((c.heap e).blkno, (c.heap e).data)] else []

/-- The loop of `flush`. `clock` and `io` give the time read in each round and
whether its write succeeds. Returns the cache and the blocks written. -/
def flushLoop (checkFlushTime : ℕ) (clock : ℕ → ℕ) (io : ℕ → Bool) :
    ℕ → ℕ → BlockCacheK42 Block → Except Failure (BlockCacheK42 Block × List (ℕ × Block))
  | 0, _, c => .ok (c, [])
  | fuel + 1, counter, c =>
    match c.firstDirty with
    | none => .ok (c, [])
    | some entry =>
      if (c.heap entry).isDirty then
        if c.Due checkFlushTime entry (clock counter) then
          if c.remove.2 ≠ some entry then .error .passert
          else
            (flushLoop checkFlushTime clock io fuel (counter + 1)
              (c.remove.1.entryFlush entry (io counter))).map
                fun r => (r.1, c.sent entry (io counter) ++ r.2)
        else .ok (c, [])
      else if c.remove.2 ≠ some entry then .error .passert
      else flushLoop checkFlushTime clock io fuel (counter + 1) c.remove.1

/-- `flush`. Every round takes an entry off the queue and resets its pointer, so
no more rounds are made than there are entries, and one. -/
def flush (c : BlockCacheK42 Block) (checkFlushTime : ℕ) (clock : ℕ → ℕ) (io : ℕ → Bool) :
    BlockCacheK42 Block × Except Failure (List (ℕ × Block)) :=
  let entered := { c with doingFlush := c.doingFlush + 1 }
  if c.doingFlush = 1 then (entered, .error (.serror 2393 0 .E0))
  else
    match flushLoop checkFlushTime clock io (c.allocated + 1) 0 entered with
    | .error err => (entered, .error err)
    | .ok (c', written) => ({ c' with doingFlush := 0 }, .ok written)

/-! ## The queue invariant -/

/-- The queue is the linked list `q` of entries, and an entry off the queue has no
successor, so that `add` may leave its pointer alone. -/
structure Chained (c : BlockCacheK42 Block) (q : List ℕ) : Prop where
  queue : Queue c.next c.firstDirty c.lastDirty q
  off : ∀ e, e ∉ q → c.next e = none
  lt : ∀ e ∈ q, e < c.allocated

variable {c : BlockCacheK42 Block} {q : List ℕ} {e : ℕ}

theorem next_modify (c : BlockCacheK42 Block) (e : ℕ)
    (f : BlockCacheEntryK42 Block → BlockCacheEntryK42 Block) :
    (c.modify e f).next = update c.next e (f (c.heap e)).nextDirty := by
  funext x
  by_cases hx : x = e
  · subst hx
    simp [next, modify]
  · simp [next, modify, update_of_ne hx]

theorem heap_modify_self (c : BlockCacheK42 Block) (e : ℕ)
    (f : BlockCacheEntryK42 Block → BlockCacheEntryK42 Block) :
    (c.modify e f).heap e = f (c.heap e) := by
  simp [modify]

theorem heap_modify_of_ne (c : BlockCacheK42 Block) {e x : ℕ} (hx : x ≠ e)
    (f : BlockCacheEntryK42 Block → BlockCacheEntryK42 Block) :
    (c.modify e f).heap x = c.heap x := by
  simp [modify, update_of_ne hx]

theorem Chained.modify (h : c.Chained q) {f : BlockCacheEntryK42 Block → BlockCacheEntryK42 Block}
    (hf : (f (c.heap e)).nextDirty = (c.heap e).nextDirty) : (c.modify e f).Chained q := by
  have hnext : (c.modify e f).next = c.next := by
    rw [next_modify, hf]
    exact Function.update_eq_self e c.next
  refine ⟨?_, ?_, h.lt⟩
  · rw [hnext]
    exact h.queue
  · rw [hnext]
    exact h.off

theorem Chained.alloc (h : c.Chained q) {entry : BlockCacheEntryK42 Block}
    (hentry : entry.nextDirty = none) : (c.alloc entry).Chained q := by
  have hnot : c.allocated ∉ q := by
    intro hmem
    exact Nat.lt_irrefl _ (h.lt _ hmem)
  have hnext : (c.alloc entry).next = c.next := by
    funext x
    by_cases hx : x = c.allocated
    · rw [hx, h.off _ hnot]
      simp [next, BlockCacheK42.alloc, hentry]
    · simp [next, BlockCacheK42.alloc, update_of_ne hx]
  refine ⟨?_, ?_, ?_⟩
  · rw [hnext]
    exact h.queue
  · rw [hnext]
    exact h.off
  · intro x hx
    exact Nat.lt_succ_of_lt (h.lt x hx)

theorem Chained.add (h : c.Chained q) (he : e ∉ q) (hlt : e < c.allocated) :
    (c.add e).Chained (q ++ [e]) := by
  have hnext := h.off e he
  have hlt' : ∀ x ∈ q ++ [e], x < c.allocated := by
    intro x hx
    rcases List.mem_append.mp hx with hx | hx
    · exact h.lt x hx
    · rw [List.mem_singleton.mp hx]
      exact hlt
  unfold BlockCacheK42.add
  cases hlast : c.lastDirty with
  | none =>
    have hq := h.queue
    rw [hlast] at hq
    obtain ⟨rfl, hone⟩ := hq.add_first hnext
    refine ⟨hone, ?_, hlt'⟩
    intro x hx
    exact h.off x (List.not_mem_nil)
  | some z =>
    have hq := h.queue
    rw [hlast] at hq
    refine ⟨?_, ?_, hlt'⟩
    · have hmod := next_modify c z (fun entry => { entry with nextDirty := some e })
      show Queue (c.modify z (fun entry => { entry with nextDirty := some e })).next _ _ _
      rw [hmod]
      exact hq.add_last he hnext
    · intro x hx
      obtain ⟨hxq, -⟩ : x ∉ q ∧ x ≠ e := by simpa using hx
      have hz : z ∈ q := List.mem_of_getLast? hq.last_eq.symm
      have hne : x ≠ z := by
        rintro rfl
        exact hxq hz
      show (c.modify z (fun entry => { entry with nextDirty := some e })).next x = none
      rw [next_modify, update_of_ne hne]
      exact h.off x hxq

theorem Chained.firstDirty_eq {a : ℕ} (h : c.Chained (a :: q)) : c.firstDirty = some a :=
  h.queue.path.1

theorem remove_of_first {a : ℕ} (h : c.firstDirty = some a) :
    c.remove =
      ({ c.modify a (fun entry => { entry with nextDirty := none }) with
         firstDirty := c.next a
         lastDirty := if c.next a = none then none else c.lastDirty }, some a) := by
  unfold remove
  rw [h]

theorem heap_remove_of_ne {a x : ℕ} (h : c.firstDirty = some a) (hx : x ≠ a) :
    c.remove.1.heap x = c.heap x := by
  rw [remove_of_first h]
  exact heap_modify_of_ne c hx (fun entry => { entry with nextDirty := none })

theorem Chained.remove {a : ℕ} (h : c.Chained (a :: q)) : c.remove.1.Chained q := by
  have hq := h.queue
  rw [h.firstDirty_eq] at hq
  have hnot : a ∉ q := (List.nodup_cons.mp hq.path.nodup).1
  have hnext := next_modify c a (fun entry => { entry with nextDirty := none })
  rw [remove_of_first h.firstDirty_eq]
  refine ⟨?_, ?_, ?_⟩
  · show Queue (c.modify a (fun entry => { entry with nextDirty := none })).next _ _ _
    rw [hnext]
    exact hq.remove
  · intro x hx
    show (c.modify a (fun entry => { entry with nextDirty := none })).next x = none
    rw [hnext]
    by_cases hxa : x = a
    · rw [hxa, Function.update_self]
    · rw [update_of_ne hxa]
      apply h.off
      simp [hxa, hx]
  · intro x hx
    exact h.lt x (List.mem_cons_of_mem a hx)

/-! ## The dirty entries are on the queue -/

/-- The invariant: every dirty entry is on the queue. -/
structure Inv (c : BlockCacheK42 Block) (q : List ℕ) : Prop extends c.Chained q where
  dirty_mem : ∀ e, (c.heap e).isDirty = true → e ∈ q

theorem Chained.length_le (h : c.Chained q) : q.length ≤ c.allocated := by
  have hsub : q ⊆ List.range c.allocated := by
    intro x hx
    exact List.mem_range.mpr (h.lt x hx)
  have hlen := h.queue.path.nodup.length_le_of_subset hsub
  rwa [List.length_range] at hlen

theorem Chained.queue_eq (h : c.Chained q) : c.queue = q :=
  h.queue.path.follow_eq h.length_le

theorem Inv.alloc (h : c.Inv q) {entry : BlockCacheEntryK42 Block}
    (hentry : entry.nextDirty = none) (hclean : entry.isDirty = false) : (c.alloc entry).Inv q := by
  refine ⟨h.toChained.alloc hentry, ?_⟩
  intro x hx
  by_cases hxa : x = c.allocated
  · rw [hxa] at hx
    simp [BlockCacheK42.alloc, hclean] at hx
  · rw [BlockCacheK42.alloc] at hx
    simp only [update_of_ne hxa] at hx
    exact h.dirty_mem x hx

theorem Inv.getBlock [Inhabited Block] (h : c.Inv q) (b : ℕ) : (c.getBlock b).1.Inv q := by
  unfold BlockCacheK42.getBlock
  by_cases hb : b = 0
  · rw [if_pos hb]
    exact h.alloc rfl rfl
  · rw [if_neg hb]
    cases c.blockHash b with
    | some e => exact h
    | none =>
      have hnew : (c.alloc (newEntry b)).Inv q := h.alloc rfl rfl
      exact ⟨⟨hnew.queue, hnew.off, hnew.lt⟩, hnew.dirty_mem⟩

theorem Inv.markClean (h : c.Inv q) (e : ℕ) : (c.markClean e).Inv q := by
  refine ⟨h.toChained.modify rfl, ?_⟩
  intro x hx
  by_cases hxe : x = e
  · rw [hxe, BlockCacheK42.markClean, heap_modify_self] at hx
    cases hx
  · rw [BlockCacheK42.markClean, heap_modify_of_ne c hxe] at hx
    exact h.dirty_mem x hx

theorem Inv.forget (h : c.Inv q) (b : ℕ) : (c.forget b).Inv q := by
  unfold BlockCacheK42.forget
  cases c.blockHash b with
  | none => exact h
  | some e =>
    have hclean := h.markClean e
    exact ⟨⟨hclean.queue, hclean.off, hclean.lt⟩, hclean.dirty_mem⟩

theorem add_heap_isDirty (c : BlockCacheK42 Block) (e x : ℕ) :
    ((c.add e).heap x).isDirty = (c.heap x).isDirty := by
  unfold add
  cases c.lastDirty with
  | none => rfl
  | some z =>
    show ((c.modify z (fun entry => { entry with nextDirty := some e })).heap x).isDirty = _
    by_cases hx : x = z
    · rw [hx, heap_modify_self]
    · rw [heap_modify_of_ne c hx]

theorem Inv.markDirty (h : c.Inv q) (hlt : e < c.allocated) (now : ℕ)
    (hoff : (c.heap e).isDirty = true ∨ e ∉ q) : ∃ q', (c.markDirty e now).Inv q' := by
  unfold BlockCacheK42.markDirty
  by_cases hdirty : (c.heap e).isDirty = true
  · rw [if_pos hdirty, entryMarkDirty, if_pos hdirty]
    exact ⟨q, h⟩
  · have he : e ∉ q := hoff.resolve_left hdirty
    rw [if_neg hdirty, entryMarkDirty, if_neg hdirty]
    have hmod := h.toChained.modify (e := e) (f := fun entry =>
      { entry with
        isDirty := true
        isEmpty := false
        flushTime := now + c.ticksPerSecond * FLUSH_TIME }) rfl
    refine ⟨q ++ [e], hmod.add he hlt, ?_⟩
    intro x hx
    rw [add_heap_isDirty] at hx
    by_cases hxe : x = e
    · simp [hxe]
    · rw [heap_modify_of_ne c hxe] at hx
      exact List.mem_append_left _ (h.dirty_mem x hx)

/-! ## Flush takes the entries off and writes them -/

/-- One round of `flush` on a dirty entry: it is off the queue and clean, and
nothing else about any entry has changed. -/
theorem Inv.writeFirst {a : ℕ} (h : c.Inv (a :: q)) : (c.remove.1.entryFlush a true).Inv q ∧
      ∀ x, x ≠ a → (c.remove.1.entryFlush a true).heap x = c.heap x := by
  have hrem := h.toChained.remove
  have hself : c.remove.1.next a = none := by
    apply hrem.off
    exact (List.nodup_cons.mp h.queue.path.nodup).1
  have hwrite : (c.remove.1.writeBlock a).Chained q := ⟨hrem.queue, hrem.off, hrem.lt⟩
  have hchain : (c.remove.1.entryFlush a true).Chained q :=
    hwrite.modify (f := fun entry => { entry with isDirty := false, flushTime := 0, nextDirty := none })
      hself.symm
  have hother : ∀ x, x ≠ a → (c.remove.1.entryFlush a true).heap x = c.heap x := by
    intro x hx
    rw [← heap_remove_of_ne h.firstDirty_eq hx]
    exact heap_modify_of_ne (c.remove.1.writeBlock a) hx
      (fun entry => { entry with isDirty := false, flushTime := 0, nextDirty := none })
  refine ⟨⟨hchain, ?_⟩, hother⟩
  intro x hx
  by_cases hxa : x = a
  · rw [hxa, entryFlush, if_pos rfl, clearDirty, heap_modify_self] at hx
    cases hx
  · rw [hother x hxa] at hx
    exact (List.mem_cons.mp (h.dirty_mem x hx)).resolve_left hxa

theorem Inv.dropFirst {a : ℕ} (h : c.Inv (a :: q)) (hclean : (c.heap a).isDirty = false) :
    c.remove.1.Inv q ∧ ∀ x, x ≠ a → c.remove.1.heap x = c.heap x := by
  have hheap : ∀ x, x ≠ a → c.remove.1.heap x = c.heap x :=
    fun x hx => heap_remove_of_ne h.firstDirty_eq hx
  refine ⟨⟨h.toChained.remove, ?_⟩, hheap⟩
  intro x hx
  by_cases hxa : x = a
  · rw [hxa, remove_of_first h.firstDirty_eq] at hx
    have hmod := heap_modify_self c a (fun entry => { entry with nextDirty := none })
    simp only [hmod, hclean] at hx
    cases hx
  · rw [hheap x hxa] at hx
    exact (List.mem_cons.mp (h.dirty_mem x hx)).resolve_left hxa

/-- The loop of `flush` when every write succeeds. If it does not look at the
time it ends with an empty queue and has written every dirty entry. -/
theorem Inv.flushLoop (h : c.Inv q) (checkFlushTime : ℕ) (clock : ℕ → ℕ) {io : ℕ → Bool}
    (hio : ∀ n, io n = true) {fuel : ℕ} (counter : ℕ) (hfuel : q.length < fuel) :
    ∃ c' written q', flushLoop checkFlushTime clock io fuel counter c = .ok (c', written) ∧
      c'.Inv q' ∧ (checkFlushTime ≠ 1 → q' = [] ∧
        ∀ e, (c.heap e).isDirty = true → ((c.heap e).blkno, (c.heap e).data) ∈ written) := by
  induction q generalizing c fuel counter with
  | nil =>
    obtain ⟨n, rfl⟩ := Nat.exists_eq_succ_of_ne_zero (Nat.ne_zero_of_lt hfuel)
    have hfirst : c.firstDirty = none := h.queue.path
    refine ⟨c, [], [], ?_, h, ?_⟩
    · rw [BlockCacheK42.flushLoop, hfirst]
    · intro _
      refine ⟨rfl, ?_⟩
      intro e he
      exact absurd (h.dirty_mem e he) List.not_mem_nil
  | cons a q ih =>
    obtain ⟨n, rfl⟩ := Nat.exists_eq_succ_of_ne_zero (Nat.ne_zero_of_lt hfuel)
    have hn : q.length < n := Nat.lt_of_succ_lt_succ hfuel
    have hhead : c.remove.2 = some a := by rw [remove_of_first h.firstDirty_eq]
    rw [BlockCacheK42.flushLoop, h.firstDirty_eq]
    dsimp only
    by_cases hdirty : (c.heap a).isDirty = true
    · rw [if_pos hdirty]
      by_cases hdue : c.Due checkFlushTime a (clock counter)
      · rw [if_pos hdue, if_neg (not_not.mpr hhead), hio counter]
        obtain ⟨hinv, hother⟩ := h.writeFirst
        obtain ⟨c', written, q', hok, hinv', hall⟩ := ih hinv (counter + 1) hn
        refine ⟨c', c.sent a true ++ written, q', ?_, hinv', ?_⟩
        · rw [hok]
          rfl
        · intro hcheck
          obtain ⟨hq', hwritten⟩ := hall hcheck
          refine ⟨hq', ?_⟩
          intro e he
          by_cases hea : e = a
          · rw [hea]
            exact List.mem_append_left _ (List.mem_singleton_self _)
          · apply List.mem_append_right
            rw [← hother e hea]
            apply hwritten
            rw [hother e hea]
            exact he
      · rw [if_neg hdue]
        refine ⟨c, [], a :: q, rfl, h, ?_⟩
        intro hcheck
        exact absurd (Or.inl hcheck) hdue
    · rw [if_neg hdirty, if_neg (not_not.mpr hhead)]
      obtain ⟨hinv, hother⟩ := h.dropFirst (eq_false_of_ne_true hdirty)
      obtain ⟨c', written, q', hok, hinv', hall⟩ := ih hinv (counter + 1) hn
      refine ⟨c', written, q', hok, hinv', ?_⟩
      intro hcheck
      obtain ⟨hq', hwritten⟩ := hall hcheck
      refine ⟨hq', ?_⟩
      intro e he
      have hea : e ≠ a := by
        rintro rfl
        exact hdirty he
      rw [← hother e hea]
      apply hwritten
      rw [hother e hea]
      exact he

theorem Inv.flush (h : c.Inv q) (hidle : c.doingFlush = 0) (checkFlushTime : ℕ)
    (clock : ℕ → ℕ) {io : ℕ → Bool} (hio : ∀ n, io n = true) :
    ∃ c' written q', c.flush checkFlushTime clock io = (c', .ok written) ∧ c'.Inv q' ∧
      c'.doingFlush = 0 ∧ (checkFlushTime ≠ 1 → (∀ e, (c'.heap e).isDirty = false) ∧
        ∀ e, (c.heap e).isDirty = true → ((c.heap e).blkno, (c.heap e).data) ∈ written) := by
  have hentered : Inv { c with doingFlush := c.doingFlush + 1 } q :=
    ⟨⟨h.queue, h.off, h.lt⟩, h.dirty_mem⟩
  obtain ⟨c', written, q', hok, hinv, hall⟩ :=
    hentered.flushLoop checkFlushTime clock hio 0 (Nat.lt_succ_of_le h.length_le)
  refine ⟨{ c' with doingFlush := 0 }, written, q', ?_, ?_, rfl, ?_⟩
  · unfold BlockCacheK42.flush
    rw [if_neg (by omega), hok]
  · exact ⟨⟨hinv.queue, hinv.off, hinv.lt⟩, hinv.dirty_mem⟩
  · intro hcheck
    obtain ⟨rfl, hwritten⟩ := hall hcheck
    refine ⟨?_, hwritten⟩
    intro e
    by_contra hdirty
    exact absurd (hinv.dirty_mem e (eq_true_of_ne_false hdirty)) List.not_mem_nil

/-! ## Runs of atomic calls -/

/-- The calls. `fails` lists the rounds of `flush` whose write fails. -/
inductive Op
  | getBlock (b : ℕ)
  | markDirty (e now : ℕ)
  | markClean (e : ℕ)
  | forget (b : ℕ)
  | flush (checkFlushTime : ℕ) (clock : ℕ → ℕ) (fails : List ℕ)

/-- Which writes succeed. -/
def succeeds (fails : List ℕ) (counter : ℕ) : Bool := decide (counter ∉ fails)

theorem succeeds_nil (n : ℕ) : succeeds [] n = true := by simp [succeeds]

variable [Inhabited Block]

def step (c : BlockCacheK42 Block) : Op → BlockCacheK42 Block
  | .getBlock b => (c.getBlock b).1
  | .markDirty e now => c.markDirty e now
  | .markClean e => c.markClean e
  | .forget b => c.forget b
  | .flush checkFlushTime clock fails => (c.flush checkFlushTime clock (succeeds fails)).1

/-- A client names entries that it has got from the cache. -/
def Issuable (c : BlockCacheK42 Block) : Op → Prop
  | .markDirty e _ => e < c.allocated
  | .markClean e => e < c.allocated
  | _ => True

/-- The calls that the queue stands: no clean entry is marked dirty while it is
still on the queue, and no write fails. -/
def KeepsQueue (c : BlockCacheK42 Block) : Op → Prop
  | .markDirty e _ => (c.heap e).isDirty = true ∨ e ∉ c.queue
  | .flush _ _ fails => fails = []
  | _ => True

omit [Inhabited Block] in
instance (c : BlockCacheK42 Block) : (op : Op) → Decidable (Issuable c op)
  | .getBlock _ | .forget _ | .flush .. => isTrue trivial
  | .markDirty e _ => inferInstanceAs (Decidable (e < c.allocated))
  | .markClean e => inferInstanceAs (Decidable (e < c.allocated))

instance (c : BlockCacheK42 Block) : (op : Op) → Decidable (KeepsQueue c op)
  | .getBlock _ | .markClean _ | .forget _ => isTrue trivial
  | .markDirty .. => inferInstanceAs (Decidable (_ ∨ _))
  | .flush .. => inferInstanceAs (Decidable (_ = _))

/-- Every call that clients can make. -/
def anyCalls : Machine (BlockCacheK42 Block) Op where
  step := step
  adm := Issuable

/-- The calls that the queue stands. -/
def soundCalls : Machine (BlockCacheK42 Block) Op where
  step := step
  adm c op := Issuable c op ∧ KeepsQueue c op

instance (c : BlockCacheK42 Block) (op : Op) : Decidable (anyCalls.adm c op) :=
  inferInstanceAs (Decidable (Issuable c op))

instance (c : BlockCacheK42 Block) (op : Op) : Decidable (soundCalls.adm c op) :=
  inferInstanceAs (Decidable (Issuable c op ∧ KeepsQueue c op))

/-- Following `nextDirty` from `firstDirty` ends, at `lastDirty`, and visits every
dirty entry once. -/
def VisitsDirty (c : BlockCacheK42 Block) : Prop :=
  ∃ q, Path c.next c.firstDirty q ∧ q.getLast? = c.lastDirty ∧
    ∀ e, (c.heap e).isDirty = true → q.count e = 1

/-- `flush(0)` returns `0` and has written every entry that was dirty. -/
def FlushWrites (c : BlockCacheK42 Block) : Prop :=
  ∀ clock, ∃ c' written, c.flush 0 clock (succeeds []) = (c', .ok written) ∧
    ∀ e, (c.heap e).isDirty = true → ((c.heap e).blkno, (c.heap e).data) ∈ written

theorem init_inv (disk : ℕ → Block) (ticks : ℕ) : (init disk ticks).Inv [] where
  queue := Queue.empty
  off := fun _ _ => rfl
  lt := fun _ h => absurd h List.not_mem_nil
  dirty_mem := fun _ h => by cases h

theorem doingFlush_getBlock (c : BlockCacheK42 Block) (b : ℕ) :
    (c.getBlock b).1.doingFlush = c.doingFlush := by
  unfold getBlock
  split
  · rfl
  · split <;> rfl

omit [Inhabited Block] in
theorem doingFlush_markDirty (c : BlockCacheK42 Block) (e now : ℕ) :
    (c.markDirty e now).doingFlush = c.doingFlush := by
  have hadd : ∀ d : BlockCacheK42 Block, (d.add e).doingFlush = d.doingFlush := by
    intro d
    unfold add
    split <;> rfl
  have hentry : (c.entryMarkDirty e now).doingFlush = c.doingFlush := by
    unfold entryMarkDirty
    split <;> rfl
  unfold markDirty
  split
  · exact hentry
  · rw [hadd]
    exact hentry

omit [Inhabited Block] in
theorem doingFlush_forget (c : BlockCacheK42 Block) (b : ℕ) :
    (c.forget b).doingFlush = c.doingFlush := by
  unfold forget
  split <;> rfl

theorem step_inv {op : Op} (h : c.Inv q) (hidle : c.doingFlush = 0) (hadm : Issuable c op)
    (hkeeps : KeepsQueue c op) :
    ∃ q', (step c op).Inv q' ∧ (step c op).doingFlush = 0 := by
  cases op with
  | getBlock b => exact ⟨q, h.getBlock b, (doingFlush_getBlock c b).trans hidle⟩
  | markDirty e now =>
    have hkeeps' : (c.heap e).isDirty = true ∨ e ∉ q := by
      rw [← h.queue_eq]
      exact hkeeps
    obtain ⟨q', hq'⟩ := h.markDirty hadm now hkeeps'
    exact ⟨q', hq', (doingFlush_markDirty c e now).trans hidle⟩
  | markClean e => exact ⟨q, h.markClean e, hidle⟩
  | forget b => exact ⟨q, h.forget b, (doingFlush_forget c b).trans hidle⟩
  | flush checkFlushTime clock fails =>
    obtain rfl : fails = [] := hkeeps
    obtain ⟨c', written, q', hok, hinv, hidle', -⟩ :=
      h.flush hidle checkFlushTime clock succeeds_nil
    have hstep : step c (.flush checkFlushTime clock []) = c' := congrArg Prod.fst hok
    rw [hstep]
    exact ⟨q', hinv, hidle'⟩

omit [Inhabited Block] in
theorem Inv.visitsDirty (h : c.Inv q) : VisitsDirty c := by
  refine ⟨q, h.queue.path, h.queue.last_eq.symm, ?_⟩
  intro e he
  exact List.count_eq_one_of_mem h.queue.path.nodup (h.dirty_mem e he)

/-- In every run of calls that the queue stands. -/
theorem run_visits_and_writes {disk : ℕ → Block} {ticks : ℕ} {ops : List Op}
    {c : BlockCacheK42 Block} (hrun : soundCalls.Run (init disk ticks) ops c) :
    VisitsDirty c ∧ FlushWrites c := by
  have hinv : ∃ q, c.Inv q ∧ c.doingFlush = 0 := by
    refine hrun.invariant (I := fun c => ∃ q, c.Inv q ∧ c.doingFlush = 0) ?_ ?_
    · exact ⟨[], init_inv disk ticks, rfl⟩
    · rintro c op ⟨q, h, hidle⟩ ⟨hadm, hkeeps⟩
      exact step_inv h hidle hadm hkeeps
  obtain ⟨q, h, hidle⟩ := hinv
  refine ⟨h.visitsDirty, ?_⟩
  intro clock
  obtain ⟨c', written, -, hok, -, -, hall⟩ :=
    h.flush hidle 0 clock succeeds_nil
  exact ⟨c', written, hok, (hall (by decide)).2⟩

/-- An entry is cleaned and comes off the queue before it is dirty again. -/
def cleanFlushDirty : List Op :=
  [.getBlock 1, .getBlock 2, .markDirty 0 10, .markDirty 1 11, .markClean 0,
    .flush 0 (fun _ => 12) [], .markDirty 0 13]

theorem run_visits_and_writes_cleanFlushDirty :
    soundCalls.Admits (init (fun _ => 0) 1) cleanFlushDirty ∧
      VisitsDirty (cleanFlushDirty.foldl step (init (fun _ => 0) 1)) ∧
      FlushWrites (cleanFlushDirty.foldl step (init (fun _ => 0) 1)) := by
  have hadm : soundCalls.Admits (init (fun _ => 0) 1) cleanFlushDirty := by decide +kernel
  exact ⟨hadm, run_visits_and_writes hadm.run⟩

/-- The first of three dirty entries is cleaned and marked again while it is on
the queue, and a fourth entry is marked. -/
def cleanDirtyAdd : List Op :=
  [.getBlock 1, .getBlock 2, .getBlock 3, .getBlock 4, .markDirty 0 10, .markDirty 1 11,
    .markDirty 2 12, .markClean 0, .markDirty 0 13, .markDirty 3 14]

/-- The entries between the two places of the first are cut off the queue, and
`flush(0)` returns `0` without writing them. -/
theorem not_visits_of_marked_on_queue :
    ∃ c : BlockCacheK42 ℕ, anyCalls.Run (init (fun _ => 0) 1) cleanDirtyAdd c ∧
      ¬ VisitsDirty c ∧ ¬ FlushWrites c := by
  have hadm : anyCalls.Admits (init (fun _ => 0) 1) cleanDirtyAdd := by decide +kernel
  refine ⟨_, hadm.run, ?_, ?_⟩
  · rintro ⟨q, hpath, -, hcount⟩
    have hq : q = [0, 3] := hpath.unique (by decide +kernel)
    have h1 := hcount 1 (by decide +kernel)
    rw [hq] at h1
    cases h1
  · intro hflush
    obtain ⟨c', written, hok, hall⟩ := hflush (fun _ => 15)
    have hwritten : some written = some [(1, 0), (4, 0)] := by
      have hres := congrArg (fun r => r.2.toOption) hok
      rw [← show _ = some written from hres]
      decide +kernel
    have h1 := hall 1 (by decide +kernel)
    rw [Option.some.inj hwritten] at h1
    revert h1
    decide +kernel

end BlockCacheK42

end K42
