import K42.KFS.BlockCache
import Mathlib.Data.Fintype.Basic

/-!
# Concurrent flushes of the block cache

Any number of callers run `flush` and any number of clients read blocks, change
their data and call `markDirty`, in any interleaving. A step is what the code
does at once: the `FetchAndAdd` of `doingFlush`, a load or a store of an entry's
field, a transfer of a block, or an operation of the queue under its lock. An
entry that a client has changed is `touched` by the client until it calls
`markDirty`.
-/

open Function (update update_of_ne update_self update_eq_self)

namespace K42

open Linked

namespace BlockCacheK42

variable {Block : Type*}

/-- Where a caller of `flush` is: the step it takes next, and the `entry` of its
loop. `failed` is the panic of `passertMsg(head == entry)`. -/
inductive Pc
  | idle
  | getHead
  | test (entry : ℕ)
  | due (entry : ℕ)
  | remove (entry : ℕ) (dirty : Bool)
  | write (entry : ℕ)
  | clearDirty (entry : ℕ)
  | clearTime (entry : ℕ)
  | clearNext (entry : ℕ)
  | leave
  | failed
deriving DecidableEq

/-- The entry that the caller has taken off the queue and that is still dirty. -/
def Pc.held? : Pc → Option ℕ
  | .write e | .clearDirty e => some e
  | _ => none

/-- Where a client is: the step it takes next in `readData` or in `markDirty`. -/
inductive Client
  | idle
  | read (entry : ℕ)
  | setRead (entry : ℕ)
  | test (entry : ℕ) (wasDirty : Bool)
  | setDirty (entry : ℕ) (wasDirty : Bool)
  | setNotEmpty (entry : ℕ) (wasDirty : Bool)
  | setTime (entry : ℕ) (wasDirty : Bool)
  | add (entry : ℕ)
deriving DecidableEq

/-- The entry whose `markDirty` the client is in. -/
def Client.marks? : Client → Option ℕ
  | .test e _ | .setDirty e _ | .setNotEmpty e _ | .setTime e _ | .add e => some e
  | _ => none

/-- The entry that the client saw clean and has yet to put on the queue. -/
def Client.adds? : Client → Option ℕ
  | .test e w | .setDirty e w | .setNotEmpty e w | .setTime e w => if w then none else some e
  | .add e => some e
  | _ => none

/-- The entry that the client has made dirty and has yet to put on the queue. -/
def Client.held? : Client → Option ℕ
  | .setNotEmpty e _ | .setTime e _ | .add e => some e
  | _ => none

/-- The cache, the callers with their arguments, the clients, and which entries
they have touched. -/
structure Sys (Block : Type*) (n m : ℕ) where
  cache : BlockCacheK42 Block
  pc : Fin n → Pc
  checkFlushTime : Fin n → ℕ
  client : Fin m → Client
  touched : Fin m × ℕ → Bool

inductive Act (Block : Type*) (n m : ℕ)
  | getBlock (b : ℕ)
  | readData (k : Fin m) (e : ℕ)
  | modify (k : Fin m) (e : ℕ) (data : Block)
  | markDirty (k : Fin m) (e : ℕ)
  | advanceClient (k : Fin m) (now : ℕ)
  | enter (t : Fin n) (checkFlushTime : ℕ)
  | advance (t : Fin n) (now : ℕ) (ok : Bool)

namespace Sys

variable {n m : ℕ}

def start [Inhabited Block] (disk : ℕ → Block) (ticks : ℕ) : Sys Block n m where
  cache := init disk ticks
  pc := fun _ => .idle
  checkFlushTime := fun _ => 0
  client := fun _ => .idle
  touched := fun _ => false

/-- Caller `t` goes on to `p`, with the cache `c`. -/
def goto (s : Sys Block n m) (t : Fin n) (c : BlockCacheK42 Block) (p : Pc) : Sys Block n m :=
  { s with cache := c, pc := update s.pc t p }

/-- Client `k` goes on to `a`, with the cache `c`. -/
def gotoClient (s : Sys Block n m) (k : Fin m) (c : BlockCacheK42 Block) (a : Client) :
    Sys Block n m :=
  { s with cache := c, client := update s.client k a }

/-- The `FetchAndAdd` of `doingFlush` and the test of the old value. -/
def enter (s : Sys Block n m) (t : Fin n) (check : ℕ) : Sys Block n m :=
  let c := { s.cache with doingFlush := s.cache.doingFlush + 1 }
  if s.cache.doingFlush = 1 then s.goto t c .idle
  else { s.goto t c .getHead with checkFlushTime := update s.checkFlushTime t check }

/-- The next step of caller `t`. `now` is the time it would read and `ok` whether
its write succeeds. -/
def advance (s : Sys Block n m) (t : Fin n) (now : ℕ) (ok : Bool) : Sys Block n m :=
  match s.pc t with
  | .idle => s
  | .getHead =>
    match s.cache.firstDirty with
    | none => s.goto t s.cache .leave
    | some entry => s.goto t s.cache (.test entry)
  | .test entry =>
    if (s.cache.heap entry).isDirty then s.goto t s.cache (.due entry)
    else s.goto t s.cache (.remove entry false)
  | .due entry =>
    if s.cache.Due (s.checkFlushTime t) entry now then s.goto t s.cache (.remove entry true)
    else s.goto t s.cache .leave
  | .remove entry dirty =>
    if s.cache.remove.2 = some entry then
      s.goto t s.cache.remove.1 (if dirty then .write entry else .getHead)
    else s.goto t s.cache.remove.1 .failed
  | .write entry =>
    if ok then s.goto t (s.cache.writeBlock entry) (.clearDirty entry)
    else s.goto t s.cache .getHead
  | .clearDirty entry =>
    s.goto t (s.cache.modify entry fun b => { b with isDirty := false }) (.clearTime entry)
  | .clearTime entry =>
    s.goto t (s.cache.modify entry fun b => { b with flushTime := 0 }) (.clearNext entry)
  | .clearNext entry =>
    s.goto t (s.cache.modify entry fun b => { b with nextDirty := none }) .getHead
  | .leave => s.goto t { s.cache with doingFlush := 0 } .idle
  | .failed => s

/-- `readData` up to its tests. -/
def readData (s : Sys Block n m) (k : Fin m) (e : ℕ) : Sys Block n m :=
  if (s.cache.heap e).blkno ≠ 0 ∧ (s.cache.heap e).isEmpty then s.gotoClient k s.cache (.read e)
  else s

/-- `markDirty` up to its load of `wasDirty`. -/
def markDirty (s : Sys Block n m) (k : Fin m) (e : ℕ) : Sys Block n m :=
  { s.gotoClient k s.cache (.test e (s.cache.heap e).isDirty) with
    touched := update s.touched (k, e) false }

/-- The next step of client `k`. `now` is the time it would read. -/
def advanceClient (s : Sys Block n m) (k : Fin m) (now : ℕ) : Sys Block n m :=
  match s.client k with
  | .idle => s
  | .read entry =>
    s.gotoClient k (s.cache.modify entry fun b => { b with data := s.cache.disk b.blkno })
      (.setRead entry)
  | .setRead entry =>
    s.gotoClient k (s.cache.modify entry fun b => { b with isEmpty := false }) .idle
  | .test entry wasDirty =>
    if (s.cache.heap entry).isDirty then
      s.gotoClient k s.cache (if wasDirty then .idle else .add entry)
    else s.gotoClient k s.cache (.setDirty entry wasDirty)
  | .setDirty entry wasDirty =>
    s.gotoClient k (s.cache.modify entry fun b => { b with isDirty := true })
      (.setNotEmpty entry wasDirty)
  | .setNotEmpty entry wasDirty =>
    s.gotoClient k (s.cache.modify entry fun b => { b with isEmpty := false })
      (.setTime entry wasDirty)
  | .setTime entry wasDirty =>
    s.gotoClient k
      (s.cache.modify entry fun b =>
        { b with flushTime := now + s.cache.ticksPerSecond * FLUSH_TIME })
      (if wasDirty then .idle else .add entry)
  | .add entry => s.gotoClient k (s.cache.add entry) .idle

def step [Inhabited Block] (s : Sys Block n m) : Act Block n m → Sys Block n m
  | .getBlock b => { s with cache := (s.cache.getBlock b).1 }
  | .readData k e => s.readData k e
  | .modify k e data =>
    { s with
      cache := s.cache.modify e fun b => { b with data }
      touched := update s.touched (k, e) true }
  | .markDirty k e => s.markDirty k e
  | .advanceClient k now => s.advanceClient k now
  | .enter t check => s.enter t check
  | .advance t now ok => s.advance t now ok

/-- Block `0` is not cached; a client names entries that it has got, and makes one
call at a time; a caller that is not in `flush` may call it. -/
def Possible (s : Sys Block n m) : Act Block n m → Prop
  | .getBlock b => b ≠ 0
  | .modify _ e _ => e < s.cache.allocated
  | .readData k e | .markDirty k e => s.client k = .idle ∧ e < s.cache.allocated
  | .advanceClient k _ => s.client k ≠ .idle
  | .enter t _ => s.pc t = .idle
  | .advance t _ _ => s.pc t ≠ .idle

/-- No client is in `markDirty` of `e`. -/
def Unmarked (s : Sys Block n m) (e : ℕ) : Prop := ∀ k, (s.client k).marks? ≠ some e

/-- What the next step of a caller at the place asks for: a write that succeeds;
that `isDirty` is cleared under no `markDirty` of the entry, and when the data is
on the disk or a client has it to mark; that `nextDirty` is cleared when the entry
has no successor. -/
def SafeAt (s : Sys Block n m) (ok : Bool) : Pc → Prop
  | .write _ => ok = true
  | .clearDirty e => s.Unmarked e ∧ ((∃ k, s.touched (k, e) = true) ∨
      (s.cache.heap e).data = s.cache.disk (s.cache.heap e).blkno)
  | .clearNext e => (s.cache.heap e).nextDirty = none
  | _ => True

/-- The steps on which nothing is lost: no call of `flush` while `doingFlush` is
above one; no `markDirty` of a clean entry that another client is marking; and what
`SafeAt` says of the steps of `flush`. -/
def Safe (s : Sys Block n m) : Act Block n m → Prop
  | .enter _ _ => s.cache.doingFlush ≤ 1
  | .markDirty _ e => (s.cache.heap e).isDirty = true ∨ s.Unmarked e
  | .advance t _ ok => s.SafeAt ok (s.pc t)
  | _ => True

end Sys

/-! ## The entries, the clients and the queue -/

/-- What the entries hold, without the links and the times. -/
structure Contents (Block : Type*) where
  allocated : ℕ
  blockHash : ℕ → Option ℕ
  disk : ℕ → Block
  blkno : ℕ → ℕ
  isEmpty : ℕ → Bool
  data : ℕ → Block
  isDirty : ℕ → Bool

/-- What holds of the entry of a client, with the queue `q` and the entry `held`
by the caller in `flush`. -/
def Client.Sound (d : Contents Block) (q : List ℕ) (held : Option ℕ) : Client → Prop
  | .idle => True
  | .read e | .setRead e => e < d.allocated
  | .test e w => e < d.allocated ∧ d.isDirty e = w
  | .setDirty e w => e < d.allocated ∧ d.isDirty e = false ∧ w = false
  | .setNotEmpty e w | .setTime e w => e < d.allocated ∧ w = false ∧ e ∉ q ∧ held ≠ some e
  | .add e => e < d.allocated ∧ e ∉ q ∧ held ≠ some e

variable {n m : ℕ}

/-- The data of `e` is on the disk, or the entry is on the queue or about to be
written, or a client that has changed it is not past `markDirty`, or there is no
data yet. -/
def Covered (d : Contents Block) (touched : Fin m × ℕ → Bool) (client : Fin m → Client)
    (q : List ℕ) (held : Option ℕ) (e : ℕ) : Prop :=
  d.data e = d.disk (d.blkno e) ∨ e ∈ q ∨ held = some e ∨ (∃ k, touched (k, e) = true) ∨
    (∃ k, (client k).marks? = some e) ∨ d.isEmpty e = true ∧ ∀ k, client k ≠ .setRead e

/-- The entries and the clients, with the queue `q` and the entry `held` by the
caller in `flush`. -/
structure Kept (d : Contents Block) (touched : Fin m × ℕ → Bool) (client : Fin m → Client)
    (q : List ℕ) (held : Option ℕ) : Prop where
  hash : ∀ e < d.allocated, d.blockHash (d.blkno e) = some e
  taken : ∀ e, held = some e → e ∉ q ∧ e < d.allocated
  dirty : ∀ e, d.isDirty e = true ↔ e ∈ q ∨ held = some e ∨ ∃ k, (client k).held? = some e
  sound : ∀ k, (client k).Sound d q held
  alone : ∀ j k e, (client j).adds? = some e → (client k).adds? = some e → j = k
  saved : ∀ e < d.allocated, Covered d touched client q held e

variable {d : Contents Block} {touched : Fin m × ℕ → Bool} {client : Fin m → Client} {q : List ℕ}
  {held : Option ℕ} {e : ℕ} {k : Fin m} {w : Bool}

attribute [local grind] Client.Sound Client.held? Client.marks? Client.adds? Covered
attribute [local grind =] Function.update_apply

theorem covered_update_iff {a : Client} :
    Covered d touched (update client k a) q held e ↔
      d.data e = d.disk (d.blkno e) ∨ e ∈ q ∨ held = some e ∨ (∃ j, touched (j, e) = true) ∨
        (a.marks? = some e ∨ ∃ j, j ≠ k ∧ (client j).marks? = some e) ∨
        d.isEmpty e = true ∧ a ≠ .setRead e ∧ ∀ j, j ≠ k → client j ≠ .setRead e := by
  unfold Covered
  rw [Function.exists_update_iff client fun _ c => c.marks? = some e,
    Function.forall_update_iff client fun _ c => c ≠ .setRead e]

theorem Client.marks_of_held {p : Client} (h : p.held? = some e) : p.marks? = some e := by
  cases p <;> grind

theorem Client.marks_of_adds {p : Client} (h : p.adds? = some e) : p.marks? = some e := by
  cases p <;> grind

theorem Client.Sound.congr {d' : Contents Block} {p : Client} (h : Client.Sound d q held p)
    (halloc : d.allocated ≤ d'.allocated)
    (hdirty : ∀ e < d.allocated, d'.isDirty e = d.isDirty e) : Client.Sound d' q held p := by
  cases p <;> grind

theorem Kept.remove (h : Kept d touched client (e :: q) none) (he : e ∉ q)
    (hlt : e < d.allocated) : Kept d touched client q (some e) where
  hash := h.hash
  taken := by grind
  dirty := by
    have := h.dirty
    grind
  sound := by
    intro k
    have := h.sound k
    cases hk : client k <;> grind
  alone := h.alone
  saved := by
    intro x hx
    have := h.saved x hx
    grind

/-- The write brings the entry's data to the disk. Other entries have other block
numbers, so what was on the disk for them still is. -/
theorem Kept.write (h : Kept d touched client q (some e)) :
    Kept { d with disk := update d.disk (d.blkno e) (d.data e) } touched client q (some e) where
  hash := h.hash
  taken := h.taken
  dirty := h.dirty
  sound k := (h.sound k).congr le_rfl fun _ _ => rfl
  alone := h.alone
  saved := by
    intro x hx
    have := h.saved x hx
    have := h.hash
    have := h.taken e rfl
    grind

theorem Kept.clearDirty (h : Kept d touched client q (some e))
    (hfree : ∀ k, (client k).marks? ≠ some e)
    (hdata : (∃ k, touched (k, e) = true) ∨ d.data e = d.disk (d.blkno e)) :
    Kept { d with isDirty := update d.isDirty e false } touched client q none where
  hash := h.hash
  taken := by grind
  dirty := by
    intro x
    have := h.dirty x
    have := h.taken e rfl
    have := fun k => Client.marks_of_held (p := client k) (e := e)
    grind
  sound := by
    intro k
    have := h.sound k
    have := hfree k
    cases hk : client k <;> grind
  alone := h.alone
  saved := by
    intro x hx
    have := h.saved x hx
    grind

/-- A client goes on to `a` without a change of `isDirty` or of the queue. -/
theorem Kept.move {data : ℕ → Block} {isEmpty : ℕ → Bool} {touched' : Fin m × ℕ → Bool}
    {a : Client} (h : Kept d touched client q held) (hheld : a.held? = (client k).held?)
    (hadds : ∀ e, a.adds? = some e → (client k).adds? = some e ∨ ∀ j, (client j).adds? ≠ some e)
    (hsound : a.Sound d q held)
    (hcover : ∀ x < d.allocated, Covered d touched client q held x →
      Covered { d with data, isEmpty } touched' (update client k a) q held x) :
    Kept { d with data, isEmpty } touched' (update client k a) q held where
  hash := h.hash
  taken := h.taken
  dirty := by
    intro x
    rw [Function.exists_update_iff client fun _ c => c.held? = some x, hheld]
    have := h.dirty x
    grind
  sound := by
    rw [Function.forall_update_iff client fun _ c => c.Sound _ q held]
    exact ⟨hsound.congr le_rfl fun _ _ => rfl, fun j _ => (h.sound j).congr le_rfl fun _ _ => rfl⟩
  alone := by
    have := h.alone
    grind
  saved := fun x hx => hcover x hx (h.saved x hx)

theorem Kept.readData (h : Kept d touched client q held) (hk : client k = .idle)
    (hlt : e < d.allocated) : Kept d touched (update client k (.read e)) q held := by
  refine h.move (by grind) (by grind) hlt ?_
  intro x hx
  rw [covered_update_iff]
  grind

theorem Kept.markDirty (h : Kept d touched client q held) (hk : client k = .idle)
    (hlt : e < d.allocated) (hfree : d.isDirty e = true ∨ ∀ j, (client j).marks? ≠ some e) :
    Kept d (update touched (k, e) false) (update client k (.test e (d.isDirty e))) q held := by
  have hadds : ∀ j, (client j).adds? = some e → (client j).marks? = some e :=
    fun j => Client.marks_of_adds
  refine h.move (by grind) (by grind) ⟨hlt, rfl⟩ ?_
  intro x hx hcovered
  rw [covered_update_iff]
  by_cases hxe : x = e
  · grind
  · have htouched : ∀ j, update touched (k, e) false (j, x) = touched (j, x) := by grind
    grind

theorem Kept.read (h : Kept d touched client q held) (hk : client k = .read e) :
    Kept { d with data := update d.data e (d.disk (d.blkno e)) } touched
      (update client k (.setRead e)) q held := by
  have hsound := h.sound k
  refine h.move (by grind) (by grind) (by grind) ?_
  intro x hx
  rw [covered_update_iff]
  grind

theorem Kept.setRead (h : Kept d touched client q held) (hk : client k = .setRead e) :
    Kept { d with isEmpty := update d.isEmpty e false } touched (update client k .idle) q held := by
  refine h.move (by grind) (by grind) trivial ?_
  intro x hx
  rw [covered_update_iff]
  grind

theorem Kept.test (h : Kept d touched client q held) (hk : client k = .test e w) :
    Kept d touched
      (update client k
        (if d.isDirty e then if w then .idle else .add e else .setDirty e w)) q held := by
  have hsound := h.sound k
  have hdirty := h.dirty e
  have hmarks := fun j => Client.marks_of_held (p := client j) (e := e)
  obtain hd : d.isDirty e = w := by grind
  rw [hd]
  cases w with
  | true =>
    refine h.move (by grind) (by grind) trivial ?_
    intro x hx
    rw [covered_update_iff]
    grind
  | false =>
    refine h.move (by grind) (by grind) (by grind) ?_
    intro x hx
    rw [covered_update_iff]
    grind

theorem Kept.setNotEmpty (h : Kept d touched client q held) (hk : client k = .setNotEmpty e w) :
    Kept { d with isEmpty := update d.isEmpty e false } touched
      (update client k (.setTime e w)) q held := by
  have hsound := h.sound k
  refine h.move (by grind) (by grind) (by grind) ?_
  intro x hx
  rw [covered_update_iff]
  grind

theorem Kept.setTime (h : Kept d touched client q held) (hk : client k = .setTime e w) :
    Kept d touched (update client k (if w then .idle else .add e)) q held := by
  have hsound := h.sound k
  obtain rfl : w = false := by grind
  refine h.move (by grind) (by grind) (by grind) ?_
  intro x hx
  rw [covered_update_iff]
  grind

theorem Kept.setDirty (h : Kept d touched client q held) (hk : client k = .setDirty e w) :
    Kept { d with isDirty := update d.isDirty e true } touched
      (update client k (.setNotEmpty e w)) q held where
  hash := h.hash
  taken := h.taken
  dirty := by
    intro x
    rw [Function.exists_update_iff client fun _ c => c.held? = some x]
    have := h.dirty x
    grind
  sound := by
    rw [Function.forall_update_iff client fun _ c => c.Sound _ q held]
    have := h.sound k
    have := h.dirty e
    refine ⟨by grind, fun j hj => ?_⟩
    have := h.sound j
    have := h.alone j k e
    cases hj : client j <;> grind
  alone := by
    have := h.alone
    grind
  saved := by
    intro x hx
    rw [covered_update_iff]
    have := h.saved x hx
    grind

theorem Kept.add (h : Kept d touched client q held) (hk : client k = .add e) :
    Kept d touched (update client k .idle) (q ++ [e]) held where
  hash := h.hash
  taken := by
    have := h.taken
    have := h.sound k
    grind
  dirty := by
    intro x
    rw [Function.exists_update_iff client fun _ c => c.held? = some x]
    have := h.dirty x
    grind
  sound := by
    rw [Function.forall_update_iff client fun _ c => c.Sound _ _ held]
    refine ⟨trivial, fun j hj => ?_⟩
    have := h.sound j
    have := h.alone j k e
    cases hj : client j <;> grind
  alone := by
    have := h.alone
    grind
  saved := by
    intro x hx
    rw [covered_update_iff]
    have := h.saved x hx
    grind

theorem Kept.modify (h : Kept d touched client q held) (k : Fin m) (data : Block) :
    Kept { d with data := update d.data e data } (update touched (k, e) true) client q held where
  hash := h.hash
  taken := h.taken
  dirty := h.dirty
  sound j := (h.sound j).congr le_rfl fun _ _ => rfl
  alone := h.alone
  saved := by
    intro x hx
    have := h.saved x hx
    have : ∀ j, touched (j, x) = true → update touched (k, e) true (j, x) = true := by grind
    have : update touched (k, e) true (k, e) = true := by grind
    grind

theorem Kept.miss (h : Kept d touched client q held) {b : ℕ} (hb : d.blockHash b = none)
    (hlt : ∀ x ∈ q, x < d.allocated) (data : Block) :
    Kept
      { allocated := d.allocated + 1
        blockHash := update d.blockHash b (some d.allocated)
        disk := d.disk
        blkno := update d.blkno d.allocated b
        isEmpty := update d.isEmpty d.allocated true
        data := update d.data d.allocated data
        isDirty := update d.isDirty d.allocated false } touched client q held where
  hash := by
    have := h.hash
    grind
  taken := by
    have := h.taken
    grind
  dirty := by
    intro x
    have := h.dirty x
    have := h.taken
    have hheld : ∀ j, (client j).held? = some x → x < d.allocated := by
      intro j hj
      have := h.sound j
      cases hc : client j <;> grind
    grind
  sound := by
    intro j
    apply (h.sound j).congr (Nat.le_succ _)
    grind
  alone := h.alone
  saved := by
    intro x hx
    have := h.saved x
    have := h.sound
    grind

/-! ## The cache -/

def contents (c : BlockCacheK42 Block) : Contents Block where
  allocated := c.allocated
  blockHash := c.blockHash
  disk := c.disk
  blkno e := (c.heap e).blkno
  isEmpty e := (c.heap e).isEmpty
  data e := (c.heap e).data
  isDirty e := (c.heap e).isDirty

variable {c : BlockCacheK42 Block} {p p' : Pc}

theorem contents_update (c : BlockCacheK42 Block) (e : ℕ) (b : BlockCacheEntryK42 Block) :
    contents { c with heap := update c.heap e b } =
      { c.contents with
        blkno := update c.contents.blkno e b.blkno
        isEmpty := update c.contents.isEmpty e b.isEmpty
        data := update c.contents.data e b.data
        isDirty := update c.contents.isDirty e b.isDirty } := by
  unfold contents
  congr 1 <;> funext x
  · exact Function.apply_update (fun _ b => b.blkno) c.heap e b x
  · exact Function.apply_update (fun _ b => b.isEmpty) c.heap e b x
  · exact Function.apply_update (fun _ b => b.data) c.heap e b x
  · exact Function.apply_update (fun _ b => b.isDirty) c.heap e b x

theorem contents_setNext (c : BlockCacheK42 Block) (e : ℕ) (link : Option ℕ) :
    (c.modify e fun b => { b with nextDirty := link }).contents =
      c.contents := by
  rw [BlockCacheK42.modify, contents_update]
  simp only [contents, update_eq_self]

theorem contents_setTime (c : BlockCacheK42 Block) (e : ℕ) (time : ℕ) :
    (c.modify e fun b => { b with flushTime := time }).contents =
      c.contents := by
  rw [BlockCacheK42.modify, contents_update]
  simp only [contents, update_eq_self]

theorem contents_setDirty (c : BlockCacheK42 Block) (e : ℕ) (dirty : Bool) :
    (c.modify e fun b => { b with isDirty := dirty }).contents =
      { c.contents with isDirty := update c.contents.isDirty e dirty } := by
  rw [BlockCacheK42.modify, contents_update]
  simp only [contents, update_eq_self]

theorem contents_setEmpty (c : BlockCacheK42 Block) (e : ℕ) (empty : Bool) :
    (c.modify e fun b => { b with isEmpty := empty }).contents =
      { c.contents with isEmpty := update c.contents.isEmpty e empty } := by
  rw [BlockCacheK42.modify, contents_update]
  simp only [contents, update_eq_self]

theorem contents_setData (c : BlockCacheK42 Block) (e : ℕ) (f : BlockCacheEntryK42 Block → Block) :
    (c.modify e fun b => { b with data := f b }).contents =
      { c.contents with data := update c.contents.data e (f (c.heap e)) } := by
  rw [BlockCacheK42.modify, contents_update]
  simp only [contents, update_eq_self]

theorem contents_remove (c : BlockCacheK42 Block) : c.remove.1.contents = c.contents := by
  unfold BlockCacheK42.remove
  split
  · rfl
  · exact contents_setNext c _ none

theorem contents_add (c : BlockCacheK42 Block) (e : ℕ) : (c.add e).contents = c.contents := by
  unfold BlockCacheK42.add
  split
  · rfl
  · exact contents_setNext c _ (some e)

/-- What holds of the entry of the caller at `p`, with the queue `q`. -/
def Pc.Sound (q : List ℕ) : Pc → Prop
  | .test entry | .due entry => q.head? = some entry
  | .remove entry dirty => q.head? = some entry ∧ dirty = true
  | .failed => False
  | _ => True

/-- The cache, with the queue `q` and the caller in `flush` at `p`. -/
structure Shared (c : BlockCacheK42 Block) (touched : Fin m × ℕ → Bool) (client : Fin m → Client)
    (q : List ℕ) (p : Pc) : Prop where
  chained : c.Chained q
  kept : Kept c.contents touched client q p.held?
  here : p.Sound q

theorem Shared.goto (h : Shared c touched client q p) (hp : p'.held? = p.held?)
    (hhere : p'.Sound q) : Shared c touched client q p' where
  chained := h.chained
  kept := by
    rw [hp]
    exact h.kept
  here := hhere

theorem Shared.doingFlush (h : Shared c touched client q p) (i : ℕ) :
    Shared { c with doingFlush := i } touched client q p where
  chained := ⟨h.chained.queue, h.chained.off, h.chained.lt⟩
  kept := h.kept
  here := h.here

theorem Shared.head (h : Shared c touched client q .getHead) (hfirst : c.firstDirty = some e) :
    q.head? = some e := by
  have hq := h.chained.queue
  rw [hfirst] at hq
  obtain ⟨l, rfl⟩ := hq.head
  rfl

theorem Shared.dirty_of_head (h : Shared c touched client q p) (hhead : q.head? = some e) :
    (c.heap e).isDirty = true :=
  (h.kept.dirty e).mpr (.inl (List.mem_of_head? hhead))

theorem Shared.remove (h : Shared c touched client q (.remove e true)) :
    c.remove.2 = some e ∧ Shared c.remove.1 touched client q.tail (.write e) := by
  obtain ⟨l, rfl⟩ : ∃ l, q = e :: l := by
    cases q with
    | nil => cases h.here.1
    | cons a l =>
      obtain rfl := Option.some.inj h.here.1
      exact ⟨l, rfl⟩
  have hnot : e ∉ l := (List.nodup_cons.mp h.chained.queue.path.nodup).1
  refine ⟨by rw [remove_of_first h.chained.firstDirty_eq], h.chained.remove, ?_, trivial⟩
  rw [contents_remove]
  exact Kept.remove h.kept hnot (h.chained.lt e List.mem_cons_self)

theorem Shared.write (h : Shared c touched client q (.write e)) :
    Shared (c.writeBlock e) touched client q (.clearDirty e) where
  chained := ⟨h.chained.queue, h.chained.off, h.chained.lt⟩
  kept := Kept.write h.kept
  here := trivial

theorem Shared.clearDirty (h : Shared c touched client q (.clearDirty e))
    (hfree : ∀ k, (client k).marks? ≠ some e)
    (hdata : (∃ k, touched (k, e) = true) ∨ (c.heap e).data = c.disk (c.heap e).blkno) :
    Shared (c.modify e fun b => { b with isDirty := false }) touched client q (.clearTime e) where
  chained := h.chained.modify rfl
  kept := by
    rw [contents_setDirty]
    exact Kept.clearDirty h.kept hfree hdata
  here := trivial

theorem Shared.clearTime (h : Shared c touched client q (.clearTime e)) :
    Shared (c.modify e fun b => { b with flushTime := 0 }) touched client q (.clearNext e) where
  chained := h.chained.modify rfl
  kept := by
    rw [contents_setTime]
    exact h.kept
  here := trivial

theorem Shared.clearNext (h : Shared c touched client q (.clearNext e))
    (hnext : (c.heap e).nextDirty = none) :
    Shared (c.modify e fun b => { b with nextDirty := none }) touched client q .getHead where
  chained := h.chained.modify hnext.symm
  kept := by
    rw [contents_setNext]
    exact h.kept
  here := trivial

theorem Shared.getBlock [Inhabited Block] (h : Shared c touched client q p) {b : ℕ} (hb : b ≠ 0) :
    Shared (c.getBlock b).1 touched client q p := by
  unfold BlockCacheK42.getBlock
  rw [if_neg hb]
  cases hhash : c.blockHash b with
  | some e => exact h
  | none =>
    have hchain : (c.alloc (newEntry b)).Chained q := h.chained.alloc rfl
    refine ⟨⟨hchain.queue, hchain.off, hchain.lt⟩, ?_, h.here⟩
    show Kept { contents { c with heap := update c.heap c.allocated (newEntry b) } with
      allocated := _, blockHash := _ } touched client q p.held?
    rw [contents_update]
    exact h.kept.miss hhash h.chained.lt default

theorem Shared.modify (h : Shared c touched client q p) (k : Fin m) (e : ℕ) (data : Block) :
    Shared (c.modify e fun b => { b with data }) (update touched (k, e) true) client q p where
  chained := h.chained.modify rfl
  kept := by
    rw [contents_setData]
    exact h.kept.modify k data
  here := h.here

theorem Pc.Sound.append (h : p.Sound q) (e : ℕ) : p.Sound (q ++ [e]) := by
  have hhead : ∀ x, q.head? = some x → (q ++ [e]).head? = some x := by
    intro x hx
    rw [List.head?_append, hx]
    rfl
  cases p with
  | test x => exact hhead x h
  | due x => exact hhead x h
  | remove x d => exact ⟨hhead x h.1, h.2⟩
  | failed => exact h
  | idle | getHead | write x | clearDirty x | clearTime x | clearNext x | leave => trivial

theorem Shared.add (h : Shared c touched client q p) (hk : client k = .add e) :
    Shared (c.add e) touched (update client k .idle) (q ++ [e]) p := by
  have hsound := h.kept.sound k
  rw [hk] at hsound
  refine ⟨h.chained.add hsound.2.1 hsound.1, ?_, h.here.append e⟩
  rw [contents_add]
  exact h.kept.add hk

/-! ## Runs -/

namespace Sys

variable {s : Sys Block n m} {t : Fin n}

/-- No caller but one is in `flush`, and it is at `p`; if none is, `p` is `idle`. -/
structure Alone (pc : Fin n → Pc) (p : Pc) : Prop where
  at_most : ∀ t, pc t ≠ .idle → pc t = p ∧ ∀ u, pc u ≠ .idle → u = t
  some : p ≠ .idle → ∃ t, pc t = p

/-- The invariant: one caller at most is in `flush`, it is at `p`, and it has left
its mark in `doingFlush`. -/
structure Inv (s : Sys Block n m) (q : List ℕ) (p : Pc) : Prop where
  shared : s.cache.Shared s.touched s.client q p
  alone : Alone s.pc p
  busy : p ≠ .idle → 1 ≤ s.cache.doingFlush

theorem Alone.eq_of_ne_idle {pc : Fin n → Pc} (h : Alone pc p) (ht : pc t ≠ .idle) : p = pc t :=
  (h.at_most t ht).1.symm

theorem Alone.idle {pc : Fin n → Pc} (h : Alone pc p) (hall : ∀ t, pc t = .idle) : p = .idle := by
  by_contra hp
  obtain ⟨t, ht⟩ := h.some hp
  exact hp (ht.symm.trans (hall t))

theorem alone_update {pc : Fin n → Pc} (hfree : ∀ u, pc u ≠ .idle → u = t) :
    Alone (update pc t p') p' where
  at_most := by
    intro u hu
    have hut : u = t := by
      by_contra hne
      rw [update_of_ne hne] at hu
      exact hne (hfree u hu)
    subst hut
    refine ⟨update_self u p' pc, ?_⟩
    intro v hv
    by_contra hne
    rw [update_of_ne hne] at hv
    exact hne (hfree v hv)
  some := fun _ => ⟨t, update_self t p' pc⟩

theorem Inv.goto {c : BlockCacheK42 Block} {q' : List ℕ} (h : s.Inv q p) (ht : s.pc t ≠ .idle)
    (hshared : c.Shared s.touched s.client q' p') (hbusy : p' ≠ .idle → 1 ≤ c.doingFlush) :
    (s.goto t c p').Inv q' p' where
  shared := hshared
  alone := alone_update (h.alone.at_most t ht).2
  busy := hbusy

theorem doingFlush_remove (c : BlockCacheK42 Block) : c.remove.1.doingFlush = c.doingFlush := by
  unfold remove
  split <;> rfl

theorem doingFlush_add (c : BlockCacheK42 Block) (e : ℕ) :
    (c.add e).doingFlush = c.doingFlush := by
  unfold add
  split <;> rfl

theorem Inv.enter (h : s.Inv q p) (ht : s.pc t = .idle) (hsafe : s.cache.doingFlush ≤ 1)
    (check : ℕ) : ∃ q' p', (s.enter t check).Inv q' p' := by
  unfold Sys.enter
  by_cases hone : s.cache.doingFlush = 1
  · simp only [if_pos hone]
    have hpc : update s.pc t .idle = s.pc := by
      rw [← ht]
      exact update_eq_self t s.pc
    refine ⟨q, p, h.shared.doingFlush _, ?_, ?_⟩
    · show Alone (update s.pc t .idle) p
      rw [hpc]
      exact h.alone
    · intro _
      exact Nat.le_add_left _ _
  · simp only [if_neg hone]
    -- the old value was zero, so nobody is in `flush`
    have hidle : p = .idle := by
      by_contra hp
      have := h.busy hp
      omega
    subst hidle
    have hnone : ∀ u, s.pc u ≠ .idle → u = t := by
      intro u hu
      exact absurd (h.alone.at_most u hu).1 hu
    refine ⟨q, .getHead, ?_, alone_update hnone, fun _ => Nat.le_add_left _ _⟩
    exact (h.shared.doingFlush _).goto rfl trivial

theorem Inv.advance (h : s.Inv q p) (ht : s.pc t ≠ .idle) {now : ℕ} {ok : Bool}
    (hsafe : s.Safe (.advance t now ok)) : ∃ q' p', (s.advance t now ok).Inv q' p' := by
  have hbusy : 1 ≤ s.cache.doingFlush := by
    apply h.busy
    rw [h.alone.eq_of_ne_idle ht]
    exact ht
  have hshared := h.shared
  rw [h.alone.eq_of_ne_idle ht] at hshared
  have hsafe : s.SafeAt ok (s.pc t) := hsafe
  unfold Sys.advance
  cases hpc : s.pc t with
  | idle => exact absurd hpc ht
  | getHead =>
    rw [hpc] at hshared
    dsimp only
    cases hfirst : s.cache.firstDirty with
    | none => exact ⟨q, .leave, h.goto ht (hshared.goto rfl trivial) fun _ => hbusy⟩
    | some e =>
      have hhead := hshared.head hfirst
      exact ⟨q, .test e, h.goto ht (hshared.goto rfl hhead) fun _ => hbusy⟩
  | test e =>
    rw [hpc] at hshared
    dsimp only
    rw [if_pos (hshared.dirty_of_head hshared.here)]
    exact ⟨q, .due e, h.goto ht (hshared.goto rfl hshared.here) fun _ => hbusy⟩
  | due e =>
    rw [hpc] at hshared
    dsimp only
    by_cases hdue : s.cache.Due (s.checkFlushTime t) e now
    · rw [if_pos hdue]
      exact ⟨q, .remove e true,
        h.goto ht (hshared.goto rfl ⟨hshared.here, rfl⟩) fun _ => hbusy⟩
    · rw [if_neg hdue]
      exact ⟨q, .leave, h.goto ht (hshared.goto rfl trivial) fun _ => hbusy⟩
  | remove e d =>
    rw [hpc] at hshared
    obtain rfl : d = true := hshared.here.2
    obtain ⟨hhead, hnew⟩ := hshared.remove
    dsimp only
    rw [if_pos hhead]
    refine ⟨q.tail, .write e, h.goto ht hnew fun _ => ?_⟩
    rw [doingFlush_remove]
    exact hbusy
  | write e =>
    rw [hpc] at hshared hsafe
    obtain rfl : ok = true := hsafe
    exact ⟨q, .clearDirty e, h.goto ht hshared.write fun _ => hbusy⟩
  | clearDirty e =>
    rw [hpc] at hshared hsafe
    exact ⟨q, .clearTime e, h.goto ht (hshared.clearDirty hsafe.1 hsafe.2) fun _ => hbusy⟩
  | clearTime e =>
    rw [hpc] at hshared
    exact ⟨q, .clearNext e, h.goto ht hshared.clearTime fun _ => hbusy⟩
  | clearNext e =>
    rw [hpc] at hshared hsafe
    exact ⟨q, .getHead, h.goto ht (hshared.clearNext hsafe) fun _ => hbusy⟩
  | leave =>
    rw [hpc] at hshared
    refine ⟨q, .idle, h.goto ht ?_ fun hne => absurd rfl hne⟩
    exact (hshared.doingFlush 0).goto rfl trivial
  | failed =>
    rw [hpc] at hshared
    exact absurd hshared.here id

theorem Inv.gotoClient {c : BlockCacheK42 Block} {a : Client} (h : s.Inv q p)
    (hdoing : c.doingFlush = s.cache.doingFlush) (hchain : c.Chained q)
    (hkept : Kept c.contents s.touched (update s.client k a) q p.held?) :
    (s.gotoClient k c a).Inv q p where
  shared := ⟨hchain, hkept, h.shared.here⟩
  alone := h.alone
  busy := fun hp => hdoing ▸ h.busy hp

theorem Inv.modifyClient {f : BlockCacheEntryK42 Block → BlockCacheEntryK42 Block} {a : Client}
    (h : s.Inv q p) (hnext : (f (s.cache.heap e)).nextDirty = (s.cache.heap e).nextDirty)
    (hkept : Kept (s.cache.modify e f).contents s.touched (update s.client k a) q p.held?) :
    (s.gotoClient k (s.cache.modify e f) a).Inv q p :=
  h.gotoClient rfl (h.shared.chained.modify hnext) hkept

theorem Inv.advanceClient (h : s.Inv q p) (k : Fin m) (now : ℕ) :
    ∃ q', (s.advanceClient k now).Inv q' p := by
  have hkept := h.shared.kept
  unfold Sys.advanceClient
  cases hk : s.client k with
  | idle => exact ⟨q, h⟩
  | read e =>
    refine ⟨q, h.modifyClient rfl ?_⟩
    rw [contents_setData]
    exact hkept.read hk
  | setRead e =>
    refine ⟨q, h.modifyClient rfl ?_⟩
    rw [contents_setEmpty]
    exact hkept.setRead hk
  | test e w =>
    have htest := hkept.test hk
    rw [show s.cache.contents.isDirty e = (s.cache.heap e).isDirty from rfl] at htest
    dsimp only
    by_cases hdirty : (s.cache.heap e).isDirty = true
    · rw [if_pos hdirty] at htest ⊢
      exact ⟨q, h.gotoClient rfl h.shared.chained htest⟩
    · rw [if_neg hdirty] at htest ⊢
      exact ⟨q, h.gotoClient rfl h.shared.chained htest⟩
  | setDirty e w =>
    refine ⟨q, h.modifyClient rfl ?_⟩
    rw [contents_setDirty]
    exact hkept.setDirty hk
  | setNotEmpty e w =>
    refine ⟨q, h.modifyClient rfl ?_⟩
    rw [contents_setEmpty]
    exact hkept.setNotEmpty hk
  | setTime e w =>
    refine ⟨q, h.modifyClient rfl ?_⟩
    rw [contents_setTime]
    exact hkept.setTime hk
  | add e =>
    refine ⟨q ++ [e], h.shared.add hk, h.alone, fun hp => ?_⟩
    show 1 ≤ (s.cache.add e).doingFlush
    rw [doingFlush_add]
    exact h.busy hp

variable [Inhabited Block]

instance (s : Sys Block n m) : (act : Act Block n m) → Decidable (s.Possible act)
  | .getBlock _ | .advance .. | .advanceClient .. => inferInstanceAs (Decidable (_ ≠ _))
  | .modify _ e _ => inferInstanceAs (Decidable (e < s.cache.allocated))
  | .readData .. | .markDirty .. => inferInstanceAs (Decidable (_ ∧ _))
  | .enter .. => inferInstanceAs (Decidable (_ = _))

instance (s : Sys Block n m) (e : ℕ) : Decidable (s.Unmarked e) :=
  inferInstanceAs (Decidable (∀ _, _))

instance [DecidableEq Block] (s : Sys Block n m) (ok : Bool) : (p : Pc) → Decidable (s.SafeAt ok p)
  | .write _ => inferInstanceAs (Decidable (ok = true))
  | .clearDirty _ => inferInstanceAs (Decidable (_ ∧ _))
  | .clearNext _ => inferInstanceAs (Decidable (_ = _))
  | .idle | .getHead | .test _ | .due _ | .remove .. | .clearTime _ | .leave | .failed =>
    isTrue trivial

instance [DecidableEq Block] (s : Sys Block n m) :
    (act : Act Block n m) → Decidable (s.Safe act)
  | .getBlock _ | .readData .. | .modify .. | .advanceClient .. => isTrue trivial
  | .markDirty .. => inferInstanceAs (Decidable (_ ∨ _))
  | .enter _ _ => inferInstanceAs (Decidable (_ ≤ _))
  | .advance t _ ok => inferInstanceAs (Decidable (s.SafeAt ok (s.pc t)))

/-- Every interleaving. -/
def anySteps : Machine (Sys Block n m) (Act Block n m) where
  step := step
  adm := Possible

/-- The interleavings of steps on which nothing is lost. -/
def safeSteps : Machine (Sys Block n m) (Act Block n m) where
  step := step
  adm s act := s.Possible act ∧ s.Safe act

instance (s : Sys Block n m) (act : Act Block n m) : Decidable (anySteps.adm s act) :=
  inferInstanceAs (Decidable (s.Possible act))

instance [DecidableEq Block] (s : Sys Block n m) (act : Act Block n m) :
    Decidable (safeSteps.adm s act) :=
  inferInstanceAs (Decidable (s.Possible act ∧ s.Safe act))

theorem start_inv (disk : ℕ → Block) (ticks : ℕ) :
    (start disk ticks : Sys Block n m).Inv [] .idle where
  shared :=
    { chained := (init_inv disk ticks).toChained
      kept :=
        { hash := fun _ h => absurd h (Nat.not_lt_zero _)
          taken := nofun
          dirty := by simp [start, contents, init, newEntry, Pc.held?, Client.held?]
          sound := fun _ => trivial
          alone := nofun
          saved := fun _ h => absurd h (Nat.not_lt_zero _) }
      here := trivial }
  alone := ⟨fun _ h => absurd rfl h, fun h => absurd rfl h⟩
  busy := fun h => absurd rfl h

theorem step_inv {act : Act Block n m} (h : s.Inv q p) (hadm : s.Possible act)
    (hsafe : s.Safe act) : ∃ q' p', (s.step act).Inv q' p' := by
  cases act with
  | getBlock b =>
    refine ⟨q, p, h.shared.getBlock hadm, h.alone, ?_⟩
    intro hp
    show 1 ≤ (s.cache.getBlock b).1.doingFlush
    rw [doingFlush_getBlock]
    exact h.busy hp
  | readData k e =>
    show ∃ q' p', (s.readData k e).Inv q' p'
    unfold Sys.readData
    split
    · exact ⟨q, p, ⟨h.shared.chained, h.shared.kept.readData hadm.1 hadm.2, h.shared.here⟩,
        h.alone, h.busy⟩
    · exact ⟨q, p, h⟩
  | modify k e data => exact ⟨q, p, h.shared.modify k e data, h.alone, h.busy⟩
  | markDirty k e =>
    exact ⟨q, p, ⟨h.shared.chained, h.shared.kept.markDirty hadm.1 hadm.2 hsafe, h.shared.here⟩,
      h.alone, h.busy⟩
  | advanceClient k now =>
    obtain ⟨q', hq'⟩ := h.advanceClient k now
    exact ⟨q', p, hq'⟩
  | enter t check => exact h.enter hadm hsafe check
  | advance t now ok => exact h.advance hadm hsafe

/-- One caller at most is past the test of `doingFlush`; the entry it is about to
remove is the head; and while no flush is in progress, an entry whose data
differs from the disk is dirty and on the queue. An entry holds no data before it
has been read or marked, and none to speak of while a client that has changed it
is not past `markDirty`. -/
structure LosesNothing (s : Sys Block n m) : Prop where
  one : ∀ t u, s.pc t ≠ .idle → s.pc u ≠ .idle → t = u
  head : ∀ t e dirty, s.pc t = .remove e dirty → s.cache.firstDirty = some e
  marked : (∀ t, s.pc t = .idle) → ∀ e < s.cache.allocated, (s.cache.heap e).isEmpty = false →
    (∀ k, s.touched (k, e) = false) → s.Unmarked e →
    (s.cache.heap e).data ≠ s.cache.disk (s.cache.heap e).blkno →
    (s.cache.heap e).isDirty = true ∧ e ∈ s.cache.queue

omit [Inhabited Block] in
theorem Inv.losesNothing (h : s.Inv q p) : s.LosesNothing where
  one := by
    intro t u ht hu
    exact ((h.alone.at_most t ht).2 u hu).symm
  head := by
    intro t e dirty ht
    have hshared := h.shared
    rw [h.alone.eq_of_ne_idle (by rw [ht]; nofun), ht] at hshared
    have hhead : q.head? = some e := hshared.here.1
    cases q with
    | nil => cases hhead
    | cons a l =>
      rw [h.shared.chained.firstDirty_eq]
      exact hhead
  marked := by
    intro hall e hlt hload htouched hmarks hne
    obtain rfl := h.alone.idle hall
    have hq : e ∈ q := by
      rcases h.shared.kept.saved e hlt with hdisk | hq | hheld | ⟨k, hk⟩ | ⟨k, hk⟩ | ⟨hempty, -⟩
      · exact absurd hdisk hne
      · exact hq
      · cases hheld
      · cases hk.symm.trans (htouched k)
      · exact absurd hk (hmarks k)
      · cases hempty.symm.trans hload
    rw [h.shared.chained.queue_eq]
    exact ⟨(h.shared.kept.dirty e).mpr (.inl hq), hq⟩

/-- In every interleaving of steps on which nothing is lost. -/
theorem run_losesNothing {disk : ℕ → Block} {ticks : ℕ} {acts : List (Act Block n m)}
    (hrun : safeSteps.Run (start disk ticks) acts s) : s.LosesNothing := by
  have hinv : ∃ q p, s.Inv q p := by
    refine hrun.invariant (I := fun s => ∃ q p, s.Inv q p) ?_ ?_
    · exact ⟨[], .idle, start_inv disk ticks⟩
    · rintro s act ⟨q, p, h⟩ ⟨hadm, hsafe⟩
      exact step_inv h hadm hsafe
  obtain ⟨q, p, h⟩ := hinv
  exact h.losesNothing

open scoped SmallFin

/-- Client `k` marks the clean entry `e`. -/
def mark (k : Fin m) (e now : ℕ) : List (Act Block n m) :=
  .markDirty k e :: List.replicate 5 (.advanceClient k now)

/-- Steps of the flush by caller `t`. -/
def flushSteps (t : Fin n) (count : ℕ) : List (Act Block n m) :=
  List.replicate count (.advance t 50 true)

omit [Inhabited Block] in
theorem modify_modify (c : BlockCacheK42 Block) (e : ℕ)
    (f g : BlockCacheEntryK42 Block → BlockCacheEntryK42 Block) :
    (c.modify e f).modify e g = c.modify e (g ∘ f) := by
  simp [BlockCacheK42.modify]

/-- The steps of `markDirty`, and those of an entry's `flush`, with nobody in
between. -/
theorem cache_mark {k : Fin m} {e : ℕ} (hclean : (s.cache.heap e).isDirty = false) (now : ℕ) :
    ((mark k e now).foldl step s).cache = s.cache.markDirty e now := by
  simp [mark, step, Sys.markDirty, Sys.advanceClient, Sys.gotoClient, List.replicate, hclean,
    BlockCacheK42.markDirty, entryMarkDirty, modify_modify, Function.comp_def]
  rfl

theorem cache_flushSteps {e : ℕ} (ht : s.pc t = .write e) :
    ((flushSteps t 4).foldl step s).cache = s.cache.entryFlush e true := by
  simp [flushSteps, step, Sys.advance, Sys.goto, List.replicate, ht, entryFlush,
    BlockCacheK42.clearDirty, modify_modify, Function.comp_def]

/-- Client `k` changes the clean entry `e` and marks it. -/
def change (k : Fin m) (e data : ℕ) : List (Act ℕ n m) := .modify k e data :: mark k e 10

/-- A second caller is turned away, a client changes the entry before it is
written, and marks it again after its flag has been cleared. -/
def twoCallers : List (Act ℕ 2 1) :=
  [Act.getBlock 1, .readData 0 0, .advanceClient 0 9, .advanceClient 0 9] ++ change 0 0 5 ++
    [Act.enter 0 0, .enter 1 0] ++ flushSteps 0 4 ++
    [Act.modify 0 0 6, .markDirty 0 0, .advanceClient 0 12] ++ flushSteps 0 3 ++ change 0 0 7 ++
    flushSteps 0 9

theorem run_losesNothing_twoCallers :
    safeSteps.Admits (start (fun _ => 0) 1) twoCallers ∧
      LosesNothing (twoCallers.foldl step (start (fun _ => 0) 1)) := by
  have hadm : safeSteps.Admits (start (fun _ => 0) 1) twoCallers := by decide +kernel
  exact ⟨hadm, run_losesNothing hadm.run⟩

/-- The second caller leaves `doingFlush` at two, and the third is let in. -/
def threeCallers : List (Act ℕ 3 0) := [.enter 0 0, .enter 1 0, .enter 2 0]

/-- A client changes and marks the entry after the write and before the flag is
cleared. -/
def lateUpdate : List (Act ℕ 1 1) :=
  Act.getBlock 1 :: change 0 0 5 ++ [Act.enter 0 0] ++ flushSteps 0 5 ++
    [Act.modify 0 0 6, .markDirty 0 0, .advanceClient 0 12] ++ flushSteps 0 5

/-- A client marks the entry, and another one behind it, after the flag is cleared
and before the link is. -/
def lateLink : List (Act ℕ 1 1) :=
  [Act.getBlock 1, .getBlock 2] ++ change 0 0 5 ++ [Act.enter 0 0] ++ flushSteps 0 6 ++ change 0 0 6 ++
    change 0 1 7 ++ flushSteps 0 12

/-- Two clients find the entry clean and put it on the queue twice, with another
one in between. -/
def twoMarks : List (Act ℕ 1 2) :=
  [Act.getBlock 1, .getBlock 2, .getBlock 3, .modify 0 0 5, .modify 1 0 6,
    .markDirty 1 0] ++ mark 0 0 10 ++
    change 0 1 7 ++ List.replicate 2 (Act.advanceClient 1 10) ++ change 0 2 8

theorem not_losesNothing_of_unqueued {acts : List (Act ℕ n m)} (e : ℕ)
    (hadm : anySteps.Admits (start (fun _ => 0) 1) acts)
    (hlost : let s : Sys ℕ n m := acts.foldl step (start (fun _ => 0) 1)
      (∀ t, s.pc t = .idle) ∧ e < s.cache.allocated ∧ (s.cache.heap e).isEmpty = false ∧
        (∀ k, s.touched (k, e) = false) ∧ s.Unmarked e ∧
        (s.cache.heap e).data ≠ s.cache.disk (s.cache.heap e).blkno ∧ e ∉ s.cache.queue) :
    ∃ s : Sys ℕ n m, anySteps.Run (start (fun _ => 0) 1) acts s ∧ ¬ s.LosesNothing := by
  obtain ⟨hidle, hlt, hload, htouched, hmarks, hdata, hqueue⟩ := hlost
  exact ⟨_, hadm.run, fun h => hqueue (h.marked hidle e hlt hload htouched hmarks hdata).2⟩

/-- Three callers put two of them in `flush`; and in three runs that end with no
flush in progress an entry is off the queue with data that differs from the disk:
the late update is lost, and so is an entry behind one whose link is cleared late,
and an entry between the two places of one that is put on the queue twice. -/
theorem loses_of_third_caller_and_late_update :
    (∃ s, anySteps.Run (start (fun _ => 0) 1) threeCallers s ∧ ¬ s.LosesNothing) ∧
      (∃ s, anySteps.Run (start (fun _ => 0) 1) lateUpdate s ∧ ¬ s.LosesNothing) ∧
      (∃ s, anySteps.Run (start (fun _ => 0) 1) lateLink s ∧ ¬ s.LosesNothing) ∧
      ∃ s, anySteps.Run (start (fun _ => 0) 1) twoMarks s ∧ ¬ s.LosesNothing := by
  have hthree : anySteps.Admits (start (fun _ => 0) 1) threeCallers := by decide +kernel
  refine ⟨⟨_, hthree.run, ?_⟩, ?_, ?_, ?_⟩
  · intro h
    have hone := h.one 0 2 (by decide +kernel) (by decide +kernel)
    revert hone
    decide
  · exact not_losesNothing_of_unqueued 0 (by decide +kernel) (by decide +kernel)
  · exact not_losesNothing_of_unqueued 1 (by decide +kernel) (by decide +kernel)
  · exact not_losesNothing_of_unqueued 1 (by decide +kernel) (by decide +kernel)

end Sys

end BlockCacheK42

end K42
