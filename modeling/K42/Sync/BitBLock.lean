import K42.Lib.Run
import K42.Lib.Update
import Mathlib.Data.Finset.Card

/-!
# Blocking locks in the bits of a word

`BitBLock` keeps a lock bit and a wait bit beside the data of a 64-bit word. A thread that
does not get the lock bit spins, then puts itself on the queue of `BlockedThreadQueues` that
the address hashes to, and blocks only when it has seen both bits set in one word. A release
that does not find the wait bit clear stores the data with both bits clear, and after that
wakes up every thread that is queued on the address.

Every step is one atomic operation on a word, one call of `BlockedThreadQueues`, or one call
of `Block` or `Unblock`. The words of all locks share the table of queues.
-/

open Function (update update_cases update_of_ne update_self)

namespace K42

abbrev BitBLock.Addr := BitVec 64

/-- `__LOCK_BIT_MASK(BS)` and `__WAIT_BIT_MASK(BS)`. -/
structure BitBLock.Masks where
  lock : BitVec 64
  wait : BitVec 64
  lock_ne : lock ≠ 0#64
  wait_ne : wait ≠ 0#64

/-- `BlockedThreadQueues::Element`. -/
structure BitBLock.Element (τ : Type) where
  threadID : τ
  blockedOn : BitBLock.Addr
deriving DecidableEq

/-- Where a thread is; `fetch` says that `datap` is not `NULL`. -/
inductive BitBLock.Pc
  | idle
  | spin (lptr : BitBLock.Addr) (fetch : Bool) (spinCount : ℕ)
  | grab (lptr : BitBLock.Addr) (fetch : Bool) (spinCount : ℕ)
  | enqueue (lptr : BitBLock.Addr) (fetch : Bool)
  | fetchOr (lptr : BitBLock.Addr) (fetch : Bool)
  | load (lptr : BitBLock.Addr) (fetch : Bool)
  | setWait (lptr : BitBLock.Addr) (fetch : Bool) (cur : BitVec 64)
  | blocking (lptr : BitBLock.Addr) (fetch : Bool)
  | blocked (lptr : BitBLock.Addr) (fetch : Bool)
  | dequeue (lptr : BitBLock.Addr) (fetch : Bool)
  | fetchData (lptr : BitBLock.Addr)
  | loadRel (lptr : BitBLock.Addr) (bs : Option (BitVec 64))
  | storeRel (lptr : BitBLock.Addr) (bs : Option (BitVec 64)) (curval : BitVec 64)
  | swap (lptr : BitBLock.Addr) (bs : Option (BitVec 64)) (data : BitVec 64)
  | wakeupAll (lptr : BitBLock.Addr)
deriving DecidableEq

/-- The words, the queues and the threads. `datap t x` is what the last acquire of `x` by `t`
has returned in `*datap`; the history has in `owners x` the threads that got the lock bit of
`x` and have not released it, and in `stored x` the data of the last `release(bs)`. -/
structure BitBLock (τ : Type) where
  word : BitBLock.Addr → BitVec 64
  table : BitVec 64 → List (BitBLock.Element τ)
  pc : τ → BitBLock.Pc
  wasUnblocked : τ → Bool
  datap : τ → BitBLock.Addr → Option (BitVec 64)
  owners : BitBLock.Addr → Finset τ
  stored : BitBLock.Addr → BitVec 64

namespace BitBLock

variable {τ : Type} [DecidableEq τ]

/-- `BlockedThreadQueues::hash`. -/
def hash (key : BitVec 64) : BitVec 64 := (key * 0x9e3779b99e3779b9#64) >>> (64 - 10)

namespace Masks

variable (m : Masks) (l : BitVec 64)

def Locked : Prop := l &&& m.lock ≠ 0#64

def Waited : Prop := l &&& m.wait ≠ 0#64

instance : Decidable (m.Locked l) := inferInstanceAs (Decidable (_ ≠ _))

instance : Decidable (m.Waited l) := inferInstanceAs (Decidable (_ ≠ _))

/-- The word without its two bits. -/
def data : BitVec 64 := l &&& ~~~(m.lock ||| m.wait)

end Masks

/-- `init(bs)`. -/
def init (M : Addr → Masks) (bs : Addr → BitVec 64) : BitBLock τ where
  word := fun x => (M x).data (bs x)
  table := fun _ => []
  pc := fun _ => .idle
  wasUnblocked := fun _ => false
  datap := fun _ _ => none
  owners := fun _ => ∅
  stored := bs

def goto (s : BitBLock τ) (t : τ) (p : Pc) : BitBLock τ :=
  { s with pc := update s.pc t p }

def setWord (s : BitBLock τ) (x : Addr) (l : BitVec 64) : BitBLock τ :=
  { s with word := update s.word x l }

/-- `*datap = v`. -/
def setDatap (s : BitBLock τ) (t : τ) (x : Addr) (v : Option (BitVec 64)) : BitBLock τ :=
  { s with datap := update s.datap t (update (s.datap t) x v) }

def own (s : BitBLock τ) (t : τ) (x : Addr) : BitBLock τ :=
  { s with owners := update s.owners x (insert t (s.owners x)) }

/-- The word `x` gets the value `l` from the release by `t` with `bs`. -/
def disown (s : BitBLock τ) (t : τ) (x : Addr) (bs : Option (BitVec 64)) (l : BitVec 64) :
    BitBLock τ :=
  { s with
    word := update s.word x l
    owners := update s.owners x ((s.owners x).erase t)
    stored := update s.stored x (bs.getD (s.stored x)) }

/-! ## Queues -/

/-- `BlockedThreadQueues::addCurThreadToQueue`. -/
def addCurThreadToQueue (s : BitBLock τ) (t : τ) (x : Addr) : BitBLock τ :=
  { s with table := update s.table (hash x) (s.table (hash x) ++ [⟨t, x⟩]) }

/-- `BlockedThreadQueues::removeCurThreadFromQueue`. -/
def removeCurThreadFromQueue (s : BitBLock τ) (t : τ) (x : Addr) : BitBLock τ :=
  { s with table := update s.table (hash x) ((s.table (hash x)).erase ⟨t, x⟩) }

/-- `Scheduler::Unblock`: a thread that is not blocked will not block the next time. -/
def unblock (s : BitBLock τ) (t : τ) : BitBLock τ :=
  match s.pc t with
  | .blocked x fetch => s.goto t (.fetchOr x fetch)
  | _ => { s with wasUnblocked := update s.wasUnblocked t true }

/-- The loop of `BlockedThreadQueues::wakeupAll` over what is left of the queue. -/
def wakeupOn (on : Addr) : List (Element τ) → BitBLock τ → BitBLock τ
  | [], s => s
  | ptr :: rest, s =>
    if ptr.blockedOn = on then wakeupOn on rest (s.unblock ptr.threadID)
    else wakeupOn on rest s

/-- `BlockedThreadQueues::wakeupAll`. -/
def wakeupAll (s : BitBLock τ) (on : Addr) : BitBLock τ := wakeupOn on (s.table (hash on)) s

/-! ## Acquire and release -/

section Calls

variable (M : Addr → Masks) (yieldVPLimit : ℕ) (s : BitBLock τ) (t : τ) (x : Addr)

/-- `FetchAndOr64Synced(lptr, lockBitMask)`, and where to go when the lock bit was clear and
when it was set. -/
def fetchAndOr (wins fails : Pc) : BitBLock τ :=
  if (M x).Locked (s.word x) then (s.setWord x (s.word x ||| (M x).lock)).goto t fails
  else ((s.setWord x (s.word x ||| (M x).lock)).own t x).goto t wins

/-- `BitBLock_AcquireAndFetch` and `BitBLock_TryAcquireAndFetch`, and without `fetch` their
variants that return no data, up to the call of the slow path. -/
def acquireFast (fetch : Bool) (fails : Pc) : BitBLock τ :=
  (s.setDatap t x (if fetch then some (s.word x) else none)).fetchAndOr M t x .idle fails

/-- The head of the spin loop. -/
def spinOn (fetch : Bool) (spinCount : ℕ) : Pc :=
  if spinCount < yieldVPLimit then .spin x fetch spinCount else .enqueue x fetch

/-- The spin loop reads the word. The yields between the rounds are steps of other threads. -/
def spin (fetch : Bool) (spinCount : ℕ) : BitBLock τ :=
  if ¬ (M x).Locked (s.word x) then s.goto t (.grab x fetch spinCount)
  else if (M x).Waited (s.word x) then s.goto t (.enqueue x fetch)
  else s.goto t (spinOn yieldVPLimit x fetch (spinCount + 1))

/-- `cur = *lptr` after the lock bit was found set. -/
def load (fetch : Bool) : BitBLock τ :=
  if (M x).Locked (s.word x) then
    if (M x).Waited (s.word x) then s.goto t (.blocking x fetch)
    else s.goto t (.setWait x fetch (s.word x))
  else s.goto t (.fetchOr x fetch)

/-- `CompareAndStore64Synced(lptr, cur, cur|waitBitMask)`. -/
def setWait (fetch : Bool) (cur : BitVec 64) : BitBLock τ :=
  if s.word x = cur then (s.setWord x (cur ||| (M x).wait)).goto t (.blocking x fetch)
  else s.goto t (.fetchOr x fetch)

/-- `Scheduler::Block`. -/
def block (fetch : Bool) : BitBLock τ :=
  if s.wasUnblocked t then
    { s with wasUnblocked := update s.wasUnblocked t false }.goto t (.fetchOr x fetch)
  else s.goto t (.blocked x fetch)

/-- After the lock is held: read the data if `datap` is not `NULL`. -/
def thenFetch (fetch : Bool) : Pc := if fetch then .fetchData x else .idle

/-- `*datap = (*lptr) & ~(lockBitMask|waitBitMask)`. -/
def fetchData : BitBLock τ := (s.setDatap t x (some ((M x).data (s.word x)))).goto t .idle

/-- `curval = (*lptr) & ~waitBitMask`. -/
def loadRel (bs : Option (BitVec 64)) : BitBLock τ :=
  s.goto t (.storeRel x bs (s.word x &&& ~~~(M x).wait))

/-- What a release stores: `bs`, or the word it has read without the lock bit. -/
def newval (bs : Option (BitVec 64)) (curval : BitVec 64) : BitVec 64 :=
  bs.getD (curval &&& ~~~(M x).lock)

/-- `CompareAndStore64Volatile(lptr, curval, newval)`. -/
def storeRel (bs : Option (BitVec 64)) (curval : BitVec 64) : BitBLock τ :=
  if s.word x = curval then (s.disown t x bs (newval M x bs curval)).goto t .idle
  else s.goto t (.swap x bs (newval M x bs curval))

/-- The next step of a thread that is in the middle of a call. -/
def advance : BitBLock τ :=
  match s.pc t with
  | .idle => s
  | .spin x fetch n => s.spin M yieldVPLimit t x fetch n
  | .grab x fetch n =>
    s.fetchAndOr M t x (thenFetch x fetch) (spinOn yieldVPLimit x fetch (n + 1))
  | .enqueue x fetch => (s.addCurThreadToQueue t x).goto t (.fetchOr x fetch)
  | .fetchOr x fetch => s.fetchAndOr M t x (.dequeue x fetch) (.load x fetch)
  | .load x fetch => s.load M t x fetch
  | .setWait x fetch cur => s.setWait M t x fetch cur
  | .blocking x fetch => s.block t x fetch
  | .blocked _ _ => s
  | .dequeue x fetch => (s.removeCurThreadFromQueue t x).goto t (thenFetch x fetch)
  | .fetchData x => s.fetchData M t x
  | .loadRel x bs => s.loadRel M t x bs
  | .storeRel x bs curval => s.storeRel M t x bs curval
  | .swap x bs data => (s.disown t x bs data).goto t (.wakeupAll x)
  | .wakeupAll x => (s.wakeupAll x).goto t .idle

end Calls

/-! ## Interleavings -/

inductive Action (τ : Type)
  | acquire (t : τ) (x : Addr) (fetch : Bool)
  | tryAcquire (t : τ) (x : Addr) (fetch : Bool)
  | release (t : τ) (x : Addr) (bs : Option (BitVec 64))
  | advance (t : τ)
  | unblock (t : τ)         -- an `Unblock` from elsewhere

section Step

variable (M : Addr → Masks) (yieldVPLimit : ℕ)

def step (s : BitBLock τ) : Action τ → BitBLock τ
  | .acquire t x fetch => s.acquireFast M t x fetch (spinOn yieldVPLimit x fetch 0)
  | .tryAcquire t x fetch => s.acquireFast M t x fetch .idle
  | .release t x bs => s.goto t (.loadRel x bs)
  | .advance t => s.advance M yieldVPLimit t
  | .unblock t => s.unblock t

/-- A thread makes one call at a time, and releases what it owns. -/
def adm (s : BitBLock τ) : Action τ → Prop
  | .acquire t _ _ => s.pc t = .idle
  | .tryAcquire t _ _ => s.pc t = .idle
  | .release t x _ => s.pc t = .idle ∧ t ∈ s.owners x
  | .advance _ => True
  | .unblock _ => True

def interleavings : Machine (BitBLock τ) (Action τ) := ⟨step M yieldVPLimit, adm⟩

end Step

/-! ## What the bits say -/

namespace Masks

open BitVec (getElem_and getElem_not getElem_or getElem_zero)

variable {m : Masks} {l : BitVec 64}

theorem or_and_self_ne {l b : BitVec 64} (h : b ≠ 0#64) : (l ||| b) &&& b ≠ 0#64 := by
  intro hz
  apply h
  ext i hi
  have hbit := congrArg (fun v : BitVec 64 => v[i]) hz
  simp only [getElem_and, getElem_or, getElem_zero] at hbit ⊢
  cases hb : b[i]
  · rfl
  · rw [hb, Bool.or_true] at hbit
    exact hbit

theorem locked_or_lock : m.Locked (l ||| m.lock) := or_and_self_ne m.lock_ne

theorem waited_or_wait : m.Waited (l ||| m.wait) := or_and_self_ne m.wait_ne

theorem or_and_ne {l k b : BitVec 64} (h : l &&& b ≠ 0#64) : (l ||| k) &&& b ≠ 0#64 := by
  intro hz
  apply h
  ext i hi
  have hbit := congrArg (fun v : BitVec 64 => v[i]) hz
  simp only [getElem_and, getElem_or, getElem_zero] at hbit ⊢
  cases hl : l[i]
  · rfl
  · rw [hl, Bool.true_or] at hbit
    exact hbit

theorem data_or_lock : m.data (l ||| m.lock) = m.data l := by
  ext i hi
  simp only [data, getElem_and, getElem_or, getElem_not]
  cases l[i] <;> cases m.lock[i] <;> rfl

theorem data_or_wait : m.data (l ||| m.wait) = m.data l := by
  ext i hi
  simp only [data, getElem_and, getElem_or, getElem_not]
  cases l[i] <;> cases m.lock[i] <;> cases m.wait[i] <;> rfl

theorem data_and_not_lock : m.data (l &&& ~~~m.lock) = m.data l := by
  ext i hi
  simp only [data, getElem_and, getElem_or, getElem_not]
  cases l[i] <;> cases m.lock[i] <;> rfl

theorem data_and_not_wait : m.data (l &&& ~~~m.wait) = m.data l := by
  ext i hi
  simp only [data, getElem_and, getElem_or, getElem_not]
  cases l[i] <;> cases m.lock[i] <;> cases m.wait[i] <;> rfl

theorem data_data : m.data (m.data l) = m.data l := by
  ext i hi
  simp only [data, getElem_and, getElem_or, getElem_not]
  cases l[i] <;> cases m.lock[i] <;> cases m.wait[i] <;> rfl

theorem not_waited_and_not : ¬ m.Waited (l &&& ~~~m.wait) := by
  intro h
  apply h
  ext i hi
  simp only [getElem_and, getElem_not, getElem_zero]
  cases l[i] <;> cases m.wait[i] <;> rfl

end Masks

/-! ## The invariant -/

/-- The address whose queue a thread is on. -/
def Pc.queued : Pc → Option Addr
  | .fetchOr x _ => some x
  | .load x _ => some x
  | .setWait x _ _ => some x
  | .blocking x _ => some x
  | .blocked x _ => some x
  | .dequeue x _ => some x
  | _ => none

/-- In `Block`, or about to call it. -/
def Pc.Waits (x : Addr) : Pc → Prop
  | .blocking y _ => y = x
  | .blocked y _ => y = x
  | _ => False

/-- An unblock is pending: the next `Block` will return at once. -/
def Pending (flag : Bool) : Pc → Prop
  | .blocked _ _ => False
  | _ => flag = true

/-- Has the lock, and is about to read the data. -/
def Pc.Reads (x : Addr) : Pc → Prop
  | .dequeue y fetch => y = x ∧ fetch = true
  | .fetchData y => y = x
  | _ => False

/-- In an acquire that was not given a `datap`. -/
def Pc.Unread (x : Addr) : Pc → Prop
  | .spin y fetch _ => x = y ∧ fetch = false
  | .grab y fetch _ => x = y ∧ fetch = false
  | .enqueue y fetch => x = y ∧ fetch = false
  | .fetchOr y fetch => x = y ∧ fetch = false
  | .load y fetch => x = y ∧ fetch = false
  | .setWait y fetch _ => x = y ∧ fetch = false
  | .blocking y fetch => x = y ∧ fetch = false
  | .blocked y fetch => x = y ∧ fetch = false
  | .dequeue y fetch => x = y ∧ fetch = false
  | _ => False

section Invariant

variable (M : Addr → Masks)

/-- What a thread knows of the words from where it is. -/
def Knows (owners : Addr → Finset τ) (stored : Addr → BitVec 64) (t : τ) : Pc → Prop
  | .setWait x _ cur => (M x).Locked cur
  | .dequeue x _ => t ∈ owners x
  | .fetchData x => t ∈ owners x
  | .loadRel x _ => t ∈ owners x
  | .storeRel x _ curval =>
    t ∈ owners x ∧ ¬ (M x).Waited curval ∧ (M x).data curval = (M x).data (stored x)
  | .swap x bs data => t ∈ owners x ∧ (M x).data data = (M x).data (bs.getD (stored x))
  | _ => True

/-- Who has the lock bits, and what the data bits are. -/
structure Owned (word : Addr → BitVec 64) (owners : Addr → Finset τ) (stored : Addr → BitVec 64) :
    Prop where
  locked : ∀ x t, t ∈ owners x → (M x).Locked (word x)
  alone : ∀ x t u, t ∈ owners x → u ∈ owners x → t = u
  data : ∀ x, (M x).data (word x) = (M x).data (stored x)

/-- The queues hold the threads of the slow path, each once. -/
structure Queues (table : BitVec 64 → List (Element τ)) (pc : τ → Pc) : Prop where
  mem : ∀ i e, e ∈ table i ↔ i = hash e.blockedOn ∧ (pc e.threadID).queued = some e.blockedOn
  nodup : ∀ i, (table i).Nodup

/-- A thread that waits is seen by the release: both bits are set until then, and after it the
thread is on the queue that the release has still to wake up. -/
def Awaited (word : Addr → BitVec 64) (flags : τ → Bool) (pc : τ → Pc) : Prop :=
  ∀ t x, (pc t).Waits x →
    ((M x).Locked (word x) ∧ (M x).Waited (word x)) ∨ Pending (flags t) (pc t) ∨
      ∃ r, pc r = .wakeupAll x

structure Inv (s : BitBLock τ) : Prop where
  owned : Owned M s.word s.owners s.stored
  knows : ∀ t, Knows M s.owners s.stored t (s.pc t)
  read : ∀ x t, t ∈ s.owners x → (s.pc t).Reads x ∨
    ∀ d, s.datap t x = some d → (M x).data d = (M x).data (s.stored x)
  unread : ∀ t x, (s.pc t).Unread x → s.datap t x = none
  queues : Queues s.table s.pc
  awaited : Awaited M s.word s.wasUnblocked s.pc

omit [DecidableEq τ] in
theorem inv_init (bs : Addr → BitVec 64) : Inv M (init (τ := τ) M bs) := by
  refine ⟨⟨?_, ?_, ?_⟩, fun _ => trivial, ?_, nofun, ⟨?_, fun _ => List.nodup_nil⟩, nofun⟩
  · exact fun x t ht => absurd ht (Finset.notMem_empty t)
  · exact fun x t u ht => absurd ht (Finset.notMem_empty t)
  · exact fun x => Masks.data_data
  · exact fun x t ht => absurd ht (Finset.notMem_empty t)
  · intro i e
    refine iff_of_false List.not_mem_nil ?_
    rintro ⟨-, h⟩
    cases h

end Invariant

/-! ## The parts of the invariant -/

section Parts

variable {M : Addr → Masks} {word : Addr → BitVec 64} {owners : Addr → Finset τ}
  {stored : Addr → BitVec 64} {table : BitVec 64 → List (Element τ)} {pc : τ → Pc}
  {flags : τ → Bool} {t u : τ} {x : Addr} {p : Pc} {l : BitVec 64}

section

variable (h : Owned M word owners stored)

include h

section

omit [DecidableEq τ]

theorem Owned.setWord (hlocked : (M x).Locked (word x) → (M x).Locked l)
    (hdata : (M x).data l = (M x).data (word x)) :
    Owned M (update word x l) owners stored := by
  refine ⟨?_, h.alone, ?_⟩
  · intro y u
    exact update_cases (fun hu => hlocked (h.locked x u hu)) (fun y _ => h.locked y u) y
  · intro y
    exact update_cases (hdata.trans (h.data x)) (fun y _ => h.data y) y

theorem Owned.not_mem (hx : ¬ (M x).Locked (word x)) (u : τ) :
    u ∉ owners x := fun hu => hx (h.locked x u hu)

end

theorem Owned.own (hnone : ∀ u, u ∉ owners x) (hlocked : (M x).Locked (word x)) :
    Owned M word (update owners x (insert t (owners x))) stored := by
  have hmem : ∀ y u, u ∈ update owners x (insert t (owners x)) y →
      (y = x ∧ u = t) ∨ (y ≠ x ∧ u ∈ owners y) := by
    intro y u
    refine update_cases (fun hu => ?_) (fun y hy hu => .inr ⟨hy, hu⟩) y
    exact .inl ⟨rfl, (Finset.mem_insert.mp hu).resolve_right (hnone u)⟩
  refine ⟨?_, ?_, h.data⟩
  · intro y u hu
    rcases hmem y u hu with ⟨rfl, -⟩ | ⟨-, hu⟩
    · exact hlocked
    · exact h.locked y u hu
  · intro y u v hu hv
    rcases hmem y u hu with ⟨rfl, rfl⟩ | ⟨hy, hu⟩
    · rcases hmem y v hv with ⟨-, rfl⟩ | ⟨hy, -⟩
      · rfl
      · exact absurd rfl hy
    · rcases hmem y v hv with ⟨rfl, -⟩ | ⟨-, hv⟩
      · exact absurd rfl hy
      · exact h.alone y u v hu hv

theorem Owned.disown (ht : t ∈ owners x) (v : BitVec 64) (hdata : (M x).data l = (M x).data v) :
    Owned M (update word x l) (update owners x ((owners x).erase t))
      (update stored x v) ∧
      ∀ u, u ∉ (owners x).erase t := by
  have hnone : ∀ u, u ∉ (owners x).erase t := by
    intro u hu
    rw [Finset.mem_erase] at hu
    exact hu.1 (h.alone x u t hu.2 ht)
  have hother : ∀ y u, u ∈ update owners x ((owners x).erase t) y → y ≠ x ∧ u ∈ owners y := by
    intro y u
    exact update_cases (fun hu => absurd hu (hnone u)) (fun _ hy hu => ⟨hy, hu⟩) y
  refine ⟨⟨?_, ?_, Function.update_cases₂ hdata fun y _ => h.data y⟩, hnone⟩
  · intro y u hu
    obtain ⟨hy, hu⟩ := hother y u hu
    rw [update_of_ne hy]
    exact h.locked y u hu
  · intro y u w hu hw
    exact h.alone y u w (hother y u hu).2 (hother y w hw).2

end

section

omit [DecidableEq τ]

theorem Knows.mono {owners' : Addr → Finset τ} (h : Knows M owners stored t p)
    (hsub : ∀ y, t ∈ owners y → t ∈ owners' y) : Knows M owners' stored t p := by
  cases p with
  | dequeue y fetch => exact hsub y h
  | fetchData y => exact hsub y h
  | loadRel y bs => exact hsub y h
  | storeRel y bs curval => exact ⟨hsub y h.1, h.2⟩
  | swap y bs data => exact ⟨hsub y h.1, h.2⟩
  | _ => exact h

theorem Knows.disown (h : Knows M owners stored u p) (hu : u ∉ owners x) (e : Finset τ)
    (v : BitVec 64) :
    Knows M (update owners x e) (update stored x v) u p := by
  have hkeep : ∀ y, u ∈ owners y → u ∈ update owners x e y ∧
      update stored x v y = stored y := by
    intro y hy
    have hne : y ≠ x := by
      rintro rfl
      exact hu hy
    rw [update_of_ne hne, update_of_ne hne]
    exact ⟨hy, rfl⟩
  cases p with
  | dequeue y fetch => exact (hkeep y h).1
  | fetchData y => exact (hkeep y h).1
  | loadRel y bs => exact (hkeep y h).1
  | storeRel y bs curval =>
    obtain ⟨hy, hwait, hdata⟩ := h
    obtain ⟨hmem, heq⟩ := hkeep y hy
    refine ⟨hmem, hwait, ?_⟩
    rw [heq]
    exact hdata
  | swap y bs data =>
    obtain ⟨hy, hdata⟩ := h
    obtain ⟨hmem, heq⟩ := hkeep y hy
    refine ⟨hmem, ?_⟩
    rw [heq]
    exact hdata
  | _ => exact h

end

/-! ### Queues -/

theorem Queues.goto (h : Queues table pc) (hp : p.queued = (pc t).queued) :
    Queues table (update pc t p) := by
  refine ⟨?_, h.nodup⟩
  intro i e
  rw [h.mem]
  by_cases he : e.threadID = t
  · rw [he, update_self, hp]
  · rw [update_of_ne he]

theorem Queues.add (h : Queues table pc) (ht : (pc t).queued = none) (hp : p.queued = some x) :
    Queues (update table (hash x) (table (hash x) ++ [⟨t, x⟩]))
      (update pc t p) := by
  have hnot : ∀ i e, e ∈ table i → e.threadID ≠ t := by
    rintro i e he rfl
    have hq := ((h.mem i e).1 he).2
    rw [ht] at hq
    cases hq
  refine ⟨?_, ?_⟩
  · intro i e
    have hmem : e ∈ update table (hash x) (table (hash x) ++ [⟨t, x⟩]) i ↔
        e ∈ table i ∨ (i = hash x ∧ e = ⟨t, x⟩) := by
      by_cases hi : i = hash x
      · subst i
        rw [update_self, List.mem_append, List.mem_singleton]
        simp
      · rw [update_of_ne hi]
        simp [hi]
    rw [hmem]
    by_cases he : e.threadID = t
    · rw [he, update_self, hp]
      constructor
      · rintro (hold | ⟨rfl, rfl⟩)
        · exact absurd he (hnot i e hold)
        · exact ⟨rfl, rfl⟩
      · rintro ⟨hi, hx⟩
        cases e
        cases hx
        cases he
        exact .inr ⟨hi, rfl⟩
    · rw [update_of_ne he, h.mem]
      constructor
      · rintro (hold | ⟨-, rfl⟩)
        · exact hold
        · exact absurd rfl he
      · exact .inl
  · intro i
    by_cases hi : i = hash x
    · subst i
      rw [update_self, List.nodup_append]
      refine ⟨h.nodup _, List.nodup_singleton _, ?_⟩
      rintro a ha b hb rfl
      rw [List.mem_singleton] at hb
      subst a
      exact hnot _ _ ha rfl
    · rw [update_of_ne hi]
      exact h.nodup i

theorem Queues.remove (h : Queues table pc) (ht : (pc t).queued = some x) (hp : p.queued = none) :
    Queues (update table (hash x) ((table (hash x)).erase ⟨t, x⟩))
      (update pc t p) := by
  refine ⟨?_, ?_⟩
  · intro i e
    have hmem : e ∈ update table (hash x) ((table (hash x)).erase ⟨t, x⟩) i ↔
        e ∈ table i ∧ (i = hash x → e ≠ ⟨t, x⟩) := by
      by_cases hi : i = hash x
      · subst i
        rw [update_self, (h.nodup _).mem_erase_iff]
        simp [and_comm]
      · rw [update_of_ne hi]
        simp [hi]
    rw [hmem]
    by_cases he : e.threadID = t
    · rw [he, update_self, hp]
      refine iff_of_false ?_ nofun
      rintro ⟨hold, hne⟩
      obtain ⟨rfl, hq⟩ := (h.mem i e).1 hold
      rw [he, ht] at hq
      cases e
      cases hq
      cases he
      exact hne rfl rfl
    · rw [update_of_ne he, h.mem]
      constructor
      · exact And.left
      · rintro hold
        refine ⟨hold, ?_⟩
        rintro - rfl
        exact he rfl
  · intro i
    by_cases hi : i = hash x
    · subst i
      rw [update_self]
      exact (h.nodup _).erase _
    · rw [update_of_ne hi]
      exact h.nodup i

/-! ### Waiting threads -/

theorem Pending.mono {a b : Bool} (hab : a = true → b = true) (h : Pending a p) :
    Pending b p := by
  cases p with
  | blocked => exact h
  | _ => exact hab h

section

variable (h : Awaited M word flags pc)

include h

theorem Awaited.goto (ht : ∀ y, pc t ≠ .wakeupAll y)
    (hp : ∀ y, p.Waits y → ((M y).Locked (word y) ∧ (M y).Waited (word y)) ∨
      ((pc t).Waits y ∧ (Pending (flags t) (pc t) → Pending (flags t) p))) :
    Awaited M word flags (update pc t p) := by
  have hrel : ∀ y, (∃ r, pc r = .wakeupAll y) → ∃ r, update pc t p r = .wakeupAll y := by
    rintro y ⟨r, hr⟩
    refine ⟨r, ?_⟩
    rw [update_of_ne ?_]
    · exact hr
    · rintro rfl
      exact ht y hr
  intro u y hu
  by_cases hut : u = t
  · subst u
    rw [update_self] at hu ⊢
    rcases hp y hu with hbits | ⟨hwaits, hpending⟩
    · exact .inl hbits
    · rcases h t y hwaits with hbits | hflag | hr
      · exact .inl hbits
      · exact .inr (.inl (hpending hflag))
      · exact .inr (.inr (hrel y hr))
  · rw [update_of_ne hut] at hu ⊢
    rcases h u y hu with hbits | hflag | hr
    · exact .inl hbits
    · exact .inr (.inl hflag)
    · exact .inr (.inr (hrel y hr))

section

omit [DecidableEq τ]

theorem Awaited.setWord (hlocked : (M x).Locked (word x) → (M x).Locked l)
    (hwaited : (M x).Waited (word x) → (M x).Waited l) :
    Awaited M (update word x l) flags pc := by
  intro u y hu
  refine (h u y hu).imp_left ?_
  exact update_cases (And.imp hlocked hwaited) (fun _ _ => id) y

theorem Awaited.setWord_of_not_waited
    (hx : ¬ (M x).Waited (word x)) : Awaited M (update word x l) flags pc := by
  intro u y hu
  rcases h u y hu with ⟨hl, hw⟩ | hrest
  · have hy : y ≠ x := by
      rintro rfl
      exact hx hw
    rw [update_of_ne hy]
    exact .inl ⟨hl, hw⟩
  · exact .inr hrest

end

theorem Awaited.swap (ht : ∀ y, pc t ≠ .wakeupAll y) :
    Awaited M (update word x l) flags (update pc t (.wakeupAll x)) := by
  intro u y hu
  have hut : u ≠ t := by
    rintro rfl
    rw [update_self] at hu
    exact hu
  rw [update_of_ne hut] at hu ⊢
  by_cases hy : y = x
  · subst y
    exact .inr (.inr ⟨t, update_self ..⟩)
  · rw [update_of_ne hy]
    rcases h u y hu with hbits | hflag | ⟨r, hr⟩
    · exact .inl hbits
    · exact .inr (.inl hflag)
    · refine .inr (.inr ⟨r, ?_⟩)
      rw [update_of_ne ?_]
      · exact hr
      · rintro rfl
        exact ht y hr

end

end Parts

/-! ## Steps -/

section Steps

variable {M : Addr → Masks} {s : BitBLock τ} {t u : τ} {x : Addr} {p q : Pc} {l : BitVec 64}

/-- A place that a thread leaves without anything else to be shown. -/
structure Plain (p : Pc) : Prop where
  waits : ∀ y, ¬ p.Waits y
  reads : ∀ y, ¬ p.Reads y
  wakes : ∀ y, p ≠ .wakeupAll y

section

variable (h : Inv M s)

include h

/-- What a thread knows and reads from its place, after a move. -/
theorem Inv.places (hknows : Knows M s.owners s.stored t p)
    (hreads : ∀ y, (s.pc t).Reads y → p.Reads y)
    (hunread : ∀ y, p.Unread y → s.datap t y = none) :
    (∀ u, Knows M s.owners s.stored u (update s.pc t p u)) ∧
      (∀ y u, u ∈ s.owners y → (update s.pc t p u).Reads y ∨
        ∀ d, s.datap u y = some d → (M y).data d = (M y).data (s.stored y)) ∧
      ∀ u y, (update s.pc t p u).Unread y → s.datap u y = none := by
  refine ⟨?_, ?_, ?_⟩
  · exact update_cases hknows (fun u _ => h.knows u)
  · intro y
    exact update_cases (fun hu => (h.read y t hu).imp_left (hreads y)) (fun u _ => h.read y u)
  · exact update_cases hunread (fun u _ => h.unread u)

theorem Inv.goto (hknows : Knows M s.owners s.stored t p)
    (hreads : ∀ y, (s.pc t).Reads y → p.Reads y) (hunread : ∀ y, p.Unread y → s.datap t y = none)
    (hqueued : p.queued = (s.pc t).queued) (ht : ∀ y, s.pc t ≠ .wakeupAll y)
    (hp : ∀ y, p.Waits y → ((M y).Locked (s.word y) ∧ (M y).Waited (s.word y)) ∨
      ((s.pc t).Waits y ∧ (Pending (s.wasUnblocked t) (s.pc t) → Pending (s.wasUnblocked t) p))) :
    Inv M (s.goto t p) := by
  obtain ⟨hknows', hread', hunread'⟩ := h.places hknows hreads hunread
  exact ⟨h.owned, hknows', hread', hunread', h.queues.goto hqueued, h.awaited.goto ht hp⟩

theorem Inv.move (hpc : s.pc t = q) (hq : Plain q)
    (hknows : Knows M s.owners s.stored t p) (hunread : ∀ y, p.Unread y → q.Unread y)
    (hqueued : p.queued = q.queued) (hp : ∀ y, ¬ p.Waits y) : Inv M (s.goto t p) := by
  subst q
  exact h.goto hknows (fun y hy => absurd hy (hq.reads y)) (fun y hy => h.unread t y (hunread y hy))
    hqueued hq.wakes fun y hy => absurd hy (hp y)

omit [DecidableEq τ] in
theorem Inv.setWord (hlocked : (M x).Locked (s.word x) → (M x).Locked l)
    (hwaited : (M x).Waited (s.word x) → (M x).Waited l)
    (hdata : (M x).data l = (M x).data (s.word x)) : Inv M (s.setWord x l) :=
  ⟨h.owned.setWord hlocked hdata, h.knows, h.read, h.unread, h.queues,
    h.awaited.setWord hlocked hwaited⟩

theorem Inv.setDatap {v : Option (BitVec 64)} (ht : ∀ y, ¬ (s.pc t).Unread y)
    (hv : ∀ d, v = some d → (M x).data d = (M x).data (s.stored x)) :
    Inv M (s.setDatap t x v) := by
  refine ⟨h.owned, h.knows, ?_, ?_, h.queues, h.awaited⟩
  · intro y u
    change _ → _ ∨ ∀ d, update s.datap t (update (s.datap t) x v) u y = some d → _
    refine update_cases ?_ (fun u _ => h.read y u) u
    exact update_cases (fun _ => .inr hv) (fun y _ => h.read y t) y
  · intro u y hu
    have hut : u ≠ t := by
      rintro rfl
      exact ht y hu
    change update s.datap t _ u y = none
    rw [update_of_ne hut]
    exact h.unread u y hu

theorem Inv.own (hnone : ∀ u, u ∉ s.owners x) (hlocked : (M x).Locked (s.word x))
    (hpc : s.pc t = q) (hq : Plain q)
    (hknows : Knows M (update s.owners x (insert t (s.owners x))) s.stored t p)
    (hread : p.Reads x ∨ ∀ d, s.datap t x = some d → (M x).data d = (M x).data (s.stored x))
    (hunread : ∀ y, p.Unread y → q.Unread y) (hqueued : p.queued = q.queued)
    (hp : ∀ y, ¬ p.Waits y) : Inv M ((s.own t x).goto t p) := by
  subst q
  have hsub : ∀ u y, u ∈ s.owners y →
      u ∈ update s.owners x (insert t (s.owners x)) y := by
    intro u y
    exact update_cases (fun hu => absurd hu (hnone u)) (fun _ _ => id) y
  refine ⟨h.owned.own hnone hlocked, ?_, ?_, ?_, h.queues.goto hqueued,
    h.awaited.goto hq.wakes fun y hy => absurd hy (hp y)⟩
  · intro u
    change Knows M _ s.stored u (update s.pc t p u)
    exact update_cases hknows (fun u _ => (h.knows u).mono (hsub u)) u
  · intro y u hu
    change (update s.pc t p u).Reads y ∨
      ∀ d, s.datap u y = some d → (M y).data d = (M y).data (s.stored y)
    change u ∈ update s.owners x (insert t (s.owners x)) y at hu
    by_cases hy : y = x
    · subst y
      rw [update_self, Finset.mem_insert] at hu
      have hut : u = t := hu.resolve_right (hnone u)
      subst u
      rw [update_self]
      exact hread
    · rw [update_of_ne hy] at hu
      revert hu
      exact update_cases (fun hu => .inr ((h.read y t hu).resolve_left (hq.reads y)))
        (fun u _ => h.read y u) u
  · change ∀ u y, (update s.pc t p u).Unread y → _
    exact update_cases (fun y hy => h.unread t y (hunread y hy)) (fun u _ => h.unread u)

omit [DecidableEq τ] in
theorem Inv.setLock : Inv M (s.setWord x (s.word x ||| (M x).lock)) :=
  h.setWord (fun _ => Masks.locked_or_lock) Masks.or_and_ne Masks.data_or_lock

theorem Inv.fetchAndOr {wins fails : Pc} (hpc : s.pc t = q) (hq : Plain q)
    (hfails : Inv M ((s.setWord x (s.word x ||| (M x).lock)).goto t fails))
    (hknows : Knows M (update s.owners x (insert t (s.owners x))) s.stored t wins)
    (hread : wins.Reads x ∨ ∀ d, s.datap t x = some d → (M x).data d = (M x).data (s.stored x))
    (hunread : ∀ y, wins.Unread y → q.Unread y)
    (hqueued : wins.queued = q.queued) (hwins : ∀ y, ¬ wins.Waits y) :
    Inv M (s.fetchAndOr M t x wins fails) := by
  unfold BitBLock.fetchAndOr
  split_ifs with hlocked
  · exact hfails
  · apply h.setLock.own (h.owned.not_mem hlocked) _ hpc hq hknows hread hunread hqueued hwins
    change (M x).Locked (update s.word x _ x)
    rw [update_self]
    exact Masks.locked_or_lock

end

theorem plain_idle : Plain .idle := ⟨nofun, nofun, nofun⟩

variable {limit n : ℕ} {fetch : Bool} {bs : Option (BitVec 64)}

section

omit [DecidableEq τ]

theorem spinOn_place : (spinOn limit x fetch n).queued = none ∧
      Knows M s.owners s.stored t (spinOn limit x fetch n) ∧
      (∀ y, ¬ (spinOn limit x fetch n).Waits y) ∧
      ∀ y, (spinOn limit x fetch n).Unread y → y = x ∧ fetch = false := by
  unfold spinOn
  split_ifs
  · exact ⟨rfl, trivial, nofun, fun _ => And.imp_left id⟩
  · exact ⟨rfl, trivial, nofun, fun _ => And.imp_left id⟩

theorem thenFetch_place {owners : Addr → Finset τ} (fetch : Bool) (ht : t ∈ owners x) :
    (thenFetch x fetch).queued = none ∧ Knows M owners s.stored t (thenFetch x fetch) ∧
      (∀ y, ¬ (thenFetch x fetch).Waits y) ∧ (∀ y, ¬ (thenFetch x fetch).Unread y) ∧
      ((thenFetch x fetch).Reads x ∨ fetch = false) := by
  cases fetch with
  | false => exact ⟨rfl, trivial, nofun, nofun, .inr rfl⟩
  | true => exact ⟨rfl, ht, nofun, nofun, .inl rfl⟩

end

theorem mem_own : t ∈ update s.owners x (insert t (s.owners x)) x := by
  rw [update_self]
  exact Finset.mem_insert_self t _

section

variable (h : Inv M s)

include h

omit [DecidableEq τ] in
theorem Inv.read_or (hreads : p.Reads x ∨ fetch = false)
    (hunread : fetch = false → (s.pc t).Unread x) :
    p.Reads x ∨ ∀ d, s.datap t x = some d → (M x).data d = (M x).data (s.stored x) := by
  refine hreads.imp_right ?_
  intro hfetch d hd
  rw [h.unread t x (hunread hfetch)] at hd
  cases hd

theorem Inv.acquireFast {fails : Pc} (ht : s.pc t = .idle)
    (hknows : Knows M s.owners s.stored t fails) (hqueued : fails.queued = none)
    (hwaits : ∀ y, ¬ fails.Waits y) (hunread : ∀ y, fails.Unread y → y = x ∧ fetch = false) :
    Inv M (s.acquireFast M t x fetch fails) := by
  have hv : ∀ d, (if fetch then some (s.word x) else none) = some d →
      (M x).data d = (M x).data (s.stored x) := by
    intro d hd
    cases fetch with
    | false => cases hd
    | true =>
      cases hd
      exact h.owned.data x
  have hset : Inv M (s.setDatap t x (if fetch then some (s.word x) else none)) := by
    apply h.setDatap _ hv
    rw [ht]
    nofun
  refine hset.fetchAndOr ht plain_idle ?_ trivial (.inr ?_) nofun rfl nofun
  · have hpc : (s.pc t).queued = none := by
      rw [ht]
      rfl
    have hplain : Plain (s.pc t) := by
      rw [ht]
      exact plain_idle
    refine hset.setLock.goto hknows (fun y hy => absurd hy (hplain.reads y)) ?_
      (hqueued.trans hpc.symm) hplain.wakes fun y hy => absurd hy (hwaits y)
    intro y hy
    obtain ⟨rfl, rfl⟩ := hunread y hy
    change update s.datap t (update (s.datap t) y _) t y = none
    rw [update_self, update_self]
    rfl
  · intro d hd
    change update s.datap t (update (s.datap t) x _) t x = some d at hd
    rw [update_self, update_self] at hd
    exact hv d hd

theorem Inv.spin (ht : s.pc t = .spin x fetch n) :
    Inv M (s.spin M limit t x fetch n) := by
  have hplain : Plain (.spin x fetch n) := ⟨nofun, nofun, nofun⟩
  have hspin : Inv M (s.goto t (spinOn limit x fetch (n + 1))) := by
    obtain ⟨hqueued, hknows, hwaits, hunread⟩ := spinOn_place (M := M) (s := s) (t := t) (x := x)
    exact h.move ht hplain hknows hunread hqueued hwaits
  unfold BitBLock.spin
  split_ifs
  · exact h.move ht hplain trivial (fun _ => id) rfl nofun
  · exact hspin
  · exact h.move ht hplain trivial (fun _ => id) rfl nofun

theorem Inv.grab (ht : s.pc t = .grab x fetch n) :
    Inv M (s.fetchAndOr M t x (thenFetch x fetch) (spinOn limit x fetch (n + 1))) := by
  have hplain : Plain (.grab x fetch n) := ⟨nofun, nofun, nofun⟩
  obtain ⟨hqueued, hknows, hwaits, hunread, hreads⟩ :=
    thenFetch_place (M := M) (s := s) fetch (mem_own (s := s) (t := t) (x := x))
  refine h.fetchAndOr ht hplain ?_ hknows (h.read_or hreads ?_)
    (fun y hy => absurd hy (hunread y)) hqueued hwaits
  · obtain ⟨hqueued, hknows, hwaits, hunread⟩ := spinOn_place (M := M) (s := s) (t := t) (x := x)
    exact h.setLock.move ht hplain hknows hunread hqueued hwaits
  · intro hfetch
    rw [ht]
    exact ⟨rfl, hfetch⟩

theorem Inv.fetchOr (ht : s.pc t = .fetchOr x fetch) :
    Inv M (s.fetchAndOr M t x (.dequeue x fetch) (.load x fetch)) := by
  have hplain : Plain (.fetchOr x fetch) := ⟨nofun, nofun, nofun⟩
  have hreads : (Pc.dequeue x fetch).Reads x ∨ fetch = false := by
    cases fetch with
    | false => exact .inr rfl
    | true => exact .inl ⟨rfl, rfl⟩
  refine h.fetchAndOr ht hplain ?_ mem_own (h.read_or hreads ?_) (fun _ => id) rfl nofun
  · exact h.setLock.move ht hplain trivial (fun _ => id) rfl nofun
  · intro hfetch
    rw [ht]
    exact ⟨rfl, hfetch⟩

theorem Inv.load (ht : s.pc t = .load x fetch) :
    Inv M (s.load M t x fetch) := by
  have hplain : Plain (.load x fetch) := ⟨nofun, nofun, nofun⟩
  unfold BitBLock.load
  split_ifs with hlocked hwaited
  · -- both bits are set in the word that the thread has seen
    refine h.goto trivial ?_ ?_ ?_ ?_ ?_
    · rw [ht]
      nofun
    · intro y hy
      apply h.unread t y
      rw [ht]
      exact hy
    · rw [ht]
      rfl
    · rw [ht]
      nofun
    · rintro y rfl
      exact .inl ⟨hlocked, hwaited⟩
  · exact h.move ht hplain hlocked (fun _ => id) rfl nofun
  · exact h.move ht hplain trivial (fun _ => id) rfl nofun

theorem Inv.setWait {cur : BitVec 64}
    (ht : s.pc t = .setWait x fetch cur) : Inv M (s.setWait M t x fetch cur) := by
  have hplain : Plain (.setWait x fetch cur) := ⟨nofun, nofun, nofun⟩
  have hknows := h.knows t
  rw [ht] at hknows
  unfold BitBLock.setWait
  split_ifs with hcur
  · subst cur
    have hset : Inv M (s.setWord x (s.word x ||| (M x).wait)) :=
      h.setWord Masks.or_and_ne (fun _ => Masks.waited_or_wait) Masks.data_or_wait
    refine hset.goto trivial ?_ ?_ ?_ ?_ ?_
    · change ∀ y, (s.pc t).Reads y → _
      rw [ht]
      nofun
    · intro y hy
      apply hset.unread t y
      change (s.pc t).Unread y
      rw [ht]
      exact hy
    · change _ = (s.pc t).queued
      rw [ht]
      rfl
    · change ∀ y, s.pc t ≠ _
      rw [ht]
      nofun
    · rintro y rfl
      left
      change (M x).Locked (update s.word x _ x) ∧
        (M x).Waited (update s.word x _ x)
      rw [update_self]
      exact ⟨Masks.or_and_ne hknows, Masks.waited_or_wait⟩
  · exact h.move ht hplain trivial (fun _ => id) rfl nofun

theorem Inv.block (ht : s.pc t = .blocking x fetch) :
    Inv M (s.block t x fetch) := by
  have hmove : ∀ p : Pc, Knows M s.owners s.stored t p → (∀ y, p.Unread y → (s.pc t).Unread y) →
      p.queued = (s.pc t).queued → (∀ y, p.Waits y → (s.pc t).Waits y ∧
        (Pending (s.wasUnblocked t) (s.pc t) → Pending (s.wasUnblocked t) p)) →
      Inv M (s.goto t p) := by
    intro p hknows hunread hqueued hwaits
    refine h.goto hknows ?_ (fun y hy => h.unread t y (hunread y hy)) hqueued ?_
      fun y hy => .inr (hwaits y hy)
    · rw [ht]
      nofun
    · rw [ht]
      nofun
  rw [ht] at hmove
  unfold BitBLock.block
  split_ifs with hflag
  · have hinv := hmove (.fetchOr x fetch) trivial (fun _ => id) rfl nofun
    refine ⟨hinv.owned, hinv.knows, hinv.read, hinv.unread, hinv.queues, ?_⟩
    intro u y hu
    have hut : u ≠ t := by
      rintro rfl
      change (update s.pc u _ u).Waits y at hu
      rw [update_self] at hu
      exact hu
    rcases hinv.awaited u y hu with hbits | hpending | hr
    · exact .inl hbits
    · refine .inr (.inl ?_)
      change Pending (update s.wasUnblocked t false u) _
      rw [update_of_ne hut]
      exact hpending
    · exact .inr (.inr hr)
  · exact hmove _ trivial (fun _ => id) rfl fun _ hy => ⟨hy, fun h => absurd h hflag⟩

/-! ### Queues and data -/

theorem Inv.requeue {table : BitVec 64 → List (Element τ)} (hpc : s.pc t = q)
    (hq : ∀ y, q ≠ .wakeupAll y) (hqueues : Queues table (update s.pc t p))
    (hknows : Knows M s.owners s.stored t p) (hreads : ∀ y, q.Reads y → p.Reads y)
    (hunread : ∀ y, p.Unread y → q.Unread y) (hp : ∀ y, ¬ p.Waits y) :
    Inv M ({ s with table := table }.goto t p) := by
  subst q
  obtain ⟨hknows', hread', hunread'⟩ :=
    h.places hknows hreads fun y hy => h.unread t y (hunread y hy)
  exact ⟨h.owned, hknows', hread', hunread', hqueues,
    h.awaited.goto hq fun y hy => absurd hy (hp y)⟩

theorem Inv.enqueue (ht : s.pc t = .enqueue x fetch) :
    Inv M ((s.addCurThreadToQueue t x).goto t (.fetchOr x fetch)) := by
  refine h.requeue ht nofun (h.queues.add ?_ rfl) trivial nofun (fun _ => id) nofun
  rw [ht]
  rfl

theorem Inv.dequeue (ht : s.pc t = .dequeue x fetch) :
    Inv M ((s.removeCurThreadFromQueue t x).goto t (thenFetch x fetch)) := by
  have hknows := h.knows t
  rw [ht] at hknows
  obtain ⟨hqueued, hthen, hwaits, hunread, -⟩ :=
    thenFetch_place (M := M) (s := s) fetch hknows
  refine h.requeue ht nofun (h.queues.remove ?_ hqueued) hthen ?_
    (fun y hy => absurd hy (hunread y)) hwaits
  · rw [ht]
    rfl
  · rintro y ⟨rfl, rfl⟩
    rfl

theorem Inv.fetchData (ht : s.pc t = .fetchData x) : Inv M (s.fetchData M t x) := by
  have hset : Inv M (s.setDatap t x (some ((M x).data (s.word x)))) := by
    apply h.setDatap
    · rw [ht]
      nofun
    · rintro d hd
      cases hd
      rw [Masks.data_data]
      exact h.owned.data x
  refine ⟨hset.owned, ?_, ?_, ?_, hset.queues.goto ?_, hset.awaited.goto ?_ nofun⟩
  · intro u
    change Knows M s.owners s.stored u (update s.pc t .idle u)
    exact update_cases trivial (fun u _ => h.knows u) u
  · intro y u hu
    by_cases hut : u = t
    · subst u
      right
      intro d hd
      by_cases hy : y = x
      · subst y
        change update s.datap t (update (s.datap t) x _) t x = some d at hd
        rw [update_self, update_self] at hd
        cases hd
        rw [Masks.data_data]
        exact h.owned.data x
      · refine (hset.read y t hu).resolve_left ?_ d hd
        change ¬ (s.pc t).Reads y
        rw [ht]
        exact fun heq => hy heq.symm
    · change (update s.pc t .idle u).Reads y ∨ _
      rw [update_of_ne hut]
      exact hset.read y u hu
  · change ∀ u y, (update s.pc t .idle u).Unread y → _
    exact update_cases (fun _ => False.elim) (fun u _ => hset.unread u)
  · change _ = (s.pc t).queued
    rw [ht]
    rfl
  · change ∀ y, s.pc t ≠ _
    rw [ht]
    nofun

/-! ### Release -/

theorem Inv.disown (hpc : s.pc t = q) (hq : Plain q)
    (ht : t ∈ s.owners x) (hdata : (M x).data l = (M x).data (bs.getD (s.stored x)))
    (hknows : ∀ owners stored, Knows (τ := τ) M owners stored t p)
    (hunread : ∀ y, ¬ p.Unread y) (hqueued : p.queued = q.queued)
    (hawaited : Awaited M (update s.word x l) s.wasUnblocked
      (update s.pc t p)) : Inv M ((s.disown t x bs l).goto t p) := by
  subst q
  obtain ⟨howned, hnone⟩ := h.owned.disown ht _ hdata
  have hother : ∀ u, u ≠ t → u ∉ s.owners x :=
    fun u hut hu => hut (h.owned.alone x u t hu ht)
  refine ⟨howned, ?_, ?_, ?_, h.queues.goto hqueued, hawaited⟩
  · intro u
    change Knows M _ _ u (update s.pc t p u)
    exact update_cases (hknows _ _) (fun u hut => (h.knows u).disown (hother u hut) _ _) u
  · intro y u hu
    change u ∈ update s.owners x ((s.owners x).erase t) y at hu
    have hy : y ≠ x := by
      rintro rfl
      rw [update_self] at hu
      exact hnone u hu
    rw [update_of_ne hy] at hu
    have hread := h.read y u hu
    change (update s.pc t p u).Reads y ∨
      ∀ d, s.datap u y = some d → (M y).data d = (M y).data (update s.stored x _ y)
    rw [update_of_ne hy]
    by_cases hut : u = t
    · subst u
      exact .inr (hread.resolve_left (hq.reads y))
    · rw [update_of_ne hut]
      exact hread
  · change ∀ u y, (update s.pc t p u).Unread y → _
    exact update_cases (fun y hy => absurd hy (hunread y)) (fun u _ => h.unread u)

end

theorem data_newval {curval v : BitVec 64} (h : (M x).data curval = (M x).data v) :
    (M x).data (newval M x bs curval) = (M x).data (bs.getD v) := by
  cases bs with
  | none => exact Masks.data_and_not_lock.trans h
  | some d => rfl

theorem Inv.loadRel (h : Inv M s) (ht : s.pc t = .loadRel x bs) :
    Inv M (s.loadRel M t x bs) := by
  have hknows := h.knows t
  rw [ht] at hknows
  refine h.move ht ⟨nofun, nofun, nofun⟩ ⟨hknows, Masks.not_waited_and_not, ?_⟩ nofun rfl nofun
  rw [Masks.data_and_not_wait]
  exact h.owned.data x

theorem Inv.storeRel (h : Inv M s) {curval : BitVec 64}
    (ht : s.pc t = .storeRel x bs curval) : Inv M (s.storeRel M t x bs curval) := by
  have hplain : Plain (.storeRel x bs curval) := ⟨nofun, nofun, nofun⟩
  obtain ⟨hmem, hwaited, hdata⟩ : Knows M s.owners s.stored t (.storeRel x bs curval) :=
    ht ▸ h.knows t
  unfold BitBLock.storeRel
  split_ifs with hcur
  · -- the wait bit is clear, and so nobody waits for this release
    rw [← hcur] at hwaited
    refine h.disown ht hplain hmem (data_newval hdata) (fun _ _ => trivial) nofun rfl ?_
    refine (h.awaited.setWord_of_not_waited hwaited).goto (p := .idle) ?_ nofun
    rw [ht]
    nofun
  · exact h.move ht hplain ⟨hmem, data_newval hdata⟩ nofun rfl nofun

theorem Inv.swap (h : Inv M s) {data : BitVec 64}
    (ht : s.pc t = .swap x bs data) : Inv M ((s.disown t x bs data).goto t (.wakeupAll x)) := by
  obtain ⟨hmem, hdata⟩ : Knows M s.owners s.stored t (.swap x bs data) := ht ▸ h.knows t
  refine h.disown ht ⟨nofun, nofun, nofun⟩ hmem hdata (fun _ _ => trivial) nofun rfl ?_
  apply h.awaited.swap
  rw [ht]
  nofun

/-! ### Wakeup -/

theorem Inv.unblock (h : Inv M s) : Inv M (s.unblock t) := by
  have hflag : Inv M { s with wasUnblocked := update s.wasUnblocked t true } := by
    refine ⟨h.owned, h.knows, h.read, h.unread, h.queues, ?_⟩
    intro u y hu
    refine (h.awaited u y hu).imp_right (Or.imp_left (Pending.mono ?_))
    intro hflag
    change update s.wasUnblocked t true u = true
    revert hflag
    exact update_cases (fun _ => rfl) (fun _ _ => id) u
  unfold BitBLock.unblock
  split
  · next x fetch hpc =>
      refine h.goto trivial ?_ ?_ ?_ ?_ nofun
      · rw [hpc]
        nofun
      · intro y hy
        apply h.unread t y
        rw [hpc]
        exact hy
      · rw [hpc]
        rfl
      · rw [hpc]
        nofun
  · exact hflag

theorem unblock_spec (u : τ) : (∀ y, ((s.unblock t).pc u).Waits y → (s.pc u).Waits y ∧
      (u = t ∨ Pending (s.wasUnblocked u) (s.pc u) →
        Pending ((s.unblock t).wasUnblocked u) ((s.unblock t).pc u))) ∧
      (∀ y, s.pc u = .wakeupAll y → (s.unblock t).pc u = .wakeupAll y) ∧
      (∀ y, (s.unblock t).pc u = .wakeupAll y → s.pc u = .wakeupAll y) := by
  unfold BitBLock.unblock
  split
  · next x fetch hpc =>
      change (∀ y, (update s.pc t (.fetchOr x fetch) u).Waits y → _) ∧
        (∀ y, _ → update s.pc t (.fetchOr x fetch) u = _) ∧
        ∀ y, update s.pc t (.fetchOr x fetch) u = _ → _
      change (∀ y, _ → _ ∧ (_ → Pending _ (update s.pc t (.fetchOr x fetch) u))) ∧ _
      by_cases hut : u = t
      · subst u
        rw [update_self, hpc]
        exact ⟨nofun, nofun, nofun⟩
      · rw [update_of_ne hut]
        exact ⟨fun y hy => ⟨hy, fun hor => hor.resolve_left hut⟩, fun _ => id, fun _ => id⟩
  · next hpc =>
      refine ⟨fun y hy => ⟨hy, ?_⟩, fun _ => id, fun _ => id⟩
      intro hor
      change Pending (update s.wasUnblocked t true u) (s.pc u)
      by_cases hut : u = t
      · subst u
        rw [update_self]
        cases hp : s.pc t with
        | blocked x fetch => exact absurd hp (hpc x fetch)
        | _ => rfl
      · rw [update_of_ne hut]
        exact hor.resolve_left hut

theorem wakeupOn_spec (ptrs : List (Element τ)) : ∀ s : BitBLock τ, Inv M s →
    Inv M (wakeupOn x ptrs s) ∧ ∀ u,
      (∀ y, ((wakeupOn x ptrs s).pc u).Waits y → (s.pc u).Waits y ∧
        (⟨u, x⟩ ∈ ptrs ∨ Pending (s.wasUnblocked u) (s.pc u) →
          Pending ((wakeupOn x ptrs s).wasUnblocked u) ((wakeupOn x ptrs s).pc u))) ∧
      (∀ y, s.pc u = .wakeupAll y ↔ (wakeupOn x ptrs s).pc u = .wakeupAll y) := by
  induction ptrs with
  | nil =>
    intro s h
    refine ⟨h, fun u => ⟨fun y hy => ⟨hy, ?_⟩, fun y => Iff.rfl⟩⟩
    rintro (hmem | hflag)
    · cases hmem
    · exact hflag
  | cons ptr rest ih =>
    intro s h
    unfold wakeupOn
    split_ifs with hon
    · obtain ⟨hinv, hrest⟩ := ih (s.unblock ptr.threadID) h.unblock
      refine ⟨hinv, fun u => ?_⟩
      obtain ⟨hwaits, hwakes, hwakes'⟩ := unblock_spec (s := s) (t := ptr.threadID) u
      obtain ⟨hlater, hiff⟩ := hrest u
      refine ⟨?_, fun y => ⟨fun hy => (hiff y).1 (hwakes y hy), ?_⟩⟩
      swap
      · exact fun hy => hwakes' y ((hiff y).2 hy)
      intro y hy
      obtain ⟨hnext, hflag⟩ := hlater y hy
      obtain ⟨hnow, hflagged⟩ := hwaits y hnext
      refine ⟨hnow, ?_⟩
      rintro (hmem | hold)
      · rcases List.mem_cons.1 hmem with rfl | hmem
        · exact hflag (.inr (hflagged (.inl rfl)))
        · exact hflag (.inl hmem)
      · exact hflag (.inr (hflagged (.inr hold)))
    · obtain ⟨hinv, hrest⟩ := ih s h
      refine ⟨hinv, fun u => ?_⟩
      obtain ⟨hlater, hiff⟩ := hrest u
      refine ⟨?_, hiff⟩
      intro y hy
      obtain ⟨hnow, hflag⟩ := hlater y hy
      refine ⟨hnow, ?_⟩
      rintro (hmem | hold)
      · rcases List.mem_cons.1 hmem with rfl | hmem
        · exact absurd rfl hon
        · exact hflag (.inl hmem)
      · exact hflag (.inr hold)

theorem Pc.Waits.queued (h : p.Waits x) : p.queued = some x := by
  cases p with
  | blocking y fetch =>
    cases h
    rfl
  | blocked y fetch =>
    cases h
    rfl
  | _ => exact h.elim

theorem Inv.wakeupAll (h : Inv M s) (ht : s.pc t = .wakeupAll x) :
    Inv M ((s.wakeupAll x).goto t .idle) := by
  obtain ⟨hinv, hloop⟩ := wakeupOn_spec (x := x) (s.table (hash x)) s h
  have hpc : (s.wakeupAll x).pc t = .wakeupAll x := ((hloop t).2 x).1 ht
  have hwaits : ∀ u y, ((s.wakeupAll x).pc u).Waits y → u ≠ t := by
    rintro u y hu rfl
    rw [hpc] at hu
    exact hu
  have hreads : ∀ y, ¬ ((s.wakeupAll x).pc t).Reads y := by
    rw [hpc]
    nofun
  obtain ⟨hknows, hread, hunread⟩ := hinv.places (t := t) (p := .idle) trivial
    (fun y hy => absurd hy (hreads y)) nofun
  refine ⟨hinv.owned, hknows, hread, hunread, hinv.queues.goto ?_, ?_⟩
  · change _ = ((s.wakeupAll x).pc t).queued
    rw [hpc]
    rfl
  · intro u y hu
    change _ ∨ Pending _ (update (s.wakeupAll x).pc t .idle u) ∨ _
    change (update (s.wakeupAll x).pc t .idle u).Waits y at hu
    have hut : u ≠ t := by
      rintro rfl
      rw [update_self] at hu
      exact hu
    rw [update_of_ne hut] at hu ⊢
    rcases hinv.awaited u y hu with hbits | hflag | ⟨r, hr⟩
    · exact .inl hbits
    · exact .inr (.inl hflag)
    · by_cases hrt : r = t
      · subst r
        -- the release was this one
        change (s.wakeupAll x).pc t = _ at hr
        rw [hpc] at hr
        cases hr
        obtain ⟨hnow, hflag⟩ := (hloop u).1 x hu
        refine .inr (.inl (hflag (.inl ?_)))
        exact (h.queues.mem _ ⟨u, x⟩).2 ⟨rfl, hnow.queued⟩
      · refine .inr (.inr ⟨r, ?_⟩)
        change update (s.wakeupAll x).pc t .idle r = _
        rw [update_of_ne hrt]
        exact hr

theorem Inv.advance (h : Inv M s) (limit : ℕ) (t : τ) : Inv M (s.advance M limit t) := by
  unfold BitBLock.advance
  cases ht : s.pc t with
  | idle => exact h
  | spin x fetch n => exact h.spin ht
  | grab x fetch n => exact h.grab ht
  | enqueue x fetch => exact h.enqueue ht
  | fetchOr x fetch => exact h.fetchOr ht
  | load x fetch => exact h.load ht
  | setWait x fetch cur => exact h.setWait ht
  | blocking x fetch => exact h.block ht
  | blocked x fetch => exact h
  | dequeue x fetch => exact h.dequeue ht
  | fetchData x => exact h.fetchData ht
  | loadRel x bs => exact h.loadRel ht
  | storeRel x bs curval => exact h.storeRel ht
  | swap x bs data => exact h.swap ht
  | wakeupAll x => exact h.wakeupAll ht

theorem Inv.step (h : Inv M s) (limit : ℕ) {a : Action τ} (hadm : s.adm a) :
    Inv M (s.step M limit a) := by
  cases a with
  | acquire t x fetch =>
    obtain ⟨hqueued, hknows, hwaits, hunread⟩ := spinOn_place (M := M) (s := s) (t := t) (x := x)
    exact h.acquireFast hadm hknows hqueued hwaits hunread
  | tryAcquire t x fetch => exact h.acquireFast hadm trivial rfl nofun nofun
  | release t x bs => exact h.move hadm.1 plain_idle hadm.2 nofun rfl nofun
  | advance t => exact h.advance limit t
  | unblock t => exact h.unblock

end Steps

/-! ## Runs -/

/-- `BitBLock` in every interleaving of any calls on any words: at most one thread owns the
lock bit of a word, and the bit is set then; the data that an owner has read is what the last
release has stored; and whenever the lock bit is clear, every thread that waits for the word
will be unblocked, by an `Unblock` that is pending or by a release that has still to call
`wakeupAll`. A thread that leaves a queue is on it. -/
theorem run_wakes {M : Addr → Masks} {limit : ℕ} {bs : Addr → BitVec 64}
    {actions : List (Action τ)} {s : BitBLock τ}
    (h : (interleavings M limit).Run (init M bs) actions s) (x : Addr) :
    (∀ t u, t ∈ s.owners x → u ∈ s.owners x → t = u) ∧
      (∀ t, t ∈ s.owners x → (M x).Locked (s.word x) ∧ ((s.pc t).Reads x ∨
        ∀ d, s.datap t x = some d → (M x).data d = (M x).data (s.stored x))) ∧
      (M x).data (s.word x) = (M x).data (s.stored x) ∧
      (¬ (M x).Locked (s.word x) → ∀ t, (s.pc t).Waits x →
        Pending (s.wasUnblocked t) (s.pc t) ∨ ∃ r, s.pc r = .wakeupAll x) ∧
      ∀ t, (s.pc t).queued = some x → ⟨t, x⟩ ∈ s.table (hash x) := by
  have hinv : Inv M s := by
    refine h.invariant (inv_init M bs) ?_
    rintro s a hs hadm
    exact hs.step limit hadm
  refine ⟨hinv.owned.alone x, ?_, hinv.owned.data x, ?_, ?_⟩
  · exact fun t ht => ⟨hinv.owned.locked x t ht, hinv.read x t ht⟩
  · intro hlocked t ht
    rcases hinv.awaited t x ht with hbits | hrest
    · exact absurd hbits.1 hlocked
    · exact hrest
  · exact fun t ht => (hinv.queues.mem _ ⟨t, x⟩).2 ⟨rfl, ht⟩

instance (s : BitBLock τ) : (a : Action τ) → Decidable (s.adm a)
  | .acquire .. | .tryAcquire .. => inferInstanceAs (Decidable (_ = _))
  | .release .. => inferInstanceAs (Decidable (_ ∧ _))
  | .advance _ | .unblock _ => isTrue trivial

instance (M : Addr → Masks) (limit : ℕ) (s : BitBLock τ) (a : Action τ) :
    Decidable ((interleavings M limit).adm s a) :=
  inferInstanceAs (Decidable (s.adm a))

/-- The two low bits of every word. -/
def lowBits (_ : Addr) : Masks := ⟨1#64, 2#64, by decide, by decide⟩

open scoped SmallFin

/-- Thread 1 sets the wait bit and blocks. Thread 0 stores its data with both bits clear, and
before it wakes up the queue thread 2 takes the lock with the data. -/
def bargesIn : List (Action (Fin 3)) :=
  [.acquire 0 0x1000 true, .acquire 1 0x1000 true, .advance 1, .advance 1, .advance 1,
    .advance 1, .advance 1, .advance 1, .release 0 0x1000 (some 0x40), .advance 0, .advance 0,
    .advance 0, .acquire 2 0x1000 true]

theorem run_wakes_bargesIn :
    let s := bargesIn.foldl (interleavings lowBits 1).step (init lowBits fun _ => 0x30)
    (interleavings lowBits 1).Run (init lowBits fun _ => 0x30) bargesIn s ∧
      s.pc 0 = .wakeupAll 0x1000 ∧ s.pc 1 = .blocked 0x1000 true ∧ 2 ∈ s.owners 0x1000 ∧
      s.datap 2 0x1000 = some 0x40 ∧ s.stored 0x1000 = 0x40 ∧
      ∀ t, t ∈ s.owners 0x1000 → t = 2 := by
  intro s
  have hadmits : (interleavings lowBits 1).Admits (init lowBits fun _ => 0x30) bargesIn := by
    decide +kernel
  have hmem : 2 ∈ s.owners 0x1000 := by decide +kernel
  obtain ⟨halone, -⟩ := run_wakes hadmits.run 0x1000
  exact ⟨hadmits.run, by decide +kernel, by decide +kernel, hmem, by decide +kernel,
    by decide +kernel, fun t ht => halone t 2 ht hmem⟩

end BitBLock

end K42
