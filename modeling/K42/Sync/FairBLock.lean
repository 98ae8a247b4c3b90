import K42.Lib.LateLinked
import K42.Lib.Run
import K42.Lib.Threads

/-!
# The fair locks

`FairBLock` and `SLock` are one algorithm, a queue lock that needs no storage but the stacks
of the waiting threads. `lock.tail` is zero when the lock is free, points to the lock when it
is held and nobody waits, and to the last waiter's element otherwise; `nextThread` of the lock
and of each element is stored after the tail has been swung. The two locks differ in how a
thread waits and is told to go on: `FairBLock` spins for a while and then blocks, and the
holder unblocks the next waiter; `SLock` spins on a word.

Every load, store and compare-and-store is one step.
-/

open Function (update update_cases update_of_ne update_self update_eq_self)

namespace K42

open LateLinked

/-- The lock itself, or the element on the stack of a thread. -/
inductive McsLock.El (τ : Type)
  | lock
  | el (t : τ)
deriving DecidableEq

/-- `FairBLock`, with the limit of its spin loop, or `SLock`. -/
inductive McsLock.Kind
  | blocking (yieldVPLimit : ℕ)
  | spinning
deriving DecidableEq

/-- Where a thread is, with its locals. -/
inductive McsLock.Pc (τ : Type)
  | idle
  | tryCas                                   -- `tryAcquire`
  | fastCas                                  -- the compare-and-store in front of `_acquire`
  | spinLoad (spinCount : ℕ)
  | spinCas (spinCount : ℕ)
  | loadTail                                 -- `el = lock.tail`
  | casFree                                  -- it was zero
  | setNext (el : McsLock.El τ)
  | setWaiter (el : McsLock.El τ)
  | casTail (el : McsLock.El τ)
  | link (el : McsLock.El τ)                 -- `el->nextThread = &myel`
  | testWaiter
  | blocking
  | blocked
  | clearHead                                -- `lock.nextThread = 0`
  | casBack
  | awaitNext
  | loadNext
  | storeHead (next : Option τ)
  | holding
  | fastRelease                              -- the compare-and-store in front of `_release`
  | casRelease
  | awaitHead
  | loadWaiter (el : τ)
  | clearWaiter (el : τ) (waiter : Option τ)
  | unblock (waiter : Option τ)
deriving DecidableEq

/-- The lock, the elements and the threads. `waiter` is the thread that waits on an element;
for `SLock` it stands for 1. The rest is history: `swung` are the threads that have made
themselves the tail, in order, `received` those of them that have been given the lock, and
`queue` those that wait for it. `damaged` says that the assertion of `_release` has failed. -/
structure McsLock (τ : Type) where
  tail : Option (McsLock.El τ)
  nextThread : McsLock.El τ → Option τ
  waiter : τ → Option τ
  wasUnblocked : τ → Bool
  pc : τ → McsLock.Pc τ
  swung : List τ
  received : List τ
  queue : List τ
  damaged : Bool

namespace McsLock

variable {τ : Type} [DecidableEq τ]

def init : McsLock τ where
  tail := none
  nextThread := fun _ => none
  waiter := fun _ => none
  wasUnblocked := fun _ => false
  pc := fun _ => .idle
  swung := []
  received := []
  queue := []
  damaged := false

def goto (s : McsLock τ) (t : τ) (p : Pc τ) : McsLock τ :=
  { s with pc := update s.pc t p }

def storeNext (s : McsLock τ) (e : El τ) (n : Option τ) : McsLock τ :=
  { s with nextThread := update s.nextThread e n }

/-! ## `_acquire` -/

/-- `CompareAndStoreSynced(&lock.tail, 0, &lock)`, and where to go when it fails. -/
def casFree (s : McsLock τ) (t : τ) (fails : Pc τ) : McsLock τ :=
  if s.tail = none then { s with tail := some .lock }.goto t .holding else s.goto t fails

/-- The loop that tries spinning and yielding. -/
def spinAt (k : Kind) (spinCount : ℕ) : Pc τ :=
  match k with
  | .blocking yieldVPLimit => if spinCount < yieldVPLimit then .spinLoad spinCount else .loadTail
  | .spinning => .loadTail

def spinLoad (k : Kind) (s : McsLock τ) (t : τ) (spinCount : ℕ) : McsLock τ :=
  match s.tail with
  | none => s.goto t (.spinCas spinCount)
  | some .lock => s.goto t (spinAt k (spinCount + 1))
  | some (.el _) => s.goto t .loadTail

def loadTail (s : McsLock τ) (t : τ) : McsLock τ :=
  match s.tail with
  | none => s.goto t .casFree
  | some el => s.goto t (.setNext el)

def setNext (s : McsLock τ) (t : τ) (el : El τ) : McsLock τ :=
  (s.storeNext (.el t) none).goto t (.setWaiter el)

def setWaiter (s : McsLock τ) (t : τ) (el : El τ) : McsLock τ :=
  { s with waiter := update s.waiter t (some t) }.goto t (.casTail el)

/-- `CompareAndStoreSynced(&lock.tail, el, &myel)`. -/
def casTail (s : McsLock τ) (t : τ) (el : El τ) : McsLock τ :=
  if s.tail = some el then
    { s with
      tail := some (.el t)
      swung := s.swung ++ [t]
      queue := s.queue ++ [t] }.goto t (.link el)
  else s.goto t .loadTail

/-- `while (myel.waiter != Scheduler::NullThreadID)`. -/
def testWaiter (k : Kind) (s : McsLock τ) (t : τ) : McsLock τ :=
  if s.waiter t = none then s.goto t .clearHead
  else match k with
    | .blocking _ => s.goto t .blocking
    | .spinning => s

/-- `Scheduler::Block`. -/
def block (s : McsLock τ) (t : τ) : McsLock τ :=
  if s.wasUnblocked t then
    { s with wasUnblocked := update s.wasUnblocked t false }.goto t .testWaiter
  else s.goto t .blocked

def casBack (s : McsLock τ) (t : τ) : McsLock τ :=
  if s.tail = some (.el t) then { s with tail := some .lock }.goto t .holding
  else s.goto t .awaitNext

def awaitNext (s : McsLock τ) (t : τ) : McsLock τ :=
  if s.nextThread (.el t) = none then s else s.goto t .loadNext

/-! ## `_release` -/

/-- `CompareAndStoreSynced(&lock.tail, &lock, 0)`, and where to go when it fails. -/
def casRelease (s : McsLock τ) (t : τ) (fails : Pc τ) : McsLock τ :=
  if s.tail = some .lock then { s with tail := none }.goto t .idle else s.goto t fails

/-- `while ((el = lock.nextThread) == 0)`. -/
def awaitHead (k : Kind) (s : McsLock τ) (t : τ) : McsLock τ :=
  match s.nextThread .lock with
  | none => s
  | some el =>
    match k with
    | .blocking _ => s.goto t (.loadWaiter el)
    | .spinning => s.goto t (.clearWaiter el none)

/-- `waiter = el->waiter`, with the assertion. -/
def loadWaiter (s : McsLock τ) (t : τ) (el : τ) : McsLock τ :=
  { s with damaged := s.damaged || decide (s.waiter el = none) }.goto t
    (.clearWaiter el (s.waiter el))

/-- `el->waiter = Scheduler::NullThreadID`: the lock is the waiter's. -/
def clearWaiter (k : Kind) (s : McsLock τ) (t el : τ) (waiter : Option τ) : McsLock τ :=
  { s with
    waiter := update s.waiter el none
    received := s.received ++ [el]
    queue := s.queue.tail }.goto t
    (match k with
    | .blocking _ => .unblock waiter
    | .spinning => .idle)

/-- `Scheduler::Unblock`: a thread that is not blocked will not block the next time. -/
def wake (s : McsLock τ) : Option τ → McsLock τ
  | none => s
  | some w =>
    if s.pc w = .blocked then s.goto w .testWaiter
    else { s with wasUnblocked := update s.wasUnblocked w true }

/-! ## Interleavings -/

/-- The next step of a thread that is in the middle of a call. -/
def advance (k : Kind) (s : McsLock τ) (t : τ) : McsLock τ :=
  match s.pc t with
  | .idle => s
  | .tryCas => s.casFree t .idle
  | .fastCas => s.casFree t (spinAt k 0)
  | .spinLoad spinCount => s.spinLoad k t spinCount
  | .spinCas spinCount => s.casFree t (spinAt k (spinCount + 1))
  | .loadTail => s.loadTail t
  | .casFree => s.casFree t .loadTail
  | .setNext el => s.setNext t el
  | .setWaiter el => s.setWaiter t el
  | .casTail el => s.casTail t el
  | .link el => (s.storeNext el (some t)).goto t .testWaiter
  | .testWaiter => s.testWaiter k t
  | .blocking => s.block t
  | .blocked => s
  | .clearHead => (s.storeNext .lock none).goto t .casBack
  | .casBack => s.casBack t
  | .awaitNext => s.awaitNext t
  | .loadNext => s.goto t (.storeHead (s.nextThread (.el t)))
  | .storeHead next => (s.storeNext .lock next).goto t .holding
  | .holding => s
  | .fastRelease => s.casRelease t .casRelease
  | .casRelease => s.casRelease t .awaitHead
  | .awaitHead => s.awaitHead k t
  | .loadWaiter el => s.loadWaiter t el
  | .clearWaiter el waiter => s.clearWaiter k t el waiter
  | .unblock waiter => (s.wake waiter).goto t .idle

/-- `fast` says that the call first makes a compare-and-store of its own, as `SLock` does and
`FairBLock` where it is compiled with fast paths. -/
inductive Action (τ : Type)
  | acquire (t : τ) (fast : Bool)
  | tryAcquire (t : τ)
  | release (t : τ) (fast : Bool)
  | advance (t : τ)
  | wakeup (t : τ)          -- `Block` returns without an `Unblock`

/-- `Block` returns. -/
def wakeup (s : McsLock τ) (t : τ) : McsLock τ :=
  if s.pc t = .blocking ∨ s.pc t = .blocked then s.goto t .testWaiter else s

def step (k : Kind) (s : McsLock τ) : Action τ → McsLock τ
  | .acquire t fast => s.goto t (if fast then .fastCas else spinAt k 0)
  | .tryAcquire t => s.goto t .tryCas
  | .release t fast => s.goto t (if fast then .fastRelease else .casRelease)
  | .advance t => s.advance k t
  | .wakeup t => s.wakeup t

/-- A thread makes one call at a time, and releases what it holds. -/
def adm (k : Kind) (s : McsLock τ) : Action τ → Prop
  | .acquire t fast => s.pc t = .idle ∧ (k = .spinning → fast = true)
  | .tryAcquire t => s.pc t = .idle
  | .release t fast => s.pc t = .holding ∧ (k = .spinning → fast = true)
  | .advance _ => True
  | .wakeup _ => True

def interleavings (k : Kind) : Machine (McsLock τ) (Action τ) := ⟨step k, adm k⟩

instance (k : Kind) (s : McsLock τ) : ∀ a, Decidable ((interleavings k).adm s a)
  | .acquire .. | .release .. => inferInstanceAs (Decidable (_ ∧ _))
  | .tryAcquire _ => inferInstanceAs (Decidable (_ = _))
  | .advance _ | .wakeup _ => isTrue trivial

/-! ## Who has the lock -/

/-- The part a thread plays. A waiter that has been given the lock is `taking` it until it has
done with its element; from then on the lock stands for the head of the queue. -/
inductive Role
  | outside
  | queued
  | taking
  | locked
deriving DecidableEq

def role (w : Option τ) : Pc τ → Role
  | .link _ => .queued
  | .testWaiter | .blocking | .blocked => if w = none then .taking else .queued
  | .clearHead | .casBack | .awaitNext | .loadNext | .storeHead _ => .taking
  | .holding | .fastRelease | .casRelease | .awaitHead | .loadWaiter _ | .clearWaiter _ _ => .locked
  | _ => .outside

def Role.Owns (r : Role) : Prop := r = .taking ∨ r = .locked

def roleOf (s : McsLock τ) (t : τ) : Role := role (s.waiter t) (s.pc t)

/-- The element from which the queue of the thread with the lock goes out. -/
def base (t : τ) : Role → El τ
  | .taking => .el t
  | _ => .lock

/-- The pointer that a thread is yet to store in the element before its own. -/
def Pc.linking : Pc τ → Option (El τ)
  | .link el => some el
  | _ => none

/-- The next step writes the element of `w`, which is another thread's. -/
def Pc.Writes (w : τ) : Pc τ → Prop
  | .link el => el = .el w
  | .clearWaiter el _ => el = w
  | _ => False

/-- **What the lock is for.** At most one thread has it. The waiters receive it in the order in
which they have swung the tail. From the lock, or from the element of the thread that is taking
it, the links lead to all of them: what is not stored yet is about to be stored by the waiter
itself, and a waiter with no such link in front of it is reached. An element of another thread
is written only while that thread is on the queue or takes the lock. -/
structure Sound (s : McsLock τ) : Prop where
  exclusive : ∀ t u, (s.roleOf t).Owns → (s.roleOf u).Owns → t = u
  queued : ∀ t, t ∈ s.queue ↔ s.roleOf t = .queued
  fifo : s.swung = s.received ++ s.queue
  chain : s.queue ≠ [] → ∃ t, (s.roleOf t).Owns ∧
    Chain El.el s.nextThread (fun t => (s.pc t).linking) (base t (s.roleOf t)) s.queue
  reached : ∀ pre t post, s.queue = pre ++ t :: post → (∀ u ∈ pre, (s.pc u).linking = none) →
    (s.pc t).linking = none →
    ∃ o, (s.roleOf o).Owns ∧ Reaches El.el s.nextThread (base o (s.roleOf o)) t
  written : ∀ t w, (s.pc t).Writes w → s.roleOf w = .queued ∨ s.roleOf w = .taking
  undamaged : s.damaged = false

/-! ## The invariant -/

/-- What a thread relies on. -/
def Detail (next : El τ → Option τ) (w : Option τ) (t : τ) : Pc τ → Prop
  | .setWaiter _ => next (.el t) = none
  | .casTail _ => next (.el t) = none ∧ w = some t
  | .link _ => w = some t
  | .testWaiter | .blocking | .blocked => w = none ∨ w = some t
  | .casBack => next .lock = none
  | .loadNext => next (.el t) ≠ none
  | .storeHead n => n ≠ none ∧ n = next (.el t)
  | .loadWaiter e => next .lock = some e
  | .clearWaiter e _ => next .lock = some e
  | _ => True

/-- The element whose pointer the thread relies on. -/
def Pc.knows (t : τ) : Pc τ → Option (El τ)
  | .setWaiter _ | .casTail _ | .loadNext | .storeHead _ => some (.el t)
  | .casBack | .loadWaiter _ | .clearWaiter _ _ => some .lock
  | _ => none

/-- The thread with the lock, and whether it is still taking it. -/
def Owner (o : Option (τ × Role)) (roles : τ → Role) : Prop :=
  ∀ t r, r.Owns → (roles t = r ↔ o = some (t, r))

/-- The tail and the links. -/
def Shape (o : Option (τ × Role)) (tail : Option (El τ)) (next : El τ → Option τ)
    (linking : τ → Option (El τ)) (queue : List τ) : Prop :=
  match o with
  | none => tail = none ∧ queue = [] ∧ next .lock = none
  | some (t, r) =>
    r.Owns ∧ tail = some (lastNode El.el (base t r) queue) ∧
      Chain El.el next linking (base t r) queue

def linking (s : McsLock τ) (t : τ) : Option (El τ) := (s.pc t).linking

structure Inv (o : Option (τ × Role)) (s : McsLock τ) : Prop where
  mem : ∀ t, t ∈ s.queue ↔ s.roleOf t = .queued
  distinct : s.queue.Nodup
  owner : Owner o s.roleOf
  shape : Shape o s.tail s.nextThread s.linking s.queue
  detail : ∀ t, Detail s.nextThread (s.waiter t) t (s.pc t)
  fifo : s.swung = s.received ++ s.queue
  undamaged : s.damaged = false

section

variable {s : McsLock τ} {o : Option (τ × Role)} {t u : τ} {p q : Pc τ} {r r' : Role} {e c : El τ}
variable {next next' : El τ → Option τ} {w : Option τ} {k : Kind} {roles : τ → Role}

omit [DecidableEq τ] in
theorem inv_init : Inv none (init : McsLock τ) where
  mem _ := iff_of_false nofun nofun
  distinct := List.nodup_nil
  owner _ _ hr := by
    refine iff_of_false ?_ nofun
    rintro rfl
    rcases hr with hr | hr <;> cases hr
  shape := ⟨rfl, rfl, rfl⟩
  detail _ := trivial
  fifo := rfl
  undamaged := rfl

/-! ### Roles -/

theorem not_owns_queued : ¬ Role.queued.Owns := by
  rintro (h | h) <;> cases h

theorem not_owns_outside : ¬ Role.outside.Owns := by
  rintro (h | h) <;> cases h

theorem roleOf_goto : (s.goto t p).roleOf = update s.roleOf t (role (s.waiter t) p) := by
  funext u
  by_cases hu : u = t
  · subst u
    change role (s.waiter t) (update s.pc t p t) = _
    rw [update_self, update_self]
  · change role (s.waiter u) (update s.pc t p u) = _
    rw [update_of_ne hu, update_of_ne hu]
    rfl

theorem linking_goto : (s.goto t p).linking = update s.linking t p.linking :=
  Function.comp_update Pc.linking s.pc t p

section

omit [DecidableEq τ]

theorem Owner.role (h : Owner o roles) (ho : o = some (t, r)) (hr : r.Owns) : roles t = r :=
  (h t r hr).2 ho

theorem Owner.unique (h : Owner o roles) (ht : (roles t).Owns) (hu : (roles u).Owns) : t = u := by
  have heq := (h t _ ht).1 rfl
  rw [(h u _ hu).1 rfl] at heq
  cases heq
  rfl

end

theorem Owner.take (h : Owner o roles) (ho : ∀ u r, o = some (u, r) → u = t) :
    Owner (some (t, r)) (update roles t r) := by
  intro u r' hr'
  by_cases hu : u = t
  · subst u
    rw [update_self]
    constructor
    · rintro rfl
      rfl
    · rintro heq
      cases heq
      rfl
  · rw [update_of_ne hu, h u r' hr']
    refine iff_of_false (fun heq => hu (ho u r' heq)) ?_
    rintro heq
    cases heq
    exact hu rfl

theorem Owner.leave (h : Owner (some (t, r')) roles) (hr : ¬ r.Owns) :
    Owner none (update roles t r) := by
  intro u r'' hr''
  refine iff_of_false ?_ nofun
  refine update_cases ?_ (fun u hu => ?_) u
  · rintro rfl
    exact hr hr''
  · rw [h u r'' hr'']
    rintro heq
    cases heq
    exact hu rfl

theorem Owner.keep (h : Owner o roles) (ht : ¬ (roles t).Owns) (hr : ¬ r.Owns) :
    Owner o (update roles t r) := by
  intro u r' hr'
  refine update_cases ?_ (fun u _ => h u r' hr') u
  rw [← h t r' hr']
  refine iff_of_false ?_ ?_
  · rintro rfl
    exact hr hr'
  · rintro rfl
    exact ht hr'

section

omit [DecidableEq τ]

theorem Inv.unique (h : Inv o s) (ht : (s.roleOf t).Owns) (hu : (s.roleOf u).Owns) : t = u :=
  h.owner.unique ht hu

theorem Inv.at (h : Inv o s) (hrole : s.roleOf t = r) (hr : r.Owns) :
    o = some (t, r) ∧ s.tail = some (lastNode El.el (base t r) s.queue) ∧
      Chain El.el s.nextThread s.linking (base t r) s.queue := by
  have ho := (h.owner t r hr).1 hrole
  have hshape := h.shape
  rw [ho] at hshape
  exact ⟨ho, hshape.2⟩

theorem Inv.owned (h : Inv o s) (htail : s.tail ≠ none) : ∃ t r, o = some (t, r) ∧ r.Owns ∧
    s.roleOf t = r ∧ s.tail = some (lastNode El.el (base t r) s.queue) ∧
      Chain El.el s.nextThread s.linking (base t r) s.queue := by
  have hshape := h.shape
  cases o with
  | none => exact absurd hshape.1 htail
  | some o =>
    obtain ⟨t, r⟩ := o
    obtain ⟨hr, htail, hchain⟩ := hshape
    exact ⟨t, r, rfl, hr, (h.owner t r hr).2 rfl, htail, hchain⟩

theorem Inv.queued_tail (h : Inv o s) (ht : t ∈ s.queue) : s.tail ≠ none := by
  have hshape := h.shape
  cases o with
  | none =>
    rw [hshape.2.1] at ht
    cases ht
  | some o =>
    rw [hshape.2.1]
    exact nofun

theorem Inv.queued_waiter (h : Inv o s) (ht : t ∈ s.queue) : s.waiter t = some t := by
  have hrole := (h.mem t).1 ht
  have hdetail := h.detail t
  unfold roleOf role at hrole
  cases hpc : s.pc t with
  | link e =>
    rw [hpc] at hdetail
    exact hdetail
  | testWaiter | blocking | blocked =>
    rw [hpc] at hdetail hrole
    refine hdetail.resolve_left fun hnone => ?_
    rw [hnone] at hrole
    cases hrole
  | _ =>
    rw [hpc] at hrole
    cases hrole

theorem Inv.fresh (h : Inv o s) (ho : o = some (t, r)) (hr : r.Owns) (hu : u ∈ s.queue) :
    El.el u ≠ base t r := by
  intro heq
  rcases hr with rfl | rfl
  · cases heq
    have hrole := (h.mem _).1 hu
    rw [h.owner.role ho (.inl rfl)] at hrole
    cases hrole
  · cases heq

theorem el_injective : Function.Injective (El.el : τ → El τ) := fun _ _ h => El.el.inj h

end

/-! ### Moves -/

theorem Inv.go (h : Inv o s) (hpc : s.pc t = q)
    (hrole : role (s.waiter t) p = role (s.waiter t) q) (hlinking : p.linking = q.linking)
    (hdetail : Detail s.nextThread (s.waiter t) t p) : Inv o (s.goto t p) := by
  subst q
  have hroles : (s.goto t p).roleOf = s.roleOf := by
    rw [roleOf_goto, hrole]
    exact update_eq_self t s.roleOf
  have hlinkings : (s.goto t p).linking = s.linking := by
    rw [linking_goto, hlinking]
    exact update_eq_self t s.linking
  refine ⟨fun u => ?_, h.distinct, ?_, ?_, fun u => ?_, h.fifo, h.undamaged⟩
  · rw [hroles]
    exact h.mem u
  · rw [hroles]
    exact h.owner
  · rw [hlinkings]
    exact h.shape
  · change Detail s.nextThread (s.waiter u) u (update s.pc t p u)
    exact update_cases hdetail (fun u _ => h.detail u) u

section

omit [DecidableEq τ]

theorem Inv.detailAt (h : Inv o s) (hpc : s.pc t = q) :
    Detail s.nextThread (s.waiter t) t q := by
  have hdetail := h.detail t
  rwa [hpc] at hdetail

theorem roleOf_at (hpc : s.pc t = q) : s.roleOf t = role (s.waiter t) q := by
  rw [roleOf, hpc]

end

theorem Detail.store (h : Detail next w t p) (hknows : p.knows t ≠ some c) {n : Option τ} :
    Detail (update next c n) w t p := by
  have hne : ∀ {x}, p.knows t = some x → update next c n x = next x := by
    intro x hx
    have hxc : x ≠ c := by
      rintro rfl
      exact hknows hx
    exact update_of_ne hxc n next
  cases p with
  | setWaiter el =>
    change update next c n (.el t) = none
    rw [hne rfl]
    exact h
  | casTail el =>
    change update next c n (.el t) = none ∧ w = some t
    rw [hne rfl]
    exact h
  | loadNext =>
    change update next c n (.el t) ≠ none
    rw [hne rfl]
    exact h
  | storeHead m =>
    change m ≠ none ∧ m = update next c n (.el t)
    rw [hne rfl]
    exact h
  | casBack =>
    change update next c n .lock = none
    rw [hne rfl]
    exact h
  | loadWaiter el =>
    change update next c n .lock = some el
    rw [hne rfl]
    exact h
  | clearWaiter el w' =>
    change update next c n .lock = some el
    rw [hne rfl]
    exact h
  | _ => exact h

theorem Inv.store (h : Inv o s) {n : Option τ} (hknows : ∀ u, (s.pc u).knows u ≠ some c)
    (hshape : Shape o s.tail (update s.nextThread c n) s.linking s.queue) :
    Inv o (s.storeNext c n) where
  mem := h.mem
  distinct := h.distinct
  owner := h.owner
  shape := hshape
  detail u := (h.detail u).store (hknows u)
  fifo := h.fifo
  undamaged := h.undamaged

section

omit [DecidableEq τ]

theorem owns_of_knows_lock (hknows : (s.pc t).knows t = some .lock) : (s.roleOf t).Owns := by
  cases hpc : s.pc t <;> rw [hpc] at hknows <;> first
    | exact .inl (roleOf_at hpc)
    | exact .inr (roleOf_at hpc)
    | exact nomatch hknows

theorem knows_el (hknows : (s.pc t).knows t = some (.el u)) : t = u := by
  cases hpc : s.pc t <;> rw [hpc] at hknows <;> first
    | exact El.el.inj (Option.some.inj hknows)
    | exact nomatch hknows

theorem outside_of_knows_el (h : Inv o s) (hknows : (s.pc t).knows t = some (.el t)) :
    s.roleOf t = .outside ∨ s.nextThread (.el t) ≠ none := by
  have hdetail := h.detail t
  cases hpc : s.pc t <;> rw [hpc] at hknows hdetail <;> first
    | exact .inl (roleOf_at hpc)
    | exact .inr hdetail
    | exact .inr (hdetail.2 ▸ hdetail.1)
    | exact nomatch hknows

theorem Inv.queue_nil (h : Inv (some (t, r)) s) (hback : s.tail = some (base t r)) :
    s.queue = [] := by
  obtain ⟨hr, htail, -⟩ := h.shape
  rw [hback] at htail
  have hcases : lastNode El.el (base t r) s.queue = base t r ∧ s.queue = [] ∨
      ∃ u ∈ s.queue, lastNode El.el (base t r) s.queue = .el u := lastNode_cases
  rcases hcases with ⟨-, hnil⟩ | ⟨u, hu, heq⟩
  · exact hnil
  · exact absurd ((Option.some.inj htail).trans heq).symm (h.fresh rfl hr hu)

end

/-! ## The steps of `_acquire` -/

/-- Where a call may be before it has made itself the tail, and after it has given up. -/
def Pc.Plain : Pc τ → Prop
  | .idle | .tryCas | .fastCas | .spinLoad _ | .spinCas _ | .loadTail | .casFree => True
  | .setNext _ | .unblock _ => True
  | _ => False

section

omit [DecidableEq τ]

theorem Pc.Plain.role (h : p.Plain) : role w p = .outside := by
  cases p <;> first | exact h.elim | rfl

theorem Pc.Plain.linking (h : p.Plain) : p.linking = none := by
  cases p <;> first | exact h.elim | rfl

theorem Pc.Plain.detail (h : p.Plain) : Detail next w t p := by
  cases p <;> first | exact h.elim | trivial

end

theorem Inv.plain (h : Inv o s) (hpc : s.pc t = q) (hq : q.Plain) (hp : p.Plain) :
    Inv o (s.goto t p) :=
  h.go hpc (hp.role.trans hq.role.symm) (hp.linking.trans hq.linking.symm) hp.detail

omit [DecidableEq τ] in
theorem spinAt_plain (n : ℕ) : (spinAt k n : Pc τ).Plain := by
  unfold spinAt
  cases k with
  | blocking limit =>
    simp only
    split <;> trivial
  | spinning => trivial

theorem detail_update (h : ∀ u, u ≠ t → Detail next (s.waiter u) u (s.pc u))
    (hp : Detail next (s.waiter t) t p) (u : τ) :
    Detail next (s.waiter u) u (update s.pc t p u) :=
  update_cases hp h u

theorem mem_update {l : List τ} (h : ∀ u, u ∈ l ↔ roles u = .queued) (ht : roles t ≠ .queued)
    (hr : r ≠ .queued) (u : τ) : u ∈ l ↔ update roles t r u = .queued :=
  update_cases (iff_of_false (fun hmem => ht ((h t).1 hmem)) hr) (fun u _ => h u) u

section

variable (h : Inv o s)

include h

theorem Inv.casFree (hpc : s.pc t = q) (hq : q.Plain) (hp : p.Plain) :
    ∃ o', Inv o' (s.casFree t p) := by
  unfold McsLock.casFree
  split
  next htail =>
    cases o with
    | some o =>
      have hsome := h.shape.2.1
      rw [htail] at hsome
      cases hsome
    | none =>
      obtain ⟨-, hqueue, hnext⟩ := h.shape
      have hrole : s.roleOf t = .outside := (roleOf_at hpc).trans hq.role
      have hroles := roleOf_goto (s := { s with tail := some El.lock }) (t := t)
        (p := .holding)
      have hlinking := linking_goto (s := { s with tail := some El.lock }) (t := t)
        (p := .holding)
      refine ⟨some (t, .locked), fun u => ?_, h.distinct, ?_, ?_, ?_, h.fifo, h.undamaged⟩
      · have hne : s.roleOf t ≠ .queued := by
          rw [hrole]
          exact nofun
        rw [hroles]
        exact mem_update (r := .locked) h.mem hne nofun u
      · rw [hroles]
        exact h.owner.take nofun
      · rw [hlinking]
        change Shape _ (some .lock) s.nextThread _ s.queue
        rw [hqueue]
        exact ⟨.inr rfl, rfl, hnext⟩
      · exact detail_update (fun u _ => h.detail u) trivial
  next => exact ⟨o, h.plain hpc hq hp⟩

theorem Inv.spinLoad {n : ℕ} (hpc : s.pc t = .spinLoad n) :
    Inv o (s.spinLoad k t n) := by
  unfold McsLock.spinLoad
  split
  · exact h.plain hpc trivial trivial
  · exact h.plain hpc trivial (spinAt_plain _)
  · exact h.plain hpc trivial trivial

theorem Inv.loadTail (hpc : s.pc t = .loadTail) : Inv o (s.loadTail t) := by
  unfold McsLock.loadTail
  split
  · exact h.plain hpc trivial trivial
  · exact h.plain hpc trivial trivial

theorem Inv.shape_outside (hrole : s.roleOf t = .outside) (n : Option τ) :
    Shape o s.tail (update s.nextThread (.el t) n) s.linking s.queue := by
  have hshape := h.shape
  have hne : ∀ u ∈ s.queue, El.el u ≠ El.el t := by
    intro u hu heq
    cases heq
    have hqueued := (h.mem t).1 hu
    rw [hrole] at hqueued
    cases hqueued
  cases o with
  | none =>
    obtain ⟨htail, hqueue, hlock⟩ := hshape
    have hne : El.lock ≠ El.el t := nofun
    exact ⟨htail, hqueue, (update_of_ne hne n s.nextThread).trans hlock⟩
  | some o =>
    obtain ⟨v, r⟩ := o
    obtain ⟨hr, htail, hchain⟩ := hshape
    have hbase : base v r ≠ El.el t := by
      rcases hr with rfl | rfl
      · rintro heq
        cases heq
        rw [h.owner.role rfl (.inl rfl)] at hrole
        cases hrole
      · exact nofun
    refine ⟨hr, htail, hchain.congr (update_of_ne hbase n s.nextThread) ?_
      fun _ _ => rfl⟩
    exact fun u hu => update_of_ne (hne u hu) n s.nextThread

theorem Inv.setNext (hpc : s.pc t = .setNext e) : Inv o (s.setNext t e) := by
  have hrole := roleOf_at hpc
  have hstore := h.store (c := .el t) (n := none) ?_ (h.shape_outside hrole none)
  · exact hstore.go (q := .setNext e) hpc rfl rfl (update_self _ _ s.nextThread)
  · intro u hknows
    obtain rfl := knows_el hknows
    rw [hpc] at hknows
    cases hknows

theorem Inv.setWaiter (hpc : s.pc t = .setWaiter e) : Inv o (s.setWaiter t e) := by
  have hdetail := h.detailAt hpc
  have hrole : ∀ w, role w (s.pc t) = .outside := by
    rw [hpc]
    exact fun _ => rfl
  have hroles : ({ s with waiter := update s.waiter t (some t) } : McsLock τ).roleOf =
      s.roleOf := by
    funext u
    by_cases hu : u = t
    · subst u
      exact (hrole _).trans (hrole _).symm
    · change role (update s.waiter t (some t) u) (s.pc u) = _
      rw [update_of_ne hu]
      rfl
  have hset : Inv o { s with waiter := update s.waiter t (some t) } := by
    refine ⟨fun u => ?_, h.distinct, ?_, h.shape, fun u => ?_, h.fifo, h.undamaged⟩
    · rw [hroles]
      exact h.mem u
    · rw [hroles]
      exact h.owner
    · by_cases hu : u = t
      · subst u
        change Detail s.nextThread _ t (s.pc t)
        rw [hpc]
        exact hdetail
      · change Detail s.nextThread (update s.waiter t (some t) u) u (s.pc u)
        rw [update_of_ne hu]
        exact h.detail u
  exact hset.go (q := .setWaiter e) hpc rfl rfl ⟨hdetail, update_self _ _ s.waiter⟩

/-- **The tail is swung.** The thread is the last on the queue, and its link is pending. -/
theorem Inv.casTail (hpc : s.pc t = .casTail e) : Inv o (s.casTail t e) := by
  obtain ⟨hnext, hwaiter⟩ := h.detailAt hpc
  have hrole := roleOf_at hpc
  unfold McsLock.casTail
  split
  next htail =>
    obtain ⟨v, r, rfl, hr, hv, hlast, hchain⟩ := h.owned (by rw [htail]; exact nofun)
    have heq : e = lastNode El.el (base v r) s.queue := by
      rw [htail] at hlast
      exact Option.some.inj hlast
    have hnot : t ∉ s.queue := by
      intro hmem
      have hqueued := (h.mem t).1 hmem
      rw [hrole] at hqueued
      cases hqueued
    have hroles := roleOf_goto (t := t) (p := .link e) (s := { s with
      tail := some (El.el t), swung := s.swung ++ [t], queue := s.queue ++ [t] })
    have hlinking := linking_goto (t := t) (p := .link e) (s := { s with
      tail := some (El.el t), swung := s.swung ++ [t], queue := s.queue ++ [t] })
    refine ⟨fun u => ?_, ?_, ?_, ?_, detail_update (fun u _ => h.detail u) hwaiter, ?_, h.undamaged⟩
    · rw [hroles]
      change u ∈ s.queue ++ [t] ↔ update s.roleOf t .queued u = .queued
      rw [List.mem_append, List.mem_singleton]
      refine update_cases (iff_of_true (.inr rfl) rfl) (fun u hu => ?_) u
      rw [← h.mem u]
      exact or_iff_left hu
    · exact h.distinct.append (List.nodup_singleton t) (List.disjoint_singleton.2 hnot)
    · rw [hroles]
      refine h.owner.keep ?_ not_owns_queued
      rw [hrole]
      exact not_owns_outside
    · rw [hlinking]
      refine ⟨hr, ?_, ?_⟩
      · change some (El.el t) = some (lastNode El.el (base v r) (s.queue ++ [t]))
        rw [lastNode_append]
      · have hpush := hchain.push hnext hnot
        rw [← heq] at hpush
        exact hpush
    · change s.swung ++ [t] = s.received ++ (s.queue ++ [t])
      rw [h.fifo, List.append_assoc]
  next => exact h.go hpc rfl rfl trivial

/-- **The link is stored**, in the element of a thread that is on the queue or takes the lock. -/
theorem Inv.link (hpc : s.pc t = .link e) :
    Inv o ((s.storeNext e (some t)).goto t .testWaiter) := by
  have hwaiter : s.waiter t = some t := h.detailAt hpc
  have hrole : s.roleOf t = .queued := roleOf_at hpc
  have hmem := (h.mem t).2 hrole
  have hlinking : s.linking t = some e := congrArg Pc.linking hpc
  obtain ⟨v, r, rfl, hr, hv, hlast, hchain⟩ := h.owned (h.queued_tail hmem)
  have hpending := hchain.pending hmem hlinking
  have hknows : ∀ u, (s.pc u).knows u ≠ some e := by
    intro u hu
    rcases hchain.pred hmem hlinking with rfl | ⟨x, hx, rfl⟩
    · rcases hr with rfl | rfl
      · obtain rfl := knows_el hu
        rcases outside_of_knows_el h hu with houtside | hset
        · rw [hv] at houtside
          cases houtside
        · exact hset hpending
      · -- who relies on the pointer of the lock is its holder, and knows that it is set
        have hv' : (s.roleOf v).Owns := by
          rw [hv]
          exact .inr rfl
        obtain rfl := h.unique (owns_of_knows_lock hu) hv'
        have hdetail := h.detail u
        rw [roleOf] at hv
        cases hpcu : s.pc u <;> rw [hpcu] at hu hdetail hv <;> first
          | (cases hu; done)
          | (cases hv; done)
          | cases hpending.symm.trans hdetail
    · obtain rfl := knows_el hu
      rcases outside_of_knows_el h hu with houtside | hset
      · rw [(h.mem u).1 hx] at houtside
        cases houtside
      · exact hset hpending
  have hroles : ((s.storeNext e (some t)).goto t .testWaiter).roleOf = s.roleOf := by
    rw [roleOf_goto]
    change update s.roleOf t (role (s.waiter t) .testWaiter) = s.roleOf
    rw [hwaiter, ← update_eq_self t s.roleOf, hrole, Function.update_idem]
    rfl
  refine ⟨fun u => ?_, h.distinct, ?_, ?_, ?_, h.fifo, h.undamaged⟩
  · rw [hroles]
    exact h.mem u
  · rw [hroles]
    exact h.owner
  · rw [linking_goto]
    refine ⟨hr, hlast, hchain.link hmem hlinking el_injective h.distinct ?_⟩
    exact fun u hu => h.fresh rfl hr hu
  · exact detail_update (s := s.storeNext e (some t)) (fun u _ => (h.detail u).store (hknows u))
      (.inr hwaiter)

/-! ### The wait loop -/

theorem Inv.testWaiter (hpc : s.pc t = .testWaiter) : Inv o (s.testWaiter k t) := by
  have hdetail := h.detailAt hpc
  unfold McsLock.testWaiter
  split
  next hnone =>
    refine h.go hpc ?_ rfl trivial
    rw [hnone]
    rfl
  next =>
    cases k with
    | blocking limit => exact h.go hpc rfl rfl hdetail
    | spinning => exact h

theorem Inv.block (hpc : s.pc t = .blocking) : Inv o (s.block t) := by
  have hdetail := h.detailAt hpc
  unfold McsLock.block
  split
  next =>
    have hgo := h.go (p := .testWaiter) hpc rfl rfl hdetail
    exact ⟨hgo.mem, hgo.distinct, hgo.owner, hgo.shape, hgo.detail, hgo.fifo, hgo.undamaged⟩
  next => exact h.go hpc rfl rfl hdetail

theorem Inv.wakeup (t : τ) : Inv o (s.wakeup t) := by
  unfold McsLock.wakeup
  split
  next hpc =>
    rcases hpc with hpc | hpc
    · have hdetail := h.detailAt hpc
      exact h.go hpc rfl rfl hdetail
    · have hdetail := h.detailAt hpc
      exact h.go hpc rfl rfl hdetail
  next => exact h

theorem Inv.wake (w : Option τ) : Inv o (s.wake w) := by
  cases w with
  | none => exact h
  | some u =>
    unfold McsLock.wake
    simp only
    split
    next hpc =>
      have hdetail := h.detailAt hpc
      exact h.go hpc rfl rfl hdetail
    next => exact ⟨h.mem, h.distinct, h.owner, h.shape, h.detail, h.fifo, h.undamaged⟩

end

theorem wake_pc (ht : s.pc t ≠ .blocked) (w : Option τ) : (s.wake w).pc t = s.pc t := by
  cases w with
  | none => rfl
  | some u =>
    unfold McsLock.wake
    simp only
    split
    next hblocked =>
      refine update_of_ne ?_ _ s.pc
      rintro rfl
      exact ht hblocked
    next => rfl

/-! ### Taking the lock over -/

omit [DecidableEq τ] in
theorem Inv.knows_lock (h : Inv o s) (hrole : (s.roleOf t).Owns)
    (ht : (s.pc t).knows t ≠ some .lock) (u : τ) : (s.pc u).knows u ≠ some .lock := by
  intro hu
  obtain rfl := h.unique (owns_of_knows_lock hu) hrole
  exact ht hu

theorem Inv.clearHead (h : Inv o s) (hpc : s.pc t = .clearHead) :
    Inv o ((s.storeNext .lock none).goto t .casBack) := by
  have hrole : s.roleOf t = .taking := roleOf_at hpc
  obtain ⟨rfl, htail, hchain⟩ := h.at hrole (.inl rfl)
  have hknows := h.knows_lock (t := t) (by rw [hrole]; exact .inl rfl) (by rw [hpc]; exact nofun)
  have hother : ∀ u, update s.nextThread .lock none (.el u) = s.nextThread (.el u) := by
    intro u
    have hne : El.el u ≠ El.lock := nofun
    exact update_of_ne hne none s.nextThread
  have hself : update s.nextThread .lock none .lock = none :=
    update_self El.lock none s.nextThread
  have hstore := h.store (n := none) hknows ⟨.inl rfl, htail, ?_⟩
  · exact hstore.go (q := .clearHead) hpc rfl rfl hself
  · exact hchain.congr (hother t) (fun u _ => hother u) fun _ _ => rfl

theorem Inv.settle (h : Inv (some (t, .taking)) s) (hrole : s.roleOf t = .taking)
    {tail : Option (El τ)} (htail : tail = some (lastNode El.el .lock s.queue)) {n : Option τ}
    (hchain : Chain El.el (update s.nextThread .lock n) s.linking .lock s.queue)
    (hlinking : (s.pc t).linking = none) :
    Inv (some (t, .locked)) ({ s.storeNext .lock n with tail := tail }.goto t .holding) := by
  have hroles := roleOf_goto (s := { s.storeNext .lock n with tail := tail }) (t := t)
    (p := .holding)
  have hlinkings := linking_goto (s := { s.storeNext .lock n with tail := tail }) (t := t)
    (p := .holding)
  have hne : s.roleOf t ≠ .queued := by
    rw [hrole]
    exact nofun
  refine ⟨fun u => ?_, h.distinct, ?_, ?_, ?_, h.fifo, h.undamaged⟩
  · rw [hroles]
    exact mem_update (r := .locked) h.mem hne nofun u
  · rw [hroles]
    refine h.owner.take ?_
    intro u r heq
    cases heq
    rfl
  · rw [hlinkings]
    have hsame : update s.linking t (Pc.linking .holding) = s.linking := by
      rw [← update_eq_self t s.linking, Function.update_idem]
      exact congrArg (update s.linking t) hlinking.symm
    refine ⟨.inr rfl, htail, ?_⟩
    change Chain El.el _ (update s.linking t (Pc.linking .holding)) _ _
    rw [hsame]
    exact hchain
  · refine detail_update (s := s.storeNext .lock n) (fun u hu => (h.detail u).store ?_) trivial
    intro hknows
    refine hu (h.unique (owns_of_knows_lock hknows) ?_)
    rw [hrole]
    exact .inl rfl

section

variable (h : Inv o s)

include h

theorem Inv.casBack (hpc : s.pc t = .casBack) : ∃ o', Inv o' (s.casBack t) := by
  have hrole : s.roleOf t = .taking := roleOf_at hpc
  have hnone : s.nextThread .lock = none := h.detailAt hpc
  obtain ⟨rfl, htail, hchain⟩ := h.at hrole (.inl rfl)
  unfold McsLock.casBack
  split
  next hback =>
    -- nobody is behind
    have hqueue : s.queue = [] := h.queue_nil hback
    have hsame : s.storeNext .lock (s.nextThread .lock) = s := by
      rw [storeNext, update_eq_self]
    have hsettle : Inv (some (t, .locked))
        ({ s.storeNext .lock (s.nextThread .lock) with tail := some .lock }.goto t .holding) := by
      refine h.settle hrole ?_ ?_ ?_
      · rw [hqueue]
        rfl
      · rw [update_eq_self, hqueue]
        exact hnone
      · rw [hpc]
        rfl
    rw [hsame] at hsettle
    exact ⟨_, hsettle⟩
  next => exact ⟨_, h.go hpc rfl rfl trivial⟩

theorem Inv.awaitNext (hpc : s.pc t = .awaitNext) : Inv o (s.awaitNext t) := by
  unfold McsLock.awaitNext
  split
  next => exact h
  next hset => exact h.go hpc rfl rfl hset

theorem Inv.loadNext (hpc : s.pc t = .loadNext) :
    Inv o (s.goto t (.storeHead (s.nextThread (.el t)))) := by
  have hset := h.detailAt hpc
  exact h.go hpc rfl rfl ⟨hset, rfl⟩

/-- **The head of the queue is recorded in the lock.** -/
theorem Inv.storeHead {n : Option τ} (hpc : s.pc t = .storeHead n) :
    ∃ o', Inv o' ((s.storeNext .lock n).goto t .holding) := by
  have hrole : s.roleOf t = .taking := roleOf_at hpc
  obtain ⟨hset, hn⟩ := h.detailAt hpc
  obtain ⟨rfl, htail, hchain⟩ := h.at hrole (.inl rfl)
  obtain ⟨a, ha⟩ := Option.ne_none_iff_exists'.1 hset
  subst ha
  obtain ⟨l, hqueue, -, -⟩ := hchain.front hn.symm
  have hother : ∀ u,
      update s.nextThread .lock (some a) (.el u) = s.nextThread (.el u) := by
    intro u
    have hne : El.el u ≠ El.lock := nofun
    exact update_of_ne hne (some a) s.nextThread
  have htail' : s.tail = some (lastNode El.el .lock s.queue) := by
    rw [htail, hqueue]
    rfl
  refine ⟨_, h.settle hrole htail' ?_ ?_⟩
  · exact hchain.rebase hn.symm (update_self El.lock (some a) s.nextThread)
      fun u _ => hother u
  · rw [hpc]
    rfl

/-! ## The steps of `_release` -/

theorem Inv.hold (hpc : s.pc t = q) (hq : role (s.waiter t) q = .locked)
    (hp : role (s.waiter t) p = .locked) (hlinking : q.linking = none)
    (hlinking' : p.linking = none) (hdetail : Detail s.nextThread (s.waiter t) t p) :
    Inv o (s.goto t p) :=
  h.go hpc (hp.trans hq.symm) (hlinking'.trans hlinking.symm) hdetail

theorem Inv.casRelease (hpc : s.pc t = q) (hq : role (s.waiter t) q = .locked)
    (hlinking : q.linking = none) (hp : p = .casRelease ∨ p = .awaitHead) :
    ∃ o', Inv o' (s.casRelease t p) := by
  have hrole : s.roleOf t = .locked := (roleOf_at hpc).trans hq
  obtain ⟨rfl, htail, hchain⟩ := h.at hrole (.inr rfl)
  unfold McsLock.casRelease
  split
  next hback =>
    have hqueue : s.queue = [] := h.queue_nil hback
    have hne : s.roleOf t ≠ .queued := by
      rw [hrole]
      exact nofun
    have hroles := roleOf_goto (s := { s with tail := none }) (t := t) (p := .idle)
    refine ⟨none, fun u => ?_, h.distinct, ?_, ⟨rfl, hqueue, ?_⟩,
      detail_update (fun u _ => h.detail u) trivial, h.fifo, h.undamaged⟩
    · rw [hroles]
      exact mem_update (r := .outside) h.mem hne nofun u
    · rw [hroles]
      exact h.owner.leave not_owns_outside
    · rw [hqueue] at hchain
      exact hchain
  next =>
    rcases hp with rfl | rfl
    · exact ⟨_, h.hold hpc hq rfl hlinking rfl trivial⟩
    · exact ⟨_, h.hold hpc hq rfl hlinking rfl trivial⟩

theorem Inv.awaitHead (hpc : s.pc t = .awaitHead) : Inv o (s.awaitHead k t) := by
  unfold McsLock.awaitHead
  split
  next => exact h
  next el hnext =>
    cases k with
    | blocking limit => exact h.hold hpc rfl rfl rfl rfl hnext
    | spinning => exact h.hold hpc rfl rfl rfl rfl hnext

omit [DecidableEq τ] in
theorem Inv.head (hrole : s.roleOf t = .locked) (hnext : s.nextThread .lock = some u) :
    ∃ l, s.queue = u :: l ∧ s.linking u = none ∧
      Chain El.el s.nextThread s.linking (.el u) l := by
  obtain ⟨rfl, htail, hchain⟩ := h.at hrole (.inr rfl)
  exact hchain.front hnext

/-- **The assertion holds**: the waiter at the head has not been told to go on. -/
theorem Inv.loadWaiter (hpc : s.pc t = .loadWaiter u) :
    Inv o (s.loadWaiter t u) := by
  have hnext : s.nextThread .lock = some u := h.detailAt hpc
  have hrole : s.roleOf t = .locked := roleOf_at hpc
  obtain ⟨l, hqueue, -, -⟩ := h.head hrole hnext
  have hwaiter : s.waiter u = some u := by
    refine h.queued_waiter ?_
    rw [hqueue]
    exact List.mem_cons_self
  have hgo := h.hold (p := .clearWaiter u (s.waiter u)) hpc rfl rfl rfl rfl hnext
  unfold McsLock.loadWaiter
  rw [decide_eq_false (by rw [hwaiter]; exact nofun), Bool.or_false]
  exact hgo

end

section

omit [DecidableEq τ]

theorem Detail.taken (h : Detail next w t p) (hrole : role none p = .taking) :
    Detail next none t p := by
  cases p <;> first
    | exact .inl rfl
    | exact h
    | cases hrole

theorem role_none (hrole : role w p = .queued) (hlinking : p.linking = none) :
    role none p = .taking := by
  cases p <;> first
    | rfl
    | (cases hlinking; done)
    | cases hrole

end

/-- **The lock is given to the waiter at the head**, which goes on from its own element. -/
theorem Inv.clearWaiter (h : Inv o s) (hpc : s.pc t = .clearWaiter u w) :
    ∃ o', Inv o' (s.clearWaiter k t u w) := by
  have hnext : s.nextThread .lock = some u := h.detailAt hpc
  have hrole : s.roleOf t = .locked := roleOf_at hpc
  obtain ⟨rfl, htail, -⟩ := h.at hrole (.inr rfl)
  obtain ⟨l, hqueue, hlinking, hchain⟩ := h.head hrole hnext
  have humem : u ∈ s.queue := by
    rw [hqueue]
    exact List.mem_cons_self
  have hurole := (h.mem u).1 humem
  have hut : u ≠ t := by
    rintro rfl
    rw [hrole] at hurole
    cases hurole
  have hnodup := h.distinct
  rw [hqueue, List.nodup_cons] at hnodup
  have hplain : (match k with
      | .blocking _ => Pc.unblock w
      | .spinning => (Pc.idle : Pc τ)).Plain := by
    cases k <;> trivial
  unfold McsLock.clearWaiter
  generalize (match k with
      | .blocking _ => Pc.unblock w
      | .spinning => (Pc.idle : Pc τ)) = p at hplain ⊢
  have htaking : role none (s.pc u) = .taking := role_none hurole hlinking
  have hroles : ({ s with
      waiter := update s.waiter u none
      received := s.received ++ [u]
      queue := s.queue.tail }.goto t p).roleOf =
      update (update s.roleOf t .outside) u .taking := by
    funext v
    change role (update s.waiter u none v) (update s.pc t p v) = _
    refine Function.update_cases₂ ?_ (fun v _ => ?_) v
    · rw [update_of_ne hut]
      exact htaking
    · exact Function.update_cases₂ hplain.role (fun _ _ => rfl) v
  have hlinkings : ({ s with
      waiter := update s.waiter u none
      received := s.received ++ [u]
      queue := s.queue.tail }.goto t p).linking = s.linking := by
    rw [linking_goto, hplain.linking]
    refine Function.update_eq_self_iff.2 ?_
    change none = (s.pc t).linking
    rw [hpc]
    rfl
  refine ⟨some (u, .taking), fun v => ?_, ?_, ?_, ?_, fun v => ?_, ?_, h.undamaged⟩
  · rw [hroles]
    change v ∈ s.queue.tail ↔ _
    rw [hqueue, List.tail_cons]
    refine update_cases (iff_of_false hnodup.1 nofun) (fun v hvu => ?_) v
    by_cases hvt : v = t
    · subst v
      rw [update_self]
      refine iff_of_false (fun hmem => ?_) nofun
      have hqueued := (h.mem t).1 (hqueue ▸ List.mem_cons_of_mem _ hmem)
      rw [hrole] at hqueued
      cases hqueued
    · rw [update_of_ne hvt, ← h.mem v, hqueue, List.mem_cons]
      exact (or_iff_right hvu).symm
  · change s.queue.tail.Nodup
    rw [hqueue]
    exact hnodup.2
  · rw [hroles]
    exact (h.owner.leave not_owns_outside).take nofun
  · rw [hlinkings]
    change Shape _ s.tail s.nextThread s.linking s.queue.tail
    rw [hqueue, List.tail_cons]
    rw [hqueue] at htail
    exact ⟨.inl rfl, htail, hchain⟩
  · change Detail s.nextThread (update s.waiter u none v) v (update s.pc t p v)
    by_cases hvu : v = u
    · subst v
      rw [update_self, update_of_ne hut]
      exact (h.detail u).taken htaking
    · rw [update_of_ne hvu]
      exact update_cases hplain.detail (fun v _ => h.detail v) v
  · change s.swung = s.received ++ [u] ++ s.queue.tail
    rw [h.fifo, hqueue, List.append_assoc]
    rfl

/-! ## Runs -/

theorem Inv.advance (h : Inv o s) (k : Kind) (t : τ) : ∃ o', Inv o' (s.advance k t) := by
  unfold McsLock.advance
  cases hpc : s.pc t with
  | idle => exact ⟨o, h⟩
  | tryCas => exact h.casFree hpc trivial trivial
  | fastCas => exact h.casFree hpc trivial (spinAt_plain _)
  | spinLoad spinCount => exact ⟨o, h.spinLoad hpc⟩
  | spinCas spinCount => exact h.casFree hpc trivial (spinAt_plain _)
  | loadTail => exact ⟨o, h.loadTail hpc⟩
  | casFree => exact h.casFree hpc trivial trivial
  | setNext el => exact ⟨o, h.setNext hpc⟩
  | setWaiter el => exact ⟨o, h.setWaiter hpc⟩
  | casTail el => exact ⟨o, h.casTail hpc⟩
  | link el => exact ⟨o, h.link hpc⟩
  | testWaiter => exact ⟨o, h.testWaiter hpc⟩
  | blocking => exact ⟨o, h.block hpc⟩
  | blocked => exact ⟨o, h⟩
  | clearHead => exact ⟨o, h.clearHead hpc⟩
  | casBack => exact h.casBack hpc
  | awaitNext => exact ⟨o, h.awaitNext hpc⟩
  | loadNext => exact ⟨o, h.loadNext hpc⟩
  | storeHead next => exact h.storeHead hpc
  | holding => exact ⟨o, h⟩
  | fastRelease => exact h.casRelease hpc rfl rfl (.inl rfl)
  | casRelease => exact h.casRelease hpc rfl rfl (.inr rfl)
  | awaitHead => exact ⟨o, h.awaitHead hpc⟩
  | loadWaiter el => exact ⟨o, h.loadWaiter hpc⟩
  | clearWaiter el waiter => exact h.clearWaiter hpc
  | unblock waiter =>
    have hpc' : (s.wake waiter).pc t = .unblock waiter := by
      rw [wake_pc (by rw [hpc]; exact nofun)]
      exact hpc
    exact ⟨o, (h.wake waiter).plain hpc' trivial trivial⟩

theorem Inv.step (h : Inv o s) {a : Action τ} (hadm : s.adm k a) : ∃ o', Inv o' (s.step k a) := by
  cases a with
  | acquire t fast =>
    refine ⟨o, h.plain hadm.1 trivial ?_⟩
    cases fast
    · exact spinAt_plain 0
    · trivial
  | tryAcquire t => exact ⟨o, h.plain hadm trivial trivial⟩
  | release t fast =>
    refine ⟨o, ?_⟩
    cases fast
    · exact h.hold hadm.1 rfl rfl rfl rfl trivial
    · exact h.hold hadm.1 rfl rfl rfl rfl trivial
  | advance t => exact h.advance k t
  | wakeup t => exact ⟨o, h.wakeup t⟩

omit [DecidableEq τ] in
theorem Inv.sound (h : Inv o s) : Sound s where
  exclusive _ _ := h.unique
  queued := h.mem
  fifo := h.fifo
  chain hne := by
    obtain ⟨u, hu⟩ := List.exists_mem_of_ne_nil _ hne
    obtain ⟨t, r, -, hr, rfl, -, hchain⟩ := h.owned (h.queued_tail hu)
    exact ⟨t, hr, hchain⟩
  reached pre t post hqueue hpre ht := by
    have hmem : t ∈ s.queue := by
      rw [hqueue]
      exact List.mem_append_right _ List.mem_cons_self
    obtain ⟨v, r, -, hr, rfl, -, hchain⟩ := h.owned (h.queued_tail hmem)
    rw [hqueue] at hchain
    exact ⟨v, hr, hchain.reaches hpre ht⟩
  written t w hwrites := by
    cases hpc : s.pc t <;> rw [hpc] at hwrites <;> try exact hwrites.elim
    case link el =>
      obtain rfl : el = .el w := hwrites
      have hmem : t ∈ s.queue := (h.mem t).2 (roleOf_at hpc)
      obtain ⟨v, r, rfl, hr, hv, -, hchain⟩ := h.owned (h.queued_tail hmem)
      rcases hchain.pred hmem (congrArg Pc.linking hpc) with heq | ⟨u, hu, heq⟩
      · rcases hr with rfl | rfl
        · cases heq
          exact .inr hv
        · cases heq
      · cases heq
        exact .inl ((h.mem w).1 hu)
    case clearWaiter el waiter =>
      obtain rfl : el = w := hwrites
      obtain ⟨l, hqueue, -, -⟩ := h.head (roleOf_at hpc) (h.detailAt hpc)
      refine .inl ((h.mem el).1 ?_)
      rw [hqueue]
      exact List.mem_cons_self
  undamaged := h.undamaged

end

theorem run_inv {k : Kind} {ops : List (Action τ)} {s : McsLock τ}
    (h : (interleavings k).Run init ops s) : Sound s := by
  have hinv : ∃ o, Inv o s := by
    refine h.invariant (I := fun s => ∃ o, Inv o s) ⟨none, inv_init⟩ ?_
    rintro s a ⟨o, hs⟩ hadm
    exact hs.step hadm
  obtain ⟨o, ho⟩ := hinv
  exact ho.sound

end McsLock

/-- `FairBLock`, whose spin loop ends after `yieldVPLimit` turns. -/
abbrev FairBLock.interleavings (τ : Type) [DecidableEq τ] (yieldVPLimit : ℕ) :
    Machine (McsLock τ) (McsLock.Action τ) :=
  McsLock.interleavings (.blocking yieldVPLimit)

abbrev SLock.interleavings (τ : Type) [DecidableEq τ] : Machine (McsLock τ) (McsLock.Action τ) :=
  McsLock.interleavings .spinning

namespace FairBLock

variable {τ : Type} [DecidableEq τ]

/-- **The fair locks are fair.** In every interleaving of the calls of any number of threads,
and whenever `Block` returns. -/
theorem run_in_order : (∀ (limit : ℕ) (ops : List (McsLock.Action τ)) (s : McsLock τ),
      (interleavings τ limit).Run .init ops s → s.Sound) ∧
    (∀ (ops : List (McsLock.Action τ)) (s : McsLock τ),
      (SLock.interleavings τ).Run .init ops s → s.Sound) :=
  ⟨fun _ _ _ => McsLock.run_inv, fun _ _ => McsLock.run_inv⟩

open scoped SmallFin

open McsLock.Action in
/-- Three threads on `FairBLock`, which is handed over twice. Two of them swing the tail before
the first stores its link. -/
def threeThreads : List (McsLock.Action (Fin 3)) :=
  [acquire 0 true, advance 0, acquire 1 true] ++ List.replicate 6 (advance 1) ++
  acquire 2 false :: List.replicate 6 (advance 2) ++
  release 0 true :: List.replicate 3 (advance 0) ++
  List.replicate 3 (advance 1) ++ wakeup 1 :: List.replicate 4 (advance 0) ++
  List.replicate 6 (advance 1) ++ release 1 false :: List.replicate 5 (advance 1) ++
  List.replicate 3 (advance 2)

theorem run_in_order_threeThreads :
    let s := threeThreads.foldl (McsLock.step (.blocking 1)) .init
    s.received = [1, 2] ∧ s.pc 2 = .holding ∧ s.Sound ∧
      (McsLock.init.step .spinning (.acquire (0 : Fin 3) true)).Sound := by
  intro s
  have hfair : (interleavings (Fin 3) 1).Admits .init threeThreads := by decide +kernel
  have hspin : (SLock.interleavings (Fin 3)).Admits .init [.acquire 0 true] := by decide +kernel
  exact ⟨by decide +kernel, by decide +kernel, run_in_order.1 1 _ _ hfair.run,
    run_in_order.2 _ _ hspin.run⟩

end FairBLock

end K42
