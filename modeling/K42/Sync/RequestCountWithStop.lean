import K42.Sync.RequestCount

/-!
# Stopping and restarting a request count

`RequestCountWithStop` adds a lock to `RequestCount`. A stop returns with the lock held and
the count negative; the restart makes the count normal again and releases the lock. An
`enter` that finds the count negative backs out, and tests the count again under the lock.

Every step is one atomic operation of one thread, the acquisition and the release of the
lock among them. The call of an operation is made together with its first step.
-/

open Function (update update_cases update_of_ne update_self)

namespace K42.Sync

/-- The two calls that take `LONG_MAX / 2` off the count. -/
inductive RequestCountWithStop.Kind
  | stop
  | shutdown
deriving DecidableEq

/-- Where a thread is. The first argument of `swapping` and `unblocking` tells the `leave` of
an `enter` that backs out from a `leave` of its own. -/
inductive RequestCountWithStop.Pc (τ : Type)
  | idle
  | inside                  -- a successful `enter` that has not left
  | retry                   -- `enterInternal` has asked for another try
  | backingOut              -- `enter` has found the count negative
  | swapping (entering : Bool)
  | unblocking (entering : Bool) (id : τ)
  | lockEnter
  | testEnter
  | unlockEnter (again : Bool)
  | lock (k : RequestCountWithStop.Kind)
  | testCount (k : RequestCountWithStop.Kind)
  | testThread (k : RequestCountWithStop.Kind) (r : ℤ)
  | store (k : RequestCountWithStop.Kind)
  | unlockLost (k : RequestCountWithStop.Kind) (r : ℤ)
  | subtract (k : RequestCountWithStop.Kind)
  | unlock (r : ℤ)          -- only `shutdown` waits without the lock
  | clear (k : RequestCountWithStop.Kind)
  | wait (k : RequestCountWithStop.Kind)
  | blocking (k : RequestCountWithStop.Kind)
  | blocked (k : RequestCountWithStop.Kind)
  | stopped                 -- `stop` has returned zero
  | unlockRestart
deriving DecidableEq

/-- The count, the lock and the threads. `taken` says whether the count is down, and
`result` holds what each thread's last call has returned. -/
structure RequestCountWithStop (τ : Type) where
  requests : ℤ
  shutdownThread : Option τ
  lock : Option τ
  pc : τ → RequestCountWithStop.Pc τ
  wasUnblocked : τ → Bool
  taken : Bool
  result : τ → ℤ

namespace RequestCountWithStop

open Threads
open RequestCount (Fits half_eq)
open False (elim)

variable {τ : Type} [DecidableEq τ]

def init : RequestCountWithStop τ where
  requests := 0
  shutdownThread := none
  lock := none
  pc := fun _ => .idle
  wasUnblocked := fun _ => false
  taken := false
  result := fun _ => 0

def goto (s : RequestCountWithStop τ) (t : τ) (p : Pc τ) : RequestCountWithStop τ :=
  { s with pc := update s.pc t p }

/-- `FetchAndAddSigned` on a 64-bit word. -/
def add (s : RequestCountWithStop τ) (d : ℤ) : RequestCountWithStop τ :=
  { s with requests := (s.requests + d).bmod (2 ^ 64) }

/-- The call of `t` returns `r`. -/
def ret (s : RequestCountWithStop τ) (t : τ) (p : Pc τ) (r : ℤ) : RequestCountWithStop τ :=
  { s.goto t p with result := update s.result t r }

/-- `lock.acquire()`: a thread that finds the lock held stays where it is. -/
def acquire (s : RequestCountWithStop τ) (t : τ) (p : Pc τ) : RequestCountWithStop τ :=
  if s.lock = none then { s with lock := some t }.goto t p else s

/-- `lock.release()`. -/
def release (s : RequestCountWithStop τ) : RequestCountWithStop τ :=
  { s with lock := none }

/-! ## Requests -/

def enter (s : RequestCountWithStop τ) (t : τ) : RequestCountWithStop τ :=
  if s.requests < 0 then (s.add 1).goto t .backingOut else (s.add 1).ret t .inside s.requests

/-- Where a `leave` goes on. -/
def after (entering : Bool) : Pc τ := if entering then .lockEnter else .idle

def leave (s : RequestCountWithStop τ) (t : τ) (entering : Bool) : RequestCountWithStop τ :=
  (s.add (-1)).goto t
    (if s.requests > 0 then after entering
    else if s.requests = -(LONG_MAX / 2) + 1 then .swapping entering
    else after entering)

/-- Atomically zeroes the thread id. -/
def swap (s : RequestCountWithStop τ) (t : τ) (entering : Bool) : RequestCountWithStop τ :=
  match s.shutdownThread with
  | none => s.goto t (after entering)
  | some id => { s with shutdownThread := none }.goto t (.unblocking entering id)

/-- `Scheduler::Unblock`: a thread that is not blocked will not block the next time. -/
def unblock (s : RequestCountWithStop τ) (t : τ) (entering : Bool) (id : τ) :
    RequestCountWithStop τ :=
  match s.pc id with
  | .blocked k => (s.goto id (.wait k)).goto t (after entering)
  | _ =>
    { s with wasUnblocked := update s.wasUnblocked id true }.goto t (after entering)

/-- If the count is negative while the lock is held, a shutdown has won. -/
def testEnter (s : RequestCountWithStop τ) (t : τ) : RequestCountWithStop τ :=
  if s.requests < 0 then s.ret t (.unlockEnter false) s.requests
  else s.goto t (.unlockEnter true)

def unlockEnter (s : RequestCountWithStop τ) (t : τ) (again : Bool) : RequestCountWithStop τ :=
  s.release.goto t (if again then .retry else .idle)

/-! ## Stop, shutdown and restart -/

/-- What a call that has lost returns. -/
def Kind.lost (k : Kind) (r : ℤ) : ℤ :=
  match k with
  | .stop => -1
  | .shutdown => r

/-- If the count is less than zero, someone is already shutting down. -/
def testCount (s : RequestCountWithStop τ) (t : τ) (k : Kind) : RequestCountWithStop τ :=
  if s.requests < 0 then s.goto t (.unlockLost k s.requests)
  else s.goto t (.testThread k s.requests)

/-- If `shutdownThread` is set, someone is already shutting down. -/
def testThread (s : RequestCountWithStop τ) (t : τ) (k : Kind) (r : ℤ) :
    RequestCountWithStop τ :=
  if s.shutdownThread ≠ none then s.goto t (.unlockLost k r) else s.goto t (.store k)

def unlockLost (s : RequestCountWithStop τ) (t : τ) (k : Kind) (r : ℤ) :
    RequestCountWithStop τ :=
  s.release.ret t .idle (k.lost r)

/-- `CompareAndStoreSynced` of the thread's own id. -/
def store (s : RequestCountWithStop τ) (t : τ) (k : Kind) : RequestCountWithStop τ :=
  if s.shutdownThread = none then { s with shutdownThread := some t }.goto t (.subtract k)
  else s.goto t (.testCount k)

def subtract (s : RequestCountWithStop τ) (t : τ) (k : Kind) : RequestCountWithStop τ :=
  { s.add (-(LONG_MAX / 2)) with taken := true }.goto t
    (match k with
    | .stop => if s.requests = 0 then .clear .stop else .wait .stop
    | .shutdown => .unlock s.requests)

/-- We must release the lock to allow enters to fail quickly. -/
def unlock (s : RequestCountWithStop τ) (t : τ) (r : ℤ) : RequestCountWithStop τ :=
  s.release.goto t (if r = 0 then .clear .shutdown else .wait .shutdown)

/-- Where a call that has won goes on: a `stop` keeps the lock. -/
def Kind.won (k : Kind) : Pc τ :=
  match k with
  | .stop => .stopped
  | .shutdown => .idle

def clear (s : RequestCountWithStop τ) (t : τ) (k : Kind) : RequestCountWithStop τ :=
  { s with shutdownThread := none }.ret t k.won 0

def wait (s : RequestCountWithStop τ) (t : τ) (k : Kind) : RequestCountWithStop τ :=
  if s.shutdownThread ≠ none then s.goto t (.blocking k) else s.ret t k.won 0

/-- `Scheduler::Block`. -/
def block (s : RequestCountWithStop τ) (t : τ) (k : Kind) : RequestCountWithStop τ :=
  if s.wasUnblocked t then
    { s with wasUnblocked := update s.wasUnblocked t false }.goto t (.wait k)
  else s.goto t (.blocked k)

def restart (s : RequestCountWithStop τ) (t : τ) : RequestCountWithStop τ :=
  { s.add (LONG_MAX / 2) with taken := false }.goto t .unlockRestart

/-- The next atomic operation of a thread that is in the middle of one of the calls. -/
def advance (s : RequestCountWithStop τ) (t : τ) : RequestCountWithStop τ :=
  match s.pc t with
  | .idle => s
  | .inside => s
  | .retry => s.enter t
  | .backingOut => s.leave t true
  | .swapping entering => s.swap t entering
  | .unblocking entering id => s.unblock t entering id
  | .lockEnter => s.acquire t .testEnter
  | .testEnter => s.testEnter t
  | .unlockEnter again => s.unlockEnter t again
  | .lock k => s.acquire t (.testCount k)
  | .testCount k => s.testCount t k
  | .testThread k r => s.testThread t k r
  | .store k => s.store t k
  | .unlockLost k r => s.unlockLost t k r
  | .subtract k => s.subtract t k
  | .unlock r => s.unlock t r
  | .clear k => s.clear t k
  | .wait k => s.wait t k
  | .blocking k => s.block t k
  | .blocked _ => s
  | .stopped => s
  | .unlockRestart => s.release.goto t .idle

/-! ## Interleavings -/

inductive Action (τ : Type)
  | enter (t : τ)
  | leave (t : τ)
  | stop (t : τ)
  | shutdown (t : τ)
  | restart (t : τ)
  | wakeup (t : τ)          -- `Block` returns without an `Unblock`
  | advance (t : τ)

/-- `Block` returns, and the thread tests `shutdownThread` again. -/
def wakeup (s : RequestCountWithStop τ) (t : τ) : RequestCountWithStop τ :=
  match s.pc t with
  | .blocked k => s.goto t (.wait k)
  | _ => s

def step (s : RequestCountWithStop τ) : Action τ → RequestCountWithStop τ
  | .enter t => s.enter t
  | .leave t => s.leave t false
  | .stop t => s.goto t (.lock .stop)
  | .shutdown t => s.goto t (.lock .shutdown)
  | .restart t => s.restart t
  | .wakeup t => s.wakeup t
  | .advance t => s.advance t

/-- A thread makes one call at a time, leaves only after it has entered, and restarts what
it has stopped. -/
def adm (s : RequestCountWithStop τ) : Action τ → Prop
  | .enter t => s.pc t = .idle
  | .leave t => s.pc t = .inside
  | .stop t => s.pc t = .idle
  | .shutdown t => s.pc t = .idle
  | .restart t => s.pc t = .stopped
  | .wakeup _ => True
  | .advance _ => True

def interleavings : Machine (RequestCountWithStop τ) (Action τ) := ⟨step, adm⟩

/-- In a `leave` that has found itself the last one. -/
def Pc.Leaving : Pc τ → Prop
  | .swapping _ => True
  | .unblocking _ _ => True
  | _ => False

def Pc.Marking : Pc τ → Prop
  | .store _ => True
  | _ => False

/-- A call marks itself only after the last one of every earlier stop has left. -/
def settles (s : RequestCountWithStop τ) : Action τ → Prop
  | .advance t => (s.pc t).Marking → ∀ u, ¬ (s.pc u).Leaving
  | _ => True

def settling : Machine (RequestCountWithStop τ) (Action τ) := ⟨step, fun s a => s.adm a ∧ s.settles a⟩

/-! ## The phases of a stop -/

section Phases

variable {s s' : RequestCountWithStop τ} {t w : τ} {p : Pc τ}

/-- Counted in `requests`. -/
def Pc.Counted (p : Pc τ) : Prop := p = .inside ∨ p = .backingOut

instance (p : Pc τ) : Decidable p.Counted :=
  inferInstanceAs (Decidable (p = .inside ∨ p = .backingOut))

/-- The count is down, and the call has not returned. -/
def Pc.Waits : Pc τ → Prop
  | .unlock _ => True
  | .clear _ => True
  | .wait _ => True
  | .blocking _ => True
  | .blocked _ => True
  | _ => False

/-- Told already that no request is inside. -/
def Pc.Drained : Pc τ → Prop
  | .unlock r => r = 0
  | .clear _ => True
  | _ => False

/-- The thread whose stop or shutdown is under way, from the mark to the restart. -/
def Pc.Active : Pc τ → Prop
  | .subtract _ => True
  | .unlock _ => True
  | .clear _ => True
  | .wait _ => True
  | .blocking _ => True
  | .blocked _ => True
  | .stopped => True
  | _ => False

/-- The lock is held. -/
def Pc.Holds : Pc τ → Prop
  | .testEnter => True
  | .unlockEnter _ => True
  | .testCount _ => True
  | .testThread _ _ => True
  | .store _ => True
  | .unlockLost _ _ => True
  | .subtract _ => True
  | .unlock _ => True
  | .clear k => k = .stop
  | .wait k => k = .stop
  | .blocking k => k = .stop
  | .blocked k => k = .stop
  | .stopped => True
  | .unlockRestart => True
  | _ => False

/-- A call that has read a count that is not negative, and has not marked itself. -/
def Pc.Tested : Pc τ → Prop
  | .testThread _ _ => True
  | .store _ => True
  | _ => False

/-- No stop and no shutdown is under way. -/
structure Open (s : RequestCountWithStop τ) : Prop where
  taken : s.taken = false
  thread : s.shutdownThread = none
  idle : ∀ t, ¬ (s.pc t).Active

/-- The thread `w` has marked itself, and is about to subtract. -/
structure Marked (s : RequestCountWithStop τ) (w : τ) : Prop where
  taken : s.taken = false
  thread : s.shutdownThread = some w
  subtract : ∃ k, s.pc w = .subtract k
  idle : ∀ t, t ≠ w → ¬ (s.pc t).Active
  settled : ∀ t, ¬ (s.pc t).Leaving

/-- The thread `w` has subtracted. Once it is about to be told so, no request is inside. -/
structure Closing (s : RequestCountWithStop τ) (w : τ) : Prop where
  taken : s.taken = true
  waits : (s.pc w).Waits
  idle : ∀ t, t ≠ w → ¬ (s.pc t).Active
  drained : s.shutdownThread = none ∨ (s.pc w).Drained ∨ (∃ t, (s.pc t).Leaving) →
    ∀ t, s.pc t ≠ .inside

/-- The stop of `w` has returned. -/
structure Stopped (s : RequestCountWithStop τ) (w : τ) : Prop where
  taken : s.taken = true
  thread : s.shutdownThread = none
  stopped : s.pc w = .stopped
  idle : ∀ t, t ≠ w → ¬ (s.pc t).Active
  empty : ∀ t, s.pc t ≠ .inside

/-- A shutdown has returned. -/
structure Closed (s : RequestCountWithStop τ) : Prop where
  taken : s.taken = true
  thread : s.shutdownThread = none
  idle : ∀ t, ¬ (s.pc t).Active
  empty : ∀ t, s.pc t ≠ .inside

inductive Phase (s : RequestCountWithStop τ) : Prop
  | isOpen (h : Open s)
  | marked (w : τ) (h : Marked s w)
  | closing (w : τ) (h : Closing s w)
  | stopped (w : τ) (h : Stopped s w)
  | closed (h : Closed s)

section

omit [DecidableEq τ]

theorem Pc.Waits.active (h : p.Waits) : p.Active := by
  cases p <;> first | exact h | exact h.elim

theorem Phase.congr (h : Phase s) (hpc : s'.pc = s.pc)
    (hthread : s'.shutdownThread = s.shutdownThread) (htaken : s'.taken = s.taken) : Phase s' := by
  cases h with
  | isOpen h =>
    refine .isOpen ?_
    constructor
    all_goals simp only [hpc, hthread, htaken]
    exacts [h.taken, h.thread, h.idle]
  | marked w h =>
    refine .marked w ?_
    constructor
    all_goals simp only [hpc, hthread, htaken]
    exacts [h.taken, h.thread, h.subtract, h.idle, h.settled]
  | closing w h =>
    refine .closing w ?_
    constructor
    all_goals simp only [hpc, hthread, htaken]
    exacts [h.taken, h.waits, h.idle, h.drained]
  | stopped w h =>
    refine .stopped w ?_
    constructor
    all_goals simp only [hpc, hthread, htaken]
    exacts [h.taken, h.thread, h.stopped, h.idle, h.empty]
  | closed h =>
    refine .closed ?_
    constructor
    all_goals simp only [hpc, hthread, htaken]
    exacts [h.taken, h.thread, h.idle, h.empty]

end

/-- A thread that is not the active one moves on. It gets inside only while the count is
not down, and it becomes the one to wake the active one only when no other request is
inside. -/
theorem Phase.goto (h : Phase s) (ht : ¬ (s.pc t).Active) (hp : ¬ p.Active)
    (hin : p = .inside → s.taken = false)
    (hleaving : p.Leaving → (s.pc t).Leaving ∨ s.taken = true ∧ ∀ u, u ≠ t → s.pc u ≠ .inside) :
    Phase (s.goto t p) := by
  have hother : ∀ {w}, (s.pc w).Active → (s.goto t p).pc w = s.pc w := by
    intro w hw
    apply update_of_ne
    rintro rfl
    exact ht hw
  have hempty : s.taken = true → (∀ u, s.pc u ≠ .inside) → ∀ u, (s.goto t p).pc u ≠ .inside := by
    intro htaken hnone
    apply forall_update (P := fun q : Pc τ => q ≠ .inside) hnone
    intro hp
    rw [hin hp] at htaken
    cases htaken
  cases h with
  | isOpen h =>
    exact .isOpen ⟨h.taken, h.thread, forall_update (P := fun q : Pc τ => ¬ q.Active) h.idle hp⟩
  | marked w h =>
    obtain ⟨k, hk⟩ := h.subtract
    refine .marked w ⟨h.taken, h.thread, ⟨k, ?_⟩, forall_ne_update (P := fun q : Pc τ => ¬ q.Active)
      h.idle hp, forall_update (P := fun q : Pc τ => ¬ q.Leaving) h.settled ?_⟩
    · rw [hother (by rw [hk]; trivial), hk]
    · intro hl
      rcases hleaving hl with hl | ⟨htaken, -⟩
      · exact h.settled t hl
      · rw [h.taken] at htaken
        cases htaken
  | closing w h =>
    have hw := hother h.waits.active
    refine .closing w ⟨h.taken, ?_, forall_ne_update (P := fun q : Pc τ => ¬ q.Active) h.idle hp, ?_⟩
    · rw [hw]
      exact h.waits
    · intro hdrained
      -- a thread that starts to leave now is the last one inside
      rcases hdrained with hnone | hdrained | ⟨u, hu⟩
      · exact hempty h.taken (h.drained (.inl hnone))
      · rw [hw] at hdrained
        exact hempty h.taken (h.drained (.inr (.inl hdrained)))
      · by_cases hut : u = t
        · subst u
          change (update s.pc t p t).Leaving at hu
          rw [update_self] at hu
          rcases hleaving hu with hl | ⟨-, hlast⟩
          · exact hempty h.taken (h.drained (.inr (.inr ⟨t, hl⟩)))
          · intro v
            change update s.pc t p v ≠ _
            refine update_cases ?_ hlast v
            rintro rfl
            exact hu
        · change (update s.pc t p u).Leaving at hu
          rw [update_of_ne hut] at hu
          exact hempty h.taken (h.drained (.inr (.inr ⟨u, hu⟩)))
  | stopped w h =>
    refine .stopped w ⟨h.taken, h.thread, ?_, forall_ne_update (P := fun q : Pc τ => ¬ q.Active)
      h.idle hp, hempty h.taken h.empty⟩
    rw [hother (by rw [h.stopped]; trivial), h.stopped]
  | closed h =>
    exact .closed ⟨h.taken, h.thread, forall_update (P := fun q : Pc τ => ¬ q.Active) h.idle hp,
      hempty h.taken h.empty⟩

theorem Phase.active_of (h : Phase s) (ht : (s.pc t).Active) :
    Marked s t ∨ Closing s t ∨ Stopped s t := by
  have howner : ∀ {w}, (∀ u, u ≠ w → ¬ (s.pc u).Active) → t = w := by
    intro w hidle
    by_contra hne
    exact hidle t hne ht
  cases h with
  | isOpen h => exact absurd ht (h.idle t)
  | marked w h =>
    obtain rfl := howner h.idle
    exact .inl h
  | closing w h =>
    obtain rfl := howner h.idle
    exact .inr (.inl h)
  | stopped w h =>
    obtain rfl := howner h.idle
    exact .inr (.inr h)
  | closed h => exact absurd ht (h.idle t)

theorem Phase.marked_of (h : Phase s) {k : Kind} (ht : s.pc t = .subtract k) : Marked s t := by
  have hactive : (s.pc t).Active := by
    rw [ht]
    trivial
  rcases h.active_of hactive with h | h | h
  · exact h
  · have hwaits := h.waits
    rw [ht] at hwaits
    exact hwaits.elim
  · rw [h.stopped] at ht
    cases ht

theorem Phase.closing_of (h : Phase s) (ht : (s.pc t).Waits) : Closing s t := by
  rcases h.active_of ht.active with h | h | h
  · obtain ⟨k, hk⟩ := h.subtract
    rw [hk] at ht
    exact ht.elim
  · exact h
  · rw [h.stopped] at ht
    exact ht.elim

theorem Phase.stopped_of (h : Phase s) (ht : s.pc t = .stopped) : Stopped s t := by
  have hactive : (s.pc t).Active := by
    rw [ht]
    trivial
  rcases h.active_of hactive with h | h | h
  · obtain ⟨k, hk⟩ := h.subtract
    rw [hk] at ht
    cases ht
  · have hwaits := h.waits
    rw [ht] at hwaits
    exact hwaits.elim
  · exact h

end Phases

/-! ## Steps -/

section Steps

variable [Fintype τ] {s : RequestCountWithStop τ} {t : τ} {p : Pc τ}

structure Inv (s : RequestCountWithStop τ) : Prop where
  count : s.requests = census Pc.Counted s.pc - LONG_MAX / 2 * (s.taken.toNat : ℤ)
  phase : Phase s
  lock : Guards Pc.Holds s.lock s.pc
  tested : ∀ t, (s.pc t).Tested → s.taken = false

theorem Inv.bounds (h : Inv s) (hfits : Fits τ) :
    -(LONG_MAX / 2) * (s.taken.toNat : ℤ) ≤ s.requests ∧
      s.requests < LONG_MAX / 2 - LONG_MAX / 2 * (s.taken.toNat : ℤ) := by
  have hle := census_le_card Pc.Counted s.pc
  have hlt : (Fintype.card τ : ℤ) < LONG_MAX / 2 := hfits
  rw [h.count, half_eq] at *
  constructor <;> omega

theorem Inv.add_requests (h : Inv s) (hfits : Fits τ) {d : ℤ}
    (hd : d = 1 ∨ d = -1 ∨ d = -(LONG_MAX / 2) ∧ s.taken = false ∨ d = LONG_MAX / 2 ∧ s.taken = true) :
    (s.add d).requests = s.requests + d := by
  have hbounds := h.bounds hfits
  have hwidth : ((2 ^ 64 : ℕ) : ℤ) = 18446744073709551616 := rfl
  have htaken := s.taken.toNat_le
  rw [half_eq] at *
  unfold add
  apply Int.bmod_eq_of_le
  · rw [hwidth]
    rcases hd with hd | hd | ⟨hd, hs⟩ | ⟨hd, hs⟩
    · omega
    · omega
    · rw [hs, Bool.toNat_false] at hbounds
      omega
    · rw [hs, Bool.toNat_true] at hbounds
      omega
  · rw [hwidth]
    rcases hd with hd | hd | ⟨hd, hs⟩ | ⟨hd, hs⟩
    · omega
    · omega
    · rw [hs, Bool.toNat_false] at hbounds
      omega
    · rw [hs, Bool.toNat_true] at hbounds
      omega

theorem Inv.requests_neg (h : Inv s) (hfits : Fits τ) : s.requests < 0 ↔ s.taken = true := by
  have hbounds := h.bounds hfits
  rw [half_eq] at hbounds
  cases htaken : s.taken with
  | false =>
    rw [htaken, Bool.toNat_false] at hbounds
    simp only [Bool.false_eq_true, iff_false]
    omega
  | true =>
    rw [htaken, Bool.toNat_true] at hbounds
    simp only [iff_true]
    omega

theorem Inv.setResult (h : Inv s) (f : τ → ℤ) : Inv { s with result := f } :=
  ⟨h.count, h.phase.congr rfl rfl rfl, h.lock, h.tested⟩

theorem Inv.setUnblocked (h : Inv s) (f : τ → Bool) : Inv { s with wasUnblocked := f } :=
  ⟨h.count, h.phase.congr rfl rfl rfl, h.lock, h.tested⟩

omit [Fintype τ] in
theorem tested_update (h : ∀ t, (s.pc t).Tested → s.taken = false) (hp : p.Tested → s.taken = false) :
    ∀ u, (update s.pc t p u).Tested → s.taken = false :=
  forall_update (P := fun q : Pc τ => q.Tested → s.taken = false) h hp

/-- Neither counted nor the active thread. -/
def Pc.Plain (p : Pc τ) : Prop := ¬ p.Active ∧ ¬ p.Counted

omit [DecidableEq τ] [Fintype τ] in
theorem Pc.plain_of (hactive : ¬ p.Active) (hinside : p ≠ .inside) (hback : p ≠ .backingOut) :
    p.Plain := by
  refine ⟨hactive, ?_⟩
  rintro (h | h)
  · exact hinside h
  · exact hback h

theorem Inv.move (h : Inv s) {l : Option τ} (ht : (s.pc t).Plain) (hp : p.Plain)
    (hlock : Guards Pc.Holds l (update s.pc t p)) (htested : p.Tested → s.taken = false)
    (hleaving : p.Leaving → (s.pc t).Leaving) : Inv ({ s with lock := l }.goto t p) where
  count := by
    change s.requests = census Pc.Counted (update s.pc t p) - _
    rw [census_stay (iff_of_false ht.2 hp.2)]
    exact h.count
  phase := by
    have hphase : Phase { s with lock := l } := h.phase.congr rfl rfl rfl
    apply hphase.goto ht.1 hp.1
    · exact fun hin => absurd (.inl hin) hp.2
    · exact fun hl => .inl (hleaving hl)
  lock := hlock
  tested := tested_update h.tested htested

theorem Inv.pass (h : Inv s) {q : Pc τ} (ht : s.pc t = q) (hq : q.Plain) (hp : p.Plain)
    (hholds : q.Holds ↔ p.Holds) (htested : p.Tested → s.taken = false)
    (hleaving : p.Leaving → q.Leaving) : Inv (s.goto t p) := by
  subst q
  exact h.move hq hp (h.lock.stay hholds) htested hleaving

theorem Inv.acquire (h : Inv s) (ht : (s.pc t).Plain) (hp : p.Plain) (hholds : p.Holds)
    (htested : ¬ p.Tested) (hleaving : ¬ p.Leaving) : Inv (s.acquire t p) := by
  unfold RequestCountWithStop.acquire
  split
  · rename_i hfree
    have hlock := h.lock
    rw [hfree] at hlock
    exact h.move ht hp (hlock.acquire hholds) (fun hh => absurd hh htested)
      (fun hh => absurd hh hleaving)
  · exact h

theorem Inv.unhold (h : Inv s) {q : Pc τ} (ht : s.pc t = q) (hq : q.Plain) (hp : p.Plain)
    (hheld : q.Holds) (hholds : ¬ p.Holds) (htested : ¬ p.Tested) (hleaving : ¬ p.Leaving) :
    Inv (s.release.goto t p) := by
  subst q
  exact h.move hq hp (h.lock.release hheld hholds) (fun hh => absurd hh htested)
    (fun hh => absurd hh hleaving)

theorem Inv.enter (h : Inv s) (hfits : Fits τ) (ht : s.pc t = .idle ∨ s.pc t = .retry) :
    Inv (s.enter t) := by
  have hreq := h.add_requests hfits (d := 1) (.inl rfl)
  have hnot : ¬ (s.pc t).Active ∧ ¬ (s.pc t).Counted ∧ ¬ (s.pc t).Holds := by
    rcases ht with ht | ht <;> rw [ht] <;> exact ⟨id, by simp [Pc.Counted], id⟩
  have hmain : ∀ p : Pc τ, p.Counted → (p = .inside → s.taken = false) → Inv ((s.add 1).goto t p) := by
    intro p hcounted hin
    have hplace : ¬ p.Active ∧ ¬ p.Holds ∧ ¬ p.Tested ∧ ¬ p.Leaving := by
      rcases hcounted with rfl | rfl <;> exact ⟨id, id, id, id⟩
    refine ⟨?_, ?_, h.lock.stay (iff_of_false hnot.2.2 hplace.2.1),
      tested_update h.tested fun hh => absurd hh hplace.2.2.1⟩
    · change (s.add 1).requests = census Pc.Counted (update s.pc t p) - _
      rw [hreq, census_enter hnot.2.1 hcounted, h.count]
      change _ = _ - LONG_MAX / 2 * (s.taken.toNat : ℤ)
      omega
    · have hphase : Phase (s.add 1) := h.phase.congr rfl rfl rfl
      exact hphase.goto hnot.1 hplace.1 hin fun hh => absurd hh hplace.2.2.2
  unfold RequestCountWithStop.enter
  split
  · exact hmain .backingOut (.inr rfl) nofun
  · rename_i hpos
    apply Inv.setResult (hmain .inside (.inl rfl) ?_)
    intro _
    exact Bool.not_eq_true _ ▸ (h.requests_neg hfits).not.1 hpos

omit [DecidableEq τ] [Fintype τ] in
theorem after_place (entering : Bool) : ¬ (after entering : Pc τ).Active ∧
    ¬ (after entering : Pc τ).Counted ∧ ¬ (after entering : Pc τ).Holds ∧
    ¬ (after entering : Pc τ).Tested ∧ ¬ (after entering : Pc τ).Leaving ∧
    (after entering : Pc τ) ≠ .inside := by
  cases entering <;> exact ⟨id, by simp [after, Pc.Counted], id, id, id, nofun⟩

variable {entering : Bool} {k : Kind} {r : ℤ}

theorem Inv.leave (h : Inv s) (hfits : Fits τ) (ht : (s.pc t).Counted) :
    Inv (s.leave t entering) := by
  have hreq := h.add_requests hfits (d := -1) (.inr (.inl rfl))
  have hnot : ¬ (s.pc t).Active ∧ ¬ (s.pc t).Holds := by
    rcases ht with ht | ht <;> rw [ht] <;> exact ⟨id, id⟩
  obtain ⟨hactive, hcounted, hholds, htested, hleaving, hinside⟩ := after_place (τ := τ) entering
  have hlast : s.requests = -(LONG_MAX / 2) + 1 → s.taken = true ∧ census Pc.Counted s.pc = 1 := by
    intro hlast
    have htaken : s.taken = true := by
      rw [← h.requests_neg hfits, hlast, half_eq]
      omega
    have hcount := h.count
    rw [htaken, hlast, half_eq, Bool.toNat_true] at hcount
    refine ⟨htaken, ?_⟩
    omega
  unfold RequestCountWithStop.leave
  generalize hp : (if s.requests > 0 then after entering
    else if s.requests = -(LONG_MAX / 2) + 1 then Pc.swapping entering else after entering) = p
  have hplace : p = after entering ∨ p = .swapping entering ∧ s.requests = -(LONG_MAX / 2) + 1 := by
    rw [← hp]
    split
    · exact .inl rfl
    · split
      · rename_i hlast
        exact .inr ⟨rfl, hlast⟩
      · exact .inl rfl
  have hcounted' : ¬ p.Counted := by
    rcases hplace with rfl | ⟨rfl, -⟩
    · exact hcounted
    · simp [Pc.Counted]
  have hleave : census Pc.Counted (update s.pc t p) + 1 = census Pc.Counted s.pc :=
    census_leave ht hcounted'
  have hphase : Phase (s.add (-1)) := h.phase.congr rfl rfl rfl
  refine ⟨?_, ?_, ?_, ?_⟩
  · change (s.add (-1)).requests = census Pc.Counted (update s.pc t p) - _
    rw [hreq, h.count, ← hleave]
    change _ = _ - LONG_MAX / 2 * (s.taken.toNat : ℤ)
    omega
  · apply hphase.goto hnot.1
    · rcases hplace with rfl | ⟨rfl, -⟩
      · exact hactive
      · exact id
    · exact fun hin => absurd (.inl hin) hcounted'
    · intro hl
      rcases hplace with rfl | ⟨rfl, hreq⟩
      · exact absurd hl hleaving
      · obtain ⟨htaken, hcensus⟩ := hlast hreq
        refine .inr ⟨htaken, ?_⟩
        -- the thread itself was the only one counted
        intro u hu hin
        have hzero : census Pc.Counted (update s.pc t (.swapping entering)) = 0 := by omega
        apply census_eq_zero.1 hzero u
        rw [update_of_ne hu]
        exact .inl hin
  · apply h.lock.stay
    rcases hplace with rfl | ⟨rfl, -⟩
    · exact iff_of_false hnot.2 hholds
    · exact iff_of_false hnot.2 id
  · apply tested_update h.tested
    rcases hplace with rfl | ⟨rfl, -⟩
    · exact fun hh => absurd hh htested
    · exact fun hh => hh.elim

omit [DecidableEq τ] [Fintype τ] in
theorem Pc.Leaving.plain (h : p.Leaving) : p.Plain ∧ ¬ p.Holds := by
  cases p <;> first
    | exact h.elim
    | exact ⟨plain_of id nofun nofun, id⟩

section

variable (h : Inv s)

include h

theorem Inv.after (ht : (s.pc t).Leaving) :
    Inv (s.goto t (after entering)) := by
  obtain ⟨hactive, hcounted, hholds, htested, hleaving, -⟩ := after_place (τ := τ) entering
  exact h.pass rfl ht.plain.1 ⟨hactive, hcounted⟩ (iff_of_false ht.plain.2 hholds)
    (fun hh => absurd hh htested) fun _ => ht

theorem Inv.swap (ht : s.pc t = .swapping entering) :
    Inv (s.swap t entering) := by
  have hleaving : (s.pc t).Leaving := by
    rw [ht]
    trivial
  unfold RequestCountWithStop.swap
  cases hthread : s.shutdownThread with
  | none => exact h.after hleaving
  | some id =>
    have hphase : Phase { s with shutdownThread := none } := by
      cases h.phase with
      | isOpen hp => exact .isOpen ⟨hp.taken, rfl, hp.idle⟩
      | marked w hp => exact absurd hleaving (hp.settled t)
      | closing w hp => exact .closing w ⟨hp.taken, hp.waits, hp.idle,
          fun _ => hp.drained (.inr (.inr ⟨t, hleaving⟩))⟩
      | stopped w hp => exact .stopped w ⟨hp.taken, rfl, hp.stopped, hp.idle, hp.empty⟩
      | closed hp => exact .closed ⟨hp.taken, rfl, hp.idle, hp.empty⟩
    have hcleared : Inv { s with shutdownThread := none } := ⟨h.count, hphase, h.lock, h.tested⟩
    exact hcleared.pass ht (Pc.plain_of (fun hh => hh) nofun nofun)
      (Pc.plain_of (fun hh => hh) nofun nofun) Iff.rfl elim fun _ => trivial

theorem Inv.rewait (ht : (s.pc t).Waits) (hp : p.Waits)
    (hdrained : p.Drained → ∀ u, s.pc u ≠ .inside) {l : Option τ}
    (hlock : Guards Pc.Holds l (update s.pc t p)) :
    Inv ({ s with lock := l }.goto t p) := by
  have hclosing := h.phase.closing_of ht
  have hnot : ∀ q : Pc τ, q.Waits → ¬ q.Counted ∧ ¬ q.Tested ∧ ¬ q.Leaving ∧ q ≠ .inside := by
    intro q hq
    cases q <;> first
      | exact hq.elim
      | exact ⟨by simp [Pc.Counted], id, id, nofun⟩
  refine ⟨?_, ?_, hlock, tested_update h.tested fun hh => absurd hh (hnot p hp).2.1⟩
  · change s.requests = census Pc.Counted (update s.pc t p) - _
    rw [census_stay (iff_of_false (hnot _ ht).1 (hnot _ hp).1)]
    exact h.count
  · refine .closing t ⟨hclosing.taken, ?_, ?_, ?_⟩
    · change (update s.pc t p t).Waits
      rw [update_self]
      exact hp
    · intro u hu
      change ¬ (update s.pc t p u).Active
      rw [update_of_ne hu]
      exact hclosing.idle u hu
    · intro hd
      apply forall_update (P := fun q : Pc τ => q ≠ .inside) _ (hnot p hp).2.2.2
      rcases hd with hnone | hd | ⟨u, hu⟩
      · exact hclosing.drained (.inl hnone)
      · change (update s.pc t p t).Drained at hd
        rw [update_self] at hd
        exact hdrained hd
      · change (update s.pc t p u).Leaving at hu
        revert hu
        exact update_cases (fun hu => absurd hu (hnot p hp).2.2.1)
          (fun u _ hu => hclosing.drained (.inr (.inr ⟨u, hu⟩))) u

theorem Inv.rewake (ht : s.pc t = .blocked k) : Inv (s.goto t (.wait k)) := by
  have hwaits : (s.pc t).Waits := by
    rw [ht]
    trivial
  apply h.rewait (p := .wait k) hwaits trivial elim
  apply h.lock.stay
  rw [ht]
  rfl

theorem Inv.unblock {id : τ} (ht : s.pc t = .unblocking entering id) :
    Inv (s.unblock t entering id) := by
  have hleaving : (s.pc t).Leaving := by
    rw [ht]
    trivial
  unfold RequestCountWithStop.unblock
  split
  · rename_i k hblocked
    have hne : t ≠ id := by
      rintro rfl
      rw [hblocked] at ht
      cases ht
    apply (h.rewake hblocked).after
    change (update s.pc id (.wait k) t).Leaving
    rw [update_of_ne hne]
    exact hleaving
  · exact (h.setUnblocked _).after hleaving

theorem Inv.testEnter (ht : s.pc t = .testEnter) : Inv (s.testEnter t) := by
  have hmain : ∀ again, Inv (s.goto t (.unlockEnter again)) := fun again =>
    h.pass ht (Pc.plain_of id nofun nofun) (Pc.plain_of id nofun nofun) Iff.rfl elim id
  unfold RequestCountWithStop.testEnter
  split
  · exact (hmain false).setResult _
  · exact hmain true

theorem Inv.unlockEnter {again : Bool} (ht : s.pc t = .unlockEnter again) :
    Inv (s.unlockEnter t again) := by
  have hplain : (Pc.unlockEnter again : Pc τ).Plain := Pc.plain_of id nofun nofun
  unfold RequestCountWithStop.unlockEnter
  cases again with
  | false => exact h.unhold ht hplain (Pc.plain_of id nofun nofun) trivial id id id
  | true => exact h.unhold ht hplain (Pc.plain_of id nofun nofun) trivial id id id

theorem Inv.lock_call (ht : s.pc t = .idle) (k : Kind) : Inv (s.goto t (.lock k)) :=
  h.pass ht (Pc.plain_of id nofun nofun) (Pc.plain_of id nofun nofun) Iff.rfl elim id

theorem Inv.testCount (hfits : Fits τ) (ht : s.pc t = .testCount k) :
    Inv (s.testCount t k) := by
  have hplain : (Pc.testCount k : Pc τ).Plain := Pc.plain_of id nofun nofun
  unfold RequestCountWithStop.testCount
  split
  · exact h.pass ht hplain (Pc.plain_of id nofun nofun) Iff.rfl elim id
  · rename_i hpos
    refine h.pass ht hplain (Pc.plain_of id nofun nofun) Iff.rfl (fun _ => ?_) id
    exact Bool.not_eq_true _ ▸ (h.requests_neg hfits).not.1 hpos

theorem Inv.testThread (ht : s.pc t = .testThread k r) :
    Inv (s.testThread t k r) := by
  have hplain : (Pc.testThread k r : Pc τ).Plain := Pc.plain_of id nofun nofun
  have htaken : s.taken = false := h.tested t (by rw [ht]; trivial)
  unfold RequestCountWithStop.testThread
  split
  · exact h.pass ht hplain (Pc.plain_of id nofun nofun) Iff.rfl elim id
  · exact h.pass ht hplain (Pc.plain_of id nofun nofun) Iff.rfl (fun _ => htaken) id

theorem Inv.unlockLost (ht : s.pc t = .unlockLost k r) :
    Inv (s.unlockLost t k r) := by
  apply Inv.setResult
  exact h.unhold ht (Pc.plain_of id nofun nofun) (Pc.plain_of id nofun nofun) trivial id id id

theorem Inv.store (ht : s.pc t = .store k)
    (hsettled : ∀ u, ¬ (s.pc u).Leaving) : Inv (s.store t k) := by
  have htaken : s.taken = false := h.tested t (by rw [ht]; trivial)
  have hplain : (Pc.store k : Pc τ).Plain := Pc.plain_of id nofun nofun
  have hholds : (s.pc t).Holds := by
    rw [ht]
    trivial
  unfold RequestCountWithStop.store
  split
  · rename_i hnone
    have hidle : ∀ u, ¬ (s.pc u).Active := by
      cases h.phase with
      | isOpen hp => exact hp.idle
      | marked w hp =>
        rw [hp.thread] at hnone
        cases hnone
      | closing w hp =>
        rw [hp.taken] at htaken
        cases htaken
      | stopped w hp =>
        rw [hp.taken] at htaken
        cases htaken
      | closed hp => exact hp.idle
    refine ⟨?_, .marked t ⟨htaken, rfl, ⟨k, update_self ..⟩, ?_, ?_⟩, ?_, ?_⟩
    · change s.requests = census Pc.Counted (update s.pc t (.subtract k)) - _
      rw [census_stay (iff_of_false (by rw [ht]; exact hplain.2) (by simp [Pc.Counted]))]
      exact h.count
    · intro u hu
      change ¬ (update s.pc t (.subtract k) u).Active
      rw [update_of_ne hu]
      exact hidle u
    · exact forall_update (P := fun q : Pc τ => ¬ q.Leaving) hsettled id
    · exact h.lock.stay (iff_of_true hholds trivial)
    · exact tested_update h.tested elim
  · exact h.pass ht hplain (Pc.plain_of id nofun nofun) Iff.rfl elim id

theorem Inv.not_tested (ht : (s.pc t).Holds) (hp : ¬ p.Tested) (u : τ) :
    ¬ (update s.pc t p u).Tested := by
  refine update_cases hp (fun u hut hu => hut (h.lock.eq ?_ ht)) u
  · revert hu
    cases s.pc u <;> first
      | exact elim
      | exact fun _ => trivial

theorem Inv.subtract (hfits : Fits τ) (ht : s.pc t = .subtract k) :
    Inv (s.subtract t k) := by
  have hp := h.phase.marked_of ht
  have hreq := h.add_requests hfits (.inr (.inr (.inl ⟨rfl, hp.taken⟩)))
  have hcount := h.count
  rw [hp.taken, Bool.toNat_false] at hcount
  have hheld : (s.pc t).Holds := by
    rw [ht]
    trivial
  unfold RequestCountWithStop.subtract
  generalize hq : (match k with
    | .stop => if s.requests = 0 then Pc.clear .stop else .wait .stop
    | .shutdown => .unlock s.requests) = q
  have hplace : q.Waits ∧ q.Holds ∧ (q.Drained → s.requests = 0) := by
    rw [← hq]
    cases k with
    | stop =>
      dsimp only
      split
      · rename_i hzero
        exact ⟨trivial, rfl, fun _ => hzero⟩
      · exact ⟨trivial, rfl, elim⟩
    | shutdown => exact ⟨trivial, trivial, fun hzero => hzero⟩
  have hnot : ¬ q.Counted ∧ ¬ q.Tested ∧ ¬ q.Leaving ∧ q ≠ .inside := by
    have hwaits := hplace.1
    cases q <;> first
      | exact hwaits.elim
      | exact ⟨by simp [Pc.Counted], id, id, nofun⟩
  refine ⟨?_, .closing t ⟨rfl, ?_, ?_, ?_⟩, ?_, ?_⟩
  · change (s.add (-(LONG_MAX / 2))).requests =
      census Pc.Counted (update s.pc t q) - LONG_MAX / 2 * ((true.toNat : ℕ) : ℤ)
    rw [hreq, hcount, census_stay (iff_of_false (by rw [ht]; simp [Pc.Counted]) hnot.1),
      Bool.toNat_true, half_eq]
    omega
  · change (update s.pc t q t).Waits
    rw [update_self]
    exact hplace.1
  · intro u hu
    change ¬ (update s.pc t q u).Active
    rw [update_of_ne hu]
    exact hp.idle u hu
  · intro hdrained
    have hzero : s.requests = 0 := by
      rcases hdrained with hnone | hdrained | ⟨u, hu⟩
      · change s.shutdownThread = none at hnone
        rw [hp.thread] at hnone
        cases hnone
      · change (update s.pc t q t).Drained at hdrained
        rw [update_self] at hdrained
        exact hplace.2.2 hdrained
      · exact absurd hu (forall_update (P := fun q : Pc τ => ¬ q.Leaving) hp.settled hnot.2.2.1 u)
    have hcensus : census Pc.Counted s.pc = 0 := by
      rw [hzero] at hcount
      omega
    apply forall_update (P := fun q : Pc τ => q ≠ .inside) _ hnot.2.2.2
    exact fun u hin => census_eq_zero.1 hcensus u (.inl hin)
  · exact h.lock.stay (iff_of_true hheld hplace.2.1)
  · exact fun u hu => absurd hu (h.not_tested hheld hnot.2.1 u)

theorem Inv.unlock (ht : s.pc t = .unlock r) : Inv (s.unlock t r) := by
  have hwaits : (s.pc t).Waits := by
    rw [ht]
    trivial
  have hheld : (s.pc t).Holds := by
    rw [ht]
    trivial
  unfold RequestCountWithStop.unlock
  split
  · rename_i hzero
    refine h.rewait (p := .clear .shutdown) hwaits trivial (fun _ => ?_) (h.lock.release hheld nofun)
    apply (h.phase.closing_of hwaits).drained
    right
    left
    rw [ht]
    exact hzero
  · exact h.rewait (p := .wait .shutdown) hwaits trivial elim (h.lock.release hheld nofun)

theorem Inv.win (ht : (s.pc t).Waits) (hholds : (s.pc t).Holds ↔ k = .stop)
    (hempty : ∀ u, s.pc u ≠ .inside) : Inv ({ s with shutdownThread := none }.ret t k.won 0) := by
  have hclosing := h.phase.closing_of ht
  have hnot : ¬ (s.pc t).Counted := by
    revert ht
    cases s.pc t <;> first
      | exact elim
      | exact fun _ => by simp [Pc.Counted]
  have hwon : ¬ (k.won : Pc τ).Counted ∧ (k.won : Pc τ) ≠ .inside ∧ ¬ (k.won : Pc τ).Tested := by
    cases k <;> exact ⟨by simp [Kind.won, Pc.Counted], nofun, id⟩
  have hempty' : ∀ u, update s.pc t k.won u ≠ .inside :=
    forall_update (P := fun q : Pc τ => q ≠ .inside) hempty hwon.2.1
  have hidle : ∀ u, u ≠ t → ¬ (update s.pc t k.won u).Active := by
    intro u hu
    rw [update_of_ne hu]
    exact hclosing.idle u hu
  apply Inv.setResult
  refine ⟨?_, ?_, h.lock.stay (hholds.trans ?_), tested_update h.tested fun hh => absurd hh hwon.2.2⟩
  · change s.requests = census Pc.Counted (update s.pc t k.won) - _
    rw [census_stay (iff_of_false hnot hwon.1)]
    exact h.count
  · cases k with
    | stop => exact .stopped t ⟨hclosing.taken, rfl, update_self .., hidle, hempty'⟩
    | shutdown =>
      refine .closed ⟨hclosing.taken, rfl, ?_, hempty'⟩
      intro u
      by_cases hut : u = t
      · subst u
        change ¬ (update s.pc t .idle t).Active
        rw [update_self]
        exact id
      · exact hidle u hut
  · cases k with
    | stop => exact iff_of_true rfl trivial
    | shutdown => exact iff_of_false nofun id

theorem Inv.clear (ht : s.pc t = .clear k) : Inv (s.clear t k) := by
  have hwaits : (s.pc t).Waits := by
    rw [ht]
    trivial
  apply h.win hwaits
  · rw [ht]
    exact Iff.rfl
  · apply (h.phase.closing_of hwaits).drained
    right
    left
    rw [ht]
    trivial

theorem Inv.wait (ht : s.pc t = .wait k) : Inv (s.wait t k) := by
  have hwaits : (s.pc t).Waits := by
    rw [ht]
    trivial
  unfold RequestCountWithStop.wait
  split
  · apply h.rewait (p := .blocking k) hwaits trivial elim
    apply h.lock.stay
    rw [ht]
    rfl
  · rename_i hnone
    rw [not_not] at hnone
    have hsame : s = { s with shutdownThread := none } := by
      rw [← hnone]
    have hwin := h.win (k := k) hwaits (by rw [ht]; exact Iff.rfl)
      ((h.phase.closing_of hwaits).drained (.inl hnone))
    rw [← hsame] at hwin
    exact hwin

theorem Inv.block (ht : s.pc t = .blocking k) : Inv (s.block t k) := by
  have hwaits : (s.pc t).Waits := by
    rw [ht]
    trivial
  have hlock : ∀ p : Pc τ, (p.Holds ↔ k = .stop) → Guards Pc.Holds s.lock (update s.pc t p) := by
    intro p hp
    apply h.lock.stay
    rw [ht]
    exact hp.symm
  unfold RequestCountWithStop.block
  split
  · have hflag := h.setUnblocked (update s.wasUnblocked t false)
    exact hflag.rewait (p := .wait k) hwaits trivial elim (hlock _ Iff.rfl)
  · exact h.rewait (p := .blocked k) hwaits trivial elim (hlock _ Iff.rfl)

theorem Inv.restart (hfits : Fits τ) (ht : s.pc t = .stopped) : Inv (s.restart t) := by
  have hp := h.phase.stopped_of ht
  have hreq := h.add_requests hfits (.inr (.inr (.inr ⟨rfl, hp.taken⟩)))
  have hcount := h.count
  rw [hp.taken, Bool.toNat_true] at hcount
  have hheld : (s.pc t).Holds := by
    rw [ht]
    trivial
  refine ⟨?_, .isOpen ⟨rfl, hp.thread, ?_⟩, h.lock.stay (iff_of_true hheld trivial), ?_⟩
  · change (s.add (LONG_MAX / 2)).requests =
      census Pc.Counted (update s.pc t .unlockRestart) - LONG_MAX / 2 * ((false.toNat : ℕ) : ℤ)
    rw [hreq, hcount, census_stay (iff_of_false (by rw [ht]; simp [Pc.Counted]) (by simp [Pc.Counted])),
      Bool.toNat_false, half_eq]
    omega
  · intro u
    change ¬ (update s.pc t .unlockRestart u).Active
    exact update_cases id hp.idle u
  · exact fun _ _ => rfl

theorem Inv.advance (hfits : Fits τ) (hsettles : s.settles (.advance t)) :
    Inv (s.advance t) := by
  have hplain : ∀ {q : Pc τ}, s.pc t = q → q.Plain → (s.pc t).Plain := by
    rintro q rfl hq
    exact hq
  unfold RequestCountWithStop.advance
  cases ht : s.pc t with
  | idle => exact h
  | inside => exact h
  | retry => exact h.enter hfits (.inr ht)
  | backingOut => exact h.leave hfits (.inr ht)
  | swapping entering => exact h.swap ht
  | unblocking entering id => exact h.unblock ht
  | lockEnter =>
    exact h.acquire (hplain ht (Pc.plain_of id nofun nofun)) (Pc.plain_of id nofun nofun) trivial
      id id
  | testEnter => exact h.testEnter ht
  | unlockEnter again => exact h.unlockEnter ht
  | lock k =>
    exact h.acquire (hplain ht (Pc.plain_of id nofun nofun)) (Pc.plain_of id nofun nofun) trivial
      id id
  | testCount k => exact h.testCount hfits ht
  | testThread k r => exact h.testThread ht
  | store k => exact h.store ht (hsettles (by rw [ht]; trivial))
  | unlockLost k r => exact h.unlockLost ht
  | subtract k => exact h.subtract hfits ht
  | unlock r => exact h.unlock ht
  | clear k => exact h.clear ht
  | wait k => exact h.wait ht
  | blocking k => exact h.block ht
  | blocked k => exact h
  | stopped => exact h
  | unlockRestart =>
    exact h.unhold ht (Pc.plain_of id nofun nofun) (Pc.plain_of id nofun nofun) trivial id id id

theorem Inv.step (hfits : Fits τ) {a : Action τ} (hadm : s.adm a)
    (hsettles : s.settles a) : Inv (s.step a) := by
  cases a with
  | enter t => exact h.enter hfits (.inl hadm)
  | leave t => exact h.leave hfits (.inl hadm)
  | stop t => exact h.lock_call hadm .stop
  | shutdown t => exact h.lock_call hadm .shutdown
  | restart t => exact h.restart hfits hadm
  | wakeup t =>
    change Inv (s.wakeup t)
    unfold RequestCountWithStop.wakeup
    split
    · rename_i k ht
      exact h.rewake ht
    · exact h
  | advance t => exact h.advance hfits hsettles

end

/-! ## After a shutdown -/

omit [Fintype τ] [DecidableEq τ] in
theorem Phase.closed_of {s : RequestCountWithStop τ} (h : Phase s) (htaken : s.taken = true)
    (hidle : ∀ t, ¬ (s.pc t).Active) : Closed s := by
  cases h with
  | isOpen h =>
    rw [h.taken] at htaken
    cases htaken
  | marked w h =>
    obtain ⟨k, hk⟩ := h.subtract
    exact absurd (by rw [hk]; trivial) (hidle w)
  | closing w h => exact absurd h.waits.active (hidle w)
  | stopped w h => exact absurd (by rw [h.stopped]; trivial) (hidle w)
  | closed h => exact h

omit [Fintype τ] in
theorem idle_advance (hidle : ∀ t, ¬ (s.pc t).Active) (htested : ∀ t, ¬ (s.pc t).Tested) (t : τ) :
    (s.advance t).taken = s.taken ∧ ∀ u, ¬ ((s.advance t).pc u).Active := by
  have hmove : ∀ {p : Pc τ}, ¬ p.Active → ∀ u, ¬ (update s.pc t p u).Active :=
    fun hp => forall_update (P := fun q : Pc τ => ¬ q.Active) hidle hp
  have hafter : ∀ entering, ¬ (after entering : Pc τ).Active :=
    fun entering => (after_place entering).1
  have hactive := hidle t
  have hnot := htested t
  unfold advance
  cases ht : s.pc t with
  | idle => exact ⟨rfl, hidle⟩
  | inside => exact ⟨rfl, hidle⟩
  | retry =>
    dsimp only [enter]
    split
    · exact ⟨rfl, hmove id⟩
    · exact ⟨rfl, hmove id⟩
  | backingOut =>
    refine ⟨rfl, hmove ?_⟩
    split_ifs
    · exact id
    · exact id
    · exact id
  | swapping entering =>
    dsimp only [swap]
    cases s.shutdownThread with
    | none => exact ⟨rfl, hmove (hafter entering)⟩
    | some id => exact ⟨rfl, hmove (fun hh => hh)⟩
  | unblocking entering id =>
    dsimp only [unblock]
    cases hid : s.pc id with
    | blocked k => exact absurd (by rw [hid]; trivial) (hidle id)
    | _ => exact ⟨rfl, hmove (hafter entering)⟩
  | lockEnter =>
    dsimp only [acquire]
    split
    · exact ⟨rfl, hmove id⟩
    · exact ⟨rfl, hidle⟩
  | testEnter =>
    dsimp only [testEnter]
    split
    · exact ⟨rfl, hmove id⟩
    · exact ⟨rfl, hmove id⟩
  | unlockEnter again =>
    refine ⟨rfl, hmove ?_⟩
    cases again
    · exact id
    · exact id
  | lock k =>
    dsimp only [acquire]
    split
    · exact ⟨rfl, hmove id⟩
    · exact ⟨rfl, hidle⟩
  | testCount k =>
    dsimp only [testCount]
    split
    · exact ⟨rfl, hmove id⟩
    · exact ⟨rfl, hmove id⟩
  | unlockLost k r => exact ⟨rfl, hmove id⟩
  | unlockRestart => exact ⟨rfl, hmove id⟩
  | testThread k r => exact absurd (by rw [ht]; trivial) hnot
  | store k => exact absurd (by rw [ht]; trivial) hnot
  | _ => exact absurd (by rw [ht]; trivial) hactive

theorem Inv.closed_step (h : Inv s) (hclosed : Closed s) (hfits : Fits τ) {a : Action τ}
    (hadm : s.adm a) (hsettles : s.settles a) : Closed (s.step a) := by
  have hphase := (h.step hfits hadm hsettles).phase
  have htested : ∀ t, ¬ (s.pc t).Tested := by
    intro t ht
    have hup := h.tested t ht
    rw [hclosed.taken] at hup
    cases hup
  have hmove : ∀ {t} {p : Pc τ}, ¬ p.Active → ∀ u, ¬ (update s.pc t p u).Active :=
    fun hp => forall_update (P := fun q : Pc τ => ¬ q.Active) hclosed.idle hp
  cases a with
  | enter t =>
    have henter : (s.enter t).taken = s.taken ∧ ∀ u, ¬ ((s.enter t).pc u).Active := by
      unfold RequestCountWithStop.enter
      split
      · exact ⟨rfl, hmove id⟩
      · exact ⟨rfl, hmove id⟩
    exact hphase.closed_of (henter.1.trans hclosed.taken) henter.2
  | leave t =>
    refine hphase.closed_of hclosed.taken (hmove ?_)
    split_ifs
    · exact id
    · exact id
    · exact id
  | stop t => exact hphase.closed_of hclosed.taken (hmove id)
  | shutdown t => exact hphase.closed_of hclosed.taken (hmove id)
  | restart t =>
    have hstopped : s.pc t = .stopped := hadm
    exact absurd (by rw [hstopped]; trivial) (hclosed.idle t)
  | wakeup t =>
    have hsame : s.wakeup t = s := by
      unfold wakeup
      cases ht : s.pc t with
      | blocked k => exact absurd (by rw [ht]; trivial) (hclosed.idle t)
      | _ => rfl
    change Closed (s.wakeup t)
    rw [hsame]
    exact hclosed
  | advance t =>
    obtain ⟨htaken, hidle⟩ := idle_advance hclosed.idle htested t
    exact hphase.closed_of (htaken.trans hclosed.taken) hidle

theorem inv_init : Inv (init : RequestCountWithStop τ) where
  count := by
    have hzero : census Pc.Counted (init : RequestCountWithStop τ).pc = 0 := by
      rw [census_eq_zero]
      simp [init, Pc.Counted]
    change (0 : ℤ) = census Pc.Counted (init : RequestCountWithStop τ).pc -
      LONG_MAX / 2 * ((false.toNat : ℕ) : ℤ)
    rw [hzero, half_eq, Bool.toNat_false]
    omega
  phase := .isOpen ⟨rfl, rfl, fun _ => id⟩
  lock := fun _ => iff_of_false id nofun
  tested := fun _ => elim

end Steps

/-! ## Runs -/

/-- Asleep in the `Block` of a stop or a shutdown. -/
def Pc.Asleep : Pc τ → Prop
  | .blocked _ => True
  | _ => False

omit [DecidableEq τ] in
theorem Pc.Asleep.waits {p : Pc τ} (h : p.Asleep) : p.Waits := by
  cases p <;> first
    | exact h.elim
    | trivial

/-- The stop protocol: in every interleaving in which a call marks itself only after the
leavers of the earlier stops have finished, no request is in flight between the return of a
stop and its restart, a thread asleep in a stop or a shutdown is woken only when no request
is in flight, and it finds `shutdownThread` cleared only then. -/
theorem run_stops [Fintype τ] (hfits : Fits τ) {actions : List (Action τ)}
    {s : RequestCountWithStop τ} (h : settling.Run init actions s) :
    (∀ t, s.pc t = .stopped → s.shutdownThread = none ∧ ∀ u, s.pc u ≠ .inside) ∧
      (∀ t entering id, s.pc t = .unblocking entering id → (s.pc id).Asleep →
        ∀ u, s.pc u ≠ .inside) ∧
      (∀ t, (s.pc t).Waits → s.shutdownThread = none → ∀ u, s.pc u ≠ .inside) := by
  have hinv : Inv s := by
    refine h.invariant inv_init ?_
    rintro s a hs ⟨hadm, hsettles⟩
    exact hs.step hfits hadm hsettles
  refine ⟨?_, ?_, ?_⟩
  · intro t ht
    have hstopped := hinv.phase.stopped_of ht
    exact ⟨hstopped.thread, hstopped.empty⟩
  · intro t entering id ht hid
    apply (hinv.phase.closing_of hid.waits).drained
    refine .inr (.inr ⟨t, ?_⟩)
    rw [ht]
    trivial
  · intro t ht hnone
    exact (hinv.phase.closing_of ht).drained (.inl hnone)

instance (s : RequestCountWithStop τ) : (a : Action τ) → Decidable (s.adm a)
  | .enter _ | .leave _ | .stop _ | .shutdown _ | .restart _ => inferInstanceAs (Decidable (_ = _))
  | .wakeup _ | .advance _ => isTrue trivial

instance (p : Pc τ) : Decidable p.Leaving := by
  cases p <;> first
    | exact isTrue trivial
    | exact isFalse id

instance (p : Pc τ) : Decidable p.Marking := by
  cases p <;> first
    | exact isTrue trivial
    | exact isFalse id

instance [Fintype τ] (s : RequestCountWithStop τ) : (a : Action τ) → Decidable (s.settles a)
  | .advance _ => inferInstanceAs (Decidable (_ → _))
  | .enter _ | .leave _ | .stop _ | .shutdown _ | .restart _ | .wakeup _ => isTrue trivial

instance (s : RequestCountWithStop τ) (a : Action τ) : Decidable (interleavings.adm s a) :=
  inferInstanceAs (Decidable (s.adm a))

instance [Fintype τ] (s : RequestCountWithStop τ) (a : Action τ) : Decidable (settling.adm s a) :=
  inferInstanceAs (Decidable (s.adm a ∧ s.settles a))

open scoped SmallFin

/-- Thread 1 stops while thread 0 is inside, is woken by its leave, restarts, and stops
again with no request inside. -/
def stopsTwice : List (Action (Fin 2)) :=
  [.enter 0, .stop 1, .advance 1, .advance 1, .advance 1, .advance 1, .advance 1, .advance 1,
    .advance 1, .leave 0, .advance 0, .advance 0, .advance 1, .restart 1, .advance 1,
    .stop 1, .advance 1, .advance 1, .advance 1, .advance 1, .advance 1, .advance 1]

theorem run_stops_stopsTwice :
    let s := stopsTwice.foldl settling.step init
    settling.Run init stopsTwice s ∧ s.pc 1 = .stopped ∧ ∀ t, s.pc t ≠ .inside := by
  intro s
  have hadmits : settling.Admits init stopsTwice := by decide +kernel
  have hstopped : s.pc 1 = .stopped := by decide +kernel
  have hfits : Fits (Fin 2) := by
    rw [Fits, Fintype.card_fin]
    decide
  exact ⟨hadmits.run, hstopped, ((run_stops hfits hadmits.run).1 1 hstopped).2⟩

/-- Thread 1 backs out during the first stop of thread 0, which finds no request. It swaps
`shutdownThread` only when thread 0 sleeps in its second stop, with thread 2 inside. -/
def lateSwap : List (Action (Fin 3)) :=
  [.stop 0, .advance 0, .advance 0, .advance 0, .advance 0, .advance 0, .advance 0,
    .enter 1, .advance 1, .restart 0, .advance 0, .enter 2,
    .stop 0, .advance 0, .advance 0, .advance 0, .advance 0, .advance 0, .advance 0, .advance 0,
    .advance 1]

/-- Thread 1 goes on: it wakes thread 0, whose stop returns. -/
def lateUnblock : List (Action (Fin 3)) := lateSwap ++ [.advance 1, .advance 0]

/-- The second stop is woken, and returns zero, with a request in flight. -/
theorem stopped_with_request : (let s := lateSwap.foldl interleavings.step init
    interleavings.Run init lateSwap s ∧ s.pc 1 = .unblocking true 0 ∧ s.pc 0 = .blocked .stop ∧
      s.pc 2 = .inside) ∧
      (let s := lateUnblock.foldl interleavings.step init
      interleavings.Run init lateUnblock s ∧ s.pc 0 = .stopped ∧
        s.result 0 = 0 ∧ s.pc 2 = .inside ∧ s.result 2 = 0) := by
  have hlate : interleavings.Admits init lateSwap := by decide +kernel
  have hstops : interleavings.Admits init lateUnblock := by decide +kernel
  exact ⟨⟨hlate.run, by decide +kernel, by decide +kernel, by decide +kernel⟩,
    ⟨hstops.run, by decide +kernel, by decide +kernel, by decide +kernel, by decide +kernel⟩⟩

end RequestCountWithStop

end K42.Sync
