import K42.Lib.Linked
import K42.Lib.Run
import K42.Lib.Update

/-!
# The unfair blocking lock

`BaseUnFairBLock` is one word: zero when the lock is free, otherwise a low bit and the head
of a chain of waiting threads, whose elements are on their stacks. A thread that finds the
lock held pushes its element and blocks; the release takes the whole chain with a swap and
unblocks every thread on it, and these contend for the lock again.

Every step is one load, store, compare-and-store, swap, or one call of `Block` or `Unblock`.
-/

open Function (update update_cases update_eq_self update_of_ne update_self)

namespace K42

/-- The word `bits`: zero, or the lock bit and the head of the chain. -/
inductive BaseUnFairBLock.Bits (τ : Type)
  | free
  | locked (head : Option τ)
deriving DecidableEq

/-- Where a thread is. The element of a thread is named by the thread. -/
inductive BaseUnFairBLock.Pc (τ : Type)
  | idle
  | load
  | storeFree               -- the word was zero
  | setNext (curhead : Option τ)
  | setWaiter (curhead : Option τ)
  | push (curhead : Option τ)
  | blocking
  | blocked
  | holding
  | swap
  | walk (w : τ)
  | loadWaiter (w : τ) (next : Option τ)
  | unblock (id next : Option τ)
deriving DecidableEq

/-- The word, the elements and the threads, and the history that the chain is compared to:
`queue` is what has been pushed since the last swap, `taken t` is what the last swap of `t`
has taken, `woken t` what that release has unblocked so far, `left t` what it has not, and
`walked t` its steps since the swap. -/
structure BaseUnFairBLock (τ : Type) where
  bits : BaseUnFairBLock.Bits τ
  next : τ → Option τ
  waiter : τ → Option τ
  pc : τ → BaseUnFairBLock.Pc τ
  wasUnblocked : τ → Bool
  queue : List τ
  taken : τ → List τ
  woken : τ → List τ
  left : τ → List τ
  walked : τ → ℕ

namespace BaseUnFairBLock

open Linked

variable {τ : Type} [DecidableEq τ]

def Bits.head : Bits τ → Option τ
  | .free => none
  | .locked head => head

def init : BaseUnFairBLock τ where
  bits := .free
  next := fun _ => none
  waiter := fun _ => none
  pc := fun _ => .idle
  wasUnblocked := fun _ => false
  queue := []
  taken := fun _ => []
  woken := fun _ => []
  left := fun _ => []
  walked := fun _ => 0

def goto (s : BaseUnFairBLock τ) (t : τ) (p : Pc τ) : BaseUnFairBLock τ :=
  { s with pc := update s.pc t p }

/-- `CompareAndStoreSynced(&bits, 0, 1)`, and where to go when it fails. -/
def storeLocked (s : BaseUnFairBLock τ) (t : τ) (fails : Pc τ) : BaseUnFairBLock τ :=
  if s.bits = .free then { s with bits := .locked none }.goto t .holding else s.goto t fails

def load (s : BaseUnFairBLock τ) (t : τ) : BaseUnFairBLock τ :=
  match s.bits with
  | .free => s.goto t .storeFree
  | .locked head => s.goto t (.setNext head)

def setNext (s : BaseUnFairBLock τ) (t : τ) (curhead : Option τ) : BaseUnFairBLock τ :=
  { s with next := update s.next t curhead }.goto t (.setWaiter curhead)

def setWaiter (s : BaseUnFairBLock τ) (t : τ) (curhead : Option τ) : BaseUnFairBLock τ :=
  { s with waiter := update s.waiter t (some t) }.goto t (.push curhead)

/-- `CompareAndStoreSynced(&bits, curhead, newval)`. -/
def push (s : BaseUnFairBLock τ) (t : τ) (curhead : Option τ) : BaseUnFairBLock τ :=
  if s.bits = .locked curhead then
    { s with bits := .locked (some t), queue := t :: s.queue }.goto t .blocking
  else s.goto t .load

/-- `Scheduler::Block`. -/
def block (s : BaseUnFairBLock τ) (t : τ) : BaseUnFairBLock τ :=
  if s.wasUnblocked t then
    { s with wasUnblocked := update s.wasUnblocked t false }.goto t .load
  else s.goto t .blocked

/-- The fast path of `release`: `CompareAndStoreSynced(&bits, 1, 0)`. -/
def release (s : BaseUnFairBLock τ) (t : τ) : BaseUnFairBLock τ :=
  if s.bits = .locked none then { s with bits := .free }.goto t .idle else s.goto t .swap

/-- The loop of `_release` at the element `next`. -/
def walkOn (next : Option τ) : Pc τ :=
  match next with
  | none => .idle
  | some w => .walk w

def swap (s : BaseUnFairBLock τ) (t : τ) : BaseUnFairBLock τ :=
  { s with
    bits := .free
    queue := []
    taken := update s.taken t s.queue
    woken := update s.woken t []
    left := update s.left t s.queue
    walked := update s.walked t 0 }.goto t (walkOn s.bits.head)

/-- The walk has made a step. -/
def walkStep (s : BaseUnFairBLock τ) (t : τ) (p : Pc τ) : BaseUnFairBLock τ :=
  { s with walked := update s.walked t (s.walked t + 1) }.goto t p

/-- `Scheduler::Unblock`: a thread that is not blocked will not block the next time. -/
def wake (s : BaseUnFairBLock τ) : Option τ → BaseUnFairBLock τ
  | none => s
  | some id =>
    if s.pc id = .blocked then s.goto id .load
    else { s with wasUnblocked := update s.wasUnblocked id true }

def unblock (s : BaseUnFairBLock τ) (t : τ) (id next : Option τ) : BaseUnFairBLock τ :=
  { s.wake id with
    woken := update s.woken t (s.woken t ++ id.toList)
    left := update s.left t (s.left t).tail }.walkStep t (walkOn next)

/-- The next step of a thread that is in the middle of a call. -/
def advance (s : BaseUnFairBLock τ) (t : τ) : BaseUnFairBLock τ :=
  match s.pc t with
  | .idle => s
  | .load => s.load t
  | .storeFree => s.storeLocked t .load
  | .setNext curhead => s.setNext t curhead
  | .setWaiter curhead => s.setWaiter t curhead
  | .push curhead => s.push t curhead
  | .blocking => s.block t
  | .blocked => s
  | .holding => s
  | .swap => s.swap t
  | .walk w => s.walkStep t (.loadWaiter w (s.next w))
  | .loadWaiter w next => s.walkStep t (.unblock (s.waiter w) next)
  | .unblock id next => s.unblock t id next

/-! ## Interleavings -/

inductive Action (τ : Type)
  | acquire (t : τ)
  | tryAcquire (t : τ)
  | release (t : τ)
  | advance (t : τ)
  | wakeup (t : τ)          -- `Block` returns without an `Unblock`

/-- `Block` returns. -/
def wakeup (s : BaseUnFairBLock τ) (t : τ) : BaseUnFairBLock τ :=
  if s.pc t = .blocking ∨ s.pc t = .blocked then s.goto t .load else s

def step (s : BaseUnFairBLock τ) : Action τ → BaseUnFairBLock τ
  | .acquire t => s.storeLocked t .load
  | .tryAcquire t => s.storeLocked t .idle
  | .release t => s.release t
  | .advance t => s.advance t
  | .wakeup t => s.wakeup t

/-- A thread makes one call at a time, and releases what it holds. -/
def adm (s : BaseUnFairBLock τ) : Action τ → Prop
  | .acquire t => s.pc t = .idle
  | .tryAcquire t => s.pc t = .idle
  | .release t => s.pc t = .holding
  | .advance _ => True
  | .wakeup _ => True

def interleavings : Machine (BaseUnFairBLock τ) (Action τ) := ⟨step, adm⟩

/-- `Block` returns only after an `Unblock`. -/
def matched : Action τ → Prop
  | .wakeup _ => False
  | _ => True

def matching : Machine (BaseUnFairBLock τ) (Action τ) := ⟨step, fun s a => s.adm a ∧ matched a⟩

/-! ## The chains -/

section Chains

variable {bits : Bits τ} {next waiter : τ → Option τ} {pc : τ → Pc τ} {flags : τ → Bool}
  {queue : List τ} {taken woken left : τ → List τ} {walked : τ → ℕ} {t u : τ} {p : Pc τ}
  {head v : Option τ}

/-- Pushed, and not back from `Block`. -/
def Pc.Waits (p : Pc τ) : Prop := p = .blocking ∨ p = .blocked

/-- In a release that has swapped. -/
def Pc.Walks : Pc τ → Prop
  | .walk _ => True
  | .loadWaiter _ _ => True
  | .unblock _ _ => True
  | _ => False

def Pc.Holds (p : Pc τ) : Prop := p = .holding ∨ p = .swap

/-- What a release has still to go through, `l`, is what its locals and the elements lead to. -/
def Leads (next : τ → Option τ) (l : List τ) : Pc τ → Prop
  | .walk w => Path next (some w) l
  | .loadWaiter w n => ∃ m, l = w :: m ∧ Path next n m
  | .unblock id n => ∃ w m, l = w :: m ∧ id = some w ∧ Path next n m
  | _ => l = []

/-- The element of a thread that is about to push it. -/
def Filled (t : τ) (next waiter : Option τ) : Pc τ → Prop
  | .setWaiter curhead => next = curhead
  | .push curhead => next = curhead ∧ waiter = some t
  | _ => True

/-- The steps a release has still to make. -/
def toGo (n : ℕ) : Pc τ → ℕ
  | .walk _ => 3 * n
  | .loadWaiter _ _ => 3 * n - 1
  | .unblock _ _ => 3 * n - 2
  | _ => 0

/-- On the chain of the word, or on one that a release has taken. -/
def Chained (queue : List τ) (left : τ → List τ) (t : τ) : Prop := t ∈ queue ∨ ∃ r, t ∈ left r

/-- One thread holds the lock, and none when the word is zero. -/
structure Owned (bits : Bits τ) (pc : τ → Pc τ) : Prop where
  alone : ∀ t u, (pc t).Holds → (pc u).Holds → t = u
  unheld : bits = .free → ∀ t, ¬ (pc t).Holds

/-- Every release goes through what it has taken. -/
structure Walking (next : τ → Option τ) (left taken woken : τ → List τ) (walked : τ → ℕ)
    (pc : τ → Pc τ) : Prop where
  leads : ∀ r, Leads next (left r) (pc r)
  nodup : ∀ r, (left r).Nodup
  count : ∀ r, taken r = woken r ++ left r
  steps : ∀ r, walked r + toGo (left r).length (pc r) = 3 * (taken r).length

/-- The threads that wait for an unblock are those on the chains, each on one of them. -/
structure Waiting (next : τ → Option τ) (head : Option τ) (queue : List τ) (left : τ → List τ)
    (waiter : τ → Option τ) (flags : τ → Bool) (pc : τ → Pc τ) : Prop where
  chain : Path next head queue
  apart : ∀ t r, t ∈ queue → t ∉ left r
  one : ∀ t r r', t ∈ left r → t ∈ left r' → r = r'
  waits : ∀ t, Chained queue left t → (pc t).Waits ∧ flags t = false ∧ waiter t = some t
  chained : ∀ t, (pc t).Waits → flags t = false → Chained queue left t
  flagged : ∀ t, flags t = true → pc t = .blocking

/-! ### The holder -/

theorem Owned.goto (h : Owned bits pc) (hp : p.Holds → (pc t).Holds) :
    Owned bits (update pc t p) := by
  have hback : ∀ u, (update pc t p u).Holds → (pc u).Holds := by
    exact update_cases hp (fun _ _ => id)
  exact ⟨fun u v hu hv => h.alone u v (hback u hu) (hback v hv),
    fun hfree u hu => h.unheld hfree u (hback u hu)⟩

theorem Owned.take (h : Owned .free pc) : Owned (.locked v) (update pc t p) := by
  refine ⟨?_, nofun⟩
  have hback : ∀ u, (update pc t p u).Holds → u = t := by
    intro u hu
    by_contra hut
    rw [update_of_ne hut] at hu
    exact h.unheld rfl u hu
  intro u v hu hv
  rw [hback u hu, hback v hv]

omit [DecidableEq τ] in
theorem Owned.relock (h : Owned (.locked head) pc) : Owned (.locked v) pc := ⟨h.alone, nofun⟩

theorem Owned.leave (h : Owned bits pc) (ht : (pc t).Holds) (hp : ¬ p.Holds) :
    Owned .free (update pc t p) := by
  have hnone : ∀ u, ¬ (update pc t p u).Holds := by
    exact update_cases hp (fun u hut hu => hut (h.alone u t hu ht))
  exact ⟨fun u _ hu => absurd hu (hnone u), fun _ => hnone⟩

/-! ### The releases -/

section

omit [DecidableEq τ]

theorem leads_congr {next' : τ → Option τ} {l : List τ} (hl : Leads next l p)
    (hnext : ∀ u ∈ l, next' u = next u) : Leads next' l p := by
  revert hl
  cases p with
  | walk w => exact fun hl => hl.congr hnext
  | loadWaiter w n =>
    rintro ⟨m, rfl, hm⟩
    exact ⟨m, rfl, hm.congr fun u hu => hnext u (List.mem_cons_of_mem _ hu)⟩
  | unblock id n =>
    rintro ⟨w, m, rfl, rfl, hm⟩
    exact ⟨w, m, rfl, rfl, hm.congr fun u hu => hnext u (List.mem_cons_of_mem _ hu)⟩
  | idle => exact id
  | load => exact id
  | storeFree => exact id
  | setNext curhead => exact id
  | setWaiter curhead => exact id
  | push curhead => exact id
  | blocking => exact id
  | blocked => exact id
  | holding => exact id
  | swap => exact id

theorem leads_of_not_walks (hp : ¬ p.Walks) {l : List τ} : Leads next l p ↔ l = [] := by
  revert hp
  cases p <;> first
    | exact fun hp => absurd trivial hp
    | exact fun _ => Iff.rfl

theorem toGo_of_not_walks (hp : ¬ p.Walks) {n : ℕ} : toGo n p = 0 := by
  revert hp
  cases p <;> first
    | exact fun hp => absurd trivial hp
    | exact fun _ => rfl

end

theorem Walking.goto (h : Walking next left taken woken walked pc) (ht : ¬ (pc t).Walks)
    (hp : ¬ p.Walks) : Walking next left taken woken walked (update pc t p) := by
  refine ⟨update_cases ?_ (fun r _ => h.leads r), h.nodup, h.count,
    update_cases ?_ (fun r _ => h.steps r)⟩
  · rw [leads_of_not_walks hp, ← leads_of_not_walks ht]
    exact h.leads t
  · have hsteps := h.steps t
    rw [toGo_of_not_walks ht] at hsteps
    rwa [toGo_of_not_walks hp]

/-- A release takes a chain, or makes a step on the one that it has taken. -/
theorem Walking.move (h : Walking next left taken woken walked pc) {l k m : List τ} {n : ℕ}
    (hleads : Leads next l p) (hnodup : l.Nodup) (hcount : k = m ++ l)
    (hsteps : n + toGo l.length p = 3 * k.length) :
    Walking next (update left t l) (update taken t k) (update woken t m) (update walked t n)
      (update pc t p) := by
  have hall : ∀ r, Leads next (update left t l r) (update pc t p r) ∧
      (update left t l r).Nodup ∧ update taken t k r = update woken t m r ++ update left t l r ∧
      update walked t n r + toGo (update left t l r).length (update pc t p r) =
        3 * (update taken t k r).length := by
    intro r
    by_cases hrt : r = t
    · subst r
      simp only [update_self]
      exact ⟨hleads, hnodup, hcount, hsteps⟩
    · simp only [update_of_ne hrt]
      exact ⟨h.leads r, h.nodup r, h.count r, h.steps r⟩
  exact ⟨fun r => (hall r).1, fun r => (hall r).2.1, fun r => (hall r).2.2.1,
    fun r => (hall r).2.2.2⟩

theorem Walking.setNext (h : Walking next left taken woken walked pc) (ht : ∀ r, t ∉ left r) :
    Walking (update next t v) left taken woken walked pc := by
  refine ⟨fun r => ?_, h.nodup, h.count, h.steps⟩
  apply leads_congr (h.leads r)
  intro u hu
  apply update_of_ne
  rintro rfl
  exact ht r hu

/-! ### The waiting threads -/

section

variable (h : Waiting next head queue left waiter flags pc)

include h

section

omit [DecidableEq τ]

theorem Waiting.not_chained (ht : ¬ (pc t).Waits) :
    ¬ Chained queue left t := fun hc => ht (h.waits t hc).1

theorem Waiting.not_flagged (ht : ¬ (pc t).Waits) :
    flags t = false := by
  by_contra hset
  exact ht (.inl (h.flagged t (Bool.not_eq_false _ ▸ hset)))

end

theorem Waiting.goto (ht : ¬ (pc t).Waits)
    (hp : ¬ p.Waits) : Waiting next head queue left waiter flags (update pc t p) := by
  refine ⟨h.chain, h.apart, h.one, ?_, ?_, ?_⟩
  · intro u hu
    have hut : u ≠ t := by
      rintro rfl
      exact h.not_chained ht hu
    rw [update_of_ne hut]
    exact h.waits u hu
  · exact update_cases (fun hu => absurd hu hp) (fun u _ => h.chained u)
  · intro u hu
    have hut : u ≠ t := by
      rintro rfl
      rw [h.not_flagged ht] at hu
      cases hu
    rw [update_of_ne hut]
    exact h.flagged u hu

theorem Waiting.setNext (ht : ¬ Chained queue left t) :
    Waiting (update next t v) head queue left waiter flags pc :=
  ⟨h.chain.update (fun hmem => ht (.inl hmem)) v, h.apart, h.one, h.waits, h.chained, h.flagged⟩

theorem Waiting.setWaiter (ht : ¬ Chained queue left t) :
    Waiting next head queue left (update waiter t v) flags pc := by
  refine ⟨h.chain, h.apart, h.one, ?_, h.chained, h.flagged⟩
  intro u hu
  have hut : u ≠ t := by
    rintro rfl
    exact ht hu
  rw [update_of_ne hut]
  exact h.waits u hu

theorem Waiting.push (ht : ¬ (pc t).Waits) (hnext : next t = head) (hwaiter : waiter t = some t) :
    Waiting next (some t) (t :: queue) left waiter flags (update pc t .blocking) := by
  have hnot := h.not_chained ht
  refine ⟨⟨rfl, ?_⟩, ?_, h.one, ?_, ?_, ?_⟩
  · rw [hnext]
    exact h.chain
  · intro u r hu hr
    rcases List.mem_cons.1 hu with rfl | hu
    · exact hnot (.inr ⟨r, hr⟩)
    · exact h.apart u r hu hr
  · refine update_cases (fun _ => ⟨.inl rfl, h.not_flagged ht, hwaiter⟩) (fun u hut hu => ?_)
    apply h.waits u
    rcases hu with hu | hu
    · exact .inl ((List.mem_cons.1 hu).resolve_left hut)
    · exact .inr hu
  · refine update_cases (fun _ _ => .inl List.mem_cons_self) (fun u _ hu hflag => ?_)
    rcases h.chained u hu hflag with hq | hl
    · exact .inl (List.mem_cons_of_mem _ hq)
    · exact .inr hl
  · exact update_cases (fun _ => rfl) (fun u _ => h.flagged u)

theorem Waiting.sleep (ht : pc t = .blocking) (hflag : flags t = false) :
    Waiting next head queue left waiter flags (update pc t .blocked) := by
  refine ⟨h.chain, h.apart, h.one, ?_, ?_, ?_⟩
  · exact update_cases (fun hu => ⟨.inr rfl, (h.waits t hu).2⟩) (fun u _ => h.waits u)
  · exact update_cases (fun _ => h.chained t (.inl ht)) (fun u _ => h.chained u)
  · intro u hu
    have hut : u ≠ t := by
      rintro rfl
      rw [hflag] at hu
      cases hu
    rw [update_of_ne hut]
    exact h.flagged u hu

theorem Waiting.awake (hflag : flags t = true) (hp : ¬ p.Waits) :
    Waiting next head queue left waiter (update flags t false) (update pc t p) := by
  have hne : ∀ u, Chained queue left u → u ≠ t := by
    rintro u hu rfl
    rw [(h.waits u hu).2.1] at hflag
    cases hflag
  refine ⟨h.chain, h.apart, h.one, ?_, ?_, ?_⟩
  · intro u hu
    rw [update_of_ne (hne u hu), update_of_ne (hne u hu)]
    exact h.waits u hu
  · intro u
    exact Function.update_cases₂ (fun hu => absurd hu hp) (fun u _ => h.chained u) u
  · intro u
    exact Function.update_cases₂ nofun (fun u _ => h.flagged u) u

theorem Waiting.swap (ht : left t = []) :
    Waiting next none [] (update left t queue) waiter flags pc := by
  have hsame : ∀ u, Chained [] (update left t queue) u ↔ Chained queue left u := by
    intro u
    constructor
    · rintro (hu | ⟨r, hr⟩)
      · cases hu
      · revert hr
        exact update_cases .inl (fun r _ hr => .inr ⟨r, hr⟩) r
    · rintro (hu | ⟨r, hr⟩)
      · refine .inr ⟨t, ?_⟩
        rw [update_self]
        exact hu
      · have hrt : r ≠ t := by
          rintro rfl
          rw [ht] at hr
          cases hr
        refine .inr ⟨r, ?_⟩
        rw [update_of_ne hrt]
        exact hr
  refine ⟨rfl, fun _ _ => nofun, ?_, ?_, ?_, h.flagged⟩
  · intro u r r' hr hr'
    by_cases hrt : r = t
    · by_cases hrt' : r' = t
      · rw [hrt, hrt']
      · rw [hrt, update_self] at hr
        rw [update_of_ne hrt'] at hr'
        exact absurd hr' (h.apart u r' hr)
    · rw [update_of_ne hrt] at hr
      by_cases hrt' : r' = t
      · rw [hrt', update_self] at hr'
        exact absurd hr (h.apart u r hr')
      · rw [update_of_ne hrt'] at hr'
        exact h.one u r r' hr hr'
  · intro u hu
    exact h.waits u ((hsame u).1 hu)
  · intro u hu hflag
    exact (hsame u).2 (h.chained u hu hflag)

theorem Waiting.unblock {w : τ} {m : List τ} (hleft : left t = w :: m) (hm : w ∉ m) :
    (pc w = .blocked → Waiting next head queue (update left t m) waiter flags
      (update pc w .load)) ∧
      (pc w ≠ .blocked → Waiting next head queue (update left t m) waiter
        (update flags w true) pc) := by
  have hw : w ∈ left t := by
    rw [hleft]
    exact List.mem_cons_self
  have hback : ∀ u r, u ∈ update left t m r → u ∈ left r ∧ u ≠ w := by
    intro u r
    refine update_cases (fun hu => ⟨?_, ?_⟩) (fun r hrt hu => ⟨hu, ?_⟩) r
    · rw [hleft]
      exact List.mem_cons_of_mem _ hu
    · rintro rfl
      exact hm hu
    · rintro rfl
      exact hrt (h.one u r t hu hw)
  have hsame : ∀ u, Chained queue (update left t m) u ↔ Chained queue left u ∧ u ≠ w := by
    intro u
    constructor
    · rintro (hu | ⟨r, hr⟩)
      · refine ⟨.inl hu, ?_⟩
        rintro rfl
        exact h.apart u t hu hw
      · exact ⟨.inr ⟨r, (hback u r hr).1⟩, (hback u r hr).2⟩
    · rintro ⟨hu | ⟨r, hr⟩, huw⟩
      · exact .inl hu
      · refine .inr ⟨r, ?_⟩
        revert hr
        refine update_cases (fun hr => ?_) (fun _ _ => id) r
        rw [hleft] at hr
        exact (List.mem_cons.1 hr).resolve_left huw
  have hwaits := h.waits w (.inr ⟨t, hw⟩)
  have hapart : ∀ u r, u ∈ queue → u ∉ update left t m r :=
    fun u r hu hr => h.apart u r hu (hback u r hr).1
  have hone : ∀ u r r', u ∈ update left t m r → u ∈ update left t m r' → r = r' :=
    fun u r r' hr hr' => h.one u r r' (hback u r hr).1 (hback u r' hr').1
  refine ⟨fun hblocked => ⟨h.chain, hapart, hone, ?_, ?_, ?_⟩,
    fun hawake => ⟨h.chain, hapart, hone, ?_, ?_, ?_⟩⟩
  · intro u hu
    obtain ⟨hu, huw⟩ := (hsame u).1 hu
    rw [update_of_ne huw]
    exact h.waits u hu
  · refine update_cases (fun hu => ?_)
      (fun u huw hu hflag => (hsame u).2 ⟨h.chained u hu hflag, huw⟩)
    rcases hu with hu | hu <;> cases hu
  · intro u hu
    have huw : u ≠ w := by
      rintro rfl
      rw [hwaits.2.1] at hu
      cases hu
    rw [update_of_ne huw]
    exact h.flagged u hu
  · intro u hu
    obtain ⟨hu, huw⟩ := (hsame u).1 hu
    rw [update_of_ne huw]
    exact h.waits u hu
  · exact update_cases (fun _ => nofun)
      (fun u huw hu hflag => (hsame u).2 ⟨h.chained u hu hflag, huw⟩)
  · exact update_cases (fun _ => hwaits.1.resolve_right hawake) (fun u _ => h.flagged u)

end

end Chains

/-! ## Steps -/

section Steps

variable {s : BaseUnFairBLock τ} {t : τ} {p : Pc τ} {curhead : Option τ}

structure Inv (s : BaseUnFairBLock τ) : Prop where
  owned : Owned s.bits s.pc
  walking : Walking s.next s.left s.taken s.woken s.walked s.pc
  waiting : Waiting s.next s.bits.head s.queue s.left s.waiter s.wasUnblocked s.pc
  filled : ∀ t, Filled t (s.next t) (s.waiter t) (s.pc t)

omit [DecidableEq τ] in
theorem inv_init : Inv (init : BaseUnFairBLock τ) where
  owned := by
    have hnone : ∀ t, ¬ ((init : BaseUnFairBLock τ).pc t).Holds := by
      rintro t (h | h) <;> cases h
    exact ⟨fun t _ h => absurd h (hnone t), fun _ => hnone⟩
  walking := ⟨fun _ => rfl, fun _ => List.nodup_nil, fun _ => rfl, fun _ => rfl⟩
  waiting := by
    refine ⟨rfl, fun _ _ => nofun, fun _ _ _ => nofun, ?_, ?_, fun _ => nofun⟩
    · rintro t (h | ⟨r, h⟩)
      · cases h
      · cases h
    · rintro t (h | h) <;> cases h
  filled := fun _ => trivial

/-- Neither waiting nor walking. -/
def Pc.Plain (p : Pc τ) : Prop := ¬ p.Waits ∧ ¬ p.Walks

section

omit [DecidableEq τ]

theorem not_waits (hblocking : p ≠ .blocking) (hblocked : p ≠ .blocked) : ¬ p.Waits := by
  rintro (hp | hp)
  · exact hblocking hp
  · exact hblocked hp

theorem plain_of (hblocking : p ≠ .blocking) (hblocked : p ≠ .blocked) (hwalks : ¬ p.Walks) :
    p.Plain := ⟨not_waits hblocking hblocked, hwalks⟩

theorem not_holds (hholding : p ≠ .holding) (hswap : p ≠ .swap) : ¬ p.Holds := by
  rintro (hp | hp)
  · exact hholding hp
  · exact hswap hp

end

theorem filled_update {next waiter : τ → Option τ} {pc : τ → Pc τ}
    (h : ∀ u, u ≠ t → Filled u (next u) (waiter u) (pc u)) (hp : Filled t (next t) (waiter t) p) :
    ∀ u, Filled u (next u) (waiter u) (update pc t p u) :=
  update_cases hp h

section

variable (h : Inv s)

include h

theorem Inv.goto {q : Pc τ} (ht : s.pc t = q) (hq : q.Plain) (hp : p.Plain)
    (hholds : p.Holds → q.Holds) (hfilled : Filled t (s.next t) (s.waiter t) p) :
    Inv (s.goto t p) := by
  subst q
  exact ⟨h.owned.goto hholds, h.walking.goto hq.2 hp.2, h.waiting.goto hq.1 hp.1,
    filled_update (fun u _ => h.filled u) hfilled⟩

theorem Inv.storeLocked {q fails : Pc τ} (ht : s.pc t = q) (hq : q.Plain)
    (hfails : fails.Plain) (hholds : ¬ fails.Holds)
    (hfilled : Filled t (s.next t) (s.waiter t) fails) : Inv (s.storeLocked t fails) := by
  unfold BaseUnFairBLock.storeLocked
  split
  · rename_i hfree
    subst q
    have howned := h.owned
    have hwaiting := h.waiting
    rw [hfree] at howned hwaiting
    exact ⟨howned.take, h.walking.goto hq.2 id,
      hwaiting.goto hq.1 (not_waits nofun nofun), filled_update (fun u _ => h.filled u) trivial⟩
  · exact h.goto ht hq hfails (fun hh => absurd hh hholds) hfilled

theorem Inv.load (ht : s.pc t = .load) : Inv (s.load t) := by
  unfold BaseUnFairBLock.load
  split
  · exact h.goto ht (plain_of nofun nofun id) (plain_of nofun nofun id)
      (fun hh => absurd hh (not_holds nofun nofun)) trivial
  · exact h.goto ht (plain_of nofun nofun id) (plain_of nofun nofun id)
      (fun hh => absurd hh (not_holds nofun nofun)) trivial

theorem Inv.setNext (ht : s.pc t = .setNext curhead) : Inv (s.setNext t curhead) := by
  have hplain : (s.pc t).Plain := by
    rw [ht]
    exact plain_of nofun nofun id
  have hnot := h.waiting.not_chained hplain.1
  refine ⟨h.owned.goto fun hh => absurd hh (not_holds nofun nofun), ?_, ?_, ?_⟩
  · exact (h.walking.setNext fun r hr => hnot (.inr ⟨r, hr⟩)).goto hplain.2 id
  · exact (h.waiting.setNext hnot).goto hplain.1 (not_waits nofun nofun)
  · apply filled_update
    · intro u hut
      change Filled u (update s.next t curhead u) (s.waiter u) (s.pc u)
      rw [update_of_ne hut]
      exact h.filled u
    · exact update_self ..

theorem Inv.setWaiter (ht : s.pc t = .setWaiter curhead) :
    Inv (s.setWaiter t curhead) := by
  have hplain : (s.pc t).Plain := by
    rw [ht]
    exact plain_of nofun nofun id
  have hfilled := h.filled t
  rw [ht] at hfilled
  refine ⟨h.owned.goto fun hh => absurd hh (not_holds nofun nofun), h.walking.goto hplain.2 id, ?_, ?_⟩
  · exact (h.waiting.setWaiter (h.waiting.not_chained hplain.1)).goto hplain.1
      (not_waits nofun nofun)
  · apply filled_update
    · intro u hut
      change Filled u (s.next u) (update s.waiter t (some t) u) (s.pc u)
      rw [update_of_ne hut]
      exact h.filled u
    · exact ⟨hfilled, update_self ..⟩

theorem Inv.push (ht : s.pc t = .push curhead) : Inv (s.push t curhead) := by
  have hplain : (s.pc t).Plain := by
    rw [ht]
    exact plain_of nofun nofun id
  unfold BaseUnFairBLock.push
  split
  · rename_i hbits
    have hfilled := h.filled t
    rw [ht] at hfilled
    have howned := h.owned
    have hwaiting := h.waiting
    rw [hbits] at howned hwaiting
    exact ⟨howned.relock.goto fun hh => absurd hh (not_holds nofun nofun),
      h.walking.goto hplain.2 id, hwaiting.push hplain.1 hfilled.1 hfilled.2,
      filled_update (fun u _ => h.filled u) trivial⟩
  · exact h.goto rfl hplain (plain_of nofun nofun id)
      (fun hh => absurd hh (not_holds nofun nofun)) trivial

theorem Inv.block (ht : s.pc t = .blocking) : Inv (s.block t) := by
  have hwalks : ¬ (s.pc t).Walks := by
    rw [ht]
    exact id
  have hfilled : ∀ p : Pc τ, Filled t (s.next t) (s.waiter t) p →
      ∀ u, Filled u (s.next u) (s.waiter u) (update s.pc t p u) :=
    fun p => filled_update fun u _ => h.filled u
  unfold BaseUnFairBLock.block
  split
  · rename_i hflag
    exact ⟨h.owned.goto fun hh => absurd hh (not_holds nofun nofun), h.walking.goto hwalks id,
      h.waiting.awake hflag (not_waits nofun nofun), hfilled .load trivial⟩
  · rename_i hflag
    exact ⟨h.owned.goto fun hh => absurd hh (not_holds nofun nofun), h.walking.goto hwalks id,
      h.waiting.sleep ht (Bool.not_eq_true _ ▸ hflag), hfilled .blocked trivial⟩

theorem Inv.release (ht : s.pc t = .holding) : Inv (s.release t) := by
  have hplain : (s.pc t).Plain := by
    rw [ht]
    exact plain_of nofun nofun id
  unfold BaseUnFairBLock.release
  split
  · rename_i hbits
    have hwaiting := h.waiting
    rw [hbits] at hwaiting
    exact ⟨h.owned.leave (.inl ht) (not_holds nofun nofun), h.walking.goto hplain.2 id,
      hwaiting.goto hplain.1 (not_waits nofun nofun), filled_update (fun u _ => h.filled u) trivial⟩
  · exact h.goto ht (plain_of nofun nofun id) (plain_of nofun nofun id) (fun _ => .inl rfl) trivial

end

section

omit [DecidableEq τ]

theorem walkOn_place (v : Option τ) : ¬ (walkOn v : Pc τ).Waits ∧ ¬ (walkOn v : Pc τ).Holds := by
  cases v with
  | none => exact ⟨(not_waits nofun nofun), not_holds nofun nofun⟩
  | some w =>
    constructor
    · rintro (h | h) <;> cases h
    · exact not_holds nofun nofun

theorem leads_walkOn {next : τ → Option τ} {v : Option τ} {m : List τ} (h : Path next v m) :
    Leads next m (walkOn v) ∧ toGo m.length (walkOn v) = 3 * m.length := by
  cases v with
  | none =>
    have hm : m = [] := by
      cases m with
      | nil => rfl
      | cons a m => cases h.1
    subst m
    exact ⟨rfl, rfl⟩
  | some w => exact ⟨h, rfl⟩

theorem filled_walkOn {a b v : Option τ} : Filled t a b (walkOn v) := by
  cases v <;> trivial

end

theorem Inv.swap (h : Inv s) (ht : s.pc t = .swap) : Inv (s.swap t) := by
  have hplain : (s.pc t).Plain := by
    rw [ht]
    exact plain_of nofun nofun id
  have hnil : s.left t = [] := by
    have hleads := h.walking.leads t
    rw [ht] at hleads
    exact hleads
  obtain ⟨hwaits, hholds⟩ := walkOn_place s.bits.head
  obtain ⟨hleads, htoGo⟩ := leads_walkOn h.waiting.chain
  exact ⟨h.owned.leave (.inr ht) hholds,
    h.walking.move hleads h.waiting.chain.nodup rfl (by rw [htoGo, Nat.zero_add]),
    (h.waiting.swap hnil).goto hplain.1 hwaits, filled_update (fun u _ => h.filled u) filled_walkOn⟩

theorem Inv.walkStep (h : Inv s) (ht : (s.pc t).Walks) (hp : p.Walks)
    (hleads : Leads s.next (s.left t) p)
    (hsteps : toGo (s.left t).length p + 1 = toGo (s.left t).length (s.pc t)) :
    Inv (s.walkStep t p) := by
  have hnot : ∀ q : Pc τ, q.Walks → ¬ q.Waits ∧ ¬ q.Holds ∧ ∀ a b, Filled t a b q := by
    intro q hq
    refine ⟨?_, ?_, ?_⟩
    · rintro (rfl | rfl) <;> exact hq
    · rintro (rfl | rfl) <;> exact hq
    · intro a b
      cases q <;> first
        | exact hq.elim
        | trivial
  have hr := h.walking.steps t
  have hwalking := h.walking.move (t := t) (n := s.walked t + 1) hleads (h.walking.nodup t)
    (h.walking.count t) (by omega)
  simp only [update_eq_self] at hwalking
  exact ⟨h.owned.goto fun hh => absurd hh (hnot p hp).2.1, hwalking,
    h.waiting.goto (hnot _ ht).1 (hnot p hp).1,
    filled_update (fun u _ => h.filled u) ((hnot p hp).2.2 _ _)⟩

theorem Inv.walk (h : Inv s) {w : τ} (ht : s.pc t = .walk w) :
    Inv (s.walkStep t (.loadWaiter w (s.next w))) := by
  have hleads := h.walking.leads t
  rw [ht] at hleads
  have hne : (s.left t).length ≠ 0 := by
    rintro hzero
    rw [List.length_eq_zero_iff] at hzero
    rw [hzero] at hleads
    cases hleads
  apply h.walkStep
  · rw [ht]
    trivial
  · trivial
  · cases hl : s.left t with
    | nil =>
      rw [hl] at hne
      exact absurd rfl hne
    | cons a m =>
      rw [hl] at hleads
      obtain ⟨ha, hm⟩ := hleads
      cases ha
      exact ⟨m, rfl, hm⟩
  · rw [ht]
    change 3 * (s.left t).length - 1 + 1 = 3 * (s.left t).length
    omega

theorem Inv.loadWaiter (h : Inv s) {w : τ} {n : Option τ} (ht : s.pc t = .loadWaiter w n) :
    Inv (s.walkStep t (.unblock (s.waiter w) n)) := by
  have hleads := h.walking.leads t
  rw [ht] at hleads
  obtain ⟨m, hl, hm⟩ := hleads
  apply h.walkStep
  · rw [ht]
    trivial
  · trivial
  · refine ⟨w, m, hl, ?_, hm⟩
    refine (h.waiting.waits w (.inr ⟨t, ?_⟩)).2.2
    rw [hl]
    exact List.mem_cons_self
  · rw [ht, hl]
    change 3 * (m.length + 1) - 2 + 1 = 3 * (m.length + 1) - 1
    omega

theorem Inv.unblock (h : Inv s) {id n : Option τ} (ht : s.pc t = .unblock id n) :
    Inv (s.unblock t id n) := by
  have hleads := h.walking.leads t
  rw [ht] at hleads
  obtain ⟨w, m, hl, rfl, hm⟩ := hleads
  have hnodup := h.walking.nodup t
  rw [hl, List.nodup_cons] at hnodup
  have hw : (s.pc w).Waits := by
    refine (h.waiting.waits w (.inr ⟨t, ?_⟩)).1
    rw [hl]
    exact List.mem_cons_self
  have hwt : t ≠ w := by
    rintro rfl
    rw [ht] at hw
    rcases hw with hw | hw <;> cases hw
  obtain ⟨hasleep, hawake⟩ := h.waiting.unblock hl hnodup.1
  obtain ⟨hwaits, hholds⟩ := walkOn_place n
  obtain ⟨hleads, htoGo⟩ := leads_walkOn hm
  have hnotWaits : ¬ (s.pc t).Waits := by
    rw [ht]
    rintro (hh | hh) <;> cases hh
  have htail : (s.left t).tail = m := by
    rw [hl]
    rfl
  have hcount := h.walking.count t
  have hsteps := h.walking.steps t
  rw [ht, hl] at hsteps
  change _ + (3 * (m.length + 1) - 2) = _ at hsteps
  have hwalking : ∀ pc', Walking s.next s.left s.taken s.woken s.walked pc' →
      Walking s.next (update s.left t (s.left t).tail) s.taken
        (update s.woken t (s.woken t ++ [w])) (update s.walked t (s.walked t + 1))
        (update pc' t (walkOn n)) := by
    intro pc' hpc'
    have hthis := hpc'.move (t := t) (k := s.taken t) (m := s.woken t ++ [w])
      (n := s.walked t + 1) hleads hnodup.2 (by rw [hcount, hl]; simp) (by rw [htoGo]; omega)
    rwa [update_eq_self, ← htail] at hthis
  by_cases hblocked : s.pc w = .blocked
  · have hwake : s.wake (some w) = s.goto w .load := if_pos hblocked
    unfold BaseUnFairBLock.unblock
    rw [hwake]
    have hpct : update s.pc w .load t = s.pc t := update_of_ne hwt _ _
    refine ⟨?_, ?_, ?_, ?_⟩
    · refine Owned.goto (h.owned.goto ?_) ?_
      · exact fun hh => absurd hh (not_holds nofun nofun)
      · exact fun hh => absurd hh hholds
    · refine hwalking (update s.pc w .load) (h.walking.goto ?_ id)
      rw [hblocked]
      exact id
    · have hrest := hasleep hblocked
      rw [← htail] at hrest
      apply hrest.goto _ hwaits
      rw [hpct]
      exact hnotWaits
    · apply filled_update _ filled_walkOn
      intro u _
      exact filled_update (fun v _ => h.filled v) (p := .load) trivial u
  · have hwake : s.wake (some w) =
        { s with wasUnblocked := update s.wasUnblocked w true } := if_neg hblocked
    unfold BaseUnFairBLock.unblock
    rw [hwake]
    refine ⟨h.owned.goto fun hh => absurd hh hholds,
      hwalking s.pc h.walking, ?_,
      filled_update (fun u _ => h.filled u) filled_walkOn⟩
    have hrest := hawake hblocked
    rw [← htail] at hrest
    exact hrest.goto hnotWaits hwaits

theorem Inv.advance (h : Inv s) (t : τ) : Inv (s.advance t) := by
  unfold BaseUnFairBLock.advance
  cases ht : s.pc t with
  | idle => exact h
  | load => exact h.load ht
  | storeFree =>
    exact h.storeLocked ht (plain_of nofun nofun id) (plain_of nofun nofun id)
      (not_holds nofun nofun) trivial
  | setNext curhead => exact h.setNext ht
  | setWaiter curhead => exact h.setWaiter ht
  | push curhead => exact h.push ht
  | blocking => exact h.block ht
  | blocked => exact h
  | holding => exact h
  | swap => exact h.swap ht
  | walk w => exact h.walk ht
  | loadWaiter w n => exact h.loadWaiter ht
  | unblock id n => exact h.unblock ht

theorem Inv.step (h : Inv s) {a : Action τ} (hadm : s.adm a) (hmatched : matched a) :
    Inv (s.step a) := by
  cases a with
  | acquire t =>
    exact h.storeLocked hadm (plain_of nofun nofun id) (plain_of nofun nofun id)
      (not_holds nofun nofun) trivial
  | tryAcquire t =>
    exact h.storeLocked hadm (plain_of nofun nofun id) (plain_of nofun nofun id)
      (not_holds nofun nofun) trivial
  | release t => exact h.release hadm
  | advance t => exact h.advance t
  | wakeup t => exact hmatched.elim

end Steps

/-! ## Runs -/

/-- The unfair lock: in every interleaving in which `Block` returns only after an `Unblock`,
at most one thread holds the lock; the chain of the word is finite, and has on it, once each,
exactly the waiting threads that no release has taken; and a release makes three steps for
each thread of the chain it has taken, and when it is over has unblocked exactly these. -/
theorem run_excludes {actions : List (Action τ)} {s : BaseUnFairBLock τ}
    (h : matching.Run init actions s) : (∀ t u, (s.pc t).Holds → (s.pc u).Holds → t = u) ∧
      Path s.next s.bits.head s.queue ∧ s.queue.Nodup ∧
      (∀ t, t ∈ s.queue ↔ (s.pc t).Waits ∧ s.wasUnblocked t = false ∧ ∀ r, t ∉ s.left r) ∧
      (∀ r, s.taken r = s.woken r ++ s.left r ∧ s.walked r ≤ 3 * (s.taken r).length) ∧
      ∀ r, ¬ (s.pc r).Walks → s.woken r = s.taken r := by
  have hinv : Inv s := by
    refine h.invariant inv_init ?_
    rintro s a hs ⟨hadm, hmatched⟩
    exact hs.step hadm hmatched
  refine ⟨hinv.owned.alone, hinv.waiting.chain, hinv.waiting.chain.nodup, ?_, ?_, ?_⟩
  · intro t
    constructor
    · intro ht
      obtain ⟨hwaits, hflag, -⟩ := hinv.waiting.waits t (.inl ht)
      exact ⟨hwaits, hflag, fun r => hinv.waiting.apart t r ht⟩
    · rintro ⟨hwaits, hflag, hleft⟩
      rcases hinv.waiting.chained t hwaits hflag with ht | ⟨r, hr⟩
      · exact ht
      · exact absurd hr (hleft r)
  · intro r
    refine ⟨hinv.walking.count r, ?_⟩
    have hsteps := hinv.walking.steps r
    omega
  · intro r hr
    have hleads := hinv.walking.leads r
    rw [leads_of_not_walks hr] at hleads
    rw [hinv.walking.count, hleads, List.append_nil]

instance (s : BaseUnFairBLock τ) : (a : Action τ) → Decidable (s.adm a)
  | .acquire _ | .tryAcquire _ | .release _ => inferInstanceAs (Decidable (_ = _))
  | .advance _ | .wakeup _ => isTrue trivial

instance : (a : Action τ) → Decidable (matched a)
  | .acquire _ | .tryAcquire _ | .release _ | .advance _ => isTrue trivial
  | .wakeup _ => isFalse id

instance (s : BaseUnFairBLock τ) (a : Action τ) : Decidable (interleavings.adm s a) :=
  inferInstanceAs (Decidable (s.adm a))

instance (s : BaseUnFairBLock τ) (a : Action τ) : Decidable (matching.adm s a) :=
  inferInstanceAs (Decidable (s.adm a ∧ matched a))

open scoped SmallFin

/-- Threads 1 and 2 wait for thread 0; its release unblocks thread 2, which is asleep, and
thread 1, which is about to block. -/
def twoWaiters : List (Action (Fin 3)) :=
  [.acquire 0, .acquire 1, .advance 1, .advance 1, .advance 1, .advance 1,
    .acquire 2, .advance 2, .advance 2, .advance 2, .advance 2, .advance 2,
    .release 0, .advance 0, .advance 0, .advance 0, .advance 0, .advance 0, .advance 0, .advance 0]

theorem run_excludes_twoWaiters :
    let s := twoWaiters.foldl matching.step init
    matching.Run init twoWaiters s ∧ s.pc 0 = .idle ∧ s.taken 0 = [2, 1] ∧
      s.woken 0 = s.taken 0 ∧ s.queue.Nodup := by
  intro s
  have hadmits : matching.Admits init twoWaiters := by decide +kernel
  have hidle : s.pc 0 = .idle := by decide +kernel
  obtain ⟨-, -, hnodup, -, -, hwoken⟩ := run_excludes hadmits.run
  refine ⟨hadmits.run, hidle, by decide +kernel, hwoken 0 ?_, hnodup⟩
  change ¬ (s.pc 0).Walks
  rw [hidle]
  exact id

/-- Thread 1 comes back from `Block` without an unblock, and pushes its element again. -/
def pushesTwice : List (Action (Fin 2)) :=
  [.acquire 0, .acquire 1, .advance 1, .advance 1, .advance 1, .advance 1, .advance 1,
    .wakeup 1, .advance 1, .advance 1, .advance 1, .advance 1]

/-- The release of thread 0 goes through the element of thread 1 for the second time. -/
def walksInCircles : List (Action (Fin 2)) :=
  pushesTwice ++ [.release 0, .advance 0, .advance 0, .advance 0, .advance 0]

/-- The element is its own successor: no finite chain leads from the word to its end, and the
release is back where it has begun. -/
theorem chain_has_cycle : (let s := pushesTwice.foldl interleavings.step init
    interleavings.Run init pushesTwice s ∧ s.bits = .locked (some 1) ∧ s.next 1 = some 1 ∧
      ¬ ∃ l, Path s.next s.bits.head l) ∧
      (let s := walksInCircles.foldl interleavings.step init
      interleavings.Run init walksInCircles s ∧ s.pc 0 = .walk 1 ∧ s.next 1 = some 1) := by
  have hpushes : interleavings.Admits init pushesTwice := by decide +kernel
  have hwalks : interleavings.Admits init walksInCircles := by decide +kernel
  have hbits : (pushesTwice.foldl interleavings.step init).bits = .locked (some 1) := by
    decide +kernel
  have hnext : (pushesTwice.foldl interleavings.step init).next 1 = some 1 := by decide +kernel
  refine ⟨⟨hpushes.run, hbits, hnext, ?_⟩, ⟨hwalks.run, by decide +kernel, by decide +kernel⟩⟩
  rintro ⟨l, hl⟩
  rw [hbits] at hl
  exact Path.not_self hnext hl

end BaseUnFairBLock

end K42
