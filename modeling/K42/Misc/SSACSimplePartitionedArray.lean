import K42.Lib.Run
import Mathlib.Algebra.Group.Nat.Defs
import Mathlib.Data.List.Nodup
import Mathlib.Data.List.Range

/-!
# The partitioned set associative cache

Each representative has an array of hash queues, and each queue an array of
`associativity` entries that is created by the queue's first user. A miss takes the entry
of the queue that is free or was used longest ago and is not busy. Whoever gets an entry
locked works on it with no lock held, until it puts the entry back.

A step is one section under the lock of a queue, or the test of `hashq->entries` that
`get` and `insertPageDesc` make with no lock held.
-/

open Function (update)

namespace K42

namespace SSAC

inductive Gettype
  | GETLOCKED | GETUNLOCKED
deriving DecidableEq

inductive Putflag
  | KEEP | DISCARD
deriving DecidableEq

/-- A cache entry; an invalid id is `none`, and `pd` is what the containing object keeps in
the entry. -/
structure CacheEntry (κ δ : Type) where
  id : Option κ
  busy : Bool
  dirty : Bool
  lastUsed : ℕ
  pd : δ
deriving DecidableEq

/-- The address of an entry: the queue (processor and offset), which of the arrays that
have been created for the queue, and the place in that array. -/
structure EntryPtr where
  hashq : ℕ × ℕ
  array : ℕ
  slot : ℕ
deriving DecidableEq

/-- A queue without its entries: `entries` is the array in use, and `created` the number
of arrays that `init` has made. -/
structure HashQueues where
  count : ℕ
  entries : Option ℕ
  created : ℕ
deriving DecidableEq

inductive Call (κ : Type)
  | get (id : κ) (type : Gettype)
  | insertPageDesc (id : κ)
deriving DecidableEq

def Call.id {κ : Type} : Call κ → κ
  | .get id _ => id
  | .insertPageDesc id => id

/-- Where a thread is: before the test of `entries`, before the section that calls
`init`, or before the section that searches the queue. -/
inductive Place (κ : Type)
  | idle
  | testing (c : Call κ)
  | initing (c : Call κ)
  | locking (c : Call κ)
deriving DecidableEq

/-- What the containing object and the entries see: an entry is saved as it is, and it
gets a new id. -/
inductive Event (κ δ : Type)
  | saved (ce : EntryPtr) (e : CacheEntry κ δ)
  | reused (ce : EntryPtr) (e : CacheEntry κ δ) (id : κ)
deriving DecidableEq

/-- A locked entry in the hands of a thread, with the id it was asked for. -/
structure Held (τ κ : Type) where
  thread : τ
  ce : EntryPtr
  id : κ
deriving DecidableEq

/-! ## One queue -/

variable {τ κ δ : Type} [DecidableEq τ] [DecidableEq κ]

def search (entries : ℕ → CacheEntry κ δ) (id : κ) (numentries : ℕ) : Option ℕ :=
  (List.range numentries).find? fun i => (entries i).id = some id

/-- The loop of `lruentry` from index `i` on, with `n` entries to go. -/
def lruentryFrom (entries : ℕ → CacheEntry κ δ) : (n i : ℕ) → (ep : Option ℕ) → Option ℕ
  | 0, _, ep => ep
  | n + 1, i, ep =>
    if (entries i).busy then lruentryFrom entries n (i + 1) ep
    else
      match ep with
      | none => if (entries i).id = none then some i else lruentryFrom entries n (i + 1) (some i)
      | some e =>
        if (entries i).id = none then some i
        else if (entries i).lastUsed < (entries e).lastUsed then
          lruentryFrom entries n (i + 1) (some i)
        else lruentryFrom entries n (i + 1) (some e)

def lruentry (entries : ℕ → CacheEntry κ δ) (numentries : ℕ) : Option ℕ :=
  lruentryFrom entries numentries 0 none

variable {entries : ℕ → CacheEntry κ δ} {n i : ℕ}

theorem search_some {id : κ}
    (h : search entries id n = some i) : i < n ∧ (entries i).id = some id := by
  have hi := List.mem_range.1 (List.mem_of_find?_eq_some h)
  have hid := List.find?_some h
  exact ⟨hi, of_decide_eq_true hid⟩

theorem search_none {id : κ}
    (h : search entries id n = none) (hi : i < n) : (entries i).id ≠ some id := by
  intro hid
  have := List.find?_eq_none.1 h i (List.mem_range.2 hi)
  exact this (decide_eq_true hid)

section

omit [DecidableEq κ]

theorem lruentryFrom_some {ep : Option ℕ} {r : ℕ}
    (hep : ∀ e, ep = some e → e < i ∧ (entries e).busy = false)
    (h : lruentryFrom entries n i ep = some r) : r < i + n ∧ (entries r).busy = false := by
  induction n generalizing i ep with
  | zero => exact hep r h
  | succ n ih =>
    have hkeep : ∀ e, ep = some e → e < i + 1 ∧ (entries e).busy = false :=
      fun e he => ⟨Nat.lt_succ_of_lt (hep e he).1, (hep e he).2⟩
    unfold lruentryFrom at h
    have hshift : i + 1 + n = i + (n + 1) := by omega
    rw [← hshift]
    split at h
    · exact ih hkeep h
    · rename_i hbusy
      have hbusy : (entries i).busy = false := by simpa using hbusy
      have htake : ∀ e, some i = some e → e < i + 1 ∧ (entries e).busy = false := by
        rintro e ⟨⟩
        exact ⟨Nat.lt_succ_self i, hbusy⟩
      have hi : i < i + 1 + n ∧ (entries i).busy = false := ⟨by omega, hbusy⟩
      cases ep with
      | none =>
        simp only at h
        split at h
        · cases h
          exact hi
        · exact ih htake h
      | some e =>
        simp only at h
        split at h
        · cases h
          exact hi
        · split at h
          · exact ih htake h
          · exact ih hkeep h

theorem lruentry_some {r : ℕ}
    (h : lruentry entries n = some r) : r < n ∧ (entries r).busy = false := by
  have := lruentryFrom_some (by simp) h
  rwa [Nat.zero_add] at this

end

end SSAC

open SSAC

/-- The parameters of the cache. -/
structure SSACSimplePartitionedArray where
  log2IndexPartitionSize : ℕ
  numHashQsPerRep : ℕ
  associativity : ℕ
  numProcs : ℕ
deriving DecidableEq

namespace SSACSimplePartitionedArray

variable {τ κ δ : Type} [DecidableEq τ] [DecidableEq κ]

/-- The queues of all representatives, every entry that has been or will be created, where
the threads are, and the locked entries they hold. `events` is the past. -/
structure State (τ κ δ : Type) where
  hashqs : ℕ × ℕ → HashQueues
  memory : EntryPtr → CacheEntry κ δ
  places : τ → Place κ
  held : List (Held τ κ)
  events : List (Event κ δ)

/-- No queue has an array; an array will be created with all its ids invalid. -/
def init (pd : δ) : State τ κ δ where
  hashqs := fun _ => ⟨0, none, 0⟩
  memory := fun _ => ⟨none, false, false, 0, pd⟩
  places := fun _ => .idle
  held := []
  events := []

/-- The processor and the offset of a queue, from the index of an id. -/
def partition (cfg : SSACSimplePartitionedArray) (index : ℕ) : ℕ × ℕ :=
  ((index >>> cfg.log2IndexPartitionSize) % cfg.numProcs, index % cfg.numHashQsPerRep)

namespace State

variable (s : State τ κ δ)

/-- The entries of an array. -/
def entries (q : ℕ × ℕ) (a : ℕ) (i : ℕ) : CacheEntry κ δ := s.memory ⟨q, a, i⟩

def goto (t : τ) (p : Place κ) : State τ κ δ := { s with places := update s.places t p }

def modify (ce : EntryPtr) (f : CacheEntry κ δ → CacheEntry κ δ) : State τ κ δ :=
  { s with memory := update s.memory ce (f (s.memory ce)) }

/-- `HashQueues::init`, whose only check that there is no array yet is an assertion. -/
def initq (q : ℕ × ℕ) : State τ κ δ :=
  { s with
    hashqs := update s.hashqs q
      { s.hashqs q with entries := some (s.hashqs q).created, created := (s.hashqs q).created + 1 } }

/-- The entry is the most recently used one of its queue. -/
def use (ce : EntryPtr) : State τ κ δ :=
  let count := ((s.hashqs ce.hashq).count + 1) % 2 ^ 64
  { s with
    hashqs := update s.hashqs ce.hashq { s.hashqs ce.hashq with count := count }
    memory := update s.memory ce { s.memory ce with lastUsed := count } }

/-- A victim is saved if it is dirty, and gets the new id. The dirty flag stays. -/
def reuse (ce : EntryPtr) (id : κ) : State τ κ δ :=
  let e := s.memory ce
  { s with
    memory := update s.memory ce
      { e with busy := if e.dirty then false else e.busy, id := some id }
    events := s.events ++ ((if e.dirty then [.saved ce e] else []) ++ [.reused ce e id]) }

/-- `get` returns the entry. -/
def give (t : τ) (ce : EntryPtr) (id : κ) (type : Gettype) : State τ κ δ :=
  match type with
  | .GETLOCKED =>
    { s.modify ce fun e => { e with busy := true } with
      places := update s.places t .idle
      held := ⟨t, ce, id⟩ :: s.held }
  | .GETUNLOCKED => s.goto t .idle

variable {s} {t u : τ} {p : Place κ} {ce x : EntryPtr} {f : CacheEntry κ δ → CacheEntry κ δ}

section

omit [DecidableEq κ]

theorem goto_self : (s.goto t p).places t = p := Function.update_self ..

theorem goto_of_ne (h : u ≠ t) : (s.goto t p).places u = s.places u := Function.update_of_ne h ..

end

section

omit [DecidableEq τ] [DecidableEq κ]

theorem modify_self : (s.modify ce f).memory ce = f (s.memory ce) := Function.update_self ..

theorem modify_of_ne (h : x ≠ ce) : (s.modify ce f).memory x = s.memory x :=
  Function.update_of_ne h ..

end

end State

/-! ## The sections -/

/-- The section of `get`; `pd` is what `loadCacheEntry` leaves in the entry. A thread that
finds the entry busy sleeps and starts the section again. -/
def getSection (cfg : SSACSimplePartitionedArray) (index : κ → ℕ) (s : State τ κ δ) (t : τ)
    (id : κ) (type : Gettype) (pd : δ) : State τ κ δ :=
  let q := cfg.partition (index id)
  match (s.hashqs q).entries with
  | none => s
  | some a =>
    match search (s.entries q a) id cfg.associativity with
    | some i =>
      if (s.entries q a i).busy then s
      else (s.use ⟨q, a, i⟩).give t ⟨q, a, i⟩ id type
    | none =>
      match lruentry (s.entries q a) cfg.associativity with
      | none => s.goto t .idle
      | some i =>
        let ce : EntryPtr := ⟨q, a, i⟩
        let s := (s.reuse ce id).modify ce fun e => { e with pd := pd }
        (s.use ce).give t ce id type

/-- The section of `insertPageDesc`, which only asserts that the id is not in the queue. -/
def insertSection (cfg : SSACSimplePartitionedArray) (index : κ → ℕ) (s : State τ κ δ) (t : τ)
    (id : κ) : State τ κ δ :=
  let q := cfg.partition (index id)
  match (s.hashqs q).entries with
  | none => s
  | some a =>
    match lruentry (s.entries q a) cfg.associativity with
    | none => s.goto t .idle
    | some i => ((s.reuse ⟨q, a, i⟩ id).use ⟨q, a, i⟩).goto t .idle

/-- `putbackAndUnlock` finds the queue by the id of the entry. -/
def putbackAndUnlock (cfg : SSACSimplePartitionedArray) (index : κ → ℕ) (s : State τ κ δ)
    (t : τ) (ce : EntryPtr) (flag : Putflag) : State τ κ δ :=
  match (s.memory ce).id with
  | none => s
  | some id =>
    let count := (s.hashqs (cfg.partition (index id))).count
    { s.modify ce fun e =>
        { e with lastUsed := if flag = .KEEP then count else 0, busy := false } with
      held := s.held.filter fun h => ¬ (h.thread = t ∧ h.ce = ce) }

/-- What the threads do; `write` is work on an entry with no lock held. -/
inductive Op (τ κ δ : Type)
  | call (t : τ) (c : Call κ)
  | testEntries (t : τ)
  | initq (t : τ)
  | hashqSection (t : τ) (pd : δ)
  | putbackAndUnlock (t : τ) (ce : EntryPtr) (flag : Putflag)
  | write (ce : EntryPtr) (pd : δ) (dirty : Bool)

def step (cfg : SSACSimplePartitionedArray) (index : κ → ℕ) (s : State τ κ δ) :
    Op τ κ δ → State τ κ δ
  | .call t c => s.goto t (.testing c)
  | .testEntries t =>
    match s.places t with
    | .testing c =>
      match (s.hashqs (cfg.partition (index c.id))).entries with
      | none => s.goto t (.initing c)
      | some _ => s.goto t (.locking c)
    | _ => s
  | .initq t =>
    match s.places t with
    | .initing c => (s.initq (cfg.partition (index c.id))).goto t (.locking c)
    | _ => s
  | .hashqSection t pd =>
    match s.places t with
    | .locking (.get id type) => cfg.getSection index s t id type pd
    | .locking (.insertPageDesc id) => cfg.insertSection index s t id
    | _ => s
  | .putbackAndUnlock t ce flag => cfg.putbackAndUnlock index s t ce flag
  | .write ce pd dirty => s.modify ce fun e => { e with pd := pd, dirty := dirty }

/-- A thread makes one call at a time, and puts back only what it holds. -/
def adm (s : State τ κ δ) : Op τ κ δ → Prop
  | .call t _ => s.places t = .idle
  | .putbackAndUnlock t ce _ => s.places t = .idle ∧ ∃ h ∈ s.held, h.thread = t ∧ h.ce = ce
  | _ => True

instance (s : State τ κ δ) : (op : Op τ κ δ) → Decidable (adm s op)
  | .call .. => inferInstanceAs (Decidable (_ = _))
  | .putbackAndUnlock .. => inferInstanceAs (Decidable (_ ∧ _))
  | .testEntries _ | .initq _ | .hashqSection .. | .write .. => isTrue trivial

def interleavings (cfg : SSACSimplePartitionedArray) (index : κ → ℕ) :
    Machine (State τ κ δ) (Op τ κ δ) :=
  ⟨cfg.step index, adm⟩

/-- The id of a thread that is about to call `init`. -/
def initingId : Place κ → Option κ
  | .initing c => some c.id
  | _ => none

/-- The id of a thread that is about to insert. -/
def insertingId : Place κ → Option κ
  | .locking (.insertPageDesc id) => some id
  | _ => none

/-- The two assertions of the class: `init` finds no array, and `insertPageDesc` no entry
with the id. -/
def asserts (cfg : SSACSimplePartitionedArray) (index : κ → ℕ) (s : State τ κ δ) :
    Op τ κ δ → Prop
  | .initq t => ∀ id ∈ initingId (s.places t),
      (s.hashqs (cfg.partition (index id))).entries = none
  | .hashqSection t _ => ∀ id ∈ insertingId (s.places t),
      ∀ a ∈ (s.hashqs (cfg.partition (index id))).entries,
        search (s.entries (cfg.partition (index id)) a) id cfg.associativity = none
  | _ => True

/-- The interleavings in which the assertions hold. -/
def assertedInterleavings (cfg : SSACSimplePartitionedArray) (index : κ → ℕ) :
    Machine (State τ κ δ) (Op τ κ δ) :=
  ⟨cfg.step index, fun s op => adm s op ∧ cfg.asserts index s op⟩

/-! ## Coherence -/

/-- What the cache is to guarantee. -/
structure Coherent (cfg : SSACSimplePartitionedArray) (index : κ → ℕ) (s : State τ κ δ) :
    Prop where
  /-- The array of a queue is created once, and it stays the array in use. -/
  once : ∀ q, (s.hashqs q).entries = none ∧ (s.hashqs q).created = 0 ∨
    (s.hashqs q).entries = some 0 ∧ (s.hashqs q).created = 1
  /-- A thread that goes on to the section of its call finds an array. -/
  ready : ∀ t c, s.places t = .locking c → (s.hashqs (cfg.partition (index c.id))).entries ≠ none
  unique : ∀ q a, (s.hashqs q).entries = some a → ∀ i < cfg.associativity,
    ∀ j < cfg.associativity, ∀ id, (s.entries q a i).id = some id →
      (s.entries q a j).id = some id → i = j
  /-- An id is only in the array of its own queue, so `putbackAndUnlock` locks the queue of
  the entry. -/
  inQueue : ∀ ce id, (s.memory ce).id = some id →
    cfg.partition (index id) = ce.hashq ∧ (s.hashqs ce.hashq).entries = some ce.array
  busy : ∀ h ∈ s.held, (s.memory h.ce).busy = true
  oneHolder : (s.held.map Held.ce).Nodup
  /-- A locked entry still has the id it was asked for. -/
  kept : ∀ h ∈ s.held, (s.memory h.ce).id = some h.id
  notEvicted : ∀ ce e id, .reused ce e id ∈ s.events → e.busy = false
  /-- What was dirty when it got a new id had been saved. -/
  saved : ∀ l ce e id r, s.events = l ++ .reused ce e id :: r → e.dirty = true → .saved ce e ∈ l

variable {cfg : SSACSimplePartitionedArray} {index : κ → ℕ} {s : State τ κ δ} {t : τ}

omit [DecidableEq τ] [DecidableEq κ] in
theorem coherent_init (pd : δ) : cfg.Coherent index (init pd : State τ κ δ) where
  once := fun _ => .inl ⟨rfl, rfl⟩
  ready := by
    intro t c h
    cases h
  unique := by
    intro q a h
    cases h
  inQueue := by
    intro ce id h
    cases h
  busy := by
    intro h hh
    cases hh
  oneHolder := List.nodup_nil
  kept := by
    intro h hh
    cases hh
  notEvicted := by
    intro ce e id h
    cases h
  saved := by
    intro l ce e id r h
    simp [init] at h

namespace Coherent

section

omit [DecidableEq κ]

theorem goto (hs : cfg.Coherent index s) {p : Place κ}
    (hp : ∀ c, p = .locking c → (s.hashqs (cfg.partition (index c.id))).entries ≠ none) :
    cfg.Coherent index (s.goto t p) where
  once := hs.once
  ready := by
    intro u c hu
    by_cases hut : u = t
    · subst u
      rw [State.goto_self] at hu
      exact hp c hu
    · rw [State.goto_of_ne hut] at hu
      exact hs.ready u c hu
  unique := hs.unique
  inQueue := hs.inQueue
  busy := hs.busy
  oneHolder := hs.oneHolder
  kept := hs.kept
  notEvicted := hs.notEvicted
  saved := hs.saved

theorem goto_idle (hs : cfg.Coherent index s) : cfg.Coherent index (s.goto t .idle) :=
  hs.goto (by simp)

end

variable {ce : EntryPtr}

section

variable (hs : cfg.Coherent index s)

include hs

section

omit [DecidableEq τ] [DecidableEq κ]

theorem modify {f : CacheEntry κ δ → CacheEntry κ δ} (hid : (f (s.memory ce)).id = (s.memory ce).id)
    (hbusy : (f (s.memory ce)).busy = (s.memory ce).busy) :
    cfg.Coherent index (s.modify ce f) := by
  have hids : ∀ x, ((s.modify ce f).memory x).id = (s.memory x).id := by
    intro x
    by_cases hx : x = ce
    · subst x
      rw [State.modify_self, hid]
    · rw [State.modify_of_ne hx]
  have hbusys : ∀ x, ((s.modify ce f).memory x).busy = (s.memory x).busy := by
    intro x
    by_cases hx : x = ce
    · subst x
      rw [State.modify_self, hbusy]
    · rw [State.modify_of_ne hx]
  exact {
    once := hs.once
    ready := hs.ready
    unique := by
      intro q a ha i hi j hj id h₁ h₂
      rw [State.entries, hids] at h₁ h₂
      exact hs.unique q a ha i hi j hj id h₁ h₂
    inQueue := by
      intro x id h
      rw [hids] at h
      exact hs.inQueue x id h
    busy := by
      intro h hh
      rw [hbusys]
      exact hs.busy h hh
    oneHolder := hs.oneHolder
    kept := by
      intro h hh
      rw [hids]
      exact hs.kept h hh
    notEvicted := hs.notEvicted
    saved := hs.saved }

theorem use (ce : EntryPtr) : cfg.Coherent index (s.use ce) := by
  have hm : cfg.Coherent index (s.modify ce fun e =>
      { e with lastUsed := ((s.hashqs ce.hashq).count + 1) % 2 ^ 64 }) := hs.modify rfl rfl
  have hq : ∀ q, ((s.use ce).hashqs q).entries = (s.hashqs q).entries ∧
      ((s.use ce).hashqs q).created = (s.hashqs q).created := by
    intro q
    by_cases hq : q = ce.hashq
    · subst q
      simp [State.use]
    · simp [State.use, hq]
  exact {
    once := by
      intro q
      rw [(hq q).1, (hq q).2]
      exact hs.once q
    ready := by
      intro u c hu
      rw [(hq _).1]
      exact hs.ready u c hu
    unique := by
      intro q a ha
      rw [(hq q).1] at ha
      exact hm.unique q a ha
    inQueue := by
      intro x id h
      rw [(hq _).1]
      exact hm.inQueue x id h
    busy := hm.busy
    oneHolder := hs.oneHolder
    kept := hm.kept
    notEvicted := hs.notEvicted
    saved := hs.saved }

theorem not_held (hbusy : (s.memory ce).busy = false) :
    ∀ h ∈ s.held, h.ce ≠ ce := by
  intro h hh heq
  have := hs.busy h hh
  rw [heq, hbusy] at this
  cases this

end

omit [DecidableEq κ] in
theorem give {id : κ} (type : Gettype)
    (hbusy : (s.memory ce).busy = false) (hid : (s.memory ce).id = some id) :
    cfg.Coherent index (s.give t ce id type) := by
  cases type with
  | GETUNLOCKED => exact hs.goto_idle
  | GETLOCKED =>
    have hids : ∀ x, ((s.give t ce id .GETLOCKED).memory x).id = (s.memory x).id := by
      intro x
      by_cases hx : x = ce
      · subst x
        simp [State.give, State.modify]
      · simp [State.give, State.modify, hx]
    have hself : ((s.give t ce id .GETLOCKED).memory ce).busy = true := by
      simp [State.give, State.modify]
    have hother : ∀ x, x ≠ ce → (s.give t ce id .GETLOCKED).memory x = s.memory x := by
      intro x hx
      simp [State.give, State.modify, hx]
    exact {
      once := hs.once
      ready := (hs.goto_idle (t := t)).ready
      unique := by
        intro q a ha i hi j hj id' h₁ h₂
        rw [State.entries, hids] at h₁ h₂
        exact hs.unique q a ha i hi j hj id' h₁ h₂
      inQueue := by
        intro x id' h
        rw [hids] at h
        exact hs.inQueue x id' h
      busy := by
        intro h hh
        rcases List.mem_cons.1 hh with rfl | hh
        · exact hself
        · rw [hother _ (hs.not_held hbusy h hh)]
          exact hs.busy h hh
      oneHolder := by
        refine List.nodup_cons.2 ⟨?_, hs.oneHolder⟩
        intro hmem
        obtain ⟨h, hh, heq⟩ := List.mem_map.1 hmem
        exact hs.not_held hbusy h hh heq
      kept := by
        intro h hh
        rw [hids]
        rcases List.mem_cons.1 hh with rfl | hh
        · exact hid
        · exact hs.kept h hh
      notEvicted := hs.notEvicted
      saved := hs.saved }

end

end Coherent

omit [DecidableEq κ] in
/-- The last event of a reuse is the reuse itself; the earlier ones are not changed by
what is appended to them. -/
theorem saved_append {events : List (Event κ δ)}
    (hs : ∀ l ce e id r, events = l ++ .reused ce e id :: r → e.dirty = true → .saved ce e ∈ l)
    (ce : EntryPtr) (e : CacheEntry κ δ) (id : κ) :
    ∀ l ce' e' id' r,
      events ++ ((if e.dirty then [Event.saved ce e] else []) ++ [Event.reused ce e id]) =
        l ++ .reused ce' e' id' :: r → e'.dirty = true → .saved ce' e' ∈ l := by
  intro l ce' e' id' r heq hdirty
  rw [← List.append_assoc] at heq
  rcases List.eq_nil_or_concat r with rfl | ⟨r, x, rfl⟩
  · obtain ⟨rfl, hlast⟩ := List.append_inj' heq rfl
    cases hlast
    simp [hdirty]
  · -- the reuse looked at is an earlier one, or would be the saving before the last
    rw [List.concat_eq_append, ← List.cons_append, ← List.append_assoc] at heq
    obtain ⟨heq, -⟩ := List.append_inj' heq rfl
    cases hd : e.dirty with
    | false =>
      rw [hd] at heq
      exact hs l ce' e' id' r (by simpa using heq) hdirty
    | true =>
      rw [hd, if_pos rfl] at heq
      rcases List.eq_nil_or_concat r with rfl | ⟨r, x, rfl⟩
      · obtain ⟨-, hlast⟩ := List.append_inj' heq rfl
        cases hlast
      · rw [List.concat_eq_append, ← List.cons_append, ← List.append_assoc] at heq
        obtain ⟨heq, -⟩ := List.append_inj' heq rfl
        exact hs l ce' e' id' r heq hdirty

namespace Coherent

section

variable (hs : cfg.Coherent index s)

include hs

omit [DecidableEq τ] in
theorem reuse {a i : ℕ} {id : κ} (ha : (s.hashqs (cfg.partition (index id))).entries = some a)
    (hbusy : (s.entries (cfg.partition (index id)) a i).busy = false)
    (hsearch : search (s.entries (cfg.partition (index id)) a) id cfg.associativity = none) :
    cfg.Coherent index (s.reuse ⟨cfg.partition (index id), a, i⟩ id) := by
  generalize hq : cfg.partition (index id) = q at *
  have hself : ((s.reuse ⟨q, a, i⟩ id).memory ⟨q, a, i⟩).id = some id := by
    simp [State.reuse]
  have hother : ∀ x, x ≠ ⟨q, a, i⟩ → (s.reuse ⟨q, a, i⟩ id).memory x = s.memory x := by
    intro x hx
    simp [State.reuse, hx]
  have hnew : ∀ j < cfg.associativity,
      ((s.reuse ⟨q, a, i⟩ id).memory ⟨q, a, j⟩).id = some id → j = i := by
    intro j hj hid
    by_contra hne
    rw [hother _ (by simp [hne])] at hid
    exact search_none hsearch hj hid
  have hbusy : (s.memory ⟨q, a, i⟩).busy = false := hbusy
  exact {
    once := hs.once
    ready := hs.ready
    unique := by
      intro q' a' ha' j hj k hk id' h₁ h₂
      by_cases hid : id' = id ∧ q' = q
      · obtain ⟨rfl, rfl⟩ := hid
        have : a' = a := Option.some.inj (ha'.symm.trans ha)
        subst a'
        rw [hnew j hj h₁, hnew k hk h₂]
      · have hold : ∀ m, ((s.reuse ⟨q, a, i⟩ id).memory ⟨q', a', m⟩).id = some id' →
            (s.memory ⟨q', a', m⟩).id = some id' := by
          intro m hm
          by_cases hx : (⟨q', a', m⟩ : EntryPtr) = ⟨q, a, i⟩
          · rw [hx, hself] at hm
            cases hx
            exact absurd ⟨(Option.some.inj hm).symm, rfl⟩ hid
          · rwa [hother _ hx] at hm
        exact hs.unique q' a' ha' j hj k hk id' (hold j h₁) (hold k h₂)
    inQueue := by
      intro x id' hx
      by_cases hxe : x = ⟨q, a, i⟩
      · rw [hxe, hself] at hx
        cases hx
        rw [hxe]
        exact ⟨hq, ha⟩
      · rw [hother x hxe] at hx
        exact hs.inQueue x id' hx
    busy := by
      intro h hh
      rw [hother _ (hs.not_held hbusy h hh)]
      exact hs.busy h hh
    oneHolder := hs.oneHolder
    kept := by
      intro h hh
      rw [hother _ (hs.not_held hbusy h hh)]
      exact hs.kept h hh
    notEvicted := by
      intro ce e id' hmem
      simp only [State.reuse, List.mem_append, List.mem_singleton] at hmem
      rcases hmem with hmem | hmem | hmem
      · exact hs.notEvicted ce e id' hmem
      · split at hmem
        · simp at hmem
        · cases hmem
      · cases hmem
        exact hbusy
    saved := saved_append hs.saved _ _ _ }

omit [DecidableEq τ] [DecidableEq κ] in
theorem initq {q : ℕ × ℕ} (hq : (s.hashqs q).entries = none) :
    cfg.Coherent index (s.initq q) := by
  have hcreated : (s.hashqs q).created = 0 := by
    rcases hs.once q with ⟨-, h⟩ | ⟨h, -⟩
    · exact h
    · rw [hq] at h
      cases h
  have hother : ∀ q', q' ≠ q → (s.initq q).hashqs q' = s.hashqs q' := by
    intro q' hne
    simp [State.initq, hne]
  have hself : ((s.initq q).hashqs q).entries = some 0 ∧ ((s.initq q).hashqs q).created = 1 := by
    simp [State.initq, hcreated]
  have hnoId : ∀ ce id, (s.memory ce).id = some id → ce.hashq ≠ q := by
    intro ce id h heq
    have := (hs.inQueue ce id h).2
    rw [heq, hq] at this
    cases this
  exact {
    once := by
      intro q'
      by_cases hne : q' = q
      · rw [hne]
        exact .inr hself
      · rw [hother q' hne]
        exact hs.once q'
    ready := by
      intro u c hu
      by_cases hne : cfg.partition (index c.id) = q
      · rw [hne, hself.1]
        simp
      · rw [hother _ hne]
        exact hs.ready u c hu
    unique := by
      intro q' a ha i hi j hj id h₁ h₂
      have hne := hnoId _ _ h₁
      rw [hother q' hne] at ha
      exact hs.unique q' a ha i hi j hj id h₁ h₂
    inQueue := by
      intro ce id h
      rw [hother _ (hnoId ce id h)]
      exact hs.inQueue ce id h
    busy := hs.busy
    oneHolder := hs.oneHolder
    kept := hs.kept
    notEvicted := hs.notEvicted
    saved := hs.saved }

theorem getSection (id : κ) (type : Gettype) (pd : δ) :
    cfg.Coherent index (cfg.getSection index s t id type pd) := by
  unfold SSACSimplePartitionedArray.getSection
  dsimp only
  split
  · exact hs
  · rename_i a ha
    split
    · rename_i i hsearch
      split
      · exact hs
      · rename_i hbusy
        have hbusy : (s.memory ⟨cfg.partition (index id), a, i⟩).busy = false := by
          simpa [State.entries] using hbusy
        have hid := (search_some hsearch).2
        refine (hs.use _).give type ?_ ?_
        · simpa [State.use] using hbusy
        · simpa [State.use, State.entries] using hid
    · rename_i hsearch
      split
      · exact hs.goto_idle
      · rename_i i hlru
        obtain ⟨-, hbusy⟩ := lruentry_some hlru
        have hr := hs.reuse ha hbusy hsearch
        have hbusy : (s.memory ⟨cfg.partition (index id), a, i⟩).busy = false := hbusy
        refine ((hr.modify rfl rfl).use _).give type ?_ ?_
        · simp [State.use, State.modify, State.reuse, hbusy]
        · simp [State.use, State.modify, State.reuse]

theorem insertSection (id : κ) (hsearch : ∀ a ∈ (s.hashqs (cfg.partition (index id))).entries,
      search (s.entries (cfg.partition (index id)) a) id cfg.associativity = none) :
    cfg.Coherent index (cfg.insertSection index s t id) := by
  unfold SSACSimplePartitionedArray.insertSection
  dsimp only
  split
  · exact hs
  · rename_i a ha
    split
    · exact hs.goto_idle
    · rename_i i hlru
      exact ((hs.reuse ha (lruentry_some hlru).2 (hsearch a ha)).use _).goto_idle

omit [DecidableEq κ] in
theorem putbackAndUnlock {ce : EntryPtr} (flag : Putflag)
    (hheld : ∃ h ∈ s.held, h.thread = t ∧ h.ce = ce) :
    cfg.Coherent index (cfg.putbackAndUnlock index s t ce flag) := by
  obtain ⟨h₀, hh₀, rfl, rfl⟩ := hheld
  have hid := hs.kept h₀ hh₀
  unfold SSACSimplePartitionedArray.putbackAndUnlock
  rw [hid]
  dsimp only
  generalize (s.hashqs (cfg.partition (index h₀.id))).count = count
  generalize hf : (fun e : CacheEntry κ δ =>
    { e with lastUsed := if flag = Putflag.KEEP then count else 0, busy := false }) = f
  have hids : ∀ x, ((s.modify h₀.ce f).memory x).id = (s.memory x).id := by
    intro x
    by_cases hx : x = h₀.ce
    · rw [hx, State.modify_self, ← hf]
    · rw [State.modify_of_ne hx]
  -- the entry was in no other hands
  have hrest : ∀ h ∈ s.held.filter fun h => ¬ (h.thread = h₀.thread ∧ h.ce = h₀.ce),
      h ∈ s.held ∧ h.ce ≠ h₀.ce := by
    intro h hmem
    obtain ⟨hh, hne⟩ := List.mem_filter.1 hmem
    refine ⟨hh, fun hce => ?_⟩
    have := List.inj_on_of_nodup_map hs.oneHolder hh hh₀ hce
    simp [this] at hne
  exact {
    once := hs.once
    ready := hs.ready
    unique := by
      intro q a ha i hi j hj id h₁ h₂
      have h₁ := (hids _).symm.trans h₁
      have h₂ := (hids _).symm.trans h₂
      exact hs.unique q a ha i hi j hj id h₁ h₂
    inQueue := by
      intro x id h
      exact hs.inQueue x id ((hids x).symm.trans h)
    busy := by
      intro h hmem
      obtain ⟨hh, hne⟩ := hrest h hmem
      have hsame : (s.modify h₀.ce f).memory h.ce = s.memory h.ce := State.modify_of_ne hne
      exact (congrArg CacheEntry.busy hsame).trans (hs.busy h hh)
    oneHolder := (List.filter_sublist.map _).nodup hs.oneHolder
    kept := by
      intro h hmem
      exact (hids _).trans (hs.kept h (hrest h hmem).1)
    notEvicted := hs.notEvicted
    saved := hs.saved }

end

end Coherent

/-! ## Whole runs -/

/-- **Step.** Each step that meets the assertions keeps the cache coherent. -/
theorem Coherent.step (hs : cfg.Coherent index s) (op : Op τ κ δ) (hadm : adm s op)
    (hassert : cfg.asserts index s op) : cfg.Coherent index (cfg.step index s op) := by
  cases op with
  | call t c => exact hs.goto (by simp)
  | testEntries t =>
    rw [SSACSimplePartitionedArray.step]
    split
    · rename_i c hc
      split
      · exact hs.goto (by simp)
      · rename_i a ha
        refine hs.goto ?_
        rintro c' ⟨⟩
        rw [ha]
        simp
    · exact hs
  | initq t =>
    rw [SSACSimplePartitionedArray.step]
    split
    · rename_i c hc
      rw [asserts, hc] at hassert
      refine (hs.initq (hassert c.id rfl)).goto ?_
      rintro c' ⟨⟩
      simp [State.initq]
    · exact hs
  | hashqSection t pd =>
    rw [SSACSimplePartitionedArray.step]
    split
    · exact hs.getSection _ _ _
    · rename_i id hc
      rw [asserts, hc] at hassert
      exact hs.insertSection id (hassert id rfl)
    · exact hs
  | putbackAndUnlock t ce flag => exact hs.putbackAndUnlock flag hadm.2
  | write ce pd dirty =>
    rw [SSACSimplePartitionedArray.step]
    exact hs.modify rfl rfl

/-- In every interleaving in which the two assertions hold, whatever the number of threads,
the cache is coherent all the time. -/
theorem run_coherent (cfg : SSACSimplePartitionedArray) (index : κ → ℕ) (pd : δ)
    {ops : List (Op τ κ δ)} {s : State τ κ δ}
    (h : (cfg.assertedInterleavings index).Run (init pd) ops s) : cfg.Coherent index s := by
  refine h.invariant (I := cfg.Coherent index) (coherent_init pd) ?_
  rintro s op hs ⟨hadm, hassert⟩
  exact hs.step op hadm hassert

/-! ## Two runs -/

instance (cfg : SSACSimplePartitionedArray) (index : κ → ℕ) (s : State τ κ δ) :
    (op : Op τ κ δ) → Decidable (cfg.asserts index s op)
  | .initq _ | .hashqSection .. => inferInstanceAs (Decidable (∀ _, _ → _))
  | .call .. | .testEntries _ | .putbackAndUnlock .. | .write .. => isTrue trivial

instance (cfg : SSACSimplePartitionedArray) (index : κ → ℕ) (s : State τ κ δ) (op : Op τ κ δ) :
    Decidable ((cfg.interleavings index).adm s op) :=
  inferInstanceAs (Decidable (adm s op))

instance (cfg : SSACSimplePartitionedArray) (index : κ → ℕ) (s : State τ κ δ) (op : Op τ κ δ) :
    Decidable ((cfg.assertedInterleavings index).adm s op) :=
  inferInstanceAs (Decidable (adm s op ∧ cfg.asserts index s op))

/-- One queue with one entry. -/
def single : SSACSimplePartitionedArray := ⟨1, 1, 1, 1⟩

/-- A thread uses the queue first, and makes its entry dirty before it puts it back. -/
def dirtied : List (Op Bool ℕ ℕ) :=
  [.call false (.get 5 .GETLOCKED), .testEntries false, .initq false, .hashqSection false 50,
    .write ⟨(0, 0), 0, 0⟩ 51 true, .putbackAndUnlock false ⟨(0, 0), 0, 0⟩ .KEEP]

/-- The other thread has the entry next, for another id. -/
def evicted : List (Op Bool ℕ ℕ) :=
  dirtied ++ [.call true (.get 6 .GETLOCKED), .testEntries true, .hashqSection true 60]

theorem run_coherent_evicted :
    let s := evicted.foldl (single.step id) (init 0)
    (single.assertedInterleavings id).Run (init 0) evicted s ∧
      s.held = [⟨true, ⟨(0, 0), 0, 0⟩, 6⟩] ∧
      s.events = [.reused ⟨(0, 0), 0, 0⟩ ⟨none, false, false, 0, 0⟩ 5,
        .saved ⟨(0, 0), 0, 0⟩ ⟨some 5, false, true, 1, 51⟩,
        .reused ⟨(0, 0), 0, 0⟩ ⟨some 5, false, true, 1, 51⟩ 6] ∧
      single.Coherent id s := by
  intro s
  have hadmits : (single.assertedInterleavings id).Admits (init 0) evicted := by decide +kernel
  exact ⟨hadmits.run, by decide +kernel, by decide +kernel, run_coherent single id 0 hadmits.run⟩

/-- Both threads find that there is no array; the second creates another one while the
first holds its entry. -/
def createdTwice : List (Op Bool ℕ ℕ) :=
  [.call false (.get 5 .GETLOCKED), .testEntries false, .call true (.get 5 .GETLOCKED),
    .testEntries true, .initq false, .hashqSection false 50, .initq true, .hashqSection true 50]

/-- Both threads get the page locked at the same time, in two entries. -/
theorem coherent_createdTwice :
    let s := createdTwice.foldl (single.step id) (init 0)
    (single.interleavings id).Run (init 0) createdTwice s ∧
      (s.hashqs (0, 0)).created = 2 ∧ (s.hashqs (0, 0)).entries = some 1 ∧
      s.held = [⟨true, ⟨(0, 0), 1, 0⟩, 5⟩, ⟨false, ⟨(0, 0), 0, 0⟩, 5⟩] ∧
      ¬ single.Coherent id s := by
  intro s
  have hadmits : (single.interleavings id).Admits (init 0) createdTwice := by decide +kernel
  have hcreated : (s.hashqs (0, 0)).created = 2 := by decide +kernel
  refine ⟨hadmits.run, hcreated, by decide +kernel, by decide +kernel, fun hs => ?_⟩
  rcases hs.once (0, 0) with ⟨-, h⟩ | ⟨-, h⟩ <;> simp [hcreated] at h

end SSACSimplePartitionedArray

end K42
