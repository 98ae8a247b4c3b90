import K42.Lib.Run
import K42.Lib.Threads
import Mathlib.Tactic.Linarith

/-!
# The reader-writer lock

`TmpRWLock` counts its readers in `readers`, which is -1 while a writer is in, and keeps the
threads that wait, of both kinds, on one list. A thread waits on its own `id` until another
one clears it. A reader that has been told to go on starts over; a writer is given the
internal lock itself, which stays held until that writer has set `readers` to -1.

A section under the internal lock is one step. Each test of `id`, and each `Block`, is a step
too, and `Block` may return at any time. `readers` is never below -1 and never above the
number of threads, so it does not leave its 32 bits.
-/

open Function (update update_cases update_cases₂ update_of_ne update_self update_eq_self)
open List (mem_cons_self mem_append_right map_cons map_append mem_map count_append)

namespace K42

open Threads

inductive TmpRWLock.LockerType
  | reader
  | writer
deriving DecidableEq

/-- Where a thread is. `acquireR` and the other names of calls stand at `lock.acquire()`. -/
inductive TmpRWLock.Pc
  | idle
  | acquireR
  | reading
  | releaseR
  | acquireW
  | writing
  | upgrade
  | downgrade
  | releaseW
  | tryAcquireW
  | tryUpgrade
  | test (type : TmpRWLock.LockerType)       -- `while (id != Scheduler::NullThreadID)`
  | blocking (type : TmpRWLock.LockerType)
  | blocked (type : TmpRWLock.LockerType)
  | handed                                   -- the writer has been given the lock
deriving DecidableEq

/-- The lock, and what has happened to each thread: `queued` counts how often it was put on
the list, `unblocked` the calls of `Unblock` for it. `failed` says that an assertion has
failed. A thread stands for the address of its `id`. -/
structure TmpRWLock (τ : Type) where
  lock : Option τ
  readers : ℤ
  waiters : List (TmpRWLock.LockerType × τ)
  id : τ → Option τ
  wasUnblocked : τ → Bool
  pc : τ → TmpRWLock.Pc
  queued : τ → ℕ
  unblocked : τ → ℕ
  failed : Bool

namespace TmpRWLock

variable {τ : Type} [DecidableEq τ]

def init : TmpRWLock τ where
  lock := none
  readers := 0
  waiters := []
  id := fun _ => none
  wasUnblocked := fun _ => false
  pc := fun _ => .idle
  queued := fun _ => 0
  unblocked := fun _ => 0
  failed := false

def goto (s : TmpRWLock τ) (t : τ) (p : Pc) : TmpRWLock τ :=
  { s with pc := update s.pc t p }

def tassert (s : TmpRWLock τ) (c : Prop) [Decidable c] : TmpRWLock τ :=
  { s with failed := s.failed || !decide c }

def setId (s : TmpRWLock τ) (t : τ) : TmpRWLock τ :=
  { s with id := update s.id t (some t) }

/-! ## The list of waiters -/

def find (type : LockerType) (l : List (LockerType × τ)) : Bool :=
  l.any fun e => e.1 = type

/-- The first entry of the type, and the list without it. -/
def remove (type : LockerType) : List (LockerType × τ) → Option (τ × List (LockerType × τ))
  | [] => none
  | e :: l =>
    if e.1 = type then some (e.2, l)
    else (remove type l).map fun found => (found.1, e :: found.2)

/-- `waiters.addToEndOfList`, before the wait loop. -/
def addToEndOfList (s : TmpRWLock τ) (type : LockerType) (t : τ) : TmpRWLock τ :=
  { s with
    waiters := s.waiters ++ [(type, t)]
    queued := update s.queued t (s.queued t + 1) }.goto t (.test type)

def Pc.woken : Pc → Pc
  | .blocked type => .test type
  | p => p

/-- `Scheduler::Unblock`: a thread that is not blocked will not block the next time. -/
def unblock (s : TmpRWLock τ) (t : τ) : TmpRWLock τ :=
  { s with
    pc := update s.pc t (s.pc t).woken
    wasUnblocked := update s.wasUnblocked t (s.wasUnblocked t || s.pc t = (s.pc t).woken)
    unblocked := update s.unblocked t (s.unblocked t + 1) }

/-- The `id` of a waiter is read, cleared and unblocked. -/
def wake (s : TmpRWLock τ) (w : τ) : TmpRWLock τ :=
  match s.id w with
  | none => s
  | some id => { s with id := update s.id w none }.unblock id

/-- `while (waiters.remove(Reader, threadIDp))`, for at most `n` turns. -/
def wakeReaders : ℕ → TmpRWLock τ → TmpRWLock τ
  | 0, s => s
  | n + 1, s =>
    match remove .reader s.waiters with
    | none => s
    | some (w, rest) => wakeReaders n ({ s with waiters := rest }.wake w)

/-- `while (waiters.removeHead(dummy, threadIDp))`, for at most `n` turns. -/
def wakeAll : ℕ → TmpRWLock τ → TmpRWLock τ
  | 0, s => s
  | n + 1, s =>
    match s.waiters with
    | [] => s
    | e :: rest => wakeAll n ({ s with waiters := rest }.wake e.2)

/-- The waiter is woken and the lock is not released: it is the waiter's now. -/
def handOff (s : TmpRWLock τ) (w : τ) (rest : List (LockerType × τ)) : TmpRWLock τ :=
  { { s with waiters := rest }.wake w with lock := some w }

/-! ## The sections -/

def sectionAcquireR (s : TmpRWLock τ) (t : τ) : TmpRWLock τ :=
  if s.readers < 0 ∨ find .writer s.waiters then (s.setId t).addToEndOfList .reader t
  else { s.setId t with readers := s.readers + 1 }.goto t .reading

def sectionReleaseR (s : TmpRWLock τ) (t : τ) : TmpRWLock τ :=
  let s' := { s.tassert (s.readers > 0) with readers := s.readers - 1 }.goto t .idle
  if s.readers - 1 = 0 then
    match s.waiters with
    | [] => s'
    | e :: rest => (s'.tassert (e.1 = .writer)).handOff e.2 rest
  else s'

def sectionAcquireW (s : TmpRWLock τ) (t : τ) : TmpRWLock τ :=
  if s.readers ≠ 0 then (s.setId t).addToEndOfList .writer t
  else { s.setId t with readers := -1 }.goto t .writing

def sectionUpgrade (s : TmpRWLock τ) (t : τ) : TmpRWLock τ :=
  let s' := { s.tassert (s.readers > 0) with readers := s.readers - 1 }
  if s.readers - 1 ≠ 0 then s'.addToEndOfList .writer t
  else { s' with readers := -1 }.goto t .writing

def sectionDowngrade (s : TmpRWLock τ) (t : τ) : TmpRWLock τ :=
  wakeReaders s.waiters.length
    ({ s.tassert (s.readers = -1) with readers := 1 }.goto t .reading)

def sectionReleaseW (s : TmpRWLock τ) (t : τ) : TmpRWLock τ :=
  let s' := { s.tassert (s.readers = -1) with readers := 0 }.goto t .idle
  match remove .writer s.waiters with
  | some (w, rest) => s'.handOff w rest
  | none => wakeAll s.waiters.length s'

def sectionTryAcquireW (s : TmpRWLock τ) (t : τ) : TmpRWLock τ :=
  if s.readers = 0 then { s with readers := -1 }.goto t .writing else s.goto t .idle

def sectionTryUpgrade (s : TmpRWLock τ) (t : τ) : TmpRWLock τ :=
  let s' := s.tassert (s.readers > 0)
  if s.readers ≠ 1 then s'.goto t .reading else { s' with readers := -1 }.goto t .writing

/-- The wait loop has found `id` cleared. -/
def LockerType.resume : LockerType → Pc
  | .reader => .acquireR                     -- `goto reset`
  | .writer => .handed

def testId (s : TmpRWLock τ) (t : τ) (type : LockerType) : TmpRWLock τ :=
  if s.id t = none then s.goto t type.resume else s.goto t (.blocking type)

def block (s : TmpRWLock τ) (t : τ) (type : LockerType) : TmpRWLock τ :=
  if s.wasUnblocked t then
    { s with wasUnblocked := update s.wasUnblocked t false }.goto t (.test type)
  else s.goto t (.blocked type)

/-- `readers = -1; lock.release()`, by a writer that has been given the lock. -/
def setWriter (s : TmpRWLock τ) (t : τ) : TmpRWLock τ :=
  { s with readers := -1, lock := none }.goto t .writing

/-- A section begins when the lock is free. -/
def locked (s s' : TmpRWLock τ) : TmpRWLock τ := if s.lock = none then s' else s

/-- The next step of a thread that is in the middle of a call. -/
def advance (s : TmpRWLock τ) (t : τ) : TmpRWLock τ :=
  match s.pc t with
  | .idle => s
  | .reading => s
  | .writing => s
  | .acquireR => s.locked (s.sectionAcquireR t)
  | .releaseR => s.locked (s.sectionReleaseR t)
  | .acquireW => s.locked (s.sectionAcquireW t)
  | .upgrade => s.locked (s.sectionUpgrade t)
  | .downgrade => s.locked (s.sectionDowngrade t)
  | .releaseW => s.locked (s.sectionReleaseW t)
  | .tryAcquireW => s.locked (s.sectionTryAcquireW t)
  | .tryUpgrade => s.locked (s.sectionTryUpgrade t)
  | .test type => s.testId t type
  | .blocking type => s.block t type
  | .blocked _ => s
  | .handed => s.setWriter t

/-! ## Interleavings -/

inductive Action (τ : Type)
  | acquireR (t : τ)
  | releaseR (t : τ)
  | acquireW (t : τ)
  | releaseW (t : τ)
  | upgrade (t : τ)
  | downgrade (t : τ)
  | tryAcquireW (t : τ)
  | tryUpgrade (t : τ)
  | advance (t : τ)
  | wakeup (t : τ)          -- `Block` returns without an `Unblock`

/-- `Block` returns. -/
def wakeup (s : TmpRWLock τ) (t : τ) : TmpRWLock τ :=
  match s.pc t with
  | .blocking type => s.goto t (.test type)
  | .blocked type => s.goto t (.test type)
  | _ => s

def step (s : TmpRWLock τ) : Action τ → TmpRWLock τ
  | .acquireR t => s.goto t .acquireR
  | .releaseR t => s.goto t .releaseR
  | .acquireW t => s.goto t .acquireW
  | .releaseW t => s.goto t .releaseW
  | .upgrade t => (s.setId t).goto t .upgrade
  | .downgrade t => s.goto t .downgrade
  | .tryAcquireW t => s.goto t .tryAcquireW
  | .tryUpgrade t => s.goto t .tryUpgrade
  | .advance t => s.advance t
  | .wakeup t => s.wakeup t

/-- A thread makes one call at a time: it asks for the lock when it does not have it, and
releases, upgrades or downgrades what it has. -/
def adm (s : TmpRWLock τ) : Action τ → Prop
  | .acquireR t | .acquireW t | .tryAcquireW t => s.pc t = .idle
  | .releaseR t | .upgrade t | .tryUpgrade t => s.pc t = .reading
  | .releaseW t | .downgrade t => s.pc t = .writing
  | .advance _ | .wakeup _ => True

def interleavings : Machine (TmpRWLock τ) (Action τ) := ⟨step, adm⟩

instance (s : TmpRWLock τ) : ∀ a, Decidable (interleavings.adm s a)
  | .acquireR _ | .acquireW _ | .tryAcquireW _ | .releaseR _ | .upgrade _ | .tryUpgrade _
  | .releaseW _ | .downgrade _ => inferInstanceAs (Decidable (_ = _))
  | .advance _ | .wakeup _ => isTrue trivial

/-- The thread has the lock as a reader. -/
def Pc.Reads : Pc → Prop
  | .reading | .releaseR | .upgrade | .tryUpgrade => True
  | _ => False

/-- The thread has the lock as a writer. -/
def Pc.Writes : Pc → Prop
  | .writing | .downgrade | .releaseW => True
  | _ => False

/-- The thread has put itself on the list and has not gone on. -/
def Pc.Waits (type : LockerType) : Pc → Prop
  | .test type' | .blocking type' | .blocked type' => type' = type
  | _ => False

instance : DecidablePred Pc.Reads := fun p => by
  cases p <;> first | exact isTrue trivial | exact isFalse nofun

instance : DecidablePred Pc.Writes := fun p => by
  cases p <;> first | exact isTrue trivial | exact isFalse nofun

/-- What the lock is for. Every time a thread was put on the list it is still there, or it
has been unblocked once. -/
structure Excludes [Fintype τ] (s : TmpRWLock τ) : Prop where
  alone : ∀ t, (s.pc t).Writes → ∀ u, ¬ (s.pc u).Reads ∧ ((s.pc u).Writes → u = t)
  drained : s.lock = none → s.readers = 0 → s.waiters = []
  head : 0 < s.readers → ∀ e ∈ s.waiters.head?, e.1 = .writer
  asserts : s.failed = false
  once : ∀ t, s.queued t = s.unblocked t + (s.waiters.map Prod.snd).count t
  distinct : (s.waiters.map Prod.snd).Nodup
  readers_le : s.readers ≤ Fintype.card τ
  readers_ge : -1 ≤ s.readers

/-! ## The list -/

section List

variable {type : LockerType} {l rest : List (LockerType × τ)} {w : τ}

section

omit [DecidableEq τ]

theorem remove_some (h : remove type l = some (w, rest)) :
    ∃ pre post, l = pre ++ (type, w) :: post ∧ rest = pre ++ post := by
  induction l generalizing rest with
  | nil => cases h
  | cons e l ih =>
    unfold remove at h
    by_cases he : e.1 = type
    · rw [if_pos he] at h
      cases h
      subst he
      exact ⟨[], l, rfl, rfl⟩
    · rw [if_neg he, Option.map_eq_some_iff] at h
      obtain ⟨found, hfound, heq⟩ := h
      cases heq
      obtain ⟨pre, post, hl, hrest⟩ := ih hfound
      refine ⟨e :: pre, post, congrArg (e :: ·) hl, congrArg (e :: ·) hrest⟩

theorem remove_none (h : remove type l = none) : ∀ e ∈ l, e.1 ≠ type := by
  induction l with
  | nil => exact nofun
  | cons e l ih =>
    unfold remove at h
    by_cases he : e.1 = type
    · rw [if_pos he] at h
      cases h
    · rw [if_neg he, Option.map_eq_none_iff] at h
      exact List.forall_mem_cons.2 ⟨he, ih h⟩

theorem remove_length (h : remove type l = some (w, rest)) : rest.length + 1 = l.length := by
  obtain ⟨pre, post, rfl, rfl⟩ := remove_some h
  simp only [List.length_append, List.length_cons]
  omega

theorem find_eq_false : find type l = false ↔ ∀ e ∈ l, e.1 ≠ type := by
  rw [find, List.any_eq_false]
  simp only [decide_eq_true_eq, ne_eq]

end

end List

/-! ## The invariant -/

section

variable {waiters pre post : List (LockerType × τ)} {type : LockerType} {pc : τ → Pc}
variable {id : τ → Option τ} {queued unblocked : τ → ℕ} {t u w : τ} {p q : Pc}

/-- Who is on the list waits and has not been told to go on. `upgrade` sets its `id` before it
acquires the lock. -/
structure Queue (waiters : List (LockerType × τ)) (pc : τ → Pc) (id : τ → Option τ)
    (queued unblocked : τ → ℕ) : Prop where
  mem : ∀ type t, (type, t) ∈ waiters ↔ (pc t).Waits type ∧ id t = some t
  distinct : (waiters.map Prod.snd).Nodup
  own : ∀ t, id t = none ∨ id t = some t
  once : ∀ t, queued t = unblocked t + (waiters.map Prod.snd).count t
  named : ∀ t, pc t = .upgrade → id t = some t

theorem Queue.init :
    Queue (τ := τ) [] (fun _ => .idle) (fun _ => none) (fun _ => 0) (fun _ => 0) where
  mem _ _ := iff_of_false nofun fun h => h.1
  distinct := List.nodup_nil
  own _ := .inl rfl
  once _ := rfl
  named _ := nofun

section

variable (h : Queue waiters pc id queued unblocked)

include h

theorem Queue.not_mem
    (ht : ∀ type, ¬ ((pc t).Waits type ∧ id t = some t)) : t ∉ waiters.map Prod.snd := by
  intro hmem
  obtain ⟨e, he, rfl⟩ := mem_map.1 hmem
  exact ht e.1 ((h.mem e.1 e.2).1 he)

theorem Queue.move {i : Option τ}
    (ht : ∀ type, ¬ ((pc t).Waits type ∧ id t = some t)) (hp : ∀ type, ¬ p.Waits type)
    (hi : i = none ∨ i = some t) (hnamed : p = .upgrade → i = some t) :
    Queue waiters (update pc t p) (update id t i) queued unblocked where
  mem type u := by
    refine update_cases₂ (iff_of_false (fun hmem => ?_) fun hw => hp type hw.1)
      (fun u _ => h.mem type u) u
    exact ht type ((h.mem type t).1 hmem)
  distinct := h.distinct
  own := update_cases hi (fun u _ => h.own u)
  once := h.once
  named := update_cases₂ hnamed (fun u _ => h.named u)

theorem Queue.wait (hp : ∀ type, (pc t).Waits type ↔ p.Waits type) (hnamed : p ≠ .upgrade) :
    Queue waiters (update pc t p) id queued unblocked where
  mem type := by
    refine update_cases ?_ (fun u _ => h.mem type u)
    rw [← hp]
    exact h.mem type t
  distinct := h.distinct
  own := h.own
  once := h.once
  named := update_cases (fun heq => absurd heq hnamed) (fun u _ => h.named u)

theorem Queue.push (ht : ∀ type, ¬ ((pc t).Waits type ∧ id t = some t)) :
    Queue (waiters ++ [(type, t)]) (update pc t (.test type))
      (update id t (some t)) (update queued t (queued t + 1)) unblocked where
  mem type' u := by
    rw [List.mem_append, List.mem_singleton, Prod.mk.injEq]
    by_cases hu : u = t
    · subst u
      rw [update_self, update_self]
      constructor
      · rintro (hmem | ⟨rfl, -⟩)
        · exact absurd ((h.mem type' t).1 hmem) (ht type')
        · exact ⟨rfl, rfl⟩
      · rintro ⟨htype, -⟩
        exact .inr ⟨htype.symm, rfl⟩
    · rw [update_of_ne hu, update_of_ne hu, ← h.mem type' u]
      exact or_iff_left fun heq => hu heq.2
  distinct := by
    rw [map_append, List.map_singleton]
    exact h.distinct.append (List.nodup_singleton t)
      (List.disjoint_singleton.2 (h.not_mem ht))
  own := update_cases (.inr rfl) (fun u _ => h.own u)
  once u := by
    rw [map_append, List.map_singleton, count_append, ← Nat.add_assoc, ← h.once u]
    refine update_cases (by rw [List.count_singleton_self]) (fun u hu => ?_) u
    exact (Nat.add_eq_left.2 (List.count_eq_zero.2 fun hmem => hu (List.mem_singleton.1 hmem))).symm
  named := update_cases₂ (fun _ => rfl) (fun u _ => h.named u)

end

/-- **A waiter leaves the list and is unblocked once.** -/
theorem Queue.pop (h : Queue (pre ++ (type, w) :: post) pc id queued unblocked) :
    Queue (pre ++ post) (update pc w (pc w).woken) (update id w none) queued
      (update unblocked w (unblocked w + 1)) := by
  have hdistinct := h.distinct
  rw [map_append, map_cons, List.nodup_middle, List.nodup_cons, ← map_append] at hdistinct
  obtain ⟨hnot, hnodup⟩ := hdistinct
  have hwaits := ((h.mem type w).1 (mem_append_right _ mem_cons_self)).1
  refine ⟨fun type' u => ?_, hnodup, fun u => ?_, fun u => ?_, fun u => ?_⟩
  · by_cases hu : u = w
    · subst u
      rw [update_self, update_self]
      refine iff_of_false (fun hmem => hnot ?_) fun hw => nomatch hw.2
      exact mem_map.2 ⟨_, hmem, rfl⟩
    · rw [update_of_ne hu, update_of_ne hu, ← h.mem type' u]
      simp only [List.mem_append, List.mem_cons, Prod.mk.injEq, hu, and_false, false_or]
  · exact update_cases (.inl rfl) (fun u _ => h.own u) u
  · have honce := h.once u
    rw [map_append, map_cons, count_append, List.count_cons] at honce
    rw [map_append, count_append]
    by_cases hu : u = w
    · subst u
      rw [if_pos (beq_self_eq_true w)] at honce
      rw [update_self]
      omega
    · rw [if_neg (by simpa using Ne.symm hu)] at honce
      rw [update_of_ne hu]
      omega
  · by_cases hu : u = w
    · subst u
      rw [update_self]
      cases hpc : pc w <;> rw [hpc] at hwaits <;> first | exact hwaits.elim | exact nofun
    · rw [update_of_ne hu, update_of_ne hu]
      exact h.named u

/-! ### The counter and the lock -/

variable [Fintype τ]

/-- `readers` counts the readers, or says that a writer is in. -/
def Counted (readers : ℤ) (pc : τ → Pc) : Prop :=
  readers = census Pc.Reads pc ∧ census Pc.Writes pc = 0 ∨
    readers = -1 ∧ census Pc.Reads pc = 0 ∧ census Pc.Writes pc = 1

/-- The thread has been given the lock. -/
def Given (i : Option τ) : Pc → Prop
  | .test .writer | .blocking .writer | .blocked .writer => i = none
  | .handed => True
  | _ => False

/-- Nobody is stranded on the list. -/
def Order (lock : Option τ) (readers : ℤ) (waiters : List (LockerType × τ)) : Prop :=
  (lock = none → readers = 0 → waiters = []) ∧
    (0 < readers → ∀ e ∈ waiters.head?, e.1 = .writer)

/-- What a section may rely on while it changes the list. -/
structure Core (s : TmpRWLock τ) : Prop where
  counted : Counted s.readers s.pc
  owner : ∀ t, Given (s.id t) (s.pc t) ↔ s.lock = some t
  handing : s.lock ≠ none → s.readers = 0
  queue : Queue s.waiters s.pc s.id s.queued s.unblocked
  asserts : s.failed = false

structure Inv (s : TmpRWLock τ) : Prop where
  core : Core s
  order : Order s.lock s.readers s.waiters

variable {s : TmpRWLock τ} {readers readers' : ℤ}

theorem inv_init : Inv (init : TmpRWLock τ) where
  core := by
    refine ⟨.inl ⟨?_, census_eq_zero.2 fun _ => nofun⟩, fun _ => iff_of_false nofun nofun,
      fun _ => rfl, Queue.init, rfl⟩
    have hreads : census Pc.Reads (init : TmpRWLock τ).pc = 0 := census_eq_zero.2 fun _ => nofun
    rw [hreads]
    rfl
  order := ⟨fun _ _ => rfl, nofun⟩

section

variable (h : Counted readers pc)

include h

theorem Counted.stay (hr : (pc t).Reads ↔ p.Reads)
    (hw : (pc t).Writes ↔ p.Writes) : Counted readers (update pc t p) := by
  rw [Counted, census_stay hr, census_stay hw]
  exact h

theorem Counted.woken (w : τ) :
    Counted readers (update pc w (pc w).woken) := by
  refine h.stay ?_ ?_
  · cases pc w <;> exact Iff.rfl
  · cases pc w <;> exact Iff.rfl

section

omit [DecidableEq τ]

theorem Counted.reads (hr : 0 ≤ readers) :
    readers = census Pc.Reads pc ∧ census Pc.Writes pc = 0 := by
  rcases h with h | ⟨hneg, -⟩
  · exact h
  · omega

theorem Counted.reader (ht : (pc t).Reads) : 0 < readers := by
  have hpos := census_pos ht
  rcases h with ⟨heq, -⟩ | ⟨-, hzero, -⟩
  · omega
  · omega

theorem Counted.writer (ht : (pc t).Writes) :
    readers = -1 ∧ census Pc.Reads pc = 0 ∧ census Pc.Writes pc = 1 := by
  have hpos := census_pos ht
  rcases h with ⟨-, hzero⟩ | h
  · omega
  · exact h

end

theorem Counted.enter (hge : 0 ≤ readers) (ht : ¬ (pc t).Reads)
    (ht' : ¬ (pc t).Writes) (hp : p.Reads) (hp' : ¬ p.Writes) :
    Counted (readers + 1) (update pc t p) := by
  obtain ⟨hreads, hwrites⟩ := h.reads hge
  left
  rw [census_enter ht hp, census_stay (iff_of_false ht' hp'), hreads]
  exact ⟨rfl, hwrites⟩

theorem Counted.leave (ht : (pc t).Reads) (ht' : ¬ (pc t).Writes)
    (hp : ¬ p.Reads) (hp' : ¬ p.Writes) :
    Counted (readers - 1) (update pc t p) := by
  obtain ⟨hreads, hwrites⟩ := h.reads (h.reader ht).le
  have hleave := census_leave ht hp
  left
  rw [census_stay (iff_of_false ht' hp')]
  exact ⟨by omega, hwrites⟩

end

theorem Counted.write (h : Counted 0 pc) (ht : ¬ (pc t).Writes) (hp : p.Writes)
    (hp' : ¬ p.Reads) : Counted (-1) (update pc t p) := by
  obtain ⟨hreads, hwrites⟩ := h.reads le_rfl
  have hnone : ¬ (pc t).Reads := census_eq_zero.1 (by omega) t
  right
  rw [census_stay (iff_of_false hnone hp'), census_enter ht hp, hwrites]
  exact ⟨rfl, by omega, rfl⟩

theorem Counted.upgrade (h : Counted 1 pc) (ht : (pc t).Reads) (ht' : ¬ (pc t).Writes)
    (hp : p.Writes) (hp' : ¬ p.Reads) : Counted (-1) (update pc t p) := by
  obtain ⟨hreads, hwrites⟩ := h.reads zero_le_one
  have hleave := census_leave ht hp'
  right
  rw [census_enter ht' hp, hwrites]
  exact ⟨rfl, by omega, rfl⟩

theorem Counted.unwrite (h : Counted readers pc) (ht : (pc t).Writes) (hp : ¬ p.Writes)
    (hr : readers' = (if p.Reads then 1 else 0 : ℤ)) :
    Counted readers' (update pc t p) := by
  obtain ⟨-, hreads, hwrites⟩ := h.writer ht
  have hleave := census_leave ht hp
  have hnot : ¬ (pc t).Reads := census_eq_zero.1 hreads t
  left
  subst hr
  refine ⟨?_, by omega⟩
  by_cases hp' : p.Reads
  · rw [if_pos hp', census_enter hnot hp', hreads]
    rfl
  · rw [if_neg hp', census_stay (iff_of_false hnot hp'), hreads]
    rfl

omit [DecidableEq τ] in
theorem Counted.alone (h : Counted readers pc) (ht : (pc t).Writes) (u : τ) :
    ¬ (pc u).Reads ∧ ((pc u).Writes → u = t) := by
  obtain ⟨-, hreads, hwrites⟩ := h.writer ht
  refine ⟨census_eq_zero.1 hreads u, fun hu => ?_⟩
  exact Finset.card_le_one.1 hwrites.le u (mem_those.2 hu) t (mem_those.2 ht)

/-! ## Steps on the core -/

omit [Fintype τ] in
theorem owner_update {lock : Option τ} {i : Option τ}
    (h : ∀ u, Given (id u) (pc u) ↔ lock = some u) (hp : Given i p ↔ Given (id t) (pc t)) (u : τ) :
    Given (update id t i u) (update pc t p u) ↔ lock = some u := by
  exact update_cases₂ (hp.trans (h t)) (fun u _ => h u) u

/-- Places outside of the wait loop. -/
def Pc.Active : Pc → Prop
  | .test _ | .blocking _ | .blocked _ | .handed => False
  | _ => True

theorem Pc.Active.waits (h : p.Active) : ¬ p.Waits type := by
  cases p <;> first | exact h.elim | exact nofun

omit [DecidableEq τ] [Fintype τ] in
theorem Pc.Active.given (h : p.Active) (i : Option τ) : ¬ Given i p := by
  cases p <;> first | exact h.elim | exact nofun

theorem Core.move (h : Core s) {i : Option τ} (hpc : s.pc t = q) (hq : q.Active)
    (hp : p.Active) (hi : i = none ∨ i = some t) (hnamed : p = .upgrade → i = some t)
    (hcounted : Counted readers (update s.pc t p)) (hhanding : s.lock ≠ none → readers = 0) :
    Core { s with
      readers := readers, id := update s.id t i, pc := update s.pc t p } := by
  subst q
  refine ⟨hcounted, owner_update h.owner ?_, hhanding,
    h.queue.move ?_ (fun _ => hp.waits) hi hnamed, h.asserts⟩
  · exact iff_of_false (hp.given i) (hq.given (s.id t))
  · exact fun type hw => hq.waits hw.1

theorem Core.go (h : Core s) (hpc : s.pc t = q) (hq : q.Active) (hp : p.Active)
    (hnamed : p ≠ .upgrade) (hcounted : Counted readers (update s.pc t p))
    (hhanding : s.lock ≠ none → readers = 0) :
    Core { s with readers := readers, pc := update s.pc t p } := by
  have hmove := h.move hpc hq hp (h.queue.own t) (fun heq => absurd heq hnamed) hcounted hhanding
  rwa [update_eq_self] at hmove

theorem Core.enqueue (h : Core s) (hpc : s.pc t = q) (hq : q.Active)
    (hcounted : Counted readers (update s.pc t (.test type)))
    (hhanding : s.lock ≠ none → readers = 0) :
    Core ({ s.setId t with readers := readers }.addToEndOfList type t) := by
  subst q
  refine ⟨hcounted, owner_update h.owner ?_, hhanding, h.queue.push ?_, h.asserts⟩
  · refine iff_of_false (fun hgiven => ?_) (hq.given (s.id t))
    cases type with
    | reader => exact hgiven
    | writer => cases hgiven
  · exact fun type hw => hq.waits hw.1

omit [DecidableEq τ] [Fintype τ] in
theorem tassert_of {c : Prop} [Decidable c] (hc : c) : s.tassert c = s := by
  unfold tassert
  rw [decide_eq_true hc, Bool.not_true, Bool.or_false]

omit [Fintype τ] in
theorem wake_eq (h : s.id w = some w) : s.wake w = { s with
      pc := update s.pc w (s.pc w).woken
      id := update s.id w none
      wasUnblocked := update s.wasUnblocked w (s.wasUnblocked w || s.pc w = (s.pc w).woken)
      unblocked := update s.unblocked w (s.unblocked w + 1) } := by
  unfold wake
  rw [h]
  rfl

theorem Core.wakeReader (h : Core s) (hwaiters : s.waiters = pre ++ (.reader, w) :: post) :
    Core ({ s with waiters := pre ++ post }.wake w) := by
  have hqueue := h.queue
  rw [hwaiters] at hqueue
  have hmem := (hqueue.mem .reader w).1 (mem_append_right _ mem_cons_self)
  have heq := wake_eq (s := { s with waiters := pre ++ post }) hmem.2
  rw [heq]
  refine ⟨h.counted.woken w, owner_update h.owner ?_, h.handing, hqueue.pop, h.asserts⟩
  have hwaits := hmem.1
  -- a reader that waits is not given the lock
  cases hpc : s.pc w <;> rw [hpc] at hwaits <;> try exact hwaits.elim
  all_goals
    cases hwaits
    exact Iff.rfl

/-- **Hand-off.** A writer leaves the list and is given the lock. -/
theorem Core.handOff (h : Core s) (hlock : s.lock = none) (hreaders : s.readers = 0)
    (hwaiters : s.waiters = pre ++ (.writer, w) :: post) : Core (s.handOff w (pre ++ post)) := by
  have hqueue := h.queue
  rw [hwaiters] at hqueue
  have hmem := (hqueue.mem .writer w).1 (mem_append_right _ mem_cons_self)
  have heq := wake_eq (s := { s with waiters := pre ++ post }) hmem.2
  unfold TmpRWLock.handOff
  rw [heq]
  refine ⟨h.counted.woken w, fun u => ?_, fun _ => hreaders, hqueue.pop, h.asserts⟩
  by_cases hu : u = w
  · subst u
    change Given (update s.id w none w) (update s.pc w _ w) ↔ _
    rw [update_self, update_self]
    have hwaits := hmem.1
    refine iff_of_true ?_ rfl
    cases hpc : s.pc w <;> rw [hpc] at hwaits <;> try exact hwaits.elim
    all_goals
      cases hwaits
      rfl
  · change Given (update s.id w none u) (update s.pc w _ u) ↔ _
    rw [update_of_ne hu, update_of_ne hu, h.owner u, hlock]
    refine iff_of_false nofun ?_
    exact fun hsome => hu (Option.some.inj hsome).symm

/-! ### The loops -/

theorem Core.wakeReaders (h : Core s) {n : ℕ} (hn : s.waiters.length ≤ n) :
    Core (s.wakeReaders n) ∧ (s.wakeReaders n).lock = s.lock ∧
      (s.wakeReaders n).readers = s.readers ∧ ∀ e ∈ (s.wakeReaders n).waiters, e.1 = .writer := by
  have hstop : ∀ {l : List (LockerType × τ)}, (∀ e ∈ l, e.1 ≠ .reader) →
      ∀ e ∈ l, e.1 = .writer := by
    intro l hl e he
    cases htype : e.1 with
    | reader => exact absurd htype (hl e he)
    | writer => rfl
  induction n generalizing s with
  | zero =>
    have hnil : s.waiters = [] := List.eq_nil_of_length_eq_zero (Nat.le_zero.1 hn)
    refine ⟨h, rfl, rfl, ?_⟩
    change ∀ e ∈ s.waiters, e.1 = .writer
    rw [hnil]
    exact nofun
  | succ n ih =>
    cases hremove : remove .reader s.waiters with
    | none =>
      rw [TmpRWLock.wakeReaders, hremove]
      exact ⟨h, rfl, rfl, hstop (remove_none hremove)⟩
    | some found =>
      obtain ⟨w, rest⟩ := found
      have hlength := remove_length hremove
      obtain ⟨pre, post, hwaiters, rfl⟩ := remove_some hremove
      have hid := (h.queue.mem .reader w).1
        (hwaiters ▸ mem_append_right _ mem_cons_self)
      have heq := wake_eq (s := { s with waiters := pre ++ post }) hid.2
      have hwake := h.wakeReader hwaiters
      rw [TmpRWLock.wakeReaders, hremove]
      simp only
      rw [heq] at hwake ⊢
      exact ih hwake (by change (pre ++ post).length ≤ n; omega)

theorem Core.wakeAll (h : Core s) (hreaders : ∀ e ∈ s.waiters, e.1 ≠ .writer) {n : ℕ}
    (hn : s.waiters.length ≤ n) :
    Core (s.wakeAll n) ∧ (s.wakeAll n).lock = s.lock ∧ (s.wakeAll n).readers = s.readers ∧
      (s.wakeAll n).waiters = [] := by
  induction n generalizing s with
  | zero => exact ⟨h, rfl, rfl, List.eq_nil_of_length_eq_zero (Nat.le_zero.1 hn)⟩
  | succ n ih =>
    cases hwaiters : s.waiters with
    | nil =>
      rw [TmpRWLock.wakeAll, hwaiters]
      exact ⟨h, rfl, rfl, hwaiters⟩
    | cons e rest =>
      obtain ⟨type, w⟩ := e
      rw [hwaiters] at hreaders hn
      have htype : type = .reader := by
        cases type with
        | reader => rfl
        | writer => exact absurd rfl (hreaders _ mem_cons_self)
      subst htype
      have hid := (h.queue.mem .reader w).1 (hwaiters ▸ mem_cons_self)
      have heq := wake_eq (s := { s with waiters := rest }) hid.2
      have hwaiters' : s.waiters = [] ++ (.reader, w) :: rest := hwaiters
      have hwake := h.wakeReader hwaiters'
      rw [List.nil_append] at hwake
      rw [TmpRWLock.wakeAll, hwaiters]
      simp only
      rw [heq] at hwake ⊢
      exact ih hwake (fun e he => hreaders e (List.mem_cons_of_mem _ he))
        (Nat.le_of_succ_le_succ hn)

/-! ## The order on the list -/

section

omit [DecidableEq τ] [Fintype τ]

theorem Order.of_neg {lock : Option τ} (h : readers < 0) : Order lock readers waiters :=
  ⟨fun _ hzero => by omega, fun hpos => by omega⟩

theorem Order.empty (h : Order none readers waiters) (hr : 0 ≤ readers)
    (hreaders : ∀ e ∈ waiters, e.1 ≠ .writer) : waiters = [] := by
  rcases hr.eq_or_lt with hzero | hpos
  · exact h.1 rfl hzero.symm
  · cases waiters with
    | nil => rfl
    | cons e l => exact absurd (h.2 hpos e rfl) (hreaders e mem_cons_self)

theorem Order.push (h : Order none readers waiters) (hr : readers ≠ 0)
    (htype : type = .writer ∨ waiters ≠ []) :
    Order none readers (waiters ++ [(type, t)]) := by
  refine ⟨fun _ hzero => absurd hzero hr, fun hpos e he => ?_⟩
  cases waiters with
  | nil =>
    cases he
    exact htype.resolve_right fun hne => hne rfl
  | cons e' l => exact h.2 hpos e he

theorem Order.of_pos (h : Order none readers waiters) (hr : 0 < readers) (hr' : 0 < readers') :
    Order none readers' waiters :=
  ⟨fun _ hzero => by omega, fun _ => h.2 hr⟩

end

theorem Inv.of_handOff {rest : List (LockerType × τ)} (h : Core (s.handOff w rest)) :
    Inv (s.handOff w rest) := by
  have hzero := h.handing nofun
  refine ⟨h, ?_, ?_⟩
  · intro hnone
    cases hnone
  · intro hpos
    exact absurd hzero hpos.ne'

/-! ## The sections keep the invariant -/

section

variable (h : Inv s)

include h

theorem Inv.orderFree (hlock : s.lock = none) : Order none s.readers s.waiters :=
  hlock ▸ h.order

theorem Inv.sectionAcquireR (hpc : s.pc t = .acquireR) (hlock : s.lock = none) :
    Inv (s.sectionAcquireR t) := by
  have horder := h.orderFree hlock
  unfold TmpRWLock.sectionAcquireR
  split
  next hwait =>
    refine ⟨h.core.enqueue hpc trivial ?_ h.core.handing, ?_⟩
    · refine h.core.counted.stay ?_ ?_ <;> rw [hpc] <;> exact Iff.rfl
    · change Order s.lock s.readers (s.waiters ++ [(LockerType.reader, t)])
      rw [hlock]
      rcases lt_or_ge s.readers 0 with hneg | hge
      · exact .of_neg hneg
      · have hfind := hwait.resolve_left hge.not_gt
        have hne : s.waiters ≠ [] := by
          intro hnil
          rw [hnil] at hfind
          cases hfind
        exact horder.push (fun hzero => hne (horder.1 rfl hzero)) (.inr hne)
  next hgo =>
    rw [not_or, not_lt, Bool.not_eq_true] at hgo
    obtain ⟨hge, hfind⟩ := hgo
    have hnil := horder.empty hge (find_eq_false.1 hfind)
    refine ⟨h.core.move hpc trivial trivial (.inr rfl) nofun ?_ fun hne => absurd hlock hne, ?_⟩
    · refine h.core.counted.enter hge ?_ ?_ trivial nofun <;> rw [hpc] <;> exact nofun
    · change Order s.lock (s.readers + 1) s.waiters
      rw [hnil]
      exact ⟨fun _ _ => rfl, nofun⟩

theorem Inv.sectionReleaseR (hpc : s.pc t = .releaseR) (hlock : s.lock = none) :
    Inv (s.sectionReleaseR t) := by
  have horder := h.orderFree hlock
  have hpos : 0 < s.readers := h.core.counted.reader (by rw [hpc]; trivial)
  have hcounted : Counted (s.readers - 1) (update s.pc t .idle) := by
    refine h.core.counted.leave ?_ ?_ nofun nofun <;> rw [hpc] <;> trivial
  have hcore := h.core.go (p := .idle) hpc trivial trivial nofun hcounted
    fun hne => absurd hlock hne
  unfold TmpRWLock.sectionReleaseR
  rw [tassert_of hpos]
  simp only
  split
  next hlast =>
    split
    next hnil =>
      refine ⟨hcore, ?_⟩
      change Order s.lock (s.readers - 1) s.waiters
      rw [hnil]
      exact ⟨fun _ _ => rfl, nofun⟩
    next e rest hwaiters =>
      obtain ⟨type, w⟩ := e
      have htype : type = .writer := by
        refine horder.2 hpos (type, w) ?_
        rw [hwaiters]
        rfl
      subst htype
      rw [tassert_of rfl]
      have hwaiters' : s.waiters = [] ++ (.writer, w) :: rest := hwaiters
      have hoff := hcore.handOff hlock hlast hwaiters'
      exact Inv.of_handOff hoff
  next hmore =>
    refine ⟨hcore, ?_⟩
    change Order s.lock (s.readers - 1) s.waiters
    rw [hlock]
    exact horder.of_pos hpos (by omega)

theorem Inv.sectionAcquireW (hpc : s.pc t = .acquireW) (hlock : s.lock = none) :
    Inv (s.sectionAcquireW t) := by
  unfold TmpRWLock.sectionAcquireW
  split
  next hbusy =>
    refine ⟨h.core.enqueue hpc trivial ?_ h.core.handing, ?_⟩
    · refine h.core.counted.stay ?_ ?_ <;> rw [hpc] <;> exact Iff.rfl
    · change Order s.lock s.readers (s.waiters ++ [(LockerType.writer, t)])
      rw [hlock]
      exact (h.orderFree hlock).push hbusy (.inl rfl)
  next hfree =>
    have hcounted := h.core.counted
    rw [not_not.1 hfree] at hcounted
    refine ⟨h.core.move hpc trivial trivial (.inr rfl) nofun ?_ fun hne => absurd hlock hne,
      .of_neg neg_one_lt_zero⟩
    refine hcounted.write ?_ trivial nofun
    rw [hpc]
    exact nofun

theorem Inv.sectionUpgrade (hpc : s.pc t = .upgrade) (hlock : s.lock = none) :
    Inv (s.sectionUpgrade t) := by
  have hpos : 0 < s.readers := h.core.counted.reader (by rw [hpc]; trivial)
  have hid : s.setId t = s := by
    rw [TmpRWLock.setId, ← h.core.queue.named t hpc, update_eq_self]
  unfold TmpRWLock.sectionUpgrade
  rw [tassert_of hpos]
  simp only
  split
  next hbusy =>
    have hcounted : Counted (s.readers - 1) (update s.pc t (.test .writer)) := by
      refine h.core.counted.leave ?_ ?_ nofun nofun <;> rw [hpc] <;> trivial
    have hcore : Core ({ s.setId t with readers := s.readers - 1 }.addToEndOfList .writer t) :=
      h.core.enqueue hpc trivial hcounted fun hne => absurd hlock hne
    rw [hid] at hcore
    refine ⟨hcore, ?_⟩
    change Order s.lock (s.readers - 1) (s.waiters ++ [(LockerType.writer, t)])
    rw [hlock]
    exact ((h.orderFree hlock).of_pos hpos (by omega)).push hbusy (.inl rfl)
  next hlast =>
    have hone : s.readers = 1 := by omega
    have hcounted := h.core.counted
    rw [hone] at hcounted
    refine ⟨h.core.go hpc trivial trivial nofun ?_ fun hne => absurd hlock hne,
      .of_neg neg_one_lt_zero⟩
    refine hcounted.upgrade ?_ ?_ trivial nofun <;> rw [hpc] <;> trivial

theorem Inv.sectionDowngrade (hpc : s.pc t = .downgrade) (hlock : s.lock = none) :
    Inv (s.sectionDowngrade t) := by
  have hwrites : (s.pc t).Writes := by
    rw [hpc]
    trivial
  have hcounted : Counted 1 (update s.pc t .reading) :=
    h.core.counted.unwrite hwrites nofun rfl
  have hcore := h.core.go (p := .reading) hpc trivial trivial nofun hcounted
    fun hne => absurd hlock hne
  have hloop := hcore.wakeReaders (n := s.waiters.length) le_rfl
  unfold TmpRWLock.sectionDowngrade
  rw [tassert_of (h.core.counted.writer hwrites).1]
  refine ⟨hloop.1, ?_, ?_⟩
  · intro _ hzero
    exact absurd (hloop.2.2.1.symm.trans hzero) one_ne_zero
  · intro _ e he
    exact hloop.2.2.2 e (List.mem_of_mem_head? he)

theorem Inv.sectionReleaseW (hpc : s.pc t = .releaseW) (hlock : s.lock = none) :
    Inv (s.sectionReleaseW t) := by
  have hwrites : (s.pc t).Writes := by
    rw [hpc]
    trivial
  have hcounted : Counted 0 (update s.pc t .idle) :=
    h.core.counted.unwrite hwrites nofun rfl
  have hcore := h.core.go (p := .idle) hpc trivial trivial nofun hcounted
    fun hne => absurd hlock hne
  unfold TmpRWLock.sectionReleaseW
  rw [tassert_of (h.core.counted.writer hwrites).1]
  simp only
  split
  next w rest hremove =>
    obtain ⟨pre, post, hwaiters, rfl⟩ := remove_some hremove
    exact Inv.of_handOff (hcore.handOff hlock rfl hwaiters)
  next hremove =>
    have hloop := hcore.wakeAll (remove_none hremove) (n := s.waiters.length) le_rfl
    refine ⟨hloop.1, fun _ _ => hloop.2.2.2, fun hpos => ?_⟩
    exact absurd hloop.2.2.1 hpos.ne'

theorem Inv.sectionTryAcquireW (hpc : s.pc t = .tryAcquireW) (hlock : s.lock = none) :
    Inv (s.sectionTryAcquireW t) := by
  unfold TmpRWLock.sectionTryAcquireW
  split
  next hfree =>
    have hcounted := h.core.counted
    rw [hfree] at hcounted
    refine ⟨h.core.go hpc trivial trivial nofun ?_ fun hne => absurd hlock hne,
      .of_neg neg_one_lt_zero⟩
    refine hcounted.write ?_ trivial nofun
    rw [hpc]
    exact nofun
  next =>
    refine ⟨h.core.go hpc trivial trivial nofun ?_ h.core.handing, h.order⟩
    refine h.core.counted.stay ?_ ?_ <;> rw [hpc] <;> exact Iff.rfl

theorem Inv.sectionTryUpgrade (hpc : s.pc t = .tryUpgrade) (hlock : s.lock = none) :
    Inv (s.sectionTryUpgrade t) := by
  have hpos : 0 < s.readers := h.core.counted.reader (by rw [hpc]; trivial)
  unfold TmpRWLock.sectionTryUpgrade
  rw [tassert_of hpos]
  simp only
  split
  next =>
    refine ⟨h.core.go hpc trivial trivial nofun ?_ h.core.handing, h.order⟩
    refine h.core.counted.stay ?_ ?_ <;> rw [hpc] <;> exact Iff.rfl
  next hone =>
    have hcounted := h.core.counted
    rw [not_not.1 hone] at hcounted
    refine ⟨h.core.go hpc trivial trivial nofun ?_ fun hne => absurd hlock hne,
      .of_neg neg_one_lt_zero⟩
    refine hcounted.upgrade ?_ ?_ trivial nofun <;> rw [hpc] <;> trivial

end

/-! ## The wait loop -/

theorem Pc.Waits.iff (h : p.Waits type) {type' : LockerType} : p.Waits type' ↔ type = type' := by
  cases p <;> first | exact h.elim | (cases h; exact Iff.rfl)

omit [DecidableEq τ] [Fintype τ] in
theorem Pc.Waits.given_iff (h : p.Waits type) (h' : q.Waits type) (i : Option τ) :
    Given i p ↔ Given i q := by
  cases type <;> cases p <;> (try exact h.elim) <;> cases h <;> cases q <;>
    (try exact h'.elim) <;> cases h' <;> exact Iff.rfl

theorem Pc.Waits.not_reads (h : p.Waits type) : ¬ p.Reads := by
  cases p <;> first | exact h.elim | exact nofun

theorem Pc.Waits.not_writes (h : p.Waits type) : ¬ p.Writes := by
  cases p <;> first | exact h.elim | exact nofun

theorem Core.wait (h : Core s) (hq : (s.pc t).Waits type) (hp : p.Waits type) :
    Core (s.goto t p) := by
  have hne : p ≠ .upgrade := by
    rintro rfl
    exact hp
  refine ⟨h.counted.stay (iff_of_false hq.not_reads hp.not_reads)
    (iff_of_false hq.not_writes hp.not_writes), ?_, h.handing,
    h.queue.wait (fun type' => hq.iff.trans hp.iff.symm) hne, h.asserts⟩
  have howner := owner_update (i := s.id t) h.owner (hp.given_iff hq (s.id t))
  rwa [update_eq_self] at howner

section

variable (h : Inv s)

include h

theorem Inv.wait (hpc : s.pc t = q) (hq : q.Waits type) (hp : p.Waits type) :
    Inv (s.goto t p) := by
  subst q
  exact ⟨h.core.wait hq hp, h.order⟩

theorem Inv.block (hpc : s.pc t = .blocking type) : Inv (s.block t type) := by
  unfold TmpRWLock.block
  split
  next =>
    have hwait := h.wait (p := .test type) hpc rfl rfl
    exact ⟨⟨hwait.core.counted, hwait.core.owner, hwait.core.handing, hwait.core.queue,
      hwait.core.asserts⟩, hwait.order⟩
  next => exact h.wait (p := .blocked type) hpc rfl rfl

theorem Inv.wakeup (t : τ) : Inv (s.wakeup t) := by
  unfold TmpRWLock.wakeup
  split
  next type hpc => exact h.wait (p := .test type) hpc rfl rfl
  next type hpc => exact h.wait (p := .test type) hpc rfl rfl
  next => exact h

theorem Inv.testId (hpc : s.pc t = .test type) : Inv (s.testId t type) := by
  unfold TmpRWLock.testId
  split
  next hnone =>
    have hqueue := h.core.queue.move (p := type.resume) (t := t) (i := s.id t) ?_ ?_
      (.inl hnone) ?_
    · rw [update_eq_self] at hqueue
      refine ⟨⟨h.core.counted.stay ?_ ?_, ?_, h.core.handing, hqueue, h.core.asserts⟩, h.order⟩
      · rw [hpc]
        cases type <;> exact Iff.rfl
      · rw [hpc]
        cases type <;> exact Iff.rfl
      · have howner := owner_update (p := type.resume) (t := t) (i := s.id t) h.core.owner ?_
        · rwa [update_eq_self] at howner
        · rw [hpc, hnone]
          cases type with
          | reader => exact Iff.rfl
          | writer => exact iff_of_true trivial rfl
    · intro type' hw
      rw [hnone] at hw
      cases hw.2
    · cases type <;> exact fun _ => nofun
    · cases type <;> exact nofun
  next => exact h.wait (p := .blocking type) hpc rfl rfl

theorem Inv.setWriter (hpc : s.pc t = .handed) : Inv (s.setWriter t) := by
  have hlock : s.lock = some t := by
    refine (h.core.owner t).1 ?_
    rw [hpc]
    trivial
  have hcounted := h.core.counted
  rw [h.core.handing (by rw [hlock]; exact nofun)] at hcounted
  have hqueue := h.core.queue.move (p := .writing) (t := t) (i := s.id t) ?_ (fun _ => nofun)
    (h.core.queue.own t) nofun
  · rw [update_eq_self] at hqueue
    refine ⟨⟨hcounted.write ?_ trivial nofun, fun u => iff_of_false ?_ nofun, nofun, hqueue,
      h.core.asserts⟩, .of_neg neg_one_lt_zero⟩
    · rw [hpc]
      exact nofun
    · change ¬ Given (s.id u) (update s.pc t .writing u)
      refine update_cases nofun (fun u hu => ?_) u
      rw [h.core.owner u, hlock]
      exact fun hsome => hu (Option.some.inj hsome).symm
  · intro type hw
    rw [hpc] at hw
    exact hw.1

/-! ## Runs -/

theorem Inv.locked {s' : TmpRWLock τ} (h' : s.lock = none → Inv s') :
    Inv (s.locked s') := by
  unfold TmpRWLock.locked
  split
  next hlock => exact h' hlock
  next => exact h

theorem Inv.advance (t : τ) : Inv (s.advance t) := by
  unfold TmpRWLock.advance
  cases hpc : s.pc t with
  | idle => exact h
  | reading => exact h
  | writing => exact h
  | acquireR => exact h.locked (h.sectionAcquireR hpc)
  | releaseR => exact h.locked (h.sectionReleaseR hpc)
  | acquireW => exact h.locked (h.sectionAcquireW hpc)
  | upgrade => exact h.locked (h.sectionUpgrade hpc)
  | downgrade => exact h.locked (h.sectionDowngrade hpc)
  | releaseW => exact h.locked (h.sectionReleaseW hpc)
  | tryAcquireW => exact h.locked (h.sectionTryAcquireW hpc)
  | tryUpgrade => exact h.locked (h.sectionTryUpgrade hpc)
  | test type => exact h.testId hpc
  | blocking type => exact h.block hpc
  | blocked type => exact h
  | handed => exact h.setWriter hpc

theorem Inv.call (hpc : s.pc t = q) (hq : q.Active) (hp : p.Active)
    (hreads : q.Reads ↔ p.Reads) (hwrites : q.Writes ↔ p.Writes) (hnamed : p ≠ .upgrade) :
    Inv (s.goto t p) := by
  refine ⟨h.core.go hpc hq hp hnamed ?_ h.core.handing, h.order⟩
  subst q
  exact h.core.counted.stay hreads hwrites

theorem Inv.step {a : Action τ} (hadm : s.adm a) : Inv (s.step a) := by
  cases a with
  | acquireR t => exact h.call hadm trivial trivial Iff.rfl Iff.rfl nofun
  | releaseR t => exact h.call hadm trivial trivial Iff.rfl Iff.rfl nofun
  | acquireW t => exact h.call hadm trivial trivial Iff.rfl Iff.rfl nofun
  | releaseW t => exact h.call hadm trivial trivial Iff.rfl Iff.rfl nofun
  | upgrade t =>
    have hpc : s.pc t = .reading := hadm
    refine ⟨h.core.move hpc trivial trivial (.inr rfl) (fun _ => rfl) ?_ h.core.handing, h.order⟩
    refine h.core.counted.stay ?_ ?_ <;> rw [hpc] <;> exact Iff.rfl
  | downgrade t => exact h.call hadm trivial trivial Iff.rfl Iff.rfl nofun
  | tryAcquireW t => exact h.call hadm trivial trivial Iff.rfl Iff.rfl nofun
  | tryUpgrade t => exact h.call hadm trivial trivial Iff.rfl Iff.rfl nofun
  | advance t => exact h.advance t
  | wakeup t => exact h.wakeup t

theorem Inv.excludes : Excludes s where
  alone _ := h.core.counted.alone
  drained := h.order.1
  head := h.order.2
  asserts := h.core.asserts
  once := h.core.queue.once
  distinct := h.core.queue.distinct
  readers_le := by
    rcases h.core.counted with ⟨heq, -⟩ | ⟨hneg, -⟩
    · rw [heq]
      exact_mod_cast census_le_card Pc.Reads s.pc
    · omega
  readers_ge := by
    rcases h.core.counted with ⟨heq, -⟩ | ⟨hneg, -⟩ <;> omega

end

end

variable [Fintype τ]

/-- **A writer excludes all others, and nobody is stranded.** In every interleaving of the
calls of any number of threads, and whenever `Block` returns. -/
theorem run_hands_off {ops : List (Action τ)} {s : TmpRWLock τ}
    (h : interleavings.Run init ops s) : Excludes s := by
  have hinv : Inv s := h.invariant inv_init fun s a hs hadm => hs.step hadm
  exact hinv.excludes

/-- Two readers; one of them asks for an upgrade and is handed the lock by the other. -/
theorem run_hands_off_upgrade :
    let ops : List (Action Bool) :=
      [.acquireR false, .advance false, .acquireR true, .advance true,
       .upgrade false, .advance false, .advance false, .advance false, .releaseR true,
       .advance true, .acquireR true, .advance true, .advance false, .advance false]
    let s := ops.foldl step init
    s.readers = -1 ∧ s.pc false = .writing ∧ s.unblocked false = 1 ∧ Excludes s := by
  intro ops s
  have hadmits : interleavings.Admits init ops := by decide +kernel
  exact ⟨by decide +kernel, by decide +kernel, by decide +kernel, run_hands_off hadmits.run⟩

end TmpRWLock

end K42
