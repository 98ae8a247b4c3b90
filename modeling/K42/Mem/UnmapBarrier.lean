import K42.Lib.Run
import K42.Lib.Update
import K42.Mem.VPSet
import Mathlib.Data.Finset.Card

/-!
# The barrier of a remote unmap

A thread that unmaps a page or a range sends one message to every other processor that may
have mapped it, and waits until all of them have unmapped. The message record with the
barrier is on the sender's stack; every handler takes one off the barrier, and the handler
that brings it to zero unblocks the sender.

Every step is one access to a message record, one send, one local unmap, or one call of
`Block` or `Unblock`. Any number of threads unmap at a time, each over and over again.
-/

open Function (update update_cases update_of_ne update_self)

namespace K42

/-- `FCMCommon::internal_unmapPage` and `HATDefaultBase::unmapRange`. -/
inductive UnmapBarrier.Kind
  | page
  | range
deriving DecidableEq

/-- The number of fields that tell the handler what to unmap. -/
def UnmapBarrier.Kind.fields : UnmapBarrier.Kind → ℕ
  | .page => 2
  | .range => 3

/-- `UnmapPageMsg` and `UnmapRangeMsg`. The fields that only say what to unmap are a list:
`myRef` and `fileOffset`, or `myRef`, `start` and `size`. -/
structure UnmapBarrier.Msg (τ : Type) where
  barrier : ℤ
  waiter : τ
  args : List ℕ
deriving DecidableEq

/-- Where a sender is. `own` tells whether its own processor has to unmap too. -/
inductive UnmapBarrier.Pc
  | idle
  | raise (k : UnmapBarrier.Kind) (own : Bool) (vp : ℕ) (rest : List ℕ)
  | send (k : UnmapBarrier.Kind) (own : Bool) (vp : ℕ) (rest : List ℕ)
  | unmapLocal
  | lower
  | test
  | blocking
  | blocked
deriving DecidableEq

/-- Where the handler of a message is, with the fields it has loaded. -/
inductive UnmapBarrier.Handler (τ : Type)
  | absent
  | load (k : UnmapBarrier.Kind) (got : List ℕ)
  | unmapLocal (got : List ℕ)
  | lower (got : List ℕ)
  | loadWaiter (got : List ℕ)
  | unblock (got : List ℕ) (waiter : τ)
  | finished (got : List ℕ)
deriving DecidableEq

/-- What belongs to one thread: its stack slot for the record, and the handlers of the
messages it has sent, those of its call `c` to the processor `vp` at `handler (c, vp)`.
`sent` says to which processors the latest call has sent, and `strays` counts the accesses to
the record of a call that has returned. -/
structure Unmapper (τ : Type) where
  pc : UnmapBarrier.Pc
  msg : UnmapBarrier.Msg τ
  call : ℕ
  sent : Finset ℕ
  handler : ℕ × ℕ → UnmapBarrier.Handler τ
  wasUnblocked : Bool
  strays : ℕ

/-- All threads. -/
abbrev UnmapBarrier (τ : Type) : Type := τ → Unmapper τ

namespace Unmapper

open UnmapBarrier

variable {τ : Type}

def init (t : τ) : Unmapper τ where
  pc := .idle
  msg := ⟨0, t, []⟩
  call := 0
  sent := ∅
  handler := fun _ => .absent
  wasUnblocked := false
  strays := 0

def goto (r : Unmapper τ) (p : Pc) : Unmapper τ := { r with pc := p }

def setHandler (r : Unmapper τ) (m : ℕ × ℕ) (h : Handler τ) : Unmapper τ :=
  { r with handler := update r.handler m h }

/-- `FetchAndAddSignedVolatile` on the barrier. It counts at most 65 processors. -/
def add (r : Unmapper τ) (d : ℤ) : Unmapper τ :=
  { r with msg := { r.msg with barrier := r.msg.barrier + d } }

/-! ## The sender -/

/-- The processors that the loop of `internal_unmapPage` sends to. -/
def pageTargets (myvp : ℕ) : (left vp : ℕ) → (set : BitVec 64) → List ℕ
  | 0, _, _ => []
  | left + 1, vp, set =>
    if set = 0#64 then []
    else if set &&& 1#64 ≠ 0#64 ∧ vp ≠ myvp then vp :: pageTargets myvp left (vp + 1) (set >>> 1)
    else pageTargets myvp left (vp + 1) (set >>> 1)

/-- The processors that the loop of `unmapRange` sends to. -/
def rangeTargets (mypp numprocs : ℕ) (unionset : VPSet) : List ℕ :=
  (unionset.members numprocs).filter (· ≠ mypp)

/-- The next iteration of the loop that sends, or what comes after it. -/
def loop (k : Kind) (own : Bool) : List ℕ → Pc
  | [] => if own then .unmapLocal else .lower
  | vp :: rest => .raise k own vp rest

/-- A call fills in the record. -/
def start (r : Unmapper τ) (t : τ) (k : Kind) (own : Bool) (targets args : List ℕ) : Unmapper τ :=
  { r with pc := loop k own targets, msg := ⟨1, t, args⟩, call := r.call + 1, sent := ∅ }

def internal_unmapPage (r : Unmapper τ) (t : τ) (myRef offset myvp numprocs : ℕ)
    (ppset : BitVec 64) : Unmapper τ :=
  r.start t .page (ppset &&& 1#64 <<< myvp ≠ 0#64) (pageTargets myvp numprocs 0 ppset)
    [myRef, offset]

def unmapRange (r : Unmapper τ) (t : τ) (myRef rangeAddr rangeSize mypp numprocs : ℕ)
    (unionset : VPSet) : Unmapper τ :=
  r.start t .range (unionset.isSet mypp) (rangeTargets mypp numprocs unionset)
    [myRef, rangeAddr, rangeSize]

/-- `MPMsgMgr::SendAsyncUval`: the handler will run on the processor. -/
def send (r : Unmapper τ) (k : Kind) (own : Bool) (vp : ℕ) (rest : List ℕ) : Unmapper τ :=
  { (r.setHandler (r.call, vp) (.load k [])).goto (loop k own rest) with sent := insert vp r.sent }

/-- The test of the loop around `Block`. The call returns when the barrier is zero. -/
def test (r : Unmapper τ) : Unmapper τ :=
  r.goto (if r.msg.barrier ≠ 0 then .blocking else .idle)

/-- `Scheduler::Block`. -/
def block (r : Unmapper τ) : Unmapper τ :=
  if r.wasUnblocked then { r with pc := .test, wasUnblocked := false } else r.goto .blocked

/-- `Scheduler::Unblock`: a thread that is not blocked will not block the next time. -/
def wake (r : Unmapper τ) : Unmapper τ :=
  if r.pc = .blocked then r.goto .test else { r with wasUnblocked := true }

/-- The next step of a thread that is in the middle of a call. -/
def advance (r : Unmapper τ) : Unmapper τ :=
  match r.pc with
  | .idle => r
  | .raise k own vp rest => (r.add 1).goto (.send k own vp rest)
  | .send k own vp rest => r.send k own vp rest
  | .unmapLocal => r.goto .lower
  | .lower => (r.add (-1)).goto .test
  | .test => r.test
  | .blocking => r.block
  | .blocked => r

/-! ## The handlers -/

/-- The handler accesses the record. -/
def touch (r : Unmapper τ) (c : ℕ) : Unmapper τ :=
  if r.call = c ∧ r.pc ≠ .idle then r else { r with strays := r.strays + 1 }

/-- The handler goes on to the next field, or to its local unmap. -/
def loaded (k : Kind) (got : List ℕ) : Handler τ :=
  if got.length < k.fields then .load k got else .unmapLocal got

def load (r : Unmapper τ) (m : ℕ × ℕ) (k : Kind) (got : List ℕ) : Unmapper τ :=
  (r.touch m.1).setHandler m (loaded k (got ++ [r.msg.args.getD got.length 0]))

def lower (r : Unmapper τ) (m : ℕ × ℕ) (got : List ℕ) : Unmapper τ :=
  ((r.touch m.1).add (-1)).setHandler m
    (if r.msg.barrier = 1 then .loadWaiter got else .finished got)

def loadWaiter (r : Unmapper τ) (m : ℕ × ℕ) (got : List ℕ) : Unmapper τ :=
  (r.touch m.1).setHandler m (.unblock got r.msg.waiter)

/-- The next step of `UnmapPageMsgHandler` or `UnmapRangeMsgHandler`, and the thread that the
handler unblocks. -/
def handle (r : Unmapper τ) (m : ℕ × ℕ) : Unmapper τ × Option τ :=
  match r.handler m with
  | .absent => (r, none)
  | .load k got => (r.load m k got, none)
  | .unmapLocal got => (r.setHandler m (.lower got), none)
  | .lower got => (r.lower m got, none)
  | .loadWaiter got => (r.loadWaiter m got, none)
  | .unblock got waiter => (r.setHandler m (.finished got), some waiter)
  | .finished _ => (r, none)

end Unmapper

namespace UnmapBarrier

variable {τ : Type} [DecidableEq τ]

def init : UnmapBarrier τ := Unmapper.init

/-! ## Interleavings -/

inductive Action (τ : Type)
  | internal_unmapPage (t : τ) (myRef offset myvp numprocs : ℕ) (ppset : BitVec 64)
  | unmapRange (t : τ) (myRef rangeAddr rangeSize mypp numprocs : ℕ) (unionset : VPSet)
  | advance (t : τ)
  | handle (t : τ) (m : ℕ × ℕ)
  | wakeup (t : τ)          -- `Block` returns without an `Unblock`

/-- What a step does to the thread it is about. -/
def set (s : UnmapBarrier τ) (t : τ) (r : Unmapper τ) : UnmapBarrier τ := update s t r

def handle (s : UnmapBarrier τ) (t : τ) (m : ℕ × ℕ) : UnmapBarrier τ :=
  let (r, waiter) := (s t).handle m
  match waiter with
  | none => s.set t r
  | some waiter => (s.set t r).set waiter ((s.set t r) waiter).wake

def step (s : UnmapBarrier τ) : Action τ → UnmapBarrier τ
  | .internal_unmapPage t myRef offset myvp numprocs ppset =>
    s.set t ((s t).internal_unmapPage t myRef offset myvp numprocs ppset)
  | .unmapRange t myRef rangeAddr rangeSize mypp numprocs unionset =>
    s.set t ((s t).unmapRange t myRef rangeAddr rangeSize mypp numprocs unionset)
  | .advance t => s.set t (s t).advance
  | .handle t m => s.handle t m
  | .wakeup t => if (s t).pc = .blocked then s.set t ((s t).goto .test) else s

/-- A thread makes one call at a time. -/
def adm (s : UnmapBarrier τ) : Action τ → Prop
  | .internal_unmapPage t _ _ _ _ _ => (s t).pc = .idle
  | .unmapRange t _ _ _ _ _ _ => (s t).pc = .idle
  | .advance _ => True
  | .handle _ _ => True
  | .wakeup _ => True

def interleavings : Machine (UnmapBarrier τ) (Action τ) := ⟨step, adm⟩

def Handler.LoadsWaiter : Handler τ → Prop
  | .loadWaiter _ => True
  | _ => False

/-- The sender does not find the barrier at zero while the handler that has brought it there
has still to load the waiter. -/
def awaits (s : UnmapBarrier τ) : Action τ → Prop
  | .advance t => (s t).pc = .test → (s t).msg.barrier = 0 →
      ∀ vp ∈ (s t).sent, ¬ ((s t).handler ((s t).call, vp)).LoadsWaiter
  | _ => True

def awaiting : Machine (UnmapBarrier τ) (Action τ) := ⟨step, fun s a => s.adm a ∧ s.awaits a⟩

end UnmapBarrier

namespace Unmapper

open UnmapBarrier

variable {τ : Type} {r : Unmapper τ} {t : τ} {m : ℕ × ℕ} {k : Kind} {own : Bool} {vp : ℕ}
  {rest got : List ℕ} {h : Handler τ}

/-! ## What the loops send to -/

theorem pageTargets_spec (myvp : ℕ) : ∀ left vp set,
    (pageTargets myvp left vp set).Pairwise (· < ·) ∧ ∀ u ∈ pageTargets myvp left vp set, vp ≤ u := by
  intro left
  induction left with
  | zero => exact fun _ _ => ⟨List.Pairwise.nil, nofun⟩
  | succ left ih =>
    intro vp set
    obtain ⟨hsorted, hge⟩ := ih (vp + 1) (set >>> 1)
    unfold pageTargets
    split
    · exact ⟨List.Pairwise.nil, nofun⟩
    · split
      · refine ⟨List.Pairwise.cons hge hsorted, fun u hu => ?_⟩
        rcases List.mem_cons.1 hu with rfl | hu
        · exact le_rfl
        · exact Nat.le_of_succ_le (hge u hu)
      · exact ⟨hsorted, fun u hu => Nat.le_of_succ_le (hge u hu)⟩

theorem pageTargets_nodup (myvp left vp : ℕ) (set : BitVec 64) :
    (pageTargets myvp left vp set).Nodup :=
  (pageTargets_spec myvp left vp set).1.imp Nat.ne_of_lt

theorem rangeTargets_nodup (mypp numprocs : ℕ) (unionset : VPSet) :
    (rangeTargets mypp numprocs unionset).Nodup :=
  (unionset.members_nodup numprocs).filter _

/-! ## The invariant of one thread -/

/-- The handler has not taken its share off the barrier. -/
def Pending : Handler τ → Prop
  | .load _ _ => True
  | .unmapLocal _ => True
  | .lower _ => True
  | _ => False

instance (h : Handler τ) : Decidable (Pending h) := by
  cases h <;> first
    | exact isTrue trivial
    | exact isFalse id

/-- The handler will access the record. -/
def Touches (h : Handler τ) : Prop := Pending h ∨ h.LoadsWaiter

/-- The handler will unblock the sender. -/
def Wakes : Handler τ → Prop
  | .loadWaiter _ => True
  | .unblock _ _ => True
  | _ => False

/-- What the handler has loaded is what the sender has stored. -/
def Knows (args : List ℕ) : Handler τ → Prop
  | .absent => True
  | .load k got => args.length = k.fields ∧ got.length < k.fields ∧ got = args.take got.length
  | .unmapLocal got => got = args
  | .lower got => got = args
  | .loadWaiter got => got = args
  | .unblock got _ => got = args
  | .finished got => got = args

/-- The sender's own part of the barrier. -/
def share : Pc → ℤ
  | .idle => 0
  | .raise _ _ _ _ => 1
  | .send _ _ _ _ => 2
  | .unmapLocal => 1
  | .lower => 1
  | .test => 0
  | .blocking => 0
  | .blocked => 0

/-- The processors of the latest call whose handler is pending. -/
def pending (r : Unmapper τ) : Finset ℕ := r.sent.filter fun vp => Pending (r.handler (r.call, vp))

/-- The processors still to be sent to are new, and their handlers will find their fields. -/
def Sends (r : Unmapper τ) : Pc → Prop
  | .raise k _ vp rest => (vp :: rest).Nodup ∧ (∀ u ∈ vp :: rest, u ∉ r.sent) ∧
      r.msg.args.length = k.fields
  | .send k _ vp rest => (vp :: rest).Nodup ∧ (∀ u ∈ vp :: rest, u ∉ r.sent) ∧
      r.msg.args.length = k.fields
  | _ => True

/-- The invariant of the thread `t`. -/
structure Fine (r : Unmapper τ) (t : τ) : Prop where
  live : ∀ c vp, Touches (r.handler (c, vp)) → c = r.call ∧ r.pc ≠ .idle
  future : ∀ c vp, r.call < c → r.handler (c, vp) = .absent
  sent : ∀ vp, vp ∈ r.sent ↔ r.handler (r.call, vp) ≠ .absent
  barrier : r.pc ≠ .idle → r.msg.barrier = share r.pc + r.pending.card
  zero : ∀ vp, (r.handler (r.call, vp)).LoadsWaiter → r.msg.barrier = 0
  sends : r.Sends r.pc
  waker : r.msg.barrier = 0 → r.pc = .blocked → ∃ vp, Wakes (r.handler (r.call, vp))
  ready : r.msg.barrier = 0 → r.pc = .blocking →
    (∃ vp, Wakes (r.handler (r.call, vp))) ∨ r.wasUnblocked = true
  waiter : r.msg.waiter = t
  unblocks : ∀ c vp got id, r.handler (c, vp) = .unblock got id → id = t
  knows : ∀ vp, Knows r.msg.args (r.handler (r.call, vp))
  strays : r.strays = 0

theorem fine_init (t : τ) : (init t).Fine t where
  live := fun _ _ h => (h.elim id id).elim
  future := fun _ _ _ => rfl
  sent := fun vp => iff_of_false (Finset.notMem_empty vp) (fun h => h rfl)
  barrier := fun h => absurd rfl h
  zero := fun _ h => h.elim
  sends := trivial
  waker := fun _ => nofun
  ready := fun _ => nofun
  waiter := rfl
  unblocks := fun _ _ _ _ => nofun
  knows := fun _ => trivial
  strays := rfl

theorem mem_pending : vp ∈ r.pending ↔ vp ∈ r.sent ∧ Pending (r.handler (r.call, vp)) :=
  Finset.mem_filter

/-! ## The steps of the sender -/

theorem sends_loop (hnodup : rest.Nodup) (hnew : ∀ u ∈ rest, u ∉ r.sent)
    (hargs : r.msg.args.length = k.fields) : r.Sends (loop k own rest) := by
  cases rest with
  | nil => cases own <;> trivial
  | cons vp rest => exact ⟨hnodup, hnew, hargs⟩

theorem loop_place (k : Kind) (own : Bool) (rest : List ℕ) :
    share (loop k own rest) = 1 ∧ loop k own rest ≠ .idle ∧ loop k own rest ≠ .blocked ∧
      loop k own rest ≠ .blocking := by
  cases rest with
  | nil => cases own <;> exact ⟨rfl, nofun, nofun, nofun⟩
  | cons vp rest => exact ⟨rfl, nofun, nofun, nofun⟩

theorem Fine.start (h : r.Fine t) (hidle : r.pc = .idle) {targets args : List ℕ}
    (hnodup : targets.Nodup) (hargs : args.length = k.fields) :
    (r.start t k own targets args).Fine t := by
  obtain ⟨hshare, hne, hblocked, hblocking⟩ := loop_place k own targets
  have habsent : ∀ vp, r.handler (r.call + 1, vp) = .absent :=
    fun vp => h.future _ _ (Nat.lt_succ_self _)
  constructor
  · intro c vp htouches
    exact absurd hidle (h.live c vp htouches).2
  · exact fun c vp hc => h.future c vp (Nat.lt_of_succ_lt hc)
  · exact fun vp => iff_of_false (Finset.notMem_empty vp) (fun hh => hh (habsent vp))
  · intro _
    change (1 : ℤ) = share (loop k own targets) + (Finset.filter _ ∅).card
    rw [hshare]
    rfl
  · intro vp hload
    change ((r.handler (r.call + 1, vp)).LoadsWaiter) at hload
    rw [habsent] at hload
    exact hload.elim
  · exact sends_loop hnodup (fun u _ => Finset.notMem_empty u) hargs
  · exact fun _ hpc => absurd hpc hblocked
  · exact fun _ hpc => absurd hpc hblocking
  · rfl
  · exact h.unblocks
  · intro vp
    change Knows args (r.handler (r.call + 1, vp))
    rw [habsent]
    trivial
  · exact h.strays

theorem Fine.goto (h : r.Fine t) {p : Pc} (hidle : r.pc ≠ .idle) (hp : p ≠ .idle)
    (hshare : share p = share r.pc) (hsends : r.Sends p) (hblocked : p ≠ .blocked)
    (hblocking : p = .blocking → r.msg.barrier ≠ 0) : (r.goto p).Fine t where
  live := fun c vp htouches => ⟨(h.live c vp htouches).1, hp⟩
  future := h.future
  sent := h.sent
  barrier := fun _ => by
    change r.msg.barrier = share p + r.pending.card
    rw [hshare]
    exact h.barrier hidle
  zero := h.zero
  sends := by
    cases p <;> exact hsends
  waker := fun _ hpc => absurd hpc hblocked
  ready := fun hzero hpc => absurd hzero (hblocking hpc)
  waiter := h.waiter
  unblocks := h.unblocks
  knows := h.knows
  strays := h.strays

theorem Fine.raise (h : r.Fine t) (hpc : r.pc = .raise k own vp rest) :
    ((r.add 1).goto (.send k own vp rest)).Fine t := by
  have hne : r.pc ≠ .idle := by
    rw [hpc]
    nofun
  have hbarrier := h.barrier hne
  have hsends := h.sends
  rw [hpc] at hbarrier hsends
  change r.msg.barrier = 1 + _ at hbarrier
  refine ⟨fun c vp htouches => ⟨(h.live c vp htouches).1, nofun⟩, h.future, h.sent, ?_, ?_, hsends,
    fun _ => nofun, fun _ => nofun, h.waiter, h.unblocks, h.knows, h.strays⟩
  · intro _
    change r.msg.barrier + 1 = 2 + (r.pending.card : ℤ)
    omega
  · intro vp hload
    have hzero := h.zero vp hload
    omega

theorem Fine.send (h : r.Fine t) (hpc : r.pc = .send k own vp rest) :
    (r.send k own vp rest).Fine t := by
  have hne : r.pc ≠ .idle := by
    rw [hpc]
    nofun
  have hbarrier := h.barrier hne
  have hsends := h.sends
  rw [hpc] at hbarrier hsends
  change r.msg.barrier = 2 + _ at hbarrier
  obtain ⟨hnodup, hnew, hargs⟩ := hsends
  obtain ⟨hshare, hidle, hblocked, hblocking⟩ := loop_place k own rest
  have hvp : vp ∉ r.sent := hnew vp List.mem_cons_self
  have hfields : 0 < k.fields := by
    cases k <;> exact Nat.zero_lt_succ _
  have hother : ∀ {m : ℕ × ℕ}, m ≠ (r.call, vp) → (r.send k own vp rest).handler m = r.handler m :=
    fun hm => update_of_ne hm _ _
  have hself : (r.send k own vp rest).handler (r.call, vp) = .load k [] := update_self ..
  have hpending : (r.send k own vp rest).pending = insert vp r.pending := by
    ext u
    rw [Finset.mem_insert, mem_pending, mem_pending]
    change u ∈ insert vp r.sent ∧ Pending ((r.send k own vp rest).handler (r.call, u)) ↔ _
    by_cases hu : u = vp
    · subst u
      rw [hself]
      simp [Pending]
    · rw [hother (by simp [hu]), Finset.mem_insert]
      simp [hu]
  refine ⟨?_, ?_, ?_, ?_, ?_, ?_, fun _ hp => absurd hp hblocked, fun _ hp => absurd hp hblocking,
    h.waiter, ?_, ?_, h.strays⟩
  · intro c u htouches
    refine ⟨?_, hidle⟩
    by_cases hm : (c, u) = (r.call, vp)
    · exact (Prod.mk.inj hm).1
    · rw [hother hm] at htouches
      exact (h.live c u htouches).1
  · intro c u hc
    rw [hother fun hm => (Nat.ne_of_gt hc) (Prod.mk.inj hm).1]
    exact h.future c u hc
  · intro u
    change u ∈ insert vp r.sent ↔ (r.send k own vp rest).handler (r.call, u) ≠ .absent
    by_cases hu : u = vp
    · subst u
      rw [hself]
      exact iff_of_true (Finset.mem_insert_self _ _) nofun
    · rw [hother (by simp [hu]), ← h.sent, Finset.mem_insert]
      simp [hu]
  · intro _
    change r.msg.barrier = share (loop k own rest) + (r.send k own vp rest).pending.card
    rw [hpending, Finset.card_insert_of_notMem fun hmem => hvp (mem_pending.1 hmem).1, hshare]
    push_cast
    omega
  · intro u hload
    change ((r.send k own vp rest).handler (r.call, u)).LoadsWaiter at hload
    by_cases hu : u = vp
    · subst u
      rw [hself] at hload
      exact hload.elim
    · rw [hother (by simp [hu])] at hload
      exact h.zero u hload
  · refine sends_loop (r := r.send k own vp rest) (List.nodup_cons.1 hnodup).2 ?_ hargs
    intro u hu hmem
    rcases Finset.mem_insert.1 hmem with rfl | hmem
    · exact (List.nodup_cons.1 hnodup).1 hu
    · exact hnew u (List.mem_cons_of_mem _ hu) hmem
  · intro c u got id hm
    by_cases hmem : (c, u) = (r.call, vp)
    · rw [hmem, hself] at hm
      cases hm
    · rw [hother hmem] at hm
      exact h.unblocks c u got id hm
  · intro u
    change Knows r.msg.args ((r.send k own vp rest).handler (r.call, u))
    by_cases hu : u = vp
    · subst u
      rw [hself]
      exact ⟨hargs, hfields, rfl⟩
    · rw [hother (by simp [hu])]
      exact h.knows u

theorem Fine.lowerOwn (h : r.Fine t) (hpc : r.pc = .lower) : ((r.add (-1)).goto .test).Fine t := by
  have hne : r.pc ≠ .idle := by
    rw [hpc]
    nofun
  have hbarrier := h.barrier hne
  rw [hpc] at hbarrier
  change r.msg.barrier = 1 + _ at hbarrier
  refine ⟨fun c vp htouches => ⟨(h.live c vp htouches).1, nofun⟩, h.future, h.sent, ?_, ?_, trivial,
    fun _ => nofun, fun _ => nofun, h.waiter, h.unblocks, h.knows, h.strays⟩
  · intro _
    change r.msg.barrier + -1 = 0 + (r.pending.card : ℤ)
    omega
  · intro vp hload
    have hzero := h.zero vp hload
    omega

theorem Fine.test (h : r.Fine t) (hpc : r.pc = .test)
    (hawaits : r.msg.barrier = 0 → ∀ vp ∈ r.sent, ¬ (r.handler (r.call, vp)).LoadsWaiter) :
    r.test.Fine t := by
  have hne : r.pc ≠ .idle := by
    rw [hpc]
    nofun
  have hbarrier := h.barrier hne
  rw [hpc] at hbarrier
  change r.msg.barrier = 0 + _ at hbarrier
  unfold Unmapper.test
  split
  · rename_i hpos
    exact h.goto hne nofun (by rw [hpc]; rfl) trivial nofun fun _ => hpos
  · rename_i hzero
    rw [not_not] at hzero
    have hnone : ∀ vp, ¬ Touches (r.handler (r.call, vp)) := by
      rintro vp (hpending | hload)
      · have hmem : vp ∈ r.pending := by
          rw [mem_pending, h.sent]
          refine ⟨?_, hpending⟩
          intro habsent
          rw [habsent] at hpending
          exact hpending
        have hcard := Finset.card_pos.2 ⟨vp, hmem⟩
        omega
      · apply hawaits hzero vp _ hload
        rw [h.sent]
        intro habsent
        rw [habsent] at hload
        exact hload
    refine ⟨?_, h.future, h.sent, fun hh => absurd rfl hh, h.zero, trivial, fun _ => nofun,
      fun _ => nofun, h.waiter, h.unblocks, h.knows, h.strays⟩
    intro c vp htouches
    obtain ⟨rfl, -⟩ := h.live c vp htouches
    exact absurd htouches (hnone vp)

theorem Fine.setUnblocked (h : r.Fine t) : ({ r with wasUnblocked := true } : Unmapper τ).Fine t :=
  ⟨h.live, h.future, h.sent, h.barrier, h.zero, by cases hpc : r.pc <;> have := h.sends <;>
    rw [hpc] at this <;> exact this, h.waker, fun _ _ => .inr rfl, h.waiter, h.unblocks, h.knows,
    h.strays⟩

theorem Fine.retest (h : r.Fine t) (hpc : r.pc = .blocking ∨ r.pc = .blocked) (b : Bool) :
    ({ r with pc := .test, wasUnblocked := b } : Unmapper τ).Fine t := by
  have hne : r.pc ≠ .idle ∧ share r.pc = 0 := by
    rcases hpc with hpc | hpc <;> rw [hpc] <;> exact ⟨nofun, rfl⟩
  refine ⟨fun c vp htouches => ⟨(h.live c vp htouches).1, nofun⟩, h.future, h.sent, ?_, h.zero,
    trivial, fun _ => nofun, fun _ => nofun, h.waiter, h.unblocks, h.knows, h.strays⟩
  intro _
  change r.msg.barrier = 0 + (r.pending.card : ℤ)
  rw [h.barrier hne.1, hne.2]

theorem Fine.block (h : r.Fine t) (hpc : r.pc = .blocking) : r.block.Fine t := by
  have hne : r.pc ≠ .idle ∧ share r.pc = 0 := by
    rw [hpc]
    exact ⟨nofun, rfl⟩
  unfold Unmapper.block
  split
  · exact h.retest (.inl hpc) false
  · rename_i hflag
    refine ⟨fun c vp htouches => ⟨(h.live c vp htouches).1, nofun⟩, h.future, h.sent, ?_, h.zero,
      trivial, ?_, fun _ => nofun, h.waiter, h.unblocks, h.knows, h.strays⟩
    · intro _
      change r.msg.barrier = 0 + (r.pending.card : ℤ)
      rw [h.barrier hne.1, hne.2]
    · intro hzero _
      rcases h.ready hzero hpc with hwakes | hset
      · exact hwakes
      · exact absurd hset hflag

theorem Fine.advance (h : r.Fine t) (hawaits : r.pc = .test → r.msg.barrier = 0 →
    ∀ vp ∈ r.sent, ¬ (r.handler (r.call, vp)).LoadsWaiter) : r.advance.Fine t := by
  unfold Unmapper.advance
  split
  · exact h
  · rename_i hpc
    exact h.raise hpc
  · rename_i hpc
    exact h.send hpc
  · rename_i hpc
    exact h.goto (by rw [hpc]; nofun) nofun (by rw [hpc]; rfl) trivial nofun nofun
  · rename_i hpc
    exact h.lowerOwn hpc
  · rename_i hpc
    exact h.test hpc (hawaits hpc)
  · rename_i hpc
    exact h.block hpc
  · exact h

/-! ## The steps of the handlers -/

theorem setHandler_self : (r.setHandler m h).handler m = h := update_self ..

theorem setHandler_ne {m' : ℕ × ℕ} (hm : m' ≠ m) : (r.setHandler m h).handler m' = r.handler m' :=
  update_of_ne hm _ _

theorem Touches.present (h' : Touches h) : h ≠ .absent := by
  rintro rfl
  exact h'.elim id id

theorem Fine.rehandle (hfine : r.Fine t) {b : ℤ} (hm : r.handler m ≠ .absent) (hh : h ≠ .absent)
    (hlive : Touches h → m.1 = r.call ∧ r.pc ≠ .idle)
    (hunblock : ∀ got id, h = .unblock got id → id = t) (hknows : m.1 = r.call → Knows r.msg.args h)
    (hbarrier : r.pc ≠ .idle → b = share r.pc + (r.setHandler m h).pending.card)
    (hzero : ∀ vp, ((r.setHandler m h).handler (r.call, vp)).LoadsWaiter → b = 0)
    (hwaker : b = 0 → r.pc = .blocked → ∃ vp, Wakes ((r.setHandler m h).handler (r.call, vp)))
    (hready : b = 0 → r.pc = .blocking →
      (∃ vp, Wakes ((r.setHandler m h).handler (r.call, vp))) ∨ r.wasUnblocked = true) : ({ r with
        msg := { r.msg with barrier := b }
        handler := update r.handler m h } : Unmapper τ).Fine t where
  live := by
    intro c u htouches
    change Touches ((r.setHandler m h).handler (c, u)) at htouches
    by_cases heq : (c, u) = m
    · subst m
      rw [setHandler_self] at htouches
      exact hlive htouches
    · rw [setHandler_ne heq] at htouches
      exact hfine.live c u htouches
  future := by
    intro c u hc
    change (r.setHandler m h).handler (c, u) = _
    rw [setHandler_ne]
    · exact hfine.future c u hc
    · rintro rfl
      exact hm (hfine.future c u hc)
  sent := by
    intro u
    change u ∈ r.sent ↔ (r.setHandler m h).handler (r.call, u) ≠ .absent
    rw [hfine.sent]
    by_cases heq : (r.call, u) = m
    · subst m
      rw [setHandler_self]
      exact iff_of_true hm hh
    · rw [setHandler_ne heq]
  barrier := hbarrier
  zero := hzero
  sends := by
    have hsends := hfine.sends
    cases hpc : r.pc <;> rw [hpc] at hsends <;> exact hsends
  waker := hwaker
  ready := hready
  waiter := hfine.waiter
  unblocks := by
    intro c u got id heq
    change (r.setHandler m h).handler (c, u) = _ at heq
    by_cases hmem : (c, u) = m
    · subst m
      rw [setHandler_self] at heq
      exact hunblock got id heq
    · rw [setHandler_ne hmem] at heq
      exact hfine.unblocks c u got id heq
  knows := by
    intro u
    change Knows r.msg.args ((r.setHandler m h).handler (r.call, u))
    by_cases heq : (r.call, u) = m
    · subst m
      rw [setHandler_self]
      exact hknows rfl
    · rw [setHandler_ne heq]
      exact hfine.knows u
  strays := hfine.strays

theorem pending_stay (hm : Pending (r.handler m) ↔ Pending h) :
    (r.setHandler m h).pending = r.pending := by
  ext u
  rw [mem_pending, mem_pending]
  change u ∈ r.sent ∧ Pending ((r.setHandler m h).handler (r.call, u)) ↔ _
  by_cases heq : (r.call, u) = m
  · subst m
    rw [setHandler_self, hm]
  · rw [setHandler_ne heq]

theorem Pending.not_wakes (hp : Pending h) : ¬ Wakes h ∧ ¬ h.LoadsWaiter := by
  cases h <;> first
    | exact hp.elim
    | exact ⟨id, id⟩

theorem wakes_of_ne {u : ℕ} (hw : Wakes (r.handler (r.call, u))) (hm : ¬ Wakes (r.handler m)) :
    Wakes ((r.setHandler m h).handler (r.call, u)) := by
  rw [setHandler_ne]
  · exact hw
  · rintro rfl
    exact hm hw

section

variable (hfine : r.Fine t)

include hfine

theorem Fine.touch (hm : Touches (r.handler m)) :
    r.touch m.1 = r ∧ m.1 = r.call ∧ r.pc ≠ .idle := by
  obtain ⟨hcall, hne⟩ := hfine.live m.1 m.2 hm
  refine ⟨?_, hcall, hne⟩
  unfold Unmapper.touch
  rw [if_pos ⟨hcall.symm, hne⟩]

theorem Fine.knows_of (hm : Touches (r.handler m)) :
    Knows r.msg.args (r.handler m) := by
  have hknows := hfine.knows m.2
  rw [← (hfine.touch hm).2.1] at hknows
  exact hknows

theorem Fine.keepPending (hm : Pending (r.handler m)) (hh : Pending h)
    (hknows : Knows r.msg.args h) : (r.setHandler m h).Fine t := by
  have hlive := hfine.touch (.inl hm)
  refine hfine.rehandle (Touches.present (.inl hm)) (Touches.present (.inl hh)) (fun _ => hlive.2) ?_
    (fun _ => hknows) ?_ ?_ ?_ ?_
  · rintro got id rfl
    exact hh.elim
  · rw [pending_stay (iff_of_true hm hh)]
    exact hfine.barrier
  · intro u hload
    by_cases heq : (r.call, u) = m
    · subst m
      rw [setHandler_self] at hload
      exact absurd hload hh.not_wakes.2
    · rw [setHandler_ne heq] at hload
      exact hfine.zero u hload
  · intro hzero hpc
    obtain ⟨u, hw⟩ := hfine.waker hzero hpc
    exact ⟨u, wakes_of_ne hw hm.not_wakes.1⟩
  · intro hzero hpc
    rcases hfine.ready hzero hpc with ⟨u, hw⟩ | hset
    · exact .inl ⟨u, wakes_of_ne hw hm.not_wakes.1⟩
    · exact .inr hset

theorem Fine.load (hm : r.handler m = .load k got) : (r.load m k got).Fine t := by
  have hpending : Pending (r.handler m) := by
    rw [hm]
    trivial
  have hknows := hfine.knows_of (.inl hpending)
  rw [hm] at hknows
  obtain ⟨hargs, hlt, hgot⟩ := hknows
  have hnext : got ++ [r.msg.args.getD got.length 0] = r.msg.args.take (got.length + 1) := by
    rw [List.take_add_one, ← hgot, List.getD_eq_getElem?_getD, List.getElem?_eq_getElem (by omega)]
    rfl
  have hlen : (r.msg.args.take (got.length + 1)).length = got.length + 1 := by
    rw [List.length_take]
    omega
  unfold Unmapper.load
  rw [(hfine.touch (.inl hpending)).1]
  apply hfine.keepPending hpending
  · unfold loaded
    split
    · trivial
    · trivial
  · unfold loaded
    rw [hnext, hlen]
    split
    · rename_i hmore
      exact ⟨hargs, by rw [hlen]; exact hmore, by rw [hlen]⟩
    · exact List.take_of_length_le (by omega)

theorem Fine.unmapLocal (hm : r.handler m = .unmapLocal got) :
    (r.setHandler m (.lower got)).Fine t := by
  have hpending : Pending (r.handler m) := by
    rw [hm]
    trivial
  have hknows := hfine.knows_of (.inl hpending)
  rw [hm] at hknows
  exact hfine.keepPending hpending trivial hknows

/-- The decrement: the handler that brings the barrier to zero is the last one, and it is the
one that unblocks. -/
theorem Fine.lower (hm : r.handler m = .lower got) : (r.lower m got).Fine t := by
  have hpending : Pending (r.handler m) := by
    rw [hm]
    trivial
  obtain ⟨htouch, hcall, hne⟩ := hfine.touch (.inl hpending)
  have hknows := hfine.knows_of (.inl hpending)
  rw [hm] at hknows
  unfold Unmapper.lower
  rw [htouch]
  generalize hh : (if r.msg.barrier = 1 then Handler.loadWaiter got else .finished got : Handler τ) = h
  have hplace : ¬ Pending h ∧ h ≠ .absent ∧ Knows r.msg.args h ∧
      (r.msg.barrier = 1 ∧ h = .loadWaiter got ∨ r.msg.barrier ≠ 1 ∧ h = .finished got) := by
    rw [← hh]
    split
    · rename_i hone
      exact ⟨id, nofun, hknows, .inl ⟨hone, rfl⟩⟩
    · rename_i hmany
      exact ⟨id, nofun, hknows, .inr ⟨hmany, rfl⟩⟩
  obtain ⟨hnot, hpresent, hknown, hcases⟩ := hplace
  have hmem : m = (r.call, m.2) := by
    rw [← hcall]
  have hvp : m.2 ∈ r.pending := by
    rw [mem_pending, hfine.sent, ← hmem]
    exact ⟨Touches.present (.inl hpending), hpending⟩
  have hpend : (r.setHandler m h).pending = r.pending.erase m.2 := by
    ext u
    rw [Finset.mem_erase, mem_pending, mem_pending]
    change u ∈ r.sent ∧ Pending ((r.setHandler m h).handler (r.call, u)) ↔ _
    by_cases hu : u = m.2
    · subst u
      rw [← hmem, setHandler_self]
      simp [hnot]
    · rw [setHandler_ne]
      · simp [hu]
      · intro heq
        rw [← heq] at hu
        exact hu rfl
  have hcard : (r.setHandler m h).pending.card + 1 = r.pending.card := by
    rw [hpend]
    exact Finset.card_erase_add_one hvp
  have hbarrier := hfine.barrier hne
  have hshare : 0 ≤ share r.pc := by
    cases r.pc <;> simp [share]
  have hwaker : r.msg.barrier + -1 = 0 → ∃ u, Wakes ((r.setHandler m h).handler (r.call, u)) := by
    intro hzero
    refine ⟨m.2, ?_⟩
    rw [← hmem, setHandler_self]
    rcases hcases with ⟨-, rfl⟩ | ⟨hmany, -⟩
    · trivial
    · exact absurd (by omega) hmany
  refine hfine.rehandle (Touches.present (.inl hpending)) hpresent (fun _ => ⟨hcall, hne⟩) ?_
    (fun _ => hknown) ?_ ?_ (fun hzero _ => hwaker hzero) (fun hzero _ => .inl (hwaker hzero))
  · rintro got' id rfl
    rcases hcases with ⟨-, heq⟩ | ⟨-, heq⟩ <;> cases heq
  · intro _
    omega
  · intro u hload
    by_cases heq : (r.call, u) = m
    · subst m
      rw [setHandler_self] at hload
      rcases hcases with ⟨hone, -⟩ | ⟨-, rfl⟩
      · omega
      · exact hload.elim
    · rw [setHandler_ne heq] at hload
      have hzero := hfine.zero u hload
      omega

theorem Fine.loadWaiter (hm : r.handler m = .loadWaiter got) : (r.loadWaiter m got).Fine t := by
  have hload : (r.handler m).LoadsWaiter := by
    rw [hm]
    trivial
  obtain ⟨htouch, hcall, hne⟩ := hfine.touch (.inr hload)
  have hknows := hfine.knows_of (.inr hload)
  rw [hm] at hknows
  unfold Unmapper.loadWaiter
  rw [htouch]
  have hwakes : ∀ u, Wakes (r.handler (r.call, u)) →
      Wakes ((r.setHandler m (.unblock got r.msg.waiter)).handler (r.call, u)) := by
    intro u hw
    by_cases heq : (r.call, u) = m
    · subst m
      rw [setHandler_self]
      trivial
    · rw [setHandler_ne heq]
      exact hw
  refine hfine.rehandle (Touches.present (.inr hload)) nofun (fun _ => ⟨hcall, hne⟩) ?_
    (fun _ => hknows) ?_ ?_ ?_ ?_
  · intro got' id heq
    cases heq
    exact hfine.waiter
  · rw [pending_stay (iff_of_false (by rw [hm]; exact id) id)]
    exact hfine.barrier
  · intro u hload
    by_cases heq : (r.call, u) = m
    · subst m
      rw [setHandler_self] at hload
      exact hload.elim
    · rw [setHandler_ne heq] at hload
      exact hfine.zero u hload
  · intro hzero hpc
    obtain ⟨u, hw⟩ := hfine.waker hzero hpc
    exact ⟨u, hwakes u hw⟩
  · intro hzero hpc
    rcases hfine.ready hzero hpc with ⟨u, hw⟩ | hset
    · exact .inl ⟨u, hwakes u hw⟩
    · exact .inr hset

theorem Fine.finish {waiter : τ} (hm : r.handler m = .unblock got waiter) :
    (r.setHandler m (.finished got)).wake.Fine t := by
  have hpresent : r.handler m ≠ .absent := by
    rw [hm]
    nofun
  have hknows : m.1 = r.call → Knows r.msg.args (.finished got : Handler τ) := by
    intro hcall
    have hknows := hfine.knows m.2
    rw [← hcall, Prod.mk.eta, hm] at hknows
    exact hknows
  have hzero : ∀ u, ((r.setHandler m (.finished got)).handler (r.call, u)).LoadsWaiter →
      r.msg.barrier = 0 := by
    intro u hload
    by_cases heq : (r.call, u) = m
    · subst m
      rw [setHandler_self] at hload
      exact hload.elim
    · rw [setHandler_ne heq] at hload
      exact hfine.zero u hload
  have hpending : (r.setHandler m (.finished got)).pending = r.pending :=
    pending_stay (iff_of_false (by rw [hm]; exact id) id)
  unfold Unmapper.wake
  split
  · rename_i hpc
    have htest : ({ r with pc := .test } : Unmapper τ).Fine t := hfine.retest (.inr hpc) r.wasUnblocked
    refine htest.rehandle hpresent nofun (fun hh => (hh.elim id id).elim) nofun hknows ?_ hzero
      (fun _ => nofun) (fun _ => nofun)
    intro hne
    have hbarrier := htest.barrier hne
    change r.msg.barrier = 0 + (r.pending.card : ℤ) at hbarrier
    change r.msg.barrier = 0 + ((r.setHandler m (.finished got)).pending.card : ℤ)
    rw [hpending]
    exact hbarrier
  · rename_i hpc
    have hflag := hfine.setUnblocked
    refine hflag.rehandle hpresent nofun (fun hh => (hh.elim id id).elim) nofun hknows ?_ hzero
      (fun _ hb => absurd hb hpc) (fun _ _ => .inr rfl)
    intro hne
    have hbarrier := hfine.barrier hne
    rw [← hpending] at hbarrier
    exact hbarrier

end

end Unmapper

namespace UnmapBarrier

variable {τ : Type} [DecidableEq τ] {s : UnmapBarrier τ} {t : τ}

/-! ## Steps -/

def Inv (s : UnmapBarrier τ) : Prop := ∀ t, (s t).Fine t

theorem Inv.set (h : Inv s) {r : Unmapper τ} (hr : r.Fine t) : Inv (s.set t r) := by
  intro u
  unfold UnmapBarrier.set
  exact update_cases hr (fun u _ => h u) u

theorem set_set (r r' : Unmapper τ) : (s.set t r).set t r' = s.set t r' := Function.update_idem ..

theorem Inv.handle (h : Inv s) (m : ℕ × ℕ) : Inv (s.handle t m) := by
  have ht := h t
  unfold UnmapBarrier.handle Unmapper.handle
  cases hm : (s t).handler m with
  | absent => exact h.set ht
  | load k got => exact h.set (ht.load hm)
  | unmapLocal got => exact h.set (ht.unmapLocal hm)
  | lower got => exact h.set (ht.lower hm)
  | loadWaiter got => exact h.set (ht.loadWaiter hm)
  | unblock got waiter =>
    obtain rfl := ht.unblocks m.1 m.2 got waiter hm
    dsimp only
    rw [set_set]
    apply h.set
    unfold UnmapBarrier.set
    rw [update_self]
    exact ht.finish hm
  | finished got => exact h.set ht

theorem Inv.step (h : Inv s) {a : Action τ} (hadm : s.adm a) (hawaits : s.awaits a) :
    Inv (s.step a) := by
  cases a with
  | internal_unmapPage t myRef offset myvp numprocs ppset =>
    exact h.set ((h t).start hadm (Unmapper.pageTargets_nodup ..) rfl)
  | unmapRange t myRef rangeAddr rangeSize mypp numprocs unionset =>
    exact h.set ((h t).start hadm (Unmapper.rangeTargets_nodup ..) rfl)
  | advance t => exact h.set ((h t).advance hawaits)
  | handle t m => exact h.handle m
  | wakeup t =>
    change Inv (if (s t).pc = .blocked then s.set t ((s t).goto .test) else s)
    split
    · rename_i hpc
      exact h.set ((h t).retest (.inr hpc) _)
    · exact h

/-! ## Runs -/

def Handler.Finished (args : List ℕ) (h : Handler τ) : Prop :=
  h = .finished args ∨ ∃ waiter, h = .unblock args waiter

/-- The barrier: in every interleaving in which no sender finds its barrier at zero before
the last handler has loaded the waiter, a call that has returned has had every processor it
sent to finish its local unmap of what the call was about; a sender that is blocked while
its barrier is zero is about to be unblocked; and no handler touches the record of a call
that has returned. -/
theorem run_waits {actions : List (Action τ)} {s : UnmapBarrier τ}
    (h : awaiting.Run init actions s) (t : τ) : ((s t).pc = .idle → ∀ vp ∈ (s t).sent,
      ((s t).handler ((s t).call, vp)).Finished (s t).msg.args) ∧
      ((s t).pc = .blocked → (s t).msg.barrier = 0 →
        ∃ m, ((s t).handler m).LoadsWaiter ∧ (s t).msg.waiter = t ∨
          ∃ got, (s t).handler m = .unblock got t) ∧
      (s t).strays = 0 := by
  have hinv : Inv s := by
    refine h.invariant Unmapper.fine_init ?_
    rintro s a hs ⟨hadm, hawaits⟩
    exact hs.step hadm hawaits
  have ht := hinv t
  refine ⟨?_, ?_, ht.strays⟩
  · intro hidle vp hvp
    have hpresent := (ht.sent vp).1 hvp
    have hlive : ¬ Unmapper.Touches ((s t).handler ((s t).call, vp)) :=
      fun htouches => (ht.live _ vp htouches).2 hidle
    have hknows := ht.knows vp
    cases hm : (s t).handler ((s t).call, vp) with
    | absent => exact absurd hm hpresent
    | load k got => exact absurd (.inl (by rw [hm]; trivial)) hlive
    | unmapLocal got => exact absurd (.inl (by rw [hm]; trivial)) hlive
    | lower got => exact absurd (.inl (by rw [hm]; trivial)) hlive
    | loadWaiter got => exact absurd (.inr (by rw [hm]; trivial)) hlive
    | unblock got waiter =>
      rw [hm] at hknows
      obtain rfl : got = (s t).msg.args := hknows
      exact .inr ⟨waiter, rfl⟩
    | finished got =>
      rw [hm] at hknows
      obtain rfl : got = (s t).msg.args := hknows
      exact .inl rfl
  · intro hblocked hzero
    obtain ⟨vp, hw⟩ := ht.waker hzero hblocked
    refine ⟨((s t).call, vp), ?_⟩
    cases hm : (s t).handler ((s t).call, vp) with
    | loadWaiter got => exact .inl ⟨trivial, ht.waiter⟩
    | unblock got waiter =>
      obtain rfl := ht.unblocks _ _ _ _ hm
      exact .inr ⟨got, rfl⟩
    | absent =>
      rw [hm] at hw
      exact hw.elim
    | load k got =>
      rw [hm] at hw
      exact hw.elim
    | unmapLocal got =>
      rw [hm] at hw
      exact hw.elim
    | lower got =>
      rw [hm] at hw
      exact hw.elim
    | finished got =>
      rw [hm] at hw
      exact hw.elim

instance (s : UnmapBarrier τ) : (a : Action τ) → Decidable (s.adm a)
  | .internal_unmapPage .. | .unmapRange .. => inferInstanceAs (Decidable (_ = _))
  | .advance _ | .handle .. | .wakeup _ => isTrue trivial

instance (h : Handler τ) : Decidable h.LoadsWaiter := by
  cases h <;> first
    | exact isTrue trivial
    | exact isFalse id

instance (s : UnmapBarrier τ) : (a : Action τ) → Decidable (s.awaits a)
  | .internal_unmapPage .. | .unmapRange .. | .handle .. | .wakeup _ => isTrue trivial
  | .advance _ => inferInstanceAs (Decidable (_ → _))

instance (s : UnmapBarrier τ) (a : Action τ) : Decidable (interleavings.adm s a) :=
  inferInstanceAs (Decidable (s.adm a))

instance (s : UnmapBarrier τ) (a : Action τ) : Decidable (awaiting.adm s a) :=
  inferInstanceAs (Decidable (s.adm a ∧ s.awaits a))

/-- A thread on processor 1 unmaps a page on the processors 0, 1 and 2, and blocks. -/
def threeProcessors : List (Action (Fin 1)) :=
  [.internal_unmapPage 0 5 8192 1 4 0b111, .advance 0, .advance 0, .advance 0, .advance 0,
    .advance 0, .advance 0, .advance 0, .advance 0,
    .handle 0 (1, 0), .handle 0 (1, 0), .handle 0 (1, 0), .handle 0 (1, 0),
    .handle 0 (1, 2), .handle 0 (1, 2), .handle 0 (1, 2), .handle 0 (1, 2), .handle 0 (1, 2),
    .handle 0 (1, 2), .advance 0]

theorem run_waits_threeProcessors :
    let s := threeProcessors.foldl awaiting.step init
    awaiting.Run init threeProcessors s ∧ (s 0).pc = .idle ∧ (s 0).sent = {0, 2} ∧
      (∀ vp ∈ (s 0).sent, ((s 0).handler ((s 0).call, vp)).Finished (s 0).msg.args) ∧
      (s 0).strays = 0 := by
  intro s
  have hadmits : awaiting.Admits init threeProcessors := by decide +kernel
  have hidle : (s 0).pc = .idle := by decide +kernel
  have hrun := run_waits hadmits.run 0
  exact ⟨hadmits.run, hidle, by decide +kernel, hrun.1 hidle, hrun.2.2⟩

/-- The handler on processor 2 brings the barrier to zero; the sender finds it so and
returns before the handler goes on. -/
def returnsEarly : List (Action (Fin 1)) :=
  [.unmapRange 0 5 4096 4096 1 4 ⟨0b100⟩, .advance 0, .advance 0, .advance 0,
    .handle 0 (1, 2), .handle 0 (1, 2), .handle 0 (1, 2), .handle 0 (1, 2), .handle 0 (1, 2),
    .advance 0]

/-- The handler loads the waiter from the record of a call that has returned. -/
theorem handler_touches_returned_record :
    let s := returnsEarly.foldl interleavings.step init
    interleavings.Run init returnsEarly s ∧ (s 0).pc = .idle ∧ ((s 0).handler (1, 2)).LoadsWaiter ∧
      (interleavings.step s (.handle 0 (1, 2)) 0).strays = 1 := by
  have hadmits : interleavings.Admits init returnsEarly := by decide +kernel
  exact ⟨hadmits.run, by decide +kernel, by decide +kernel, by decide +kernel⟩

end UnmapBarrier

end K42
