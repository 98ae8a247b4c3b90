import K42.Lib.Ring
import K42.Lib.Run

/-!
# A buffer of requests shared by two processes

The producer writes requests into a circular buffer in shared memory and kicks the
consumer when the buffer was empty; the consumer takes requests until it finds the
buffer empty. Producers exclude each other by a lock, and so do consumers, but there is
no lock between the two sides: they share the entries and the two indices.

A step is one access to what is shared. `locked_block` gives up the lock of the
producers, so that a blocked thread starts again with the test for room.
-/

namespace K42

/-- How `locked_isTransportFull` is implemented: by the room in the buffer, or by the
number of requests not completed. -/
inductive FlowControl
  | avail | outstanding
deriving DecidableEq

/-- The outcomes of `kickConsumer` that `locked_put` tells apart. -/
inductive KickStatus
  | success | EBUSY | EINVAL | other
deriving DecidableEq

/-- The thread that holds the lock of the producers, in `locked_put` of a request. -/
inductive Producer (ρ : Type)
  | idle
  | testing (request : ρ) (shouldBlock : Bool)
  | copying (request : ρ) (shouldBlock : Bool)
  | advancing (request : ρ) (shouldBlock : Bool)
  | checking (request : ρ) (shouldBlock : Bool) (oldPidx : ℕ)
  | kicking (request : ρ) (shouldBlock : Bool) (oldPidx : ℕ)
  | takingBack (request : ρ) (shouldBlock : Bool) (oldPidx : ℕ) (rc : KickStatus)
  | panicked (request : ρ)
deriving DecidableEq

/-- The thread that holds the lock of the consumers, in `locked_getRequest`. -/
inductive Consumer (ρ : Type)
  | idle | copying | advancing (request : ρ)
deriving DecidableEq

/-- The shared memory, both sides, and what has gone through. `blocked` and `notified`
are the requests of the threads in `locked_block`; `kicks` have been delivered and not
been answered yet, and `draining` is the number of loops over `locked_getRequest`. -/
structure SharedBuffer (ρ : Type) where
  numEntries : ℕ
  flow : FlowControl
  entries : ℕ → ρ
  pidx : ℕ
  cidx : ℕ
  outstanding : ℕ
  producer : Producer ρ
  blocked : List ρ
  notified : List ρ
  consumer : Consumer ρ
  kicks : ℕ
  draining : ℕ
  completed : ℕ
  accepted : List ρ
  obtained : List ρ

namespace SharedBuffer

variable {ρ : Type}

def init (numEntries : ℕ) (flow : FlowControl) (entries : ℕ → ρ) : SharedBuffer ρ where
  numEntries := numEntries
  flow := flow
  entries := entries
  pidx := 0
  cidx := numEntries - 1
  outstanding := 0
  producer := .idle
  blocked := []
  notified := []
  consumer := .idle
  kicks := 0
  draining := 0
  completed := 0
  accepted := []
  obtained := []

/-- `Avail` of the two indices. -/
def Avail (s : SharedBuffer ρ) : ℕ := Ring.avail s.pidx s.cidx s.numEntries

def IsEmpty (s : SharedBuffer ρ) : Bool := s.Avail = s.numEntries - 1

/-! ## The producer -/

def locked_isTransportFull (s : SharedBuffer ρ) : Bool :=
  match s.flow with
  | .avail => s.Avail = 1
  | .outstanding => s.outstanding = s.numEntries - 1

/-- The lock is given up; the thread starts again when it has been notified. -/
def locked_block (s : SharedBuffer ρ) (request : ρ) : SharedBuffer ρ :=
  { s with producer := .idle, blocked := request :: s.blocked }

/-- `locked_put` succeeds. -/
def accept (s : SharedBuffer ρ) (request : ρ) : SharedBuffer ρ :=
  { s with producer := .idle, accepted := s.accepted ++ [request] }

def testFull (s : SharedBuffer ρ) (request : ρ) (shouldBlock : Bool) : SharedBuffer ρ :=
  if s.locked_isTransportFull then
    if shouldBlock then s.locked_block request else { s with producer := .idle }
  else { s with producer := .copying request shouldBlock }

def copyEntry (s : SharedBuffer ρ) (request : ρ) (shouldBlock : Bool) : SharedBuffer ρ :=
  { s with
    outstanding := s.outstanding + 1
    entries := Function.update s.entries s.pidx request
    producer := .advancing request shouldBlock }

def advancePidx (s : SharedBuffer ρ) (request : ρ) (shouldBlock : Bool) : SharedBuffer ρ :=
  { s with
    pidx := (s.pidx + 1) % s.numEntries
    producer := .checking request shouldBlock s.pidx }

/-- The buffer has gone from empty to non empty. -/
def checkAvail (s : SharedBuffer ρ) (request : ρ) (shouldBlock : Bool) (oldPidx : ℕ) :
    SharedBuffer ρ :=
  if s.Avail = s.numEntries - 2 then { s with producer := .kicking request shouldBlock oldPidx }
  else s.accept request

def kickConsumer (s : SharedBuffer ρ) (request : ρ) (shouldBlock : Bool) (oldPidx : ℕ)
    (rc : KickStatus) : SharedBuffer ρ :=
  match rc with
  | .success => { s.accept request with kicks := s.kicks + 1 }
  | .EBUSY => { s with producer := .takingBack request shouldBlock oldPidx .EBUSY }
  | .EINVAL => { s with producer := .takingBack request shouldBlock oldPidx .EINVAL }
  | .other => { s with producer := .panicked request }

/-- The current request is not counted, and its entry is taken. -/
def takeBack (s : SharedBuffer ρ) (request : ρ) (shouldBlock : Bool) (oldPidx : ℕ)
    (rc : KickStatus) : SharedBuffer ρ :=
  let s := { s with outstanding := s.outstanding - 1 }
  if rc = .EINVAL ∧ s.outstanding = 0 then { s with producer := .panicked request }
  else
    let s := { s with pidx := oldPidx }
    if rc = .EBUSY ∧ shouldBlock then s.locked_block request else { s with producer := .idle }

/-- The next step of `locked_put`; `rc` is the outcome of a kick. -/
def produce (s : SharedBuffer ρ) (rc : KickStatus) : SharedBuffer ρ :=
  match s.producer with
  | .idle => s
  | .testing request shouldBlock => s.testFull request shouldBlock
  | .copying request shouldBlock => s.copyEntry request shouldBlock
  | .advancing request shouldBlock => s.advancePidx request shouldBlock
  | .checking request shouldBlock oldPidx => s.checkAvail request shouldBlock oldPidx
  | .kicking request shouldBlock oldPidx => s.kickConsumer request shouldBlock oldPidx rc
  | .takingBack request shouldBlock oldPidx rc => s.takeBack request shouldBlock oldPidx rc
  | .panicked _ => s

def locked_requestCompleted (s : SharedBuffer ρ) : SharedBuffer ρ :=
  { s with
    outstanding := s.outstanding - 1
    completed := s.completed + 1
    notified := s.blocked ++ s.notified
    blocked := [] }

/-! ## The consumer -/

def newCidx (s : SharedBuffer ρ) : ℕ := if s.cidx + 1 = s.numEntries then 0 else s.cidx + 1

/-- The next step of `locked_getRequest`, in one of the loops that end with an empty
buffer. -/
def consume (s : SharedBuffer ρ) : SharedBuffer ρ :=
  match s.consumer with
  | .idle =>
    if s.IsEmpty then { s with draining := s.draining - 1 } else { s with consumer := .copying }
  | .copying => { s with consumer := .advancing (s.entries s.newCidx) }
  | .advancing request =>
    { s with cidx := s.newCidx, obtained := s.obtained ++ [request], consumer := .idle }

/-! ## Interleavings -/

inductive Action (ρ : Type)
  | put (request : ρ) (shouldBlock : Bool)
  | produce (rc : KickStatus)
  | resume (i : ℕ)
  | requestCompleted
  | start
  | consume

def step (s : SharedBuffer ρ) : Action ρ → SharedBuffer ρ
  | .put request shouldBlock => { s with producer := .testing request shouldBlock }
  | .produce rc => s.produce rc
  | .resume i =>
    match s.notified[i]? with
    | none => s
    | some request =>
      { s with producer := .testing request true, notified := s.notified.eraseIdx i }
  | .requestCompleted => s.locked_requestCompleted
  | .start => { s with kicks := s.kicks - 1, draining := s.draining + 1 }
  | .consume => s.consume

/-- Calls on the side of the producers need their lock; the consumer completes a request
it has got, once, and runs a loop for each kick. -/
def adm (s : SharedBuffer ρ) : Action ρ → Prop
  | .put _ _ => s.producer = .idle
  | .produce _ => True
  | .resume _ => s.producer = .idle
  | .requestCompleted => s.producer = .idle ∧ s.completed < s.obtained.length
  | .start => 0 < s.kicks
  | .consume => 0 < s.draining

def interleavings : Machine (SharedBuffer ρ) (Action ρ) := ⟨step, adm⟩

/-- The entry that is about to be taken back. -/
def takenBack : Producer ρ → Option ℕ
  | .takingBack _ _ oldPidx _ => some oldPidx
  | _ => none

/-- An entry is taken back only if the consumer has neither taken it nor begun to. -/
def intact (s : SharedBuffer ρ) : Action ρ → Prop
  | .produce _ => ∀ oldPidx ∈ takenBack s.producer, s.cidx ≠ oldPidx ∧ s.consumer = .idle
  | _ => True

/-- The interleavings in which no entry is taken back that the consumer has seen. -/
def undisturbed : Machine (SharedBuffer ρ) (Action ρ) := ⟨step, fun s a => s.adm a ∧ s.intact a⟩

/-- The requests in the buffer, from the next one to be consumed. -/
def unread (s : SharedBuffer ρ) : List ρ :=
  (List.range (s.numEntries - 1 - s.Avail)).map
    fun i => s.entries ((s.cidx + 1 + i) % s.numEntries)

/-- The request that has been made visible by a `locked_put` that has not returned. -/
def putting (s : SharedBuffer ρ) : List ρ :=
  match s.producer with
  | .checking request _ _ => [request]
  | .kicking request _ _ => [request]
  | .takingBack request _ _ _ => [request]
  | .panicked request => [request]
  | _ => []

/-! ## The invariant -/

section Invariant

variable {s : SharedBuffer ρ} {q : List ρ}

/-- How many requests may be in the buffer. -/
def limit (s : SharedBuffer ρ) : ℕ :=
  match s.flow with
  | .avail => s.numEntries - 2
  | .outstanding => s.numEntries - 1

/-- Whether the request of a `locked_put` is counted as outstanding. -/
def counted : Producer ρ → ℕ
  | .advancing _ _ => 1
  | .checking _ _ _ => 1
  | .kicking _ _ _ => 1
  | .takingBack _ _ _ _ => 1
  | _ => 0

/-- There is room for one more entry. -/
def HasRoom (s : SharedBuffer ρ) (q : List ρ) : Prop :=
  q.length < s.limit

/-- What `locked_put` has established at each of its steps. -/
def Stage (s : SharedBuffer ρ) (q : List ρ) : Producer ρ → Prop
  | .copying _ _ =>
    s.HasRoom q ∧ (s.flow = .outstanding → s.outstanding < s.numEntries - 1)
  | .advancing request _ => s.HasRoom q ∧ s.entries s.pidx = request
  | .checking _ _ oldPidx => s.pidx = (oldPidx + 1) % s.numEntries ∧ oldPidx < s.numEntries
  | .kicking _ _ oldPidx =>
    s.pidx = (oldPidx + 1) % s.numEntries ∧ oldPidx < s.numEntries ∧ q.length ≤ 1
  | .takingBack _ _ oldPidx _ =>
    s.pidx = (oldPidx + 1) % s.numEntries ∧ oldPidx < s.numEntries ∧ q.length ≤ 1
  | _ => True

/-- What `locked_getRequest` has established. -/
def Reading (q : List ρ) : Consumer ρ → Prop
  | .idle => True
  | .copying => q ≠ []
  | .advancing request => q.head? = some request

/-- The outstanding requests are those accepted or about to be, less those completed. -/
def Charged (s : SharedBuffer ρ) : Prop :=
  s.flow = .outstanding → (∀ request, s.producer ≠ .panicked request) →
    s.outstanding + s.completed = s.accepted.length + counted s.producer ∧
      s.outstanding ≤ s.numEntries - 1

structure Inv (s : SharedBuffer ρ) (q : List ρ) : Prop where
  large : 2 ≤ s.numEntries
  holds : Ring.Holds s.numEntries s.entries s.cidx s.pidx q
  account : s.obtained ++ q = s.accepted ++ s.putting
  kicked : s.putting.length < q.length → 0 < s.kicks + s.draining
  limited : q.length ≤ s.limit
  stage : s.Stage q s.producer
  reading : Reading q s.consumer
  charged : s.Charged
  completed : s.completed ≤ s.obtained.length

theorem Inv.avail (h : Inv s q) : s.Avail = s.numEntries - 1 - q.length := h.holds.avail

theorem Inv.isEmpty_iff (h : Inv s q) : s.IsEmpty = true ↔ q = [] := by
  have hroom := h.holds.room
  have hlarge := h.large
  rw [IsEmpty, decide_eq_true_eq, h.avail, ← List.length_eq_zero_iff]
  omega

theorem Inv.unread_eq (h : Inv s q) : s.unread = q := by
  have hroom := h.holds.room
  have hlen : s.numEntries - 1 - s.Avail = q.length := by
    rw [h.avail]
    omega
  unfold unread
  rw [hlen]
  apply List.ext_getElem?
  intro i
  rw [List.getElem?_map]
  rcases Nat.lt_or_ge i q.length with hi | hi
  · have hget := List.getElem?_eq_getElem hi
    rw [List.getElem?_range hi, hget, Option.map_some, h.holds.get i _ hget]
  · rw [List.getElem?_eq_none hi, List.getElem?_eq_none (by rw [List.length_range]; exact hi)]
    rfl

theorem Inv.limit_lt (h : Inv s q) : s.limit < s.numEntries := by
  have hlarge := h.large
  unfold limit
  split <;> omega

variable {request : ρ} {shouldBlock : Bool} {oldPidx : ℕ}

section

variable (h : Inv s q)

include h

theorem Inv.eq_append (hput : s.putting = [request]) (hq : q ≠ []) :
    ∃ q', q = q' ++ [request] := by
  have haccount := h.account
  rw [hput] at haccount
  obtain ⟨q', x, rfl⟩ := List.eq_nil_or_concat q |>.resolve_left hq
  rw [List.concat_eq_append] at haccount ⊢
  rw [← List.append_assoc] at haccount
  obtain ⟨-, hx⟩ := List.append_inj' haccount rfl
  cases hx
  exact ⟨q', rfl⟩

theorem Inv.goto {p : Producer ρ} {b r : List ρ} (hput : s.putting = [])
    (hput' : { s with producer := p }.putting = []) (hpanic : ∀ request, s.producer ≠ .panicked request)
    (hcounted : counted p = counted s.producer) (hstage : s.Stage q p) :
    Inv { s with producer := p, blocked := b, notified := r } q := by
  have haccount := h.account
  have hkicked := h.kicked
  rw [hput] at haccount hkicked
  refine ⟨h.large, h.holds, ?_, ?_, h.limited, hstage, h.reading, ?_, h.completed⟩
  · change s.obtained ++ q = s.accepted ++ { s with producer := p }.putting
    rw [hput']
    exact haccount
  · change { s with producer := p }.putting.length < q.length → _
    rw [hput']
    exact hkicked
  · intro hflow _
    change _ = _ + counted p ∧ _
    rw [hcounted]
    exact h.charged hflow hpanic

/-! ## Steps of the producer -/

theorem Inv.accept (hput : s.putting = [request])
    (hpanic : ∀ request, s.producer ≠ .panicked request) (hcounted : counted s.producer = 1)
    {k : ℕ} (hkicked : q ≠ [] → 0 < k + s.draining) :
    Inv { s.accept request with kicks := k } q := by
  have haccount := h.account
  rw [hput] at haccount
  refine ⟨h.large, h.holds, ?_, ?_, h.limited, trivial, h.reading, ?_, h.completed⟩
  · change s.obtained ++ q = (s.accepted ++ [request]) ++ []
    rw [List.append_nil]
    exact haccount
  · intro hlt
    exact hkicked (List.ne_nil_of_length_pos (Nat.lt_of_le_of_lt (Nat.zero_le _) hlt))
  · intro hflow _
    have hcharged := h.charged hflow hpanic
    rw [hcounted] at hcharged
    change s.outstanding + s.completed = (s.accepted ++ [request]).length + 0 ∧ _
    rw [List.length_append, List.length_singleton]
    exact hcharged

theorem Inv.testFull
    (hp : s.producer = .testing request shouldBlock) : Inv (s.testFull request shouldBlock) q := by
  have hput : s.putting = [] := by rw [putting, hp]
  have hpanic : ∀ request, s.producer ≠ .panicked request := by
    rw [hp]
    exact nofun
  have hcounted : counted s.producer = 0 := by rw [hp]; rfl
  unfold SharedBuffer.testFull
  split
  · split
    · exact h.goto (p := .idle) hput rfl hpanic hcounted.symm trivial
    · exact h.goto (p := .idle) hput rfl hpanic hcounted.symm trivial
  · rename_i hfull
    apply h.goto (p := .copying request shouldBlock) hput rfl hpanic hcounted.symm
    have hlarge := h.large
    have havail := h.avail
    have hroom := h.holds.room
    have hlimited := h.limited
    have hlength : s.obtained.length + q.length = s.accepted.length := by
      have := congrArg List.length h.account
      rw [hput, List.append_nil, List.length_append] at this
      exact this
    have hcompleted := h.completed
    have hcharged := h.charged
    change q.length < s.limit ∧ (s.flow = .outstanding → s.outstanding < s.numEntries - 1)
    unfold locked_isTransportFull at hfull
    unfold limit at hlimited ⊢
    cases hflow : s.flow with
    | avail =>
      simp only [hflow, decide_eq_true_eq] at hfull hlimited ⊢
      exact ⟨by omega, nofun⟩
    | outstanding =>
      simp only [hflow, decide_eq_true_eq] at hfull ⊢
      obtain ⟨hsum, hle⟩ := hcharged hflow hpanic
      rw [hcounted] at hsum
      exact ⟨by omega, fun _ => by omega⟩

theorem Inv.copyEntry
    (hp : s.producer = .copying request shouldBlock) : Inv (s.copyEntry request shouldBlock) q := by
  have hput : s.putting = [] := by rw [putting, hp]
  have haccount := h.account
  have hkicked := h.kicked
  have hstage := h.stage
  rw [hput] at haccount hkicked
  rw [hp] at hstage
  refine ⟨h.large, h.holds.write request, haccount, hkicked, h.limited, ⟨hstage.1, ?_⟩, h.reading, ?_,
    h.completed⟩
  · exact Function.update_self ..
  · intro hflow _
    have hlt := hstage.2 hflow
    obtain ⟨hsum, -⟩ := h.charged hflow (by rw [hp]; exact nofun)
    rw [hp] at hsum
    change s.outstanding + s.completed = s.accepted.length + 0 at hsum
    change s.outstanding + 1 + s.completed = s.accepted.length + 1 ∧
      s.outstanding + 1 ≤ s.numEntries - 1
    omega

theorem Inv.advancePidx (hp : s.producer = .advancing request shouldBlock) :
    Inv (s.advancePidx request shouldBlock) (q ++ [request]) := by
  have hput : s.putting = [] := by rw [putting, hp]
  have haccount := h.account
  have hkicked := h.kicked
  have hstage := h.stage
  have hlimit := h.limit_lt
  rw [hput] at haccount hkicked
  rw [hp] at hstage
  obtain ⟨hroom, hentry⟩ := hstage
  unfold HasRoom at hroom
  refine ⟨h.large, h.holds.advance (by omega) hentry, ?_, ?_, ?_, ⟨rfl, h.holds.pidx_lt⟩, ?_, ?_,
    h.completed⟩
  · change s.obtained ++ (q ++ [request]) = s.accepted ++ [request]
    rw [← List.append_assoc, haccount, List.append_nil]
  · intro hlt
    apply hkicked
    rw [List.length_append] at hlt
    change 1 < _ + 1 at hlt
    rw [List.length_nil]
    omega
  · change _ ≤ s.limit
    rw [List.length_append, List.length_singleton]
    exact hroom
  · -- what the consumer reads is still first
    have hreading := h.reading
    change Reading (q ++ [request]) s.consumer
    cases hc : s.consumer with
    | idle => trivial
    | copying => exact List.append_ne_nil_of_right_ne_nil _ (List.cons_ne_nil _ _)
    | advancing r =>
      rw [hc] at hreading
      change q.head? = some r at hreading
      change (q ++ [request]).head? = some r
      rw [List.head?_append, hreading]
      rfl
  · intro hflow _
    have hcharged := h.charged hflow (by rw [hp]; exact nofun)
    rw [hp] at hcharged
    exact hcharged

theorem Inv.checkAvail (hp : s.producer = .checking request shouldBlock oldPidx) :
    Inv (s.checkAvail request shouldBlock oldPidx) q := by
  have hput : s.putting = [request] := by rw [putting, hp]
  have hcounted : counted s.producer = 1 := by rw [hp]; rfl
  have hpanic : ∀ request, s.producer ≠ .panicked request := by
    rw [hp]
    exact nofun
  have hlarge := h.large
  have havail := h.avail
  have hroom := h.holds.room
  have haccount := h.account
  have hkicked := h.kicked
  have hstage := h.stage
  rw [hput] at haccount hkicked
  rw [hp] at hstage
  unfold SharedBuffer.checkAvail
  split
  · refine ⟨h.large, h.holds, haccount, hkicked, h.limited, ⟨hstage.1, hstage.2, by omega⟩, h.reading,
      ?_, h.completed⟩
    intro hflow _
    have hcharged := h.charged hflow hpanic
    rw [hcounted] at hcharged
    exact hcharged
  · rename_i hmore
    apply h.accept hput hpanic hcounted
    intro hq
    have hlen := List.length_pos_iff.2 hq
    apply hkicked
    rw [List.length_singleton]
    omega

theorem Inv.kickConsumer
    (hp : s.producer = .kicking request shouldBlock oldPidx) (rc : KickStatus) :
    Inv (s.kickConsumer request shouldBlock oldPidx rc) q := by
  have hput : s.putting = [request] := by rw [putting, hp]
  have hcounted : counted s.producer = 1 := by rw [hp]; rfl
  have hpanic : ∀ request, s.producer ≠ .panicked request := by
    rw [hp]
    exact nofun
  have haccount := h.account
  have hkicked := h.kicked
  have hstage := h.stage
  have hcharged := h.charged
  rw [hput] at haccount hkicked
  rw [hp] at hstage
  unfold Charged at hcharged
  rw [hcounted] at hcharged
  unfold SharedBuffer.kickConsumer
  cases rc with
  | success => exact h.accept hput hpanic hcounted fun _ => by omega
  | EBUSY =>
    exact ⟨h.large, h.holds, haccount, hkicked, h.limited, hstage, h.reading,
      fun hflow _ => hcharged hflow hpanic, h.completed⟩
  | EINVAL =>
    exact ⟨h.large, h.holds, haccount, hkicked, h.limited, hstage, h.reading,
      fun hflow _ => hcharged hflow hpanic, h.completed⟩
  | other =>
    exact ⟨h.large, h.holds, haccount, hkicked, h.limited, trivial, h.reading,
      fun _ hpanic => absurd rfl (hpanic request), h.completed⟩

theorem Inv.takeBack {rc : KickStatus}
    (hp : s.producer = .takingBack request shouldBlock oldPidx rc) (hcidx : s.cidx ≠ oldPidx)
    (hconsumer : s.consumer = .idle) :
    ∃ q', Inv (s.takeBack request shouldBlock oldPidx rc) q' := by
  have hput : s.putting = [request] := by rw [putting, hp]
  have hcounted : counted s.producer = 1 := by rw [hp]; rfl
  have hpanic : ∀ request, s.producer ≠ .panicked request := by
    rw [hp]
    exact nofun
  have haccount := h.account
  have hkicked := h.kicked
  have hstage := h.stage
  have hcharged := h.charged
  rw [hput] at haccount hkicked
  rw [hp] at hstage
  obtain ⟨hpidx, hold, hlen⟩ := hstage
  unfold Charged at hcharged
  rw [hcounted] at hcharged
  unfold SharedBuffer.takeBack
  dsimp only
  split
  · exact ⟨q, h.large, h.holds, haccount, hkicked, h.limited, trivial, h.reading,
      fun _ hpanic => absurd rfl (hpanic request), h.completed⟩
  · have hholds := h.holds
    rw [hpidx] at hholds
    have hq : q ≠ [] := by
      rintro rfl
      exact hcidx (hholds.cidx_eq hold)
    obtain ⟨q', rfl⟩ := h.eq_append hput hq
    have hnil : q' = [] := by
      rw [List.length_append, List.length_singleton] at hlen
      exact List.length_eq_zero_iff.1 (by omega)
    subst hnil
    have haccount' : s.obtained = s.accepted := by
      have := List.append_inj_left' haccount rfl
      exact this
    have hdone : ∀ b, Inv { s with
        outstanding := s.outstanding - 1, pidx := oldPidx, producer := .idle, blocked := b } [] := by
      intro b
      refine ⟨h.large, hholds.takeBack hold, ?_, nofun, Nat.zero_le _, trivial, ?_, ?_, h.completed⟩
      · change s.obtained ++ [] = s.accepted ++ []
        rw [haccount']
      · change Reading [] s.consumer
        rw [hconsumer]
        trivial
      · intro hflow _
        obtain ⟨hsum, hle⟩ := hcharged hflow hpanic
        change s.outstanding - 1 + s.completed = s.accepted.length + 0 ∧
          s.outstanding - 1 ≤ s.numEntries - 1
        have := h.completed
        rw [haccount'] at this
        omega
    refine ⟨[], ?_⟩
    split
    · exact hdone _
    · exact hdone _

theorem Inv.produce {rc : KickStatus} (hintact : s.intact (.produce rc)) :
    ∃ q', Inv (s.produce rc) q' := by
  unfold SharedBuffer.produce
  cases hp : s.producer with
  | idle => exact ⟨q, h⟩
  | testing request shouldBlock => exact ⟨q, h.testFull hp⟩
  | copying request shouldBlock => exact ⟨q, h.copyEntry hp⟩
  | advancing request shouldBlock => exact ⟨_, h.advancePidx hp⟩
  | checking request shouldBlock oldPidx => exact ⟨q, h.checkAvail hp⟩
  | kicking request shouldBlock oldPidx => exact ⟨q, h.kickConsumer hp rc⟩
  | takingBack request shouldBlock oldPidx rc =>
    obtain ⟨hcidx, hconsumer⟩ := hintact oldPidx (by rw [hp]; rfl)
    exact h.takeBack hp hcidx hconsumer
  | panicked request => exact ⟨q, h⟩

/-! ## Steps of the consumer -/

theorem Inv.setKicks {k d : ℕ} (hkicked : q ≠ [] → s.kicks + s.draining ≤ k + d) :
    Inv { s with kicks := k, draining := d } q := by
  refine ⟨h.large, h.holds, h.account, ?_, h.limited, h.stage, h.reading, h.charged, h.completed⟩
  intro hlt
  have hpos := h.kicked hlt
  have hle := hkicked (List.ne_nil_of_length_pos (Nat.lt_of_le_of_lt (Nat.zero_le _) hlt))
  change 0 < k + d
  omega

theorem Inv.setConsumer {c : Consumer ρ} (hc : Reading q c) :
    Inv { s with consumer := c } q :=
  ⟨h.large, h.holds, h.account, h.kicked, h.limited, h.stage, hc, h.charged, h.completed⟩

theorem Inv.newCidx_eq : s.newCidx = (s.cidx + 1) % s.numEntries := by
  have hlast := h.holds.last
  unfold newCidx
  split
  · rename_i heq
    rw [heq, Nat.mod_self]
  · rw [Nat.mod_eq_of_lt (by omega)]

theorem Inv.consume : ∃ q', Inv s.consume q' := by
  have hreading := h.reading
  unfold SharedBuffer.consume
  cases hc : s.consumer with
  | idle =>
    dsimp only
    split
    · rename_i hempty
      have hidle : Inv { s with consumer := .idle } q := h.setConsumer trivial
      exact ⟨q, hidle.setKicks fun hq => absurd (h.isEmpty_iff.1 hempty) hq⟩
    · rename_i hempty
      exact ⟨q, h.setConsumer fun hq => hempty (h.isEmpty_iff.2 hq)⟩
  | copying =>
    rw [hc] at hreading
    obtain ⟨x, q', rfl⟩ := List.exists_cons_of_ne_nil hreading
    refine ⟨_, h.setConsumer ?_⟩
    rw [h.newCidx_eq, h.holds.pop.1]
    rfl
  | advancing request =>
    rw [hc] at hreading
    obtain ⟨q', rfl⟩ : ∃ q', q = request :: q' := List.head?_eq_some_iff.1 hreading
    refine ⟨q', h.large, ?_, ?_, ?_, ?_, ?_, trivial, h.charged, ?_⟩
    · change Ring.Holds s.numEntries s.entries s.newCidx s.pidx q'
      rw [h.newCidx_eq]
      exact h.holds.pop.2
    · change (s.obtained ++ [request]) ++ q' = s.accepted ++ s.putting
      rw [List.append_assoc]
      exact h.account
    · intro hlt
      apply h.kicked
      rw [List.length_cons]
      exact Nat.lt_succ_of_lt hlt
    · have hlimited := h.limited
      rw [List.length_cons] at hlimited
      exact Nat.le_of_succ_le hlimited
    · have hstage := h.stage
      change s.Stage q' s.producer
      cases hp : s.producer with
      | idle => trivial
      | testing _ _ => trivial
      | panicked _ => trivial
      | copying _ _ =>
        rw [hp] at hstage
        exact ⟨Nat.lt_of_succ_lt hstage.1, hstage.2⟩
      | advancing _ _ =>
        rw [hp] at hstage
        exact ⟨Nat.lt_of_succ_lt hstage.1, hstage.2⟩
      | checking _ _ _ =>
        rw [hp] at hstage
        exact hstage
      | kicking _ _ _ =>
        rw [hp] at hstage
        exact ⟨hstage.1, hstage.2.1, Nat.le_of_succ_le hstage.2.2⟩
      | takingBack _ _ _ _ =>
        rw [hp] at hstage
        exact ⟨hstage.1, hstage.2.1, Nat.le_of_succ_le hstage.2.2⟩
    · have hcompleted := h.completed
      change s.completed ≤ (s.obtained ++ [request]).length
      rw [List.length_append, List.length_singleton]
      exact Nat.le_succ_of_le hcompleted

theorem Inv.requestCompleted (hp : s.producer = .idle)
    (hcompleted : s.completed < s.obtained.length) : Inv s.locked_requestCompleted q := by
  have hput : s.putting = [] := by rw [putting, hp]
  refine ⟨h.large, h.holds, h.account, h.kicked, h.limited, ?_, h.reading, ?_, hcompleted⟩
  · change SharedBuffer.Stage _ q s.producer
    rw [hp]
    trivial
  · intro hflow hpanic
    obtain ⟨hsum, hle⟩ := h.charged hflow hpanic
    have hlength := congrArg List.length h.account
    rw [hput, List.append_nil, List.length_append] at hlength
    change s.outstanding - 1 + (s.completed + 1) = s.accepted.length + counted s.producer ∧
      s.outstanding - 1 ≤ s.numEntries - 1
    rw [hp] at hsum ⊢
    change s.outstanding + s.completed = s.accepted.length + 0 at hsum
    change _ = _ + 0 ∧ _
    omega

theorem Inv.step {a : Action ρ} (hadm : s.adm a) (hintact : s.intact a) :
    ∃ q', Inv (s.step a) q' := by
  cases a with
  | put request shouldBlock =>
    have hput : s.putting = [] := by rw [putting, hadm]
    exact ⟨q, h.goto (p := .testing request shouldBlock) hput rfl (by rw [hadm]; exact nofun)
      (by rw [hadm]; rfl) trivial⟩
  | produce rc => exact h.produce hintact
  | resume i =>
    have hput : s.putting = [] := by rw [putting, hadm]
    change ∃ q', Inv (match s.notified[i]? with
      | none => s
      | some request =>
        { s with producer := .testing request true, notified := s.notified.eraseIdx i }) q'
    split
    · exact ⟨q, h⟩
    · exact ⟨q, h.goto (p := .testing _ true) hput rfl (by rw [hadm]; exact nofun)
        (by rw [hadm]; rfl) trivial⟩
  | requestCompleted => exact ⟨q, h.requestCompleted hadm.1 hadm.2⟩
  | start =>
    refine ⟨q, h.setKicks fun _ => ?_⟩
    change 0 < s.kicks at hadm
    omega
  | consume => exact h.consume

end

end Invariant

theorem inv_init {numEntries : ℕ} (hlarge : 2 ≤ numEntries) (flow : FlowControl) (entries : ℕ → ρ) :
    Inv (init numEntries flow entries) [] where
  large := hlarge
  holds := by
    have hlast : numEntries - 1 < numEntries := by omega
    have h : Ring.Holds numEntries entries _ _ [] := Ring.Holds.empty hlast
    have hzero : (numEntries - 1 + 1) % numEntries = 0 := by
      rw [Nat.sub_add_cancel (by omega), Nat.mod_self]
    rw [hzero] at h
    exact h
  account := rfl
  kicked := nofun
  limited := Nat.zero_le _
  stage := trivial
  reading := trivial
  charged := fun _ _ => ⟨rfl, Nat.zero_le _⟩
  completed := le_refl _

/-- Every request is delivered once, in order: in every interleaving in which no entry is
taken back that the consumer has seen, the requests obtained and those still in the buffer
are the requests accepted and the one being put. And the consumer is not left asleep:
with a request in the buffer and no `locked_put` at its kick, a kick has been delivered
that has not been drained. -/
theorem run_delivers {numEntries : ℕ} (hlarge : 2 ≤ numEntries) (flow : FlowControl)
    (entries : ℕ → ρ) {actions : List (Action ρ)} {s : SharedBuffer ρ}
    (h : undisturbed.Run (init numEntries flow entries) actions s) :
    s.obtained ++ s.unread = s.accepted ++ s.putting ∧
      (s.unread ≠ [] → s.putting = [] → 0 < s.kicks + s.draining) := by
  have hinv : ∃ q, Inv s q := by
    refine h.invariant (I := fun s => ∃ q, Inv s q) ⟨[], inv_init hlarge flow entries⟩ ?_
    rintro s a ⟨q, hs⟩ ⟨hadm, hintact⟩
    exact hs.step hadm hintact
  obtain ⟨q, hinv⟩ := hinv
  rw [hinv.unread_eq]
  refine ⟨hinv.account, ?_⟩
  intro hq hput
  apply hinv.kicked
  rw [hput]
  exact List.length_pos_iff.2 hq

/-! ## Two short runs -/

instance [DecidableEq ρ] (s : SharedBuffer ρ) : (a : Action ρ) → Decidable (s.adm a)
  | .put .. | .resume _ => inferInstanceAs (Decidable (_ = _))
  | .produce _ => isTrue trivial
  | .requestCompleted => inferInstanceAs (Decidable (_ ∧ _))
  | .start => inferInstanceAs (Decidable (0 < s.kicks))
  | .consume => inferInstanceAs (Decidable (0 < s.draining))

instance [DecidableEq ρ] (s : SharedBuffer ρ) : (a : Action ρ) → Decidable (s.intact a)
  | .produce _ => inferInstanceAs (Decidable (∀ _, _ → _))
  | .put .. | .resume _ | .requestCompleted | .start | .consume => isTrue trivial

instance [DecidableEq ρ] (s : SharedBuffer ρ) (a : Action ρ) : Decidable (interleavings.adm s a) :=
  inferInstanceAs (Decidable (s.adm a))

instance [DecidableEq ρ] (s : SharedBuffer ρ) (a : Action ρ) : Decidable (undisturbed.adm s a) :=
  inferInstanceAs (Decidable (s.adm a ∧ s.intact a))

def empty : SharedBuffer ℕ := init 4 .outstanding fun _ => 0

/-- A first request is put and delivered by a kick; the loop of the consumer goes on. -/
def deliverOne : List (Action ℕ) :=
  .put 7 false :: List.replicate 5 (.produce .success) ++ .start :: List.replicate 3 .consume

/-- The kick for a second request fails, and its entry is taken back. -/
def kickFails : List (Action ℕ) :=
  deliverOne ++ .put 8 false :: List.replicate 6 (.produce .EBUSY) ++ [.consume]

theorem run_delivers_kickFails :
    let s := kickFails.foldl undisturbed.step empty
    undisturbed.Run empty kickFails s ∧ s.obtained = [7] ∧ s.accepted = [7] ∧ s.draining = 0 ∧
      s.obtained ++ s.unread = s.accepted ++ s.putting := by
  intro s
  have hadmits : undisturbed.Admits empty kickFails := by decide +kernel
  exact ⟨hadmits.run, by decide +kernel, by decide +kernel, by decide +kernel,
    (run_delivers (by decide) _ _ hadmits.run).1⟩

/-- The consumer takes the second request between the test of the producer and its kick. -/
def takesBackTaken : List (Action ℕ) :=
  deliverOne ++ .put 8 false :: List.replicate 4 (.produce .success) ++
    List.replicate 3 .consume ++ List.replicate 2 (.produce .EBUSY)

/-- The request of a failed `locked_put` is delivered, and the buffer seems full. -/
theorem delivers_refused :
    let s := takesBackTaken.foldl interleavings.step empty
    interleavings.Run empty takesBackTaken s ∧ s.producer = .idle ∧ s.accepted = [7] ∧
      s.obtained = [7, 8] ∧ s.unread = [0, 0, 7] := by
  intro s
  have hadmits : interleavings.Admits empty takesBackTaken := by decide +kernel
  exact ⟨hadmits.run, by decide +kernel, by decide +kernel, by decide +kernel, by decide +kernel⟩

end SharedBuffer

end K42
