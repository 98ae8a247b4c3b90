import K42.Misc.SharedBuffer

/-!
# The kernel's paging transport

The kernel starts the reads and writes of pages through a shared buffer. A request that finds the
transport full, or its consumer busy, blocks its thread; a `tryStartWrite` queues a restart
request instead. A completed request wakes the blocked threads, and has the restart requests
notified.

A step is one critical section of the transport's lock. `ioComplete` has two: it takes the restart
requests in the first, gives up the lock to notify them, and counts the request as completed in
the second.
-/

namespace K42

namespace KernelPagingTransport

inductive RequestType
  | START_FILL | START_WRITE
deriving DecidableEq

structure Request where
  type : RequestType
  fileToken : ℕ
  addr : ℕ
  objOffset : ℕ
  size : ℕ
deriving DecidableEq

def NUM_ENTRIES : ℕ := 64

/-- What a critical section of `locked_put` ends with. -/
inductive PutStatus
  | success | blocked | EBUSY | EINVAL | panicked
deriving DecidableEq

end KernelPagingTransport

/-- The buffer, its two indices and the threads. `notified` are the threads in `locked_block` that
may take the lock again, and `completing` are the calls of `ioComplete` that have given it up, each
with the requests it notifies. A transport that has panicked keeps the lock. -/
structure KernelPagingTransport (ρ : Type) where
  entries : ℕ → KernelPagingTransport.Request
  pidx : ℕ
  cidx : ℕ
  outstanding : ℕ
  blockedThreadHighPriority : List KernelPagingTransport.Request
  blockedThreadOthers : List KernelPagingTransport.Request
  notified : List (KernelPagingTransport.Request × Bool)
  restartRequests : List ρ
  completing : List (List ρ)
  panicked : Bool

namespace KernelPagingTransport

variable {ρ : Type}

def init (entries : ℕ → Request) : KernelPagingTransport ρ where
  entries := entries
  pidx := 0
  cidx := NUM_ENTRIES - 1
  outstanding := 0
  blockedThreadHighPriority := []
  blockedThreadOthers := []
  notified := []
  restartRequests := []
  completing := []
  panicked := false

section Steps

variable (s : KernelPagingTransport ρ)

def Avail : ℕ := Ring.avail s.pidx s.cidx NUM_ENTRIES

def locked_isTransportFull : Bool := s.outstanding = NUM_ENTRIES - 1

/-! ## Requests -/

def locked_block (request : Request) (highPriority : Bool) : KernelPagingTransport ρ :=
  if highPriority then
    { s with blockedThreadHighPriority := request :: s.blockedThreadHighPriority }
  else { s with blockedThreadOthers := request :: s.blockedThreadOthers }

/-- The request is counted, and copied into the entry at `pidx`. -/
def putEntry (request : Request) : KernelPagingTransport ρ :=
  { s with
    outstanding := s.outstanding + 1
    entries := Function.update s.entries s.pidx request
    pidx := (s.pidx + 1) % NUM_ENTRIES }

/-- The request is not counted, and its entry is taken. -/
def takeBack (old_pidx : ℕ) : KernelPagingTransport ρ :=
  { s with outstanding := s.outstanding - 1, pidx := old_pidx }

/-- The end of `locked_put` after `kickConsumer` has returned `rc`. -/
def kicked (request : Request) (highPriority shouldBlock : Bool) (old_pidx : ℕ) (rc : KickStatus) :
    KernelPagingTransport ρ × PutStatus :=
  match rc with
  | .success => (s, .success)
  | .EBUSY =>
    let u := s.takeBack old_pidx
    if shouldBlock then (u.locked_block request highPriority, .blocked) else (u, .EBUSY)
  | .EINVAL =>
    if s.outstanding - 1 = 0 then
      ({ s with outstanding := s.outstanding - 1, panicked := true }, .panicked)
    else (s.takeBack old_pidx, .EINVAL)
  | .other => ({ s with panicked := true }, .panicked)

/-- From `while (locked_isTransportFull())` to a return or a `locked_block`; `rc` is what
`kickConsumer` returns, if it is called. -/
def locked_put (request : Request) (highPriority shouldBlock : Bool) (rc : KickStatus) :
    KernelPagingTransport ρ × PutStatus :=
  if s.locked_isTransportFull then
    if shouldBlock then (s.locked_block request highPriority, .blocked) else (s, .EBUSY)
  else
    let u := s.putEntry request
    if u.Avail = NUM_ENTRIES - 2 then u.kicked request highPriority shouldBlock s.pidx rc
    else (u, .success)

def startFillPage (fileToken addr objOffset : ℕ) (rc : KickStatus) : KernelPagingTransport ρ :=
  (s.locked_put ⟨.START_FILL, fileToken, addr, objOffset, 0⟩ true true rc).1

def startWrite (fileToken addr objOffset sz : ℕ) (rc : KickStatus) : KernelPagingTransport ρ :=
  (s.locked_put ⟨.START_WRITE, fileToken, addr, objOffset, sz⟩ false true rc).1

def tryStartWrite (fileToken addr objOffset sz : ℕ) (rr : ρ) (rc : KickStatus) :
    KernelPagingTransport ρ :=
  match s.locked_put ⟨.START_WRITE, fileToken, addr, objOffset, sz⟩ false false rc with
  | (u, .success) => u
  | (u, .panicked) => u
  | (u, _) => { u with restartRequests := rr :: u.restartRequests }

/-- A blocked thread that has been notified takes the lock, and tries again. -/
def retry (i : ℕ) (rc : KickStatus) : KernelPagingTransport ρ :=
  match s.notified[i]? with
  | none => s
  | some (request, highPriority) =>
    ({ s with notified := s.notified.eraseIdx i }.locked_put request highPriority true rc).1

/-! ## Completions -/

def locked_requestCompleted : KernelPagingTransport ρ :=
  { s with
    outstanding := s.outstanding - 1
    notified := s.notified ++ s.blockedThreadHighPriority.map (·, true) ++
      s.blockedThreadOthers.map (·, false)
    blockedThreadHighPriority := []
    blockedThreadOthers := [] }

/-- The first section of `ioComplete`, which is the only one when too many requests are
outstanding. -/
def ioComplete : KernelPagingTransport ρ :=
  if s.outstanding < NUM_ENTRIES - 15 then
    { s with restartRequests := [], completing := s.restartRequests :: s.completing }
  else s.locked_requestCompleted

/-- The second section of `ioComplete`. -/
def notifiedAll (i : ℕ) : KernelPagingTransport ρ :=
  { s with completing := s.completing.eraseIdx i }.locked_requestCompleted

/-- The consumer takes an entry out of the buffer. -/
def consume : KernelPagingTransport ρ :=
  if s.Avail = NUM_ENTRIES - 1 then s else { s with cidx := (s.cidx + 1) % NUM_ENTRIES }

end Steps

/-! ## Interleavings -/

inductive Op (ρ : Type)
  | startFillPage (fileToken addr objOffset : ℕ) (rc : KickStatus)
  | startWrite (fileToken addr objOffset sz : ℕ) (rc : KickStatus)
  | tryStartWrite (fileToken addr objOffset sz : ℕ) (rr : ρ) (rc : KickStatus)
  | retry (i : ℕ) (rc : KickStatus)
  | ioComplete
  | notifiedAll (i : ℕ)
  | consume

def step (s : KernelPagingTransport ρ) : Op ρ → KernelPagingTransport ρ
  | .startFillPage fileToken addr objOffset rc => s.startFillPage fileToken addr objOffset rc
  | .startWrite fileToken addr objOffset sz rc => s.startWrite fileToken addr objOffset sz rc
  | .tryStartWrite fileToken addr objOffset sz rr rc =>
    s.tryStartWrite fileToken addr objOffset sz rr rc
  | .retry i rc => s.retry i rc
  | .ioComplete => s.ioComplete
  | .notifiedAll i => s.notifiedAll i
  | .consume => s.consume

/-- `kickConsumer` returns `EBUSY` only while another request is outstanding. -/
def Ongoing (s : KernelPagingTransport ρ) (rc : KickStatus) : Prop :=
  rc = .EBUSY → 0 < s.outstanding

/-- The lock is free, and a call of `ioComplete` answers an outstanding request that no other one
answers. -/
def adm (s : KernelPagingTransport ρ) (op : Op ρ) : Prop :=
  s.panicked = false ∧ match op with
    | .startFillPage _ _ _ rc => s.Ongoing rc
    | .startWrite _ _ _ _ rc => s.Ongoing rc
    | .tryStartWrite _ _ _ _ _ rc => s.Ongoing rc
    | .retry _ rc => s.Ongoing rc
    | .ioComplete => s.completing.length < s.outstanding
    | .notifiedAll i => i < s.completing.length
    | .consume => True

def interleavings : Machine (KernelPagingTransport ρ) (Op ρ) := ⟨step, adm⟩

/-- The put of a request fails. -/
def Refuses (s : KernelPagingTransport ρ) (rc : KickStatus) : Prop :=
  s.locked_isTransportFull ∨
    Ring.avail ((s.pidx + 1) % NUM_ENTRIES) s.cidx NUM_ENTRIES = NUM_ENTRIES - 2 ∧
      (rc = .EBUSY ∨ rc = .EINVAL ∧ s.outstanding ≠ 0)

/-- Restart requests are queued, or left in the queue, only while an outstanding request is left
whose `ioComplete` has not begun. -/
def picksUp (s : KernelPagingTransport ρ) : Op ρ → Prop
  | .tryStartWrite _ _ _ _ _ rc => s.Refuses rc → s.completing.length < s.outstanding
  | .ioComplete => NUM_ENTRIES - 15 ≤ s.outstanding → s.restartRequests ≠ [] →
      s.completing.length + 1 < s.outstanding
  | _ => True

def pickingUp : Machine (KernelPagingTransport ρ) (Op ρ) :=
  ⟨step, fun s op => s.adm op ∧ s.picksUp op⟩

/-- Somebody waits for a completion. -/
def Waits (s : KernelPagingTransport ρ) : Prop :=
  s.restartRequests ≠ [] ∨ s.blockedThreadHighPriority ≠ [] ∨ s.blockedThreadOthers ≠ []

/-- While the lock is free, nobody waits without an outstanding request. -/
def StrandsNobody (s : KernelPagingTransport ρ) : Prop :=
  s.panicked = false → s.Waits → 0 < s.outstanding

/-! ## What a put can do -/

section Invariant

variable {s u : KernelPagingTransport ρ} {request : Request} {highPriority shouldBlock : Bool}
  {rc : KickStatus}

/-- What a section of `locked_put` leaves of the transport. -/
structure Puts (s u : KernelPagingTransport ρ) : Prop where
  restartRequests : u.restartRequests = s.restartRequests
  completing : u.completing = s.completing
  outstanding : s.outstanding ≤ u.outstanding
  blocked : u.blockedThreadHighPriority ≠ [] ∨ u.blockedThreadOthers ≠ [] →
    (s.blockedThreadHighPriority ≠ [] ∨ s.blockedThreadOthers ≠ []) ∨ 0 < s.outstanding

theorem outstanding_of_full (h : s.locked_isTransportFull = true) : 0 < s.outstanding := by
  have houtstanding : s.outstanding = NUM_ENTRIES - 1 := of_decide_eq_true h
  rw [houtstanding]
  decide

theorem puts_block {v : KernelPagingTransport ρ} (h : Puts s u) (hpos : 0 < s.outstanding)
    (hv : v = u.locked_block request highPriority) : Puts s v := by
  subst hv
  unfold locked_block
  split
  · exact ⟨h.restartRequests, h.completing, h.outstanding, fun _ => .inr hpos⟩
  · exact ⟨h.restartRequests, h.completing, h.outstanding, fun _ => .inr hpos⟩

theorem puts_kicked (hrc : s.Ongoing rc) :
    Puts s ((s.putEntry request).kicked request highPriority shouldBlock s.pidx rc).1 := by
  have htaken : Puts s ((s.putEntry request).takeBack s.pidx) := ⟨rfl, rfl, le_rfl, .inl⟩
  unfold kicked
  cases rc with
  | success => exact ⟨rfl, rfl, Nat.le_succ _, .inl⟩
  | EBUSY =>
    cases shouldBlock with
    | true => exact puts_block htaken (hrc rfl) rfl
    | false => exact htaken
  | EINVAL =>
    dsimp only
    split
    · exact ⟨rfl, rfl, le_rfl, .inl⟩
    · exact htaken
  | other => exact ⟨rfl, rfl, Nat.le_succ _, .inl⟩

theorem puts_locked_put (hrc : s.Ongoing rc) :
    Puts s (s.locked_put request highPriority shouldBlock rc).1 := by
  have hsame : Puts s s := ⟨rfl, rfl, le_rfl, .inl⟩
  unfold locked_put
  by_cases hfull : s.locked_isTransportFull
  · rw [if_pos hfull]
    cases shouldBlock with
    | true => exact puts_block hsame (outstanding_of_full hfull) rfl
    | false => exact hsame
  · rw [if_neg hfull]
    dsimp only
    split
    · exact puts_kicked hrc
    · exact ⟨rfl, rfl, Nat.le_succ _, .inl⟩

theorem refuses_of_tryPut (hbusy : (s.locked_put request highPriority false rc).2 ≠ .success)
    (hpanicked : (s.locked_put request highPriority false rc).2 ≠ .panicked) : s.Refuses rc := by
  unfold locked_put at hbusy hpanicked
  by_cases hfull : s.locked_isTransportFull
  · exact .inl hfull
  · rw [if_neg hfull] at hbusy hpanicked
    dsimp only at hbusy hpanicked
    by_cases havail : (s.putEntry request).Avail = NUM_ENTRIES - 2
    · rw [if_pos havail] at hbusy hpanicked
      refine .inr ⟨havail, ?_⟩
      cases rc with
      | success => exact absurd rfl hbusy
      | EBUSY => exact .inl rfl
      | EINVAL =>
        refine .inr ⟨rfl, fun hzero => ?_⟩
        have hone : (s.putEntry request).outstanding - 1 = 0 := hzero
        unfold kicked at hpanicked
        dsimp only at hpanicked
        rw [if_pos hone] at hpanicked
        exact hpanicked rfl
      | other => exact absurd rfl hpanicked
    · rw [if_neg havail] at hbusy
      exact absurd rfl hbusy

/-! ## The invariant -/

/-- While a restart request is queued, an outstanding request is left whose `ioComplete` has not
begun; and a thread is blocked only while a request is outstanding. -/
structure Inv (s : KernelPagingTransport ρ) : Prop where
  answered : s.completing.length ≤ s.outstanding
  restart : s.restartRequests ≠ [] → s.completing.length < s.outstanding
  blocked : s.blockedThreadHighPriority ≠ [] ∨ s.blockedThreadOthers ≠ [] → 0 < s.outstanding

theorem inv_init (entries : ℕ → Request) : Inv (init entries : KernelPagingTransport ρ) where
  answered := le_rfl
  restart := fun h => absurd rfl h
  blocked := by
    rintro (h | h)
    · exact absurd rfl h
    · exact absurd rfl h

theorem Inv.puts (h : Inv s) (hputs : Puts s u) : Inv u where
  answered := by
    rw [hputs.completing]
    exact le_trans h.answered hputs.outstanding
  restart := by
    intro hqueued
    rw [hputs.restartRequests] at hqueued
    rw [hputs.completing]
    exact lt_of_lt_of_le (h.restart hqueued) hputs.outstanding
  blocked := by
    intro hblocked
    have hpos : 0 < s.outstanding := by
      rcases hputs.blocked hblocked with hblocked | hpos
      · exact h.blocked hblocked
      · exact hpos
    exact lt_of_lt_of_le hpos hputs.outstanding

theorem Inv.enqueue (h : Inv s) (hleft : s.completing.length < s.outstanding) (rr : ρ) :
    Inv { s with restartRequests := rr :: s.restartRequests } :=
  ⟨h.answered, fun _ => hleft, h.blocked⟩

theorem Inv.tryStartWrite (h : Inv s) (hrc : s.Ongoing rc) {fileToken addr objOffset sz : ℕ}
    (hpicks : s.Refuses rc → s.completing.length < s.outstanding) (rr : ρ) :
    Inv (s.tryStartWrite fileToken addr objOffset sz rr rc) := by
  unfold KernelPagingTransport.tryStartWrite
  generalize hr : s.locked_put ⟨.START_WRITE, fileToken, addr, objOffset, sz⟩ false false rc = r
  have hputs : Puts s r.1 := hr ▸ puts_locked_put hrc
  have hrefuses : r.2 ≠ .success → r.2 ≠ .panicked → s.Refuses rc := hr ▸ refuses_of_tryPut
  obtain ⟨u, status⟩ := r
  have hu : Inv u := h.puts hputs
  split
  · rename_i heq
    cases heq
    exact hu
  · rename_i heq
    cases heq
    exact hu
  · rename_i u' status' hsuccess hpanicked heq
    cases heq
    refine hu.enqueue ?_ rr
    rw [hputs.completing]
    exact lt_of_lt_of_le (hpicks (hrefuses hsuccess hpanicked)) hputs.outstanding

theorem Inv.requestCompleted (hanswered : s.completing.length ≤ s.outstanding - 1)
    (hrestart : s.restartRequests ≠ [] → s.completing.length < s.outstanding - 1) :
    Inv s.locked_requestCompleted where
  answered := hanswered
  restart := hrestart
  blocked := by
    rintro (h | h)
    · exact absurd rfl h
    · exact absurd rfl h

theorem Inv.ioComplete (h : Inv s) (hadm : s.completing.length < s.outstanding)
    (hpicks : NUM_ENTRIES - 15 ≤ s.outstanding → s.restartRequests ≠ [] →
      s.completing.length + 1 < s.outstanding) : Inv s.ioComplete := by
  unfold KernelPagingTransport.ioComplete
  split_ifs with hfew
  · exact ⟨hadm, fun hqueued => absurd rfl hqueued, h.blocked⟩
  · refine Inv.requestCompleted (Nat.le_pred_of_lt hadm) ?_
    intro hqueued
    exact Nat.lt_pred_iff.2 (hpicks (not_lt.1 hfew) hqueued)

theorem Inv.notifiedAll (h : Inv s) {i : ℕ} (hi : i < s.completing.length) :
    Inv (s.notifiedAll i) := by
  have hlength : (s.completing.eraseIdx i).length = s.completing.length - 1 :=
    List.length_eraseIdx_of_lt hi
  refine Inv.requestCompleted ?_ ?_
  · have hanswered := h.answered
    change (s.completing.eraseIdx i).length ≤ s.outstanding - 1
    rw [hlength]
    exact Nat.sub_le_sub_right hanswered 1
  · intro hqueued
    have hleft := h.restart hqueued
    change (s.completing.eraseIdx i).length < s.outstanding - 1
    rw [hlength]
    exact Nat.sub_lt_sub_right (Nat.one_le_of_lt hi) hleft

theorem Inv.step (h : Inv s) {op : Op ρ} (hadm : s.adm op) (hpicks : s.picksUp op) :
    Inv (s.step op) := by
  obtain ⟨-, hadm⟩ := hadm
  cases op with
  | startFillPage fileToken addr objOffset rc => exact h.puts (puts_locked_put hadm)
  | startWrite fileToken addr objOffset sz rc => exact h.puts (puts_locked_put hadm)
  | tryStartWrite fileToken addr objOffset sz rr rc => exact h.tryStartWrite hadm hpicks rr
  | retry i rc =>
    change Inv (s.retry i rc)
    unfold KernelPagingTransport.retry
    split
    · exact h
    · have hleft : Inv { s with notified := s.notified.eraseIdx i } :=
        ⟨h.answered, h.restart, h.blocked⟩
      exact hleft.puts (puts_locked_put hadm)
  | ioComplete => exact h.ioComplete hadm hpicks
  | notifiedAll i => exact h.notifiedAll hadm
  | consume =>
    change Inv s.consume
    unfold KernelPagingTransport.consume
    split_ifs
    · exact h
    · exact ⟨h.answered, h.restart, h.blocked⟩

theorem Inv.strandsNobody (h : Inv s) : s.StrandsNobody := by
  rintro - (hqueued | hblocked)
  · exact lt_of_le_of_lt (Nat.zero_le _) (h.restart hqueued)
  · exact h.blocked hblocked

/-- If every restart request is queued, and left in the queue, while some outstanding request is
still to be picked up, then nobody waits without an outstanding request. -/
theorem run_strands_nobody {entries : ℕ → Request} {ops : List (Op ρ)}
    (h : pickingUp.Run (init entries) ops s) : s.StrandsNobody := by
  have hinv : Inv s := by
    refine h.invariant (inv_init entries) ?_
    rintro s op hs ⟨hadm, hpicks⟩
    exact hs.step hadm hpicks
  exact hinv.strandsNobody

end Invariant

instance (s : KernelPagingTransport ρ) (rc : KickStatus) : Decidable (s.Ongoing rc) :=
  inferInstanceAs (Decidable (_ → _))

instance (s : KernelPagingTransport ρ) (rc : KickStatus) : Decidable (s.Refuses rc) :=
  inferInstanceAs (Decidable (_ ∨ _))

instance (s : KernelPagingTransport ρ) (op : Op ρ) : Decidable (interleavings.adm s op) :=
  match op with
  | .startFillPage .. | .startWrite .. | .tryStartWrite .. | .retry .. | .ioComplete
  | .notifiedAll _ | .consume => inferInstanceAs (Decidable (_ ∧ _))

instance [DecidableEq ρ] (s : KernelPagingTransport ρ) (op : Op ρ) : Decidable (s.picksUp op) :=
  match op with
  | .tryStartWrite .. | .ioComplete => inferInstanceAs (Decidable (_ → _))
  | .startFillPage .. | .startWrite .. | .retry .. | .notifiedAll _ | .consume => isTrue trivial

instance [DecidableEq ρ] (s : KernelPagingTransport ρ) (op : Op ρ) :
    Decidable (pickingUp.adm s op) :=
  inferInstanceAs (Decidable (interleavings.adm s op ∧ s.picksUp op))

def entry : Request := ⟨.START_FILL, 0, 0, 0, 0⟩

/-- While a read is outstanding, the consumer is busy: a `tryStartWrite` queues its request, and a
write blocks. -/
def queuesAndBlocks : List (Op ℕ) :=
  [.startFillPage 1 10 0 .success, .consume, .tryStartWrite 1 20 0 5 7 .EBUSY,
    .startWrite 1 30 0 5 .EBUSY]

theorem run_strands_nobody_queuesAndBlocks :
    let s := queuesAndBlocks.foldl pickingUp.step (init fun _ => entry)
    pickingUp.Run (init fun _ => entry) queuesAndBlocks s ∧ s.restartRequests = [7] ∧
      s.blockedThreadOthers ≠ [] ∧ 0 < s.outstanding := by
  intro s
  have hadmits : pickingUp.Admits (init fun _ => entry) queuesAndBlocks := by decide +kernel
  have hqueued : s.restartRequests = [7] := by decide +kernel
  have hblocked : s.blockedThreadOthers ≠ [] := by decide +kernel
  have hpanicked : s.panicked = false := by decide +kernel
  exact ⟨hadmits.run, hqueued, hblocked,
    run_strands_nobody hadmits.run hpanicked (.inr (.inr hblocked))⟩

/-- The only outstanding request completes: between the two sections of its `ioComplete`, a
`tryStartWrite` finds the consumer busy. -/
def refusedInBetween : List (Op ℕ) :=
  [.startWrite 1 10 0 5 .success, .consume, .ioComplete, .tryStartWrite 1 20 0 5 7 .EBUSY,
    .notifiedAll 0]

def write : Op ℕ := .startWrite 1 10 0 5 .success

/-- 48 completions wait between their sections while 15 more writes fill the transport; a
`tryStartWrite` is refused, and the 15 writes complete without a look at its request. -/
def refusedWhenFull : List (Op ℕ) :=
  (List.replicate 48 [write, .consume]).flatten ++ List.replicate 48 Op.ioComplete ++
    (List.replicate 15 [write, .consume]).flatten ++ [Op.tryStartWrite 1 20 0 5 7 .success] ++
    List.replicate 15 Op.ioComplete ++ List.replicate 48 (Op.notifiedAll 0)

/-- A restart request is queued with no request outstanding. -/
theorem stranded : (let s := refusedInBetween.foldl interleavings.step (init fun _ => entry)
    interleavings.Run (init fun _ => entry) refusedInBetween s ∧ s.restartRequests = [7] ∧
      s.outstanding = 0 ∧ ¬ s.StrandsNobody) ∧
    (let s := refusedWhenFull.foldl interleavings.step (init fun _ => entry)
    interleavings.Run (init fun _ => entry) refusedWhenFull s ∧ s.restartRequests = [7] ∧
      s.outstanding = 0 ∧ ¬ s.StrandsNobody) := by
  have hnot : ∀ s : KernelPagingTransport ℕ, s.panicked = false → s.restartRequests = [7] →
      s.outstanding = 0 → ¬ s.StrandsNobody := by
    intro s hpanicked hqueued hzero hstrands
    have hpos := hstrands hpanicked (.inl (by rw [hqueued]; exact List.cons_ne_nil _ _))
    rw [hzero] at hpos
    exact absurd hpos (lt_irrefl 0)
  have hbetween : interleavings.Admits (init fun _ => entry) refusedInBetween := by decide +kernel
  have hfull : interleavings.Admits (init fun _ => entry) refusedWhenFull := by decide +kernel
  refine ⟨⟨hbetween.run, by decide +kernel, by decide +kernel, hnot _ ?_ ?_ ?_⟩,
    hfull.run, by decide +kernel, by decide +kernel, hnot _ ?_ ?_ ?_⟩
  all_goals decide +kernel

end KernelPagingTransport

end K42
