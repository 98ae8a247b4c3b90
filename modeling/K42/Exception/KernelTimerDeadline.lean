import K42.Exception.KernelTimer

/-!
# The hardware deadline of the kernel timer

`setInterval(x)` makes the clock interrupt at `now + x`, whatever it was set to before, and the
interrupt stays pending until `timerInterrupt` runs. The timer does not give the clock a new
interval with each change; `deadlineAfter` says what the deadline is after a call.
-/

namespace K42.KernelTimer

open Linked
open UInt64 (le_of_lt le_refl le_trans not_lt)

variable {α : Type}

/-! ## The calls of `setInterval` -/

/-- The deadline that is set when the clock reads `now`. -/
def setInterval (now interval : SysTime) : SysTime := now + interval

section Deadlines

variable (t : KernelTimer α) (deadline : SysTime)

def delayDeadline (now : SysTime) : SysTime :=
  if t.when < t.nextWhen then
    if t.nextWhen > now then setInterval now (t.nextWhen - now) else deadline
  else deadline

def setDispatchDeadline (now quantum : SysTime) : SysTime :=
  let t := { t with dispatchTime := now + quantum }
  match t.anchor with
  | some pa =>
    if t.timeOf pa < t.dispatchTime then
      if t.when ≠ t.timeOf pa then
        let when := if t.timeOf pa < now then now else t.timeOf pa
        setInterval now (when - now)
      else deadline
    else setInterval now quantum
  | none => setInterval now quantum

variable [DecidableEq α] [Fintype α]

def resetDeadline (source : α) (now : SysTime) : SysTime :=
  if t.timeOf source = SYSTIME_MAX then deadline
  else
    match walk t.next (fun pa => pa = source) (Fintype.card α) none t.anchor with
    | some (none, some cur) =>
      let t := t.setWhen cur SYSTIME_MAX
      { t with anchor := t.next cur }.delayDeadline deadline now
    | _ => deadline

def insertDeadline (whenTime : SysTime) (source : α) (now : SysTime) : SysTime :=
  let t := t.setWhen source whenTime
  match walk t.next (fun pa => !(t.timeOf pa ≤ whenTime)) (Fintype.card α) none t.anchor with
  | some (none, _) =>
    if whenTime < t.dispatchTime then
      let when := if whenTime < now then now else whenTime
      setInterval now (when - now)
    else deadline
  | _ => deadline

def setEventDeadline (whenTime : SysTime) (source : α) (now nowReset : SysTime) : SysTime :=
  if t.timeOf source ≠ SYSTIME_MAX then
    match t.reset source nowReset with
    | none => deadline
    | some t' => t'.insertDeadline (t.resetDeadline deadline source nowReset) whenTime source now
  else t.insertDeadline deadline whenTime source now

def requestDeadline (whenTime : SysTime) (kind : TimerKind) (source : α)
    (now nowReset : SysTime) : SysTime :=
  match kind with
  | .invalid => deadline
  | .queryTicksPerSecond => deadline
  | .queryNow => deadline
  | .reset => t.resetDeadline deadline source now
  | .relative =>
    if t.timeOf source < whenTime + now then deadline
    else t.setEventDeadline deadline (whenTime + now) source now nowReset
  | .absolute => t.setEventDeadline deadline whenTime source now nowReset

/-- `timerInterrupt` always gives the clock a new interval. -/
def deadlineAfter : Call α → SysTime
  | .timerRequest whenTime kind source now nowReset =>
    t.requestDeadline deadline whenTime kind source now nowReset
  | .setDispatchTime now quantum => t.setDispatchDeadline deadline now quantum
  | .timerInterrupt now =>
    match t.timerInterrupt now with
    | none => deadline
    | some (t', _) => setInterval now t'.interval

end Deadlines

/-! ## The next interrupt -/

/-- The deadline is at most the clock, or at most the first event and the dispatcher's time. -/
def Early (t : KernelTimer α) (clock deadline : SysTime) : Prop :=
  deadline ≤ clock ∨ deadline ≤ t.dispatchTime ∧ ∀ pa ∈ t.anchor, deadline ≤ t.timeOf pa

variable {t t' : KernelTimer α} {l l' : List α} {source : α} {now clock deadline : SysTime}

theorem setInterval_sub (now when : SysTime) : setInterval now (when - now) = when := by
  rw [setInterval, UInt64.add_comm]
  exact UInt64.sub_add_cancel when now

theorem le_nextWhen (w : SysTime) :
    w ≤ t.nextWhen ↔ w ≤ t.dispatchTime ∧ ∀ pa ∈ t.anchor, w ≤ t.timeOf pa := by
  unfold nextWhen
  cases hanchor : t.anchor with
  | none => simp
  | some pa =>
    simp only [Option.mem_some_iff, forall_eq']
    split
    · rename_i hlt
      refine ⟨fun hw => ⟨le_trans hw (le_of_lt hlt), hw⟩, fun h => h.2⟩
    · rename_i hle
      exact ⟨fun hw => ⟨hw, le_trans hw (not_lt.mp hle)⟩, fun h => h.1⟩

theorem early_iff : Early t clock deadline ↔ deadline ≤ clock ∨ deadline ≤ t.nextWhen := by
  rw [Early, le_nextWhen]

theorem Chain.le_nextWhen (h : Chain t l) (w : SysTime) :
    w ≤ t.nextWhen ↔ w ≤ t.dispatchTime ∧ ∀ pa ∈ l, w ≤ t.timeOf pa := by
  rw [KernelTimer.le_nextWhen, h.path.head_eq]
  refine and_congr_right fun _ => ?_
  cases l with
  | nil => simp
  | cons a l =>
    rw [List.head?_cons]
    simp only [Option.mem_some_iff, forall_eq']
    constructor
    · intro hw pa hpa
      rcases List.mem_cons.mp hpa with rfl | hpa
      · exact hw
      · exact le_trans hw (List.rel_of_pairwise_cons h.sorted hpa)
    · exact fun hw => hw a List.mem_cons_self

theorem Chain.nextWhen_le (h : Chain t l) (h' : Chain t' l') (hsub : ∀ pa ∈ l', pa ∈ l)
    (htime : ∀ pa ∈ l', t'.timeOf pa = t.timeOf pa) (hdispatch : t'.dispatchTime = t.dispatchTime) :
    t.nextWhen ≤ t'.nextWhen := by
  obtain ⟨hd, hw⟩ := (h.le_nextWhen t.nextWhen).mp (le_refl _)
  refine (h'.le_nextWhen t.nextWhen).mpr ⟨?_, ?_⟩
  · rw [hdispatch]
    exact hd
  · intro pa hpa
    rw [htime pa hpa]
    exact hw pa (hsub pa hpa)

theorem Early.mono (h : Early t clock deadline) (hclock : clock ≤ now)
    (hnext : t.nextWhen ≤ t'.nextWhen) : Early t' now deadline := by
  rw [early_iff] at h ⊢
  rcases h with h | h
  · exact .inl (le_trans h hclock)
  · exact .inr (le_trans h hnext)

theorem delayInterrupt_nextWhen (t : KernelTimer α) (now : SysTime) :
    (t.delayInterrupt now).nextWhen = t.nextWhen := by
  simp only [delayInterrupt]
  split <;> rfl

theorem delayDeadline_or (t : KernelTimer α) (deadline now : SysTime) :
    t.delayDeadline deadline now = deadline ∨ t.delayDeadline deadline now = t.nextWhen := by
  unfold delayDeadline
  split
  · split
    · exact .inr (setInterval_sub now t.nextWhen)
    · exact .inl rfl
  · exact .inl rfl

theorem setInterval_clip (now when : SysTime) :
    setInterval now ((if when < now then now else when) - now) ≤ now ∨
      setInterval now ((if when < now then now else when) - now) = when := by
  rw [setInterval_sub]
  split
  · exact .inl (le_refl now)
  · exact .inr rfl

/-! ## Each call -/

theorem setDispatchTime_frame (t : KernelTimer α) (now quantum : SysTime) :
    (t.setDispatchTime now quantum).anchor = t.anchor ∧
      (t.setDispatchTime now quantum).timeOf = t.timeOf ∧
      (t.setDispatchTime now quantum).dispatchTime = now + quantum := by
  unfold KernelTimer.setDispatchTime
  simp only
  repeat' split
  all_goals exact ⟨rfl, rfl, rfl⟩

/-- A new dispatcher's time. The deadline stays where the first event is earlier and `when` is
its time already. -/
theorem Early.setDispatchTime (h : Early t clock deadline) (hclock : clock ≤ now)
    (quantum : SysTime) :
    Early (t.setDispatchTime now quantum) now (t.setDispatchDeadline deadline now quantum) := by
  obtain ⟨hanchor, htime, hdispatch⟩ := setDispatchTime_frame t now quantum
  rw [Early, hanchor, htime, hdispatch]
  unfold setDispatchDeadline
  simp only
  split
  · rename_i pa hpa
    have hpa' : t.anchor = some pa := hpa
    rw [hpa']
    simp only [Option.mem_some_iff, forall_eq']
    split
    · rename_i hlt
      have hlt' : t.timeOf pa < now + quantum := hlt
      -- what is due before the first event is due before the dispatcher too
      have hboth : ∀ w : SysTime, w ≤ now ∨ w ≤ t.timeOf pa →
          w ≤ now ∨ w ≤ now + quantum ∧ w ≤ t.timeOf pa := fun w hw =>
        hw.imp_right fun hw => ⟨le_trans hw (le_of_lt hlt'), hw⟩
      refine hboth _ ?_
      split
      · exact (setInterval_clip now (t.timeOf pa)).imp_right UInt64.le_of_eq
      · rcases h with h | ⟨-, h⟩
        · exact .inl (le_trans h hclock)
        · exact .inr (h pa hpa')
    · rename_i hle
      exact .inr ⟨le_refl _, not_lt.mp hle⟩
  · rename_i hnone
    have hnone' : t.anchor = none := hnone
    rw [hnone']
    exact .inr ⟨le_refl _, nofun⟩

variable [DecidableEq α] [Fintype α]

theorem Chain.reset_deadline (h : Chain t l) (source : α) (now deadline : SysTime) :
    ∃ t', t.reset source now = some t' ∧ t'.dispatchTime = t.dispatchTime ∧
      (∀ pa, pa ≠ source → t'.timeOf pa = t.timeOf pa) ∧
      (t.resetDeadline deadline source now = deadline ∨
        t.resetDeadline deadline source now = t'.nextWhen) := by
  unfold KernelTimer.reset resetDeadline
  by_cases hin : t.timeOf source = SYSTIME_MAX
  · rw [if_pos hin, if_pos hin]
    exact ⟨t, rfl, rfl, fun _ _ => rfl, .inl rfl⟩
  · rw [if_neg hin, if_neg hin]
    obtain ⟨pre, post, -, -, hpost, hwalk⟩ :=
      h.path.walk_eq (fun pa => pa = source) h.length_le none
    rw [hwalk]
    cases hcur : post.head? with
    | none =>
      cases pre.getLast? with
      | none => exact ⟨t, rfl, rfl, fun _ _ => rfl, .inl rfl⟩
      | some prev => exact ⟨t, rfl, rfl, fun _ _ => rfl, .inl rfl⟩
    | some cur =>
      obtain rfl : cur = source := by simpa using hpost cur hcur
      have hother : ∀ pa, pa ≠ cur → (t.setWhen cur SYSTIME_MAX).timeOf pa = t.timeOf pa := by
        intro pa hpa
        rw [timeOf_setWhen, Function.update_of_ne hpa]
      cases pre.getLast? with
      | none =>
        -- the first event goes
        refine ⟨_, rfl, ?_, ?_, ?_⟩
        · show (delayInterrupt _ now).dispatchTime = _
          simp only [delayInterrupt]
          split <;> rfl
        · intro pa hpa
          rw [timeOf, delayInterrupt_event]
          exact hother pa hpa
        · rw [delayInterrupt_nextWhen]
          exact delayDeadline_or _ deadline now
      | some prev =>
        refine ⟨_, rfl, rfl, ?_, .inl rfl⟩
        intro pa hpa
        rw [timeOf_setNext]
        exact hother pa hpa

theorem Early.reset (h : Early t clock deadline) (hchain : Chain t l) (hclock : clock ≤ now)
    (source : α) (nowReset : SysTime) :
    ∃ t', t.reset source nowReset = some t' ∧ Chain t' (l.erase source) ∧
      t'.timeOf source = SYSTIME_MAX ∧ Early t' now (t.resetDeadline deadline source nowReset) := by
  obtain ⟨t', hreset, hchain', hinactive⟩ := hchain.reset source nowReset
  obtain ⟨t'', hreset', hdispatch, htime, hdeadline⟩ :=
    hchain.reset_deadline source nowReset deadline
  obtain rfl : t' = t'' := Option.some.inj (hreset.symm.trans hreset')
  refine ⟨t', hreset, hchain', hinactive, ?_⟩
  rcases hdeadline with hsame | hnext
  · rw [hsame]
    refine h.mono hclock (hchain.nextWhen_le hchain' (fun pa hpa => List.mem_of_mem_erase hpa) ?_
      hdispatch)
    intro pa hpa
    refine htime pa ?_
    rintro rfl
    exact (hchain'.active pa).mp hpa hinactive
  · rw [early_iff, hnext]
    exact .inr (le_refl _)

theorem Early.insert (h : Early t clock deadline) (hchain : Chain t l) (hs : source ∉ l)
    (hclock : clock ≤ now) (w : SysTime) {t' : KernelTimer α}
    (hinsert : t.insert w source now = some t') :
    Early t' now (t.insertDeadline deadline w source now) := by
  have hpath : Path (t.setWhen source w).next (t.setWhen source w).anchor l := by
    rw [next_setWhen]
    exact hchain.path
  obtain ⟨pre, post, hl, -, -, hwalk⟩ := hpath.walk_eq
    (fun pa => !decide ((t.setWhen source w).timeOf pa ≤ w)) hchain.length_le none
  unfold KernelTimer.insert at hinsert
  unfold insertDeadline
  simp only [hwalk, Option.or_none] at hinsert ⊢
  cases hprev : pre.getLast? with
  | none =>
    simp only [hprev] at hinsert ⊢
    split at hinsert
    · rename_i hlt
      have hlt' : w < (t.setWhen source w).dispatchTime := hlt
      cases hinsert
      rw [if_pos hlt']
      have hself : (t.setWhen source w).timeOf source = w := by
        rw [timeOf_setWhen, Function.update_self]
      rcases setInterval_clip now w with hclip | hclip
      · exact .inl hclip
      · rw [hclip]
        refine .inr ⟨le_of_lt hlt', ?_⟩
        intro pa hpa
        obtain rfl : source = pa := Option.some.inj hpa
        show w ≤ ((t.setWhen source w).setNext source post.head?).timeOf source
        rw [timeOf_setNext, hself]
        exact le_refl w
    · rename_i hge
      have hge' : ¬ w < (t.setWhen source w).dispatchTime := hge
      cases hinsert
      rw [if_neg hge']
      rcases h with h | ⟨h, -⟩
      · exact .inl (le_trans h hclock)
      · refine .inr ⟨h, ?_⟩
        intro pa hpa
        obtain rfl : source = pa := Option.some.inj hpa
        show deadline ≤ ((t.setWhen source w).setNext source post.head?).timeOf source
        rw [timeOf_setNext, timeOf_setWhen, Function.update_self]
        exact le_trans h (not_lt.mp hge')
  | some prev =>
    simp only [hprev] at hinsert ⊢
    cases hinsert
    rcases h with h | ⟨hdispatch, hfirst⟩
    · exact .inl (le_trans h hclock)
    · refine .inr ⟨hdispatch, ?_⟩
      intro pa hpa
      have hpa' : pa ∈ t.anchor := hpa
      -- the first event is that of another annex
      have hne : pa ≠ source := by
        rintro rfl
        rw [hchain.path.head_eq] at hpa'
        exact hs (List.mem_of_mem_head? hpa')
      rw [timeOf_setNext, timeOf_setNext, timeOf_setWhen, Function.update_of_ne hne]
      exact hfirst pa hpa'

theorem Early.setEvent (h : Early t clock deadline) (hchain : Chain t l) (hclock : clock ≤ now)
    (w : SysTime) (source : α) (nowReset : SysTime) :
    ∃ t', t.setEvent w source now nowReset = some t' ∧
      Early t' now (t.setEventDeadline deadline w source now nowReset) := by
  unfold KernelTimer.setEvent setEventDeadline
  by_cases hin : t.timeOf source = SYSTIME_MAX
  · have hs : source ∉ l := fun hmem => (hchain.active source).mp hmem hin
    rw [if_neg (not_not_intro hin), if_neg (not_not_intro hin)]
    obtain ⟨t', -, -, -, hinsert, -⟩ := hchain.insert hs w now
    exact ⟨t', hinsert, h.insert hchain hs hclock w hinsert⟩
  · obtain ⟨t₁, hreset, hchain₁, hinactive, hearly⟩ := h.reset hchain hclock source nowReset
    have hs : source ∉ l.erase source := fun hmem => (hchain₁.active source).mp hmem hinactive
    rw [if_pos hin, if_pos hin, hreset]
    obtain ⟨t', -, -, -, hinsert, -⟩ := hchain₁.insert hs w now
    exact ⟨t', hinsert, hearly.insert hchain₁ hs (le_refl now) w hinsert⟩

theorem timerInterrupt_early (t : KernelTimer α) (now deadline : SysTime) {pas : List α}
    (hinterrupt : t.timerInterrupt now = some (t', pas)) :
    Early t' now (t.deadlineAfter deadline (.timerInterrupt now)) := by
  have hnext : t'.interval = t'.nextWhen - now := by
    unfold KernelTimer.timerInterrupt at hinterrupt
    split at hinterrupt
    · cases hinterrupt
    · cases hinterrupt
      rfl
  unfold deadlineAfter
  simp only [hinterrupt]
  rw [early_iff, hnext, setInterval_sub]
  exact .inr (le_refl _)

/-! ## Runs -/

/-- What the clock reads when the call begins. -/
def Call.getClock : Call α → SysTime
  | .timerRequest _ _ _ now _ => now
  | .setDispatchTime now _ => now
  | .timerInterrupt now => now

theorem Early.exec (h : Early t clock deadline) (hchain : Chain t l) (call : Call α)
    (hclock : clock ≤ call.getClock) :
    ∃ t', t.exec call = some t' ∧ Early t' call.getClock (t.deadlineAfter deadline call) := by
  have hsame : Early t call.getClock deadline := h.mono hclock (le_refl _)
  cases call with
  | timerRequest whenTime kind source now nowReset =>
    have hclock' : clock ≤ now := hclock
    cases kind with
    | reset =>
      obtain ⟨t', hreset, -, -, hearly⟩ := h.reset hchain hclock source now
      refine ⟨t', ?_, hearly⟩
      simp [KernelTimer.exec, timerRequest, hreset]
    | absolute =>
      obtain ⟨t', hset, hearly⟩ := h.setEvent hchain hclock' whenTime source nowReset
      refine ⟨t', ?_, hearly⟩
      simp [KernelTimer.exec, timerRequest, hset]
    | relative =>
      by_cases hlater : t.timeOf source < whenTime + now
      · refine ⟨t, ?_, ?_⟩
        · simp [KernelTimer.exec, timerRequest, hlater]
        · unfold deadlineAfter requestDeadline
          simp only
          rw [if_pos hlater]
          exact hsame
      · obtain ⟨t', hset, hearly⟩ := h.setEvent hchain hclock' (whenTime + now) source nowReset
        refine ⟨t', ?_, ?_⟩
        · simp [KernelTimer.exec, timerRequest, hlater, hset]
        · unfold deadlineAfter requestDeadline
          simp only
          rw [if_neg hlater]
          exact hearly
    | queryNow => exact ⟨t, rfl, hsame⟩
    | queryTicksPerSecond => exact ⟨t, rfl, hsame⟩
    | invalid => exact ⟨t, rfl, hsame⟩
  | setDispatchTime now quantum => exact ⟨_, rfl, h.setDispatchTime hclock quantum⟩
  | timerInterrupt now =>
    obtain ⟨t', pas, rest, -, hinterrupt, -⟩ := hchain.timerInterrupt now
    refine ⟨t', ?_, timerInterrupt_early t now deadline hinterrupt⟩
    simp [KernelTimer.exec, hinterrupt]

/-- A timer, the deadline of its clock, and what the clock read last. -/
structure Armed (α : Type) where
  timer : KernelTimer α
  deadline : SysTime
  clock : SysTime

/-- Calls in time, while the clock does not go back. -/
def armedCalls : Machine (Armed α) (Call α) where
  step s call :=
    ⟨(s.timer.exec call).getD s.timer, s.timer.deadlineAfter s.deadline call, call.getClock⟩
  adm s call := s.timer.InTime call ∧ s.clock ≤ call.getClock

/-- In every run the deadline is at most the later of the clock and the next time, which is the
earlier of the first event's and the dispatcher's. -/
theorem run_deadline {ticksPerSecond interval deadline clock : SysTime} {next : α → Option α}
    {ops : List (Call α)} {s : Armed α}
    (hrun : armedCalls.Run ⟨start ticksPerSecond interval next, deadline, clock⟩ ops s) :
    s.deadline ≤ s.clock ∨
      s.deadline ≤ s.timer.dispatchTime ∧ ∀ pa ∈ s.timer.anchor, s.deadline ≤ s.timer.timeOf pa := by
  have hinv : (∃ l, Chain s.timer l) ∧ Early s.timer s.clock s.deadline := by
    refine hrun.invariant (I := fun s => (∃ l, Chain s.timer l) ∧ Early s.timer s.clock s.deadline)
      ⟨⟨[], start_chain _ _ _⟩, .inr ⟨le_SYSTIME_MAX _, nofun⟩⟩ ?_
    rintro s call ⟨⟨l, hchain⟩, hearly⟩ ⟨hin, hclock⟩
    obtain ⟨t', hexec, hearly'⟩ := hearly.exec hchain call hclock
    obtain ⟨t'', hexec', hchain'⟩ := (hchain.exec_iff call).mpr hin
    obtain rfl : t' = t'' := Option.some.inj (hexec.symm.trans hexec')
    have hstep : armedCalls.step s call =
        ⟨t', s.timer.deadlineAfter s.deadline call, call.getClock⟩ := by
      show Armed.mk ((s.timer.exec call).getD s.timer) _ _ = _
      rw [hexec]
      rfl
    rw [hstep]
    exact ⟨hchain', hearly'⟩
  exact hinv.2

open scoped SmallFin

/-- Annexes ask for events, the dispatcher's time changes, and the first event is taken back. -/
def rearmings : List (Call (Fin 2)) :=
  [.setDispatchTime 1 20, .timerRequest 9 .absolute 0 2 2, .timerRequest 3 .relative 1 4 4,
    .timerRequest 0 .reset 1 5 5, .setDispatchTime 6 2, .timerInterrupt 8]

def rearmed : Armed (Fin 2) := rearmings.foldl armedCalls.step ⟨start 1 0 fun _ => none, 0, 0⟩

theorem run_deadline_rearmings :
    armedCalls.Run ⟨start 1 0 fun _ => none, 0, 0⟩ rearmings rearmed ∧
      (rearmed.deadline ≤ rearmed.clock ∨ rearmed.deadline ≤ rearmed.timer.dispatchTime ∧
        ∀ pa ∈ rearmed.timer.anchor, rearmed.deadline ≤ rearmed.timer.timeOf pa) := by
  have hrun : armedCalls.Run ⟨start 1 0 fun _ => none, 0, 0⟩ rearmings rearmed := by
    have hfirst : (9 : SysTime) ≠ SYSTIME_MAX := by decide
    refine Machine.Admits.run ⟨⟨trivial, ?_⟩, ⟨hfirst, ?_⟩, ⟨.inl ?_, ?_⟩, ⟨trivial, ?_⟩,
      ⟨trivial, ?_⟩, ⟨trivial, ?_⟩, trivial⟩
    all_goals decide
  exact ⟨hrun, run_deadline hrun⟩

end K42.KernelTimer
