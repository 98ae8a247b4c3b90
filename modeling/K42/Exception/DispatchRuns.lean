import K42.Exception.DispatchSound

/-!
# Runs of the dispatch queue

The calls that other parts of the kernel make, from the start of the processor on. What
the callers promise is `Admissible`. `Settled` is what the queue needs besides: classes
change only while nothing depends on them, and an annex that is put off can run when the
next annex is chosen.
-/

open Function (update update_cases₂ update_of_ne update_self)

namespace K42.DispatchQueue

open DispatchHeap Outcome

variable {q q' q₀ : DispatchQueue} {d pa : ℕ}

/-! ## The start of a processor -/

/-- `init`, before the dummy is attached. The domains of the idle loop and of the kernel
and one for servers are as `ProcessDefaultKern` makes them; annexes have no domain. -/
def init (vp ticksPerSecond : ℕ) (now inflationInterval tickScale warningQuantum : SysTime) :
    DispatchQueue where
  vp := vp
  cdas cda :=
    if cda = DUMMY then
      .init PRIORITY_CLASS_UNRUNNABLE MIN_WEIGHT (ticks ticksPerSecond MAX_QUANTUM_MICROSECS)
        (ticks ticksPerSecond MAX_PULSE_MICROSECS) vp
    else if cda = IDLE then
      .init PRIORITY_CLASS_IDLE MIN_WEIGHT (ticks ticksPerSecond MAX_QUANTUM_MICROSECS)
        (ticks ticksPerSecond MAX_PULSE_MICROSECS) vp
    else if cda = KERNEL then
      .init PRIORITY_CLASS_KERNEL MAX_WEIGHT (ticks ticksPerSecond MIN_QUANTUM_MICROSECS)
        (ticks ticksPerSecond MIN_PULSE_MICROSECS) vp
    else
      .init PRIORITY_CLASS_TIME_SHARING MAX_WEIGHT (ticks ticksPerSecond MIN_QUANTUM_MICROSECS)
        (ticks ticksPerSecond MIN_PULSE_MICROSECS) vp
  -- the dispatchers of the dummy and of the idle loop have work for ever
  pas pa := .init (pa < KERNEL) false
  dispatchedCDA := DUMMY
  dispatchedPA := DUMMY
  lastDispatchTime := now
  inflation := 0
  nextInflationTime := now + inflationInterval
  inflationInterval := inflationInterval
  tickScale := tickScale
  warningQuantum := warningQuantum
  timeout := SYSTIME_MAX
  runnableWeight _ := 0
  preemptedPA _ := none
  heap := ⟨0, fun _ => ⟨0, DUMMY⟩⟩
  blocked _ := none

/-- The dummy is attached and taken out of the heap, and the annexes of the idle loop
and of the kernel are attached. -/
def boot (vp ticksPerSecond : ℕ) (now inflationInterval tickScale warningQuantum : SysTime) :
    Except DispatchAssert DispatchQueue := do
  let q ← (init vp ticksPerSecond now inflationInterval tickScale warningQuantum).attach DUMMY DUMMY
  let q ← { q with heap := ⟨0, q.heap.element⟩ }.attach IDLE IDLE
  q.attach KERNEL KERNEL

theorem attach_first (hnone : (q.pas pa).cpuDomainAnnex = none) (hring : q.ring d = [])
    (hfresh : (q.cdas d).consumedTicks = 0) (hroom : q.heap.count < HEAP_SIZE) :
    ∃ q', q.attach pa d = .ok q' ∧ q'.heap.elements = q.entry d ::ₘ q.heap.elements ∧
      q'.cdas = update q.cdas d { q.cdas d with ring := [pa] } ∧
      q'.pas = update q.pas pa
        ({ q.pas pa with cpuDomainAnnex := some d }.resetPulse (q.cdas d).pulseInterval) ∧
      q'.runnableWeight = update q.runnableWeight (q.cdas d).pclass
        (MachineWord.add 64 (q.runnableWeight (q.cdas d).pclass) (q.cdas d).weight) ∧
      q'.preemptedPA = q.preemptedPA ∧ q'.blocked = q.blocked ∧ Stays q q' := by
  have hcda : (q.updPA pa fun p => { p with cpuDomainAnnex := some d }).getCDA pa = .ok d := by
    rw [getCDA, pas_updPA_self]
  have hempty : (q.updPA pa fun p => { p with cpuDomainAnnex := some d }).ring d = [] := hring
  have hempty' : ((q.updPA pa fun p => { p with cpuDomainAnnex := some d }).updPA pa fun p =>
      p.resetPulse (q.cdas d).pulseInterval).ring d = [] := hring
  obtain ⟨heap, hadd, helements⟩ := addCPUDomainAnnex_ok (d := d)
    (q := ((q.updPA pa fun p => { p with cpuDomainAnnex := some d }).updPA pa fun p =>
      p.resetPulse (q.cdas d).pulseInterval).setRing d [pa])
    (by rw [consumedTicks_setRing]; exact hfresh) hroom
  rw [entry_setRing] at helements
  have hattach : q.attach pa d = (((q.updPA pa fun p =>
      { p with cpuDomainAnnex := some d }).updPA pa fun p =>
        p.resetPulse (q.cdas d).pulseInterval).setRing d [pa]).addCPUDomainAnnex d := by
    rw [attach, if_neg (not_not_intro hnone), makeReady, hcda, ok_bind, hempty,
      if_neg List.not_mem_nil, addProcessAnnex]
    rw [show (q.updPA pa fun p => { p with cpuDomainAnnex := some d }).cdas = q.cdas from rfl,
      hempty']
  rw [hadd] at hattach
  refine ⟨_, hattach, helements, rfl, ?_, ?_, rfl, rfl, rfl, rfl⟩
  · show update (update q.pas pa _) pa _ = _
    rw [pas_updPA_self, Function.update_idem]
  · simp [statCDARunnable, setRing, DispatchQueue.updCDA, DispatchQueue.updPA]

/-- The first `n` annexes have been attached, each to its own domain. -/
structure Starting (q : DispatchQueue) (n : ℕ) : Prop where
  ring : ∀ d, q.ring d = if d < n then [d] else []
  domain : ∀ p, (q.pas p).cpuDomainAnnex = if p < n then some p else none
  thread : ∀ p, (q.pas p).reservedThread = .null ∧ (q.pas p).awaitingDispatch = false
  work : ∀ p < KERNEL, (q.pas p).hasWork = true
  fresh : ∀ d, (q.cdas d).consumedTicks = 0
  preempted : ∀ c, q.preemptedPA c = none
  blocked : ∀ p, q.blocked p = none
  stays : q.dispatchedCDA = DUMMY ∧ q.dispatchedPA = DUMMY

theorem init_starting (vp ticksPerSecond : ℕ)
    (now inflationInterval tickScale warningQuantum : SysTime) :
    Starting (init vp ticksPerSecond now inflationInterval tickScale warningQuantum) 0 := by
  refine ⟨?_, fun _ => rfl, fun _ => ⟨rfl, rfl⟩, ?_, ?_, fun _ => rfl, fun _ => rfl, rfl, rfl⟩
  · intro d
    rw [if_neg (Nat.not_lt_zero d)]
    simp only [ring, init]
    repeat' split
    all_goals rfl
  · intro p hp
    exact decide_eq_true hp
  · intro d
    simp only [init]
    repeat' split
    all_goals rfl

theorem update_below {β : Type} (f : ℕ → β) {g : ℕ → β} {v : β} {n : ℕ}
    (hf : ∀ d, f d = if d < n then g d else v) (d : ℕ) :
    update f n (g n) d = if d < n + 1 then g d else v := by
  by_cases hd : d = n
  · subst hd
    rw [update_self, if_pos (Nat.lt_succ_self d)]
  · rw [update_of_ne hd, hf]
    simp only [show d < n + 1 ↔ d < n by omega]

theorem Starting.attach {n : ℕ} (h : Starting q n) (hroom : q.heap.count < HEAP_SIZE) :
    ∃ q', q.attach n n = .ok q' ∧ Starting q' (n + 1) ∧ q'.entry = q.entry ∧
      q'.heap.elements = q.entry n ::ₘ q.heap.elements := by
  have hring : q.ring n = [] := by
    rw [h.ring, if_neg (Nat.lt_irrefl n)]
  have hnone : (q.pas n).cpuDomainAnnex = none := by
    rw [h.domain, if_neg (Nat.lt_irrefl n)]
  obtain ⟨q', hattach, helements, hcdas, hpas, -, hpreempted, hblocked, hstays⟩ :=
    attach_first hnone hring (h.fresh n) hroom
  have hfield : ∀ {β : Type} (g : CPUDomainAnnex → β),
      (∀ c : CPUDomainAnnex, g { c with ring := [n] } = g c) → ∀ d, g (q'.cdas d) = g (q.cdas d) := by
    intro β g hg d
    rw [hcdas]
    exact updCDA_field g q n (f := fun c => { c with ring := [n] }) hg d
  have hannex : ∀ {β : Type} (g : ProcessAnnex → β), (∀ p : ProcessAnnex,
      g ({ p with cpuDomainAnnex := some n }.resetPulse (q.cdas n).pulseInterval) = g p) →
      ∀ p, g (q'.pas p) = g (q.pas p) := by
    intro β g hg p
    rw [hpas]
    exact updPA_field g q n (f := fun p =>
      { p with cpuDomainAnnex := some n }.resetPulse (q.cdas n).pulseInterval) hg p
  refine ⟨q', hattach, ⟨?_, ?_, ?_, ?_, ?_, ?_, ?_, ?_⟩, ?_, helements⟩
  · intro d
    have hrings : q'.ring = update q.ring n [n] := by
      rw [← ring_setRing]
      exact ring_of_eq hcdas
    rw [hrings]
    exact update_below q.ring h.ring d
  · intro p
    rw [← update_below (fun p => (q.pas p).cpuDomainAnnex) h.domain, hpas]
    exact update_cases₂ rfl (fun _ _ => rfl) p
  · intro p
    rw [hannex ProcessAnnex.reservedThread (fun _ => rfl),
      hannex ProcessAnnex.awaitingDispatch fun _ => rfl]
    exact h.thread p
  · intro p hp
    rw [hannex ProcessAnnex.hasWork fun _ => rfl]
    exact h.work p hp
  · intro d
    rw [hfield CPUDomainAnnex.consumedTicks fun _ => rfl]
    exact h.fresh d
  · rw [hpreempted]
    exact h.preempted
  · rw [hblocked]
    exact h.blocked
  · rw [hstays.cda, hstays.pa]
    exact h.stays
  · funext d
    rw [entry, hfield CPUDomainAnnex.getPriority fun _ => rfl]
    rfl

theorem Starting.sound (h : Starting q 3)
    (helements : q.heap.elements = q.entry KERNEL ::ₘ q.entry IDLE ::ₘ 0) : Sound q := by
  have hdomains : q.dispatchedCDA ::ₘ q.heap.domains = DUMMY ::ₘ KERNEL ::ₘ IDLE ::ₘ 0 := by
    rw [domains, helements, h.stays.1]
    rfl
  refine ⟨⟨⟨⟨?_, ?_, fun d _ => h.fresh d, ?_, ?_⟩, ?_, ?_, ?_⟩, ?_⟩, ?_, ?_, ?_, ?_⟩
  · intro d
    rw [h.ring]
    split
    · exact List.nodup_singleton d
    · exact List.nodup_nil
  · intro d p hp
    rw [h.ring] at hp
    rw [h.domain]
    split at hp
    · rw [List.mem_singleton.mp hp, if_pos ‹d < 3›]
    · cases hp
  · intro i hi
    rw [h.domain, if_pos hi]
    refine ⟨rfl, fun p hp => ?_⟩
    rw [h.domain] at hp
    split at hp
    · exact Option.some.inj hp
    · cases hp
  · intro i hi
    rw [h.ring, if_pos (by omega), canRun_iff]
    exact ⟨.inl ⟨(h.thread i).1, .inl (h.work i hi)⟩, List.mem_singleton_self i⟩
  · rw [hdomains]
    decide
  · intro d
    rw [hdomains, h.ring]
    simp only [Multiset.mem_cons, Multiset.notMem_zero, or_false, DUMMY, KERNEL, IDLE]
    split
    · exact iff_of_true (by omega) (by simp)
    · exact iff_of_false (by omega) (by simp)
  · intro e he
    rw [helements] at he
    simp only [Multiset.mem_cons, Multiset.notMem_zero, or_false] at he
    rcases he with rfl | rfl <;> rfl
  · rw [h.stays.1, h.stays.2, h.ring]
    decide
  · intro c p hslot
    rw [h.preempted] at hslot
    cases hslot
  · rintro p ⟨c, hslot⟩
    rw [h.preempted] at hslot
    cases hslot
  · intro p hp
    rw [(h.thread p).2] at hp
    cases hp
  · intro p hp
    exact absurd (h.blocked p) hp

theorem boot_ok (vp ticksPerSecond : ℕ) (now inflationInterval tickScale warningQuantum : SysTime) :
    ∃ q, boot vp ticksPerSecond now inflationInterval tickScale warningQuantum = .ok q ∧
      Starting q 3 ∧ q.heap.elements = q.entry KERNEL ::ₘ q.entry IDLE ::ₘ 0 := by
  have hroom : 0 < HEAP_SIZE := by decide
  have hstart₀ := init_starting vp ticksPerSecond now inflationInterval tickScale warningQuantum
  obtain ⟨q₁, hattach₁, hstart₁, -, -⟩ := hstart₀.attach hroom
  have hcleared : Starting { q₁ with heap := ⟨0, q₁.heap.element⟩ } 1 :=
    ⟨hstart₁.ring, hstart₁.domain, hstart₁.thread, hstart₁.work, hstart₁.fresh, hstart₁.preempted,
      hstart₁.blocked, hstart₁.stays⟩
  obtain ⟨q₂, hattach₂, hstart₂, hentry₂, helements₂⟩ := hcleared.attach hroom
  have hcount₂ : q₂.heap.count = 1 := by
    rw [← card_elements, helements₂, Multiset.card_cons, card_elements]
  obtain ⟨q₃, hattach₃, hstart₃, hentry₃, helements₃⟩ := hstart₂.attach (by rw [hcount₂]; decide)
  refine ⟨q₃, ?_, hstart₃, ?_⟩
  · rw [boot, hattach₁, ok_bind, hattach₂, ok_bind]
    exact hattach₃
  · rw [helements₃, helements₂, hentry₃, hentry₂]
    rfl

/-! ## Calls -/

/-- `dispatcher` is what the process and the kernel threads do to the annex between two
operations: a thread becomes responsible for it or is done with it, and work and
interrupts come and go. -/
inductive Call
  | create (ticksPerSecond cda pclass weight quantumMicrosecs pulseMicrosecs : ℕ)
  | dispatcher (pa : ℕ) (reservedThread : ReservedThread) (hasWork interrupts : Bool)
  | attach (pa cda : ℕ)
  | makeReady (pa : ℕ)
  | detach (pa : ℕ) (now : SysTime)
  | getNextProcessAnnex (now : SysTime)
  | awaitDispatch (pa : ℕ) (now : SysTime)
  | resumeDispatch (pa : ℕ) (now : SysTime)
  | waitForTerminate (pa : ℕ)
  | setPriorityClass (cda pclass : ℕ)
  | setWeight (cda weight : ℕ)

def exec (q : DispatchQueue) : Call → Except DispatchAssert DispatchQueue
  | .create ticksPerSecond cda pclass weight quantumMicrosecs pulseMicrosecs =>
    .ok (q.create ticksPerSecond cda pclass weight quantumMicrosecs pulseMicrosecs).1
  | .dispatcher pa reservedThread hasWork interrupts =>
    .ok (q.updPA pa fun p =>
      { p with reservedThread := reservedThread, hasWork := hasWork, interrupts := interrupts })
  | .attach pa cda => q.attach pa cda
  | .makeReady pa => q.makeReady pa
  | .detach pa now => q.detach pa now
  | .getNextProcessAnnex now => Prod.fst <$> q.getNextProcessAnnex now
  | .awaitDispatch pa now => q.awaitDispatch pa now
  | .resumeDispatch pa now => q.resumeDispatch pa now
  | .waitForTerminate pa => .ok (q.waitForTerminate pa)
  | .setPriorityClass cda pclass => Prod.fst <$> q.setPriorityClass cda pclass
  | .setWeight cda weight => .ok (q.setWeight cda weight).1

/-- What the callers promise. The annexes and the domains of the dummy, the idle loop and
the kernel are not given to anybody, a domain is new when it is created, an annex has a
domain while it is used and no thread when it is detached, and a thread blocked in
`awaitDispatch` stays responsible for its annex and goes on only when it is woken up. -/
def Admissible (q : DispatchQueue) : Call → Prop
  | .create _ cda _ _ _ _ => 3 ≤ cda ∧ ∀ p, (q.pas p).cpuDomainAnnex ≠ some cda
  | .dispatcher pa reservedThread _ _ =>
    KERNEL ≤ pa ∧ (q.blocked pa ≠ none → reservedThread = .thread)
  | .attach pa cda => 3 ≤ pa ∧ 3 ≤ cda ∧ (q.pas pa).cpuDomainAnnex = none
  | .makeReady pa => (q.pas pa).cpuDomainAnnex ≠ none
  | .detach pa _ =>
    3 ≤ pa ∧ (q.pas pa).cpuDomainAnnex ≠ none ∧ (q.pas pa).reservedThread = .null
  | .getNextProcessAnnex _ => True
  | .awaitDispatch pa _ =>
    3 ≤ pa ∧ (q.pas pa).cpuDomainAnnex ≠ none ∧ (q.pas pa).reservedThread = .thread ∧
      q.blocked pa = none
  | .resumeDispatch pa _ => q.blocked pa ≠ none ∧ (q.pas pa).awaitingDispatch = false
  | .waitForTerminate pa => 3 ≤ pa
  | .setPriorityClass cda _ => 3 ≤ cda
  | .setWeight cda _ => 3 ≤ cda

/-- Every annex that is put off can run. -/
def PutOffRun (q : DispatchQueue) : Prop := ∀ p, PutOff q p → (q.pas p).canRun = true

/-- When a call keeps the queue in order. A runnable domain changes its class only while
it is in the heap, and not away from the slot where an annex of it is put off; a thread
goes on in `awaitDispatch` with the class it has read; and the next annex is chosen only
while those put off can run. -/
def Settled (q : DispatchQueue) : Call → Prop
  | .getNextProcessAnnex _ => PutOffRun q
  | .awaitDispatch pa _ => (q.pas pa).terminationPending = false → PutOffRun q
  | .resumeDispatch pa _ =>
    (q.pas pa).terminationPending = false → PutOffRun q ∧
      ∀ d, (q.pas pa).cpuDomainAnnex = some d → q.blocked pa = some (q.cdas d).pclass
  | .setPriorityClass cda pclass =>
    ClassAccepted q cda pclass → q.ring cda ≠ [] → cda ≠ q.dispatchedCDA ∧
      ∀ c p, q.preemptedPA c = some p → (q.pas p).cpuDomainAnnex = some cda → pclass = c
  | _ => True

theorem Safe.fst {α β : Type} {P : α → Prop} {r : Except DispatchAssert (α × β)}
    (h : Safe (fun x => P x.1) r) : Safe P (Prod.fst <$> r) := by
  cases r with
  | ok x => exact h
  | error e => exact h

theorem Sound.exec (h : Sound q) (call : Call) (hadm : Admissible q call)
    (hsettled : Settled q call) : Safe Sound (q.exec call) := by
  cases call with
  | create ticksPerSecond cda pclass weight quantumMicrosecs pulseMicrosecs =>
    exact h.create hadm.2 ticksPerSecond pclass weight quantumMicrosecs pulseMicrosecs
  | dispatcher pa reservedThread hasWork interrupts =>
    refine h.updPA pa (fun _ => rfl) (h.threads.awaiting pa) hadm.2 ?_
    intro htwo
    exact absurd hadm.1 (Nat.not_le_of_lt htwo)
  | attach pa cda => exact h.attach hadm.1 hadm.2.2 hadm.2.1
  | makeReady pa =>
    obtain ⟨d, hdomain⟩ := Option.ne_none_iff_exists'.mp hadm
    exact h.makeReady hdomain
  | detach pa now =>
    obtain ⟨hthree, hattached, hnull⟩ := hadm
    obtain ⟨d, hdomain⟩ := Option.ne_none_iff_exists'.mp hattached
    refine h.detach hthree hdomain ?_ now
    by_contra hblocked
    rw [(h.threads.blocked pa hblocked).2.1] at hnull
    cases hnull
  | getNextProcessAnnex now =>
    obtain ⟨q', pa, hok, hsound, -⟩ := h.getNextProcessAnnex hsettled now
    exact Safe.fst (Sat.of_ok hok hsound)
  | awaitDispatch pa now =>
    obtain ⟨hthree, hattached, hthread, hblocked⟩ := hadm
    obtain ⟨d, hdomain⟩ := Option.ne_none_iff_exists'.mp hattached
    refine h.awaitDispatch ⟨hthree, hdomain, hthread, ?_⟩ hsettled now
    by_contra hawaiting
    exact h.threads.awaiting pa (by simpa using hawaiting) hblocked
  | resumeDispatch pa now =>
    obtain ⟨hblocked, hawaiting⟩ := hadm
    obtain ⟨hthree, hthread, hattached⟩ := h.threads.blocked pa hblocked
    obtain ⟨d, hdomain⟩ := Option.ne_none_iff_exists'.mp hattached
    obtain ⟨c, hclass⟩ := Option.ne_none_iff_exists'.mp hblocked
    refine h.resumeDispatch ⟨hthree, hdomain, hthread, hawaiting⟩ hclass ?_ now
    intro hterm
    obtain ⟨hruns, hread⟩ := hsettled hterm
    have hc := hread d hdomain
    rw [hclass] at hc
    exact ⟨hruns, (Option.some.inj hc).symm⟩
  | waitForTerminate pa => exact h.waitForTerminate hadm
  | setPriorityClass cda pclass => exact Safe.fst (h.setPriorityClass hadm hsettled)
  | setWeight cda weight => exact h.setWeight cda weight

/-! ## Runs -/

/-- A call that stops at an assertion changes nothing any more. -/
def next (q : DispatchQueue) (call : Call) : DispatchQueue :=
  match q.exec call with
  | .ok q' => q'
  | .error _ => q

/-- Everything the callers may do. -/
def callers : Machine DispatchQueue Call := ⟨next, Admissible⟩

def settledCalls : Machine DispatchQueue Call :=
  ⟨next, fun q call => Admissible q call ∧ Settled q call⟩

theorem run_sound {ops : List Call} {vp ticksPerSecond : ℕ}
    {now inflationInterval tickScale warningQuantum : SysTime}
    (hboot : boot vp ticksPerSecond now inflationInterval tickScale warningQuantum = .ok q₀)
    (hrun : settledCalls.Run q₀ ops q) : Sound q := by
  refine hrun.invariant (I := Sound) ?_ ?_
  · obtain ⟨q₁, hok, hstart, helements⟩ :=
      boot_ok vp ticksPerSecond now inflationInterval tickScale warningQuantum
    rw [hboot] at hok
    cases hok
    exact hstart.sound helements
  · rintro q call h ⟨hadm, hsettled⟩
    have hexec := h.exec call hadm hsettled
    show Sound (q.next call)
    rw [next]
    split
    · exact hexec.elim ‹_›
    · exact h

/-- The dispatched domain and those in the heap are the runnable ones, once each, and no
assertion but the one about the size of the heap fires. -/
theorem run_membership {ops : List Call} {vp ticksPerSecond : ℕ}
    {now inflationInterval tickScale warningQuantum : SysTime}
    (hboot : boot vp ticksPerSecond now inflationInterval tickScale warningQuantum = .ok q₀)
    (hrun : settledCalls.Run q₀ ops q) : (q.dispatchedCDA ::ₘ q.heap.domains).Nodup ∧
      (∀ d, d ∈ q.dispatchedCDA ::ₘ q.heap.domains ↔ q.ring d ≠ []) ∧
      q.dispatchedPA ∈ q.ring q.dispatchedCDA ∧
      (∀ e ∈ q.heap.elements, e.priority = (q.cdas e.cda).getPriority) ∧
      ∀ call, Admissible q call → Settled q call →
        (∃ q', q.exec call = .ok q') ∨ q.exec call = .error .heapOverflow := by
  have h := run_sound hboot hrun
  refine ⟨h.dispatched.queue.nodup, h.dispatched.queue.mem_iff, h.dispatched.ring, ?_, ?_⟩
  · intro e he
    exact congrArg Element.priority (h.dispatched.queue.keys e he)
  · intro call hadm hsettled
    have hexec := h.exec call hadm hsettled
    cases hcall : q.exec call with
    | ok q' => exact .inl ⟨q', rfl⟩
    | error e =>
      rw [hcall] at hexec
      exact .inr (congrArg Except.error hexec)

/-- A processor whose clock starts at zero, with a tick of a microsecond. -/
def booted : DispatchQueue :=
  match boot 0 1000000 0 80000 8 10000 with
  | .ok q => q
  | .error _ => init 0 1000000 0 80000 8 10000

theorem boot_booted : boot 0 1000000 0 80000 8 10000 = .ok booted := by
  obtain ⟨q, hok, -⟩ := boot_ok 0 1000000 0 80000 8 10000
  rw [booted, hok]

/-- A domain in the heap gets another class, and then its annex is dispatched. -/
def changeAndDispatch : List Call :=
  [.attach 3 3, .setPriorityClass 3 5, .dispatcher 3 .null true false, .getNextProcessAnnex 5]

theorem changeAndDispatch_run :
    settledCalls.Run booted changeAndDispatch (changeAndDispatch.foldl next booted) := by
  have hslots : (booted.next (.attach 3 3)).preemptedPA = fun _ => none := rfl
  have hslots' : (((booted.next (.attach 3 3)).next (.setPriorityClass 3 5)).next
      (.dispatcher 3 .null true false)).preemptedPA = fun _ => none := rfl
  refine Machine.Admits.run ⟨⟨?_, trivial⟩, ⟨?_, ?_⟩, ⟨?_, trivial⟩, ⟨trivial, ?_⟩, trivial⟩
  · show 3 ≤ 3 ∧ 3 ≤ 3 ∧ (booted.pas 3).cpuDomainAnnex = none
    decide +kernel
  · exact le_rfl
  · intro _ _
    refine ⟨?_, fun c p hslot => ?_⟩
    · show 3 ≠ (booted.next (.attach 3 3)).dispatchedCDA
      decide +kernel
    · change (booted.next (.attach 3 3)).preemptedPA c = some p at hslot
      rw [hslots] at hslot
      cases hslot
  · refine ⟨by decide, fun hblocked => absurd ?_ hblocked⟩
    show ((booted.next (.attach 3 3)).next (.setPriorityClass 3 5)).blocked 3 = none
    decide +kernel
  · rintro p ⟨c, hslot⟩
    change (((booted.next (.attach 3 3)).next (.setPriorityClass 3 5)).next
      (.dispatcher 3 .null true false)).preemptedPA c = some p at hslot
    rw [hslots'] at hslot
    cases hslot

theorem run_membership_changeAndDispatch :
    boot 0 1000000 0 80000 8 10000 = .ok booted ∧
      settledCalls.Run booted changeAndDispatch (changeAndDispatch.foldl next booted) ∧
      (changeAndDispatch.foldl next booted).dispatchedPA = 3 ∧
      ((changeAndDispatch.foldl next booted).dispatchedCDA ::ₘ
        (changeAndDispatch.foldl next booted).heap.domains).Nodup :=
  ⟨boot_booted, changeAndDispatch_run, by decide +kernel,
    (run_membership boot_booted changeAndDispatch_run).1⟩

/-- A process whose domain is dispatched. -/
def dispatchDomain : List Call :=
  [.attach 3 3, .dispatcher 3 .null true false, .getNextProcessAnnex 5]

/-- The kernel works on the domain of its caller: a call that changes the class of that
domain removes the dispatched domain from the heap. -/
theorem removes_dispatched :
    boot 0 1000000 0 80000 8 10000 = .ok booted ∧
      callers.Run booted dispatchDomain (dispatchDomain.foldl next booted) ∧
      Admissible (dispatchDomain.foldl next booted) (.setPriorityClass 3 5) ∧
      (dispatchDomain.foldl next booted).exec (.setPriorityClass 3 5) =
        .error .removingDispatchedCDA := by
  refine ⟨boot_booted, Machine.Admits.run ⟨?_, ⟨?_, ?_⟩, trivial, trivial⟩, le_rfl, ?_⟩
  · show 3 ≤ 3 ∧ 3 ≤ 3 ∧ (booted.pas 3).cpuDomainAnnex = none
    decide +kernel
  · decide
  · refine fun hblocked => absurd ?_ hblocked
    show (booted.next (.attach 3 3)).blocked 3 = none
    decide +kernel
  · exact eq_error_of_failure (by decide +kernel)

/-- An annex that is put off is in the ring of its domain, the domain is runnable and has
the class of the slot, and what is dispatched next has a domain of the class chosen. -/
theorem run_slots {ops : List Call} {vp ticksPerSecond : ℕ}
    {now inflationInterval tickScale warningQuantum : SysTime}
    (hboot : boot vp ticksPerSecond now inflationInterval tickScale warningQuantum = .ok q₀)
    (hrun : settledCalls.Run q₀ ops q) :
    (∀ c p, q.preemptedPA c = some p → ∃ d, (q.pas p).cpuDomainAnnex = some d ∧ p ∈ q.ring d ∧
        (q.cdas d).pclass = c ∧ d ∈ q.dispatchedCDA ::ₘ q.heap.domains) ∧
      ∀ t, PutOffRun q → ∃ q' pa, q.getNextProcessAnnex t = .ok (q', pa) ∧
        (q'.pas q'.dispatchedPA).cpuDomainAnnex = some q'.dispatchedCDA ∧
        q.chosenClass t = some (q'.cdas q'.dispatchedCDA).pclass := by
  have h := run_sound hboot hrun
  constructor
  · intro c p hslot
    obtain ⟨-, d, hdomain, hring, hclass⟩ := h.slots c p hslot
    exact ⟨d, hdomain, hring, hclass, (h.dispatched.queue.mem_iff d).mpr (List.ne_nil_of_mem hring)⟩
  · intro t hruns
    obtain ⟨q', pa, hok, hsound, hclass⟩ := h.getNextProcessAnnex hruns t
    exact ⟨q', pa, hok, hsound.dispatched.domain, hclass⟩

theorem run_slots_changeAndDispatch :
    boot 0 1000000 0 80000 8 10000 = .ok booted ∧
      settledCalls.Run booted changeAndDispatch (changeAndDispatch.foldl next booted) ∧
      ∀ c p, (changeAndDispatch.foldl next booted).preemptedPA c = some p →
        ∃ d, ((changeAndDispatch.foldl next booted).pas p).cpuDomainAnnex = some d ∧
          ((changeAndDispatch.foldl next booted).cdas d).pclass = c := by
  refine ⟨boot_booted, changeAndDispatch_run, fun c p hslot => ?_⟩
  obtain ⟨d, hdomain, -, hclass, -⟩ := (run_slots boot_booted changeAndDispatch_run).1 c p hslot
  exact ⟨d, hdomain, hclass⟩

/-- A thread works for the process while the kernel becomes runnable, so the annex of the
process is put off when the thread is done; then the class of its domain changes. -/
def changeAfterPreemption : List Call :=
  [.attach 3 3, .dispatcher 3 .null true false, .getNextProcessAnnex 5,
    .dispatcher 3 .thread true false, .dispatcher KERNEL .null true false, .makeReady KERNEL,
    .awaitDispatch 3 6, .setPriorityClass 3 5]

theorem slot_of_other_class :
    boot 0 1000000 0 80000 8 10000 = .ok booted ∧
      callers.Run booted changeAfterPreemption (changeAfterPreemption.foldl next booted) ∧
      (changeAfterPreemption.foldl next booted).preemptedPA 4 = some 3 ∧
      ((changeAfterPreemption.foldl next booted).pas 3).cpuDomainAnnex = some 3 ∧
      ((changeAfterPreemption.foldl next booted).cdas 3).pclass = 5 := by
  refine ⟨boot_booted, Machine.Admits.run
    ⟨?_, ⟨?_, ?_⟩, trivial, ⟨?_, fun _ => rfl⟩, ⟨?_, ?_⟩, ?_, ?_, ?_, trivial⟩, ?_, ?_, ?_⟩
  · show 3 ≤ 3 ∧ 3 ≤ 3 ∧ (booted.pas 3).cpuDomainAnnex = none
    decide +kernel
  · decide
  · refine fun hblocked => absurd ?_ hblocked
    show (booted.next (.attach 3 3)).blocked 3 = none
    decide +kernel
  · decide
  · decide
  · refine fun hblocked => absurd ?_ hblocked
    show ((changeAfterPreemption.take 4).foldl next booted).blocked KERNEL = none
    decide +kernel
  · show (((changeAfterPreemption.take 5).foldl next booted).pas KERNEL).cpuDomainAnnex ≠ none
    decide +kernel
  · show 3 ≤ 3 ∧ (((changeAfterPreemption.take 6).foldl next booted).pas 3).cpuDomainAnnex ≠ none ∧
      (((changeAfterPreemption.take 6).foldl next booted).pas 3).reservedThread = .thread ∧
      ((changeAfterPreemption.take 6).foldl next booted).blocked 3 = none
    decide +kernel
  · exact le_rfl
  all_goals decide +kernel

end K42.DispatchQueue
