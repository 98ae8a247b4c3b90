import K42.Exception.DispatchSteps

/-!
# The invariant of the dispatch queue

Between operations the dispatched annex is in the ring of the dispatched domain, the
annexes put off are in their rings and in the slots of their classes, and a thread that
awaits dispatch is blocked in `awaitDispatch`.
-/

open Function (update update_cases update_cases₂ update_of_ne update_self update_eq_self)

namespace K42.DispatchQueue

open DispatchHeap Outcome

variable {q q' : DispatchQueue} {cur d pa c : ℕ} {K : ℕ → Prop}

/-- Each slot of `preemptedPA` is empty or has an attached annex that is in the ring of
its domain, and the domain has the class of the slot. -/
def Slots (q : DispatchQueue) : Prop :=
  ∀ c p, q.preemptedPA c = some p →
    3 ≤ p ∧ ∃ d, (q.pas p).cpuDomainAnnex = some d ∧ p ∈ q.ring d ∧ (q.cdas d).pclass = c

/-- The annex is in one of the slots. -/
def PutOff (q : DispatchQueue) (p : ℕ) : Prop := ∃ c, q.preemptedPA c = some p

structure Threads (q : DispatchQueue) : Prop where
  awaiting : ∀ p, (q.pas p).awaitingDispatch = true → q.blocked p ≠ none
  blocked : ∀ p, q.blocked p ≠ none →
    3 ≤ p ∧ (q.pas p).reservedThread = .thread ∧ (q.pas p).cpuDomainAnnex ≠ none

/-- The invariant between operations. -/
structure Sound (q : DispatchQueue) : Prop where
  dispatched : Dispatched q
  slots : Slots q
  apart : ∀ p, PutOff q p → p ≠ q.dispatchedPA
  threads : Threads q

theorem Frame.slots (h : Frame K q q') (hslots : Slots q) (hK : ∀ p, PutOff q p → K p) :
    Slots q' := by
  intro c p hslot
  rw [h.preempted] at hslot
  obtain ⟨hthree, d, hdomain, hring, hclass⟩ := hslots c p hslot
  refine ⟨hthree, d, ?_, h.keep d p hring (hK p ⟨c, hslot⟩), ?_⟩
  · rw [h.domain]
    exact hdomain
  · rw [h.pclass]
    exact hclass

theorem Frame.putOff (h : Frame K q q') {p : ℕ} : PutOff q' p ↔ PutOff q p := by
  rw [PutOff, h.preempted]
  rfl

theorem Frame.threads (h : Frame K q q') (hthreads : Threads q) : Threads q' where
  awaiting p hp := by
    rw [(h.thread p).2.1] at hp
    rw [h.blocked]
    exact hthreads.awaiting p hp
  blocked p hp := by
    rw [h.blocked] at hp
    rw [(h.thread p).1, h.domain]
    exact hthreads.blocked p hp

theorem Sound.of_frame (h : Sound q) (hframe : Frame K q q') (hdispatched : Dispatched q')
    (hK : ∀ p, PutOff q p → K p) (hapart : ∀ p, PutOff q p → p ≠ q'.dispatchedPA) : Sound q' where
  dispatched := hdispatched
  slots := hframe.slots h.slots hK
  apart p hp := hapart p (hframe.putOff.mp hp)
  threads := hframe.threads h.threads

theorem Sound.finishDispatch (h : Sound q) : Sound q.finishDispatch :=
  h.of_frame (finishDispatch_frame q) h.dispatched.finishDispatch (fun _ _ => trivial)
    fun p hp => (finishDispatch_eq q).2.2.pa ▸ h.apart p hp

theorem Sound.startDispatch (h : Sound q) (now : SysTime) :
    Sound (q.startDispatch now) ∧ Frame (fun _ => True) q (q.startDispatch now) ∧
      Stays q (q.startDispatch now) := by
  obtain ⟨hdispatched, hframe, hstays⟩ := h.dispatched.startDispatch now
  refine ⟨h.of_frame hframe hdispatched (fun _ _ => trivial) fun p hp => ?_, hframe, hstays⟩
  rw [hstays.pa]
  exact h.apart p hp

theorem Sound.setThread (h : Sound q) (pa : ℕ) (v : ProcessAnnex) (b : Option ℕ)
    (hdomain : v.cpuDomainAnnex = (q.pas pa).cpuDomainAnnex)
    (hawaiting : v.awaitingDispatch = true → b ≠ none)
    (hblocked : b ≠ none → 3 ≤ pa ∧ v.reservedThread = .thread ∧ v.cpuDomainAnnex ≠ none)
    (hcanRun : pa < 2 → (q.pas pa).canRun = true → v.canRun = true) :
    Sound { q with
      pas := update q.pas pa v, blocked := update q.blocked pa b } := by
  have hdomains : ∀ p, (update q.pas pa v p).cpuDomainAnnex = (q.pas p).cpuDomainAnnex := by
    intro p
    exact update_cases hdomain (fun _ _ => rfl) p
  refine ⟨⟨?_, h.dispatched.ring⟩, ?_, h.apart, ?_, ?_⟩
  · refine h.dispatched.queue.congr rfl (fun _ => .refl _) (fun _ _ => rfl) (fun _ _ => rfl)
      hdomains ?_
    intro i
    show i < 2 → (q.pas i).canRun = true → (update q.pas pa v i).canRun = true
    exact update_cases hcanRun (fun _ _ _ => id) i
  · intro c p hslot
    obtain ⟨hthree, d, hdom, hring, hclass⟩ := h.slots c p hslot
    exact ⟨hthree, d, (hdomains p).trans hdom, hring, hclass⟩
  · intro p
    show (update q.pas pa v p).awaitingDispatch = true →
      update q.blocked pa b p ≠ none
    exact update_cases₂ hawaiting (fun p _ => h.threads.awaiting p) p
  · intro p
    show update q.blocked pa b p ≠ none → 3 ≤ p ∧
      (update q.pas pa v p).reservedThread = .thread ∧
      (update q.pas pa v p).cpuDomainAnnex ≠ none
    exact update_cases₂ hblocked (fun p _ => h.threads.blocked p) p

theorem Sound.updPA (h : Sound q) (pa : ℕ) {f : ProcessAnnex → ProcessAnnex}
    (hdomain : ∀ p, (f p).cpuDomainAnnex = p.cpuDomainAnnex)
    (hawaiting : (f (q.pas pa)).awaitingDispatch = true → q.blocked pa ≠ none)
    (hreserved : q.blocked pa ≠ none → (f (q.pas pa)).reservedThread = .thread)
    (hcanRun : pa < 2 → (q.pas pa).canRun = true → (f (q.pas pa)).canRun = true) :
    Sound (q.updPA pa f) := by
  have hset := h.setThread pa (f (q.pas pa)) (q.blocked pa) (hdomain _) hawaiting ?_ hcanRun
  · rw [update_eq_self] at hset
    exact hset
  · intro hb
    obtain ⟨hthree, -, hattached⟩ := h.threads.blocked pa hb
    exact ⟨hthree, hreserved hb, fun hnone => hattached ((hdomain _).symm.trans hnone)⟩

/-! ## `getNextProcessAnnex` -/

theorem Slots.unique (h : Slots q) (hslot : q.preemptedPA c = some pa)
    (hdomain : (q.pas pa).cpuDomainAnnex = some d) : (q.cdas d).pclass = c := by
  obtain ⟨-, d', hd', -, hclass⟩ := h c pa hslot
  rw [hdomain] at hd'
  cases hd'
  exact hclass

theorem slot_of_clear {f : ℕ → Option ℕ} {c' : ℕ}
    (h : update f c none c' = some pa) : c' ≠ c ∧ f c' = some pa := by
  revert h
  exact update_cases nofun (fun c' hc h => ⟨hc, h⟩) c'

theorem Slots.clear (h : Slots q) (c : ℕ) :
    Slots (q.clearSlot c) :=
  fun c' p hslot => h c' p (slot_of_clear hslot).2

theorem Slots.not_putOff_clear (h : Slots q) (hdomain : (q.pas pa).cpuDomainAnnex = some d) :
    ¬ PutOff (q.clearSlot (q.cdas d).pclass) pa := by
  rintro ⟨c, hslot⟩
  obtain ⟨hc, hslot⟩ := slot_of_clear hslot
  exact hc (h.unique hslot hdomain).symm

/-- What `takePreempted` leaves: nothing that is put off is dispatched, and the class of
the dispatched domain is the one that was chosen. -/
structure Taken (q q' : DispatchQueue) : Prop where
  dispatched : Dispatched q'
  slots : Slots q'
  apart : ∀ p, PutOff q' p → p ≠ q'.dispatchedPA
  pas : q'.pas = q.pas
  cdas : q'.cdas = q.cdas
  blocked : q'.blocked = q.blocked
  pclass : (q'.cdas q'.dispatchedCDA).pclass = (q.cdas q.dispatchedCDA).pclass

theorem Dispatched.takePreempted (h : Dispatched q) (hslots : Slots q) :
    ∃ q', q.takePreempted = .ok q' ∧ Taken q q' := by
  rw [DispatchQueue.takePreempted]
  have hcleared := hslots.clear (q.cdas q.dispatchedCDA).pclass
  cases hslot : q.preemptedPA (q.cdas q.dispatchedCDA).pclass with
  | none =>
    refine ⟨q, rfl, h, hslots, ?_, rfl, rfl, rfl, rfl⟩
    rintro p ⟨c, hc⟩ rfl
    rw [← hslots.unique hc h.domain, hslot] at hc
    cases hc
  | some pa =>
    obtain ⟨-, d, hdomain, hring, hclass⟩ := hslots _ _ hslot
    have hnot : ∀ p, PutOff (q.clearSlot (q.cdas q.dispatchedCDA).pclass) p → p ≠ pa := by
      rintro p hp rfl
      rw [← hclass] at hp
      exact hslots.not_putOff_clear hdomain hp
    by_cases hne : q.dispatchedPA = pa
    · subst hne
      simp only [ne_eq, not_true_eq_false, ↓reduceIte]
      exact ⟨_, rfl, ⟨h.queue.of_eq rfl rfl rfl, h.ring⟩, hcleared, hnot, rfl, rfl, rfl, rfl⟩
    · have hcda : q.getCDA pa = .ok d := by
        rw [getCDA, hdomain]
      simp only [ne_eq, hne, not_false_eq_true, ↓reduceIte, hcda, ok_bind]
      by_cases hd : q.dispatchedCDA = d
      · subst hd
        simp only [exchange, ne_eq, not_true_eq_false, ↓reduceIte, ok_bind]
        exact ⟨_, rfl, ⟨h.queue.of_eq rfl rfl rfl, hring⟩, hcleared, hnot, rfl, rfl, rfl, rfl⟩
      · obtain ⟨heap, hswap, hqueue⟩ :=
          h.queue.swap (h.queue.mem_heap (List.ne_nil_of_mem hring) (Ne.symm hd))
        simp only [exchange, ne_eq, hd, not_false_eq_true, ↓reduceIte, hswap, ok_bind]
        exact ⟨_, rfl, ⟨hqueue.of_eq rfl rfl rfl, hring⟩, hcleared, hnot, rfl, rfl, rfl, hclass⟩

/-- The domain that `getNextProcessAnnex` chooses, before it looks at the annexes put
off. -/
def chosenClass (q : DispatchQueue) (now : SysTime) : Option ℕ :=
  match (q.startDispatch now).chooseDomain with
  | .ok q => some (q.cdas q.dispatchedCDA).pclass
  | .error _ => none

theorem Sound.getNextProcessAnnex (h : Sound q) (hruns : ∀ p, PutOff q p → (q.pas p).canRun = true)
    (now : SysTime) :
    ∃ q' pa, q.getNextProcessAnnex now = .ok (q', pa) ∧ Sound q' ∧
      q.chosenClass now = some (q'.cdas q'.dispatchedCDA).pclass := by
  obtain ⟨hsound₁, hframe₁, -⟩ := h.startDispatch now
  have hruns₁ : ∀ p, PutOff q p → ((q.startDispatch now).pas p).canRun = true :=
    fun p hp => hframe₁.canRun p (hruns p hp)
  obtain ⟨q₂, hchoose, hdispatched₂, hframe₂⟩ := hsound₁.dispatched.chooseDomain hruns₁
  have hslots₂ : Slots q₂ := hframe₂.slots hsound₁.slots fun p hp => hframe₁.putOff.mp hp
  obtain ⟨q₃, htake, htaken⟩ := hdispatched₂.takePreempted hslots₂
  have hthreads : Threads q₃ := by
    have hthreads₂ := hframe₂.threads hsound₁.threads
    refine ⟨fun p hp => ?_, fun p hp => ?_⟩
    · rw [htaken.pas] at hp
      rw [htaken.blocked]
      exact hthreads₂.awaiting p hp
    · rw [htaken.blocked] at hp
      rw [htaken.pas]
      exact hthreads₂.blocked p hp
  have hsound₃ : Sound q₃ := ⟨htaken.dispatched, htaken.slots, htaken.apart, hthreads⟩
  -- the annex that waited does not wait any more
  have hsignalled : Sound (if (q₃.pas q₃.dispatchedPA).awaitingDispatch then
      q₃.signalDispatch q₃.dispatchedPA else q₃) := by
    split
    · rename_i hawaiting
      refine hsound₃.updPA _ (fun _ => rfl) (fun hfalse => by cases hfalse) ?_ ?_
      · exact fun hblocked => (hthreads.blocked _ hblocked).2.1
      · intro htwo
        have := (hthreads.blocked _ (hthreads.awaiting _ hawaiting)).1
        omega
    · exact hsound₃
  have hcleared := hsignalled.updPA q₃.dispatchedPA
    (f := fun p => p.clearWarning) (fun _ => rfl) (hsignalled.threads.awaiting _)
    (fun hblocked => (hsignalled.threads.blocked _ hblocked).2.1) fun _ hrun => hrun
  have hnext : q.getNextProcessAnnex now = .ok (((if (q₃.pas q₃.dispatchedPA).awaitingDispatch then
      q₃.signalDispatch q₃.dispatchedPA else q₃).updPA q₃.dispatchedPA fun p =>
        p.clearWarning).finishDispatch,
      if (q₃.pas q₃.dispatchedPA).awaitingDispatch then KERNEL else q₃.dispatchedPA) := by
    rw [DispatchQueue.getNextProcessAnnex, hchoose, ok_bind, htake, ok_bind]
  refine ⟨_, _, hnext, hcleared.finishDispatch, ?_⟩
  have hclass : (q₂.cdas q₂.dispatchedCDA).pclass = (q₃.cdas q₃.dispatchedCDA).pclass :=
    htaken.pclass.symm
  rw [chosenClass, hchoose]
  simp only
  rw [hclass, (finishDispatch_eq _).1, (finishDispatch_eq _).2.2.cda]
  split <;> rfl

/-! ## `awaitDispatch` -/

/-- A thread in `awaitDispatch` on behalf of `pa`, which belongs to `d`. -/
structure OnBehalf (q : DispatchQueue) (pa d : ℕ) : Prop where
  three_le : 3 ≤ pa
  domain : (q.pas pa).cpuDomainAnnex = some d
  reserved : (q.pas pa).reservedThread = .thread
  running : (q.pas pa).awaitingDispatch = false

theorem OnBehalf.not_canRun (h : OnBehalf q pa d) : (q.pas pa).canRun = false := by
  rw [← Bool.not_eq_true, canRun_iff, h.reserved, h.running]
  simp

theorem OnBehalf.frame (h : OnBehalf q pa d) (hframe : Frame K q q') : OnBehalf q' pa d where
  three_le := h.three_le
  domain := (hframe.domain pa).trans h.domain
  reserved := (hframe.thread pa).1.trans h.reserved
  running := (hframe.thread pa).2.1.trans h.running

section

variable (h : Sound q)

include h

theorem Sound.resumeTermination (hpa : OnBehalf q pa d) :
    Sound (q.resumeTermination pa) := by
  refine h.setThread pa _ none rfl ?_ (fun hb => absurd rfl hb) ?_
  · intro hawaiting
    have hrunning := hpa.running
    rw [show (q.pas pa).awaitingDispatch = true from hawaiting] at hrunning
    cases hrunning
  · intro htwo
    have := hpa.three_le
    omega

theorem Sound.waitForDispatch (hpa : OnBehalf q pa d) (c : ℕ) :
    Sound (q.waitForDispatch pa c) := by
  refine h.setThread pa _ (some c) rfl (fun _ => by simp) (fun _ => ⟨hpa.three_le, hpa.reserved, ?_⟩) ?_
  · rw [hpa.domain]
    simp
  · intro htwo
    have := hpa.three_le
    omega

theorem Sound.goOn (hpa : OnBehalf q pa d) :
    Sound { q with blocked := update q.blocked pa none } := by
  have hset := h.setThread pa (q.pas pa) none rfl ?_ (fun hb => absurd rfl hb) fun _ hrun => hrun
  · rw [update_eq_self] at hset
    exact hset
  · rw [hpa.running]
    simp

theorem Sound.finish (hpa : OnBehalf q pa d) :
    Sound { q.finishDispatch with blocked := update q.blocked pa none } := by
  have hframe : Frame (fun _ => True) q q.finishDispatch := finishDispatch_frame q
  rw [← hframe.blocked]
  exact h.finishDispatch.goOn (hpa.frame hframe)

theorem Sound.warn (hpa : OnBehalf q pa d) {f : ProcessAnnex → ProcessAnnex}
    (hdomain : ∀ p, (f p).cpuDomainAnnex = p.cpuDomainAnnex)
    (hreserved : ∀ p, (f p).reservedThread = p.reservedThread)
    (hawaiting : ∀ p, (f p).awaitingDispatch = p.awaitingDispatch) :
    Sound { (q.updPA pa f).finishDispatch with
      blocked := update (q.updPA pa f).blocked pa none } := by
  have hsound : Sound (q.updPA pa f) := by
    refine h.updPA pa hdomain ?_ (fun _ => (hreserved _).trans hpa.reserved) ?_
    · intro hfalse
      rw [hawaiting, hpa.running] at hfalse
      cases hfalse
    · intro htwo
      have := hpa.three_le
      omega
  refine hsound.finish (d := d) ⟨hpa.three_le, ?_, ?_, ?_⟩
  · exact (updPA_field ProcessAnnex.cpuDomainAnnex q pa hdomain pa).trans hpa.domain
  · exact (updPA_field ProcessAnnex.reservedThread q pa hreserved pa).trans hpa.reserved
  · exact (updPA_field ProcessAnnex.awaitingDispatch q pa hawaiting pa).trans hpa.running

theorem Sound.putOff (hthree : 3 ≤ pa) (hne : pa ≠ q.dispatchedPA)
    (hring : pa ∈ q.ring d) (hclass : (q.cdas d).pclass = c) :
    Sound { q with preemptedPA := update q.preemptedPA c (some pa) } := by
  have hcases : ∀ c' p, update q.preemptedPA c (some pa) c' = some p →
      c' = c ∧ p = pa ∨ q.preemptedPA c' = some p := by
    intro c' p
    exact update_cases (fun hslot => .inl ⟨rfl, (Option.some.inj hslot).symm⟩) (fun _ _ => .inr) c'
  refine ⟨⟨h.dispatched.queue.of_eq rfl rfl rfl, h.dispatched.ring⟩, ?_, ?_,
    ⟨h.threads.awaiting, h.threads.blocked⟩⟩
  · intro c' p hslot
    rcases hcases c' p hslot with ⟨rfl, rfl⟩ | hslot
    · exact ⟨hthree, d, h.dispatched.queue.ring_domain d p hring, hring, hclass⟩
    · exact h.slots c' p hslot
  · rintro p ⟨c', hslot⟩
    rcases hcases c' p hslot with ⟨-, rfl⟩ | hslot
    · exact hne
    · exact h.apart p ⟨c', hslot⟩

theorem Sound.retryDispatch (hpa : OnBehalf q pa d) (hruns : (q.pas pa).terminationPending = false →
      (∀ p, PutOff q p → (q.pas p).canRun = true) ∧ (q.cdas d).pclass = c) :
    Safe Sound (q.retryDispatch pa d c) := by
  rw [DispatchQueue.retryDispatch]
  refine Sat.ite (fun _ => h.resumeTermination hpa) fun hterm => ?_
  obtain ⟨hcan, hclass⟩ := hruns (by simpa using hterm)
  have hnot : ∀ p, PutOff q p → p ≠ pa := by
    rintro p hp rfl
    have := hcan p hp
    rw [hpa.not_canRun] at this
    cases this
  have hdne : d ≠ KERNEL := h.dispatched.queue.ne_of_own (by decide) hpa.three_le hpa.domain
  refine Sat.bind (h.dispatched.switchTo hcan hpa.domain) ?_
  rintro q₁ ⟨hdispatched₁, hframe₁, hpa₁, hcda₁⟩
  have hcan₁ : ∀ p, PutOff q p → (q₁.pas p).canRun = true :=
    fun p hp => hframe₁.canRun p (hcan p hp)
  obtain ⟨q₂, hclean, hqueue₂, hframe₂, hstays₂, hring₂, -, -⟩ :=
    hdispatched₁.queue.cleanHeap hcan₁ le_rfl
  rw [hclean, ok_bind, getHead_ok hqueue₂.count_pos, ok_bind]
  have hframe := hframe₁.trans hframe₂
  have hdispatched₂ : Dispatched q₂ := by
    refine ⟨?_, ?_⟩
    · rw [hstays₂.cda]
      exact hqueue₂
    · rw [hstays₂.cda, hstays₂.pa, hring₂]
      exact hdispatched₁.ring
  have hpa₂ : q₂.dispatchedPA = pa := hstays₂.pa.trans hpa₁
  have hcda₂ : q₂.dispatchedCDA = d := hstays₂.cda.trans hcda₁
  have hsound₂ : Sound q₂ := h.of_frame hframe hdispatched₂ (fun _ hp => hp) fun p hp => by
    rw [hpa₂]
    exact hnot p hp
  have hon₂ := hpa.frame hframe
  have hring : pa ∈ q₂.ring d := hpa₂ ▸ hcda₂ ▸ hdispatched₂.ring
  refine Sat.ite (fun _ => ?_) fun _ => ?_
  · -- the kernel takes over, and the annex is put off if its slot is free
    rw [hcda₁] at hqueue₂
    refine Sat.bind (hqueue₂.switchToKernel hdne) ?_
    rintro q₃ ⟨hdispatched₃, hframe₃, hpa₃, -⟩
    have hsound₃ : Sound q₃ := hsound₂.of_frame hframe₃ hdispatched₃ (fun _ _ => trivial) ?_
    · have hon₃ := hon₂.frame hframe₃
      have hput : Sound (if q₃.preemptedPA c = none ∧ !(q₂.pas pa).warningExpired then
          { q₃ with preemptedPA := update q₃.preemptedPA c (some pa) } else q₃) := by
        split
        · refine hsound₃.putOff hpa.three_le ?_ (hframe₃.keep d pa hring trivial) ?_
          · rw [hpa₃]
            have := hpa.three_le
            simp only [KERNEL]
            omega
          · rw [hframe₃.pclass, hframe.pclass, hclass]
        · exact hsound₃
      refine hput.finishDispatch.waitForDispatch (d := d) ?_ c
      refine OnBehalf.frame ?_ (finishDispatch_frame _)
      split
      · exact ⟨hon₃.three_le, hon₃.domain, hon₃.reserved, hon₃.running⟩
      · exact hon₃
    · intro p hp
      rw [hpa₃]
      obtain ⟨c', hslot⟩ := hp
      have := (hsound₂.slots c' p hslot).1
      simp only [KERNEL]
      omega
  · -- the annex goes on, with a warning if another domain should run
    simp only
    split
    · exact hsound₂.warn hon₂ (fun _ => rfl) (fun _ => rfl) fun _ => rfl
    · split
      · exact hsound₂.warn hon₂ (fun _ => rfl) (fun _ => rfl) fun _ => rfl
      · exact hsound₂.finish hon₂

theorem Sound.awaitDispatch (hpa : OnBehalf q pa d)
    (hruns : (q.pas pa).terminationPending = false → ∀ p, PutOff q p → (q.pas p).canRun = true)
    (now : SysTime) : Safe Sound (q.awaitDispatch pa now) := by
  have hkernel : pa ≠ KERNEL := by
    have := hpa.three_le
    simp only [KERNEL]
    omega
  have hcda : q.getCDA pa = .ok d := by
    rw [getCDA, hpa.domain]
  rw [DispatchQueue.awaitDispatch, if_neg hkernel, if_neg (not_not_intro hpa.reserved), hcda,
    ok_bind]
  obtain ⟨hsound, hframe, -⟩ := h.startDispatch now
  refine hsound.retryDispatch (hpa.frame hframe) ?_
  intro hterm
  rw [(hframe.thread pa).2.2] at hterm
  exact ⟨fun p hp => hframe.canRun p (hruns hterm p (hframe.putOff.mp hp)), hframe.pclass d⟩

theorem Sound.resumeDispatch (hpa : OnBehalf q pa d) (hblocked : q.blocked pa = some c)
    (hruns : (q.pas pa).terminationPending = false →
      (∀ p, PutOff q p → (q.pas p).canRun = true) ∧ (q.cdas d).pclass = c)
    (now : SysTime) : Safe Sound (q.resumeDispatch pa now) := by
  have hcda : q.getCDA pa = .ok d := by
    rw [getCDA, hpa.domain]
  rw [DispatchQueue.resumeDispatch, hblocked]
  simp only
  rw [hcda, ok_bind]
  obtain ⟨hsound, hframe, -⟩ := h.startDispatch now
  refine hsound.retryDispatch (hpa.frame hframe) ?_
  intro hterm
  rw [(hframe.thread pa).2.2] at hterm
  obtain ⟨hcan, hclass⟩ := hruns hterm
  exact ⟨fun p hp => hframe.canRun p (hcan p (hframe.putOff.mp hp)), (hframe.pclass d).trans hclass⟩

/-! ## Annexes come and go -/

theorem Sound.makeReady (hdomain : (q.pas pa).cpuDomainAnnex = some d) :
    Safe Sound (q.makeReady pa) := by
  refine (h.dispatched.queue.makeReady hdomain).mono ?_
  rintro q' ⟨hqueue, hframe, -, hstays⟩
  refine h.of_frame hframe ⟨?_, ?_⟩ (fun _ _ => trivial) fun p hp => ?_
  · rw [hstays.cda]
    exact hqueue
  · rw [hstays.cda, hstays.pa]
    exact hframe.keep _ _ h.dispatched.ring trivial
  · rw [hstays.pa]
    exact h.apart p hp

theorem Sound.setDomain (hthree : 3 ≤ pa) (hfree : ∀ d, pa ∉ q.ring d)
    (hslot : ¬ PutOff q pa) (hblocked : q.blocked pa = none) {v : Option ℕ}
    (hv : ∀ i < 3, v ≠ some i) :
    Sound (q.updPA pa fun p => { p with cpuDomainAnnex := v }) := by
  have hother : ∀ p, p ≠ pa →
      (q.updPA pa fun p => { p with cpuDomainAnnex := v }).pas p = q.pas p :=
    fun p hp => pas_updPA_of_ne q _ hp
  have hself : ((q.updPA pa fun p => { p with cpuDomainAnnex := v }).pas pa).cpuDomainAnnex = v := by
    rw [pas_updPA_self]
  have hqueue := h.dispatched.queue
  have hrings : Rings (q.updPA pa fun p => { p with cpuDomainAnnex := v }) := by
    refine ⟨hqueue.ring_nodup, ?_, hqueue.fresh, ?_, ?_⟩
    · intro d p hp
      rw [hother p fun heq => hfree d (heq ▸ hp)]
      exact hqueue.ring_domain d p hp
    · intro i hi
      refine ⟨?_, fun p hp => ?_⟩
      · rw [hother i (by omega)]
        exact (hqueue.own i hi).1
      · by_cases heq : p = pa
        · subst heq
          rw [hself] at hp
          exact absurd hp (hv i hi)
        · rw [hother p heq] at hp
          exact (hqueue.own i hi).2 p hp
    · intro i hi
      rw [hother i (by omega)]
      exact hqueue.always i hi
  refine ⟨⟨⟨hrings, hqueue.nodup, hqueue.mem_iff, hqueue.keys⟩, h.dispatched.ring⟩, ?_, h.apart, ?_, ?_⟩
  · intro c p hp
    rw [hother p fun heq => hslot ⟨c, heq ▸ hp⟩]
    exact h.slots c p hp
  · intro p hp
    by_cases heq : p = pa
    · subst heq
      refine h.threads.awaiting p ?_
      rwa [updPA_field ProcessAnnex.awaitingDispatch q p
        (f := fun p => { p with cpuDomainAnnex := v }) fun _ => rfl] at hp
    · rw [hother p heq] at hp
      exact h.threads.awaiting p hp
  · intro p hp
    rw [hother p fun heq => hp (heq ▸ hblocked)]
    exact h.threads.blocked p hp

theorem Sound.attach (hthree : 3 ≤ pa) (hnone : (q.pas pa).cpuDomainAnnex = none)
    (hd : 3 ≤ d) : Safe Sound (q.attach pa d) := by
  rw [DispatchQueue.attach, if_neg (not_not_intro hnone)]
  refine Sound.makeReady (d := d) (h.setDomain hthree ?_ ?_ ?_ ?_) ?_
  · intro d' hring
    rw [h.dispatched.queue.ring_domain d' pa hring] at hnone
    cases hnone
  · rintro ⟨c, hslot⟩
    obtain ⟨-, d', hdomain, -⟩ := h.slots c pa hslot
    rw [hdomain] at hnone
    cases hnone
  · by_contra hblocked
    exact (h.threads.blocked pa hblocked).2.2 hnone
  · intro i hi heq
    have := Option.some.inj heq
    omega
  · rw [pas_updPA_self]

/-- What `removeProcessAnnex` leaves: the annex is still in its ring, but is neither
dispatched nor put off. -/
theorem Sound.removeProcessAnnex (hthree : 3 ≤ pa) (hring : pa ∈ q.ring d) (now : SysTime) :
    Safe (fun q' => Sound q' ∧ q'.blocked = q.blocked ∧ ¬ PutOff q' pa ∧ pa ≠ q'.dispatchedPA ∧
      pa ∈ q'.ring d) (q.removeProcessAnnex d pa now) := by
  have hdomain := h.dispatched.queue.ring_domain d pa hring
  rw [DispatchQueue.removeProcessAnnex]
  refine Sat.ite (fun heq => ?_) fun hne => ?_
  · -- the kernel takes over
    subst heq
    obtain ⟨hsound₁, hframe₁, hstays₁⟩ := h.startDispatch now
    have hd : q.dispatchedCDA = d := by
      have := h.dispatched.domain
      rw [hdomain] at this
      exact (Option.some.inj this).symm
    have hdne : d ≠ KERNEL := h.dispatched.queue.ne_of_own (by decide) hthree hdomain
    have hqueue := hsound₁.dispatched.queue
    rw [hstays₁.cda, hd] at hqueue
    refine Sat.bind (hqueue.switchToKernel hdne) ?_
    rintro q₂ ⟨hdispatched₂, hframe₂, hpa₂, -⟩
    have hframe := hframe₁.trans hframe₂
    have hsound₂ : Sound q₂ := h.of_frame hframe hdispatched₂ (fun _ _ => trivial) ?_
    · have hfinish : Frame (fun _ => True) q q₂.finishDispatch :=
        hframe.trans (finishDispatch_frame q₂)
      refine ⟨hsound₂.finishDispatch, hfinish.blocked, ?_, ?_, hfinish.keep d _ hring trivial⟩
      · exact fun hput => h.apart _ (hfinish.putOff.mp hput) rfl
      · rw [(finishDispatch_eq q₂).2.2.pa, hpa₂]
        simp only [KERNEL]
        omega
    · rintro p ⟨c, hslot⟩
      have := (h.slots c p hslot).1
      rw [hpa₂]
      simp only [KERNEL]
      omega
  · simp only
    refine Sat.ite (fun hslot => ?_) fun hslot => ?_
    · refine ⟨⟨⟨h.dispatched.queue.of_eq rfl rfl rfl, h.dispatched.ring⟩, h.slots.clear _, ?_,
        ⟨h.threads.awaiting, h.threads.blocked⟩⟩, rfl, h.slots.not_putOff_clear hdomain, hne, hring⟩
      rintro p ⟨c, hc⟩
      exact h.apart p ⟨c, (slot_of_clear hc).2⟩
    · refine ⟨h, rfl, ?_, hne, hring⟩
      rintro ⟨c, hc⟩
      rw [h.slots.unique hc hdomain] at hslot
      exact hslot hc

end

theorem setRing_notRunnable (q : DispatchQueue) (cda : ℕ) (heap : DispatchHeap) :
    ({ q with heap := heap }.notRunnable cda).setRing cda [] =
      { (q.setRing cda []).notRunnable cda with heap := heap } := by
  simp [setRing, notRunnable, updCDA, flushQuantum, statCDANotRunnable, CPUDomainAnnex.flushQuantum,
    CPUDomainAnnex.adjustPriority]

theorem erase_ne_nil {l : List ℕ} (hpa : pa ∈ l) (hl : l ≠ [pa]) : l.erase pa ≠ [] := by
  intro hnil
  have hlength := List.length_erase_of_mem hpa
  rw [hnil, List.length_nil] at hlength
  cases l with
  | nil => cases hpa
  | cons head rest =>
    have hrest : rest = [] := List.length_eq_zero_iff.mp (by simpa using hlength.symm)
    subst hrest
    exact hl (by rw [List.mem_singleton.mp hpa])

section

variable (h : Sound q)

include h

theorem Sound.removeFromRing (hthree : 3 ≤ pa) (hring : pa ∈ q.ring d) (now : SysTime) :
    Safe (fun q' => Sound q' ∧ q'.blocked = q.blocked ∧ ¬ PutOff q' pa ∧ ∀ d, pa ∉ q'.ring d)
      (q.removeFromRing d pa now) := by
  refine Sat.bind (h.removeProcessAnnex hthree hring now) ?_
  rintro q₁ ⟨hsound, hblocked, hput, hne, hmem⟩
  have hqueue := hsound.dispatched.queue
  have hdomain := hqueue.ring_domain d pa hmem
  have hother : ∀ d', d' ≠ d → pa ∉ q₁.ring d' := by
    intro d' hd' hin
    rw [hqueue.ring_domain d' pa hin] at hdomain
    exact hd' (Option.some.inj hdomain)
  rw [if_neg (not_not_intro hmem)]
  refine Sat.ite (fun hlast => ?_) fun hmore => ?_
  · -- the last annex of the domain: the domain leaves the heap
    have hd : d ≠ q₁.dispatchedCDA := by
      rintro rfl
      have := hsound.dispatched.ring
      rw [hlast] at this
      exact hne (List.mem_singleton.mp this).symm
    have hheap : d ∈ q₁.heap.domains := hqueue.mem_heap (List.ne_nil_of_mem hmem) hd
    have hsmall : ∀ i < 3, d ≠ i := fun i hi => hqueue.ne_of_own hi hthree hdomain
    have hcount := hqueue.one_lt_count hheap fun i hi => hsmall i (by omega)
    obtain ⟨heap, old, hremove, rfl, helements⟩ := removeCPUDomainAnnex_ok hd hheap hcount
    have hdomains : q₁.dispatchedCDA ::ₘ q₁.heap.domains =
        old.cda ::ₘ q₁.dispatchedCDA ::ₘ heap.domains := by
      rw [domains, helements, Multiset.map_cons, Multiset.cons_swap]
      rfl
    have htwo : 2 ≤ old.cda := by
      have h0 := hsmall 0 (by omega)
      have h1 := hsmall 1 (by omega)
      omega
    have hretired := hqueue.retire htwo heap hdomains fun e he => by
      rw [helements]
      exact Multiset.mem_cons_of_mem he
    rw [hremove, ok_bind, setRing_notRunnable]
    have hrings : ∀ d', ({ (q₁.setRing old.cda []).notRunnable old.cda with heap := heap } :
        DispatchQueue).ring d' = update q₁.ring old.cda [] d' := by
      intro d'
      show ((q₁.setRing old.cda []).notRunnable old.cda).ring d' = _
      rw [ring_notRunnable, ring_setRing]
    have hframe : Frame (fun p => p ≠ pa) q₁
        { (q₁.setRing old.cda []).notRunnable old.cda with heap := heap } := by
      refine ((setRing_frame q₁ old.cda ?_).trans (notRunnable_frame _ _)).trans
        (Frame.of_eq rfl rfl rfl rfl)
      intro p hp hpne
      rw [hlast] at hp
      exact absurd (List.mem_singleton.mp hp) hpne
    refine ⟨hsound.of_frame hframe ⟨hretired, ?_⟩ (fun p hp heq => hput (heq ▸ hp)) hsound.apart,
      hframe.blocked.trans hblocked, fun hp => hput (hframe.putOff.mp hp), ?_⟩
    · exact hframe.keep _ _ hsound.dispatched.ring (Ne.symm hne)
    · intro d'
      rw [hrings]
      by_cases hd' : d' = old.cda
      · subst hd'
        rw [update_self]
        exact List.not_mem_nil
      · rw [update_of_ne hd']
        exact hother d' hd'
  · have hframe : Frame (fun p => p ≠ pa) q₁ (q₁.setRing d ((q₁.ring d).erase pa)) :=
      setRing_frame q₁ d fun p hp hpne => (List.mem_erase_of_ne hpne).mpr hp
    have hnodup := hqueue.ring_nodup d
    refine ⟨hsound.of_frame hframe ⟨?_, ?_⟩ (fun p hp heq => hput (heq ▸ hp)) hsound.apart,
      hframe.blocked.trans hblocked, fun hp => hput (hframe.putOff.mp hp), ?_⟩
    · refine hqueue.setRing (erase_ne_nil hmem hmore) (List.ne_nil_of_mem hmem)
        (hnodup.erase pa) ?_ ?_
      · exact fun p hp => hqueue.ring_domain d p (List.mem_of_mem_erase hp)
      · intro hd
        exact absurd rfl (hqueue.ne_of_own (by omega) hthree hdomain)
    · exact hframe.keep _ _ hsound.dispatched.ring (Ne.symm hne)
    · intro d'
      rw [ring_setRing]
      by_cases hd' : d' = d
      · subst hd'
        rw [update_self, hnodup.mem_erase_iff]
        exact fun hin => hin.1 rfl
      · rw [update_of_ne hd']
        exact hother d' hd'

theorem Sound.makeNotReady (hthree : 3 ≤ pa)
    (hdomain : (q.pas pa).cpuDomainAnnex = some d) (now : SysTime) :
    Safe (fun q' => Sound q' ∧ q'.blocked = q.blocked ∧ ¬ PutOff q' pa ∧ ∀ d, pa ∉ q'.ring d)
      (q.makeNotReady pa now) := by
  have hcda : q.getCDA pa = .ok d := by
    rw [getCDA, hdomain]
  rw [DispatchQueue.makeNotReady, hcda, ok_bind]
  refine Sat.ite (fun hmem => h.removeFromRing hthree hmem now) fun hmem => ?_
  have hnone : ∀ d', pa ∉ q.ring d' := by
    intro d' hin
    have := h.dispatched.queue.ring_domain d' pa hin
    rw [hdomain] at this
    exact hmem (Option.some.inj this ▸ hin)
  refine ⟨h, rfl, ?_, hnone⟩
  rintro ⟨c, hslot⟩
  obtain ⟨-, d', -, hring, -⟩ := h.slots c pa hslot
  exact hnone d' hring

theorem Sound.detach (hthree : 3 ≤ pa)
    (hdomain : (q.pas pa).cpuDomainAnnex = some d) (hblocked : q.blocked pa = none)
    (now : SysTime) : Safe Sound (q.detach pa now) := by
  refine Sat.bind (h.makeNotReady hthree hdomain now) ?_
  rintro q₁ ⟨hsound, hb, hput, hfree⟩
  exact hsound.setDomain hthree hfree hput (hb ▸ hblocked) fun i _ heq => by cases heq

theorem Sound.waitForTerminate (hthree : 3 ≤ pa) : Sound (q.waitForTerminate pa) := by
  rw [DispatchQueue.waitForTerminate]
  have hbig : pa < 2 → False := by omega
  split
  · exact h
  · rename_i hprimitive
    refine h.updPA pa (fun _ => rfl) (h.threads.awaiting pa) ?_ fun htwo => (hbig htwo).elim
    intro hblocked
    rw [(h.threads.blocked pa hblocked).2.1] at hprimitive
    cases hprimitive
  · -- the thread is woken up, and is told that the annex terminates
    have hwoken : Sound (if (q.pas pa).awaitingDispatch then q.signalDispatch pa else q) := by
      split
      · exact h.updPA pa (fun _ => rfl) (fun hfalse => by cases hfalse)
          (fun hblocked => (h.threads.blocked pa hblocked).2.1) fun htwo => (hbig htwo).elim
      · exact h
    exact hwoken.updPA pa (fun _ => rfl) (hwoken.threads.awaiting pa)
      (fun hblocked => (hwoken.threads.blocked pa hblocked).2.1) fun htwo => (hbig htwo).elim

/-! ## Domains change -/

theorem Sound.updCDA {f : CPUDomainAnnex → CPUDomainAnnex} (hring : (f (q.cdas d)).ring = q.ring d)
    (hpriority : q.ring d ≠ [] → (f (q.cdas d)).getPriority = (q.cdas d).getPriority)
    (hfresh : q.ring d = [] → (f (q.cdas d)).consumedTicks = 0)
    (hclass : q.ring d ≠ [] → (f (q.cdas d)).pclass = (q.cdas d).pclass) :
    Sound (q.updCDA d f) := by
  have hrings : (q.updCDA d f).ring = q.ring := by
    funext d'
    by_cases hd : d' = d
    · subst hd
      rw [ring, cdas_updCDA_self, hring]
    · rw [ring, cdas_updCDA_of_ne _ _ hd]
      rfl
  refine ⟨⟨?_, ?_⟩, ?_, h.apart, ⟨h.threads.awaiting, h.threads.blocked⟩⟩
  · refine h.dispatched.queue.congr rfl (fun d' => ?_) (fun d' hmem => ?_) (fun d' hnil => ?_)
      (fun _ => rfl) fun _ _ hrun => hrun
    · rw [hrings]
    · by_cases hd : d' = d
      · subst hd
        rw [entry, cdas_updCDA_self, hpriority
          ((h.dispatched.queue.mem_iff d').mp (Multiset.mem_cons_of_mem hmem))]
        rfl
      · rw [entry, cdas_updCDA_of_ne _ _ hd]
        rfl
    · by_cases hd : d' = d
      · subst hd
        rw [cdas_updCDA_self, hfresh hnil, h.dispatched.queue.fresh d' hnil]
      · rw [cdas_updCDA_of_ne _ _ hd]
  · rw [hrings]
    exact h.dispatched.ring
  · intro c p hslot
    obtain ⟨hthree, d', hdomain, hmem, hc⟩ := h.slots c p hslot
    refine ⟨hthree, d', hdomain, ?_, ?_⟩
    · rw [hrings]
      exact hmem
    · by_cases hd : d' = d
      · subst hd
        rw [cdas_updCDA_self, hclass (List.ne_nil_of_mem hmem)]
        exact hc
      · rw [cdas_updCDA_of_ne _ _ hd]
        exact hc

theorem Sound.create (hfree : ∀ p, (q.pas p).cpuDomainAnnex ≠ some d)
    (ticksPerSecond pclass weight quantumMicrosecs pulseMicrosecs : ℕ) :
    Sound (q.create ticksPerSecond d pclass weight quantumMicrosecs pulseMicrosecs).1 := by
  have hnil : q.ring d = [] := by
    by_contra hne
    obtain ⟨p, hp⟩ := List.exists_mem_of_ne_nil _ hne
    exact hfree p (h.dispatched.queue.ring_domain d p hp)
  have hnew : Sound (q.updCDA d fun _ => .init pclass weight (ticks ticksPerSecond quantumMicrosecs)
      (ticks ticksPerSecond pulseMicrosecs) q.vp) :=
    h.updCDA hnil.symm (absurd hnil) (fun _ => rfl) (absurd hnil)
  rw [DispatchQueue.create]
  repeat' split
  all_goals first
    | exact h
    | exact hnew

theorem Sound.setWeight (d weight : ℕ) : Sound (q.setWeight d weight).1 := by
  have hnew : Sound (q.updCDA d fun c =>
      { c with weight := weight, drag := UInt64.ofNat (MAX_WEIGHT / weight) }) :=
    h.updCDA rfl (fun _ => rfl) (h.dispatched.queue.fresh d) fun _ => rfl
  rw [DispatchQueue.setWeight]
  repeat' split
  all_goals first
    | exact h
    | exact hnew

end

theorem Queue.rekey (h : Queue q cur) {old : Element} {rest : Multiset Element}
    (hold : q.heap.elements = old ::ₘ rest) (hnew : q'.heap.elements = q'.entry old.cda ::ₘ rest)
    (hother : ∀ d, d ≠ old.cda → q'.cdas d = q.cdas d)
    (hring : q'.ring = q.ring) (hpas : q'.pas = q.pas) : Queue q' cur := by
  have hdomains : q'.heap.domains = q.heap.domains := by
    rw [domains, domains, hold, hnew, Multiset.map_cons, Multiset.map_cons]
    rfl
  have hmem : old.cda ∈ q.heap.domains := by
    rw [domains, hold, Multiset.map_cons]
    exact Multiset.mem_cons_self _ _
  have hrunnable := (h.mem_iff old.cda).mp (Multiset.mem_cons_of_mem hmem)
  have hnodup := (Multiset.nodup_cons.mp h.nodup).2
  rw [domains, hold, Multiset.map_cons, Multiset.nodup_cons] at hnodup
  have hrest : ∀ e ∈ rest, e.cda ≠ old.cda :=
    fun e he heq => hnodup.1 (heq ▸ Multiset.mem_map_of_mem Element.cda he)
  refine ⟨⟨?_, ?_, ?_, ?_, ?_⟩, ?_, ?_, ?_⟩
  · rw [hring]
    exact h.ring_nodup
  · rw [hring, hpas]
    exact h.ring_domain
  · intro d hd
    rw [hring] at hd
    rw [hother d fun heq => hrunnable (heq ▸ hd)]
    exact h.fresh d hd
  · rw [hpas]
    exact h.own
  · rw [hring, hpas]
    exact h.always
  · rw [hdomains]
    exact h.nodup
  · rw [hdomains, hring]
    exact h.mem_iff
  · intro e he
    rw [hnew, Multiset.mem_cons] at he
    rcases he with rfl | he
    · rfl
    · rw [entry, hother e.cda (hrest e he)]
      refine h.keys e ?_
      rw [hold]
      exact Multiset.mem_cons_of_mem he

theorem Sound.reinsert (h : Sound q) {f : CPUDomainAnnex → CPUDomainAnnex} {old : Element}
    {rest : Multiset Element} (hold : q.heap.elements = old ::ₘ rest)
    (hnew : q'.heap.elements = q'.entry old.cda ::ₘ rest)
    (hcdas : q'.cdas = update q.cdas old.cda (f (q.cdas old.cda)))
    (hring : (f (q.cdas old.cda)).ring = q.ring old.cda)
    (hpas : q'.pas = q.pas) (hblocked : q'.blocked = q.blocked)
    (hpreempted : q'.preemptedPA = q.preemptedPA) (hstays : Stays q q')
    (hslots : ∀ c p, q.preemptedPA c = some p → (q.pas p).cpuDomainAnnex = some old.cda →
      (f (q.cdas old.cda)).pclass = c) : Sound q' := by
  have hother : ∀ d, d ≠ old.cda → q'.cdas d = q.cdas d := fun d hd => by
    rw [hcdas, update_of_ne hd]
  have hself : q'.cdas old.cda = f (q.cdas old.cda) := by
    rw [hcdas, update_self]
  have hrings : q'.ring = q.ring := by
    funext d
    by_cases hd : d = old.cda
    · subst hd
      rw [ring, hself, hring]
    · rw [ring, hother d hd]
      rfl
  refine ⟨⟨?_, ?_⟩, ?_, ?_, ?_, ?_⟩
  · rw [hstays.cda]
    exact h.dispatched.queue.rekey hold hnew hother hrings hpas
  · rw [hstays.cda, hstays.pa, hrings]
    exact h.dispatched.ring
  · intro c p hslot
    rw [hpreempted] at hslot
    obtain ⟨hthree, d, hdomain, hmem, hc⟩ := h.slots c p hslot
    refine ⟨hthree, d, ?_, ?_, ?_⟩
    · rw [hpas]
      exact hdomain
    · rw [hrings]
      exact hmem
    · by_cases hd : d = old.cda
      · subst hd
        rw [hself]
        exact hslots c p hslot hdomain
      · rw [hother d hd]
        exact hc
  · intro p hp
    rw [PutOff, hpreempted] at hp
    rw [hstays.pa]
    exact h.apart p hp
  · rw [hpas, hblocked]
    exact h.threads.awaiting
  · rw [hpas, hblocked]
    exact h.threads.blocked

/-- The call to set the class of a domain is made on the processor of the domain and
with a class that exists. -/
def ClassAccepted (q : DispatchQueue) (cda pclass : ℕ) : Prop :=
  q.vp = (q.cdas cda).pp ∧ PRIORITY_CLASS_KERNEL ≤ pclass ∧ pclass ≤ PRIORITY_CLASS_UNRUNNABLE

/-- The class of a runnable domain may change while it is in the heap, if the annexes
of it that are put off are in the slot of the new class. -/
theorem Sound.setPriorityClass (h : Sound q) (hd : 3 ≤ d)
    (hsettled : ClassAccepted q d c → q.ring d ≠ [] → d ≠ q.dispatchedCDA ∧
      ∀ c' p, q.preemptedPA c' = some p → (q.pas p).cpuDomainAnnex = some d → c = c') :
    Safe (fun r => Sound r.1) (q.setPriorityClass d c) := by
  rw [DispatchQueue.setPriorityClass]
  refine Sat.ite (fun _ => h) fun hpp => ?_
  refine Sat.ite (fun _ => h) fun hrange => ?_
  rw [not_not] at hpp
  rw [not_or, not_lt, not_lt] at hrange
  have hring : (q.updCDA d fun x => { x with pclass := c }).ring d = q.ring d := by
    rw [ring, cdas_updCDA_self]
    rfl
  simp only
  rw [hring]
  refine Sat.ite (fun hne => ?_) fun hnil => ?_
  · obtain ⟨hcur, hslots⟩ := hsettled ⟨hpp, hrange⟩ hne
    have hqueue := h.dispatched.queue
    have hheap : d ∈ q.heap.domains := hqueue.mem_heap hne hcur
    obtain ⟨heap, old, hremove, rfl, helements⟩ :=
      removeCPUDomainAnnex_ok (q := q.updCDA d fun x => { x with pclass := c }) hcur hheap
        (hqueue.one_lt_count hheap fun i hi => by omega)
    rw [hremove, ok_bind]
    -- the quantum is flushed with the new class
    have hcdas : (({ q.updCDA old.cda fun x => { x with pclass := c } with
        heap := heap } : DispatchQueue).notRunnable old.cda).cdas = update q.cdas old.cda
          ({ q.cdas old.cda with pclass := c }.flushQuantum q.inflation q.tickScale) := by
      simp [notRunnable, flushQuantum, statCDANotRunnable, DispatchQueue.updCDA]
    have hfresh : ((({ q.updCDA old.cda fun x => { x with pclass := c } with
        heap := heap } : DispatchQueue).notRunnable old.cda).cdas old.cda).consumedTicks = 0 := by
      rw [hcdas, update_self]
      rfl
    rcases addCPUDomainAnnex_cases hfresh with ⟨heap', hadd, helements'⟩ | hadd
    · rw [hadd, ok_bind]
      refine h.reinsert (f := fun x : CPUDomainAnnex =>
        { x with pclass := c }.flushQuantum q.inflation q.tickScale) helements helements' ?_ rfl rfl
          rfl rfl ⟨rfl, rfl⟩ hslots
      exact hcdas
    · rw [hadd]
      rfl
  · rw [not_not] at hnil
    have hnew : Sound (q.updCDA d fun x => { x with pclass := c }) :=
      h.updCDA rfl (absurd hnil) (h.dispatched.queue.fresh d) (absurd hnil)
    exact hnew

end K42.DispatchQueue
