import K42.Exception.PriorityMantissa

/-!
# The decay of a priority

A charge shifts the mantissa by the inflations since the exponent was recorded. Nothing bounds
them while the domain sleeps. A domain that is created later starts with the exponent 0, as if it
had slept from the start of the processor.
-/

open Function (update update_cases₂ update_of_ne update_self update_eq_self)

namespace K42.DispatchQueue

/-- The domain that the step charges. -/
def chargedDomain (q : DispatchQueue) : Charge → Option ℕ
  | .startDispatch now =>
    let c := q.cdas q.dispatchedCDA
    if c.quantum ≤ c.consumedTicks + q.delta now then some q.dispatchedCDA else none
  | .flushQuantum cda => some cda
  | _ => none

/-- The step begins with an inflation. -/
def Inflates (q : DispatchQueue) : Charge → Prop
  | .startDispatch now => q.nextInflationTime ≤ now
  | _ => False

instance (q : DispatchQueue) : ∀ op, Decidable (q.Inflates op)
  | .startDispatch now => inferInstanceAs (Decidable (q.nextInflationTime ≤ now))
  | .dispatch _ => inferInstanceAs (Decidable False)
  | .flushQuantum _ => inferInstanceAs (Decidable False)
  | .setWeight _ _ => inferInstanceAs (Decidable False)
  | .create _ _ _ _ _ => inferInstanceAs (Decidable False)

/-- The right shift that `adjustPriority` evaluates. -/
def shiftCount (q : DispatchQueue) (op : Charge) : Option SysTime :=
  (q.charged op).map fun (c, inflation, _) => inflation - c.exponent

/-! ## What is recorded of a run -/

/-- A dispatch queue, the inflations since its start, and those that each domain has slept
through: since it was charged, or since the start if it never was. -/
structure Sleepers where
  queue : DispatchQueue
  epochs : ℕ
  slept : ℕ → ℕ

namespace Sleepers

section Steps

variable (s : Sleepers) (op : Charge)

/-- The inflations when the step is about to charge a domain. -/
def epochsAt : ℕ := if s.queue.Inflates op then s.epochs + 1 else s.epochs

def sleptAt (d : ℕ) : ℕ := if s.queue.Inflates op then s.slept d + 1 else s.slept d

def step (shr : Shift) : Sleepers where
  queue := s.queue.charge shr op
  epochs := s.epochsAt op
  slept :=
    match s.queue.chargedDomain op, op with
    | some d, _ => update (s.sleptAt op) d 0
    | none, .create cda _ _ _ _ => update (s.sleptAt op) cda (s.epochsAt op)
    | none, _ => s.sleptAt op

end Steps

def start (q : DispatchQueue) : Sleepers := ⟨q, 0, fun _ => 0⟩

end Sleepers

/-- All runs of charges in which the inflation fits its field, as `adjustPriority` asserts. -/
def sleepers (shr : Shift) : Machine Sleepers Charge where
  step s op := s.step op shr
  adm s op := s.queue.Chargeable op ∧ s.epochsAt op < 2 ^ EXPONENT_BITS

/-! ## The exponents -/

/-- The inflation when the step charges a domain. -/
def inflationAt (q : DispatchQueue) (op : Charge) : SysTime :=
  if q.Inflates op then q.inflation + 1 else q.inflation

/-- The exponents of all domains. -/
def exponents (q : DispatchQueue) (d : ℕ) : SysTime := (q.cdas d).exponent

section Exponents

variable (shr : Shift) (q : DispatchQueue)

theorem inflation_clock (now : SysTime) :
    (q.clock now).inflation = q.inflationAt (.startDispatch now) := by
  show (q.inflate now).inflation = if q.nextInflationTime ≤ now then _ else _
  unfold inflate
  split
  · simp only
    split <;> rfl
  · rfl

theorem charged_eq {op : Charge} {c : CPUDomainAnnex} {inflation delta : SysTime}
    (h : q.charged op = some (c, inflation, delta)) :
    ∃ d, q.chargedDomain op = some d ∧ c = q.cdas d ∧ inflation = q.inflationAt op := by
  cases op with
  | startDispatch now =>
    unfold charged at h
    unfold chargedDomain
    simp only at h ⊢
    split at h
    · rename_i hused
      cases h
      exact ⟨_, if_pos hused, rfl, q.inflation_clock now⟩
    · cases h
  | flushQuantum cda =>
    cases h
    exact ⟨cda, rfl, rfl, rfl⟩
  | dispatch cda => cases h
  | setWeight cda weight => cases h
  | create cda pclass weight quantum pulseInterval => cases h

theorem exponents_updCDA (cda : ℕ) (f : CPUDomainAnnex → CPUDomainAnnex) :
    (q.updCDA cda f).exponents = update q.exponents cda (f (q.cdas cda)).exponent := by
  funext d
  show ((update q.cdas cda (f (q.cdas cda)) d).exponent) = _
  exact update_cases₂ rfl (fun _ _ => rfl) d

theorem inflation_charge (op : Charge) : (q.charge shr op).inflation = q.inflationAt op := by
  cases op with
  | startDispatch now =>
    rw [← q.inflation_clock now]
    show (q.chargeDispatch shr now).inflation = _
    unfold chargeDispatch chargeQuantum
    simp only
    split <;> rfl
  | flushQuantum cda => rfl
  | dispatch cda => rfl
  | setWeight cda weight => rfl
  | create cda pclass weight quantum pulseInterval => rfl

/-- A step records the inflation for the domain it charges, starts a new domain with 0, or leaves
the exponents as they are. -/
theorem exponents_charge (op : Charge) :
    (∃ d, q.chargedDomain op = some d ∧ (q.charge shr op).exponents =
        update q.exponents d (q.inflationAt op % 2 ^ EXPONENT_BITS)) ∨
      (q.chargedDomain op = none ∧ ∃ cda pclass weight quantum pulseInterval,
        op = .create cda pclass weight quantum pulseInterval ∧
        (q.charge shr op).exponents = update q.exponents cda 0) ∨
      (q.chargedDomain op = none ∧ (∀ cda pclass weight quantum pulseInterval,
        op ≠ .create cda pclass weight quantum pulseInterval) ∧
        (q.charge shr op).exponents = q.exponents) := by
  cases op with
  | startDispatch now =>
    obtain ⟨hcdas, hdispatched, -⟩ := inflate_frame q now
    have hcdas' : (q.clock now).cdas = q.cdas := hcdas
    have hdispatched' : (q.clock now).dispatchedCDA = q.dispatchedCDA := hdispatched
    have hexponents : (q.clock now).exponents = q.exponents := by
      unfold exponents
      rw [hcdas']
    -- the quantum that is compared is that of the dispatched domain
    have hself : (((q.clock now).updCDA (q.clock now).dispatchedCDA fun c =>
        { c with consumedTicks := c.consumedTicks + q.delta now }).cdas
          (q.clock now).dispatchedCDA) =
        { q.cdas q.dispatchedCDA with
          consumedTicks := (q.cdas q.dispatchedCDA).consumedTicks + q.delta now } := by
      show update (q.clock now).cdas _ _ _ = _
      rw [update_self, hcdas', hdispatched']
    show (∃ d, _ ∧ (q.chargeDispatch shr now).exponents = _) ∨ (_ ∧ ∃ _ _ _ _ _, _ ∧ _) ∨
      (_ ∧ _ ∧ (q.chargeDispatch shr now).exponents = _)
    unfold chargeDispatch chargeQuantum chargedDomain
    simp only
    rw [hself]
    split
    · refine .inl ⟨_, rfl, ?_⟩
      unfold flushQuantumBy
      rw [updCDA_updCDA, exponents_updCDA, hexponents, hdispatched', ← q.inflation_clock now]
      rfl
    · refine .inr (.inr ⟨rfl, nofun, ?_⟩)
      rw [exponents_updCDA, hexponents, hdispatched', hcdas']
      exact update_eq_self ..
  | flushQuantum cda =>
    refine .inl ⟨cda, rfl, ?_⟩
    exact exponents_updCDA q cda fun c => c.flushQuantumBy shr q.inflation q.tickScale
  | dispatch cda => exact .inr (.inr ⟨rfl, nofun, rfl⟩)
  | setWeight cda weight =>
    refine .inr (.inr ⟨rfl, nofun, ?_⟩)
    exact (exponents_updCDA q cda fun c => { c with
      weight := weight, drag := UInt64.ofNat (MAX_WEIGHT / weight) }).trans
        (update_eq_self ..)
  | create cda pclass weight quantum pulseInterval =>
    refine .inr (.inl ⟨rfl, cda, pclass, weight, quantum, pulseInterval, rfl, ?_⟩)
    exact exponents_updCDA q cda fun _ => .init pclass weight quantum pulseInterval q.vp

end Exponents

/-! ## The shift count -/

/-- The exponent of a domain and the inflations that it has slept through make up those since the
start. -/
structure Asleep (s : Sleepers) : Prop where
  inflation : s.queue.inflation.toNat = s.epochs
  fits : s.epochs < 2 ^ EXPONENT_BITS
  slept : ∀ d, (s.queue.exponents d).toNat + s.slept d = s.epochs

section Count

variable {shr : Shift} {s : Sleepers} {op : Charge}

theorem Asleep.inflationAt (h : Asleep s) (hfits : s.epochsAt op < 2 ^ EXPONENT_BITS) :
    (s.queue.inflationAt op).toNat = s.epochsAt op := by
  unfold DispatchQueue.inflationAt
  unfold Sleepers.epochsAt at hfits ⊢
  split
  · rename_i hdue
    rw [if_pos hdue] at hfits
    have hbits : s.epochs + 1 < 2 ^ 40 := hfits
    rw [UInt64.toNat_add, h.inflation]
    exact Nat.mod_eq_of_lt (by show _ + 1 < _; omega)
  · exact h.inflation

theorem Asleep.sleptAt (h : Asleep s) (d : ℕ) :
    (s.queue.exponents d).toNat + s.sleptAt op d = s.epochsAt op := by
  have hslept := h.slept d
  unfold Sleepers.sleptAt Sleepers.epochsAt
  split <;> omega

theorem Asleep.step (h : Asleep s) (hfits : s.epochsAt op < 2 ^ EXPONENT_BITS) :
    Asleep (s.step op shr) := by
  have hinflation := h.inflationAt hfits
  constructor
  · show (s.queue.charge shr op).inflation.toNat = _
    rw [inflation_charge]
    exact hinflation
  · exact hfits
  · intro d
    show ((s.queue.charge shr op).exponents d).toNat + _ = s.epochsAt op
    rcases exponents_charge shr s.queue op with ⟨c, hcharged, hexponents⟩ |
      ⟨hcharged, cda, pclass, weight, quantum, pulseInterval, rfl, hexponents⟩ |
      ⟨hcharged, hnew, hexponents⟩
    · -- the domain that is charged
      have hslept : (s.step op shr).slept = update (s.sleptAt op) c 0 := by
        unfold Sleepers.step
        simp only [hcharged]
      rw [hexponents, hslept]
      refine update_cases₂ ?_ (fun d _ => h.sleptAt d) d
      rw [Nat.add_zero, UInt64.toNat_mod, hinflation]
      exact Nat.mod_eq_of_lt hfits
    · -- a new domain
      rw [hexponents]
      show _ + update (s.sleptAt _) cda (s.epochsAt _) d = _
      exact update_cases₂ (Nat.zero_add _) (fun d _ => h.sleptAt d) d
    · have hslept : (s.step op shr).slept = s.sleptAt op := by
        unfold Sleepers.step
        simp only [hcharged]
      rw [hexponents, hslept]
      exact h.sleptAt d

/-- In every run, what `adjustPriority` shifts by is at most 63 exactly if the domain has slept
through at most 63 inflations. Then a shorter sleep would not have left less of the mantissa. -/
theorem run_shiftCount (hshr : ∀ a n : SysTime, n ≤ 63 → shr a n = a >>> n)
    (vp ticksPerSecond : ℕ) (now inflationInterval tickScale warningQuantum : SysTime)
    {ops : List Charge}
    (hrun : (sleepers shr).Run (.start (init vp ticksPerSecond now inflationInterval tickScale
      warningQuantum)) ops s) (hadm : (sleepers shr).adm s op)
    {c : CPUDomainAnnex} {inflation delta : SysTime}
    (hcharged : s.queue.charged op = some (c, inflation, delta)) :
    ∃ d, s.queue.chargedDomain op = some d ∧ c.exponent ≤ inflation ∧
      (inflation - c.exponent ≤ 63 ↔ s.sleptAt op d ≤ 63) ∧
      (s.sleptAt op d ≤ 63 → ∀ n ≤ inflation - c.exponent,
        shr c.mantissa (inflation - c.exponent) ≤ shr c.mantissa n) := by
  have hasleep : Asleep s := by
    refine hrun.invariant (I := Asleep) ?_ fun s op h hadm =>
      h.step (And.right hadm)
    refine ⟨rfl, (by decide : 0 < 2 ^ 40), fun d => ?_⟩
    show ((init vp ticksPerSecond now inflationInterval tickScale warningQuantum).cdas
      d).exponent.toNat + 0 = 0
    simp only [init]
    repeat' split
    all_goals rfl
  obtain ⟨d, hd, rfl, rfl⟩ := charged_eq s.queue hcharged
  have hinflation := hasleep.inflationAt hadm.2
  have hslept : (s.queue.cdas d).exponent.toNat + s.sleptAt op d = s.epochsAt op :=
    hasleep.sleptAt d
  have hle : (s.queue.cdas d).exponent ≤ s.queue.inflationAt op := by
    rw [UInt64.le_iff_toNat_le, hinflation]
    omega
  have hcount : (s.queue.inflationAt op - (s.queue.cdas d).exponent).toNat = s.sleptAt op d := by
    rw [UInt64.toNat_sub_of_le _ _ hle, hinflation]
    omega
  have hiff : s.queue.inflationAt op - (s.queue.cdas d).exponent ≤ 63 ↔ s.sleptAt op d ≤ 63 := by
    rw [UInt64.le_iff_toNat_le, hcount]
    rfl
  refine ⟨d, hd, hle, hiff, fun hshort n hn => ?_⟩
  have hbound := hiff.2 hshort
  rw [hshr _ _ hbound, hshr _ _ (UInt64.le_trans hn hbound)]
  rw [UInt64.le_iff_toNat_le] at hn hbound ⊢
  have h63 : (63 : SysTime).toNat = 63 := rfl
  rw [UInt64.toNat_shiftRight, UInt64.toNat_shiftRight, Nat.mod_eq_of_lt (by omega),
    Nat.mod_eq_of_lt (by omega), Nat.shiftRight_eq_div_pow, Nat.shiftRight_eq_div_pow]
  exact Nat.div_le_div_left (Nat.pow_le_pow_right (by decide) hn) (Nat.two_pow_pos _)

end Count

instance (shr : Shift) (s : Sleepers) (op : Charge) : Decidable ((sleepers shr).adm s op) :=
  inferInstanceAs (Decidable (s.queue.Chargeable op ∧ s.epochsAt op < 2 ^ EXPONENT_BITS))

/-- A processor with a clock of one megahertz. -/
def megahertz : DispatchQueue := init 0 1000000 0 80000 (TickScale 80000) 10000

/-- The idle loop uses up its quantum, the kernel runs for `epochs` intervals, and the idle loop is
dispatched again. -/
def sleep (epochs : ℕ) : List Charge :=
  [Charge.dispatch IDLE, .startDispatch 40000, .dispatch KERNEL] ++
    ((List.range epochs).map fun k => Charge.startDispatch (80000 * UInt64.ofNat (k + 1))) ++
    [Charge.dispatch IDLE]

/-- It uses up its quantum again. -/
def awake (epochs : ℕ) : Charge := .startDispatch (80000 * UInt64.ofNat epochs + 40000)

def asleep (epochs : ℕ) : Sleepers :=
  (sleep epochs).foldl (sleepers (· >>> ·)).step (.start megahertz)

theorem run_shiftCount_asleep :
    ∃ d, (asleep 3).queue.chargedDomain (awake 3) = some d ∧
      ((asleep 3).queue.cdas IDLE).exponent ≤ 3 ∧
      (3 - ((asleep 3).queue.cdas IDLE).exponent ≤ 63 ↔
        (asleep 3).sleptAt (awake 3) d ≤ 63) ∧
      ((asleep 3).sleptAt (awake 3) d ≤ 63 →
        ∀ n ≤ 3 - ((asleep 3).queue.cdas IDLE).exponent,
          ((asleep 3).queue.cdas IDLE).mantissa >>> (3 - ((asleep 3).queue.cdas IDLE).exponent) ≤
            ((asleep 3).queue.cdas IDLE).mantissa >>> n) := by
  have hadmits : (sleepers (· >>> ·)).Admits (.start megahertz) (sleep 3) := by decide +kernel
  have hnext : (sleepers (· >>> ·)).adm (asleep 3) (awake 3) := by decide +kernel
  have hcharged : (asleep 3).queue.charged (awake 3) =
      some ((asleep 3).queue.cdas IDLE, 3, 40000) := by decide +kernel
  exact run_shiftCount (fun _ _ _ => rfl) 0 1000000 0 80000 (TickScale 80000) 10000
    hadmits.run hnext hcharged

/-- After 64 inflations the shift count is 64. A machine that takes the low six bits of the count
leaves the whole mantissa then, and nothing of it after 63; the charge is 160000. -/
theorem shiftCount_sixtyFour : (¬ ∀ (shr : Shift) (vp ticksPerSecond : ℕ)
        (now inflationInterval tickScale warningQuantum : SysTime)
        (ops : List Charge) (s : Sleepers) (op : Charge),
      (∀ a n : SysTime, n ≤ 63 → shr a n = a >>> n) →
      (sleepers shr).Run (.start (init vp ticksPerSecond now inflationInterval tickScale
        warningQuantum)) ops s →
      (sleepers shr).adm s op → ∀ n, s.queue.shiftCount op = some n → n ≤ 63) ∧
    (asleep 63).queue.computed (· >>> ·) (awake 63) = some 160000 ∧
    (asleep 64).queue.computed (· >>> ·) (awake 64) = some 320000 := by
  refine ⟨fun h => ?_, by decide +kernel, by decide +kernel⟩
  have hadmits : (sleepers (· >>> ·)).Admits (.start megahertz) (sleep 64) := by decide +kernel
  have hnext : (sleepers (· >>> ·)).adm (asleep 64) (awake 64) := by decide +kernel
  have hcount : (asleep 64).queue.shiftCount (awake 64) = some 64 := by decide +kernel
  have hshr : ∀ a n : SysTime, n ≤ 63 → (· >>> ·) a n = a >>> n := fun _ _ _ => rfl
  have hbound := h (· >>> ·) 0 1000000 0 80000 (TickScale 80000) 10000 (sleep 64) (asleep 64)
    (awake 64) hshr hadmits.run hnext 64 hcount
  exact absurd hbound (by decide)

end K42.DispatchQueue
