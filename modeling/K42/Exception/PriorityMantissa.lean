import K42.Exception.DispatchRuns

/-!
# The mantissa of a priority

The time that a domain runs is added to the mantissa of its priority, which is halved with each
inflation of the dispatch queue. A domain is charged when its quantum is used up or when it is not
runnable any more; the halvings that it has missed are done then, by one shift.

What a run of the dispatch queue does to the priorities is described by its charges: calls of
`startDispatch` at growing clock values, whatever domain is dispatched, and of `flushQuantum`, for
domains whose weights change. How a machine shifts a word by 64 or more is a parameter.
-/

namespace K42

abbrev Shift := SysTime → SysTime → SysTime

/-- A shift by 64 or more leaves nothing. -/
def shiftOut : Shift := fun a n => if 64 ≤ n then 0 else a >>> n

/-! ## `TickScale` -/

/-- The loop of `TickScale`. -/
def tickScaleLoop : ℕ → SysTime → SysTime → SysTime
  | 0, _, scale => scale
  | fuel + 1, maxMantissa, scale =>
    if 0 < maxMantissa >>> (20 : SysTime) then
      tickScaleLoop fuel (maxMantissa >>> (1 : SysTime)) (scale + 1)
    else scale

def TickScale (inflationInterval : SysTime) : SysTime :=
  let maxDrag := UInt64.ofNat (MAX_WEIGHT / MIN_WEIGHT)
  let maxMantissa := maxDrag * 3 * inflationInterval
  tickScaleLoop 64 maxMantissa 0

/-! ## Charges -/

namespace CPUDomainAnnex

/-- The mantissa that `adjustPriority` computes, before it is put into its field. -/
def mantissaBy (shr : Shift) (cda : CPUDomainAnnex) (inflation tickScale delta : SysTime) :
    SysTime :=
  shr cda.mantissa (inflation - cda.exponent) + ((cda.drag * delta) >>> tickScale)

def adjustPriorityBy (shr : Shift) (cda : CPUDomainAnnex) (inflation tickScale delta : SysTime) :
    CPUDomainAnnex :=
  { cda with
    mantissa := cda.mantissaBy shr inflation tickScale delta % 2 ^ MANTISSA_BITS
    exponent := inflation % 2 ^ EXPONENT_BITS }

def flushQuantumBy (shr : Shift) (cda : CPUDomainAnnex) (inflation tickScale : SysTime) :
    CPUDomainAnnex :=
  { cda.adjustPriorityBy shr inflation tickScale cda.consumedTicks with consumedTicks := 0 }

end CPUDomainAnnex

namespace DispatchQueue

open UInt64 (le_iff_toNat_le ofNat toNat_add toNat_mod toNat_mul toNat_ofNat' toNat_shiftRight
  toNat_sub_of_le)
open Nat (mod_eq_of_lt pow_succ zero_le)

section Charges

variable (shr : Shift) (q : DispatchQueue)

def flushQuantumBy (cda : ℕ) : DispatchQueue :=
  q.updCDA cda fun c => c.flushQuantumBy shr q.inflation q.tickScale

/-- `adjustQuantum` as far as the domain is concerned. -/
def chargeQuantum (delta : SysTime) : DispatchQueue :=
  let d := q.dispatchedCDA
  let q := q.updCDA d fun c => { c with consumedTicks := c.consumedTicks + delta }
  if (q.cdas d).quantum ≤ (q.cdas d).consumedTicks then q.flushQuantumBy shr d else q

/-- The clock of the queue before the dispatched domain is charged. -/
def clock (now : SysTime) : DispatchQueue :=
  { q.inflate now with lastDispatchTime := now }

/-- The time to be charged. -/
def delta (now : SysTime) : SysTime := now - (q.inflate now).lastDispatchTime

/-- `startDispatch` as far as the domains are concerned. -/
def chargeDispatch (now : SysTime) : DispatchQueue := (q.clock now).chargeQuantum shr (q.delta now)

inductive Charge
  | startDispatch (now : SysTime)
  | dispatch (cda : ℕ)
  | flushQuantum (cda : ℕ)
  | setWeight (cda weight : ℕ)
  | create (cda pclass weight : ℕ) (quantum pulseInterval : SysTime)

def charge : Charge → DispatchQueue
  | .startDispatch now => q.chargeDispatch shr now
  | .dispatch cda => { q with dispatchedCDA := cda }
  | .flushQuantum cda => q.flushQuantumBy shr cda
  | .setWeight cda weight =>
    q.updCDA cda fun c => { c with weight := weight, drag := UInt64.ofNat (MAX_WEIGHT / weight) }
  | .create cda pclass weight quantum pulseInterval =>
    q.updCDA cda fun _ => .init pclass weight quantum pulseInterval q.vp

/-- The clock does not go back, weights are within their bounds, and the interval is at least
twice every quantum. -/
def Chargeable : Charge → Prop
  | .startDispatch now => q.lastDispatchTime ≤ now
  | .setWeight _ weight => MIN_WEIGHT ≤ weight ∧ weight ≤ MAX_WEIGHT
  | .create _ _ weight quantum _ => MIN_WEIGHT ≤ weight ∧ weight ≤ MAX_WEIGHT ∧
      2 * quantum.toNat ≤ q.inflationInterval.toNat
  | _ => True

/-- The domain that the step calls `adjustPriority` for, with the inflation and the time then. -/
def charged : Charge → Option (CPUDomainAnnex × SysTime × SysTime)
  | .startDispatch now =>
    let c := q.cdas q.dispatchedCDA
    let consumedTicks := c.consumedTicks + q.delta now
    if c.quantum ≤ consumedTicks then some (c, (q.clock now).inflation, consumedTicks) else none
  | .flushQuantum cda => some (q.cdas cda, q.inflation, (q.cdas cda).consumedTicks)
  | _ => none

/-- The mantissa that the step computes. -/
def computed (op : Charge) : Option SysTime :=
  (q.charged op).map fun (c, inflation, delta) => c.mantissaBy shr inflation q.tickScale delta

end Charges

theorem chargeQuantum_updPA (shr : Shift) (q : DispatchQueue) (pa : ℕ)
    (f : ProcessAnnex → ProcessAnnex) (delta : SysTime) :
    (q.updPA pa f).chargeQuantum shr delta = (q.chargeQuantum shr delta).updPA pa f := by
  simp only [chargeQuantum]
  symm
  apply apply_ite fun r : DispatchQueue => r.updPA pa f

/-- `adjustQuantum` and `startDispatch` charge the domain in this way; besides, they turn its ring
and change annexes. -/
theorem adjustQuantum_charges (q : DispatchQueue) (delta : SysTime) :
    ∃ pas ring, q.adjustQuantum delta =
      { (q.chargeQuantum (· >>> ·) delta).setRing q.dispatchedCDA ring with pas } := by
  have hsame : ∀ r : DispatchQueue, r =
      { r.setRing q.dispatchedCDA (r.ring q.dispatchedCDA) with pas := r.pas } := by
    intro r
    simp [setRing, updCDA, ring]
  simp only [adjustQuantum, chargeQuantum]
  split
  · split
    · exact ⟨_, _, hsame _⟩
    · exact ⟨_, _, rfl⟩
  · exact ⟨_, _, hsame _⟩

theorem startDispatch_charges (q : DispatchQueue) (now : SysTime) :
    ∃ pas ring, q.startDispatch now =
      { (q.chargeDispatch (· >>> ·) now).setRing q.dispatchedCDA ring with pas } := by
  have hstays := (inflate_eq q now).2.2.2.2.2.cda
  obtain ⟨pas, ring, hadjust⟩ := adjustQuantum_charges
    ((q.clock now).updPA (q.inflate now).dispatchedPA fun p =>
      { p with dispatchTicks := p.dispatchTicks + q.delta now }) (q.delta now)
  refine ⟨pas, ring, hadjust.trans ?_⟩
  rw [chargeQuantum_updPA, ← hstays]
  rfl
/-- All runs of charges. -/
def charges (shr : Shift) : Machine DispatchQueue Charge where
  step q op := q.charge shr op
  adm q op := q.Chargeable op

/-! ## The bound -/

/-- The start of a queue, with domains that have not run yet. The bound that `TickScale` starts
from fits its word. -/
structure Started (q : DispatchQueue) : Prop where
  wide : MAX_WEIGHT / MIN_WEIGHT * 3 * q.inflationInterval.toNat < 2 ^ 64
  tickScale : q.tickScale = TickScale q.inflationInterval
  inflation : q.inflation = 0
  nextInflationTime : q.nextInflationTime.toNat =
    q.lastDispatchTime.toNat + q.inflationInterval.toNat
  domain : ∀ d, (q.cdas d).mantissa = 0 ∧ (q.cdas d).exponent = 0 ∧ (q.cdas d).consumedTicks = 0 ∧
    2 * (q.cdas d).quantum.toNat ≤ q.inflationInterval.toNat ∧
    ∃ weight, MIN_WEIGHT ≤ weight ∧ (q.cdas d).drag = UInt64.ofNat (MAX_WEIGHT / weight)

/-- The scale leaves room for four and a half intervals, not only for three. -/
def Roomy (q : DispatchQueue) : Prop :=
  MAX_WEIGHT / MIN_WEIGHT * 9 * q.inflationInterval.toNat <
    2 ^ (MANTISSA_BITS + 1 + q.tickScale.toNat)

/-- Where an inflation is due, the time of the dispatched domain that has not been charged yet has
been spent since the one before, and the next one is not due. -/
def InTime (q : DispatchQueue) (now : SysTime) : Prop :=
  q.nextInflationTime ≤ now →
    now.toNat < q.nextInflationTime.toNat + q.inflationInterval.toNat ∧
    (q.cdas q.dispatchedCDA).consumedTicks.toNat + q.nextInflationTime.toNat ≤
      q.lastDispatchTime.toNat + q.inflationInterval.toNat

/-- The clock and the inflation do not overflow either. -/
def Steady (q : DispatchQueue) : Charge → Prop
  | .startDispatch now =>
    now.toNat + 2 * q.inflationInterval.toNat < 2 ^ 64 ∧
      q.inflation.toNat + 1 < 2 ^ EXPONENT_BITS ∧ (q.Roomy ∨ q.InTime now)
  | _ => True

def steadyCharges (shr : Shift) : Machine DispatchQueue Charge where
  step q op := q.charge shr op
  adm q op := q.Chargeable op ∧ q.Steady op

/-! ### The arithmetic of a charge -/

/-- `m` is a mantissa of scale `S` and `c` are ticks not charged yet, `x` ticks into an interval of
`I`. Twice the weighted sum is bounded by that of the base `B` and of `x`. -/
def Within (S I B x c m : ℕ) : Prop := 2 * (m * S) + 8192 * c ≤ 4096 * (B + 2 * x) ∧ 2 * c ≤ I

section Arithmetic

variable {S I B x y c m k : ℕ}

theorem half_mul_le (m S : ℕ) : 2 * (m / 2 * S) ≤ m * S := by
  calc 2 * (m / 2 * S) = m / 2 * 2 * S := by rw [Nat.mul_comm (m / 2) 2, Nat.mul_assoc]
    _ ≤ m * S := Nat.mul_le_mul_right S (Nat.div_mul_le_self m 2)

theorem Within.wait (h : Within S I B x c m) (hx : x ≤ y) : Within S I B y c m :=
  ⟨h.1.trans (by omega), h.2⟩

theorem Within.waitOver (h : Within S I B x c m) (hB : 4 * I ≤ B) (hx : x ≤ I) :
    Within S I B y c (m / 2) := by
  obtain ⟨hsum, hc⟩ := h
  have hhalf := half_mul_le m S
  exact ⟨by omega, hc⟩

/-- A domain runs to the end of the interval and on, while the interval before is not over it. -/
theorem Within.runOver (h : Within S I B x c m) (hx : x ≤ I) (htime : 4 * I + 2 * c ≤ B + 2 * x) :
    2 * (m / 2 * S) + 8192 * (c + (I + y - x)) ≤ 4096 * (B + 2 * y) := by
  obtain ⟨hsum, hc⟩ := h
  have hhalf := half_mul_le m S
  omega

theorem Within.jump (h : Within S I B x c m) (hB : 7 * I ≤ B) (hx : x ≤ I) :
    2 * (m / 2 * S) + 8192 * (c + I) ≤ 4096 * (B + 2 * 0) := by
  obtain ⟨hsum, hc⟩ := h
  have hhalf := half_mul_le m S
  omega

theorem charge_mul_le {drag : ℕ} (total s : ℕ) (hdrag : drag ≤ 4096) :
    drag * total / 2 ^ s * 2 ^ s ≤ 4096 * total :=
  (Nat.div_mul_le_self _ _).trans (Nat.mul_le_mul_right total hdrag)

end Arithmetic

/-! ### `TickScale` -/

theorem tickScaleLoop_spec {n fuel : ℕ} (hn : n ≤ fuel) (w scale : SysTime)
    (hw : w.toNat < 2 ^ (20 + n)) (hscale : scale.toNat + n < 64) :
    ∃ k ≤ n, (tickScaleLoop fuel w scale).toNat = scale.toNat + k ∧
      w.toNat / 2 ^ k < 2 ^ 20 := by
  induction n generalizing fuel w scale with
  | zero =>
    refine ⟨0, le_rfl, ?_, by simpa using hw⟩
    cases fuel with
    | zero => rfl
    | succ fuel =>
      rw [tickScaleLoop, if_neg]
      · rfl
      · rw [UInt64.lt_iff_toNat_lt, toNat_shiftRight]
        show ¬ 0 < w.toNat >>> 20
        rw [Nat.shiftRight_eq_div_pow, Nat.div_eq_of_lt (by simpa using hw)]
        exact Nat.lt_irrefl 0
  | succ n ih =>
    obtain ⟨fuel, rfl⟩ : ∃ m, fuel = m + 1 := ⟨fuel - 1, by omega⟩
    rw [tickScaleLoop]
    have hshift : (w >>> (20 : SysTime)).toNat = w.toNat / 2 ^ 20 := by
      rw [toNat_shiftRight]
      show w.toNat >>> 20 = _
      rw [Nat.shiftRight_eq_div_pow]
    have hhalf : (w >>> (1 : SysTime)).toNat = w.toNat / 2 := by
      rw [toNat_shiftRight]
      show w.toNat >>> 1 = _
      rw [Nat.shiftRight_eq_div_pow, Nat.pow_one]
    have hsucc : (scale + 1).toNat = scale.toNat + 1 := by
      rw [toNat_add]
      exact mod_eq_of_lt (by show _ + 1 < _; omega)
    split
    · have hw' : (w >>> (1 : SysTime)).toNat < 2 ^ (20 + n) := by
        rw [← Nat.add_assoc, pow_succ] at hw
        rw [hhalf]
        omega
      obtain ⟨k, hk, heq, hlt⟩ := ih (Nat.le_of_succ_le_succ hn) (w >>> (1 : SysTime))
        (scale + 1) hw' (by rw [hsucc]; omega)
      refine ⟨k + 1, by omega, by rw [heq, hsucc]; omega, ?_⟩
      rw [hhalf, Nat.div_div_eq_div_mul] at hlt
      rw [pow_succ, Nat.mul_comm (2 ^ k)]
      exact hlt
    · rename_i hdone
      refine ⟨0, zero_le _, rfl, ?_⟩
      rw [UInt64.lt_iff_toNat_lt, hshift] at hdone
      have hzero : w.toNat / 2 ^ 20 = 0 := Nat.eq_zero_of_not_pos hdone
      rw [Nat.pow_zero, Nat.div_one]
      rw [Nat.div_eq_zero_iff] at hzero
      omega

theorem tickScale_spec {interval : SysTime} (hwide : 12288 * interval.toNat < 2 ^ 64) :
    (TickScale interval).toNat < 64 ∧
      12288 * interval.toNat < 2 ^ 20 * 2 ^ (TickScale interval).toNat := by
  have hmantissa : (ofNat (MAX_WEIGHT / MIN_WEIGHT) * 3 * interval).toNat =
      12288 * interval.toNat := by
    rw [toNat_mul]
    exact mod_eq_of_lt hwide
  have hbits : (ofNat (MAX_WEIGHT / MIN_WEIGHT) * 3 * interval).toNat < 2 ^ (20 + 44) := by
    rw [hmantissa]
    exact hwide
  have hfuel : 44 ≤ 64 := by decide
  obtain ⟨k, hk, heq, hlt⟩ := tickScaleLoop_spec hfuel _ 0 hbits (by decide)
  have hscale : (TickScale interval).toNat = k := by
    rw [TickScale, heq]
    exact Nat.zero_add k
  rw [hmantissa] at hlt
  rw [hscale]
  exact ⟨by omega, (Nat.div_lt_iff_lt_mul (Nat.two_pow_pos k)).1 hlt⟩

/-! ### One domain -/

/-- The mantissa in the interval of `inflation`. -/
def decayed (c : CPUDomainAnnex) (inflation : SysTime) : ℕ :=
  c.mantissa.toNat / 2 ^ (inflation.toNat - c.exponent.toNat)

/-- What a domain has, `x` ticks into an interval of `I`. -/
structure DomainWithin (S I B x : ℕ) (inflation : SysTime) (c : CPUDomainAnnex) : Prop where
  exponent : c.exponent.toNat ≤ inflation.toNat
  mantissa : c.mantissa.toNat < 2 ^ 20
  quantum : 2 * c.quantum.toNat ≤ I
  drag : c.drag.toNat ≤ 4096
  within : Within S I B x c.consumedTicks.toNat (decayed c inflation)

section Domain

variable {I B x y s : ℕ} {inflation tickScale total : SysTime} {c : CPUDomainAnnex}

theorem toNat_sub_exponent (hle : c.exponent.toNat ≤ inflation.toNat) :
    (inflation - c.exponent).toNat = inflation.toNat - c.exponent.toNat :=
  toNat_sub_of_le _ _ (le_iff_toNat_le.2 hle)

theorem toNat_shiftOut (hmantissa : c.mantissa.toNat < 2 ^ 20)
    (hle : c.exponent.toNat ≤ inflation.toNat) :
    (shiftOut c.mantissa (inflation - c.exponent)).toNat = decayed c inflation := by
  have hsub := toNat_sub_exponent hle
  unfold shiftOut decayed
  split
  · rename_i hlarge
    rw [le_iff_toNat_le, hsub] at hlarge
    have hpow : 2 ^ 64 ≤ 2 ^ (inflation.toNat - c.exponent.toNat) :=
      Nat.pow_le_pow_right (by decide) hlarge
    rw [Nat.div_eq_of_lt (by omega)]
    rfl
  · rename_i hsmall
    rw [le_iff_toNat_le, hsub] at hsmall
    have hlt : inflation.toNat - c.exponent.toNat < 64 := by
      have h64 : (64 : SysTime).toNat = 64 := rfl
      omega
    rw [toNat_shiftRight, hsub, mod_eq_of_lt hlt, Nat.shiftRight_eq_div_pow]

/-- The mantissa that is computed for a domain with `total` ticks to be charged fits its field. -/
theorem toNat_mantissaBy (hle : c.exponent.toNat ≤ inflation.toNat)
    (hmantissa : c.mantissa.toNat < 2 ^ 20) (hdrag : c.drag.toNat ≤ 4096)
    (hscale : tickScale.toNat < 64) (hwide : 4096 * total.toNat < 2 ^ 64)
    (hroom : 4096 * (B + 2 * I) < 2 ^ 21 * 2 ^ tickScale.toNat) (hx : x ≤ I)
    (hsum : 2 * (decayed c inflation * 2 ^ tickScale.toNat) + 8192 * total.toNat ≤
      4096 * (B + 2 * x)) : (c.mantissaBy shiftOut inflation tickScale total).toNat < 2 ^ 20 ∧
      2 * ((c.mantissaBy shiftOut inflation tickScale total).toNat * 2 ^ tickScale.toNat) ≤
        4096 * (B + 2 * x) := by
  have hproduct : (c.drag * total).toNat = c.drag.toNat * total.toNat := by
    rw [toNat_mul]
    refine mod_eq_of_lt ?_
    exact Nat.lt_of_le_of_lt (Nat.mul_le_mul_right _ hdrag) hwide
  have hcharge : ((c.drag * total) >>> tickScale).toNat =
      c.drag.toNat * total.toNat / 2 ^ tickScale.toNat := by
    rw [toNat_shiftRight, hproduct, mod_eq_of_lt hscale, Nat.shiftRight_eq_div_pow]
  have hcharged := charge_mul_le total.toNat tickScale.toNat hdrag
  generalize hw : c.drag.toNat * total.toNat / 2 ^ tickScale.toNat = w at hcharge hcharged
  -- both parts together are below the limit of the field
  have hboth : 2 * ((decayed c inflation + w) * 2 ^ tickScale.toNat) ≤ 4096 * (B + 2 * x) := by
    rw [Nat.add_mul]
    omega
  have hfits : decayed c inflation + w < 2 ^ 20 := by
    have hlt : (decayed c inflation + w) * 2 ^ tickScale.toNat < 2 ^ 20 * 2 ^ tickScale.toNat := by
      omega
    exact Nat.lt_of_mul_lt_mul_right hlt
  have hvalue : (c.mantissaBy shiftOut inflation tickScale total).toNat =
      decayed c inflation + w := by
    rw [CPUDomainAnnex.mantissaBy, toNat_add, hcharge, toNat_shiftOut hmantissa hle]
    exact mod_eq_of_lt (by omega)
  rw [hvalue]
  exact ⟨hfits, hboth⟩

theorem DomainWithin.wait {S : ℕ} (h : DomainWithin S I B x inflation c) (hx : x ≤ y) :
    DomainWithin S I B y inflation c :=
  { h with within := h.within.wait hx }

theorem decayed_succ (hle : c.exponent.toNat ≤ inflation.toNat) {inflation' : SysTime}
    (hsucc : inflation'.toNat = inflation.toNat + 1) :
    decayed c inflation' = decayed c inflation / 2 := by
  unfold decayed
  rw [hsucc, Nat.sub_add_comm hle, pow_succ, Nat.div_div_eq_div_mul]

theorem DomainWithin.waitOver {S : ℕ} (h : DomainWithin S I B x inflation c) (hB : 4 * I ≤ B)
    (hx : x ≤ I) {inflation' : SysTime} (hsucc : inflation'.toNat = inflation.toNat + 1) :
    DomainWithin S I B y inflation' c where
  exponent := by
    rw [hsucc]
    exact Nat.le_succ_of_le h.exponent
  mantissa := h.mantissa
  quantum := h.quantum
  drag := h.drag
  within := by
    rw [decayed_succ h.exponent hsucc]
    exact h.within.waitOver hB hx

theorem DomainWithin.flush (hle : c.exponent.toNat ≤ inflation.toNat)
    (hmantissa : c.mantissa.toNat < 2 ^ 20) (hquantum : 2 * c.quantum.toNat ≤ I)
    (hdrag : c.drag.toNat ≤ 4096) (hepochs : inflation.toNat < 2 ^ 40)
    (hscale : tickScale.toNat < 64) (hwide : 4096 * c.consumedTicks.toNat < 2 ^ 64)
    (hroom : 4096 * (B + 2 * I) < 2 ^ 21 * 2 ^ tickScale.toNat) (hx : x ≤ I)
    (hsum : 2 * (decayed c inflation * 2 ^ tickScale.toNat) + 8192 * c.consumedTicks.toNat ≤
      4096 * (B + 2 * x)) :
    DomainWithin (2 ^ tickScale.toNat) I B x inflation
      (c.flushQuantumBy shiftOut inflation tickScale) := by
  obtain ⟨hfits, hbound⟩ := toNat_mantissaBy hle hmantissa hdrag hscale hwide hroom hx hsum
  have hfield : (c.flushQuantumBy shiftOut inflation tickScale).mantissa.toNat =
      (c.mantissaBy shiftOut inflation tickScale c.consumedTicks).toNat := by
    show (_ % 2 ^ MANTISSA_BITS : SysTime).toNat = _
    rw [toNat_mod]
    exact mod_eq_of_lt hfits
  have hexponent : (c.flushQuantumBy shiftOut inflation tickScale).exponent.toNat =
      inflation.toNat := by
    show (inflation % 2 ^ EXPONENT_BITS : SysTime).toNat = _
    rw [toNat_mod]
    exact mod_eq_of_lt hepochs
  refine ⟨hexponent.le, by rw [hfield]; exact hfits, hquantum, hdrag, ?_, ?_⟩
  · rw [decayed, hexponent, Nat.sub_self, Nat.pow_zero, Nat.div_one, hfield]
    exact hbound
  · exact zero_le I

end Domain

/-! ### The queue -/

/-- The sums of all domains are bounded with the base `B`, by the time since the interval began. -/
structure Metered (B : ℕ) (q : DispatchQueue) : Prop where
  wide : 12288 * q.inflationInterval.toNat < 2 ^ 64
  scale : q.tickScale.toNat < 64
  base : 4 * q.inflationInterval.toNat ≤ B
  room : 4096 * (B + 2 * q.inflationInterval.toNat) < 2 ^ 21 * 2 ^ q.tickScale.toNat
  epochs : q.inflation.toNat < 2 ^ 40
  late : q.lastDispatchTime.toNat ≤ q.nextInflationTime.toNat
  early : q.nextInflationTime.toNat ≤ q.lastDispatchTime.toNat + q.inflationInterval.toNat
  domain : ∀ d, DomainWithin (2 ^ q.tickScale.toNat) q.inflationInterval.toNat B
    (q.lastDispatchTime.toNat + q.inflationInterval.toNat - q.nextInflationTime.toNat)
    q.inflation (q.cdas d)

section Queue

variable {B : ℕ} {q : DispatchQueue} {now : SysTime}

theorem clock_cases (hearly : q.nextInflationTime.toNat ≤
      q.lastDispatchTime.toNat + q.inflationInterval.toNat) (hnow : q.lastDispatchTime ≤ now)
    (hclock : now.toNat + 2 * q.inflationInterval.toNat < 2 ^ 64)
    (hepochs : q.inflation.toNat + 1 < 2 ^ EXPONENT_BITS) :
    (now.toNat < q.nextInflationTime.toNat ∧ (q.clock now).inflation = q.inflation ∧
        (q.clock now).nextInflationTime = q.nextInflationTime ∧
        (q.delta now).toNat = now.toNat - q.lastDispatchTime.toNat) ∨
      (q.nextInflationTime.toNat ≤ now.toNat ∧
        now.toNat < q.nextInflationTime.toNat + q.inflationInterval.toNat ∧
        (q.clock now).inflation.toNat = q.inflation.toNat + 1 ∧
        (q.clock now).nextInflationTime.toNat =
          q.nextInflationTime.toNat + q.inflationInterval.toNat ∧
        (q.delta now).toNat = now.toNat - q.lastDispatchTime.toNat) ∨
      (q.nextInflationTime.toNat + q.inflationInterval.toNat ≤ now.toNat ∧
        (q.clock now).inflation.toNat = q.inflation.toNat + 1 ∧
        (q.clock now).nextInflationTime.toNat = now.toNat + q.inflationInterval.toNat ∧
        (q.delta now).toNat = q.inflationInterval.toNat) := by
  have hle := le_iff_toNat_le.1 hnow
  have hsub : (now - q.lastDispatchTime).toNat = now.toNat - q.lastDispatchTime.toNat :=
    toNat_sub_of_le _ _ hnow
  have hbits : q.inflation.toNat + 1 < 2 ^ 40 := hepochs
  have hsucc : (q.inflation + 1).toNat = q.inflation.toNat + 1 := by
    rw [toNat_add]
    exact mod_eq_of_lt (by show _ + 1 < _; omega)
  have hnext : (q.nextInflationTime + q.inflationInterval).toNat =
      q.nextInflationTime.toNat + q.inflationInterval.toNat := by
    rw [toNat_add]
    exact mod_eq_of_lt (by omega)
  have hafter : (now + q.inflationInterval).toNat =
      now.toNat + q.inflationInterval.toNat := by
    rw [toNat_add]
    exact mod_eq_of_lt (by omega)
  unfold clock delta inflate
  by_cases hdue : q.nextInflationTime ≤ now
  · have hdue' := le_iff_toNat_le.1 hdue
    by_cases hover : q.nextInflationTime + q.inflationInterval ≤ now
    · have hover' := le_iff_toNat_le.1 hover
      rw [hnext] at hover'
      have hback : (now - (now - q.inflationInterval)).toNat = q.inflationInterval.toNat := by
        have hinterval : q.inflationInterval ≤ now := le_iff_toNat_le.2 (by omega)
        have hsub' := toNat_sub_of_le _ _ hinterval
        have hle' : now - q.inflationInterval ≤ now := by
          rw [le_iff_toNat_le, hsub']
          exact Nat.sub_le _ _
        rw [toNat_sub_of_le _ _ hle', hsub']
        omega
      rw [if_pos hdue, if_pos hover]
      exact .inr (.inr ⟨hover', hsucc, hafter, hback⟩)
    · have hover' : ¬ _ := fun h => hover (le_iff_toNat_le.2 h)
      rw [hnext] at hover'
      rw [if_pos hdue, if_neg hover]
      exact .inr (.inl ⟨hdue', Nat.lt_of_not_le hover', hsucc, hnext, hsub⟩)
  · have hdue' : ¬ _ := fun h => hdue (le_iff_toNat_le.2 h)
    rw [if_neg hdue]
    exact .inl ⟨Nat.lt_of_not_le hdue', rfl, rfl, hsub⟩

theorem inflate_frame (q : DispatchQueue) (now : SysTime) :
    (q.inflate now).cdas = q.cdas ∧ (q.inflate now).dispatchedCDA = q.dispatchedCDA ∧
      (q.inflate now).inflationInterval = q.inflationInterval ∧
      (q.inflate now).tickScale = q.tickScale := by
  unfold inflate
  split
  · simp only
    split <;> exact ⟨rfl, rfl, rfl, rfl⟩
  · exact ⟨rfl, rfl, rfl, rfl⟩

/-- What is known of the dispatched domain when it is about to be charged. -/
structure Ran (B : ℕ) (q : DispatchQueue) (now : SysTime) : Prop where
  late : now.toNat ≤ (q.clock now).nextInflationTime.toNat
  early : (q.clock now).nextInflationTime.toNat ≤ now.toNat + q.inflationInterval.toNat
  epochs : (q.clock now).inflation.toNat < 2 ^ 40
  short : (q.delta now).toNat ≤ 2 * q.inflationInterval.toNat
  domain : ∀ d, DomainWithin (2 ^ q.tickScale.toNat) q.inflationInterval.toNat B
    (now.toNat + q.inflationInterval.toNat - (q.clock now).nextInflationTime.toNat)
    (q.clock now).inflation (q.cdas d)
  sum : 2 * (decayed (q.cdas q.dispatchedCDA) (q.clock now).inflation * 2 ^ q.tickScale.toNat) +
      8192 * ((q.cdas q.dispatchedCDA).consumedTicks.toNat + (q.delta now).toNat) ≤
    4096 * (B + 2 * (now.toNat + q.inflationInterval.toNat -
      (q.clock now).nextInflationTime.toNat))

theorem Metered.ran (h : Metered B q) (hnow : q.lastDispatchTime ≤ now)
    (hclock : now.toNat + 2 * q.inflationInterval.toNat < 2 ^ 64)
    (hepochs : q.inflation.toNat + 1 < 2 ^ EXPONENT_BITS)
    (htime : 7 * q.inflationInterval.toNat ≤ B ∨ q.InTime now) : Ran B q now := by
  have hle := le_iff_toNat_le.1 hnow
  have hlate := h.late
  have hearly := h.early
  have hbase := h.base
  have hd := h.domain q.dispatchedCDA
  have hpending := hd.within.2
  have hexponents : q.inflation.toNat < 2 ^ 40 := h.epochs
  rcases clock_cases hearly hnow hclock hepochs with
    ⟨hin, hinflation, hnext, hdelta⟩ | ⟨hdue, hin, hinflation, hnext, hdelta⟩ |
      ⟨hover, hinflation, hnext, hdelta⟩
  · -- the interval goes on
    refine ⟨by rw [hnext]; omega, by rw [hnext]; omega, by rw [hinflation]; exact hexponents,
      by omega, ?_, ?_⟩
    · intro d
      rw [hinflation, hnext]
      exact (h.domain d).wait (by omega)
    · have hsum := hd.within.1
      rw [hinflation, hnext, hdelta]
      omega
  · -- an interval ends
    refine ⟨by rw [hnext]; omega, by rw [hnext]; omega, by rw [hinflation]; exact hepochs,
      by omega, ?_, ?_⟩
    · intro d
      exact (h.domain d).waitOver hbase (by omega) hinflation
    · have hstart : 4 * q.inflationInterval.toNat +
          2 * (q.cdas q.dispatchedCDA).consumedTicks.toNat ≤
          B + 2 * (q.lastDispatchTime.toNat + q.inflationInterval.toNat -
            q.nextInflationTime.toNat) := by
        rcases htime with hwide | htime
        · omega
        · have hpast := (htime (le_iff_toNat_le.2 hdue)).2
          omega
      have hsum := hd.within.runOver
        (y := now.toNat - q.nextInflationTime.toNat) (by omega) hstart
      rw [decayed_succ hd.exponent hinflation, hnext, hdelta]
      have hy : now.toNat + q.inflationInterval.toNat -
          (q.nextInflationTime.toNat + q.inflationInterval.toNat) =
          now.toNat - q.nextInflationTime.toNat := Nat.add_sub_add_right ..
      have hran : q.inflationInterval.toNat + (now.toNat - q.nextInflationTime.toNat) -
          (q.lastDispatchTime.toNat + q.inflationInterval.toNat - q.nextInflationTime.toNat) =
          now.toNat - q.lastDispatchTime.toNat := by omega
      rw [hran] at hsum
      rw [hy]
      exact hsum
  · -- the clock is beyond the next interval
    refine ⟨by rw [hnext]; omega, by rw [hnext], by rw [hinflation]; exact hepochs, by omega,
      ?_, ?_⟩
    · intro d
      exact (h.domain d).waitOver hbase (by omega) hinflation
    · rcases htime with hwide | htime
      · have hsum := hd.within.jump hwide (by omega)
        rw [decayed_succ hd.exponent hinflation, hnext, hdelta, Nat.sub_self]
        exact hsum
      · have hdue : q.nextInflationTime ≤ now := le_iff_toNat_le.2 (by omega)
        have hin := (htime hdue).1
        omega

theorem Metered.updCDA (h : Metered B q) (cda : ℕ) {f : CPUDomainAnnex → CPUDomainAnnex}
    (hf : DomainWithin (2 ^ q.tickScale.toNat) q.inflationInterval.toNat B
      (q.lastDispatchTime.toNat + q.inflationInterval.toNat - q.nextInflationTime.toNat)
      q.inflation (f (q.cdas cda))) : Metered B (q.updCDA cda f) := by
  refine { h with domain := fun d => ?_ }
  show DomainWithin _ _ _ _ _ (Function.update q.cdas cda (f (q.cdas cda)) d)
  exact Function.update_cases hf (fun d _ => h.domain d) d

theorem updCDA_updCDA (q : DispatchQueue) (cda : ℕ) (f g : CPUDomainAnnex → CPUDomainAnnex) :
    (q.updCDA cda f).updCDA cda g = q.updCDA cda fun c => g (f c) := by
  unfold DispatchQueue.updCDA
  simp only [Function.update_idem, Function.update_self]

theorem Ran.clocked (h : Metered B q) (hran : Ran B q now) : Metered B (q.clock now) := by
  obtain ⟨hcdas, -, hinterval, hscale⟩ := inflate_frame q now
  have hcdas' : (q.clock now).cdas = q.cdas := hcdas
  have hinterval' : (q.clock now).inflationInterval = q.inflationInterval := hinterval
  have hscale' : (q.clock now).tickScale = q.tickScale := hscale
  constructor
  · rw [hinterval']
    exact h.wide
  · rw [hscale']
    exact h.scale
  · rw [hinterval']
    exact h.base
  · rw [hinterval', hscale']
    exact h.room
  · exact hran.epochs
  · exact hran.late
  · rw [hinterval']
    exact hran.early
  · intro d
    rw [hinterval', hscale', hcdas']
    exact hran.domain d

theorem Metered.chargeDispatch (h : Metered B q) (hran : Ran B q now) :
    Metered B (q.chargeDispatch shiftOut now) ∧
      ∀ m, q.computed shiftOut (.startDispatch now) = some m → m.toNat < 2 ^ 20 := by
  have hclocked := hran.clocked h
  obtain ⟨hcdas, hdispatched, hinterval, hscale⟩ := inflate_frame q now
  have hcdas' : (q.clock now).cdas = q.cdas := hcdas
  have hdispatched' : (q.clock now).dispatchedCDA = q.dispatchedCDA := hdispatched
  have hinterval' : (q.clock now).inflationInterval = q.inflationInterval := hinterval
  have hscale' : (q.clock now).tickScale = q.tickScale := hscale
  obtain ⟨hexponent, hmantissa, hquantum, hdrag, hsum₀, hpending⟩ := hran.domain q.dispatchedCDA
  have hwide := h.wide
  have hshort := hran.short
  have hlate := hran.late
  -- the sum of the ticks does not wrap
  have htotal : ((q.cdas q.dispatchedCDA).consumedTicks + q.delta now).toNat =
      (q.cdas q.dispatchedCDA).consumedTicks.toNat + (q.delta now).toNat := by
    rw [toNat_add]
    exact mod_eq_of_lt (by omega)
  have hsum := hran.sum
  rw [← htotal] at hsum
  have hbits : 4096 * ((q.cdas q.dispatchedCDA).consumedTicks + q.delta now).toNat < 2 ^ 64 := by
    rw [htotal]
    omega
  have hx : now.toNat + q.inflationInterval.toNat - (q.clock now).nextInflationTime.toNat ≤
      q.inflationInterval.toNat := by omega
  have hfits := toNat_mantissaBy hexponent hmantissa hdrag h.scale hbits h.room hx hsum
  constructor
  · -- the ticks are added first, and charged if the quantum is used up
    let c : CPUDomainAnnex := { q.cdas q.dispatchedCDA with
      consumedTicks := (q.cdas q.dispatchedCDA).consumedTicks + q.delta now }
    have hself : (((q.clock now).updCDA (q.clock now).dispatchedCDA fun c =>
        { c with consumedTicks := c.consumedTicks + q.delta now }).cdas
          (q.clock now).dispatchedCDA) = c := by
      show Function.update (q.clock now).cdas _ _ _ = _
      rw [Function.update_self, hcdas', hdispatched']
    unfold DispatchQueue.chargeDispatch chargeQuantum
    simp only
    rw [hself]
    by_cases hused : c.quantum ≤ c.consumedTicks
    · rw [if_pos hused]
      unfold flushQuantumBy
      rw [updCDA_updCDA]
      refine hclocked.updCDA _ ?_
      rw [hcdas', hdispatched', hinterval', hscale']
      show DomainWithin _ _ _ _ _ (c.flushQuantumBy shiftOut (q.clock now).inflation
        (q.clock now).tickScale)
      rw [hscale']
      exact DomainWithin.flush (c := c) hexponent hmantissa hquantum hdrag hran.epochs h.scale hbits
        h.room hx hsum
    · rw [if_neg hused]
      refine hclocked.updCDA _ ?_
      rw [hcdas', hdispatched', hinterval', hscale']
      have hunused : c.consumedTicks.toNat < c.quantum.toNat :=
        Nat.lt_of_not_le fun hle => hused (le_iff_toNat_le.2 hle)
      refine ⟨hexponent, hmantissa, hquantum, hdrag, hsum, ?_⟩
      have hhalf : 2 * c.quantum.toNat ≤ q.inflationInterval.toNat := hquantum
      show 2 * c.consumedTicks.toNat ≤ _
      omega
  · intro m hm
    unfold computed charged at hm
    simp only at hm
    split at hm
    · rw [Option.map_some] at hm
      cases hm
      exact hfits.1
    · cases hm

theorem Metered.flushQuantum (h : Metered B q) (cda : ℕ) :
    Metered B (q.flushQuantumBy shiftOut cda) ∧
      ∀ m, q.computed shiftOut (.flushQuantum cda) = some m → m.toNat < 2 ^ 20 := by
  obtain ⟨hexponent, hmantissa, hquantum, hdrag, hsum, hpending⟩ := h.domain cda
  have hwide := h.wide
  have hlate := h.late
  have hearly := h.early
  have hbits : 4096 * (q.cdas cda).consumedTicks.toNat < 2 ^ 64 := by omega
  have hx : q.lastDispatchTime.toNat + q.inflationInterval.toNat - q.nextInflationTime.toNat ≤
      q.inflationInterval.toNat := by omega
  constructor
  · exact h.updCDA cda (DomainWithin.flush hexponent hmantissa hquantum hdrag h.epochs h.scale hbits
      h.room hx hsum)
  · intro m hm
    unfold computed charged at hm
    rw [Option.map_some] at hm
    cases hm
    exact (toNat_mantissaBy hexponent hmantissa hdrag h.scale hbits h.room hx hsum).1

theorem drag_le (weight : ℕ) : (ofNat (MAX_WEIGHT / weight)).toNat ≤ 4096 := by
  have hle : MAX_WEIGHT / weight ≤ 4096 := Nat.div_le_self _ _
  rw [toNat_ofNat']
  exact (Nat.mod_le _ _).trans hle

theorem Metered.charge (h : Metered B q) {op : Charge} (hadm : q.Chargeable op)
    (hsteady : q.Steady op) (hB : q.Roomy → 7 * q.inflationInterval.toNat ≤ B) :
    Metered B (q.charge shiftOut op) ∧
      ∀ m, q.computed shiftOut op = some m → m.toNat < 2 ^ 20 := by
  cases op with
  | startDispatch now =>
    obtain ⟨hclock, hepochs, htime⟩ := hsteady
    exact h.chargeDispatch (h.ran hadm hclock hepochs (htime.imp_left hB))
  | dispatch cda => exact ⟨{ h with }, nofun⟩
  | flushQuantum cda => exact h.flushQuantum cda
  | setWeight cda weight =>
    obtain ⟨hexponent, hmantissa, hquantum, -, hwithin⟩ := h.domain cda
    refine ⟨?_, nofun⟩
    refine Metered.updCDA h cda (f := fun c =>
      { c with weight := weight, drag := ofNat (MAX_WEIGHT / weight) }) ?_
    exact ⟨hexponent, hmantissa, hquantum, drag_le weight, hwithin⟩
  | create cda pclass weight quantum pulseInterval =>
    refine ⟨?_, nofun⟩
    refine Metered.updCDA h cda (f := fun _ => .init pclass weight quantum pulseInterval q.vp) ?_
    refine ⟨zero_le _, (by decide : 0 < 2 ^ 20), hadm.2.2, drag_le weight, ?_⟩
    show Within _ _ _ _ 0 (0 / _)
    rw [Nat.zero_div]
    exact ⟨by omega, zero_le _⟩

theorem Started.metered (h : Started q) (hB : 4 * q.inflationInterval.toNat ≤ B)
    (hroom : 4096 * (B + 2 * q.inflationInterval.toNat) < 2 ^ 21 * 2 ^ q.tickScale.toNat) :
    Metered B q := by
  have hwide : 12288 * q.inflationInterval.toNat < 2 ^ 64 := h.wide
  refine ⟨hwide, ?_, hB, hroom, ?_, ?_, ?_, ?_⟩
  · rw [h.tickScale]
    exact (tickScale_spec hwide).1
  · rw [h.inflation]
    decide
  · rw [h.nextInflationTime]
    exact Nat.le_add_right _ _
  · rw [h.nextInflationTime]
  · intro d
    obtain ⟨hmantissa, hexponent, hconsumed, hquantum, weight, -, hdrag⟩ := h.domain d
    refine ⟨?_, ?_, hquantum, ?_, ?_⟩
    · rw [hexponent]
      exact zero_le _
    · rw [hmantissa]
      decide
    · rw [hdrag]
      exact drag_le weight
    · rw [decayed, hmantissa, hconsumed]
      show Within _ _ _ _ 0 (0 / _)
      rw [Nat.zero_div]
      exact ⟨by omega, zero_le _⟩

end Queue

theorem charge_frame (shr : Shift) (q : DispatchQueue) (op : Charge) :
    (q.charge shr op).inflationInterval = q.inflationInterval ∧
      (q.charge shr op).tickScale = q.tickScale := by
  cases op with
  | startDispatch now =>
    obtain ⟨-, -, hinterval, hscale⟩ := inflate_frame q now
    show (q.chargeDispatch shr now).inflationInterval = _ ∧
      (q.chargeDispatch shr now).tickScale = _
    unfold chargeDispatch chargeQuantum
    simp only
    split <;> exact ⟨hinterval, hscale⟩
  | dispatch cda => exact ⟨rfl, rfl⟩
  | flushQuantum cda => exact ⟨rfl, rfl⟩
  | setWeight cda weight => exact ⟨rfl, rfl⟩
  | create cda pclass weight quantum pulseInterval => exact ⟨rfl, rfl⟩

/-- In every run of steady charges each mantissa that is computed fits its field. -/
theorem run_mantissa_fits {q₀ q : DispatchQueue} {ops : List Charge} (hstart : Started q₀)
    (hrun : (steadyCharges shiftOut).Run q₀ ops q) {op : Charge} (hadm : q.Chargeable op)
    (hsteady : q.Steady op) :
    ∀ m, q.computed shiftOut op = some m → m.toNat < 2 ^ MANTISSA_BITS := by
  -- the base depends on whether the scale leaves room
  obtain ⟨B, hB, hroom, hroomy⟩ : ∃ B, 4 * q₀.inflationInterval.toNat ≤ B ∧
      4096 * (B + 2 * q₀.inflationInterval.toNat) < 2 ^ 21 * 2 ^ q₀.tickScale.toNat ∧
      (q₀.Roomy → 7 * q₀.inflationInterval.toNat ≤ B) := by
    by_cases hroomy : q₀.Roomy
    · refine ⟨7 * q₀.inflationInterval.toNat, by omega, ?_, fun _ => le_rfl⟩
      have hlarge : 4096 * 9 * q₀.inflationInterval.toNat < 2 ^ (21 + q₀.tickScale.toNat) := hroomy
      rw [Nat.pow_add] at hlarge
      omega
    · refine ⟨4 * q₀.inflationInterval.toNat, le_rfl, ?_, fun h => absurd h hroomy⟩
      have hspec := (tickScale_spec hstart.wide).2
      rw [← hstart.tickScale] at hspec
      omega
  have hinv : Metered B q ∧ q.inflationInterval = q₀.inflationInterval ∧
      q.tickScale = q₀.tickScale := by
    refine hrun.invariant (I := fun q => Metered B q ∧
      q.inflationInterval = q₀.inflationInterval ∧ q.tickScale = q₀.tickScale)
      ⟨hstart.metered hB hroom, rfl, rfl⟩ ?_
    rintro q op ⟨hmetered, hinterval, hscale⟩ ⟨hadm, hsteady⟩
    obtain ⟨hinterval', hscale'⟩ := charge_frame shiftOut q op
    refine ⟨(hmetered.charge hadm hsteady ?_).1, hinterval'.trans hinterval, hscale'.trans hscale⟩
    unfold Roomy
    rw [hinterval, hscale]
    exact hroomy
  obtain ⟨hmetered, hinterval, hscale⟩ := hinv
  refine (hmetered.charge hadm hsteady ?_).2
  unfold Roomy
  rw [hinterval, hscale]
  exact hroomy

/-! ### Runs from the start of a processor -/

theorem init_started (vp : ℕ) {ticksPerSecond : ℕ} (now warningQuantum : SysTime)
    (hwide : 12288 * (ticksPerSecond * (2 * MAX_QUANTUM_MICROSECS) / 1000000) < 2 ^ 64)
    (hclock : now.toNat + ticksPerSecond * (2 * MAX_QUANTUM_MICROSECS) / 1000000 < 2 ^ 64) :
    Started (init vp ticksPerSecond now (ticks ticksPerSecond (2 * MAX_QUANTUM_MICROSECS))
      (TickScale (ticks ticksPerSecond (2 * MAX_QUANTUM_MICROSECS))) warningQuantum) := by
  have hinterval : (ticks ticksPerSecond (2 * MAX_QUANTUM_MICROSECS)).toNat =
      ticksPerSecond * (2 * MAX_QUANTUM_MICROSECS) / 1000000 := by
    rw [ticks, toNat_ofNat']
    exact mod_eq_of_lt (by omega)
  have hquantum : ∀ microsecs ≤ MAX_QUANTUM_MICROSECS,
      2 * (ticks ticksPerSecond microsecs).toNat ≤
        ticksPerSecond * (2 * MAX_QUANTUM_MICROSECS) / 1000000 := by
    intro microsecs hle
    have hmul :
        2 * (ticksPerSecond * microsecs) ≤ ticksPerSecond * (2 * MAX_QUANTUM_MICROSECS) := by
      rw [Nat.mul_left_comm]
      exact Nat.mul_le_mul_left _ (Nat.mul_le_mul_left 2 hle)
    generalize ticksPerSecond * (2 * MAX_QUANTUM_MICROSECS) = interval at hmul hwide ⊢
    generalize hproduct : ticksPerSecond * microsecs = product at hmul
    rw [ticks, hproduct, toNat_ofNat', mod_eq_of_lt (by omega)]
    omega
  refine ⟨?_, rfl, rfl, ?_, ?_⟩
  · show 12288 * _ < _
    rw [← hinterval] at hwide
    exact hwide
  · show (now + _ : SysTime).toNat =
      now.toNat + (ticks ticksPerSecond (2 * MAX_QUANTUM_MICROSECS)).toNat
    rw [toNat_add, hinterval]
    exact mod_eq_of_lt hclock
  · intro d
    show _ ∧ _ ∧ _ ∧ _ ≤ (ticks ticksPerSecond (2 * MAX_QUANTUM_MICROSECS)).toNat ∧ _
    rw [hinterval]
    simp only [init]
    split
    · exact ⟨rfl, rfl, rfl, hquantum _ (by decide), MIN_WEIGHT, by decide, rfl⟩
    · split
      · exact ⟨rfl, rfl, rfl, hquantum _ (by decide), MIN_WEIGHT, by decide, rfl⟩
      · split
        · exact ⟨rfl, rfl, rfl, hquantum _ (by decide), MAX_WEIGHT, by decide, rfl⟩
        · exact ⟨rfl, rfl, rfl, hquantum _ (by decide), MAX_WEIGHT, by decide, rfl⟩

instance (q : DispatchQueue) : ∀ op, Decidable (q.Chargeable op)
  | .startDispatch now => inferInstanceAs (Decidable (q.lastDispatchTime ≤ now))
  | .dispatch _ | .flushQuantum _ => isTrue trivial
  | .setWeight .. | .create .. => inferInstanceAs (Decidable (_ ∧ _))

instance (q : DispatchQueue) : Decidable q.Roomy := Nat.decLt _ _

instance (q : DispatchQueue) (now : SysTime) : Decidable (q.InTime now) :=
  inferInstanceAs (Decidable (_ → _ ∧ _))

instance (q : DispatchQueue) : ∀ op, Decidable (q.Steady op)
  | .startDispatch _ => inferInstanceAs (Decidable (_ ∧ _))
  | .dispatch _ | .flushQuantum _ | .setWeight .. | .create .. => isTrue trivial

instance (shr : Shift) (q : DispatchQueue) (op : Charge) : Decidable ((charges shr).adm q op) :=
  inferInstanceAs (Decidable (q.Chargeable op))

instance (shr : Shift) (q : DispatchQueue) (op : Charge) :
    Decidable ((steadyCharges shr).adm q op) :=
  inferInstanceAs (Decidable (q.Chargeable op ∧ q.Steady op))

/-- A processor with 69905063 ticks in a second. The interval has 5592405 ticks, and three of them
with the greatest weight are just below the limit of the field. -/
def tight : DispatchQueue :=
  init 0 69905063 0 (ticks 69905063 (2 * MAX_QUANTUM_MICROSECS))
    (TickScale (ticks 69905063 (2 * MAX_QUANTUM_MICROSECS))) 10000

theorem tight_started : Started tight := init_started 0 0 10000 (by decide) (by decide)

/-- The idle loop runs, and `startDispatch` is called at least every half interval. -/
def idleLoop : List Charge :=
  [.dispatch IDLE, .startDispatch 2796000, .startDispatch 5592000, .startDispatch 8388000,
    .setWeight IDLE 3]

theorem run_mantissa_fits_idleLoop :
    (idleLoop.foldl (steadyCharges shiftOut).step tight).computed shiftOut
        (.startDispatch 11184000) = some 291221 ∧
      (291221 : SysTime).toNat < 2 ^ MANTISSA_BITS := by
  have hadmits : (steadyCharges shiftOut).Admits tight idleLoop := by decide +kernel
  have hnext : (steadyCharges shiftOut).adm
      (idleLoop.foldl (steadyCharges shiftOut).step tight) (.startDispatch 11184000) := by
    decide +kernel
  have hcomputed : (idleLoop.foldl (steadyCharges shiftOut).step tight).computed shiftOut
      (.startDispatch 11184000) = some 291221 := by decide +kernel
  exact ⟨hcomputed, run_mantissa_fits tight_started hadmits.run hnext.1 hnext.2 _ hcomputed⟩

/-- The idle loop runs. At the end of the first interval and of the third there is nearly a quantum
that has not been charged, and then `startDispatch` is called late. -/
def lateDispatches : List Charge :=
  [.dispatch IDLE, .startDispatch 2796204, .startDispatch 5592405, .startDispatch 13981014,
    .startDispatch 16777215]

/-- A mantissa of 1059498 is computed, which takes more than 20 bits. -/
theorem mantissa_overflows :
    ¬ ∀ (q₀ q : DispatchQueue) (ops : List Charge) (op : Charge), Started q₀ →
      (charges shiftOut).Run q₀ ops q → q.Chargeable op →
      ∀ m, q.computed shiftOut op = some m → m.toNat < 2 ^ MANTISSA_BITS := by
  intro h
  have hadmits : (charges shiftOut).Admits tight lateDispatches := by decide +kernel
  have hnext : (lateDispatches.foldl (charges shiftOut).step tight).Chargeable
      (.startDispatch 27962024) := by decide +kernel
  have hcomputed : (lateDispatches.foldl (charges shiftOut).step tight).computed shiftOut
      (.startDispatch 27962024) = some 1059498 := by decide +kernel
  exact absurd (h _ _ _ _ tight_started hadmits.run hnext _ hcomputed) (by decide)

end DispatchQueue

end K42
