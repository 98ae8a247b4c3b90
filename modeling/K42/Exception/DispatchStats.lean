import K42.Exception.DispatchRuns
import Mathlib.Algebra.BigOperators.Group.Multiset.Basic

/-!
# The weights of the runnable domains

`currentStats[c].runnableWeight` is kept up to date when a domain becomes runnable and
when it stops being so. What an operation does to it is followed here through every
operation, whatever state the rings are in: `Counted q cur` says that the statistics are
those of `cur` and the domains of the heap.
-/

open Function (update_of_ne update_self update)

namespace K42.DispatchQueue

open DispatchHeap Outcome MachineWord
open Outcome.Sat (bind ite of_ok)
open Multiset (card card_cons cons_swap map map_cons)

variable {q q' q'' q₀ : DispatchQueue} {cur cur' d pa : ℕ}

/-- The weights of the domains among `m` that have class `c`. -/
def classWeight (q : DispatchQueue) (m : Multiset ℕ) (c : ℕ) : ℕ :=
  (m.map fun d => if (q.cdas d).pclass = c then (q.cdas d).weight else 0).sum

structure Counted (q : DispatchQueue) (cur : ℕ) : Prop where
  exact : ∀ c, q.runnableWeight c = q.classWeight (cur ::ₘ q.heap.domains) c
  bounded : ∀ d, (q.cdas d).weight ≤ MAX_WEIGHT
  room : q.heap.count ≤ HEAP_SIZE

/-- The outcomes of an operation that stops at no assertion. -/
abbrev Done {α : Type} (P : α → Prop) : Except DispatchAssert α → Prop := Sat (fun _ => True) P

/-! ## Sums -/

theorem classWeight_cons (q : DispatchQueue) (d : ℕ) (m : Multiset ℕ) (c : ℕ) :
    q.classWeight (d ::ₘ m) c =
      (if (q.cdas d).pclass = c then (q.cdas d).weight else 0) + q.classWeight m c := by
  rw [classWeight, map_cons, Multiset.sum_cons]
  rfl

theorem classWeight_congr {m : Multiset ℕ}
    (h : ∀ d ∈ m, (q'.cdas d).pclass = (q.cdas d).pclass ∧ (q'.cdas d).weight = (q.cdas d).weight)
    (c : ℕ) : q'.classWeight m c = q.classWeight m c := by
  rw [classWeight, classWeight]
  congr 1
  refine Multiset.map_congr rfl fun d hd => ?_
  rw [(h d hd).1, (h d hd).2]

theorem Counted.classWeight_le (h : Counted q cur) (m : Multiset ℕ) (c : ℕ) :
    q.classWeight m c ≤ m.card * MAX_WEIGHT := by
  induction m using Multiset.induction_on with
  | empty => exact Nat.zero_le _
  | cons d m ih =>
    rw [classWeight_cons, card_cons, Nat.add_one_mul, Nat.add_comm]
    refine Nat.add_le_add ih ?_
    split
    · exact h.bounded d
    · exact Nat.zero_le _

theorem Counted.runnableWeight_le (h : Counted q cur) (c : ℕ) :
    q.runnableWeight c ≤ (HEAP_SIZE + 1) * MAX_WEIGHT := by
  rw [h.exact]
  refine (h.classWeight_le _ c).trans (Nat.mul_le_mul_right _ ?_)
  rw [card_cons, card_domains]
  exact Nat.succ_le_succ h.room

/-! ## What does not concern the statistics -/

structure Quiet (q q' : DispatchQueue) : Prop extends Stays q q' where
  pclass : ∀ d, (q'.cdas d).pclass = (q.cdas d).pclass
  weight : ∀ d, (q'.cdas d).weight = (q.cdas d).weight
  runnableWeight : q'.runnableWeight = q.runnableWeight
  heap : q'.heap = q.heap

theorem Quiet.refl (q : DispatchQueue) : Quiet q q :=
  ⟨⟨rfl, rfl⟩, fun _ => rfl, fun _ => rfl, rfl, rfl⟩

theorem Quiet.trans (h : Quiet q q') (h' : Quiet q' q'') : Quiet q q'' where
  toStays := h.toStays.trans h'.toStays
  pclass d := (h'.pclass d).trans (h.pclass d)
  weight d := (h'.weight d).trans (h.weight d)
  runnableWeight := h'.runnableWeight.trans h.runnableWeight
  heap := h'.heap.trans h.heap

theorem Quiet.updCDA (q : DispatchQueue) (cda : ℕ) {f : CPUDomainAnnex → CPUDomainAnnex}
    (hpclass : ∀ c, (f c).pclass = c.pclass) (hweight : ∀ c, (f c).weight = c.weight) :
    Quiet q (q.updCDA cda f) where
  cda := rfl
  pa := rfl
  pclass := updCDA_field CPUDomainAnnex.pclass q cda hpclass
  weight := updCDA_field CPUDomainAnnex.weight q cda hweight
  runnableWeight := rfl
  heap := rfl

theorem Quiet.setRing (q : DispatchQueue) (cda : ℕ) (l : List ℕ) : Quiet q (q.setRing cda l) :=
  Quiet.updCDA q cda (fun _ => rfl) fun _ => rfl

theorem Quiet.updPA (q : DispatchQueue) (pa : ℕ) (f : ProcessAnnex → ProcessAnnex) :
    Quiet q (q.updPA pa f) :=
  ⟨⟨rfl, rfl⟩, fun _ => rfl, fun _ => rfl, rfl, rfl⟩

theorem Counted.congr (h : Counted q cur) (hpclass : ∀ d, (q'.cdas d).pclass = (q.cdas d).pclass)
    (hweight : ∀ d, (q'.cdas d).weight = (q.cdas d).weight)
    (hstats : q'.runnableWeight = q.runnableWeight)
    (hdomains : cur' ::ₘ q'.heap.domains = cur ::ₘ q.heap.domains) : Counted q' cur' where
  exact c := by
    rw [hstats, h.exact, hdomains]
    exact (classWeight_congr (fun d _ => ⟨hpclass d, hweight d⟩) c).symm
  bounded d := by
    rw [hweight]
    exact h.bounded d
  room := by
    have hcard := congrArg card hdomains
    rw [card_cons, card_cons, card_domains, card_domains] at hcard
    have := h.room
    omega

theorem Counted.quiet (h : Counted q cur) (hquiet : Quiet q q') : Counted q' cur :=
  h.congr hquiet.pclass hquiet.weight hquiet.runnableWeight (by rw [hquiet.heap])

theorem Quiet.adjustQuantum (q : DispatchQueue) (delta : SysTime) :
    Quiet q (q.adjustQuantum delta) := by
  have hticks : Quiet q (q.updCDA q.dispatchedCDA
      fun c => { c with consumedTicks := c.consumedTicks + delta }) :=
    Quiet.updCDA q _ (fun _ => rfl) fun _ => rfl
  simp only [DispatchQueue.adjustQuantum]
  split
  · have hflush := hticks.trans (Quiet.updCDA (f := fun c => c.flushQuantum q.inflation q.tickScale)
      _ q.dispatchedCDA (fun _ => rfl) fun _ => rfl)
    split
    · exact hflush
    · exact (hflush.trans (Quiet.updPA _ _ _)).trans (Quiet.setRing _ _ _)
  · exact hticks

theorem Quiet.startDispatch (q : DispatchQueue) (now : SysTime) :
    Quiet q (q.startDispatch now) := by
  have hinflate : Quiet q { q.inflate now with lastDispatchTime := now } := by
    simp only [inflate]
    split
    · split <;> exact ⟨⟨rfl, rfl⟩, fun _ => rfl, fun _ => rfl, rfl, rfl⟩
    · exact ⟨⟨rfl, rfl⟩, fun _ => rfl, fun _ => rfl, rfl, rfl⟩
  exact (hinflate.trans (Quiet.updPA _ _ _)).trans (Quiet.adjustQuantum _ _)

theorem Quiet.finishDispatch (q : DispatchQueue) : Quiet q q.finishDispatch := by
  simp only [DispatchQueue.finishDispatch]
  split <;> exact ⟨⟨rfl, rfl⟩, fun _ => rfl, fun _ => rfl, rfl, rfl⟩

theorem Quiet.finish (q : DispatchQueue) (blocked : ℕ → Option ℕ) :
    Quiet q { q.finishDispatch with blocked := blocked } :=
  (Quiet.finishDispatch q).trans ⟨⟨rfl, rfl⟩, fun _ => rfl, fun _ => rfl, rfl, rfl⟩

/-! ## Domains become and stop being runnable -/

theorem Counted.runnable (h : Counted q cur) {heap : DispatchHeap}
    (hdomains : heap.domains = d ::ₘ q.heap.domains) (hroom : heap.count ≤ HEAP_SIZE) :
    Counted { q.statCDARunnable d with heap := heap } cur := by
  refine ⟨fun c => ?_, h.bounded, hroom⟩
  have hle := h.runnableWeight_le (q.cdas d).pclass
  have hweight := h.bounded d
  have hsum : classWeight { q.statCDARunnable d with heap := heap } (cur ::ₘ heap.domains) c =
      (if (q.cdas d).pclass = c then (q.cdas d).weight else 0) + q.runnableWeight c := by
    rw [hdomains, cons_swap, h.exact]
    exact classWeight_cons q d _ c
  rw [hsum]
  show update q.runnableWeight (q.cdas d).pclass
    (add 64 (q.runnableWeight (q.cdas d).pclass) (q.cdas d).weight) c = _
  by_cases hc : c = (q.cdas d).pclass
  · subst hc
    rw [update_self, if_pos rfl, Nat.add_comm]
    exact add_of_lt (by simp only [HEAP_SIZE, MAX_WEIGHT] at hle hweight; omega)
  · rw [update_of_ne hc, if_neg (Ne.symm hc), Nat.zero_add]

theorem Counted.notRunnable (h : Counted q cur) {heap : DispatchHeap}
    (hdomains : cur ::ₘ q.heap.domains = d ::ₘ cur' ::ₘ heap.domains) :
    Counted { q.notRunnable d with heap := heap } cur' := by
  have hflush : Quiet q (q.flushQuantum d) := Quiet.updCDA q d (fun _ => rfl) fun _ => rfl
  have hpclass : ∀ x, (({ q.notRunnable d with heap := heap } : DispatchQueue).cdas x).pclass =
      (q.cdas x).pclass := hflush.pclass
  have hweight : ∀ x, (({ q.notRunnable d with heap := heap } : DispatchQueue).cdas x).weight =
      (q.cdas x).weight := hflush.weight
  refine ⟨fun c => ?_, fun x => ?_, ?_⟩
  · rw [classWeight_congr (q := q) fun x _ => ⟨hpclass x, hweight x⟩]
    have hsum : q.runnableWeight c = (if (q.cdas d).pclass = c then (q.cdas d).weight else 0) +
        q.classWeight (cur' ::ₘ heap.domains) c := by
      rw [h.exact, hdomains, classWeight_cons]
    have hle := h.runnableWeight_le c
    show update q.runnableWeight ((q.flushQuantum d).cdas d).pclass
      (sub 64 (q.runnableWeight ((q.flushQuantum d).cdas d).pclass)
        ((q.flushQuantum d).cdas d).weight) c = q.classWeight (cur' ::ₘ heap.domains) c
    rw [hflush.pclass, hflush.weight]
    by_cases hc : c = (q.cdas d).pclass
    · subst hc
      rw [if_pos rfl] at hsum
      rw [update_self, sub_of_le (by simp only [HEAP_SIZE, MAX_WEIGHT] at hle; omega)
        (by omega)]
      omega
    · rw [if_neg (Ne.symm hc), Nat.zero_add] at hsum
      rw [update_of_ne hc, hsum]
  · rw [hweight]
    exact h.bounded x
  · have hcard := congrArg card hdomains
    simp only [card_cons, card_domains] at hcard
    have := h.room
    show heap.count ≤ _
    omega

/-! ## The heap -/

section

variable (heap : DispatchHeap)

include heap

theorem insert_done (e : Element) :
    Done (fun heap' => heap'.domains = e.cda ::ₘ heap.domains ∧ heap'.count ≤ HEAP_SIZE)
      (heap.insert e) := by
  by_cases hroom : heap.count < HEAP_SIZE
  · obtain ⟨heap', hok, helements⟩ := insert_ok hroom e
    have hdomains : heap'.domains = e.cda ::ₘ heap.domains := by
      rw [domains, helements, map_cons]
      rfl
    refine of_ok hok ⟨hdomains, ?_⟩
    rw [← card_domains, hdomains, card_cons, card_domains]
    exact hroom
  · rw [DispatchHeap.insert, if_pos (Nat.le_of_not_lt hroom)]
    trivial

theorem swap_done (e : Element) (oldCDA : ℕ) :
    Done (fun heap' => oldCDA ::ₘ heap'.domains = e.cda ::ₘ heap.domains) (heap.swap e oldCDA) := by
  rcases swap_cases heap e oldCDA with ⟨heap', old, hok, rfl, helements⟩ | ⟨⟨err, herr⟩, -⟩
  · refine of_ok hok ?_
    have := congrArg (map Element.cda) helements
    rwa [map_cons, map_cons] at this
  · rw [herr]
    trivial

theorem remove_done (cda : ℕ) :
    Done (fun heap' => heap.domains = cda ::ₘ heap'.domains) (heap.remove cda) := by
  rcases remove_cases heap cda with ⟨heap', old, hok, rfl, helements⟩ | ⟨⟨err, herr⟩, -⟩
  · refine of_ok hok ?_
    rw [domains, helements, map_cons]
    rfl
  · rw [herr]
    trivial

theorem deleteHead_done :
    Done (fun heap' => heap.domains = (heap.element 0).cda ::ₘ heap'.domains) heap.deleteHead := by
  by_cases hcount : 1 < heap.count
  · obtain ⟨heap', hok, helements⟩ := deleteHead_ok hcount
    refine of_ok hok ?_
    rw [domains, helements, map_cons]
    rfl
  · rw [deleteHead, if_pos (Nat.le_of_not_lt hcount)]
    trivial

theorem replaceHead_done (e : Element) :
    Done (fun heap' => (heap.element 0).cda ::ₘ heap'.domains = e.cda ::ₘ heap.domains)
      (heap.replaceHead e) := by
  by_cases hcount : 0 < heap.count
  · obtain ⟨heap', hok, helements⟩ := replaceHead_ok hcount e
    refine of_ok hok ?_
    have := congrArg (map Element.cda) helements
    rwa [map_cons, map_cons] at this
  · rw [replaceHead, if_pos (by omega)]
    trivial

theorem getHead_done :
    Done (fun head => head = (heap.element 0).cda) heap.getHead := by
  rw [getHead]
  exact ite (fun _ => trivial) fun _ => rfl

end

/-! ## The operations -/

theorem getCDA_done (q : DispatchQueue) (pa : ℕ) :
    Done (fun cda => (q.pas pa).cpuDomainAnnex = some cda) (q.getCDA pa) := by
  rw [getCDA]
  split
  · trivial
  · assumption

theorem Counted.addCPUDomainAnnex (h : Counted q cur) (d : ℕ) :
    Done (fun q' => Counted q' cur ∧ Stays q q') (q.addCPUDomainAnnex d) := by
  rw [DispatchQueue.addCPUDomainAnnex]
  refine ite (fun _ => ?_) fun _ => trivial
  refine bind (insert_done _ _) ?_
  rintro heap ⟨hdomains, hroom⟩
  exact ⟨h.runnable hdomains hroom, rfl, rfl⟩

theorem Counted.removeCPUDomainAnnex (h : Counted q cur) (d : ℕ) :
    Done (fun q' => Counted q' cur ∧ Stays q q' ∧ ∀ x, (q'.cdas x).pclass = (q.cdas x).pclass)
      (q.removeCPUDomainAnnex d) := by
  rw [DispatchQueue.removeCPUDomainAnnex]
  refine ite (fun _ => trivial) fun _ => ?_
  refine bind (remove_done _ _) ?_
  intro heap hdomains
  have hquiet : Quiet q (q.flushQuantum d) := Quiet.updCDA q d (fun _ => rfl) fun _ => rfl
  have hleaves : cur ::ₘ q.heap.domains = d ::ₘ cur ::ₘ heap.domains := by
    rw [hdomains, cons_swap]
  exact ⟨h.notRunnable hleaves, ⟨rfl, rfl⟩, hquiet.pclass⟩

theorem Counted.makeReady (h : Counted q cur) (pa : ℕ) :
    Done (fun q' => Counted q' cur ∧ Stays q q') (q.makeReady pa) := by
  rw [DispatchQueue.makeReady]
  refine bind (getCDA_done q pa) fun cda _ => ?_
  refine ite (fun _ => ⟨h, rfl, rfl⟩) fun _ => ?_
  rw [addProcessAnnex]
  split
  · refine ((h.quiet ((Quiet.updPA q pa _).trans (Quiet.setRing _ cda [pa]))).addCPUDomainAnnex
      cda).mono ?_
    rintro q' ⟨hcounted, hstays⟩
    exact ⟨hcounted, hstays.cda, hstays.pa⟩
  · exact ⟨h.quiet ((Quiet.updPA q pa _).trans (Quiet.setRing _ cda _)), rfl, rfl⟩

theorem makeCurrent_done (q : DispatchQueue) (cda pa : ℕ) :
    Done (Quiet q) (q.makeCurrent cda pa) := by
  rw [DispatchQueue.makeCurrent]
  refine ite (fun _ => trivial) fun _ => ?_
  exact ite (fun _ => trivial) fun _ => Quiet.setRing q cda _

theorem stillRunnable_done (q : DispatchQueue) (cda : ℕ) :
    Done (fun r => Quiet q r.2) (q.stillRunnable cda) := by
  rw [DispatchQueue.stillRunnable]
  exact ite (fun _ => trivial) fun _ => Quiet.setRing q cda _

theorem Counted.switchToKernel (h : Counted q cur) :
    Done (fun q' => Counted q' q'.dispatchedCDA) (q.switchToKernel cur) := by
  rw [DispatchQueue.switchToKernel]
  refine bind (getCDA_done q KERNEL) fun kernelCDA _ => ?_
  have hkernel : Counted { q with dispatchedPA := KERNEL, dispatchedCDA := kernelCDA } cur :=
    h.congr (fun _ => rfl) (fun _ => rfl) rfl rfl
  refine bind (hkernel.makeReady KERNEL) ?_
  rintro q₁ ⟨hcounted₁, hstays₁⟩
  refine bind (makeCurrent_done q₁ kernelCDA KERNEL) fun q₂ hquiet₂ => ?_
  refine bind (swap_done q₂.heap (q₂.entry cur) kernelCDA) fun heap hdomains => ?_
  have hcda : q₂.dispatchedCDA = kernelCDA := hquiet₂.cda.trans hstays₁.cda
  refine (hcounted₁.quiet hquiet₂).congr (fun _ => rfl) (fun _ => rfl) rfl ?_
  show q₂.dispatchedCDA ::ₘ heap.domains = _
  rw [hcda]
  exact hdomains

theorem Counted.cleanHeap (h : Counted q cur) (fuel : ℕ) :
    Done (fun q' => Counted q' cur ∧ Stays q q') (cleanHeap fuel q) := by
  induction fuel generalizing q with
  | zero => trivial
  | succ fuel ih =>
    rw [DispatchQueue.cleanHeap]
    refine bind (getHead_done q.heap) ?_
    rintro head rfl
    refine bind (stillRunnable_done q (q.heap.element 0).cda) ?_
    rintro ⟨runnable, q₁⟩ hquiet
    simp only at hquiet ⊢
    refine ite (fun _ => ⟨h.quiet hquiet, hquiet.toStays⟩) fun _ => ?_
    refine bind (deleteHead_done _) ?_
    intro heap hdomains
    have hdomains₁ : q₁.heap.domains = (q₁.heap.element 0).cda ::ₘ heap.domains := hdomains
    refine (ih ((h.quiet hquiet).notRunnable ?_)).mono ?_
    · rw [hdomains₁, hquiet.heap, cons_swap]
    · rintro q' ⟨hcounted, hstays⟩
      exact ⟨hcounted, hstays.cda.trans hquiet.cda, hstays.pa.trans hquiet.pa⟩

theorem Counted.yieldTo (h : Counted q q.dispatchedCDA) :
    Done (fun q' => Counted q' q'.dispatchedCDA) (q.yieldTo (q.heap.element 0).cda) := by
  rw [DispatchQueue.yieldTo]
  refine bind (stillRunnable_done q q.dispatchedCDA) ?_
  rintro ⟨runnable, q₁⟩ hquiet
  have hcounted : Counted q₁ q.dispatchedCDA := h.quiet hquiet
  simp only at hquiet ⊢
  refine ite (fun _ => ?_) fun _ => ?_
  · refine ite (fun _ => ?_) fun _ => ?_
    · refine bind (replaceHead_done _ _) fun heap hdomains => ?_
      rw [hquiet.heap] at hdomains
      refine hcounted.congr (fun _ => rfl) (fun _ => rfl) rfl ?_
      rw [hquiet.heap]
      exact hdomains
    · show Counted q₁ q₁.dispatchedCDA
      rw [hquiet.cda]
      exact hcounted
  · refine bind (deleteHead_done _) fun heap hdomains => ?_
    have hdomains₁ : q₁.heap.domains = (q₁.heap.element 0).cda ::ₘ heap.domains := hdomains
    have hleft : Counted { q₁.notRunnable q.dispatchedCDA with heap := heap }
        (q.heap.element 0).cda := by
      refine hcounted.notRunnable ?_
      rw [hdomains₁, hquiet.heap]
    exact hleft.congr (fun _ => rfl) (fun _ => rfl) rfl rfl

theorem getCurrentProcessAnnex_done (q : DispatchQueue) (cda : ℕ) :
    Done (fun _ => True) (q.getCurrentProcessAnnex cda) := by
  cases q.getCurrentProcessAnnex cda <;> trivial

section

variable (h : Counted q q.dispatchedCDA)

include h

theorem Counted.chooseDomain :
    Done (fun q' => Counted q' q'.dispatchedCDA) q.chooseDomain := by
  rw [DispatchQueue.chooseDomain]
  refine bind (h.cleanHeap _) ?_
  rintro q₁ ⟨hcounted, hstays⟩
  rw [← hstays.cda] at hcounted
  refine bind (getHead_done q₁.heap) ?_
  rintro head rfl
  refine bind hcounted.yieldTo fun q₂ hcounted₂ => ?_
  refine bind (getCurrentProcessAnnex_done q₂ _) fun pa _ => ?_
  exact hcounted₂.congr (fun _ => rfl) (fun _ => rfl) rfl rfl

theorem Counted.exchange (newCDA : ℕ) :
    Done (fun q' => Counted q' q'.dispatchedCDA) (q.exchange newCDA) := by
  rw [DispatchQueue.exchange]
  refine ite (fun _ => ?_) fun _ => h
  refine bind (swap_done _ _ _) fun heap hdomains => ?_
  exact h.congr (fun _ => rfl) (fun _ => rfl) rfl hdomains

theorem Counted.takePreempted :
    Done (fun q' => Counted q' q'.dispatchedCDA) q.takePreempted := by
  rw [DispatchQueue.takePreempted]
  split
  · exact h
  · rename_i pa _
    refine ite (fun _ => ?_) fun _ => h.congr (fun _ => rfl) (fun _ => rfl) rfl rfl
    refine bind (getCDA_done q pa) fun preemptedCDA _ => ?_
    refine bind (h.exchange preemptedCDA) fun q₁ hcounted => ?_
    exact hcounted.congr (fun _ => rfl) (fun _ => rfl) rfl rfl

theorem Counted.getNextProcessAnnex (now : SysTime) :
    Done (fun r => Counted r.1 r.1.dispatchedCDA) (q.getNextProcessAnnex now) := by
  have hstart := Quiet.startDispatch q now
  have hcounted : Counted (q.startDispatch now) (q.startDispatch now).dispatchedCDA := by
    rw [hstart.cda]
    exact h.quiet hstart
  rw [DispatchQueue.getNextProcessAnnex]
  refine bind hcounted.chooseDomain fun q₁ hcounted₁ => ?_
  refine bind hcounted₁.takePreempted fun q₂ hcounted₂ => ?_
  have hsignal : Quiet q₂ (if (q₂.pas q₂.dispatchedPA).awaitingDispatch then
      q₂.signalDispatch q₂.dispatchedPA else q₂) := by
    split
    · exact Quiet.updPA _ _ _
    · exact Quiet.refl _
  have hquiet := (hsignal.trans (Quiet.updPA _ q₂.dispatchedPA fun p => p.clearWarning)).trans
    (Quiet.finishDispatch _)
  show Counted (DispatchQueue.finishDispatch _) (DispatchQueue.finishDispatch _).dispatchedCDA
  rw [hquiet.cda]
  exact hcounted₂.quiet hquiet

theorem Counted.giveWay (newCDA : ℕ) :
    Done (fun q' => Counted q' newCDA ∧ q'.dispatchedCDA = newCDA) (q.giveWay newCDA) := by
  rw [DispatchQueue.giveWay]
  refine bind (stillRunnable_done q q.dispatchedCDA) ?_
  rintro ⟨runnable, q₁⟩ hquiet
  have hcounted : Counted q₁ q.dispatchedCDA := h.quiet hquiet
  refine ite (fun _ => ?_) fun _ => ?_
  · refine bind (swap_done _ _ _) fun heap hdomains => ?_
    exact ⟨hcounted.congr (fun _ => rfl) (fun _ => rfl) rfl hdomains, rfl⟩
  · refine bind (remove_done _ _) fun heap hdomains => ?_
    have hdomains₁ : q₁.heap.domains = newCDA ::ₘ heap.domains := hdomains
    have hleft : Counted { q₁.notRunnable q.dispatchedCDA with heap := heap } newCDA := by
      refine hcounted.notRunnable ?_
      rw [hdomains₁]
    exact ⟨hleft.congr (fun _ => rfl) (fun _ => rfl) rfl rfl, rfl⟩

theorem Counted.switchTo {newCDA : ℕ} (hdomain : q.dispatchedPA = pa → newCDA = q.dispatchedCDA) :
    Done (fun q' => Counted q' newCDA ∧ q'.dispatchedCDA = newCDA) (q.switchTo pa newCDA) := by
  rw [DispatchQueue.switchTo]
  refine ite (fun _ => ?_) fun heq => ?_
  · refine bind (h.makeReady pa) ?_
    rintro q₁ ⟨hcounted₁, hstays₁⟩
    refine bind (makeCurrent_done q₁ newCDA pa) fun q₂ hquiet₂ => ?_
    have hcda : q₂.dispatchedCDA = q.dispatchedCDA := hquiet₂.cda.trans hstays₁.cda
    have hcounted₂ : Counted q₂ q₂.dispatchedCDA := by
      rw [hcda]
      exact hcounted₁.quiet hquiet₂
    by_cases hsame : q₂.dispatchedCDA = newCDA
    · subst hsame
      simp only [ne_eq, not_true_eq_false, ↓reduceIte, ok_bind]
      exact ⟨hcounted₂.congr (fun _ => rfl) (fun _ => rfl) rfl rfl, rfl⟩
    · simp only [ne_eq, hsame, not_false_eq_true, ↓reduceIte]
      refine bind (hcounted₂.giveWay newCDA) ?_
      rintro q₃ ⟨hcounted₃, hcda₃⟩
      exact ⟨hcounted₃.congr (fun _ => rfl) (fun _ => rfl) rfl rfl, hcda₃⟩
  · have hcda := hdomain (not_not.mp heq)
    rw [hcda]
    exact ⟨h, rfl⟩

end

theorem Quiet.waitForDispatch (q : DispatchQueue) (pa newPClass : ℕ) :
    Quiet q (q.waitForDispatch pa newPClass) :=
  ⟨⟨rfl, rfl⟩, fun _ => rfl, fun _ => rfl, rfl, rfl⟩

theorem Counted.of_quiet (h : Counted q q.dispatchedCDA) (hquiet : Quiet q q') :
    Counted q' q'.dispatchedCDA := by
  rw [hquiet.cda]
  exact h.quiet hquiet

theorem Counted.retryDispatch (h : Counted q q.dispatchedCDA) {newCDA : ℕ}
    (hdomain : q.dispatchedPA = pa → newCDA = q.dispatchedCDA) (newPClass : ℕ) :
    Done (fun q' => Counted q' q'.dispatchedCDA) (q.retryDispatch pa newCDA newPClass) := by
  rw [DispatchQueue.retryDispatch]
  refine ite (fun _ => h.of_quiet ⟨⟨rfl, rfl⟩, fun _ => rfl, fun _ => rfl, rfl, rfl⟩) fun _ => ?_
  refine bind (h.switchTo hdomain) ?_
  rintro q₁ ⟨hcounted₁, hcda₁⟩
  refine bind (hcounted₁.cleanHeap _) ?_
  rintro q₂ ⟨hcounted₂, hstays₂⟩
  refine bind (getHead_done q₂.heap) fun head _ => ?_
  refine ite (fun _ => ?_) fun _ => ?_
  · refine bind hcounted₂.switchToKernel fun q₃ hcounted₃ => ?_
    have hput : Quiet q₃ (if q₃.preemptedPA newPClass = none ∧ !(q₂.pas pa).warningExpired then
        { q₃ with preemptedPA := update q₃.preemptedPA newPClass (some pa) } else q₃) := by
      split
      · exact ⟨⟨rfl, rfl⟩, fun _ => rfl, fun _ => rfl, rfl, rfl⟩
      · exact Quiet.refl _
    exact hcounted₃.of_quiet
      ((hput.trans (Quiet.finishDispatch _)).trans (Quiet.waitForDispatch _ pa newPClass))
  · have hcounted : Counted q₂ q₂.dispatchedCDA := by
      rw [hstays₂.cda, hcda₁]
      exact hcounted₂
    have hwarned : Quiet q₂ (if !(q₂.cdas head).hasHigherPriorityThan (q₂.cdas newCDA) ∧
          (q₂.ring newCDA).head? = some pa then
        q₂.updPA pa fun p => p.clearWarning
      else if !(q₂.pas pa).hasWarning then
        q₂.updPA pa fun p => { p with interrupts := true }.setWarning q₂.warningQuantum
      else q₂) := by
      split
      · exact Quiet.updPA _ _ _
      · split
        · exact Quiet.updPA _ _ _
        · exact Quiet.refl _
    exact hcounted.of_quiet (hwarned.trans (Quiet.finish _ _))

/-- The domain of an annex that is dispatched is the dispatched one. -/
def Home (q : DispatchQueue) : Prop :=
  (q.pas q.dispatchedPA).cpuDomainAnnex = some q.dispatchedCDA

theorem Home.eq (h : Home q) (hdomain : (q.pas pa).cpuDomainAnnex = some d)
    (heq : q.dispatchedPA = pa) : d = q.dispatchedCDA := by
  rw [Home, heq, hdomain] at h
  exact Option.some.inj h

section

variable (h : Counted q q.dispatchedCDA)

include h

theorem Counted.awaitDispatch (hhome : Home q) (pa : ℕ) (now : SysTime) :
    Done (fun q' => Counted q' q'.dispatchedCDA) (q.awaitDispatch pa now) := by
  have hstart := Quiet.startDispatch q now
  rw [DispatchQueue.awaitDispatch]
  refine ite (fun _ => trivial) fun _ => ?_
  refine ite (fun _ => trivial) fun _ => ?_
  refine bind (getCDA_done q pa) fun newCDA hdomain => ?_
  refine (h.of_quiet hstart).retryDispatch ?_ _
  rw [hstart.pa, hstart.cda]
  exact hhome.eq hdomain

theorem Counted.resumeDispatch (hhome : Home q) (pa : ℕ) (now : SysTime) :
    Done (fun q' => Counted q' q'.dispatchedCDA) (q.resumeDispatch pa now) := by
  have hstart := Quiet.startDispatch q now
  rw [DispatchQueue.resumeDispatch]
  split
  · trivial
  · refine bind (getCDA_done q pa) fun newCDA hdomain => ?_
    refine (h.of_quiet hstart).retryDispatch ?_ _
    rw [hstart.pa, hstart.cda]
    exact hhome.eq hdomain

theorem Counted.removeProcessAnnex (hhome : Home q)
    (hdomain : (q.pas pa).cpuDomainAnnex = some d) (now : SysTime) :
    Done (fun q' => Counted q' q'.dispatchedCDA) (q.removeProcessAnnex d pa now) := by
  rw [DispatchQueue.removeProcessAnnex]
  refine ite (fun heq => ?_) fun _ => ?_
  · have hcounted := h.quiet (Quiet.startDispatch q now)
    rw [← hhome.eq hdomain heq.symm] at hcounted
    refine bind hcounted.switchToKernel fun q₁ hcounted₁ => ?_
    exact hcounted₁.of_quiet (Quiet.finishDispatch q₁)
  · refine ite (fun _ => ?_) fun _ => h
    exact h.of_quiet ⟨⟨rfl, rfl⟩, fun _ => rfl, fun _ => rfl, rfl, rfl⟩

theorem Counted.makeNotReady (hhome : Home q) (pa : ℕ) (now : SysTime) :
    Done (fun q' => Counted q' q'.dispatchedCDA) (q.makeNotReady pa now) := by
  rw [DispatchQueue.makeNotReady]
  refine bind (getCDA_done q pa) fun cda hdomain => ?_
  refine ite (fun _ => ?_) fun _ => h
  rw [removeFromRing]
  refine bind (h.removeProcessAnnex hhome hdomain now) fun q₁ hcounted₁ => ?_
  refine ite (fun _ => trivial) fun _ => ?_
  refine ite (fun _ => ?_) fun _ => hcounted₁.of_quiet (Quiet.setRing q₁ cda _)
  refine bind (hcounted₁.removeCPUDomainAnnex cda) ?_
  rintro q₂ ⟨hcounted₂, hstays₂, -⟩
  rw [← hstays₂.cda] at hcounted₂
  exact hcounted₂.of_quiet (Quiet.setRing q₂ cda [])

theorem Counted.detach (hhome : Home q) (pa : ℕ) (now : SysTime) :
    Done (fun q' => Counted q' q'.dispatchedCDA) (q.detach pa now) := by
  rw [DispatchQueue.detach]
  refine bind (h.makeNotReady hhome pa now) fun q₁ hcounted₁ => ?_
  exact hcounted₁.of_quiet (Quiet.updPA q₁ pa _)

end

theorem Counted.attach (h : Counted q cur) (pa d : ℕ) :
    Done (fun q' => Counted q' cur ∧ Stays q q') (q.attach pa d) := by
  rw [DispatchQueue.attach]
  refine ite (fun _ => trivial) fun _ => ?_
  refine ((h.quiet (Quiet.updPA q pa _)).makeReady pa).mono ?_
  rintro q' ⟨hcounted, hstays⟩
  exact ⟨hcounted, hstays.cda, hstays.pa⟩

theorem Quiet.waitForTerminate (q : DispatchQueue) (pa : ℕ) : Quiet q (q.waitForTerminate pa) := by
  rw [DispatchQueue.waitForTerminate]
  split
  · exact Quiet.refl q
  · exact Quiet.updPA _ _ _
  · have hwoken : Quiet q (if (q.pas pa).awaitingDispatch then q.signalDispatch pa else q) := by
      split
      · exact Quiet.updPA _ _ _
      · exact Quiet.refl q
    exact hwoken.trans (Quiet.updPA _ _ _)

/-! ## Changes of a domain -/

theorem Counted.updCDA (h : Counted q cur) {f : CPUDomainAnnex → CPUDomainAnnex}
    (hnot : d ∉ cur ::ₘ q.heap.domains) (hweight : (f (q.cdas d)).weight ≤ MAX_WEIGHT) :
    Counted (q.updCDA d f) cur := by
  refine ⟨fun c => ?_, fun x => ?_, h.room⟩
  · show q.runnableWeight c = classWeight _ (cur ::ₘ q.heap.domains) c
    rw [h.exact]
    refine (classWeight_congr (fun x hx => ?_) c).symm
    have hne : x ≠ d := by
      rintro rfl
      exact hnot hx
    rw [cdas_updCDA_of_ne q f hne]
    exact ⟨rfl, rfl⟩
  · by_cases hx : x = d
    · subst hx
      rw [cdas_updCDA_self]
      exact hweight
    · rw [cdas_updCDA_of_ne q f hx]
      exact h.bounded x

theorem Sound.not_runnable (h : Sound q) (hnil : q.ring d = []) :
    d ∉ q.dispatchedCDA ::ₘ q.heap.domains :=
  fun hmem => (h.dispatched.queue.mem_iff d).mp hmem hnil

theorem Counted.create (h : Counted q q.dispatchedCDA) (hsound : Sound q)
    (hfree : ∀ p, (q.pas p).cpuDomainAnnex ≠ some d)
    (ticksPerSecond pclass weight quantumMicrosecs pulseMicrosecs : ℕ) :
    Counted (q.create ticksPerSecond d pclass weight quantumMicrosecs pulseMicrosecs).1
      (q.create ticksPerSecond d pclass weight quantumMicrosecs pulseMicrosecs).1.dispatchedCDA := by
  have hnil : q.ring d = [] := by
    by_contra hne
    obtain ⟨p, hp⟩ := List.exists_mem_of_ne_nil _ hne
    exact hfree p (hsound.dispatched.queue.ring_domain d p hp)
  rw [DispatchQueue.create]
  split
  · exact h
  split
  · exact h
  split
  · exact h
  split
  · exact h
  · rename_i hrange
    rw [not_or, not_lt, not_lt] at hrange
    have hnew : Counted (q.updCDA d fun _ => .init pclass weight
        (ticks ticksPerSecond quantumMicrosecs) (ticks ticksPerSecond pulseMicrosecs) q.vp)
        q.dispatchedCDA := h.updCDA (hsound.not_runnable hnil) hrange.2
    exact hnew

/-- The class and the weight of a runnable domain stay. -/
def Kept (q : DispatchQueue) : Call → Prop
  | .setPriorityClass cda pclass =>
    ClassAccepted q cda pclass → q.ring cda ≠ [] → pclass = (q.cdas cda).pclass
  | .setWeight cda weight =>
    q.vp = (q.cdas cda).pp → MIN_WEIGHT ≤ weight → weight ≤ MAX_WEIGHT → q.ring cda ≠ [] →
      weight = (q.cdas cda).weight
  | _ => True

theorem Counted.setWeight (h : Counted q q.dispatchedCDA) (hsound : Sound q) {weight : ℕ}
    (hkept : Kept q (.setWeight d weight)) :
    Counted (q.setWeight d weight).1 (q.setWeight d weight).1.dispatchedCDA := by
  rw [DispatchQueue.setWeight]
  split
  · exact h
  rename_i hpp
  split
  · exact h
  rename_i hrange
  rw [not_not] at hpp
  rw [not_or, not_lt, not_lt] at hrange
  by_cases hnil : q.ring d = []
  · have hnew : Counted (q.updCDA d fun c =>
        { c with weight := weight, drag := UInt64.ofNat (MAX_WEIGHT / weight) }) q.dispatchedCDA :=
      h.updCDA (hsound.not_runnable hnil) hrange.2
    exact hnew
  · have hsame := hkept hpp hrange.1 hrange.2 hnil
    refine h.of_quiet ⟨⟨rfl, rfl⟩, fun x => ?_, fun x => ?_, rfl, rfl⟩
    · exact updCDA_field CPUDomainAnnex.pclass q d (f := fun c =>
        { c with weight := weight, drag := UInt64.ofNat (MAX_WEIGHT / weight) }) (fun _ => rfl) x
    · by_cases hx : x = d
      · subst hx
        rw [cdas_updCDA_self]
        exact hsame
      · rw [cdas_updCDA_of_ne _ _ hx]

theorem Counted.setPriorityClass (h : Counted q q.dispatchedCDA) (hsound : Sound q) {pclass : ℕ}
    (hkept : Kept q (.setPriorityClass d pclass)) :
    Done (fun r => Counted r.1 r.1.dispatchedCDA) (q.setPriorityClass d pclass) := by
  rw [DispatchQueue.setPriorityClass]
  refine ite (fun _ => h) fun hpp => ?_
  refine ite (fun _ => h) fun hrange => ?_
  rw [not_not] at hpp
  rw [not_or, not_lt, not_lt] at hrange
  have hring : (q.updCDA d fun x => { x with pclass := pclass }).ring d = q.ring d := by
    rw [ring, cdas_updCDA_self]
    rfl
  simp only
  rw [hring]
  refine ite (fun hne => ?_) fun hnil => ?_
  · have hsame := hkept ⟨hpp, hrange⟩ hne
    have hquiet : Quiet q (q.updCDA d fun x => { x with pclass := pclass }) := by
      refine ⟨⟨rfl, rfl⟩, fun x => ?_, fun x => ?_, rfl, rfl⟩
      · by_cases hx : x = d
        · subst hx
          rw [cdas_updCDA_self]
          exact hsame
        · rw [cdas_updCDA_of_ne _ _ hx]
      · exact updCDA_field CPUDomainAnnex.weight q d (f := fun c => { c with pclass := pclass })
          (fun _ => rfl) x
    refine bind ((h.of_quiet hquiet).removeCPUDomainAnnex d) ?_
    rintro q₁ ⟨hcounted₁, hstays₁, -⟩
    refine bind (hcounted₁.addCPUDomainAnnex d) ?_
    rintro q₂ ⟨hcounted₂, hstays₂⟩
    show Counted q₂ q₂.dispatchedCDA
    rw [hstays₂.cda, hstays₁.cda]
    exact hcounted₂
  · rw [not_not] at hnil
    have hnew : Counted (q.updCDA d fun x => { x with pclass := pclass }) q.dispatchedCDA :=
      h.updCDA (hsound.not_runnable hnil) (h.bounded d)
    exact hnew

theorem Done.fst {α β : Type} {P : α → Prop} {r : Except DispatchAssert (α × β)}
    (h : Done (fun x => P x.1) r) : Done P (Prod.fst <$> r) := by
  cases r with
  | ok x => exact h
  | error e => exact h

theorem Counted.exec (h : Counted q q.dispatchedCDA) (hsound : Sound q) (call : Call)
    (hadm : Admissible q call) (hkept : Kept q call) :
    Done (fun q' => Counted q' q'.dispatchedCDA) (q.exec call) := by
  have hhome : Home q := hsound.dispatched.domain
  cases call with
  | create ticksPerSecond cda pclass weight quantumMicrosecs pulseMicrosecs =>
    exact h.create hsound hadm.2 ticksPerSecond pclass weight quantumMicrosecs pulseMicrosecs
  | dispatcher pa reservedThread hasWork interrupts => exact h.of_quiet (Quiet.updPA q pa _)
  | attach pa cda =>
    refine (h.attach pa cda).mono ?_
    rintro q' ⟨hcounted, hstays⟩
    rw [hstays.cda]
    exact hcounted
  | makeReady pa =>
    refine (h.makeReady pa).mono ?_
    rintro q' ⟨hcounted, hstays⟩
    rw [hstays.cda]
    exact hcounted
  | detach pa now => exact h.detach hhome pa now
  | getNextProcessAnnex now => exact Done.fst (h.getNextProcessAnnex now)
  | awaitDispatch pa now => exact h.awaitDispatch hhome pa now
  | resumeDispatch pa now => exact h.resumeDispatch hhome pa now
  | waitForTerminate pa => exact h.of_quiet (Quiet.waitForTerminate q pa)
  | setPriorityClass cda pclass => exact Done.fst (h.setPriorityClass hsound hkept)
  | setWeight cda weight => exact h.setWeight hsound hkept

/-! ## Runs -/

end K42.DispatchQueue
