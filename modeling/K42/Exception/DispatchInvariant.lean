import K42.Lib.Outcome
import K42.Lib.Update
import K42.Exception.DispatchQueue
import Mathlib.Data.List.Rotate

/-!
# The domains of the dispatch queue

`Queue q cur` is what the operations rely on while one domain, `cur`, is out of the
heap: `cur` and the domains of the heap are those with annexes in their ring, the heap
has their priorities, and the annexes are in the rings of their own domains. Between
two operations `cur` is `dispatchedCDA`. What else an operation leaves alone is said by
`Frame`.
-/

open Function (update_cases update_of_ne update_self)

namespace K42.DispatchQueue

open DispatchHeap Outcome
open Multiset (cons_swap map map_cons mem_cons mem_cons_of_mem mem_map_of_mem nodup_cons)

variable {q q' q'' : DispatchQueue} {cur d pa : ℕ} {K : ℕ → Prop}

/-- The annexes in the rings. -/
structure Rings (q : DispatchQueue) : Prop where
  ring_nodup : ∀ d, (q.ring d).Nodup
  ring_domain : ∀ d, ∀ p ∈ q.ring d, (q.pas p).cpuDomainAnnex = some d
  fresh : ∀ d, q.ring d = [] → (q.cdas d).consumedTicks = 0
  /-- The first three annexes are alone in their domains. -/
  own : ∀ i < 3, (q.pas i).cpuDomainAnnex = some i ∧
    ∀ p, (q.pas p).cpuDomainAnnex = some i → p = i
  /-- The dummy and the idle loop always have work. -/
  always : ∀ i < 2, (q.pas i).canRun = true ∧ i ∈ q.ring i

structure Queue (q : DispatchQueue) (cur : ℕ) : Prop extends Rings q where
  nodup : (cur ::ₘ q.heap.domains).Nodup
  mem_iff : ∀ d, d ∈ cur ::ₘ q.heap.domains ↔ q.ring d ≠ []
  keys : ∀ e ∈ q.heap.elements, e = q.entry e.cda

/-- An operation that does not concern the threads, the classes and the annexes put off,
and that keeps the annexes `K` in their rings. -/
structure Frame (K : ℕ → Prop) (q q' : DispatchQueue) : Prop where
  domain : ∀ p, (q'.pas p).cpuDomainAnnex = (q.pas p).cpuDomainAnnex
  thread : ∀ p, (q'.pas p).reservedThread = (q.pas p).reservedThread ∧
    (q'.pas p).awaitingDispatch = (q.pas p).awaitingDispatch ∧
    (q'.pas p).terminationPending = (q.pas p).terminationPending
  canRun : ∀ p, (q.pas p).canRun = true → (q'.pas p).canRun = true
  pclass : ∀ d, (q'.cdas d).pclass = (q.cdas d).pclass
  preempted : q'.preemptedPA = q.preemptedPA
  blocked : q'.blocked = q.blocked
  keep : ∀ d p, p ∈ q.ring d → K p → p ∈ q'.ring d

theorem Frame.refl (q : DispatchQueue) : Frame K q q where
  domain _ := rfl
  thread _ := ⟨rfl, rfl, rfl⟩
  canRun _ h := h
  pclass _ := rfl
  preempted := rfl
  blocked := rfl
  keep _ _ h _ := h

theorem Frame.trans (h : Frame K q q') (h' : Frame K q' q'') : Frame K q q'' where
  domain p := (h'.domain p).trans (h.domain p)
  thread p :=
    ⟨(h'.thread p).1.trans (h.thread p).1, (h'.thread p).2.1.trans (h.thread p).2.1,
      (h'.thread p).2.2.trans (h.thread p).2.2⟩
  canRun p hp := h'.canRun p (h.canRun p hp)
  pclass d := (h'.pclass d).trans (h.pclass d)
  preempted := h'.preempted.trans h.preempted
  blocked := h'.blocked.trans h.blocked
  keep d p hp hK := h'.keep d p (h.keep d p hp hK) hK

theorem Frame.mono {K' : ℕ → Prop} (h : Frame K q q') (hK : ∀ p, K' p → K p) : Frame K' q q' :=
  { h with keep := fun d p hp hKp => h.keep d p hp (hK p hKp) }

/-! ## Changes of one domain or annex -/

theorem ring_setRing (q : DispatchQueue) (cda : ℕ) (l : List ℕ) :
    (q.setRing cda l).ring = Function.update q.ring cda l := by
  funext d
  by_cases hd : d = cda
  · subst hd
    simp [setRing, updCDA, ring]
  · simp [setRing, updCDA, ring, update_of_ne hd]

theorem cdas_updCDA_of_ne (q : DispatchQueue) {cda d : ℕ} (f : CPUDomainAnnex → CPUDomainAnnex)
    (hd : d ≠ cda) : (q.updCDA cda f).cdas d = q.cdas d := update_of_ne hd _ _

theorem cdas_updCDA_self (q : DispatchQueue) (cda : ℕ) (f : CPUDomainAnnex → CPUDomainAnnex) :
    (q.updCDA cda f).cdas cda = f (q.cdas cda) := update_self _ _ _

theorem pas_updPA_of_ne (q : DispatchQueue) {pa p : ℕ} (f : ProcessAnnex → ProcessAnnex)
    (hp : p ≠ pa) : (q.updPA pa f).pas p = q.pas p := update_of_ne hp _ _

theorem pas_updPA_self (q : DispatchQueue) (pa : ℕ) (f : ProcessAnnex → ProcessAnnex) :
    (q.updPA pa f).pas pa = f (q.pas pa) := update_self _ _ _

variable {f : CPUDomainAnnex → CPUDomainAnnex} {l : List ℕ}

theorem updCDA_field {β : Type} (g : CPUDomainAnnex → β) (q : DispatchQueue) (cda : ℕ)
    (hf : ∀ c, g (f c) = g c) (d : ℕ) :
    g ((q.updCDA cda f).cdas d) = g (q.cdas d) := by
  by_cases hd : d = cda
  · subst hd
    rw [cdas_updCDA_self, hf]
  · rw [cdas_updCDA_of_ne _ _ hd]

theorem updPA_field {β : Type} (g : ProcessAnnex → β) (q : DispatchQueue) (pa : ℕ)
    {f : ProcessAnnex → ProcessAnnex} (hf : ∀ p, g (f p) = g p) (p : ℕ) :
    g ((q.updPA pa f).pas p) = g (q.pas p) := by
  by_cases hp : p = pa
  · subst hp
    rw [pas_updPA_self, hf]
  · rw [pas_updPA_of_ne _ _ hp]

theorem Frame.updPA (q : DispatchQueue) (pa : ℕ) {f : ProcessAnnex → ProcessAnnex}
    (hdomain : ∀ p, (f p).cpuDomainAnnex = p.cpuDomainAnnex)
    (hreserved : ∀ p, (f p).reservedThread = p.reservedThread)
    (hawaiting : ∀ p, (f p).awaitingDispatch = p.awaitingDispatch)
    (htermination : ∀ p, (f p).terminationPending = p.terminationPending)
    (hcanRun : ∀ p, p.canRun = true → (f p).canRun = true) : Frame K q (q.updPA pa f) where
  domain := updPA_field ProcessAnnex.cpuDomainAnnex q pa hdomain
  thread p :=
    ⟨updPA_field ProcessAnnex.reservedThread q pa hreserved p,
      updPA_field ProcessAnnex.awaitingDispatch q pa hawaiting p,
      updPA_field ProcessAnnex.terminationPending q pa htermination p⟩
  canRun p hp := by
    by_cases hpa : p = pa
    · subst hpa
      rw [pas_updPA_self]
      exact hcanRun _ hp
    · rw [pas_updPA_of_ne _ _ hpa]
      exact hp
  pclass _ := rfl
  preempted := rfl
  blocked := rfl
  keep _ _ h _ := h

theorem resetPulse_frame (q : DispatchQueue) (pa : ℕ) (pulseInterval : SysTime) :
    Frame K q (q.updPA pa fun p => p.resetPulse pulseInterval) :=
  Frame.updPA q pa (fun _ => rfl) (fun _ => rfl) (fun _ => rfl) (fun _ => rfl) fun _ hp => hp

section

variable (h : Queue q cur)

include h

theorem Queue.congr (hheap : q'.heap.elements = q.heap.elements)
    (hring : ∀ d, (q'.ring d).Perm (q.ring d))
    (hentry : ∀ d ∈ q.heap.domains, q'.entry d = q.entry d)
    (hfresh : ∀ d, q.ring d = [] → (q'.cdas d).consumedTicks = (q.cdas d).consumedTicks)
    (hdomain : ∀ p, (q'.pas p).cpuDomainAnnex = (q.pas p).cpuDomainAnnex)
    (hcanRun : ∀ i < 2, (q.pas i).canRun = true → (q'.pas i).canRun = true) : Queue q' cur where
  nodup := by
    rw [domains, hheap]
    exact h.nodup
  mem_iff d := by
    rw [domains, hheap, ne_eq, ← List.length_eq_zero_iff, (hring d).length_eq,
      List.length_eq_zero_iff]
    exact h.mem_iff d
  keys e he := by
    rw [hheap] at he
    rw [hentry e.cda (mem_map_of_mem _ he)]
    exact h.keys e he
  ring_nodup d := (hring d).nodup_iff.mpr (h.ring_nodup d)
  ring_domain d p hp := by
    rw [hdomain]
    exact h.ring_domain d p ((hring d).mem_iff.mp hp)
  fresh d hd := by
    have hempty := hring d
    rw [hd, List.nil_perm] at hempty
    rw [hfresh d hempty]
    exact h.fresh d hempty
  own i hi := by
    rw [hdomain]
    refine ⟨(h.own i hi).1, fun p hp => ?_⟩
    rw [hdomain] at hp
    exact (h.own i hi).2 p hp
  always i hi :=
    ⟨hcanRun i hi (h.always i hi).1, (hring i).mem_iff.mpr (h.always i hi).2⟩

theorem Queue.ring_cur : q.ring cur ≠ [] :=
  (h.mem_iff cur).mp (Multiset.mem_cons_self cur _)

theorem Queue.cur_notMem : cur ∉ q.heap.domains :=
  (nodup_cons.mp h.nodup).1

theorem Queue.mem_heap (hring : q.ring d ≠ []) (hne : d ≠ cur) :
    d ∈ q.heap.domains :=
  (mem_cons.mp ((h.mem_iff d).mpr hring)).resolve_left hne

theorem Queue.ne_of_own {i : ℕ} (hi : i < 3) (hpa : 3 ≤ pa)
    (hdomain : (q.pas pa).cpuDomainAnnex = some d) : d ≠ i := by
  rintro rfl
  have := (h.own d hi).2 pa hdomain
  omega

theorem Queue.one_lt_count (hd : d ∈ q.heap.domains) (hne : ∀ i < 2, d ≠ i) :
    1 < q.heap.count := by
  obtain ⟨i, hi, hcur⟩ : ∃ i < 2, i ≠ cur := by
    by_cases h0 : cur = 0
    · exact ⟨1, by omega, by omega⟩
    · exact ⟨0, by omega, fun h => h0 h.symm⟩
  have hmem := h.mem_heap (List.ne_nil_of_mem (h.always i hi).2) hcur
  obtain ⟨m, hm⟩ := Multiset.exists_cons_of_mem hd
  rw [hm, mem_cons] at hmem
  have hpos := Multiset.card_pos_iff_exists_mem.mpr ⟨i, hmem.resolve_left (Ne.symm (hne i hi))⟩
  have hcard := card_domains q.heap
  rw [hm, Multiset.card_cons] at hcard
  omega

theorem Queue.count_pos : 0 < q.heap.count := by
  obtain ⟨i, hi, hcur⟩ : ∃ i < 2, i ≠ cur := by
    by_cases h0 : cur = 0
    · exact ⟨1, by omega, by omega⟩
    · exact ⟨0, by omega, fun h => h0 h.symm⟩
  have hmem := h.mem_heap (List.ne_nil_of_mem (h.always i hi).2) hcur
  have hpos := Multiset.card_pos_iff_exists_mem.mpr ⟨i, hmem⟩
  rwa [card_domains] at hpos

end

theorem Frame.updCDA (q : DispatchQueue) (cda : ℕ)
    (hpclass : (f (q.cdas cda)).pclass = (q.cdas cda).pclass)
    (hring : ∀ p ∈ q.ring cda, K p → p ∈ (f (q.cdas cda)).ring) : Frame K q (q.updCDA cda f) where
  domain _ := rfl
  thread _ := ⟨rfl, rfl, rfl⟩
  canRun _ h := h
  pclass d := by
    by_cases hd : d = cda
    · subst hd
      rw [cdas_updCDA_self, hpclass]
    · rw [cdas_updCDA_of_ne _ _ hd]
  preempted := rfl
  blocked := rfl
  keep d p hp hK := by
    by_cases hd : d = cda
    · subst hd
      rw [ring, cdas_updCDA_self]
      exact hring p hp hK
    · rw [ring, cdas_updCDA_of_ne _ _ hd]
      exact hp

theorem Queue.updCDA_cur (h : Queue q cur)
    (hring : (f (q.cdas cur)).ring.Perm (q.ring cur)) : Queue (q.updCDA cur f) cur := by
  refine h.congr rfl ?_ ?_ ?_ (fun _ => rfl) fun _ _ hrun => hrun
  · intro d
    by_cases hd : d = cur
    · subst hd
      rw [ring, cdas_updCDA_self]
      exact hring
    · rw [ring, cdas_updCDA_of_ne _ _ hd]
      exact .refl _
  · intro d hd
    have hne : d ≠ cur := fun heq => h.cur_notMem (heq ▸ hd)
    rw [entry, cdas_updCDA_of_ne _ _ hne]
    rfl
  · intro d hd
    have hne : d ≠ cur := fun heq => h.ring_cur (heq ▸ hd)
    rw [cdas_updCDA_of_ne _ _ hne]

theorem Queue.updPA (h : Queue q cur) {f : ProcessAnnex → ProcessAnnex}
    (hframe : Frame (fun _ => True) q (q.updPA pa f)) : Queue (q.updPA pa f) cur :=
  h.congr rfl (fun _ => .refl _) (fun _ _ => rfl) (fun _ _ => rfl) hframe.domain
    fun i _ => hframe.canRun i

theorem canRun_iff (p : ProcessAnnex) :
    p.canRun = true ↔ p.reservedThread = .null ∧ (p.hasWork = true ∨ p.interrupts = true) ∨
      p.awaitingDispatch = true := by
  simp [ProcessAnnex.canRun, ProcessAnnex.stillRunnable]

/-! ## The clock -/

theorem Frame.of_eq (hcdas : q'.cdas = q.cdas) (hpas : q'.pas = q.pas)
    (hpreempted : q'.preemptedPA = q.preemptedPA) (hblocked : q'.blocked = q.blocked) :
    Frame K q q' where
  domain p := by rw [hpas]
  thread p := by
    rw [hpas]
    exact ⟨rfl, rfl, rfl⟩
  canRun p hp := by
    rw [hpas]
    exact hp
  pclass d := by rw [hcdas]
  preempted := hpreempted
  blocked := hblocked
  keep d p hp _ := by
    rw [ring, hcdas]
    exact hp

theorem ring_of_eq (hcdas : q'.cdas = q.cdas) : q'.ring = q.ring := by
  funext d
  rw [ring, ring, hcdas]

theorem Rings.of_eq (h : Rings q) (hcdas : q'.cdas = q.cdas) (hpas : q'.pas = q.pas) :
    Rings q' := by
  constructor
  · rw [ring_of_eq hcdas]
    exact h.ring_nodup
  · rw [ring_of_eq hcdas, hpas]
    exact h.ring_domain
  · rw [ring_of_eq hcdas, hcdas]
    exact h.fresh
  · rw [hpas]
    exact h.own
  · rw [hpas, ring_of_eq hcdas]
    exact h.always

theorem Queue.of_eq (h : Queue q cur) (hcdas : q'.cdas = q.cdas) (hpas : q'.pas = q.pas)
    (hheap : q'.heap.elements = q.heap.elements) : Queue q' cur where
  toRings := h.toRings.of_eq hcdas hpas
  nodup := by
    rw [domains, hheap]
    exact h.nodup
  mem_iff := by
    rw [domains, hheap, ring_of_eq hcdas]
    exact h.mem_iff
  keys e he := by
    rw [hheap] at he
    rw [entry, hcdas]
    exact h.keys e he

/-- The dispatched domain is out of the heap, and the dispatched annex is in its ring. -/
structure Dispatched (q : DispatchQueue) : Prop where
  queue : Queue q q.dispatchedCDA
  ring : q.dispatchedPA ∈ q.ring q.dispatchedCDA

/-- The same domain and the same annex are dispatched. -/
structure Stays (q q' : DispatchQueue) : Prop where
  cda : q'.dispatchedCDA = q.dispatchedCDA
  pa : q'.dispatchedPA = q.dispatchedPA

theorem Stays.trans (h : Stays q q') (h' : Stays q' q'') : Stays q q'' :=
  ⟨h'.cda.trans h.cda, h'.pa.trans h.pa⟩

theorem Queue.adjustQuantum (h : Queue q q.dispatchedCDA) (delta : SysTime) :
    Queue (q.adjustQuantum delta) q.dispatchedCDA ∧
      Frame (fun _ => True) q (q.adjustQuantum delta) ∧ Stays q (q.adjustQuantum delta) := by
  have hticks := h.updCDA_cur (f := fun c => { c with consumedTicks := c.consumedTicks + delta })
    (.refl _)
  have hticksFrame : Frame (fun _ => True) q (q.updCDA q.dispatchedCDA
      fun c => { c with consumedTicks := c.consumedTicks + delta }) :=
    Frame.updCDA q _ rfl fun _ hp _ => by exact hp
  simp only [DispatchQueue.adjustQuantum]
  split
  · -- the quantum is used up
    have hflush := hticks.updCDA_cur (f := fun c => c.flushQuantum q.inflation q.tickScale)
      (.refl _)
    have hflushFrame := hticksFrame.trans (Frame.updCDA (f := fun c =>
      c.flushQuantum q.inflation q.tickScale) _ q.dispatchedCDA rfl fun _ hp _ => by exact hp)
    split
    · exact ⟨hflush, hflushFrame, rfl, rfl⟩
    · rename_i hd pa rest hring
      have hperm : (rest ++ [pa]).Perm (pa :: rest) := List.perm_append_singleton pa rest
      refine ⟨(hflush.updPA (resetPulse_frame _ pa 0)).updCDA_cur ?_,
        (hflushFrame.trans (resetPulse_frame _ pa 0)).trans (Frame.updCDA _ _ rfl ?_), rfl, rfl⟩
      · exact hperm.trans (.of_eq hring.symm)
      · intro p hp _
        exact hperm.mem_iff.mpr (hring ▸ hp)
  · exact ⟨hticks, hticksFrame, rfl, rfl⟩

theorem inflate_eq (q : DispatchQueue) (now : SysTime) :
    (q.inflate now).cdas = q.cdas ∧ (q.inflate now).pas = q.pas ∧ (q.inflate now).heap = q.heap ∧
      (q.inflate now).preemptedPA = q.preemptedPA ∧ (q.inflate now).blocked = q.blocked ∧
      Stays q (q.inflate now) := by
  simp only [inflate]
  split
  · split <;> exact ⟨rfl, rfl, rfl, rfl, rfl, rfl, rfl⟩
  · exact ⟨rfl, rfl, rfl, rfl, rfl, rfl, rfl⟩

theorem Dispatched.startDispatch (h : Dispatched q) (now : SysTime) :
    Dispatched (q.startDispatch now) ∧ Frame (fun _ => True) q (q.startDispatch now) ∧
      Stays q (q.startDispatch now) := by
  obtain ⟨hcdas, hpas, hheap, hpreempted, hblocked, hstays⟩ := inflate_eq q now
  have hframe : Frame (fun _ => True) q { q.inflate now with lastDispatchTime := now } :=
    Frame.of_eq hcdas hpas hpreempted hblocked
  have hqueue : Queue { q.inflate now with lastDispatchTime := now } q.dispatchedCDA :=
    h.queue.of_eq hcdas hpas (congrArg elements hheap)
  have hticks : Frame (fun _ => True) { q.inflate now with lastDispatchTime := now }
      ({ q.inflate now with lastDispatchTime := now }.updPA (q.inflate now).dispatchedPA fun p =>
        { p with dispatchTicks := p.dispatchTicks + (now - (q.inflate now).lastDispatchTime) }) :=
    Frame.updPA _ _ (fun _ => rfl) (fun _ => rfl) (fun _ => rfl) (fun _ => rfl) fun _ hp => hp
  have hqueueTicks := hqueue.updPA hticks
  rw [← hstays.cda] at hqueueTicks
  obtain ⟨hqueue', hframe', hstays'⟩ :=
    Queue.adjustQuantum hqueueTicks (now - (q.inflate now).lastDispatchTime)
  have hall := (hframe.trans hticks).trans hframe'
  have hsame : Stays q (q.startDispatch now) :=
    ⟨hstays'.cda.trans hstays.cda, hstays'.pa.trans hstays.pa⟩
  refine ⟨⟨?_, ?_⟩, hall, hsame⟩
  · rw [hsame.cda, ← hstays.cda]
    exact hqueue'
  · rw [hsame.cda, hsame.pa]
    exact hall.keep _ _ h.ring trivial

theorem finishDispatch_frame (q : DispatchQueue) : Frame (fun _ => True) q q.finishDispatch := by
  have hpulse : Frame (fun _ => True) q (q.updPA q.dispatchedPA fun p =>
      { p with interrupts := true }.reschedulePulse (q.cdas q.dispatchedCDA).pulseInterval) := by
    refine Frame.updPA q q.dispatchedPA (fun _ => rfl) (fun _ => rfl) (fun _ => rfl)
      (fun _ => rfl) ?_
    intro p hp
    rw [canRun_iff] at hp ⊢
    exact hp.imp (fun hrun => ⟨hrun.1, .inr rfl⟩) id
  simp only [finishDispatch]
  split
  · exact hpulse.trans (Frame.of_eq rfl rfl rfl rfl)
  · exact Frame.of_eq rfl rfl rfl rfl

theorem finishDispatch_eq (q : DispatchQueue) :
    q.finishDispatch.cdas = q.cdas ∧ q.finishDispatch.heap = q.heap ∧ Stays q q.finishDispatch := by
  simp only [finishDispatch]
  split <;> exact ⟨rfl, rfl, rfl, rfl⟩

theorem Dispatched.finishDispatch (h : Dispatched q) : Dispatched q.finishDispatch := by
  obtain ⟨hcdas, hheap, hstays⟩ := finishDispatch_eq q
  have hframe := finishDispatch_frame q
  refine ⟨?_, ?_⟩
  · rw [hstays.cda]
    refine h.queue.congr (congrArg elements hheap) ?_ ?_ ?_ hframe.domain
      fun i _ => hframe.canRun i
    · intro d
      rw [DispatchQueue.ring, DispatchQueue.ring, hcdas]
    · intro d _
      rw [entry, entry, hcdas]
    · intro d _
      rw [hcdas]
  · rw [hstays.cda, hstays.pa]
    exact hframe.keep _ _ h.ring trivial

/-! ## Rings -/

/-- The postconditions below allow one error, the overflow of the heap. -/
abbrev Safe {α : Type} (P : α → Prop) : Except DispatchAssert α → Prop :=
  Sat (fun e => e = .heapOverflow) P

theorem entry_setRing (q : DispatchQueue) (cda : ℕ) (l : List ℕ) :
    (q.setRing cda l).entry = q.entry := by
  funext d
  rw [entry, setRing, updCDA_field CPUDomainAnnex.getPriority q cda
    (f := fun c => { c with ring := l }) fun _ => rfl]
  rfl

theorem consumedTicks_setRing (q : DispatchQueue) (cda : ℕ) (l : List ℕ) (d : ℕ) :
    ((q.setRing cda l).cdas d).consumedTicks = (q.cdas d).consumedTicks :=
  updCDA_field CPUDomainAnnex.consumedTicks q cda (f := fun c => { c with ring := l })
    (fun _ => rfl) d

theorem Rings.setRing (h : Rings q) (hnodup : l.Nodup)
    (hdomain : ∀ p ∈ l, (q.pas p).cpuDomainAnnex = some d)
    (hfresh : l = [] → (q.cdas d).consumedTicks = 0) (halways : d < 2 → d ∈ l) :
    Rings (q.setRing d l) where
  ring_nodup d' := by
    rw [ring_setRing]
    exact update_cases hnodup (fun d' _ => h.ring_nodup d') d'
  ring_domain d' := by
    rw [ring_setRing]
    exact update_cases hdomain (fun d' _ => h.ring_domain d') d'
  fresh d' := by
    rw [ring_setRing, consumedTicks_setRing]
    exact update_cases hfresh (fun d' _ => h.fresh d') d'
  own := h.own
  always i hi := by
    rw [ring_setRing]
    refine ⟨(h.always i hi).1, ?_⟩
    revert hi
    exact update_cases halways (fun i _ hi => (h.always i hi).2) i

theorem setRing_frame (q : DispatchQueue) (cda : ℕ)
    (hkeep : ∀ p ∈ q.ring cda, K p → p ∈ l) : Frame K q (q.setRing cda l) :=
  Frame.updCDA q cda rfl hkeep

theorem Queue.setRing (h : Queue q cur) (hne : l ≠ []) (hring : q.ring d ≠ [])
    (hnodup : l.Nodup) (hdomain : ∀ p ∈ l, (q.pas p).cpuDomainAnnex = some d)
    (halways : d < 2 → d ∈ l) : Queue (q.setRing d l) cur where
  toRings := h.toRings.setRing hnodup hdomain (fun hl => absurd hl hne) halways
  nodup := h.nodup
  mem_iff d' := by
    rw [ring_setRing]
    exact update_cases (iff_of_true ((h.mem_iff d).mpr hring) hne) (fun d' _ => h.mem_iff d') d'
  keys := by
    rw [entry_setRing]
    exact h.keys

theorem addCPUDomainAnnex_ok (hfresh : (q.cdas d).consumedTicks = 0)
    (hroom : q.heap.count < HEAP_SIZE) :
    ∃ heap, q.addCPUDomainAnnex d = .ok { q.statCDARunnable d with heap := heap } ∧
      heap.elements = q.entry d ::ₘ q.heap.elements := by
  obtain ⟨heap, hinsert, helements⟩ := insert_ok hroom (q.entry d)
  have hquantum : (q.cdas d).hasFreshQuantum = true := decide_eq_true hfresh
  refine ⟨heap, ?_, helements⟩
  rw [addCPUDomainAnnex, if_pos hquantum, hinsert, ok_bind]

theorem addCPUDomainAnnex_cases (hfresh : (q.cdas d).consumedTicks = 0) :
    (∃ heap, q.addCPUDomainAnnex d = .ok { q.statCDARunnable d with heap := heap } ∧
        heap.elements = q.entry d ::ₘ q.heap.elements) ∨
      q.addCPUDomainAnnex d = .error .heapOverflow := by
  by_cases hroom : q.heap.count < HEAP_SIZE
  · exact .inl (addCPUDomainAnnex_ok hfresh hroom)
  · have hquantum : (q.cdas d).hasFreshQuantum = true := decide_eq_true hfresh
    have hfull : q.heap.insert (q.entry d) = .error .heapOverflow :=
      if_pos (Nat.le_of_not_lt hroom)
    refine .inr ?_
    rw [addCPUDomainAnnex, if_pos hquantum, hfull]
    rfl

theorem removeCPUDomainAnnex_ok (hcur : d ≠ q.dispatchedCDA) (hheap : d ∈ q.heap.domains)
    (hcount : 1 < q.heap.count) :
    ∃ heap old, q.removeCPUDomainAnnex d = .ok ({ q with heap := heap }.notRunnable d) ∧
      old.cda = d ∧ q.heap.elements = old ::ₘ heap.elements := by
  rcases remove_cases q.heap d with ⟨heap, old, hremove, hold, helements⟩ | ⟨-, hle | hnot⟩
  · refine ⟨heap, old, ?_, hold, helements⟩
    rw [removeCPUDomainAnnex, if_neg hcur, hremove, ok_bind]
  · omega
  · exact absurd hheap hnot

theorem Queue.addFirst (h : Queue q cur) (hempty : q.ring d = [])
    (hdomain : (q.pas pa).cpuDomainAnnex = some d) :
    Safe (fun q' => Queue q' cur ∧ Frame (fun _ => True) q q' ∧ pa ∈ q'.ring d ∧ Stays q q')
      ((q.setRing d [pa]).addCPUDomainAnnex d) := by
  have hfresh : ((q.setRing d [pa]).cdas d).consumedTicks = 0 := by
    rw [consumedTicks_setRing]
    exact h.fresh d hempty
  rcases addCPUDomainAnnex_cases hfresh with ⟨heap, hadd, helements⟩ | hadd
  · rw [entry_setRing] at helements
    rw [hadd]
    have hnew : d ∉ cur ::ₘ q.heap.domains := fun hmem => (h.mem_iff d).mp hmem hempty
    have hdomains : heap.domains = d ::ₘ q.heap.domains := by
      rw [domains, helements, map_cons]
      rfl
    have hrings : Rings (q.setRing d [pa]) := by
      refine h.toRings.setRing (List.nodup_singleton pa) ?_ (fun hl => absurd hl (by simp)) ?_
      · intro p hp
        rw [List.mem_singleton.mp hp]
        exact hdomain
      · intro hd
        exact absurd (h.always d hd).2 (by rw [hempty]; exact List.not_mem_nil)
    have hring : (q.setRing d [pa]).ring = Function.update q.ring d [pa] := ring_setRing q d [pa]
    refine ⟨⟨hrings.of_eq rfl rfl, ?_, ?_, ?_⟩, ?_, ?_, ⟨rfl, rfl⟩⟩
    · show (cur ::ₘ heap.domains).Nodup
      rw [hdomains, cons_swap]
      exact nodup_cons.mpr ⟨hnew, h.nodup⟩
    · intro d'
      show d' ∈ cur ::ₘ heap.domains ↔ (q.setRing d [pa]).ring d' ≠ []
      rw [hdomains, cons_swap, mem_cons, hring]
      by_cases hd : d' = d
      · subst hd
        simp
      · rw [update_of_ne hd, or_iff_right hd]
        exact h.mem_iff d'
    · intro e he
      show e = (q.setRing d [pa]).entry e.cda
      rw [entry_setRing]
      change e ∈ heap.elements at he
      rw [helements, mem_cons] at he
      rcases he with rfl | he
      · rfl
      · exact h.keys e he
    · have hframe : Frame (fun _ => True) q (q.setRing d [pa]) := by
        refine setRing_frame q d ?_
        intro p hp _
        rw [hempty] at hp
        exact absurd hp List.not_mem_nil
      exact hframe.trans (Frame.of_eq rfl rfl rfl rfl)
    · show pa ∈ (q.setRing d [pa]).ring d
      rw [hring, update_self]
      exact List.mem_singleton_self pa
  · rw [hadd]
    rfl

theorem Queue.makeReady (h : Queue q cur) (hdomain : (q.pas pa).cpuDomainAnnex = some d) :
    Safe (fun q' => Queue q' cur ∧ Frame (fun _ => True) q q' ∧ pa ∈ q'.ring d ∧ Stays q q')
      (q.makeReady pa) := by
  have hcda : q.getCDA pa = .ok d := by
    rw [getCDA, hdomain]
  rw [DispatchQueue.makeReady, hcda]
  change Safe _ (if pa ∈ q.ring d then _ else _)
  refine Sat.ite (fun hmem => ⟨h, .refl q, hmem, rfl, rfl⟩) fun hmem => ?_
  have hpulse : Frame (fun _ => True) q
      (q.updPA pa fun p => p.resetPulse (q.cdas d).pulseInterval) := resetPulse_frame q pa _
  have hqueue := h.updPA hpulse
  have hdomain' : ((q.updPA pa fun p => p.resetPulse (q.cdas d).pulseInterval).pas pa).cpuDomainAnnex
      = some d := (hpulse.domain pa).trans hdomain
  simp only [addProcessAnnex]
  split
  · rename_i hring
    refine (hqueue.addFirst hring hdomain').mono ?_
    rintro q' ⟨hq', hframe, hin, hstays⟩
    exact ⟨hq', hpulse.trans hframe, hin, hstays.cda, hstays.pa⟩
  · -- behind the current annex
    rename_i head rest hring
    have hperm : (head :: pa :: rest).Perm (pa :: head :: rest) := .swap pa head rest
    have hold : ∀ p ∈ head :: rest, p ∈ q.ring d := fun p hp => hring ▸ hp
    have hnodup : (head :: rest).Nodup := hring ▸ h.ring_nodup d
    refine ⟨hqueue.setRing (by simp) (by rw [hring]; simp) ?_ ?_ ?_, ?_, ?_, rfl, rfl⟩
    · rw [hperm.nodup_iff]
      exact List.nodup_cons.mpr ⟨fun hin => hmem (hold pa hin), hnodup⟩
    · intro p hp
      rcases List.mem_cons.mp (hperm.mem_iff.mp hp) with rfl | hp
      · exact hdomain'
      · rw [hpulse.domain]
        exact h.ring_domain d p (hold p hp)
    · intro hd
      refine hperm.mem_iff.mpr (List.mem_cons_of_mem pa ?_)
      have hin : d ∈ q.ring d := (h.always d hd).2
      exact hring ▸ hin
    · refine hpulse.trans (setRing_frame _ d ?_)
      intro p hp _
      rw [hring] at hp
      exact hperm.mem_iff.mpr (List.mem_cons_of_mem pa hp)
    · rw [ring_setRing, update_self]
      simp

theorem Queue.makeCurrent (h : Queue q cur) (hpa : pa ∈ q.ring d) :
    ∃ q', q.makeCurrent d pa = .ok q' ∧ Queue q' cur ∧ Frame (fun _ => True) q q' ∧
      pa ∈ q'.ring d ∧ Stays q q' ∧ q'.heap = q.heap := by
  have hperm : ((q.ring d).rotate ((q.ring d).idxOf pa)).Perm (q.ring d) := List.rotate_perm _ _
  have hne : q.ring d ≠ [] := List.ne_nil_of_mem hpa
  have hmem : ∀ p ∈ q.ring d, p ∈ (q.ring d).rotate ((q.ring d).idxOf pa) :=
    fun p hp => hperm.mem_iff.mpr hp
  refine ⟨q.setRing d ((q.ring d).rotate ((q.ring d).idxOf pa)), ?_, ?_, ?_, ?_, ⟨rfl, rfl⟩, rfl⟩
  · rw [DispatchQueue.makeCurrent, if_neg (not_not_intro (h.ring_domain d pa hpa)),
      if_neg (not_not_intro hpa)]
  · refine h.setRing ?_ hne (hperm.nodup_iff.mpr (h.ring_nodup d)) ?_ ?_
    · exact List.ne_nil_of_mem (hmem pa hpa)
    · exact fun p hp => h.ring_domain d p (hperm.mem_iff.mp hp)
    · exact fun hd => hmem d (h.always d hd).2
  · exact setRing_frame q d fun p hp _ => hmem p hp
  · rw [ring_setRing, update_self]
    exact hmem pa hpa

/-! ## The heap -/

theorem Queue.exchange (h : Queue q cur) {heap : DispatchHeap} {old : Element}
    (helements : old ::ₘ heap.elements = q.entry cur ::ₘ q.heap.elements) :
    Queue { q with heap := heap } old.cda := by
  have hdomains : old.cda ::ₘ heap.domains = cur ::ₘ q.heap.domains := by
    have := congrArg (map Element.cda) helements
    rwa [map_cons, map_cons] at this
  refine ⟨h.toRings.of_eq rfl rfl, ?_, ?_, ?_⟩
  · show (old.cda ::ₘ heap.domains).Nodup
    rw [hdomains]
    exact h.nodup
  · intro d
    show d ∈ old.cda ::ₘ heap.domains ↔ _
    rw [hdomains]
    exact h.mem_iff d
  · intro e he
    have hmem : e ∈ q.entry cur ::ₘ q.heap.elements := by
      rw [← helements]
      exact mem_cons_of_mem he
    rcases mem_cons.mp hmem with rfl | hmem
    · rfl
    · exact h.keys e hmem

theorem Queue.swap (h : Queue q cur) (hd : d ∈ q.heap.domains) :
    ∃ heap, q.heap.swap (q.entry cur) d = .ok heap ∧ Queue { q with heap := heap } d := by
  rcases swap_cases q.heap (q.entry cur) d with ⟨heap, old, hok, rfl, helements⟩ | ⟨-, hnot⟩
  · exact ⟨heap, hok, h.exchange helements⟩
  · exact absurd hd hnot

theorem Queue.leave {x cur' : ℕ} (h : Queue q cur)
    (hdomains : cur ::ₘ q.heap.domains = x ::ₘ cur' ::ₘ q'.heap.domains)
    (hsub : ∀ e ∈ q'.heap.elements, e ∈ q.heap.elements) (hrings : Rings q')
    (hring : q'.ring = Function.update q.ring x [])
    (hentry : ∀ d, d ≠ x → q'.entry d = q.entry d) : Queue q' cur' := by
  have hnodup := h.nodup
  rw [hdomains, nodup_cons] at hnodup
  refine ⟨hrings, hnodup.2, ?_, ?_⟩
  · intro d
    rw [hring]
    by_cases hd : d = x
    · subst hd
      rw [update_self]
      exact iff_of_false hnodup.1 (not_not_intro rfl)
    · rw [update_of_ne hd, ← h.mem_iff d, hdomains, mem_cons (b := x), or_iff_right hd]
  · intro e he
    have hne : e.cda ≠ x := by
      rintro rfl
      exact hnodup.1 (mem_cons_of_mem (mem_map_of_mem _ he))
    rw [hentry e.cda hne]
    exact h.keys e (hsub e he)

/-! ## Domains that cannot run any more -/

theorem ring_notRunnable (q : DispatchQueue) (cda : ℕ) : (q.notRunnable cda).ring = q.ring := by
  funext d
  exact updCDA_field CPUDomainAnnex.ring q cda
    (f := fun c => c.flushQuantum q.inflation q.tickScale) (fun _ => rfl) d

theorem notRunnable_frame (q : DispatchQueue) (cda : ℕ) : Frame K q (q.notRunnable cda) := by
  have hflush : Frame K q (q.flushQuantum cda) := Frame.updCDA q cda rfl fun _ hp _ => hp
  exact hflush.trans (Frame.of_eq rfl rfl rfl rfl)

theorem cdas_notRunnable_of_ne (q : DispatchQueue) {cda : ℕ} (hd : d ≠ cda) :
    (q.notRunnable cda).cdas d = q.cdas d :=
  cdas_updCDA_of_ne q (fun c => c.flushQuantum q.inflation q.tickScale) hd

theorem Rings.notRunnable (h : Rings q) (hd : 2 ≤ d) : Rings ((q.setRing d []).notRunnable d) where
  ring_nodup d' := by
    rw [ring_notRunnable, ring_setRing]
    exact update_cases List.nodup_nil (fun d' _ => h.ring_nodup d') d'
  ring_domain d' := by
    rw [ring_notRunnable, ring_setRing]
    exact update_cases (fun _ hp => absurd hp List.not_mem_nil) (fun d' _ => h.ring_domain d') d'
  fresh d' hring := by
    by_cases hne : d' = d
    · subst hne
      have hflush := cdas_updCDA_self (q.setRing d' []) d' fun c =>
        c.flushQuantum q.inflation q.tickScale
      exact congrArg CPUDomainAnnex.consumedTicks hflush
    · rw [ring_notRunnable, ring_setRing, update_of_ne hne] at hring
      rw [cdas_notRunnable_of_ne _ hne, consumedTicks_setRing]
      exact h.fresh d' hring
  own := h.own
  always i hi := by
    rw [ring_notRunnable, ring_setRing, update_of_ne (by omega)]
    exact h.always i hi

theorem stillRunnable_cases (canRun : ℕ → Bool) (hl : l ≠ []) :
    (∃ pa rest, CPUDomainAnnex.stillRunnable canRun l = (true, pa :: rest) ∧ canRun pa = true ∧
        (pa :: rest).Subperm l ∧ ∀ p ∈ l, canRun p = true → p ∈ pa :: rest) ∨
      (CPUDomainAnnex.stillRunnable canRun l = (false, []) ∧ ∀ p ∈ l, canRun p = false) := by
  cases l with
  | nil => exact absurd rfl hl
  | cons cur rest =>
    by_cases hcur : canRun cur = true
    · refine .inl ⟨cur, rest, ?_, hcur, .refl _, fun p hp _ => hp⟩
      rw [CPUDomainAnnex.stillRunnable, if_pos hcur]
    rw [Bool.not_eq_true] at hcur
    rw [CPUDomainAnnex.stillRunnable, if_neg (by simp [hcur])]
    -- the annexes passed over are those before the first that can run
    have hsplit := List.takeWhile_append_dropWhile (p := fun pa => !canRun pa) (l := rest)
    have htaken : ∀ p ∈ rest.takeWhile fun pa => !canRun pa, canRun p = false := by
      intro p hp
      have hall := List.all_eq_true.mp (List.all_takeWhile (p := fun pa => !canRun pa)
        (l := rest)) p hp
      simpa using hall
    cases hdrop : rest.dropWhile fun pa => !canRun pa with
    | nil =>
      refine .inr ⟨rfl, fun p hp => ?_⟩
      rw [hdrop, List.append_nil] at hsplit
      rcases List.mem_cons.mp hp with rfl | hp
      · exact hcur
      · exact htaken p (by rw [hsplit]; exact hp)
    | cons pa more =>
      have hpa : canRun pa = true := by
        have := List.head?_dropWhile_not (fun pa => !canRun pa) rest
        simpa [hdrop] using this
      have hperm : (pa :: more ++ [cur]).Perm (cur :: pa :: more) :=
        List.perm_append_singleton cur (pa :: more)
      refine .inl ⟨pa, more ++ [cur], rfl, hpa, ?_, ?_⟩
      · refine hperm.subperm.trans (List.Sublist.subperm (List.Sublist.cons_cons cur ?_))
        rw [← hdrop]
        exact List.dropWhile_sublist _
      · intro p hp hrun
        refine hperm.mem_iff.mpr ?_
        rcases List.mem_cons.mp hp with rfl | hp
        · exact List.mem_cons_self
        · rw [← hsplit, List.mem_append, hdrop] at hp
          rcases hp with hp | hp
          · rw [htaken p hp] at hrun
            cases hrun
          · exact List.mem_cons_of_mem cur hp

end K42.DispatchQueue
