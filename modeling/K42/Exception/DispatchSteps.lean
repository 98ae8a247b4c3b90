import K42.Exception.DispatchInvariant

/-!
# The operations of the dispatch queue

Each operation is taken through `Queue`: which domain is out of the heap before and
after it, and which annexes may leave the rings. `Sound` is the invariant between
operations: with the queue it has the annexes put off and the threads that wait.
-/

open Function (update_of_ne update_self update)

namespace K42.DispatchQueue

open DispatchHeap Outcome

variable {q q' : DispatchQueue} {cur d pa : ℕ} {K : ℕ → Prop}

/-! ## Cleaning the heap -/

theorem Queue.stillRunnable (h : Queue q cur) (hring : q.ring d ≠ [])
    (hK : ∀ p, K p → (q.pas p).canRun = true) :
    (∃ l pa, q.stillRunnable d = .ok (true, q.setRing d l) ∧ Queue (q.setRing d l) cur ∧
        Frame K q (q.setRing d l) ∧ l.head? = some pa ∧ (q.pas pa).canRun = true) ∨
      (q.stillRunnable d = .ok (false, q.setRing d []) ∧ 2 ≤ d ∧ Frame K q (q.setRing d [])) := by
  rw [DispatchQueue.stillRunnable, if_neg hring]
  rcases stillRunnable_cases (fun p => (q.pas p).canRun) hring with
    ⟨pa, rest, heq, hpa, hsub, hkeep⟩ | ⟨heq, hnone⟩
  · refine .inl ⟨pa :: rest, pa, ?_, ?_, ?_, rfl, hpa⟩
    · rw [heq]
    · refine h.setRing (List.cons_ne_nil pa rest) hring ?_ ?_ ?_
      · obtain ⟨l, hperm, hsublist⟩ := hsub
        exact hperm.nodup_iff.mp ((h.ring_nodup d).sublist hsublist)
      · exact fun p hp => h.ring_domain d p (hsub.subset hp)
      · exact fun hd => hkeep d (h.always d hd).2 (h.always d hd).1
    · exact setRing_frame q d fun p hp hKp => hkeep p hp (hK p hKp)
  · refine .inr ⟨?_, ?_, ?_⟩
    · rw [heq]
    · by_contra hlt
      have hd : d < 2 := by omega
      have := hnone d (h.always d hd).2
      rw [(h.always d hd).1] at this
      cases this
    · refine setRing_frame q d fun p hp hKp => ?_
      have := hnone p hp
      rw [hK p hKp] at this
      cases this

theorem Queue.one_lt_count_of_cur (h : Queue q cur) (hcur : 2 ≤ cur) : 1 < q.heap.count := by
  have hmem : ∀ i < 2, i ∈ q.heap.domains := fun i hi =>
    h.mem_heap (List.ne_nil_of_mem (h.always i hi).2) (by omega)
  obtain ⟨m, hm⟩ := Multiset.exists_cons_of_mem (hmem 0 (by omega))
  have hone := hmem 1 (by omega)
  rw [hm, Multiset.mem_cons] at hone
  have hpos := Multiset.card_pos_iff_exists_mem.mpr ⟨1, hone.resolve_left (by omega)⟩
  have hcard := card_domains q.heap
  rw [hm, Multiset.card_cons] at hcard
  omega

theorem entry_notRunnable_of_ne (q : DispatchQueue) {cda : ℕ} (l : List ℕ) (hd : d ≠ cda) :
    ((q.setRing cda l).notRunnable cda).entry d = q.entry d := by
  rw [← entry_setRing q cda l, entry, cdas_notRunnable_of_ne _ hd]
  rfl

theorem Queue.retire {x cur' : ℕ} (h : Queue q cur) (hx : 2 ≤ x) (heap : DispatchHeap)
    (hdomains : cur ::ₘ q.heap.domains = x ::ₘ cur' ::ₘ heap.domains)
    (hsub : ∀ e ∈ heap.elements, e ∈ q.heap.elements) :
    Queue { (q.setRing x []).notRunnable x with heap := heap } cur' := by
  refine h.leave hdomains hsub ((h.toRings.notRunnable hx).of_eq rfl rfl) ?_ ?_
  · show ((q.setRing x []).notRunnable x).ring = _
    rw [ring_notRunnable, ring_setRing]
  · exact fun d hd => entry_notRunnable_of_ne q [] hd

theorem Queue.cleanHeap (h : Queue q cur) (hK : ∀ p, K p → (q.pas p).canRun = true) {fuel : ℕ}
    (hfuel : q.heap.count ≤ fuel) :
    ∃ q', cleanHeap fuel q = .ok q' ∧ Queue q' cur ∧ Frame K q q' ∧ Stays q q' ∧
      q'.ring cur = q.ring cur ∧ q'.pas = q.pas ∧
      ∃ pa, (q'.ring (q'.heap.element 0).cda).head? = some pa ∧ (q'.pas pa).canRun = true := by
  induction fuel generalizing q with
  | zero =>
    have := h.count_pos
    omega
  | succ fuel ih =>
    have hpos := h.count_pos
    have hhead : (q.heap.element 0).cda ∈ q.heap.domains :=
      Multiset.mem_map_of_mem _ (getHead_mem hpos)
    have hring := (h.mem_iff _).mp (Multiset.mem_cons_of_mem hhead)
    have hne : (q.heap.element 0).cda ≠ cur := fun heq => h.cur_notMem (heq ▸ hhead)
    rw [DispatchQueue.cleanHeap, getHead_ok hpos]
    rcases h.stillRunnable hring hK with
      ⟨l, pa, hstill, hqueue, hframe, hl, hpa⟩ | ⟨hstill, htwo, hframe⟩
    · refine ⟨q.setRing (q.heap.element 0).cda l, ?_, hqueue, hframe, ⟨rfl, rfl⟩, ?_, rfl, pa, ?_,
        hpa⟩
      · show (q.stillRunnable (q.heap.element 0).cda >>= _) = _
        rw [hstill]
        rfl
      · rw [ring_setRing, update_of_ne (Ne.symm hne)]
      · rw [ring_setRing]
        show (update q.ring (q.heap.element 0).cda l (q.heap.element 0).cda).head? = _
        rw [update_self]
        exact hl
    · -- the head goes
      have hone : 1 < q.heap.count := h.one_lt_count hhead fun i hi => by omega
      obtain ⟨heap, hdelete, helements⟩ := deleteHead_ok hone
      have hdomains : q.heap.domains = (q.heap.element 0).cda ::ₘ heap.domains := by
        rw [domains, helements, Multiset.map_cons]
        rfl
      have hswapped : cur ::ₘ q.heap.domains = (q.heap.element 0).cda ::ₘ cur ::ₘ heap.domains := by
        rw [hdomains, Multiset.cons_swap]
      have hqueue := h.retire htwo heap hswapped fun e he => by
        rw [helements]
        exact Multiset.mem_cons_of_mem he
      have hcount : heap.count ≤ fuel := by
        have hcard := congrArg Multiset.card hdomains
        rw [Multiset.card_cons, card_domains, card_domains] at hcard
        omega
      obtain ⟨q', hok, hqueue', hframe', hstays, hcur, hpas, hrun⟩ := ih hqueue hK hcount
      have hretired : Frame K q
          { (q.setRing (q.heap.element 0).cda []).notRunnable (q.heap.element 0).cda with
            heap := heap } :=
        (hframe.trans (notRunnable_frame _ _)).trans (Frame.of_eq rfl rfl rfl rfl)
      refine ⟨q', ?_, hqueue', hretired.trans hframe', ⟨hstays.cda, hstays.pa⟩, ?_, hpas, hrun⟩
      · show (q.stillRunnable (q.heap.element 0).cda >>= _) = _
        rw [hstill]
        show (q.heap.deleteHead >>= _) = _
        rw [hdelete]
        exact hok
      · rw [hcur]
        show ((q.setRing _ []).notRunnable _).ring cur = _
        rw [ring_notRunnable, ring_setRing, update_of_ne (Ne.symm hne)]

/-! ## Switching between domains -/

theorem Dispatched.domain (h : Dispatched q) :
    (q.pas q.dispatchedPA).cpuDomainAnnex = some q.dispatchedCDA :=
  h.queue.ring_domain _ _ h.ring

/-- The current annex of the domain can run. -/
def CurrentRuns (q : DispatchQueue) (cda : ℕ) : Prop :=
  ∃ pa, (q.ring cda).head? = some pa ∧ (q.pas pa).canRun = true

theorem getCurrentProcessAnnex_ok (h : CurrentRuns q d) :
    ∃ pa ∈ q.ring d, q.getCurrentProcessAnnex d = .ok pa := by
  obtain ⟨pa, hhead, hrun⟩ := h
  refine ⟨pa, List.mem_of_mem_head? hhead, ?_⟩
  rw [getCurrentProcessAnnex]
  cases hring : q.ring d with
  | nil =>
    rw [hring] at hhead
    cases hhead
  | cons pa' rest =>
    rw [hring] at hhead
    cases hhead
    exact if_pos hrun

theorem Queue.yieldTo (h : Queue q q.dispatchedCDA) (hK : ∀ p, K p → (q.pas p).canRun = true)
    (hrun : CurrentRuns q (q.heap.element 0).cda) :
    ∃ q', q.yieldTo (q.heap.element 0).cda = .ok q' ∧ Queue q' q'.dispatchedCDA ∧ Frame K q q' ∧
      CurrentRuns q' q'.dispatchedCDA := by
  have hpos := h.count_pos
  have hne : (q.heap.element 0).cda ≠ q.dispatchedCDA := by
    have hhead := Multiset.mem_map_of_mem Element.cda (getHead_mem hpos)
    exact fun heq => h.cur_notMem (heq ▸ hhead)
  obtain ⟨next, hnext, hcan⟩ := hrun
  rw [DispatchQueue.yieldTo]
  rcases h.stillRunnable h.ring_cur hK with
    ⟨l, pa, hstill, hqueue, hframe, hl, hpa⟩ | ⟨hstill, htwo, hframe⟩
  · simp only [hstill, ok_bind, ↓reduceIte]
    split
    · obtain ⟨heap, hreplace, helements⟩ := replaceHead_ok hpos
        ((q.setRing q.dispatchedCDA l).entry q.dispatchedCDA)
      have hok : (q.setRing q.dispatchedCDA l).heap.replaceHead _ = .ok heap := hreplace
      rw [hok]
      refine ⟨_, rfl, (hqueue.exchange helements).of_eq rfl rfl rfl,
        hframe.trans (Frame.of_eq rfl rfl rfl rfl), next, ?_, hcan⟩
      show ((q.setRing q.dispatchedCDA l).ring (q.heap.element 0).cda).head? = _
      rw [ring_setRing, update_of_ne hne]
      exact hnext
    · refine ⟨_, rfl, hqueue, hframe, pa, ?_, hpa⟩
      show ((q.setRing q.dispatchedCDA l).ring q.dispatchedCDA).head? = _
      rw [ring_setRing, update_self]
      exact hl
  · rw [hstill]
    obtain ⟨heap, hdelete, helements⟩ := deleteHead_ok (h.one_lt_count_of_cur htwo)
    have hdomains : q.dispatchedCDA ::ₘ q.heap.domains =
        q.dispatchedCDA ::ₘ (q.heap.element 0).cda ::ₘ heap.domains := by
      rw [domains, helements, Multiset.map_cons]
      rfl
    have hretired := h.retire htwo heap hdomains fun e he => by
      rw [helements]
      exact Multiset.mem_cons_of_mem he
    show ∃ q', (q.heap.deleteHead >>= _) = _ ∧ _
    rw [hdelete]
    refine ⟨_, rfl, hretired.of_eq rfl rfl rfl,
      (hframe.trans (notRunnable_frame _ _)).trans (Frame.of_eq rfl rfl rfl rfl), next, ?_, hcan⟩
    show (((q.setRing _ []).notRunnable _).ring (q.heap.element 0).cda).head? = _
    rw [ring_notRunnable, ring_setRing, update_of_ne hne]
    exact hnext

theorem Dispatched.chooseDomain (h : Dispatched q) (hK : ∀ p, K p → (q.pas p).canRun = true) :
    ∃ q', q.chooseDomain = .ok q' ∧ Dispatched q' ∧ Frame K q q' := by
  obtain ⟨q₁, hclean, hqueue, hframe, hstays, -, hpas, hrun⟩ := h.queue.cleanHeap hK le_rfl
  rw [← hstays.cda] at hqueue
  have hK₁ : ∀ p, K p → (q₁.pas p).canRun = true := by
    rw [hpas]
    exact hK
  obtain ⟨q₂, hyield, hqueue₂, hframe₂, hrun₂⟩ := hqueue.yieldTo hK₁ hrun
  obtain ⟨pa, hpa, hcurrent⟩ := getCurrentProcessAnnex_ok hrun₂
  refine ⟨{ q₂ with dispatchedPA := pa }, ?_, ⟨hqueue₂.of_eq rfl rfl rfl, hpa⟩,
    (hframe.trans hframe₂).trans (Frame.of_eq rfl rfl rfl rfl)⟩
  rw [DispatchQueue.chooseDomain, hclean]
  show (q₁.heap.getHead >>= _) = _
  rw [getHead_ok hqueue.count_pos]
  show (q₁.yieldTo _ >>= _) = _
  rw [hyield]
  show (q₂.getCurrentProcessAnnex _ >>= _) = _
  rw [hcurrent]
  rfl

theorem Queue.switchToKernel (h : Queue q cur) (hcur : cur ≠ KERNEL) :
    Safe (fun q' => Dispatched q' ∧ Frame (fun _ => True) q q' ∧ q'.dispatchedPA = KERNEL ∧
      q'.dispatchedCDA = KERNEL) (q.switchToKernel cur) := by
  have hown := (h.own KERNEL (by decide)).1
  have hcda : q.getCDA KERNEL = .ok KERNEL := by
    rw [getCDA, hown]
  rw [DispatchQueue.switchToKernel, hcda, ok_bind]
  have hqueue : Queue { q with dispatchedPA := KERNEL, dispatchedCDA := KERNEL } cur :=
    h.of_eq rfl rfl rfl
  refine Sat.bind (hqueue.makeReady hown) ?_
  rintro q₁ ⟨hqueue₁, hframe₁, hmem₁, hstays₁⟩
  obtain ⟨q₂, hcurrent, hqueue₂, hframe₂, hmem₂, hstays₂, -⟩ := hqueue₁.makeCurrent hmem₁
  obtain ⟨heap, hswap, hqueue₃⟩ :=
    hqueue₂.swap (hqueue₂.mem_heap (List.ne_nil_of_mem hmem₂) (Ne.symm hcur))
  have hstart : Frame (fun _ => True) q { q with dispatchedPA := KERNEL, dispatchedCDA := KERNEL } :=
    Frame.of_eq rfl rfl rfl rfl
  have hpa : q₂.dispatchedPA = KERNEL := hstays₂.pa.trans hstays₁.pa
  have hcda₂ : q₂.dispatchedCDA = KERNEL := hstays₂.cda.trans hstays₁.cda
  refine Sat.of_ok (a := { q₂ with heap := heap }) ?_ ⟨⟨?_, ?_⟩, ?_, hpa, hcda₂⟩
  · rw [hcurrent]
    show (q₂.heap.swap _ _ >>= _) = _
    rw [hswap]
    rfl
  · show Queue { q₂ with heap := heap } q₂.dispatchedCDA
    rw [hcda₂]
    exact hqueue₃.of_eq rfl rfl rfl
  · show q₂.dispatchedPA ∈ q₂.ring q₂.dispatchedCDA
    rw [hcda₂, hpa]
    exact hmem₂
  · exact ((hstart.trans hframe₁).trans hframe₂).trans (Frame.of_eq rfl rfl rfl rfl)

theorem Queue.giveWay (h : Queue q q.dispatchedCDA) (hK : ∀ p, K p → (q.pas p).canRun = true)
    (hne : d ≠ q.dispatchedCDA) (hpa : pa ∈ q.ring d) :
    ∃ q', q.giveWay d = .ok q' ∧ Queue q' d ∧ q'.dispatchedCDA = d ∧ Frame K q q' ∧
      pa ∈ q'.ring d := by
  have hheap : d ∈ q.heap.domains := h.mem_heap (List.ne_nil_of_mem hpa) hne
  rw [DispatchQueue.giveWay]
  rcases h.stillRunnable h.ring_cur hK with
    ⟨l, -, hstill, hqueue, hframe, -, -⟩ | ⟨hstill, htwo, hframe⟩
  · obtain ⟨heap, hswap, hqueue'⟩ := hqueue.swap hheap
    simp only [hstill, ok_bind, ↓reduceIte, hswap]
    refine ⟨_, rfl, hqueue'.of_eq rfl rfl rfl, rfl, hframe.trans (Frame.of_eq rfl rfl rfl rfl), ?_⟩
    show pa ∈ (q.setRing q.dispatchedCDA l).ring d
    rw [ring_setRing, update_of_ne hne]
    exact hpa
  · have hone := h.one_lt_count_of_cur htwo
    rcases remove_cases q.heap d with ⟨heap, old, hremove, rfl, helements⟩ | ⟨-, hcount | hnot⟩
    · have hdomains : q.dispatchedCDA ::ₘ q.heap.domains =
          q.dispatchedCDA ::ₘ old.cda ::ₘ heap.domains := by
        rw [domains, helements, Multiset.map_cons]
        rfl
      have hretired := h.retire htwo heap hdomains fun e he => by
        rw [helements]
        exact Multiset.mem_cons_of_mem he
      have hremove' : ((q.setRing q.dispatchedCDA []).notRunnable q.dispatchedCDA).heap.remove
          old.cda = .ok heap := hremove
      simp only [hstill, ok_bind, Bool.false_eq_true, ↓reduceIte, hremove']
      refine ⟨_, rfl, hretired.of_eq rfl rfl rfl, rfl,
        (hframe.trans (notRunnable_frame _ _)).trans (Frame.of_eq rfl rfl rfl rfl), ?_⟩
      show pa ∈ ((q.setRing _ []).notRunnable _).ring old.cda
      rw [ring_notRunnable, ring_setRing, update_of_ne hne]
      exact hpa
    · omega
    · exact absurd hheap hnot

theorem Dispatched.switchTo (h : Dispatched q) (hK : ∀ p, K p → (q.pas p).canRun = true)
    (hdomain : (q.pas pa).cpuDomainAnnex = some d) :
    Safe (fun q' => Dispatched q' ∧ Frame K q q' ∧ q'.dispatchedPA = pa ∧ q'.dispatchedCDA = d)
      (q.switchTo pa d) := by
  rw [DispatchQueue.switchTo]
  refine Sat.ite (fun hne => ?_) fun heq => ?_
  · refine Sat.bind (h.queue.makeReady hdomain) ?_
    rintro q₁ ⟨hqueue₁, hframe₁, hmem₁, hstays₁⟩
    obtain ⟨q₂, hcurrent, hqueue₂, hframe₂, hmem₂, hstays₂, -⟩ := hqueue₁.makeCurrent hmem₁
    have hframe : Frame K q q₂ := (hframe₁.trans hframe₂).mono fun _ _ => trivial
    have hK₂ : ∀ p, K p → (q₂.pas p).canRun = true := fun p hp => hframe.canRun p (hK p hp)
    rw [← hstays₁.cda, ← hstays₂.cda] at hqueue₂
    rw [hcurrent, ok_bind]
    by_cases hd : q₂.dispatchedCDA = d
    · subst hd
      simp only [ne_eq, not_true_eq_false, ↓reduceIte, ok_bind]
      exact ⟨⟨hqueue₂.of_eq rfl rfl rfl, hmem₂⟩, hframe.trans (Frame.of_eq rfl rfl rfl rfl), rfl,
        rfl⟩
    · obtain ⟨q₃, hgive, hqueue₃, hcda, hframe₃, hmem₃⟩ := hqueue₂.giveWay hK₂ (Ne.symm hd) hmem₂
      simp only [ne_eq, hd, not_false_eq_true, ↓reduceIte, hgive, ok_bind]
      refine ⟨⟨?_, ?_⟩, (hframe.trans hframe₃).trans (Frame.of_eq rfl rfl rfl rfl), rfl, hcda⟩
      · show Queue _ q₃.dispatchedCDA
        rw [hcda]
        exact hqueue₃.of_eq rfl rfl rfl
      · show pa ∈ q₃.ring q₃.dispatchedCDA
        rw [hcda]
        exact hmem₃
  · rw [not_not] at heq
    refine ⟨h, .refl q, heq, ?_⟩
    have hdispatched := h.domain
    rw [heq, hdomain] at hdispatched
    exact (Option.some.inj hdispatched).symm

end K42.DispatchQueue
