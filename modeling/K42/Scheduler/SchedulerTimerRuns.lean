import K42.Scheduler.SchedulerTimerSteps

/-!
# The timer does not oversleep

A timer interrupt sorts the immediate list, moves the events of the buckets that have
come up, and sets the timer anew; then the handlers of the expired events run. Every run
of calls and interrupts keeps the timer sorted as long as no step meets one of the places
where an earlier event of the table is overlooked.
-/

namespace K42

namespace SchedulerTimer

variable {α : Type} [DecidableEq α] {t r b : SchedulerTimer α} {e x : α}

/-! ## What an interrupt leaves alone -/

/-- Times, clock and request are as before, and no event has come into the table. -/
structure Kept (b t : SchedulerTimer α) : Prop where
  event : t.event = b.event
  now : t.now = b.now
  requested : t.requested = b.requested
  table : ∀ x i, t.lists.head x = some (.slot i) → b.lists.head x = some (.slot i)

omit [DecidableEq α] in
theorem Kept.refl (t : SchedulerTimer α) : Kept t t := ⟨rfl, rfl, rfl, fun _ _ h => h⟩

omit [DecidableEq α] in
theorem Kept.trans (h : Kept b t) (h' : Kept t r) : Kept b r where
  event := h'.event.trans h.event
  now := h'.now.trans h.now
  requested := h'.requested.trans h.requested
  table := fun x i hx => h.table x i (h'.table x i hx)

theorem head_expire {l : TimerList} : (t.expire e).lists.head x = some l ↔
      (x = e ∧ l = .runList) ∨ (x ≠ e ∧ t.lists.head x = some l) := by
  unfold expire prepend lockedDetach
  rw [AutoLists.head_prepend, AutoLists.head_detach]
  by_cases hx : x = e
  · subst x
    simp [eq_comm]
  · simp [hx]

theorem head_expire_slot {i : SysTime} :
    (t.expire e).lists.head x = some (.slot i) ↔ x ≠ e ∧ t.lists.head x = some (.slot i) := by
  rw [head_expire]
  simp

theorem head_expire_immediate :
    (t.expire e).lists.head x = some .immediate ↔ x ≠ e ∧ t.lists.head x = some .immediate := by
  rw [head_expire]
  simp

theorem Kept.expire (t : SchedulerTimer α) (e : α) : Kept t (t.expire e) :=
  ⟨rfl, rfl, rfl, fun _ _ hx => (head_expire_slot.1 hx).2⟩

theorem Placed.expire (h : Placed t) (e : α) : Placed (t.expire e) where
  agree := h.agree.move e .runList
  slot := fun x i hx => h.slot x i (head_expire_slot.1 hx).2
  immediate := fun x hx => h.immediate x (head_expire_immediate.1 hx).2
  nondecreasing := h.nondecreasing
  behind := h.behind

theorem Anchored.expire (h : Anchored t) (he : t.lists.head e ≠ some .immediate) :
    Anchored (t.expire e) where
  anchor := by
    intro a ha
    obtain ⟨hhead, hwhen⟩ := h.anchor a ha
    refine ⟨head_expire_immediate.2 ⟨?_, hhead⟩, hwhen⟩
    rintro rfl
    exact he hhead
  first := fun x hx => h.first x (head_expire_immediate.1 hx).2

/-! ## The immediate list -/

/-- The immediate list has been looked through up to `rest`. -/
structure Scanned (t : SchedulerTimer α) (rest : List α) : Prop where
  placed : Placed t
  nodup : rest.Nodup
  mem : ∀ x ∈ rest, t.lists.head x = some .immediate
  anchor : ∀ a, t.anchor = some a →
    t.lists.head a = some .immediate ∧ t.when = t.event a ∧ a ∉ rest
  first : ∀ x, t.lists.head x = some .immediate →
    x ∈ rest ∨ ∃ a, t.anchor = some a ∧ t.event a ≤ t.event x

theorem Scanned.sortImmediate {rest : List α} (h : Scanned t (e :: rest)) :
    Scanned (t.sortImmediate e) rest := by
  obtain ⟨hfresh, hnodup⟩ := List.nodup_cons.1 h.nodup
  have hne : ∀ x ∈ rest, x ≠ e := by
    rintro x hx rfl
    exact hfresh hx
  unfold SchedulerTimer.sortImmediate
  split
  · refine ⟨h.placed.expire e, hnodup, ?_, ?_, ?_⟩
    · intro x hx
      exact head_expire_immediate.2 ⟨hne x hx, h.mem x (List.mem_cons_of_mem _ hx)⟩
    · intro a ha
      obtain ⟨hhead, hwhen, hnot⟩ := h.anchor a ha
      rw [List.mem_cons, not_or] at hnot
      exact ⟨head_expire_immediate.2 ⟨hnot.1, hhead⟩, hwhen, hnot.2⟩
    · intro x hx
      obtain ⟨hxe, hx⟩ := head_expire_immediate.1 hx
      rcases h.first x hx with hmem | hfirst
      · rcases List.mem_cons.1 hmem with rfl | hmem
        · exact absurd rfl hxe
        · exact .inl hmem
      · exact .inr hfirst
  · split
    · rename_i hbefore
      rw [noAnchorOr_eq] at hbefore
      refine ⟨⟨h.placed.agree, h.placed.slot, h.placed.immediate, h.placed.nondecreasing,
        h.placed.behind⟩, hnodup, fun x hx => h.mem x (List.mem_cons_of_mem _ hx), ?_, ?_⟩
      · rintro a ⟨⟩
        exact ⟨h.mem e List.mem_cons_self, rfl, hfresh⟩
      · intro x hx
        rcases h.first x hx with hmem | ⟨a, ha, hle⟩
        · rcases List.mem_cons.1 hmem with rfl | hmem
          · exact .inr ⟨x, rfl, UInt64.le_refl _⟩
          · exact .inl hmem
        · exact .inr ⟨e, rfl, UInt64.le_trans (of_decide_eq_true (hbefore a ha)) hle⟩
    · rename_i hbefore
      rw [noAnchorOr_eq] at hbefore
      push Not at hbefore
      obtain ⟨a, ha, hlt⟩ := hbefore
      have hle : t.event a ≤ t.event e := UInt64.le_of_lt (by simpa using hlt)
      refine ⟨h.placed, hnodup, fun x hx => h.mem x (List.mem_cons_of_mem _ hx), ?_, ?_⟩
      · intro c hc
        obtain ⟨hhead, hwhen, hnot⟩ := h.anchor c hc
        exact ⟨hhead, hwhen, fun hmem => hnot (List.mem_cons_of_mem _ hmem)⟩
      · intro x hx
        rcases h.first x hx with hmem | hfirst
        · rcases List.mem_cons.1 hmem with rfl | hmem
          · exact .inr ⟨a, ha, hle⟩
          · exact .inl hmem
        · exact .inr hfirst

theorem Kept.sortImmediate (t : SchedulerTimer α) (e : α) : Kept t (t.sortImmediate e) := by
  unfold SchedulerTimer.sortImmediate
  split
  · exact Kept.expire t e
  · split
    · exact ⟨rfl, rfl, rfl, fun _ _ h => h⟩
    · exact Kept.refl t

theorem Scanned.foldl : ∀ {rest : List α} {t : SchedulerTimer α}, Scanned t rest →
    Scanned (rest.foldl SchedulerTimer.sortImmediate t) [] ∧
      Kept t (rest.foldl SchedulerTimer.sortImmediate t) := by
  intro rest
  induction rest with
  | nil => exact fun h => ⟨h, Kept.refl _⟩
  | cons e rest ih =>
    intro t h
    obtain ⟨hscanned, hkept⟩ := ih h.sortImmediate
    exact ⟨hscanned, (Kept.sortImmediate t e).trans hkept⟩

omit [DecidableEq α] in
theorem Scanned.anchored (h : Scanned t []) : Anchored t where
  anchor := fun a ha => ⟨(h.anchor a ha).1, (h.anchor a ha).2.1⟩
  first := by
    intro x hx
    rcases h.first x hx with hmem | hfirst
    · cases hmem
    · exact hfirst

/-! ## The buckets that have come up -/

/-- The bucket in slot `i` has been moved up to `rest`; what is left of it comes after the
bucket of `stop`. -/
structure Moved (stop : SysTime) (i : SysTime) (t : SchedulerTimer α) (rest : List α) : Prop where
  placed : Placed t
  anchored : Anchored t
  nodup : rest.Nodup
  mem : ∀ x ∈ rest, t.lists.head x = some (.slot i)
  left : ∀ x, t.lists.head x = some (.slot i) → x ∈ rest ∨ bucket stop < bucket (t.event x)

theorem Anchored.moveImmediate (h : Anchored t) (he : t.lists.head e ≠ some .immediate) :
    let t' := (t.lockedDetach e).append .immediate e
    Anchored (if t'.noAnchorOr (fun w => t'.event e ≤ w) then t'.setAnchor e else t') := by
  intro t'
  have hhead : ∀ x, t'.lists.head x = some .immediate ↔
      x = e ∨ t.lists.head x = some .immediate := by
    intro x
    change ((t.lists.detach e).append .immediate e).head x = _ ↔ _
    rw [AutoLists.head_append, AutoLists.head_detach]
    by_cases hx : x = e
    · simp [hx]
    · simp [hx]
  split
  · rename_i hbefore
    rw [noAnchorOr_eq] at hbefore
    refine ⟨?_, ?_⟩
    · rintro a ⟨⟩
      exact ⟨(hhead e).2 (.inl rfl), rfl⟩
    · intro x hx
      refine ⟨e, rfl, ?_⟩
      rcases (hhead x).1 hx with rfl | hx
      · exact UInt64.le_refl _
      · obtain ⟨a, ha, hle⟩ := h.first x hx
        exact UInt64.le_trans (of_decide_eq_true (hbefore a ha)) hle
  · rename_i hbefore
    rw [noAnchorOr_eq] at hbefore
    push Not at hbefore
    obtain ⟨a, ha, hlt⟩ := hbefore
    have hle : t.event a ≤ t.event e :=
      UInt64.le_of_lt (UInt64.not_le.1 fun hcon => hlt (decide_eq_true hcon))
    refine ⟨?_, ?_⟩
    · intro c hc
      exact ⟨(hhead c).2 (.inr (h.anchor c hc).1), (h.anchor c hc).2⟩
    · intro x hx
      rcases (hhead x).1 hx with rfl | hx
      · exact ⟨a, ha, hle⟩
      · exact h.first x hx

theorem head_moveImmediate {l : TimerList} :
    ((t.lockedDetach e).append .immediate e).lists.head x = some l ↔
      (x = e ∧ l = .immediate) ∨ (x ≠ e ∧ t.lists.head x = some l) := by
  unfold append lockedDetach
  rw [AutoLists.head_append, AutoLists.head_detach]
  by_cases hx : x = e
  · subst x
    simp [eq_comm]
  · simp [hx]

theorem Placed.moveImmediate (h : Placed t) (hnow : bucket (t.event e) ≤ bucket t.now) :
    let t' := (t.lockedDetach e).append .immediate e
    Placed (if t'.noAnchorOr (fun w => t'.event e ≤ w) then t'.setAnchor e else t') := by
  intro t'
  have hplaced : Placed t' := by
    refine ⟨(h.agree.detach e).append (by simp), ?_, ?_, h.nondecreasing, h.behind⟩
    · intro x i hx
      rcases head_moveImmediate.1 hx with ⟨-, hl⟩ | ⟨-, hx⟩
      · cases hl
      · exact h.slot x i hx
    · intro x hx
      rcases head_moveImmediate.1 hx with ⟨rfl, -⟩ | ⟨-, hx⟩
      · exact hnow
      · exact h.immediate x hx
  split
  · exact hplaced.setAnchorWhen _ _
  · exact hplaced

theorem Kept.migrateEvent (stop : SysTime) (t : SchedulerTimer α) (e : α) :
    Kept t (t.migrateEvent stop e) := by
  unfold SchedulerTimer.migrateEvent
  split
  · exact Kept.expire t e
  · split
    · have hslot : ∀ x i, ((t.lockedDetach e).append .immediate e).lists.head x = some (.slot i) →
          t.lists.head x = some (.slot i) := by
        intro x i hx
        rcases head_moveImmediate.1 hx with ⟨-, hl⟩ | ⟨-, hx⟩
        · cases hl
        · exact hx
      dsimp only
      split
      · exact ⟨rfl, rfl, rfl, hslot⟩
      · exact ⟨rfl, rfl, rfl, hslot⟩
    · exact Kept.refl t

theorem head_migrateEvent_of_ne {stop : SysTime} (hx : x ≠ e) :
    (t.migrateEvent stop e).lists.head x = t.lists.head x := by
  unfold migrateEvent
  split
  · simp [expire, prepend, lockedDetach, hx]
  · split
    · dsimp only
      split <;> simp [setAnchor, append, lockedDetach, hx]
    · rfl

theorem later_of_inTable_migrateEvent {stop : SysTime} (he : (t.migrateEvent stop e).InTable e) :
    bucket stop < bucket (t.event e) := by
  by_contra hcon
  obtain ⟨i, hi⟩ := he
  have hend : t.event e ≤ bucketEnd stop := le_bucketEnd.2 (not_lt.1 hcon)
  unfold migrateEvent at hi
  split at hi
  · exact (head_expire_slot.1 hi).1 rfl
  · have hhead : ((t.lockedDetach e).append .immediate e).lists.head e ≠ some (.slot i) := by
      intro hslot
      rcases head_moveImmediate.1 hslot with ⟨-, hl⟩ | ⟨hne, -⟩
      · cases hl
      · exact hne rfl
    dsimp only at hi
    split at hi
    · exact hhead hi
    · exact hhead hi

theorem Moved.migrateEvent {i : SysTime} {rest : List α} (h : Moved t.now i t (e :: rest)) :
    Moved t.now i (t.migrateEvent t.now e) rest := by
  obtain ⟨hfresh, hnodup⟩ := List.nodup_cons.1 h.nodup
  have he := h.mem e List.mem_cons_self
  have himm : t.lists.head e ≠ some .immediate := by
    rw [he]
    exact nofun
  have hsorted : Placed (t.migrateEvent t.now e) ∧ Anchored (t.migrateEvent t.now e) := by
    unfold SchedulerTimer.migrateEvent
    split
    · exact ⟨h.placed.expire e, h.anchored.expire himm⟩
    · split
      · rename_i hend
        exact ⟨h.placed.moveImmediate (le_bucketEnd.1 hend), h.anchored.moveImmediate himm⟩
      · exact ⟨h.placed, h.anchored⟩
  have hkept := Kept.migrateEvent t.now t e
  refine ⟨hsorted.1, hsorted.2, hnodup, ?_, ?_⟩
  · intro x hx
    rw [head_migrateEvent_of_ne (by rintro rfl; exact hfresh hx)]
    exact h.mem x (List.mem_cons_of_mem _ hx)
  · intro x hx
    rw [hkept.event]
    rcases h.left x (hkept.table x i hx) with hmem | hlater
    · rcases List.mem_cons.1 hmem with rfl | hmem
      · exact .inr (later_of_inTable_migrateEvent ⟨i, hx⟩)
      · exact .inl hmem
    · exact .inr hlater

theorem Moved.foldl {i now : SysTime} : ∀ {rest : List α} {t : SchedulerTimer α}, t.now = now →
    Moved now i t rest → Moved now i (rest.foldl (SchedulerTimer.migrateEvent now) t) [] ∧
      Kept t (rest.foldl (SchedulerTimer.migrateEvent now) t) := by
  intro rest
  induction rest with
  | nil => exact fun _ h => ⟨h, Kept.refl _⟩
  | cons e rest ih =>
    rintro t rfl h
    have hkept := Kept.migrateEvent t.now t e
    obtain ⟨hmoved, hkept'⟩ := ih hkept.now h.migrateEvent
    exact ⟨hmoved, hkept.trans hkept'⟩

omit [DecidableEq α] in
theorem Placed.moved (h : Placed t) (hanchored : Anchored t) (now i : SysTime) :
    Moved now i t (t.lists.nodes (.slot i)) := by
  refine ⟨h, hanchored, h.agree.nodup _, ?_, ?_⟩
  · exact fun x hx => (h.agree.mem _ x).1 hx
  · exact fun x hx => .inl ((h.agree.mem _ x).2 hx)

theorem migrateLoop_spec {now : SysTime} : ∀ {n : ℕ} {start : SysTime} {t r : SchedulerTimer α},
    t.now = now → Placed t → Anchored t → migrateLoop now n start t = some r →
    Placed r ∧ Anchored r ∧ Kept t r ∧
      ∀ x, r.InTable x → bucket start ≤ bucket (r.event x) → bucket now < bucket (r.event x) := by
  intro n
  induction n with
  | zero => exact fun _ _ _ h => nomatch h
  | succ n ih =>
    intro start t r hnow hplaced hanchored hr
    rw [migrateLoop] at hr
    split at hr
    · have hmoved := hplaced.moved hanchored now (timeIndex start)
      obtain ⟨hdone, hkept⟩ := Moved.foldl hnow hmoved
      obtain ⟨hplaced', hanchored', hkept', hlater⟩ :=
        ih (hkept.now.trans hnow) hdone.placed hdone.anchored hr
      refine ⟨hplaced', hanchored', hkept.trans hkept', ?_⟩
      intro x hx hstart
      rcases Nat.eq_or_lt_of_le hstart with heq | hlt
      · -- the bucket just moved
        obtain ⟨i, hi⟩ := hx
        have hidx : i = timeIndex start := by
          rw [hplaced'.slot x i hi, timeIndex_inj, heq]
        subst hidx
        rcases hdone.left x (hkept'.table x _ hi) with hmem | hlater
        · cases hmem
        · rw [hkept'.event]
          exact hlater
      · apply hlater x hx
        have := bucket_lt (r.event x)
        rw [bucket_add, Nat.mod_eq_of_lt (by omega)]
        exact hlt
    · rename_i hend
      cases hr
      rw [bucketEnd_le, not_le] at hend
      exact ⟨hplaced, hanchored, Kept.refl t, fun x _ hstart => lt_of_lt_of_le hend hstart⟩

/-! ## Interrupts -/

theorem Sorted.expireAnchor (h : Sorted t) :
    let t' := match t.anchor with
      | none => t
      | some cur => { t with anchor := none }.expire cur
    Scanned t' (t'.lists.nodes .immediate) ∧ Kept t t' := by
  intro t'
  have hnone : t'.anchor = none := by
    cases ha : t.anchor with
    | none => simp only [t', ha]
    | some cur =>
      simp only [t', ha]
      rfl
  have hplaced : Placed t' ∧ Kept t t' := by
    cases ha : t.anchor with
    | none =>
      simp only [t', ha]
      exact ⟨h.toPlaced, Kept.refl t⟩
    | some cur =>
      simp only [t', ha]
      exact ⟨(h.toPlaced.setAnchorWhen none t.when).expire cur,
        ⟨rfl, rfl, rfl, (Kept.expire { t with anchor := none } cur).table⟩⟩
  refine ⟨⟨hplaced.1, hplaced.1.agree.nodup _, ?_, ?_, ?_⟩, hplaced.2⟩
  · exact fun x hx => (hplaced.1.agree.mem _ x).1 hx
  · intro a ha
    rw [hnone] at ha
    cases ha
  · exact fun x hx => .inl ((hplaced.1.agree.mem _ x).2 hx)

omit [DecidableEq α] in
theorem nextAfter_kept (t : SchedulerTimer α) (old : SysTime) : Kept t (t.nextAfter old) := by
  unfold nextAfter
  generalize t.scan (timeIndex old) t.now = slot
  exact ⟨rfl, rfl, rfl, fun _ _ h => h⟩

omit [DecidableEq α] in
theorem Placed.nextAfter (h : Placed t) (hnone : t.anchor = none)
    (himm : ∀ x, t.lists.head x ≠ some .immediate)
    (hlater : ∀ x, t.InTable x → bucket t.now < bucket (t.event x)) (old : SysTime) :
    Sorted (t.nextAfter old) := by
  unfold SchedulerTimer.nextAfter
  apply h.setWhen hnone himm
  intro x hx
  split
  · rename_i hback
    have hidx := h.scan_all hx hback.1.symm
    have hmem := h.mem_slot hx
    rw [hidx, hback.1, hback.2] at hmem
    cases hmem
  · exact h.scan_le hx (hlater x hx)

omit [DecidableEq α] in
theorem requestUnless_kept (h : Placed t) (old : SysTime) :
    (t.requestUnless old).lists = t.lists ∧ (t.requestUnless old).event = t.event ∧
      t.now ≤ (t.requestUnless old).now ∧
      ((t.requestUnless old).requested = (t.requestUnless old).when ∨
        (t.requestUnless old).when = old) := by
  unfold requestUnless
  split
  · exact ⟨rfl, rfl, h.behind, .inl rfl⟩
  · rename_i hsame
    exact ⟨rfl, rfl, UInt64.le_refl _, .inr (not_not.1 hsame).symm⟩

theorem Sorted.turn (h : Sorted t) {old : SysTime} (hold : ∀ x, t.InTable x → old ≤ t.event x)
    (hr : t.turn old = some r) :
    Sorted r ∧ (∀ x, r.InTable x → old ≤ r.event x) ∧ t.now ≤ r.now ∧
      (r.requested = r.when ∨ r.when = old) := by
  unfold SchedulerTimer.turn at hr
  simp only [Option.bind_eq_bind, Option.bind_eq_some_iff, Option.pure_def, Option.some.injEq] at hr
  obtain ⟨m, hm, hr⟩ := hr
  obtain ⟨hscanned, hkept⟩ := h.expireAnchor
  obtain ⟨hdone, hkept'⟩ := hscanned.foldl
  obtain ⟨hplaced, hanchored, hkept'', hlater⟩ :=
    migrateLoop_spec rfl hdone.placed hdone.anchored hm
  have hall := (hkept.trans hkept').trans hkept''
  have hnow := hkept''.now
  have htable : ∀ x, m.InTable x → old ≤ m.event x := by
    rintro x ⟨i, hi⟩
    rw [hall.event]
    exact hold x ⟨i, hall.table x i hi⟩
  have hafter : ∀ x, m.InTable x → bucket m.now < bucket (m.event x) := by
    intro x hx
    rw [hnow]
    exact hlater x hx (bucket_mono (htable x hx))
  have hsorted : Sorted (if m.anchor = none then m.nextAfter old else m) ∧
      Kept m (if m.anchor = none then m.nextAfter old else m) := by
    split
    · rename_i hnone
      exact ⟨hplaced.nextAfter hnone (fun _ => hanchored.not_immediate hnone) hafter old,
        nextAfter_kept m old⟩
    · rename_i hsome
      obtain ⟨a, ha⟩ := Option.ne_none_iff_exists'.1 hsome
      refine ⟨⟨hplaced, hanchored, ?_⟩, Kept.refl m⟩
      intro x hx
      obtain ⟨hhead, hwhen⟩ := hanchored.anchor a ha
      have hle := hplaced.immediate a hhead
      have hlt := hafter x hx
      rw [hwhen]
      apply UInt64.le_of_lt
      by_contra hcon
      have := bucket_mono (UInt64.not_lt.1 hcon)
      omega
  generalize (if m.anchor = none then m.nextAfter old else m) = s at hr hsorted
  obtain ⟨hsorted, hs⟩ := hsorted
  obtain ⟨hlists, hevent, hle, hreq⟩ := requestUnless_kept hsorted.toPlaced old
  rw [hr] at hlists hevent hle hreq
  refine ⟨hr ▸ hsorted.requestUnless old, ?_, ?_, hreq⟩
  · rintro x ⟨i, hi⟩
    rw [hlists] at hi
    rw [hevent, hs.event]
    exact htable x ⟨i, hs.table x i hi⟩
  · rw [hs.now, hall.now] at hle
    exact hle

/-- The loop of `timerInterrupt`. While `when` is still that of its start the loop goes on,
so that the request is for `when` at its end. -/
theorem interruptLoop_spec {old : SysTime} : ∀ {n : ℕ} {t : SchedulerTimer α}, Sorted t →
    (∀ x, t.InTable x → old ≤ t.event x) → (t.when = old ∨ old < t.now) →
    (t.requested = t.when ∨ t.when = old ∧ old < t.now) →
    t.interruptLoop old n = some r → Sound r := by
  intro n
  induction n with
  | zero =>
    intro t h _ _ hreq hr
    rw [interruptLoop] at hr
    split at hr
    · cases hr
    · rename_i hdone
      cases hr
      refine ⟨h, ?_⟩
      rcases hreq with hreq | ⟨hwhen, hlt⟩
      · exact hreq
      · rw [hwhen] at hdone
        exact absurd hlt hdone
  | succ n ih =>
    intro t h hold hstart hreq hr
    rw [interruptLoop] at hr
    split at hr
    · rename_i hlate
      rw [Option.bind_eq_some_iff] at hr
      obtain ⟨m, hm, hr⟩ := hr
      obtain ⟨hsorted, htable, hnow, hreq'⟩ := h.turn hold hm
      have hlt : old < m.now := by
        apply UInt64.lt_of_lt_of_le _ hnow
        rcases hstart with hwhen | hlt
        · rw [hwhen] at hlate
          exact hlate
        · exact hlt
      apply ih hsorted htable (.inr hlt) _ hr
      rcases hreq' with hreq' | hwhen
      · exact .inl hreq'
      · exact .inr ⟨hwhen, hlt⟩
    · rename_i hdone
      cases hr
      refine ⟨h, ?_⟩
      rcases hreq with hreq | ⟨hwhen, hlt⟩
      · exact hreq
      · rw [hwhen] at hdone
        exact absurd hlt hdone

theorem Sound.timerInterrupt (h : Sound t) {turns : ℕ} (hr : t.timerInterrupt turns = some r) :
    Sound r := by
  unfold SchedulerTimer.timerInterrupt at hr
  simp only [Option.bind_eq_bind, Option.bind_eq_some_iff, Option.pure_def, Option.some.injEq] at hr
  obtain ⟨m, hm, rfl⟩ := hr
  have hm' : Sound m := by
    have hclock := h.toSorted.readClock
    split at hm
    · exact interruptLoop_spec hclock.request h.table (.inl rfl) (.inl rfl) hm
    · exact interruptLoop_spec hclock h.table (.inl rfl) (.inl h.requested) hm
  exact ⟨⟨⟨hm'.agree, hm'.slot, hm'.immediate, hm'.nondecreasing, hm'.behind⟩,
    ⟨hm'.anchor, hm'.first⟩, hm'.table⟩, hm'.requested⟩

/-! ## The handlers -/

theorem Sound.lockedDetach (h : Sound t) (he : t.lists.head e ≠ some .immediate) :
    Sound (t.lockedDetach e) :=
  ⟨h.toSorted.lockedDetach (h.ne_anchor he), h.requested⟩

theorem Sound.detachAll : ∀ {l : List α} {t : SchedulerTimer α}, Sound t →
    (∀ x ∈ l, t.lists.head x ≠ some .immediate) →
    Sound (l.foldl SchedulerTimer.lockedDetach t) := by
  intro l
  induction l with
  | nil => exact fun h _ => h
  | cons e l ih =>
    intro t h hl
    apply ih (h.lockedDetach (hl e List.mem_cons_self))
    intro x hx hhead
    exact hl x (List.mem_cons_of_mem _ hx) (head_lockedDetach.1 hhead).2

/-- The event saved by the loop over the run list is not pending again. -/
def nextNotPending (t : SchedulerTimer α) : Prop :=
  match t.cur with
  | none => True
  | some e => t.lists.head e = none ∨ t.lists.head e = some .runList

theorem Sound.runNext (h : Sound t) (hnext : t.nextNotPending) : Sound t.runNext := by
  unfold SchedulerTimer.runNext
  unfold nextNotPending at hnext
  cases hcur : t.cur with
  | none =>
    apply h.detachAll
    intro x hx
    rw [(h.agree.mem _ x).1 hx]
    exact nofun
  | some e =>
    rw [hcur] at hnext
    have hcursor : Sound { t with cur := t.lists.next e } :=
      ⟨⟨⟨h.agree, h.slot, h.immediate, h.nondecreasing, h.behind⟩, ⟨h.anchor, h.first⟩, h.table⟩,
        h.requested⟩
    apply hcursor.lockedDetach
    rcases hnext with hnext | hnext
    · change t.lists.head e ≠ _
      rw [hnext]
      exact nofun
    · change t.lists.head e ≠ _
      rw [hnext]
      exact nofun

/-! ## Runs -/

/-- A call of `disabledScheduleEvent`, an interrupt whose loop ends within `turns`, and a
turn of the loop over the run list of the last interrupt. -/
inductive Op (α : Type)
  | schedule (e : α) (whenTime : SysTime) (kind : TimerKind)
  | timerInterrupt (turns : ℕ)
  | runNext

def step (t : SchedulerTimer α) : Op α → SchedulerTimer α
  | .schedule e whenTime kind => (t.disabledScheduleEvent e whenTime kind).1
  | .timerInterrupt turns => (t.timerInterrupt turns).getD t
  | .runNext => t.runNext

/-- An event is scheduled while it is on no list, as `disabledScheduleEvent` asserts, and an
interrupt is delivered after the one before has returned. -/
def adm (t : SchedulerTimer α) : Op α → Prop
  | .schedule e _ .absolute => t.lists.head e = none
  | .schedule e _ .relative => t.lists.head e = none
  | .schedule _ _ _ => True
  | .timerInterrupt turns =>
    t.cur = none ∧ t.lists.nodes .runList = [] ∧ (t.timerInterrupt turns).isSome
  | .runNext => True

/-- The step does not pass over an earlier event. -/
def inOrder (t : SchedulerTimer α) : Op α → Prop
  | .schedule _ whenTime .absolute => t.firstIfAnchor whenTime
  | .schedule _ whenTime .relative =>
    whenTime ≠ 0 → t.readClock.firstIfAnchor (whenTime + t.readClock.now)
  | .schedule e _ .reset => t.restInOrder e
  | .schedule _ _ _ => True
  | .timerInterrupt _ => True
  | .runNext => t.nextNotPending

def machine : Machine (SchedulerTimer α) (Op α) := ⟨step, adm⟩

/-- The runs in which no step passes over an earlier event. -/
def inOrderMachine : Machine (SchedulerTimer α) (Op α) :=
  ⟨step, fun t op => t.adm op ∧ t.inOrder op⟩

theorem Sound.step (h : Sound t) {op : Op α} (hadm : t.adm op) (hop : t.inOrder op) :
    Sound (t.step op) := by
  cases op with
  | schedule e whenTime kind =>
    cases kind with
    | reset => exact h.resetEvent hop
    | absolute => exact h.absoluteEvent hadm hop
    | relative => exact h.relativeEvent hadm hop
    | queryNow => exact h.readClock
    | queryTicksPerSecond => exact h
    | invalid => exact h
  | timerInterrupt turns =>
    obtain ⟨-, -, hsome⟩ := hadm
    obtain ⟨r, hr⟩ := Option.isSome_iff_exists.1 hsome
    change Sound ((t.timerInterrupt turns).getD t)
    rw [hr]
    exact h.timerInterrupt hr
  | runNext => exact h.runNext hop

omit [DecidableEq α] in
theorem sound_init (event : α → SysTime) (ticksPerSecond : SysTime) {clock : ℕ → SysTime}
    (hclock : ∀ m n, m ≤ n → clock m ≤ clock n) : Sound (init event ticksPerSecond clock) where
  agree := AutoLists.agree_empty
  slot := nofun
  immediate := nofun
  nondecreasing := hclock
  behind := UInt64.le_iff_toNat_le.2 (Nat.zero_le _)
  anchor := nofun
  first := nofun
  table := by
    rintro x ⟨i, hi⟩
    cases hi
  requested := rfl

/-- The timer does not oversleep: after every run in which no step passes over an earlier
event, the kernel has been asked for `when`, and `when` is not after any pending event. -/
theorem run_doesNotOversleep (event : α → SysTime) (ticksPerSecond : SysTime) (clock : ℕ → SysTime)
    (hclock : ∀ m n, m ≤ n → clock m ≤ clock n) {ops : List (Op α)} {t : SchedulerTimer α}
    (h : inOrderMachine.Run (init event ticksPerSecond clock) ops t) :
    t.requested = t.when ∧ ∀ x, t.Pending x → t.when ≤ t.event x := by
  have hsound : Sound t := by
    refine h.invariant (sound_init event ticksPerSecond hclock) ?_
    rintro s op hs ⟨hadm, hop⟩
    exact hs.step hadm hop
  exact ⟨hsound.requested, fun x hx => hsound.when_le hx⟩

/-! ## Two short runs -/

instance (t : SchedulerTimer α) : (op : Op α) → Decidable (t.adm op)
  | .schedule _ _ .absolute | .schedule _ _ .relative => inferInstanceAs (Decidable (_ = _))
  | .schedule _ _ .reset | .schedule _ _ .queryNow | .schedule _ _ .queryTicksPerSecond
  | .schedule _ _ .invalid | .runNext => isTrue trivial
  | .timerInterrupt _ => inferInstanceAs (Decidable (_ ∧ _))

instance (t : SchedulerTimer α) (w : SysTime) : Decidable (t.noneBefore w) :=
  inferInstanceAs (Decidable (∀ i < TABLE_SIZE.toNat, ∀ x ∈ t.lists.nodes (.slot (UInt64.ofNat i)),
    w ≤ t.event x))

instance (t : SchedulerTimer α) (w : SysTime) : Decidable (t.firstIfAnchor w) :=
  inferInstanceAs (Decidable (_ → _))

instance (t : SchedulerTimer α) (e : α) : Decidable (t.restInOrder e) :=
  inferInstanceAs (Decidable (_ ∧ _ ∧ _))

instance (t : SchedulerTimer α) : Decidable t.nextNotPending :=
  match h : t.cur with
  | none => isTrue (by rw [nextNotPending, h]; trivial)
  | some e => decidable_of_iff (t.lists.head e = none ∨ t.lists.head e = some .runList)
      (by rw [nextNotPending, h])

instance (t : SchedulerTimer α) : (op : Op α) → Decidable (t.inOrder op)
  | .schedule _ whenTime .absolute => inferInstanceAs (Decidable (t.firstIfAnchor whenTime))
  | .schedule _ _ .relative => inferInstanceAs (Decidable (_ → _))
  | .schedule e _ .reset => inferInstanceAs (Decidable (t.restInOrder e))
  | .schedule _ _ .queryNow | .schedule _ _ .queryTicksPerSecond | .schedule _ _ .invalid
  | .timerInterrupt _ => isTrue trivial
  | .runNext => inferInstanceAs (Decidable t.nextNotPending)

instance (t : SchedulerTimer α) (op : Op α) : Decidable (machine.adm t op) :=
  inferInstanceAs (Decidable (t.adm op))

instance (t : SchedulerTimer α) (op : Op α) : Decidable (inOrderMachine.adm t op) :=
  inferInstanceAs (Decidable (t.adm op ∧ t.inOrder op))

/-- A clock that jumps to the third bucket after its first reading. -/
def jumpingClock (n : ℕ) : SysTime := if n < 1 then 5 else 2 * BUCKET_TICKS + 60

theorem jumpingClock_nondecreasing (m n : ℕ) (h : m ≤ n) : jumpingClock m ≤ jumpingClock n := by
  unfold jumpingClock
  by_cases hn : n < 1
  · rw [if_pos hn, if_pos (by omega)]
    exact UInt64.le_refl _
  · rw [if_neg hn]
    split
    · decide
    · exact UInt64.le_refl _

/-- Two events expire in one interrupt, and a third is scheduled after it. -/
def expireTwo : List (Op ℕ) :=
  [.schedule 0 100 .absolute, .schedule 1 (2 * BUCKET_TICKS + 50) .absolute, .timerInterrupt 2,
    .runNext, .runNext, .runNext, .schedule 2 500 .relative]

theorem run_doesNotOversleep_expireTwo :
    let t := expireTwo.foldl inOrderMachine.step (init (fun _ => 0) 1000 jumpingClock)
    inOrderMachine.Run (init (fun _ => 0) 1000 jumpingClock) expireTwo t ∧
      t.lists.nodes .immediate = [2] ∧ t.when = 2 * BUCKET_TICKS + 560 ∧
      t.requested = t.when ∧ ∀ x, t.Pending x → t.when ≤ t.event x := by
  intro t
  have hadmits : inOrderMachine.Admits (init (fun _ => 0) 1000 jumpingClock) expireTwo := by
    decide +kernel
  exact ⟨hadmits.run, by decide +kernel, by decide +kernel,
    run_doesNotOversleep _ _ _ jumpingClock_nondecreasing hadmits.run⟩

/-- The anchor is taken off while the only other event is one revolution of the table later. -/
def resetBeforeRevolution : List (Op ℕ) :=
  [.schedule 0 100 .absolute, .schedule 1 (TABLE_SIZE * BUCKET_TICKS + 100) .absolute,
    .schedule 0 0 .reset]

/-- The timer oversleeps: no request is left for the event that is still in the table. -/
theorem oversleeps :
    let t := resetBeforeRevolution.foldl machine.step (init (fun _ => 0) 1000 jumpingClock)
    machine.Run (init (fun _ => 0) 1000 jumpingClock) resetBeforeRevolution t ∧
      t.Pending 1 ∧ t.requested = SYSTIME_MAX ∧ ¬ t.when ≤ t.event 1 := by
  intro t
  have hadmits : machine.Admits (init (fun _ => 0) 1000 jumpingClock) resetBeforeRevolution := by
    decide +kernel
  exact ⟨hadmits.run, .inr ⟨0, by decide +kernel⟩, by decide +kernel, by decide +kernel⟩

end SchedulerTimer

end K42
