import K42.Scheduler.SchedulerTimerRuns

/-!
# An interrupt delivers the events that are due

Each turn of the loop of `timerInterrupt` sifts the pending events: those due go to the run list,
the others stay pending, and `when` is set beyond the time the turn looked at. The loop over the
run list then runs what is on it, one event after the other.
-/

namespace K42

namespace SchedulerTimer

open UInt64 (le_of_lt le_refl le_trans lt_irrefl lt_trans not_le not_lt)

variable {α : Type} [DecidableEq α] {t t' r b : SchedulerTimer α} {e x : α}

/-! ## Sifting -/

/-- From `b` to `t` events have been moved to the run list, only those that are due, and from the
table to the immediate list; none was added or lost. -/
structure Sifted (b t : SchedulerTimer α) : Prop where
  event : t.event = b.event
  now : t.now = b.now
  clock : t.clock = b.clock
  reads : t.reads = b.reads
  due : ∀ x, t.lists.head x = some .runList →
    b.lists.head x = some .runList ∨ b.Pending x ∧ b.event x ≤ b.now
  kept : ∀ x, b.lists.head x = some .runList → t.lists.head x = some .runList
  left : ∀ x, b.Pending x → t.Pending x ∨ t.lists.head x = some .runList
  pending : ∀ x, t.Pending x → b.Pending x

omit [DecidableEq α] in
theorem Sifted.of_lists (hevent : t.event = b.event) (hnow : t.now = b.now)
    (hclock : t.clock = b.clock) (hreads : t.reads = b.reads) (hlists : t.lists = b.lists) :
    Sifted b t where
  event := hevent
  now := hnow
  clock := hclock
  reads := hreads
  due := fun x hx => .inl (hlists ▸ hx)
  kept := fun x hx => by rwa [hlists]
  left := fun x hx => .inl (by unfold Pending InTable; rwa [hlists])
  pending := fun x hx => by unfold Pending InTable at hx; rwa [hlists] at hx

omit [DecidableEq α] in
theorem Sifted.refl (t : SchedulerTimer α) : Sifted t t := .of_lists rfl rfl rfl rfl rfl

omit [DecidableEq α] in
theorem Sifted.trans (h : Sifted b t) (h' : Sifted t r) : Sifted b r where
  event := h'.event.trans h.event
  now := h'.now.trans h.now
  clock := h'.clock.trans h.clock
  reads := h'.reads.trans h.reads
  due := by
    intro x hx
    rcases h'.due x hx with hx | ⟨hp, hle⟩
    · exact h.due x hx
    · rw [h.event, h.now] at hle
      exact .inr ⟨h.pending x hp, hle⟩
  kept := fun x hx => h'.kept x (h.kept x hx)
  left := by
    intro x hx
    rcases h.left x hx with hx | hx
    · exact h'.left x hx
    · exact .inr (h'.kept x hx)
  pending := fun x hx => h.pending x (h'.pending x hx)

omit [DecidableEq α] in
theorem Pending.ne_runList (h : t.Pending x) : t.lists.head x ≠ some .runList := by
  rcases h with h | ⟨i, h⟩
  · rw [h]
    exact nofun
  · rw [h]
    exact nofun

theorem Sifted.expire (hp : t.Pending e) (hdue : t.event e ≤ t.now) : Sifted t (t.expire e) where
  event := rfl
  now := rfl
  clock := rfl
  reads := rfl
  due := by
    intro x hx
    rcases head_expire.1 hx with ⟨rfl, -⟩ | ⟨-, hx⟩
    · exact .inr ⟨hp, hdue⟩
    · exact .inl hx
  kept := by
    intro x hx
    apply head_expire.2
    by_cases hxe : x = e
    · exact .inl ⟨hxe, rfl⟩
    · exact .inr ⟨hxe, hx⟩
  left := by
    intro x hx
    by_cases hxe : x = e
    · exact .inr (head_expire.2 (.inl ⟨hxe, rfl⟩))
    · left
      rcases hx with hx | ⟨i, hx⟩
      · exact .inl (head_expire_immediate.2 ⟨hxe, hx⟩)
      · exact .inr ⟨i, head_expire_slot.2 ⟨hxe, hx⟩⟩
  pending := by
    intro x hx
    rcases hx with hx | ⟨i, hx⟩
    · exact .inl (head_expire_immediate.1 hx).2
    · exact .inr ⟨i, (head_expire_slot.1 hx).2⟩

theorem Sifted.moveImmediate (hp : t.Pending e) :
    Sifted t ((t.lockedDetach e).append .immediate e) where
  event := rfl
  now := rfl
  clock := rfl
  reads := rfl
  due := by
    intro x hx
    rcases head_moveImmediate.1 hx with ⟨-, hl⟩ | ⟨-, hx⟩
    · cases hl
    · exact .inl hx
  kept := by
    intro x hx
    refine head_moveImmediate.2 (.inr ⟨?_, hx⟩)
    rintro rfl
    exact hp.ne_runList hx
  left := by
    intro x hx
    left
    by_cases hxe : x = e
    · exact .inl (head_moveImmediate.2 (.inl ⟨hxe, rfl⟩))
    · rcases hx with hx | ⟨i, hx⟩
      · exact .inl (head_moveImmediate.2 (.inr ⟨hxe, hx⟩))
      · exact .inr ⟨i, head_moveImmediate.2 (.inr ⟨hxe, hx⟩)⟩
  pending := by
    intro x hx
    rcases hx with hx | ⟨i, hx⟩
    · rcases head_moveImmediate.1 hx with ⟨rfl, -⟩ | ⟨-, hx⟩
      · exact hp
      · exact .inl hx
    · rcases head_moveImmediate.1 hx with ⟨-, hl⟩ | ⟨-, hx⟩
      · cases hl
      · exact .inr ⟨i, hx⟩

/-- What is on the immediate list and not in `rest` comes later than `now`. -/
def LateBut (t : SchedulerTimer α) (rest : List α) : Prop :=
  ∀ x, t.lists.head x = some .immediate → x ∈ rest ∨ t.now < t.event x

theorem sifted_sortImmediate (he : t.lists.head e = some .immediate) :
    Sifted t (t.sortImmediate e) := by
  unfold sortImmediate
  split
  · rename_i hdue
    exact .expire (.inl he) hdue
  · split
    · exact .of_lists rfl rfl rfl rfl rfl
    · exact .refl t

theorem LateBut.sortImmediate {rest : List α} (h : LateBut t (e :: rest)) :
    LateBut (t.sortImmediate e) rest := by
  unfold SchedulerTimer.sortImmediate
  split
  · intro x hx
    obtain ⟨hxe, hx⟩ := head_expire_immediate.1 hx
    rcases h x hx with hmem | hlt
    · exact .inl ((List.mem_cons.1 hmem).resolve_left hxe)
    · exact .inr hlt
  · rename_i hlate
    have hthis : ∀ x, t.lists.head x = some .immediate → x ∈ rest ∨ t.now < t.event x := by
      intro x hx
      rcases h x hx with hmem | hlt
      · rcases List.mem_cons.1 hmem with rfl | hmem
        · exact .inr (not_le.1 hlate)
        · exact .inl hmem
      · exact .inr hlt
    split
    · exact hthis
    · exact hthis

theorem Scanned.sifted : ∀ {rest : List α} {t : SchedulerTimer α}, Scanned t rest → LateBut t rest →
    Sifted t (rest.foldl SchedulerTimer.sortImmediate t) ∧
      LateBut (rest.foldl SchedulerTimer.sortImmediate t) [] := by
  intro rest
  induction rest with
  | nil => exact fun _ hlate => ⟨.refl _, hlate⟩
  | cons e rest ih =>
    intro t h hlate
    obtain ⟨hsifted, hlate'⟩ := ih h.sortImmediate hlate.sortImmediate
    exact ⟨(sifted_sortImmediate (h.mem e List.mem_cons_self)).trans hsifted, hlate'⟩

theorem sifted_migrateEvent {stop : SysTime} (hp : t.Pending e) :
    Sifted t (t.migrateEvent stop e) := by
  unfold migrateEvent
  split
  · rename_i hdue
    exact .expire hp hdue
  · split
    · have hmove := Sifted.moveImmediate hp
      dsimp only
      split
      · exact hmove.trans (.of_lists rfl rfl rfl rfl rfl)
      · exact hmove
    · exact .refl t

theorem LateBut.migrateEvent {stop : SysTime} (h : LateBut t []) :
    LateBut (t.migrateEvent stop e) [] := by
  have hlate : ∀ x, t.lists.head x = some .immediate → t.now < t.event x := fun x hx =>
    (h x hx).resolve_left nofun
  unfold SchedulerTimer.migrateEvent
  split
  · exact fun x hx => .inr (hlate x (head_expire_immediate.1 hx).2)
  · rename_i hnot
    split
    · have hthis : ∀ x, ((t.lockedDetach e).append .immediate e).lists.head x = some .immediate →
          t.now < t.event x := by
        intro x hx
        rcases head_moveImmediate.1 hx with ⟨rfl, -⟩ | ⟨-, hx⟩
        · exact not_le.1 hnot
        · exact hlate x hx
      dsimp only
      split
      · exact fun x hx => .inr (hthis x hx)
      · exact fun x hx => .inr (hthis x hx)
    · exact h

variable {now old : SysTime}

theorem Moved.sifted {i : SysTime} : ∀ {rest : List α} {t : SchedulerTimer α}, t.now = now →
    Moved now i t rest → LateBut t [] →
    Sifted t (rest.foldl (SchedulerTimer.migrateEvent now) t) ∧
      LateBut (rest.foldl (SchedulerTimer.migrateEvent now) t) [] := by
  intro rest
  induction rest with
  | nil => exact fun _ _ hlate => ⟨.refl _, hlate⟩
  | cons e rest ih =>
    rintro t rfl h hlate
    have hsifted : Sifted t (t.migrateEvent t.now e) :=
      sifted_migrateEvent (.inr ⟨i, h.mem e List.mem_cons_self⟩)
    obtain ⟨hsifted', hlate'⟩ := ih hsifted.now h.migrateEvent hlate.migrateEvent
    exact ⟨hsifted.trans hsifted', hlate'⟩

theorem migrateLoop_sifted : ∀ {n : ℕ} {start : SysTime}
    {t r : SchedulerTimer α}, t.now = now → Placed t → Anchored t → LateBut t [] →
    migrateLoop now n start t = some r → Sifted t r ∧ LateBut r [] := by
  intro n
  induction n with
  | zero => exact fun _ _ _ _ h => nomatch h
  | succ n ih =>
    intro start t r hnow hplaced hanchored hlate hr
    rw [migrateLoop] at hr
    split at hr
    · have hmoved := hplaced.moved hanchored now (timeIndex start)
      obtain ⟨hdone, -⟩ := hmoved.foldl hnow
      obtain ⟨hsifted, hlate'⟩ := hmoved.sifted hnow hlate
      obtain ⟨hsifted', hlate''⟩ :=
        ih (hsifted.now.trans hnow) hdone.placed hdone.anchored hlate' hr
      exact ⟨hsifted.trans hsifted', hlate''⟩
    · cases hr
      exact ⟨.refl t, hlate⟩

theorem migrateLoop_total (hlast : bucket now + 1 < 2 ^ 42) :
    ∀ {n : ℕ} {start : SysTime} {t : SchedulerTimer α}, bucket now + 1 - bucket start < n →
      ∃ r, migrateLoop now n start t = some r := by
  intro n
  induction n with
  | zero => exact fun h => absurd h (Nat.not_lt_zero _)
  | succ n ih =>
    intro start t hn
    rw [migrateLoop]
    split
    · rename_i hle
      rw [bucketEnd_le] at hle
      apply ih
      rw [bucket_add, Nat.mod_eq_of_lt (by omega)]
      omega
    · exact ⟨t, rfl⟩

/-! ## One turn -/

/-- The clock is a revolution of the table short of the end of time. -/
def InTime (w : SysTime) : Prop := bucket w + 128 < 2 ^ 42

omit [DecidableEq α] in
theorem lt_scan (hnow : InTime now) : now < t.scan (timeIndex old) now := by
  obtain ⟨j, hbucket, hpassed, -⟩ := t.scan_spec (timeIndex old) now
  have hj : j < 128 := by
    by_contra hcon
    apply (hpassed ((bucket old + (127 - bucket now % 128)) % 128) (by omega)).1
    have hk : (bucket now + 1 + (bucket old + (127 - bucket now % 128)) % 128) % 128 =
        bucket old % 128 := by
      omega
    rw [hk, timeIndex_eq]
  unfold InTime at hnow
  rw [Nat.mod_eq_of_lt (by omega)] at hbucket
  by_contra hcon
  have hle := bucket_mono (not_lt.1 hcon)
  omega

/-- A turn of the loop, entered at `t`, has sorted out the events that are due. -/
structure Turned (t r : SchedulerTimer α) : Prop where
  event : r.event = t.event
  clock : r.clock = t.clock
  reads : r.reads = t.reads + 1
  now : r.now = t.clock t.reads
  requested : r.requested = r.when
  due : ∀ x, r.lists.head x = some .runList →
    t.lists.head x = some .runList ∨ t.Pending x ∧ t.event x ≤ t.now
  kept : ∀ x, t.lists.head x = some .runList → r.lists.head x = some .runList
  left : ∀ x, t.Pending x → r.Pending x ∨ r.lists.head x = some .runList
  pending : ∀ x, r.Pending x → t.Pending x ∧ t.now < t.event x
  ahead : t.now < r.when

/-- The state after the current timer has been run. -/
def runAnchor (t : SchedulerTimer α) : SchedulerTimer α :=
  match t.anchor with
  | none => t
  | some cur => { t with anchor := none }.expire cur

theorem turn_eq (t : SchedulerTimer α) (old : SysTime) : t.turn old =
    (let s := (t.runAnchor.lists.nodes .immediate).foldl sortImmediate t.runAnchor;
      (s.migrate old s.now).bind fun m =>
        some ((if m.anchor = none then m.nextAfter old else m).requestUnless old)) := rfl

theorem Sorted.runAnchor_scanned (h : Sorted t) :
    Scanned t.runAnchor (t.runAnchor.lists.nodes .immediate) ∧ Kept t t.runAnchor :=
  h.expireAnchor

theorem Sorted.runAnchor_sifted (h : Sorted t) (hlt : t.when < t.now) : Sifted t t.runAnchor := by
  unfold runAnchor
  cases ha : t.anchor with
  | none => exact .refl t
  | some cur =>
    obtain ⟨hhead, hwhen⟩ := h.anchor cur ha
    have hdue : t.event cur ≤ t.now := hwhen ▸ le_of_lt hlt
    have hpending : ({ t with anchor := none } : SchedulerTimer α).Pending cur := .inl hhead
    have hclear : Sifted t { t with anchor := none } := .of_lists rfl rfl rfl rfl rfl
    exact hclear.trans (Sifted.expire hpending hdue)

theorem migrate_total {start : SysTime} (hlast : bucket now + 1 < 2 ^ 42) :
    ∃ r, t.migrate start now = some r := by
  unfold migrate
  exact migrateLoop_total hlast (by omega)

omit [DecidableEq α] in
theorem lt_when {m : SchedulerTimer α} (old : SysTime) (hanchored : Anchored m)
    (hlate : LateBut m []) (hnow : InTime m.now) :
    m.now < (if m.anchor = none then m.nextAfter old else m).when := by
  split
  · show m.now < ite _ _ _
    split
    · apply UInt64.lt_iff_toNat_lt.2
      have hmax : (-1 : SysTime).toNat = 2 ^ 64 - 1 := by decide
      rw [hmax]
      unfold InTime bucket at hnow
      omega
    · exact lt_scan hnow
  · rename_i hsome
    obtain ⟨a, ha⟩ := Option.ne_none_iff_exists'.1 hsome
    obtain ⟨hhead, hwhen⟩ := hanchored.anchor a ha
    rw [hwhen]
    exact (hlate a hhead).resolve_left nofun

/-- **One turn** ends, and the events that are due are then on the run list. -/
theorem Sorted.turn_total (h : Sorted t)
    (hold : ∀ x, t.InTable x → old ≤ t.event x) (hstart : old < t.now) (hlt : t.when < t.now)
    (hnow : InTime t.now) : ∃ r, t.turn old = some r ∧ Turned t r := by
  obtain ⟨hscanned, hkept₁⟩ := h.runAnchor_scanned
  have hsifted₁ := h.runAnchor_sifted hlt
  rw [turn_eq]
  generalize t.runAnchor = t₁ at *
  have hlate₁ : LateBut t₁ (t₁.lists.nodes .immediate) := fun x hx =>
    .inl ((hscanned.placed.agree.mem _ x).2 hx)
  obtain ⟨hdone, hkept₂⟩ := hscanned.foldl
  obtain ⟨hsifted₂, hlate₂⟩ := hscanned.sifted hlate₁
  generalize (t₁.lists.nodes .immediate).foldl SchedulerTimer.sortImmediate t₁ = t₂ at *
  have hsifted := hsifted₁.trans hsifted₂
  have hlast : bucket t₂.now + 1 < 2 ^ 42 := by
    rw [hsifted.now]
    unfold InTime at hnow
    omega
  obtain ⟨m, hm⟩ : ∃ m, t₂.migrate old t₂.now = some m := migrate_total hlast
  obtain ⟨hplaced, hanchored, hkept, hlater⟩ :=
    migrateLoop_spec rfl hdone.placed hdone.anchored hm
  obtain ⟨hsifted₃, hlate⟩ := migrateLoop_sifted rfl hdone.placed hdone.anchored hlate₂ hm
  have hall := hsifted.trans hsifted₃
  have hahead := lt_when old hanchored hlate (hall.now.symm ▸ hnow)
  have hlists : (if m.anchor = none then m.nextAfter old else m).lists = m.lists := by
    split <;> rfl
  have hnext : Sifted m (if m.anchor = none then m.nextAfter old else m) := by
    split
    · exact .of_lists rfl rfl rfl rfl rfl
    · exact .refl m
  generalize hs : (if m.anchor = none then m.nextAfter old else m) = s at hnext hlists hahead
  -- `when` has moved on, so that a request is made
  have hmoved : old ≠ s.when := by
    rintro rfl
    rw [hall.now] at hahead
    exact absurd (lt_trans hstart hahead) (lt_irrefl _)
  refine ⟨s.request, ?_, ?_⟩
  · have hrequest : s.requestUnless old = s.request := if_pos hmoved
    simp only [hm, Option.bind_some, hs, hrequest]
  have hheads : s.request.lists = m.lists := hlists
  have hfinal := hall.trans hnext
  refine ⟨hfinal.event, hfinal.clock, congrArg (· + 1) hfinal.reads, ?_, rfl, ?_, ?_, ?_, ?_, ?_⟩
  · show s.clock s.reads = _
    rw [hfinal.clock, hfinal.reads]
  · intro x hx
    rw [hheads] at hx
    exact hall.due x hx
  · intro x hx
    rw [hheads]
    exact hall.kept x hx
  · intro x hx
    unfold Pending InTable
    rw [hheads]
    exact hall.left x hx
  · intro x hx
    unfold Pending InTable at hx
    rw [hheads] at hx
    refine ⟨hall.pending x hx, ?_⟩
    rcases hx with hx | hx
    · rw [← hall.now, ← hall.event]
      exact (hlate x hx).resolve_left nofun
    · -- what is left in the table is in a later bucket
      have hle : old ≤ m.event x := by
        obtain ⟨i, hi⟩ := hx
        rw [hall.event]
        exact hold x ⟨i, ((hkept₁.trans hkept₂).trans hkept).table x i hi⟩
      have hlt := hlater x hx (bucket_mono hle)
      rw [hall.event, hsifted.now] at hlt
      by_contra hcon
      have := bucket_mono (not_lt.1 hcon)
      omega
  · rw [← hall.now]
    exact hahead

/-! ## The loop -/

/-- Every later reading of the clock is in time. -/
def ClockInTime (t : SchedulerTimer α) : Prop := ∀ n, t.reads ≤ n → InTime (t.clock n)

/-- What the loop, entered at `t`, has done when it ends at `r`. -/
structure Swept (t r : SchedulerTimer α) : Prop where
  event : r.event = t.event
  now : t.now ≤ r.now
  due : ∀ x, r.lists.head x = some .runList →
    t.lists.head x = some .runList ∨ t.Pending x ∧ t.event x ≤ r.now
  kept : ∀ x, t.lists.head x = some .runList → r.lists.head x = some .runList
  left : ∀ x, t.Pending x → r.Pending x ∨ r.lists.head x = some .runList
  pending : ∀ x, r.Pending x → t.Pending x
  entered : t.when < t.now → t.reads < r.reads ∧ ∀ x, r.Pending x → t.now < t.event x
  reads : t.reads ≤ r.reads

omit [DecidableEq α] in
theorem Swept.refl (hdone : ¬ t.when < t.now) : Swept t t where
  event := rfl
  now := le_refl _
  due := fun _ hx => .inl hx
  kept := fun _ hx => hx
  left := fun _ hx => .inl hx
  pending := fun _ hx => hx
  entered := fun hlt => absurd hlt hdone
  reads := le_refl _

omit [DecidableEq α] in
theorem Turned.swept (h : Turned t t') (hnow : t.now ≤ t'.now) (h' : Swept t' r) : Swept t r where
  event := h'.event.trans h.event
  now := le_trans hnow h'.now
  due := by
    intro x hx
    rcases h'.due x hx with hx | ⟨hp, hle⟩
    · rcases h.due x hx with hx | ⟨hp, hle⟩
      · exact .inl hx
      · exact .inr ⟨hp, le_trans hle (le_trans hnow h'.now)⟩
    · rw [h.event] at hle
      exact .inr ⟨(h.pending x hp).1, hle⟩
  kept := fun x hx => h'.kept x (h.kept x hx)
  left := by
    intro x hx
    rcases h.left x hx with hx | hx
    · exact h'.left x hx
    · exact .inr (h'.kept x hx)
  pending := fun x hx => (h.pending x (h'.pending x hx)).1
  entered := by
    intro _
    refine ⟨?_, fun x hx => (h.pending x (h'.pending x hx)).2⟩
    have hreads := h'.reads
    rw [h.reads] at hreads
    omega
  reads := by
    have hreads := h'.reads
    rw [h.reads] at hreads
    omega

/-- **The loop** ends, since the clock goes on from turn to turn. -/
theorem interruptLoop_total (k : ℕ) : ∀ {t : SchedulerTimer α},
    2 ^ 64 - t.now.toNat ≤ k → Sorted t → (∀ x, t.InTable x → old ≤ t.event x) →
    (t.when = old ∨ old < t.now) → InTime t.now → ClockInTime t →
    ∃ n r, t.interruptLoop old n = some r ∧ Swept t r ∧ r.now ≤ r.when := by
  induction k with
  | zero =>
    intro t hk
    have hlt := t.now.toNat_lt
    omega
  | succ k ih =>
    intro t hk h hold hstart hnow hclock
    by_cases hlate : t.when < t.now
    · have hpast : old < t.now := by
        rcases hstart with rfl | hlt
        · exact hlate
        · exact hlt
      obtain ⟨t', ht', hturned⟩ := h.turn_total hold hpast hlate hnow
      obtain ⟨hsorted, htable, hle, -⟩ := h.turn hold ht'
      have hnow' : InTime t'.now := by
        rw [hturned.now]
        exact hclock _ (le_refl _)
      by_cases hagain : t'.when < t'.now
      · have hless : 2 ^ 64 - t'.now.toNat ≤ k := by
          have hgrow := UInt64.lt_iff_toNat_lt.1 (lt_trans hturned.ahead hagain)
          omega
        have hclock' : ClockInTime t' := by
          intro n hn
          rw [hturned.clock]
          apply hclock
          rw [hturned.reads] at hn
          omega
        obtain ⟨n, r, hr, hswept, hdone⟩ := ih hless hsorted htable
          (.inr (UInt64.lt_of_lt_of_le hpast hle)) hnow' hclock'
        refine ⟨n + 1, r, ?_, hturned.swept hle hswept, hdone⟩
        rw [interruptLoop, if_pos hlate, ht']
        exact hr
      · refine ⟨1, t', ?_, hturned.swept hle (.refl hagain), not_lt.1 hagain⟩
        rw [interruptLoop, if_pos hlate, ht', Option.bind_some, interruptLoop, if_neg hagain]
    · refine ⟨0, t, ?_, .refl hlate, not_lt.1 hlate⟩
      rw [interruptLoop, if_neg hlate]

/-! ## The loop over the run list -/

/-- What may happen until the run list is done: the loop goes on, and handlers schedule events and
reset them, but not the one the loop has saved as the next. -/
def serves (t : SchedulerTimer α) : Op α → Prop
  | .schedule e w kind => t.adm (.schedule e w kind) ∧ (kind = .reset → t.cur ≠ some e)
  | .timerInterrupt _ => False
  | .runNext => True

def servingMachine : Machine (SchedulerTimer α) (Op α) := ⟨step, serves⟩

/-- The event whose handler the loop calls. -/
def ranBy (t : SchedulerTimer α) : Op α → List α
  | .runNext => t.cur.toList
  | _ => []

/-- The event that is taken off the run list before its turn. -/
def cancelledBy (t : SchedulerTimer α) : Op α → List α
  | .schedule e _ .reset => if t.lists.head e = some .runList then [e] else []
  | _ => []

def ran (t : SchedulerTimer α) : List (Op α) → List α
  | [] => []
  | op :: ops => t.ranBy op ++ ran (t.step op) ops

def cancelled (t : SchedulerTimer α) : List (Op α) → List α
  | [] => []
  | op :: ops => t.cancelledBy op ++ cancelled (t.step op) ops

/-- The loop over the run list is at its first event. -/
structure Serving (t : SchedulerTimer α) : Prop where
  agree : t.lists.Agree
  cur : t.cur = (t.lists.nodes .runList).head?

/-- The run list is left alone. -/
structure RunKept (t t' : SchedulerTimer α) : Prop where
  agree : t'.lists.Agree
  cur : t'.cur = t.cur
  runList : t'.lists.nodes .runList = t.lists.nodes .runList

omit [DecidableEq α] in
theorem RunKept.of_lists {s : SchedulerTimer α} (h : RunKept t s) (hlists : t'.lists = s.lists)
    (hcur : t'.cur = s.cur) : RunKept t t' where
  agree := hlists ▸ h.agree
  cur := hcur.trans h.cur
  runList := hlists ▸ h.runList

omit [DecidableEq α] in
theorem requestUnless_lists (t : SchedulerTimer α) (old : SysTime) :
    (t.requestUnless old).lists = t.lists ∧ (t.requestUnless old).cur = t.cur := by
  unfold requestUnless
  split
  · exact ⟨rfl, rfl⟩
  · exact ⟨rfl, rfl⟩

omit [DecidableEq α] in
theorem RunKept.requestUnless (h : RunKept t t') (old : SysTime) :
    RunKept t (t'.requestUnless old) := by
  obtain ⟨hlists, hcur⟩ := requestUnless_lists t' old
  exact h.of_lists hlists hcur

section

variable (h : t.lists.Agree)

include h

theorem RunKept.append (he : t.lists.head e = none) {l : TimerList}
    (hl : .runList ≠ l) : RunKept t (t.append l e) :=
  ⟨h.append he, rfl, Function.update_of_ne hl ..⟩

theorem RunKept.prepend (he : t.lists.head e = none) {l : TimerList}
    (hl : .runList ≠ l) : RunKept t (t.prepend l e) :=
  ⟨h.prepend he, rfl, Function.update_of_ne hl ..⟩

theorem runKept_placeEvent (he : t.lists.head e = none) :
    RunKept t (t.placeEvent e) := by
  unfold placeEvent
  split
  · split
    · have happend : RunKept t (t.append .immediate e) := .append h he nofun
      have hanchor : RunKept t ((t.append .immediate e).setAnchor e) := happend.of_lists rfl rfl
      exact hanchor.requestUnless t.when
    · exact .prepend h he nofun
  · have happend : RunKept t (t.append (.slot (timeIndex (t.event e))) e) := .append h he nofun
    split
    · apply RunKept.requestUnless
      exact happend.of_lists rfl rfl
    · exact happend

theorem runKept_expireNow (he : t.lists.head e = none) :
    RunKept t (t.expireNow e) := by
  have hsame : t.lists.detach e = t.lists := by
    rw [AutoLists.detach, he]
  have hrefl : RunKept t t := ⟨h, rfl, rfl⟩
  exact hrefl.of_lists hsame rfl

theorem runKept_absoluteEvent (he : t.lists.head e = none) (w : SysTime) :
    RunKept t (t.absoluteEvent e w) := by
  unfold absoluteEvent
  split
  · exact runKept_expireNow h he
  · have hset : ({ t with event := Function.update t.event e w } : SchedulerTimer α).lists.Agree := h
    have hplace := runKept_placeEvent hset he
    exact ⟨hplace.agree, hplace.cur, hplace.runList⟩

theorem runKept_relativeEvent (he : t.lists.head e = none) (w : SysTime) :
    RunKept t (t.relativeEvent e w) := by
  unfold relativeEvent
  split
  · exact runKept_expireNow h he
  · have hclock : t.readClock.lists.Agree := h
    have habsolute := runKept_absoluteEvent hclock he (w + t.readClock.now)
    exact ⟨habsolute.agree, habsolute.cur, habsolute.runList⟩

end

omit [DecidableEq α] in
theorem nextBucket_lists (t : SchedulerTimer α) (e : α) :
    (t.nextBucket e).lists = t.lists ∧ (t.nextBucket e).cur = t.cur := by
  unfold nextBucket
  generalize t.scan (timeIndex (t.event e)) (t.event e) = slot
  exact ⟨rfl, rfl⟩

theorem resetEvent_lists (t : SchedulerTimer α) (e : α) :
    (t.resetEvent e).lists = t.lists.detach e ∧ (t.resetEvent e).cur = t.cur := by
  unfold resetEvent
  cases hhead : t.lists.head e with
  | none => exact ⟨by rw [AutoLists.detach, hhead], rfl⟩
  | some l =>
    dsimp only
    split
    · exact ⟨rfl, rfl⟩
    · have hfind : (if t.anchor = some e then (t.lockedDetach e).findAnchor
          else t.lockedDetach e).lists = t.lists.detach e ∧
          (if t.anchor = some e then (t.lockedDetach e).findAnchor
          else t.lockedDetach e).cur = t.cur := by
        split
        · have hsame := (findAnchor_firstOf (t.lockedDetach e)).same
          rw [hsame]
          exact ⟨rfl, rfl⟩
        · exact ⟨rfl, rfl⟩
      generalize (if t.anchor = some e then (t.lockedDetach e).findAnchor
        else t.lockedDetach e) = s at hfind ⊢
      split
      · obtain ⟨hlists, hcur⟩ := requestUnless_lists (s.nextBucket e) t.when
        obtain ⟨hlists', hcur'⟩ := nextBucket_lists s e
        exact ⟨(hlists.trans hlists').trans hfind.1, (hcur.trans hcur').trans hfind.2⟩
      · obtain ⟨hlists, hcur⟩ := requestUnless_lists s t.when
        exact ⟨hlists.trans hfind.1, hcur.trans hfind.2⟩

omit [DecidableEq α] in
theorem Serving.kept (h : Serving t) (hk : RunKept t t') : Serving t' where
  agree := hk.agree
  cur := by rw [hk.cur, hk.runList, h.cur]

theorem Serving.reset (h : Serving t) (hsaved : t.cur ≠ some e) (w : SysTime) :
    Serving (t.resetEvent e) ∧ (t.lists.nodes .runList).Perm
      (t.cancelledBy (.schedule e w .reset) ++ (t.resetEvent e).lists.nodes .runList) := by
  obtain ⟨hlists, hcur⟩ := resetEvent_lists t e
  by_cases hhead : t.lists.head e = some .runList
  · have hmem := (h.agree.mem .runList e).2 hhead
    have hnodes : (t.resetEvent e).lists.nodes .runList = (t.lists.nodes .runList).erase e := by
      rw [hlists]
      exact nodes_lockedDetach hhead
    refine ⟨⟨?_, ?_⟩, ?_⟩
    · rw [hlists]
      exact h.agree.detach e
    · -- the first of the list is another event
      rw [hcur, hnodes, h.cur]
      cases hrun : t.lists.nodes .runList with
      | nil => rfl
      | cons a rest =>
        have hne : a ≠ e := by
          rintro rfl
          apply hsaved
          rw [h.cur, hrun]
          rfl
        rw [List.erase_cons_tail (by simpa using hne)]
        rfl
    · rw [cancelledBy, if_pos hhead, hnodes]
      exact List.perm_cons_erase hmem
  · have hk : RunKept t (t.resetEvent e) := by
      refine ⟨?_, hcur, ?_⟩
      · rw [hlists]
        exact h.agree.detach e
      · rw [hlists]
        cases hl : t.lists.head e with
        | none => rw [AutoLists.detach, hl]
        | some l =>
          rw [AutoLists.detach, hl]
          apply Function.update_of_ne
          rintro rfl
          exact hhead hl
    refine ⟨h.kept hk, ?_⟩
    rw [cancelledBy, if_neg hhead, hk.runList]
    exact .refl _

theorem Serving.runNext (h : Serving t) : Serving t.runNext ∧ (t.lists.nodes .runList).Perm
    (t.cur.toList ++ t.runNext.lists.nodes .runList) := by
  have hcur := h.cur
  unfold SchedulerTimer.runNext
  cases hrun : t.lists.nodes .runList with
  | nil =>
    rw [hrun] at hcur
    simp only [hcur, hrun, List.head?_nil, List.foldl_nil]
    refine ⟨⟨h.agree, ?_⟩, ?_⟩
    · rw [hcur, hrun]
    · exact .nil
  | cons a rest =>
    rw [hrun] at hcur
    have hhead : t.lists.head a = some .runList := by
      rw [← h.agree.mem, hrun]
      exact List.mem_cons_self
    have hnext : t.lists.next a = rest.head? := by
      rw [AutoLists.next, hhead]
      simp [hrun]
    have hrest : (t.lists.detach a).nodes .runList = rest := by
      have herase := nodes_lockedDetach hhead
      rw [hrun, List.erase_cons_head] at herase
      exact herase
    simp only [hcur, List.head?_cons, hnext]
    refine ⟨⟨h.agree.detach a, ?_⟩, ?_⟩
    · show rest.head? = ((t.lists.detach a).nodes .runList).head?
      rw [hrest]
    · show (a :: rest).Perm (a :: (t.lists.detach a).nodes .runList)
      rw [hrest]

theorem Serving.step (h : Serving t) {op : Op α} (hop : t.serves op) :
    Serving (t.step op) ∧ (t.lists.nodes .runList).Perm
      (t.ranBy op ++ t.cancelledBy op ++ (t.step op).lists.nodes .runList) := by
  have hkept : ∀ {t'}, RunKept t t' →
      Serving t' ∧ (t.lists.nodes .runList).Perm (t'.lists.nodes .runList) := by
    intro t' hk
    refine ⟨h.kept hk, ?_⟩
    rw [hk.runList]
  have hrefl : RunKept t t := ⟨h.agree, rfl, rfl⟩
  cases op with
  | schedule e w kind =>
    obtain ⟨hadm, hsaved⟩ := hop
    cases kind with
    | reset => exact h.reset (hsaved rfl) w
    | absolute => exact hkept (runKept_absoluteEvent h.agree hadm w)
    | relative => exact hkept (runKept_relativeEvent h.agree hadm w)
    | queryNow => exact hkept (hrefl.of_lists rfl rfl)
    | queryTicksPerSecond => exact hkept hrefl
    | invalid => exact hkept hrefl
  | timerInterrupt turns => exact hop.elim
  | runNext =>
    have hnone : t.cancelledBy .runNext = [] := rfl
    rw [hnone, List.append_nil]
    exact h.runNext

theorem Serving.perm : ∀ {ops : List (Op α)} {t : SchedulerTimer α}, Serving t →
    servingMachine.Admits t ops →
    Serving (ops.foldl SchedulerTimer.step t) ∧ (t.lists.nodes .runList).Perm
      (t.ran ops ++ t.cancelled ops ++ (ops.foldl SchedulerTimer.step t).lists.nodes .runList) := by
  intro ops
  induction ops with
  | nil => exact fun h _ => ⟨h, .refl _⟩
  | cons op ops ih =>
    intro t h hops
    obtain ⟨hserving, hstep⟩ := h.step hops.1
    obtain ⟨hend, hrest⟩ := ih hserving hops.2
    refine ⟨hend, hstep.trans ?_⟩
    rw [ran, cancelled]
    refine (hrest.append_left _).trans ?_
    rw [List.perm_iff_count]
    intro a
    simp only [List.count_append, List.foldl_cons]
    omega

/-! ## What an interrupt delivers -/

/-- A request is outstanding after the interrupt: one was made in it, which is every reading of the
clock but the first, or the time of the last one has not come. -/
def Outstanding (t r : SchedulerTimer α) : Prop := t.reads + 1 < r.reads ∨ r.now < r.requested

/-- What the interrupt has done at the start of the loop over the run list, and what that loop
does, whatever the handlers schedule or reset. -/
structure Delivered (t r : SchedulerTimer α) : Prop where
  due : ∀ x, t.Pending x → t.event x ≤ t.clock t.reads → x ∈ r.lists.nodes .runList
  early : ∀ x ∈ r.lists.nodes .runList, t.Pending x ∧ t.event x ≤ r.now
  later : ∀ x, t.Pending x → r.now < t.event x → r.Pending x
  request : ∀ x, r.Pending x → Outstanding t r ∧ r.requested ≤ t.event x
  runs : ∀ ops, servingMachine.Admits r ops → (ops.foldl SchedulerTimer.step r).cur = none →
    ∀ x, (r.ran ops).count x = if x ∈ r.lists.nodes .runList ∧ x ∉ r.cancelled ops then 1 else 0

/-- The interrupt gets to the loop over the run list and delivers exactly what is due. -/
def DeliversDue (t : SchedulerTimer α) : Prop :=
  ∃ turns r, t.timerInterrupt turns = some r ∧ Delivered t r

/-- No interrupt is being served. -/
def Idle (t : SchedulerTimer α) : Prop := t.cur = none ∧ t.lists.nodes .runList = []

theorem Serving.count (h : Serving t) {ops : List (Op α)} (hops : servingMachine.Admits t ops)
    (hdone : (ops.foldl SchedulerTimer.step t).cur = none) (x : α) : (t.ran ops).count x =
      if x ∈ t.lists.nodes .runList ∧ x ∉ t.cancelled ops then 1 else 0 := by
  obtain ⟨hend, hperm⟩ := h.perm hops
  have hnil : (ops.foldl SchedulerTimer.step t).lists.nodes .runList = [] := by
    rw [← List.head?_eq_none_iff, ← hend.cur]
    exact hdone
  rw [hnil, List.append_nil] at hperm
  have hnodup := hperm.nodup_iff.1 (h.agree.nodup .runList)
  have hmem : x ∈ t.lists.nodes .runList ↔ x ∈ t.ran ops ∨ x ∈ t.cancelled ops := by
    rw [hperm.mem_iff, List.mem_append]
  split
  · rename_i hturn
    exact List.count_eq_one_of_mem hnodup.of_append_left
      ((hmem.1 hturn.1).resolve_right hturn.2)
  · rename_i hturn
    apply List.count_eq_zero.2
    intro hran
    exact hturn ⟨hmem.2 (.inl hran), fun hcancelled =>
      List.disjoint_of_nodup_append hnodup hran hcancelled⟩

theorem Sound.timerInterrupt_total (h : Sound t) (hnow : t.when ≤ t.clock t.reads)
    (htime : ClockInTime t) : ∃ turns m, Swept t.readClock m ∧ m.now ≤ m.when ∧
      t.timerInterrupt turns = some { m with cur := (m.lists.nodes .runList).head? } := by
  have hclock : ClockInTime t.readClock := fun n hn => htime n (Nat.le_of_succ_le hn)
  obtain ⟨n, m, hm, hswept, hdone⟩ := interruptLoop_total _ (le_refl _) h.toSorted.readClock
    h.table (.inl rfl) (htime _ (le_refl _)) hclock
  have hskip : ¬ t.readClock.now < t.readClock.when := not_lt.2 hnow
  refine ⟨n, m, hswept, hdone, ?_⟩
  unfold SchedulerTimer.timerInterrupt
  have hloop : t.readClock.interruptLoop t.when n = some m := hm
  simp only [if_neg hskip, hloop]
  rfl

theorem Sound.delivered (h : Sound t) (hidle : t.Idle) (hlt : t.when < t.clock t.reads)
    (htime : ClockInTime t) : t.DeliversDue := by
  obtain ⟨turns, m, hswept, hdone, hr⟩ := h.timerInterrupt_total (le_of_lt hlt) htime
  have hsound := h.timerInterrupt hr
  have hserving : Serving { m with cur := (m.lists.nodes .runList).head? } := ⟨hsound.agree, rfl⟩
  have hmem : ∀ x, x ∈ m.lists.nodes .runList ↔ m.lists.head x = some .runList := fun x =>
    hsound.agree.mem .runList x
  obtain ⟨hreads, hentered⟩ := hswept.entered hlt
  refine ⟨turns, _, hr, ?_, ?_, ?_, ?_, ?_⟩
  · intro x hx hdue
    rcases hswept.left x hx with hp | hrun
    · exact absurd hdue (not_le.2 (hentered x hp))
    · exact (hmem x).2 hrun
  · intro x hx
    rcases hswept.due x ((hmem x).1 hx) with hrun | hdue
    · have hnil := (h.agree.mem .runList x).2 hrun
      rw [hidle.2] at hnil
      cases hnil
    · exact hdue
  · intro x hx hlater
    rcases hswept.left x hx with hp | hrun
    · exact hp
    · rcases hswept.due x hrun with hrun | ⟨-, hle⟩
      · exact absurd hrun (Pending.ne_runList hx)
      · exact absurd hle (not_le.2 hlater)
  · intro x hx
    refine ⟨.inl hreads, ?_⟩
    have hle := hsound.when_le hx
    rw [hsound.requested]
    have hevent : m.event x = t.event x := congrFun hswept.event x
    rw [← hevent]
    exact hle
  · exact fun ops hops hend x => hserving.count hops hend x

omit [DecidableEq α] in
theorem le_of_eq {v w : SysTime} (h : v = w) : v ≤ w := h ▸ le_refl v

theorem timerInterrupt_at (hnow : t.clock t.reads = t.when) {turns : ℕ}
    (hr : t.timerInterrupt turns = some r) :
    r = { t.readClock with cur := (t.lists.nodes .runList).head? } := by
  have hskip : ¬ t.readClock.now < t.readClock.when := not_lt.2 (le_of_eq hnow.symm)
  have hstop : ¬ t.readClock.now > t.readClock.when := not_lt.2 (le_of_eq hnow)
  have hloop : t.readClock.interruptLoop t.when turns = some t.readClock := by
    cases turns with
    | zero => exact if_neg hstop
    | succ n => exact if_neg hstop
  unfold SchedulerTimer.timerInterrupt at hr
  simp only [if_neg hskip, hloop] at hr
  exact (Option.some.inj hr).symm

/-- The interrupt delivers what is due exactly if the clock has passed `when`, or nothing is
pending. -/
theorem Sound.deliversDue_iff (h : Sound t) (hidle : t.Idle) (hnow : t.when ≤ t.clock t.reads)
    (htime : ClockInTime t) :
    t.DeliversDue ↔ t.clock t.reads ≠ t.when ∨ ∀ x, ¬ t.Pending x := by
  by_cases hat : t.clock t.reads = t.when
  · constructor
    · rintro ⟨turns, r, hr, hdel⟩
      obtain rfl := timerInterrupt_at hat hr
      right
      intro x hx
      -- the event is still pending, and the request has been served
      obtain ⟨houtstanding, -⟩ := hdel.request x hx
      rcases houtstanding with hreads | hlater
      · exact absurd hreads (Nat.lt_irrefl _)
      · have hsame : t.requested = t.clock t.reads := h.requested.trans hat.symm
        change t.clock t.reads < t.requested at hlater
        rw [hsame] at hlater
        exact absurd hlater (lt_irrefl _)
    · intro hnone
      have hnone := hnone.resolve_left (not_not.2 hat)
      obtain ⟨turns, m, -, -, hr⟩ := h.timerInterrupt_total hnow htime
      have hserving : Serving { t.readClock with cur := (t.lists.nodes .runList).head? } :=
        ⟨h.agree, rfl⟩
      refine ⟨turns, _, hr.trans (congrArg some (timerInterrupt_at hat hr)), ?_, ?_, ?_, ?_, ?_⟩
      · exact fun x hx => absurd hx (hnone x)
      · intro x hx
        have hnil : x ∈ t.lists.nodes .runList := hx
        rw [hidle.2] at hnil
        cases hnil
      · exact fun x hx => absurd hx (hnone x)
      · exact fun x hx => absurd hx (hnone x)
      · exact fun ops hops hend x => hserving.count hops hend x
  · refine iff_of_true (h.delivered hidle ?_ htime) (.inl hat)
    exact UInt64.lt_of_le_of_ne hnow (Ne.symm hat)

/-- In every run in which no step passes over an earlier event, an interrupt with the clock at
`when` or later, and in time, delivers exactly the events that are due, if and only if the clock
has passed `when` or nothing is pending. -/
theorem run_deliversDue_iff (event : α → SysTime) (ticksPerSecond : SysTime)
    (clock : ℕ → SysTime) (hclock : ∀ m n, m ≤ n → clock m ≤ clock n) {ops : List (Op α)}
    {t : SchedulerTimer α} (h : inOrderMachine.Run (init event ticksPerSecond clock) ops t)
    (hidle : t.Idle) (hnow : t.when ≤ t.clock t.reads) (htime : ClockInTime t) :
    t.DeliversDue ↔ t.clock t.reads ≠ t.when ∨ ∀ x, ¬ t.Pending x := by
  have hsound : Sound t := by
    refine h.invariant (sound_init event ticksPerSecond hclock) ?_
    rintro s op hs ⟨hadm, hop⟩
    exact hs.step hadm hop
  exact hsound.deliversDue_iff hidle hnow htime

/-- Two events are due, one in the immediate list and one two buckets on. -/
def scheduleTwo : List (Op ℕ) :=
  [.schedule 0 100 .absolute, .schedule 1 (2 * BUCKET_TICKS + 50) .absolute]

theorem run_deliversDue_iff_scheduleTwo :
    let t := scheduleTwo.foldl inOrderMachine.step (init (fun _ => 0) 1000 jumpingClock)
    t.DeliversDue ↔ t.clock t.reads ≠ t.when ∨ ∀ x, ¬ t.Pending x := by
  intro t
  have hadmits : inOrderMachine.Admits (init (fun _ => 0) 1000 jumpingClock) scheduleTwo := by
    decide +kernel
  have htime : ClockInTime t := by
    intro n hn
    have hlate : 1 ≤ t.reads := by decide +kernel
    have hclock : t.clock n = 2 * BUCKET_TICKS + 60 := by
      show jumpingClock n = _
      exact if_neg (by omega)
    rw [hclock]
    show bucket _ + 128 < 2 ^ 42
    decide +kernel
  exact run_deliversDue_iff _ _ _ jumpingClock_nondecreasing hadmits.run
    ⟨by decide +kernel, by decide +kernel⟩ (by decide +kernel) htime

/-- A clock that is read at 5 and then at 100. -/
def punctualClock (n : ℕ) : SysTime := if n < 1 then 5 else 100

theorem punctualClock_nondecreasing (m n : ℕ) (h : m ≤ n) :
    punctualClock m ≤ punctualClock n := by
  unfold punctualClock
  by_cases hn : n < 1
  · rw [if_pos hn, if_pos (by omega)]
    exact le_refl _
  · rw [if_neg hn]
    split
    · decide
    · exact le_refl _

/-- An event that is due at the very time of the interrupt is not delivered. -/
theorem not_deliversDue_punctual :
    ¬ ∀ (event : ℕ → SysTime) (ticksPerSecond : SysTime) (clock : ℕ → SysTime),
      (∀ m n, m ≤ n → clock m ≤ clock n) → ∀ (ops : List (Op ℕ)) (t : SchedulerTimer ℕ),
        machine.Run (init event ticksPerSecond clock) ops t → t.Idle →
          t.when ≤ t.clock t.reads → t.DeliversDue := by
  intro hall
  have hadmits : machine.Admits (init (fun _ => 0) 1000 punctualClock)
      [.schedule 0 100 .absolute] := by decide +kernel
  obtain ⟨turns, r, hr, hdel⟩ := hall (fun _ => 0) 1000 punctualClock punctualClock_nondecreasing _
    _ hadmits.run ⟨by decide +kernel, by decide +kernel⟩ (by decide +kernel)
  have hat := timerInterrupt_at (by decide +kernel) hr
  have hdue := hdel.due 0 (.inl (by decide +kernel)) (by decide +kernel)
  rw [hat] at hdue
  revert hdue
  decide +kernel

end SchedulerTimer

end K42
