import K42.Scheduler.SchedulerTimer

/-!
# Scheduling keeps the timer sorted

The invariant of a dispatcher's timer and what `disabledScheduleEvent` does to it. Times
are compared through the numbers of their buckets wherever a slot of the table or the end
of a bucket is meant, so that the wrap-around of the slots is arithmetic on numbers.
-/

open Function (update)

namespace K42

open UInt64 (le_iff_toNat_le le_of_lt le_refl le_trans ofNat toNat_add toNat_and toNat_inj
  toNat_ofNat')


/-! ## Buckets by number -/

/-- The number of the bucket a time is in. -/
def bucket (t : SysTime) : ℕ := t.toNat / 2 ^ 22

theorem bucket_lt (t : SysTime) : bucket t < 2 ^ 42 := by
  have hlt := t.toNat_lt
  unfold bucket
  omega

theorem toNat_bucketStart (t : SysTime) : (bucketStart t).toNat = bucket t * 2 ^ 22 := by
  have hmask : (~~~(BUCKET_TICKS - 1)).toNat = 2 ^ 64 - 1 - (2 ^ 22 - 1) := by decide
  rw [bucketStart, toNat_and, hmask]
  exact MachineWord.andNot_two_pow t.toNat_lt (by omega)

theorem toNat_bucketEnd (t : SysTime) : (bucketEnd t).toNat = bucket t * 2 ^ 22 + (2 ^ 22 - 1) := by
  have hstart := toNat_bucketStart t
  have hticks : BUCKET_TICKS.toNat = 2 ^ 22 := by decide
  have hlt := bucket_lt t
  rw [bucketStart] at hstart
  rw [bucketEnd, UInt64.toNat_sub, toNat_add, hstart, hticks, UInt64.toNat_one]
  omega

theorem timeIndex_eq (t : SysTime) : timeIndex t = ofNat (bucket t % 128) := by
  apply toNat_inj.1
  have hmask : (TABLE_SIZE - 1).toNat = 2 ^ 7 - 1 := by decide
  have hbits : IMMBITS.toNat = 22 := by decide
  have hshift : 22 % 64 = 22 := rfl
  rw [timeIndex, toNat_and, hmask, Nat.and_two_pow_sub_one_eq_mod, UInt64.toNat_shiftRight,
    hbits, hshift, Nat.shiftRight_eq_div_pow, toNat_ofNat']
  unfold bucket
  omega

variable {a b : SysTime}

theorem timeIndex_inj :
    timeIndex a = timeIndex b ↔ bucket a % 128 = bucket b % 128 := by
  rw [timeIndex_eq, timeIndex_eq, ← toNat_inj, toNat_ofNat', toNat_ofNat']
  omega

theorem bucket_add (t : SysTime) : bucket (t + BUCKET_TICKS) = (bucket t + 1) % 2 ^ 42 := by
  have hticks : BUCKET_TICKS.toNat = 2 ^ 22 := by decide
  have hlt := t.toNat_lt
  unfold bucket
  rw [toNat_add, hticks]
  omega

theorem bucket_mono (h : a ≤ b) : bucket a ≤ bucket b :=
  Nat.div_le_div_right (le_iff_toNat_le.1 h)

theorem le_bucketEnd : a ≤ bucketEnd b ↔ bucket a ≤ bucket b := by
  rw [le_iff_toNat_le, toNat_bucketEnd]
  unfold bucket
  omega

theorem bucketEnd_le : bucketEnd a ≤ bucketEnd b ↔ bucket a ≤ bucket b := by
  rw [le_iff_toNat_le, toNat_bucketEnd, toNat_bucketEnd]
  omega

theorem bucketStart_le : bucketStart a ≤ b ↔ bucket a ≤ bucket b := by
  rw [le_iff_toNat_le, toNat_bucketStart]
  unfold bucket
  omega

theorem bucket_bucketStart (t : SysTime) : bucket (bucketStart t) = bucket t := by
  have h := toNat_bucketStart t
  rw [bucket, h]
  omega

theorem bucketStart_bucketStart (t : SysTime) : bucketStart (bucketStart t) = bucketStart t := by
  apply toNat_inj.1
  rw [toNat_bucketStart, toNat_bucketStart, bucket_bucketStart]

theorem bucketStart_add (t : SysTime) :
    bucketStart (t + BUCKET_TICKS) = bucketStart t + BUCKET_TICKS := by
  apply toNat_inj.1
  have hticks : BUCKET_TICKS.toNat = 2 ^ 22 := by decide
  have hlt := bucket_lt t
  rw [toNat_bucketStart, bucket_add, toNat_add, toNat_bucketStart, hticks]
  omega

namespace SchedulerTimer

variable {α : Type} {t t' : SchedulerTimer α} {e x a : α}

/-! ## The invariant -/

def InTable (t : SchedulerTimer α) (x : α) : Prop := ∃ i, t.lists.head x = some (.slot i)

/-- On the immediate list or in a bucket of the table. -/
def Pending (t : SchedulerTimer α) (x : α) : Prop :=
  t.lists.head x = some .immediate ∨ t.InTable x

/-- Events are where their times say, and the clock has not gone back. -/
structure Placed (t : SchedulerTimer α) : Prop where
  agree : t.lists.Agree
  slot : ∀ x i, t.lists.head x = some (.slot i) → i = timeIndex (t.event x)
  immediate : ∀ x, t.lists.head x = some .immediate → bucket (t.event x) ≤ bucket t.now
  nondecreasing : ∀ m n, m ≤ n → t.clock m ≤ t.clock n
  behind : t.now ≤ t.clock t.reads

/-- The anchor is the first of the immediate list, and `when` is its time. -/
structure Anchored (t : SchedulerTimer α) : Prop where
  anchor : ∀ a, t.anchor = some a → t.lists.head a = some .immediate ∧ t.when = t.event a
  first : ∀ x, t.lists.head x = some .immediate → ∃ a, t.anchor = some a ∧ t.event a ≤ t.event x

structure Sorted (t : SchedulerTimer α) : Prop extends Placed t, Anchored t where
  table : ∀ x, t.InTable x → t.when ≤ t.event x

theorem Sorted.when_le (h : Sorted t) (hx : t.Pending x) : t.when ≤ t.event x := by
  rcases hx with hx | hx
  · obtain ⟨a, ha, hle⟩ := h.first x hx
    rw [(h.anchor a ha).2]
    exact hle
  · exact h.table x hx

theorem Placed.mem_slot (h : Placed t) (hx : t.InTable x) :
    x ∈ t.lists.nodes (.slot (timeIndex (t.event x))) := by
  obtain ⟨i, hi⟩ := hx
  rw [h.agree.mem, hi, h.slot x i hi]

theorem Anchored.not_immediate (h : Anchored t) (hnone : t.anchor = none) :
    t.lists.head x ≠ some .immediate := by
  intro hx
  obtain ⟨a, ha, -⟩ := h.first x hx
  rw [hnone] at ha
  cases ha

/-! ## The scan for a bucket in use -/

theorem skipEmpty_spec (t : SchedulerTimer α) (stop : SysTime) : ∀ (n : ℕ) (slot : SysTime),
    ∃ j, bucket (t.skipEmpty stop n slot) = (bucket slot + j) % 2 ^ 42 ∧
      (∀ k < j, ofNat ((bucket slot + k) % 128) ≠ stop ∧
        t.lists.nodes (.slot (ofNat ((bucket slot + k) % 128))) = []) ∧
      (j < n → timeIndex (t.skipEmpty stop n slot) = stop ∨
        t.lists.nodes (.slot (timeIndex (t.skipEmpty stop n slot))) ≠ []) := by
  intro n
  induction n with
  | zero =>
    intro slot
    refine ⟨0, ?_, nofun, nofun⟩
    rw [skipEmpty, Nat.add_zero, Nat.mod_eq_of_lt (bucket_lt slot)]
  | succ n ih =>
    intro slot
    rw [skipEmpty]
    by_cases hskip : timeIndex slot ≠ stop ∧ (t.lists.nodes (.slot (timeIndex slot))).isEmpty
    · obtain ⟨j, hbucket, hpassed, hend⟩ := ih (slot + BUCKET_TICKS)
      rw [if_pos hskip]
      refine ⟨j + 1, ?_, ?_, fun hj => hend (by omega)⟩
      · rw [hbucket, bucket_add]
        omega
      · intro k hk
        rcases k with _ | k
        · rw [Nat.add_zero, ← timeIndex_eq]
          exact ⟨hskip.1, List.isEmpty_iff.1 hskip.2⟩
        · have hnext := hpassed k (by omega)
          rw [bucket_add] at hnext
          have hsame : ((bucket slot + 1) % 2 ^ 42 + k) % 128 = (bucket slot + (k + 1)) % 128 := by
            omega
          rw [hsame] at hnext
          exact hnext
    · rw [if_neg hskip]
      refine ⟨0, ?_, nofun, ?_⟩
      · rw [Nat.add_zero, Nat.mod_eq_of_lt (bucket_lt slot)]
      · intro _
        by_contra hcon
        rw [not_or, not_not] at hcon
        exact hskip ⟨hcon.1, List.isEmpty_iff.2 hcon.2⟩

theorem bucketStart_skipEmpty (t : SchedulerTimer α) (stop : SysTime) : ∀ (n : ℕ) (slot : SysTime),
    bucketStart slot = slot → bucketStart (t.skipEmpty stop n slot) = t.skipEmpty stop n slot := by
  intro n
  induction n with
  | zero => exact fun slot h => h
  | succ n ih =>
    intro slot h
    rw [skipEmpty]
    split
    · apply ih
      rw [bucketStart_add, h]
    · exact h

theorem scan_spec (t : SchedulerTimer α) (stop base : SysTime) :
    ∃ j, bucket (t.scan stop base) = (bucket base + 1 + j) % 2 ^ 42 ∧
      (∀ k < j, ofNat ((bucket base + 1 + k) % 128) ≠ stop ∧
        t.lists.nodes (.slot (ofNat ((bucket base + 1 + k) % 128))) = []) ∧
      (j < 128 → timeIndex (t.scan stop base) = stop ∨
        t.lists.nodes (.slot (timeIndex (t.scan stop base))) ≠ []) := by
  obtain ⟨j, hbucket, hpassed, hend⟩ :=
    t.skipEmpty_spec stop TABLE_SIZE.toNat (bucketStart (base + BUCKET_TICKS))
  have hslot : ∀ k, ((bucket base + 1) % 2 ^ 42 + k) % 128 = (bucket base + 1 + k) % 128 := by
    intro k
    omega
  rw [bucket_bucketStart, bucket_add] at hbucket hpassed
  refine ⟨j, ?_, ?_, hend⟩
  · rw [scan, hbucket]
    omega
  · intro k hk
    rw [← hslot k]
    exact hpassed k hk

theorem Placed.scan_le (h : Placed t) {stop base : SysTime} (hx : t.InTable x)
    (hlater : bucket base < bucket (t.event x)) : t.scan stop base ≤ t.event x := by
  obtain ⟨j, hbucket, hpassed, -⟩ := t.scan_spec stop base
  have haligned : bucketStart (t.scan stop base) = t.scan stop base := by
    apply bucketStart_skipEmpty
    exact bucketStart_bucketStart _
  have hlt := bucket_lt (t.event x)
  have hj : bucket base + 1 + j ≤ bucket (t.event x) := by
    by_contra hcon
    have hempty := (hpassed (bucket (t.event x) - (bucket base + 1)) (by omega)).2
    have hk : bucket base + 1 + (bucket (t.event x) - (bucket base + 1)) = bucket (t.event x) := by
      omega
    have hmem := h.mem_slot hx
    rw [hk, ← timeIndex_eq] at hempty
    rw [hempty] at hmem
    cases hmem
  rw [← haligned, bucketStart_le, hbucket, Nat.mod_eq_of_lt (by omega)]
  exact hj

theorem Placed.scan_all (h : Placed t) {stop base : SysTime} (hx : t.InTable x)
    (hback : timeIndex (t.scan stop base) = timeIndex base) :
    timeIndex (t.event x) = timeIndex base := by
  obtain ⟨j, hbucket, hpassed, -⟩ := t.scan_spec stop base
  by_contra hother
  rw [timeIndex_inj] at hback hother
  have hempty := (hpassed ((bucket (t.event x) + (127 - bucket base % 128)) % 128) (by omega)).2
  have hk : (bucket base + 1 + (bucket (t.event x) + (127 - bucket base % 128)) % 128) % 128 =
      bucket (t.event x) % 128 := by
    omega
  have hmem := h.mem_slot hx
  rw [hk, ← timeIndex_eq] at hempty
  rw [hempty] at hmem
  cases hmem

/-! ## Single updates -/

theorem Placed.readClock (h : Placed t) : Placed t.readClock where
  agree := h.agree
  slot := h.slot
  immediate := fun x hx => le_trans (h.immediate x hx) (bucket_mono h.behind)
  nondecreasing := h.nondecreasing
  behind := h.nondecreasing _ _ (Nat.le_succ _)

theorem Sorted.readClock (h : Sorted t) : Sorted t.readClock where
  toPlaced := h.toPlaced.readClock
  anchor := h.anchor
  first := h.first
  table := h.table

theorem Sorted.request (h : Sorted t) : Sorted t.request where
  agree := h.readClock.agree
  slot := h.readClock.slot
  immediate := h.readClock.immediate
  nondecreasing := h.readClock.nondecreasing
  behind := h.readClock.behind
  anchor := h.anchor
  first := h.first
  table := h.table

theorem Sorted.requestUnless (h : Sorted t) (old : SysTime) : Sorted (t.requestUnless old) := by
  unfold SchedulerTimer.requestUnless
  split
  · exact h.request
  · exact h

theorem requestUnless_requested {old : SysTime} (h : t.requested = old) :
    (t.requestUnless old).requested = (t.requestUnless old).when := by
  unfold requestUnless
  split
  · rfl
  · rename_i hsame
    rw [h, not_not.1 hsame]

variable [DecidableEq α]

theorem Sorted.setEvent (h : Sorted t) (he : t.lists.head e = none) (w : SysTime) :
    Sorted { t with event := update t.event e w } := by
  have hkeep : ∀ x l, t.lists.head x = some l → update t.event e w x = t.event x := by
    intro x l hx
    apply Function.update_of_ne
    rintro rfl
    rw [he] at hx
    cases hx
  constructor
  · refine ⟨h.agree, ?_, ?_, h.nondecreasing, h.behind⟩
    · intro x i hx
      change i = timeIndex (update t.event e w x)
      rw [hkeep x _ hx]
      exact h.slot x i hx
    · intro x hx
      change bucket (update t.event e w x) ≤ bucket t.now
      rw [hkeep x _ hx]
      exact h.immediate x hx
  · constructor
    · intro a ha
      obtain ⟨hhead, hwhen⟩ := h.anchor a ha
      refine ⟨hhead, ?_⟩
      change t.when = update t.event e w a
      rw [hkeep a _ hhead]
      exact hwhen
    · intro x hx
      obtain ⟨a, ha, hle⟩ := h.first x hx
      refine ⟨a, ha, ?_⟩
      change update t.event e w a ≤ update t.event e w x
      rw [hkeep a _ (h.anchor a ha).1, hkeep x _ hx]
      exact hle
  · rintro x ⟨i, hx⟩
    change t.when ≤ update t.event e w x
    rw [hkeep x _ hx]
    exact h.table x ⟨i, hx⟩

variable {l : TimerList} {w : SysTime}

theorem head_lockedDetach :
    (t.lockedDetach e).lists.head x = some l ↔ x ≠ e ∧ t.lists.head x = some l := by
  rw [lockedDetach, AutoLists.head_detach]
  by_cases hx : x = e
  · subst x
    simp
  · simp [hx]

theorem Placed.lockedDetach (h : Placed t) (e : α) : Placed (t.lockedDetach e) where
  agree := h.agree.detach e
  slot := fun x i hx => h.slot x i (head_lockedDetach.1 hx).2
  immediate := fun x hx => h.immediate x (head_lockedDetach.1 hx).2
  nondecreasing := h.nondecreasing
  behind := h.behind

theorem Sorted.lockedDetach (h : Sorted t) (he : t.anchor ≠ some e) : Sorted (t.lockedDetach e) := by
  constructor
  · exact h.toPlaced.lockedDetach e
  · constructor
    · intro a ha
      refine ⟨head_lockedDetach.2 ⟨?_, (h.anchor a ha).1⟩, (h.anchor a ha).2⟩
      rintro rfl
      exact he ha
    · exact fun x hx => h.first x (head_lockedDetach.1 hx).2
  · rintro x ⟨i, hx⟩
    exact h.table x ⟨i, (head_lockedDetach.1 hx).2⟩

theorem head_insert {m : TimerList} {L : AutoLists TimerList α}
    (hL : L.head = update t.lists.head e (some l)) :
    L.head x = some m ↔ (x = e ∧ m = l) ∨ (x ≠ e ∧ t.lists.head x = some m) := by
  rw [hL]
  by_cases hx : x = e
  · subst x
    simp [eq_comm]
  · simp [hx]

theorem Placed.insertImmediate (h : Placed t) {L : AutoLists TimerList α} (hagree : L.Agree)
    (hL : L.head = update t.lists.head e (some .immediate))
    (hnow : bucket (t.event e) ≤ bucket t.now) : Placed { t with lists := L } := by
  refine ⟨hagree, ?_, ?_, h.nondecreasing, h.behind⟩
  · intro x i hx
    rcases (head_insert hL).1 hx with ⟨-, hm⟩ | ⟨-, hx⟩
    · cases hm
    · exact h.slot x i hx
  · intro x hx
    rcases (head_insert hL).1 hx with ⟨rfl, -⟩ | ⟨-, hx⟩
    · exact hnow
    · exact h.immediate x hx

theorem Sorted.appendAnchor (h : Sorted t) (he : t.lists.head e = none)
    (hnow : bucket (t.event e) ≤ bucket t.now) (hfirst : ∀ x, t.Pending x → t.event e ≤ t.event x) :
    Sorted ((t.append .immediate e).setAnchor e) := by
  have hL : (t.lists.append .immediate e).head =
      update t.lists.head e (some .immediate) := rfl
  have hplaced := h.toPlaced.insertImmediate (h.agree.append he) hL hnow
  refine ⟨⟨hplaced.agree, hplaced.slot, hplaced.immediate, hplaced.nondecreasing, hplaced.behind⟩,
    ⟨?_, ?_⟩, ?_⟩
  · rintro a ⟨⟩
    exact ⟨(head_insert hL).2 (.inl ⟨rfl, rfl⟩), rfl⟩
  · intro x hx
    refine ⟨e, rfl, ?_⟩
    rcases (head_insert hL).1 hx with ⟨rfl, -⟩ | ⟨-, hx⟩
    · exact le_refl _
    · exact hfirst x (.inl hx)
  · rintro x ⟨i, hx⟩
    rcases (head_insert hL).1 hx with ⟨-, hm⟩ | ⟨-, hx⟩
    · cases hm
    · exact hfirst x (.inr ⟨i, hx⟩)

theorem Sorted.prependImmediate (h : Sorted t) (he : t.lists.head e = none)
    (hnow : bucket (t.event e) ≤ bucket t.now) (ha : t.anchor = some a)
    (hle : t.event a ≤ t.event e) : Sorted (t.prepend .immediate e) := by
  have hL : (t.lists.prepend .immediate e).head =
      update t.lists.head e (some .immediate) := rfl
  refine ⟨h.toPlaced.insertImmediate (h.agree.prepend he) hL hnow, ⟨?_, ?_⟩, ?_⟩
  · intro b hb
    obtain ⟨hhead, hwhen⟩ := h.anchor b hb
    refine ⟨(head_insert hL).2 (.inr ⟨?_, hhead⟩), hwhen⟩
    rintro rfl
    rw [he] at hhead
    cases hhead
  · intro x hx
    rcases (head_insert hL).1 hx with ⟨rfl, -⟩ | ⟨-, hx⟩
    · exact ⟨a, ha, hle⟩
    · exact h.first x hx
  · rintro x ⟨i, hx⟩
    rcases (head_insert hL).1 hx with ⟨-, hm⟩ | ⟨-, hx⟩
    · cases hm
    · exact h.table x ⟨i, hx⟩

theorem Placed.appendSlot (h : Placed t) (he : t.lists.head e = none) :
    Placed (t.append (.slot (timeIndex (t.event e))) e) := by
  have hL : (t.lists.append (.slot (timeIndex (t.event e))) e).head =
      update t.lists.head e (some (.slot (timeIndex (t.event e)))) := rfl
  refine ⟨h.agree.append he, ?_, ?_, h.nondecreasing, h.behind⟩
  · intro x i hx
    rcases (head_insert hL).1 hx with ⟨rfl, hm⟩ | ⟨-, hx⟩
    · cases hm
      rfl
    · exact h.slot x i hx
  · intro x hx
    rcases (head_insert hL).1 hx with ⟨-, hm⟩ | ⟨-, hx⟩
    · cases hm
    · exact h.immediate x hx

/-- An event that is put in the table, with `when` no later than it and no later than before. -/
theorem Sorted.appendSlot (h : Sorted t) (he : t.lists.head e = none) {o : Option α}
    (hevent : w ≤ t.event e) (hwhen : w ≤ t.when)
    (hanchor : o = t.anchor ∧ w = t.when ∨ o = none ∧ t.anchor = none) :
    Sorted { t.append (.slot (timeIndex (t.event e))) e with when := w, anchor := o } := by
  have hL : (t.lists.append (.slot (timeIndex (t.event e))) e).head =
      update t.lists.head e (some (.slot (timeIndex (t.event e)))) := rfl
  have hplaced := h.toPlaced.appendSlot he
  refine ⟨⟨hplaced.agree, hplaced.slot, hplaced.immediate, hplaced.nondecreasing, hplaced.behind⟩,
    ⟨?_, ?_⟩, ?_⟩
  · intro b hb
    change o = some b at hb
    rcases hanchor with ⟨rfl, rfl⟩ | ⟨rfl, -⟩
    · obtain ⟨hhead, hb⟩ := h.anchor b hb
      refine ⟨(head_insert hL).2 (.inr ⟨?_, hhead⟩), hb⟩
      rintro rfl
      rw [he] at hhead
      cases hhead
    · cases hb
  · intro x hx
    rcases (head_insert hL).1 hx with ⟨-, hm⟩ | ⟨-, hhead⟩
    · cases hm
    · rcases hanchor with ⟨rfl, -⟩ | ⟨-, hnone⟩
      · exact h.first x hhead
      · exact absurd hhead (h.toAnchored.not_immediate hnone)
  · rintro x ⟨i, hx⟩
    rcases (head_insert hL).1 hx with ⟨rfl, -⟩ | ⟨-, hx⟩
    · exact hevent
    · exact le_trans hwhen (h.table x ⟨i, hx⟩)

/-! ## Scheduling -/

/-- Outside of a call the request is for `when`. -/
structure Sound (t : SchedulerTimer α) : Prop extends Sorted t where
  requested : t.requested = t.when

omit [DecidableEq α] in
theorem Anchored.ne_anchor (h : Anchored t) (he : t.lists.head e ≠ some .immediate) :
    t.anchor ≠ some e :=
  fun ha => he (h.anchor e ha).1

/-- No event of the table is earlier than `w`. -/
def noneBefore (t : SchedulerTimer α) (w : SysTime) : Prop :=
  ∀ i < TABLE_SIZE.toNat, ∀ x ∈ t.lists.nodes (.slot (UInt64.ofNat i)), w ≤ t.event x

omit [DecidableEq α] in
theorem Placed.le_of_noneBefore (h : Placed t) (hw : t.noneBefore w)
    (hx : t.InTable x) : w ≤ t.event x := by
  apply hw (bucket (t.event x) % 128)
  · exact Nat.mod_lt _ (by decide)
  · rw [← timeIndex_eq]
    exact h.mem_slot hx

theorem Sound.expireNow (h : Sound t) (he : t.lists.head e = none) : Sound (t.expireNow e) := by
  have hclock : t.readClock.lists.head e = none := he
  have hanchor : t.anchor ≠ some e := h.ne_anchor (by simp [he])
  exact ⟨(h.toSorted.readClock.setEvent hclock t.readClock.now).lockedDetach hanchor, h.requested⟩

omit [DecidableEq α] in
theorem noAnchorOr_eq {before : SysTime → Bool} :
    t.noAnchorOr before = true ↔ ∀ a, t.anchor = some a → before (t.event a) = true := by
  unfold noAnchorOr
  cases t.anchor <;> simp

theorem Sound.placeEvent (h : Sound t) (he : t.lists.head e = none)
    (hfirst : t.anchor = none → t.event e ≤ bucketEnd t.now →
      ∀ x, t.InTable x → t.event e ≤ t.event x) : Sound (t.placeEvent e) := by
  unfold SchedulerTimer.placeEvent
  split
  · rename_i hend
    have hnow := le_bucketEnd.1 hend
    split
    · rename_i hbefore
      rw [noAnchorOr_eq] at hbefore
      refine ⟨Sorted.requestUnless (h.toSorted.appendAnchor he hnow ?_) _,
        requestUnless_requested h.requested⟩
      intro x hx
      cases hanchor : t.anchor with
      | none =>
        rcases hx with hx | hx
        · exact absurd hx (h.not_immediate hanchor)
        · exact hfirst hanchor hend x hx
      | some a =>
        have hlt := of_decide_eq_true (hbefore a hanchor)
        rw [← (h.anchor a hanchor).2] at hlt
        exact le_of_lt (UInt64.lt_of_lt_of_le hlt (h.when_le hx))
    · rename_i hbefore
      rw [noAnchorOr_eq] at hbefore
      push Not at hbefore
      obtain ⟨a, ha, hle⟩ := hbefore
      have hle : t.event a ≤ t.event e := by simpa using hle
      exact ⟨h.toSorted.prependImmediate he hnow ha hle, h.requested⟩
  · rename_i hend
    rw [le_bucketEnd, not_le] at hend
    split
    · rename_i hlt
      have hstart : bucketStart (t.event e) ≤ t.event e := bucketStart_le.2 (le_refl _)
      -- the anchor would be due in the bucket of `now`, before the event
      have hnone : t.anchor = none := by
        by_contra hsome
        obtain ⟨a, ha⟩ := Option.ne_none_iff_exists'.1 hsome
        obtain ⟨hhead, hwhen⟩ := h.anchor a ha
        have hle := bucket_mono (le_of_lt hlt)
        rw [hwhen] at hle
        have := h.immediate a hhead
        omega
      have hsorted := h.toSorted.appendSlot he hstart
        (le_trans hstart (le_of_lt hlt)) (.inr ⟨rfl, hnone⟩)
      exact ⟨hsorted.requestUnless _, requestUnless_requested h.requested⟩
    · rename_i hge
      exact ⟨h.toSorted.appendSlot he (UInt64.not_lt.1 hge) (le_refl _) (.inl ⟨rfl, rfl⟩),
        h.requested⟩

/-- An event that joins the immediate list with no anchor there has no earlier one in the
table. -/
def firstIfAnchor (t : SchedulerTimer α) (w : SysTime) : Prop :=
  t.anchor = none → t.now < w → w ≤ bucketEnd t.now → t.noneBefore w

theorem Sound.absoluteEvent (h : Sound t) (he : t.lists.head e = none)
    (hfirst : t.firstIfAnchor w) : Sound (t.absoluteEvent e w) := by
  unfold SchedulerTimer.absoluteEvent
  split
  · exact h.expireNow he
  · rename_i hnow
    rw [UInt64.not_le] at hnow
    have hset : Sound { t with event := update t.event e w } :=
      ⟨h.toSorted.setEvent he w, h.requested⟩
    apply hset.placeEvent he
    intro hnone hend x hx
    have hself : update t.event e w e = w := Function.update_self e w t.event
    have hne : x ≠ e := by
      rintro rfl
      obtain ⟨i, hi⟩ := hx
      rw [he] at hi
      cases hi
    change update t.event e w e ≤ bucketEnd t.now at hend
    change update t.event e w e ≤ update t.event e w x
    rw [hself] at hend ⊢
    rw [Function.update_of_ne hne]
    exact h.le_of_noneBefore (hfirst hnone hnow hend) hx

omit [DecidableEq α] in
theorem Sound.readClock (h : Sound t) : Sound t.readClock := ⟨h.toSorted.readClock, h.requested⟩

theorem Sound.relativeEvent (h : Sound t) (he : t.lists.head e = none)
    (hfirst : w ≠ 0 → t.readClock.firstIfAnchor (w + t.readClock.now)) :
    Sound (t.relativeEvent e w) := by
  unfold SchedulerTimer.relativeEvent
  split
  · exact h.expireNow he
  · rename_i hw
    exact h.readClock.absoluteEvent he (hfirst hw)

/-! ## Taking an event off -/

/-- After the events `l`, the anchor is the first of them; nothing else has changed. -/
structure FirstOf (b t : SchedulerTimer α) (l : List α) : Prop where
  same : t = { b with anchor := t.anchor, when := t.when }
  none : t.anchor = none → l = []
  some : ∀ a, t.anchor = some a → a ∈ l ∧ t.when = b.event a ∧ ∀ x ∈ l, b.event a ≤ b.event x

omit [DecidableEq α] in
theorem FirstOf.considerAnchor {b : SchedulerTimer α} {l : List α} (h : FirstOf b t l) (e : α) :
    FirstOf b (t.considerAnchor e) (l ++ [e]) := by
  have hevent : t.event = b.event := (congrArg SchedulerTimer.event h.same).trans rfl
  unfold SchedulerTimer.considerAnchor
  split
  · rename_i hbefore
    rw [noAnchorOr_eq] at hbefore
    refine ⟨?_, nofun, ?_⟩
    · rw [setAnchor, h.same]
    · rintro a ⟨⟩
      refine ⟨by simp, congrFun hevent e, ?_⟩
      intro x hx
      rw [List.mem_append, List.mem_singleton] at hx
      rcases hx with hx | rfl
      · cases hanchor : t.anchor with
        | none =>
          rw [h.none hanchor] at hx
          cases hx
        | some a =>
          have hlt := of_decide_eq_true (hbefore a hanchor)
          rw [hevent] at hlt
          exact le_of_lt (UInt64.lt_of_lt_of_le hlt ((h.some a hanchor).2.2 x hx))
      · exact le_refl _
  · rename_i hbefore
    rw [noAnchorOr_eq] at hbefore
    push Not at hbefore
    obtain ⟨a, ha, hle⟩ := hbefore
    have hle : b.event a ≤ b.event e := by simpa [hevent] using hle
    obtain ⟨hmem, hwhen, hfirst⟩ := h.some a ha
    refine ⟨h.same, ?_, ?_⟩
    · rw [ha]
      exact nofun
    · intro c hc
      rw [ha] at hc
      cases hc
      refine ⟨List.mem_append_left _ hmem, hwhen, ?_⟩
      intro x hx
      rw [List.mem_append, List.mem_singleton] at hx
      rcases hx with hx | rfl
      · exact hfirst x hx
      · exact hle

omit [DecidableEq α] in
theorem findAnchor_firstOf (t : SchedulerTimer α) :
    FirstOf t t.findAnchor (t.lists.nodes .immediate) := by
  unfold findAnchor
  induction t.lists.nodes .immediate using List.reverseRecOn with
  | nil => exact ⟨rfl, fun _ => rfl, nofun⟩
  | append_singleton l e ih =>
    rw [List.foldl_append]
    exact ih.considerAnchor e

/-- What the search after an event has been taken off relies on. When the anchor is taken
off and others are left on the immediate list, the first of these has no earlier event in
the table; when none is left, the slot of the anchor has no event of its bucket, and it is
not the only slot in use. The list tested for being empty is not the run list. -/
def restInOrder (t : SchedulerTimer α) (e : α) : Prop :=
  let rest := (t.lists.nodes .immediate).erase e
  let same := t.lists.nodes (.slot (timeIndex (t.event e)))
  (t.anchor = some e → rest ≠ [] → ∃ a ∈ rest, t.noneBefore (t.event a)) ∧
  (t.anchor = some e → rest = [] →
    (∀ x ∈ same, bucketStart (t.event x) ≠ bucketStart (t.event e)) ∧
    (same = [] ∨ ∃ i < TABLE_SIZE.toNat, UInt64.ofNat i ≠ timeIndex (t.event e) ∧
      t.lists.nodes (.slot (UInt64.ofNat i)) ≠ [])) ∧
  (t.lists.head e = some .runList → t.when ≠ bucketStart (t.event e))

omit [DecidableEq α] in
theorem Placed.setWhen (h : Placed t) (hnone : t.anchor = none)
    (himm : ∀ x, t.lists.head x ≠ some .immediate)
    (hw : ∀ x, t.InTable x → w ≤ t.event x) : Sorted { t with when := w } := by
  refine ⟨⟨h.agree, h.slot, h.immediate, h.nondecreasing, h.behind⟩, ⟨?_, ?_⟩, hw⟩
  · intro a ha
    change t.anchor = some a at ha
    rw [hnone] at ha
    cases ha
  · intro x hx
    exact absurd hx (himm x)

omit [DecidableEq α] in
theorem Placed.nextBucket (h : Placed t) (hnone : t.anchor = none)
    (himm : ∀ x, t.lists.head x ≠ some .immediate)
    (hafter : ∀ x, t.InTable x → bucket (t.event e) < bucket (t.event x))
    (hfound : ∀ x, t.InTable x → ∃ y, t.InTable y ∧ timeIndex (t.event y) ≠ timeIndex (t.event e)) :
    Sorted (t.nextBucket e) := by
  unfold SchedulerTimer.nextBucket
  apply h.setWhen hnone himm
  intro x hx
  split
  · rename_i hback
    obtain ⟨y, hy, hne⟩ := hfound x hx
    exact absurd (h.scan_all hy hback) hne
  · exact h.scan_le hx (hafter x hx)

omit [DecidableEq α] in
theorem Placed.setAnchorWhen (h : Placed t) (o : Option α) (w : SysTime) :
    Placed { t with anchor := o, when := w } :=
  ⟨h.agree, h.slot, h.immediate, h.nondecreasing, h.behind⟩

theorem bucket_lt_of_ne {a b : SysTime} (hle : bucket a ≤ bucket b)
    (hne : bucketStart b ≠ bucketStart a) : bucket a < bucket b := by
  rcases Nat.lt_or_eq_of_le hle with hlt | heq
  · exact hlt
  · apply absurd _ hne
    apply toNat_inj.1
    rw [toNat_bucketStart, toNat_bucketStart, heq]

theorem inTable_lockedDetach : (t.lockedDetach e).InTable x ↔ x ≠ e ∧ t.InTable x := by
  constructor
  · rintro ⟨i, hx⟩
    obtain ⟨hne, hx⟩ := head_lockedDetach.1 hx
    exact ⟨hne, i, hx⟩
  · rintro ⟨hne, i, hx⟩
    exact ⟨i, head_lockedDetach.2 ⟨hne, hx⟩⟩

theorem nodes_lockedDetach (hhead : t.lists.head e = some l) :
    (t.lockedDetach e).lists.nodes l = (t.lists.nodes l).erase e := by
  rw [lockedDetach, AutoLists.detach, hhead]
  exact Function.update_self ..

/-- The anchor is taken off: the next one is sought on the immediate list, and then in the
table. -/
theorem Sound.resetAnchor (h : Sound t) (ha : t.anchor = some e) (hrest : t.restInOrder e)
    {f : SchedulerTimer α} (hf : (t.lockedDetach e).findAnchor = f) :
    Sorted (if f.anchor = none then f.nextBucket e else f) := by
  obtain ⟨hhead, hwhen⟩ := h.anchor e ha
  have hplaced := h.toPlaced.lockedDetach e
  have hfirst := findAnchor_firstOf (t.lockedDetach e)
  rw [hf, nodes_lockedDetach hhead] at hfirst
  clear hf
  have hsame := hfirst.same
  generalize f.anchor = o at *
  generalize f.when = w at *
  subst hsame
  have hmem : ∀ x, (t.lockedDetach e).lists.head x = some .immediate →
      x ∈ (t.lists.nodes .immediate).erase e := by
    intro x hx
    rw [← nodes_lockedDetach hhead, hplaced.agree.mem]
    exact hx
  cases o with
  | none =>
    rw [if_pos rfl]
    have hnil := hfirst.none rfl
    obtain ⟨hbucket, hslots⟩ := hrest.2.1 ha hnil
    apply (hplaced.setAnchorWhen none w).nextBucket rfl
    · intro x hx
      have := hmem x hx
      rw [hnil] at this
      cases this
    · intro x hx
      have hx := (inTable_lockedDetach.1 hx).2
      have hle := h.table x hx
      rw [hwhen] at hle
      by_cases hidx : timeIndex (t.event x) = timeIndex (t.event e)
      · apply bucket_lt_of_ne (bucket_mono hle)
        apply hbucket
        rw [← hidx]
        exact h.mem_slot hx
      · rw [timeIndex_inj] at hidx
        have := bucket_mono hle
        change bucket (t.event e) < bucket (t.event x)
        omega
    · intro x hx
      by_cases hidx : timeIndex (t.event x) = timeIndex (t.event e)
      · rcases hslots with hslots | ⟨i, -, hi, hslots⟩
        · have hmemx := h.mem_slot (inTable_lockedDetach.1 hx).2
          rw [hidx, hslots] at hmemx
          cases hmemx
        · obtain ⟨y, hy⟩ := List.exists_mem_of_ne_nil _ hslots
          have hyhead := (h.agree.mem _ _).1 hy
          have hne : y ≠ e := by
            rintro rfl
            rw [hhead] at hyhead
            cases hyhead
          refine ⟨y, inTable_lockedDetach.2 ⟨hne, _, hyhead⟩, ?_⟩
          rw [h.slot y _ hyhead] at hi
          exact hi
      · exact ⟨x, hx, hidx⟩
  | some a =>
    rw [if_neg nofun]
    obtain ⟨hamem, hawhen, hafirst⟩ := hfirst.some a rfl
    have hahead : (t.lockedDetach e).lists.head a = some .immediate := by
      rw [← hplaced.agree.mem, nodes_lockedDetach hhead]
      exact hamem
    refine ⟨hplaced.setAnchorWhen (some a) w, ⟨?_, ?_⟩, ?_⟩
    · rintro b ⟨⟩
      exact ⟨hahead, hawhen⟩
    · intro x hx
      exact ⟨a, rfl, hafirst x (hmem x hx)⟩
    · intro x hx
      obtain ⟨b, hb, hnone⟩ := hrest.1 ha (List.ne_nil_of_mem hamem)
      have hle := h.le_of_noneBefore hnone (inTable_lockedDetach.1 hx).2
      change w ≤ t.event x
      change w = t.event a at hawhen
      rw [hawhen]
      exact le_trans (hafirst b hb) hle

omit [DecidableEq α] in
theorem nextBucket_requested (t : SchedulerTimer α) (e : α) :
    (t.nextBucket e).requested = t.requested := by
  unfold nextBucket
  generalize t.scan (timeIndex (t.event e)) (t.event e) = slot
  rfl

theorem Sound.resetLast (h : Sound t) (hnone : t.anchor = none) (hrest : t.restInOrder e)
    (hhead : t.lists.head e = some l) (hwhen : t.when = bucketStart (t.event e))
    (hnil : (t.lockedDetach e).lists.nodes l = []) : Sorted ((t.lockedDetach e).nextBucket e) := by
  have hplaced := h.toPlaced.lockedDetach e
  have hother : ∀ x, (t.lockedDetach e).InTable x →
      timeIndex (t.event x) ≠ timeIndex (t.event e) := by
    intro x hx hidx
    cases l with
    | immediate => exact h.not_immediate hnone hhead
    | runList => exact hrest.2.2 hhead hwhen
    | slot i =>
      have hmem := hplaced.mem_slot hx
      change x ∈ (t.lockedDetach e).lists.nodes (.slot (timeIndex (t.event x))) at hmem
      rw [hidx, ← h.slot e i hhead, hnil] at hmem
      cases hmem
  apply hplaced.nextBucket hnone
  · intro x hx
    exact h.not_immediate hnone (head_lockedDetach.1 hx).2
  · intro x hx
    have hle := h.table x (inTable_lockedDetach.1 hx).2
    rw [hwhen, bucketStart_le] at hle
    have hidx := hother x hx
    rw [Ne, timeIndex_inj] at hidx
    change bucket (t.event e) < bucket (t.event x)
    omega
  · intro x hx
    exact ⟨x, hx, hother x hx⟩

theorem Sound.resetEvent (h : Sound t) (hrest : t.restInOrder e) : Sound (t.resetEvent e) := by
  unfold SchedulerTimer.resetEvent
  cases hhead : t.lists.head e with
  | none => exact h
  | some l =>
    by_cases ha : t.anchor = some e
    · simp only [ha, not_true_eq_false, false_and, if_false, if_true]
      refine ⟨(h.resetAnchor ha hrest rfl).requestUnless _, requestUnless_requested ?_⟩
      have hreq : (t.lockedDetach e).findAnchor.requested = t.requested :=
        (congrArg SchedulerTimer.requested (findAnchor_firstOf _).same).trans rfl
      split
      · rw [nextBucket_requested]
        exact hreq.trans h.requested
      · exact hreq.trans h.requested
    · have hsorted := h.toSorted.lockedDetach ha
      simp only [ha, not_false_eq_true, true_and, if_false]
      split
      · exact ⟨hsorted, h.requested⟩
      · rename_i hlast
        rw [not_not] at hlast
        split
        · rename_i hnone
          refine ⟨(h.resetLast hnone hrest hhead hlast.1 hlast.2).requestUnless _,
            requestUnless_requested ?_⟩
          rw [nextBucket_requested]
          exact h.requested
        · exact ⟨hsorted.requestUnless _, requestUnless_requested h.requested⟩

end SchedulerTimer

end K42
