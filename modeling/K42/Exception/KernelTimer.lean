import K42.Lib.Run
import K42.Lib.Linked
import Mathlib.Data.Fintype.Card

/-!
# The kernel timer

`KernelTimer` keeps one timer event for each process annex and chains the active
ones, in order of time, through the annexes themselves. The time of an event is also
what says whether it is active: `(SysTime) -1` stands for "not active".

A loop over the chain that does not end within one turn for each annex never ends;
the functions below return `none` then.
-/

open Function (update update_of_ne update_self)

namespace K42

open Linked

/-- Ticks of the clock, a 64-bit word. -/
abbrev SysTime := UInt64

/-- `_SYSTIME_MAX`, which in an event means "not active". -/
def SYSTIME_MAX : SysTime := -1

theorem le_SYSTIME_MAX (w : SysTime) : w ≤ SYSTIME_MAX := by
  rw [UInt64.le_iff_toNat_le]
  have hlt := w.toNat_lt
  have hmax : SYSTIME_MAX.toNat = 2 ^ 64 - 1 := by decide
  omega

/-- `TimerEvent::Kind`; `invalid` stands for all other values of the word. -/
inductive TimerKind
  | reset | absolute | relative | queryNow | queryTicksPerSecond | invalid
deriving DecidableEq

structure KernelTimerEvent (α : Type) where
  when : SysTime
  next : Option α

/-- The timer of a processor, with the events of its process annexes `α` and the
interval last given to the clock. -/
structure KernelTimer (α : Type) where
  anchor : Option α
  when : SysTime
  dispatchTime : SysTime
  ticksPerSecond : SysTime
  interval : SysTime
  event : α → KernelTimerEvent α

namespace KernelTimer

variable {α : Type}

/-! ## Events -/

def next (t : KernelTimer α) (pa : α) : Option α := (t.event pa).next

def timeOf (t : KernelTimer α) (pa : α) : SysTime := (t.event pa).when

/-- The first event, if it is due before the dispatcher is, or else the dispatcher. -/
def nextWhen (t : KernelTimer α) : SysTime :=
  match t.anchor with
  | some pa => if t.timeOf pa < t.dispatchTime then t.timeOf pa else t.dispatchTime
  | none => t.dispatchTime

/-- The first event has gone: the next interrupt may be later. -/
def delayInterrupt (t : KernelTimer α) (now : SysTime) : KernelTimer α :=
  let newWhen := t.nextWhen
  if t.when < newWhen then
    { t with
      when := newWhen
      interval := if newWhen > now then newWhen - now else t.interval }
  else t

def setDispatchTime (t : KernelTimer α) (now quantum : SysTime) : KernelTimer α :=
  let t := { t with dispatchTime := now + quantum }
  match t.anchor with
  | some pa =>
    if t.timeOf pa < t.dispatchTime then
      if t.when ≠ t.timeOf pa then
        let when := if t.timeOf pa < now then now else t.timeOf pa
        { t with when := when, interval := when - now }
      else t
    else { t with when := t.dispatchTime, interval := quantum }
  | none => { t with when := t.dispatchTime, interval := quantum }

variable {t t' : KernelTimer α} {l : List α} {source : α}

/-- The chain has the annexes `l`: they are in order of time, and they are those with
an active event. -/
structure Chain (t : KernelTimer α) (l : List α) : Prop where
  path : Path t.next t.anchor l
  sorted : l.Pairwise fun a b => t.timeOf a ≤ t.timeOf b
  active : ∀ pa, pa ∈ l ↔ t.timeOf pa ≠ SYSTIME_MAX

theorem Chain.congr (h : Chain t l) (hanchor : t'.anchor = t.anchor) (hevent : t'.event = t.event) :
    Chain t' l := by
  have hnext : t'.next = t.next := by
    funext pa
    rw [next, next, hevent]
  have htime : t'.timeOf = t.timeOf := by
    funext pa
    rw [timeOf, timeOf, hevent]
  constructor
  · rw [hanchor, hnext]
    exact h.path
  · rw [htime]
    exact h.sorted
  · rw [htime]
    exact h.active

theorem delayInterrupt_anchor (t : KernelTimer α) (now : SysTime) :
    (t.delayInterrupt now).anchor = t.anchor := by
  simp only [delayInterrupt]
  split <;> rfl

theorem delayInterrupt_event (t : KernelTimer α) (now : SysTime) :
    (t.delayInterrupt now).event = t.event := by
  simp only [delayInterrupt]
  split <;> rfl

variable [DecidableEq α]

def setWhen (t : KernelTimer α) (pa : α) (when : SysTime) : KernelTimer α :=
  { t with event := update t.event pa { t.event pa with when := when } }

def setNext (t : KernelTimer α) (pa : α) (next : Option α) : KernelTimer α :=
  { t with event := update t.event pa { t.event pa with next := next } }

@[simp] theorem next_setWhen (t : KernelTimer α) (pa : α) (w : SysTime) :
    (t.setWhen pa w).next = t.next := by
  funext a
  by_cases ha : a = pa
  · subst ha
    simp [setWhen, next]
  · simp [setWhen, next, update_of_ne ha]

@[simp] theorem timeOf_setWhen (t : KernelTimer α) (pa : α) (w : SysTime) :
    (t.setWhen pa w).timeOf = update t.timeOf pa w := by
  funext a
  by_cases ha : a = pa
  · subst ha
    simp [setWhen, timeOf]
  · simp [setWhen, timeOf, update_of_ne ha]

@[simp] theorem next_setNext (t : KernelTimer α) (pa : α) (n : Option α) :
    (t.setNext pa n).next = update t.next pa n := by
  funext a
  by_cases ha : a = pa
  · subst ha
    simp [setNext, next]
  · simp [setNext, next, update_of_ne ha]

@[simp] theorem timeOf_setNext (t : KernelTimer α) (pa : α) (n : Option α) :
    (t.setNext pa n).timeOf = t.timeOf := by
  funext a
  by_cases ha : a = pa
  · subst ha
    simp [setNext, timeOf]
  · simp [setNext, timeOf, update_of_ne ha]

theorem pairwise_update {f : α → SysTime} (h : l.Pairwise fun a b => f a ≤ f b) (hs : source ∉ l)
    (w : SysTime) :
    l.Pairwise fun a b => update f source w a ≤ update f source w b := by
  refine h.imp_of_mem ?_
  intro a b ha hb hab
  rw [update_of_ne (ne_of_mem_of_not_mem ha hs), update_of_ne (ne_of_mem_of_not_mem hb hs)]
  exact hab

theorem pairwise_insert {f : α → SysTime} {pre post : List α} {w : SysTime}
    (h : (pre ++ post).Pairwise fun a b => f a ≤ f b) (hs : source ∉ pre ++ post)
    (hpre : ∀ a ∈ pre, f a ≤ w) (hpost : ∀ a ∈ post.head?, ¬ f a ≤ w) :
    (pre ++ source :: post).Pairwise fun a b =>
      update f source w a ≤ update f source w b := by
  have hlater : ∀ b ∈ post, w ≤ f b := by
    intro b hb
    cases post with
    | nil => exact absurd hb List.not_mem_nil
    | cons a post =>
      have ha : w ≤ f a := (UInt64.le_total (f a) w).resolve_left (hpost a rfl)
      rcases List.mem_cons.mp hb with rfl | hb
      · exact ha
      · have hab := List.rel_of_pairwise_cons (List.pairwise_append.mp h).2.1 hb
        exact UInt64.le_trans ha hab
  have hne : ∀ a ∈ pre ++ post, a ≠ source := fun a ha => ne_of_mem_of_not_mem ha hs
  obtain ⟨hsorted, hsortedPost, hacross⟩ := List.pairwise_append.mp (pairwise_update h hs w)
  refine List.pairwise_append.mpr ⟨hsorted, List.pairwise_cons.mpr ⟨?_, hsortedPost⟩, ?_⟩
  · intro b hb
    rw [update_self, update_of_ne (hne b (List.mem_append_right pre hb))]
    exact hlater b hb
  · intro a ha b hb
    rcases List.mem_cons.mp hb with rfl | hb
    · rw [update_self, update_of_ne (hne a (List.mem_append_left post ha))]
      exact hpre a ha
    · exact hacross a ha b hb

/-! ## The operations -/

variable [Fintype α]

/-- `timerRequest(…, TimerEvent::reset, source)` when the clock reads `now`. -/
def reset (t : KernelTimer α) (source : α) (now : SysTime) : Option (KernelTimer α) :=
  if t.timeOf source = SYSTIME_MAX then some t
  else
    match walk t.next (fun pa => pa = source) (Fintype.card α) none t.anchor with
    | none => none
    | some (_, none) => some t
    | some (prev, some cur) =>
      let t := t.setWhen cur SYSTIME_MAX
      match prev with
      | some prev => some (t.setNext prev (t.next cur))
      | none => some ({ t with anchor := t.next cur }.delayInterrupt now)

/-- The chain from the first event later than `whenTime` on goes behind `source`. -/
def insert (t : KernelTimer α) (whenTime : SysTime) (source : α) (now : SysTime) :
    Option (KernelTimer α) :=
  let t := t.setWhen source whenTime
  match walk t.next (fun pa => !(t.timeOf pa ≤ whenTime)) (Fintype.card α) none t.anchor with
  | none => none
  | some (prev, cur) =>
    let t := t.setNext source cur
    match prev with
    | some prev => some (t.setNext prev (some source))
    | none =>
      let t := { t with anchor := some source }
      if whenTime < t.dispatchTime then
        let when := if whenTime < now then now else whenTime
        some { t with when := when, interval := when - now }
      else some t

/-- The case `TimerEvent::absolute`. The clock reads `nowReset` when the event is
reset first. -/
def setEvent (t : KernelTimer α) (whenTime : SysTime) (source : α) (now nowReset : SysTime) :
    Option (KernelTimer α) :=
  if t.timeOf source ≠ SYSTIME_MAX then
    match t.reset source nowReset with
    | none => none
    | some t => t.insert whenTime source now
  else t.insert whenTime source now

/-- The timer afterwards and the time returned. -/
def timerRequest (t : KernelTimer α) (whenTime : SysTime) (kind : TimerKind) (source : α)
    (now nowReset : SysTime) : Option (KernelTimer α × SysTime) :=
  match kind with
  | .invalid => some (t, 0)
  | .queryTicksPerSecond => some (t, t.ticksPerSecond)
  | .queryNow => some (t, now)
  | .reset => (t.reset source now).map fun t => (t, now)
  | .relative =>
    -- a request later than the outstanding one changes nothing
    if t.timeOf source < whenTime + now then some (t, now)
    else (t.setEvent (whenTime + now) source now nowReset).map fun t => (t, now)
  | .absolute => (t.setEvent whenTime source now nowReset).map fun t => (t, now)

/-- The loop of `timerInterrupt`: the events due are marked inactive. The result has
the first event that stays, the timer and the annexes that are interrupted. -/
def expire (now : SysTime) : ℕ → KernelTimer α → Option α → Option (Option α × KernelTimer α × List α)
  | _, t, none => some (none, t, [])
  | 0, t, some cur => if now ≥ t.timeOf cur then none else some (some cur, t, [])
  | n + 1, t, some cur =>
    if now ≥ t.timeOf cur then
      let t := t.setWhen cur SYSTIME_MAX
      (expire now n t (t.next cur)).map fun (cur', t, pas) => (cur', t, cur :: pas)
    else some (some cur, t, [])

/-- The timer afterwards and the annexes that get a `TIMER_EVENT` interrupt. -/
def timerInterrupt (t : KernelTimer α) (now : SysTime) : Option (KernelTimer α × List α) :=
  match expire now (Fintype.card α) t t.anchor with
  | none => none
  | some (cur, t, pas) =>
    let t := { t with
      anchor := cur
      dispatchTime := if now ≥ t.dispatchTime then SYSTIME_MAX else t.dispatchTime }
    some ({ t with when := t.nextWhen, interval := t.nextWhen - now }, pas)

/-! ## Taking an event out -/

omit [DecidableEq α] in
theorem Chain.length_le (h : Chain t l) : l.length ≤ Fintype.card α :=
  h.path.nodup.length_le_card

theorem Chain.reset (h : Chain t l) (source : α) (now : SysTime) :
    ∃ t', t.reset source now = some t' ∧ Chain t' (l.erase source) ∧
      t'.timeOf source = SYSTIME_MAX := by
  by_cases hin : t.timeOf source = SYSTIME_MAX
  · have hnot : source ∉ l := fun hmem => (h.active source).mp hmem hin
    refine ⟨t, ?_, ?_, hin⟩
    · rw [KernelTimer.reset, if_pos hin]
    · rw [List.erase_of_not_mem hnot]
      exact h
  obtain ⟨pre, post, rfl, hpre, hpost, hwalk⟩ :=
    h.path.walk_eq (fun pa => pa = source) h.length_le none
  have hmem := (h.active source).mpr hin
  have hnotpre : source ∉ pre := fun hs => absurd (hpre source hs) (by simp)
  -- the walk has stopped at the event
  obtain ⟨rest, rfl⟩ : ∃ rest, post = source :: rest := by
    cases post with
    | nil =>
      rw [List.append_nil] at hmem
      exact absurd hmem hnotpre
    | cons a rest =>
      obtain rfl : a = source := by simpa using hpost a rfl
      exact ⟨rest, rfl⟩
  have hnotrest : source ∉ rest :=
    (List.nodup_cons.mp (List.nodup_append.mp h.path.nodup).2.1).1
  have herase : (pre ++ source :: rest).erase source = pre ++ rest := by
    rw [List.erase_append_right _ hnotpre, List.erase_cons_head]
  have hnotmem : source ∉ pre ++ rest := by
    rw [List.mem_append]
    exact fun hor => hor.elim hnotpre hnotrest
  have hsub : (pre ++ rest).Sublist (pre ++ source :: rest) :=
    List.Sublist.append_left (List.sublist_cons_self source rest) pre
  have hsorted := pairwise_update (h.sorted.sublist hsub) hnotmem SYSTIME_MAX
  have hactive : ∀ pa, pa ∈ pre ++ rest ↔
      update t.timeOf source SYSTIME_MAX pa ≠ SYSTIME_MAX := by
    intro pa
    by_cases hpa : pa = source
    · subst hpa
      simp [hnotmem]
    · rw [update_of_ne hpa, ← h.active pa]
      simp [hpa]
  rw [KernelTimer.reset, if_neg hin, hwalk, herase]
  rcases List.eq_nil_or_concat pre with rfl | ⟨pre, q, rfl⟩
  · refine ⟨_, rfl, Chain.congr (t := { t.setWhen source SYSTIME_MAX with
      anchor := (t.setWhen source SYSTIME_MAX).next source }) ⟨?_, ?_, ?_⟩
      (delayInterrupt_anchor _ _) (delayInterrupt_event _ _), ?_⟩
    · show Path (t.setWhen source SYSTIME_MAX).next ((t.setWhen source SYSTIME_MAX).next source) _
      rw [next_setWhen]
      exact h.path.2
    · show List.Pairwise (fun a b => (t.setWhen source SYSTIME_MAX).timeOf a ≤
        (t.setWhen source SYSTIME_MAX).timeOf b) _
      rw [timeOf_setWhen]
      exact hsorted
    · show ∀ pa, _ ↔ (t.setWhen source SYSTIME_MAX).timeOf pa ≠ _
      rw [timeOf_setWhen]
      exact hactive
    · rw [timeOf, delayInterrupt_event]
      show (t.setWhen source SYSTIME_MAX).timeOf source = _
      rw [timeOf_setWhen, update_self]
  · have hlast : (pre.concat q).getLast?.or none = some q := by simp
    simp only [hlast]
    simp only [List.concat_eq_append, List.append_assoc, List.singleton_append] at *
    refine ⟨_, rfl, ⟨?_, ?_, ?_⟩, ?_⟩
    · rw [next_setNext, next_setWhen]
      refine h.path.splice h.path.drop.2 ?_
      intro hq
      have hnodup := (List.nodup_append.mp h.path.nodup).2.1
      exact (List.nodup_cons.mp hnodup).1 (List.mem_cons_of_mem source hq)
    · rw [timeOf_setNext, timeOf_setWhen]
      exact hsorted
    · rw [timeOf_setNext, timeOf_setWhen]
      exact hactive
    · rw [timeOf_setNext, timeOf_setWhen, update_self]

/-! ## Putting an event in -/

theorem Chain.insert (h : Chain t l) (hs : source ∉ l) (w now : SysTime) :
    ∃ t' pre post, l = pre ++ post ∧ t.insert w source now = some t' ∧
      Path t'.next t'.anchor (pre ++ source :: post) ∧
      t'.timeOf = update t.timeOf source w ∧
      (∀ a ∈ pre, t.timeOf a ≤ w) ∧ ∀ a ∈ post.head?, ¬ t.timeOf a ≤ w := by
  have htime : ∀ a ∈ l, (t.setWhen source w).timeOf a = t.timeOf a := by
    intro a ha
    rw [timeOf_setWhen, update_of_ne (ne_of_mem_of_not_mem ha hs)]
  have hpath : Path (t.setWhen source w).next (t.setWhen source w).anchor l := by
    rw [next_setWhen]
    exact h.path
  obtain ⟨pre, post, rfl, hpre, hpost, hwalk⟩ := hpath.walk_eq
    (fun pa => !decide ((t.setWhen source w).timeOf pa ≤ w)) h.length_le none
  have hpre' : ∀ a ∈ pre, t.timeOf a ≤ w := by
    intro a ha
    rw [← htime a (List.mem_append_left post ha)]
    simpa using hpre a ha
  have hpost' : ∀ a ∈ post.head?, ¬ t.timeOf a ≤ w := by
    intro a ha
    rw [← htime a (List.mem_append_right pre (List.mem_of_mem_head? ha))]
    simpa using hpost a ha
  have hnotpost : source ∉ post := fun hmem => hs (List.mem_append_right pre hmem)
  simp only [KernelTimer.insert, hwalk]
  rcases List.eq_nil_or_concat pre with rfl | ⟨pre, q, rfl⟩
  · -- in front: `anchor` changes, and perhaps the time of the next interrupt
    have hfirst : Path ((t.setWhen source w).setNext source post.head?).next (some source)
        ([] ++ source :: post) := by
      refine ⟨rfl, ?_⟩
      rw [next_setNext, update_self, next_setWhen]
      rw [List.nil_append] at h
      rw [← h.path.head_eq]
      exact h.path.update hnotpost _
    have hwhen : ((t.setWhen source w).setNext source post.head?).timeOf =
        update t.timeOf source w := by
      rw [timeOf_setNext, timeOf_setWhen]
    simp only [List.getLast?_nil, Option.none_or]
    split
    · exact ⟨_, [], post, rfl, rfl, hfirst, hwhen, hpre', hpost'⟩
    · exact ⟨_, [], post, rfl, rfl, hfirst, hwhen, hpre', hpost'⟩
  · have hlast : (pre.concat q).getLast?.or none = some q := by simp
    simp only [hlast]
    refine ⟨_, pre.concat q, post, rfl, rfl, ?_, ?_, hpre', hpost'⟩
    · rw [next_setNext, next_setNext, next_setWhen]
      show Path _ t.anchor _
      simp only [List.concat_eq_append, List.append_assoc, List.singleton_append] at h hs ⊢
      have hq : q ∉ source :: post := by
        have hnodup := (List.nodup_append.mp h.path.nodup).2.1
        rw [List.mem_cons]
        rintro (rfl | hq)
        · simp at hs
        · exact (List.nodup_cons.mp hnodup).1 hq
      refine (h.path.update hs _).splice ⟨rfl, ?_⟩ hq
      rw [update_self, ← h.path.drop.head_eq]
      exact h.path.drop.update hnotpost _
    · rw [timeOf_setNext, timeOf_setNext, timeOf_setWhen]

theorem Chain.setEvent (h : Chain t l) (w : SysTime) (source : α) (now nowReset : SysTime) :
    ∃ t' m, t.setEvent w source now nowReset = some t' ∧ Path t'.next t'.anchor m ∧ source ∈ m ∧
      t'.timeOf source = w ∧ (w ≠ SYSTIME_MAX → Chain t' m) := by
  -- the event is inactive when it is put in
  have hinsert : ∀ {t : KernelTimer α} {l : List α}, Chain t l → t.timeOf source = SYSTIME_MAX →
      ∃ t' m, t.insert w source now = some t' ∧ Path t'.next t'.anchor m ∧ source ∈ m ∧
        t'.timeOf source = w ∧ (w ≠ SYSTIME_MAX → Chain t' m) := by
    intro t l h hin
    have hs : source ∉ l := fun hmem => (h.active source).mp hmem hin
    obtain ⟨t', pre, post, rfl, hok, hpath, htime, hpre, hpost⟩ := h.insert hs w now
    refine ⟨t', _, hok, hpath, by simp, by rw [htime, update_self], fun hw => ?_⟩
    refine ⟨hpath, ?_, ?_⟩
    · rw [htime]
      exact pairwise_insert h.sorted hs hpre hpost
    · intro pa
      rw [htime]
      by_cases hpa : pa = source
      · subst hpa
        simp [hw]
      · rw [update_of_ne hpa, ← h.active pa]
        simp [hpa]
  rw [KernelTimer.setEvent]
  by_cases hin : t.timeOf source = SYSTIME_MAX
  · rw [if_neg (by simpa using hin)]
    exact hinsert h hin
  · obtain ⟨t₁, hreset, hchain, hinactive⟩ := h.reset source nowReset
    rw [if_pos hin, hreset]
    exact hinsert hchain hinactive

/-! ## The timer interrupt -/

omit [Fintype α] in
theorem expire_eq (now : SysTime) {cur : Option α} (hpath : Path t.next cur l) {n : ℕ}
    (hn : l.length ≤ n) :
    ∃ pre post t', l = pre ++ post ∧ expire now n t cur = some (post.head?, t', pre) ∧
      t'.anchor = t.anchor ∧ t'.next = t.next ∧
      ∀ a, t'.timeOf a = if a ∈ pre then SYSTIME_MAX else t.timeOf a := by
  induction l generalizing t cur n with
  | nil =>
    obtain rfl : cur = none := hpath
    refine ⟨[], [], t, rfl, ?_, rfl, rfl, by simp⟩
    cases n <;> rfl
  | cons a l ih =>
    obtain ⟨rfl, hl⟩ := hpath
    obtain ⟨n, rfl⟩ : ∃ m, n = m + 1 := ⟨n - 1, by simp at hn; omega⟩
    rw [expire]
    by_cases hdue : now ≥ t.timeOf a
    · have hl' : Path (t.setWhen a SYSTIME_MAX).next ((t.setWhen a SYSTIME_MAX).next a) l := by
        rw [next_setWhen]
        exact hl
      obtain ⟨pre, post, t', rfl, hok, hanchor, hnext, htime⟩ :=
        ih hl' (Nat.le_of_succ_le_succ hn)
      refine ⟨a :: pre, post, t', rfl, ?_, hanchor, ?_, ?_⟩
      · simp only [if_pos hdue, hok]
        rfl
      · rw [hnext, next_setWhen]
      · intro b
        rw [htime, timeOf_setWhen]
        by_cases hb : b = a
        · subst hb
          simp
        · simp [hb]
    · rw [if_neg hdue]
      exact ⟨[], a :: l, t, rfl, rfl, rfl, rfl, by simp⟩

theorem Chain.timerInterrupt (h : Chain t l) (now : SysTime) :
    ∃ t' pas rest, l = pas ++ rest ∧ t.timerInterrupt now = some (t', pas) ∧ Chain t' rest := by
  obtain ⟨pre, post, t', rfl, hok, -, hnext, htime⟩ := expire_eq now h.path h.length_le
  have hdisjoint := List.nodup_append.mp h.path.nodup
  have hchain : Chain { t' with anchor := post.head? } post := by
    have hpost : ∀ a ∈ post, a ∉ pre := fun a ha hpre => hdisjoint.2.2 a hpre a ha rfl
    refine ⟨?_, ?_, ?_⟩
    · show Path t'.next post.head? post
      rw [hnext]
      rcases List.eq_nil_or_concat pre with rfl | ⟨pre, q, rfl⟩
      · have hpath : Path t.next t.anchor post := h.path
        rw [← hpath.head_eq]
        exact hpath
      · have hpath := h.path
        simp only [List.concat_eq_append, List.append_assoc, List.singleton_append] at hpath
        rw [← hpath.drop.head_eq]
        exact hpath.drop
    · show post.Pairwise fun a b => t'.timeOf a ≤ t'.timeOf b
      refine (List.pairwise_append.mp h.sorted).2.1.imp_of_mem ?_
      intro a b ha hb hab
      rw [htime, htime, if_neg (hpost a ha), if_neg (hpost b hb)]
      exact hab
    · intro pa
      show pa ∈ post ↔ t'.timeOf pa ≠ SYSTIME_MAX
      rw [htime]
      by_cases hpa : pa ∈ pre
      · simp only [if_pos hpa, ne_eq, not_true_eq_false, iff_false]
        exact fun hmem => hpost pa hmem hpa
      · rw [if_neg hpa, ← h.active pa]
        simp [hpa]
  refine ⟨_, pre, post, rfl, by simp only [KernelTimer.timerInterrupt, hok]; rfl, ?_⟩
  exact hchain.congr rfl rfl

/-! ## Runs -/

omit [DecidableEq α] [Fintype α] in
theorem Chain.setDispatchTime (h : Chain t l) (now quantum : SysTime) :
    Chain (t.setDispatchTime now quantum) l := by
  refine h.congr ?_ ?_
  · simp only [KernelTimer.setDispatchTime]
    repeat' split
    all_goals rfl
  · simp only [KernelTimer.setDispatchTime]
    repeat' split
    all_goals rfl

inductive Call (α : Type)
  | timerRequest (whenTime : SysTime) (kind : TimerKind) (source : α) (now nowReset : SysTime)
  | setDispatchTime (now quantum : SysTime)
  | timerInterrupt (now : SysTime)

/-- The timer after a call; `none` if the call does not return. -/
def exec (t : KernelTimer α) : Call α → Option (KernelTimer α)
  | .timerRequest whenTime kind source now nowReset =>
    (t.timerRequest whenTime kind source now nowReset).map Prod.fst
  | .setDispatchTime now quantum => some (t.setDispatchTime now quantum)
  | .timerInterrupt now => (t.timerInterrupt now).map Prod.fst

/-- The call does not ask for an event at the time that means "not active". -/
def InTime (t : KernelTimer α) : Call α → Prop
  | .timerRequest whenTime .absolute _ _ _ => whenTime ≠ SYSTIME_MAX
  | .timerRequest whenTime .relative source now _ =>
    whenTime + now ≠ SYSTIME_MAX ∨ t.timeOf source ≠ SYSTIME_MAX
  | _ => True

def calls : Machine (KernelTimer α) (Call α) := ⟨fun t call => (t.exec call).getD t, InTime⟩

/-- `init`; the events are as their constructor leaves them, which does not set `next`. -/
def start (ticksPerSecond interval : SysTime) (next : α → Option α) : KernelTimer α :=
  ⟨none, SYSTIME_MAX, SYSTIME_MAX, ticksPerSecond, interval, fun pa => ⟨SYSTIME_MAX, next pa⟩⟩

omit [DecidableEq α] [Fintype α] in
theorem start_chain (ticksPerSecond interval : SysTime) (next : α → Option α) :
    Chain (start ticksPerSecond interval next) [] :=
  ⟨rfl, .nil, by simp [start, timeOf]⟩

theorem Chain.setEvent_iff (h : Chain t l) (w : SysTime) (source : α) (now nowReset : SysTime) :
    (∃ t', t.setEvent w source now nowReset = some t' ∧ ∃ m, Chain t' m) ↔ w ≠ SYSTIME_MAX := by
  obtain ⟨t', m, hok, hpath, hmem, htime, hchain⟩ := h.setEvent w source now nowReset
  constructor
  · rintro ⟨t'', hok', m', hchain'⟩ hw
    obtain rfl : t' = t'' := Option.some.inj (hok.symm.trans hok')
    rw [hpath.unique hchain'.path, hchain'.active, htime] at hmem
    exact hmem hw
  · exact fun hw => ⟨t', hok, m, hchain hw⟩

theorem Chain.exec_iff (h : Chain t l) (call : Call α) :
    (∃ t', t.exec call = some t' ∧ ∃ m, Chain t' m) ↔ t.InTime call := by
  cases call with
  | timerRequest whenTime kind source now nowReset =>
    cases kind with
    | reset =>
      obtain ⟨t', hok, hchain, -⟩ := h.reset source now
      refine iff_of_true ⟨t', ?_, _, hchain⟩ trivial
      simp [exec, timerRequest, hok]
    | absolute =>
      simp only [InTime, ← h.setEvent_iff whenTime source now nowReset, exec, timerRequest,
        Option.map_map, Option.map_eq_some_iff]
      simp
    | relative =>
      by_cases hlater : t.timeOf source < whenTime + now
      · refine iff_of_true ⟨t, ?_, l, h⟩ (.inr ?_)
        · simp [exec, timerRequest, hlater]
        · intro hin
          rw [hin] at hlater
          exact absurd (le_SYSTIME_MAX _) (UInt64.not_le.mpr hlater)
      · have hexec : t.exec (.timerRequest whenTime .relative source now nowReset) =
            t.setEvent (whenTime + now) source now nowReset := by
          simp only [exec, timerRequest, if_neg hlater, Option.map_map]
          exact Option.map_id'
        rw [hexec, h.setEvent_iff]
        -- an active event is at most as late as the request, so it is not at the end of time
        refine ⟨.inl, fun hor hmax => ?_⟩
        have hactive : t.timeOf source ≠ SYSTIME_MAX := hor.resolve_left (absurd hmax)
        rw [hmax] at hlater
        exact hlater (UInt64.lt_of_le_of_ne (le_SYSTIME_MAX _) hactive)
    | queryNow => exact iff_of_true ⟨t, rfl, l, h⟩ trivial
    | queryTicksPerSecond => exact iff_of_true ⟨t, rfl, l, h⟩ trivial
    | invalid => exact iff_of_true ⟨t, rfl, l, h⟩ trivial
  | setDispatchTime now quantum =>
    exact iff_of_true ⟨_, rfl, l, h.setDispatchTime now quantum⟩ trivial
  | timerInterrupt now =>
    obtain ⟨t', pas, rest, -, hok, hchain⟩ := h.timerInterrupt now
    refine iff_of_true ⟨t', ?_, rest, hchain⟩ trivial
    simp [exec, hok]

/-- In every run of calls in time the chain is in order, and a further call keeps it so
exactly if it is in time. -/
theorem run_chain {ticksPerSecond interval : SysTime} {next : α → Option α} {ops : List (Call α)}
    (hrun : calls.Run (start ticksPerSecond interval next) ops t) :
    ∃ l, Chain t l ∧ l.Nodup ∧
      ∀ call, (∃ t', t.exec call = some t' ∧ ∃ m, Chain t' m) ↔ t.InTime call := by
  have hchain : ∃ l, Chain t l := by
    refine hrun.invariant (I := fun t => ∃ l, Chain t l) ⟨[], start_chain _ _ _⟩ ?_
    rintro t call ⟨l, h⟩ hin
    obtain ⟨t', hok, hchain⟩ := (h.exec_iff call).mpr hin
    show ∃ m, Chain ((t.exec call).getD t) m
    rw [hok]
    exact hchain
  obtain ⟨l, h⟩ := hchain
  exact ⟨l, h, h.path.nodup, h.exec_iff⟩

/-- Two annexes ask for events, one of them twice, and time passes. -/
def requests : List (Call (Fin 2)) :=
  [.timerRequest 9 .absolute 0 1 1, .timerRequest 5 .relative 1 2 2,
    .timerRequest 4 .absolute 0 3 3, .timerInterrupt 4]

theorem run_chain_requests :
    calls.Run (start 1 0 fun _ => none) requests
        (requests.foldl calls.step (start 1 0 fun _ => none)) ∧
      ∃ l, Chain (requests.foldl calls.step (start 1 0 fun _ => none)) l ∧ l.Nodup := by
  have hrun : calls.Run (start 1 0 fun _ => none) requests
      (requests.foldl calls.step (start 1 0 fun _ => none)) := by
    refine Machine.Admits.run ⟨?_, ?_, ?_, trivial, trivial⟩
    · show (9 : SysTime) ≠ SYSTIME_MAX
      decide
    · exact .inl (by decide)
    · show (4 : SysTime) ≠ SYSTIME_MAX
      decide
  obtain ⟨l, h, hnodup, -⟩ := run_chain hrun
  exact ⟨hrun, l, h, hnodup⟩

/-- An event at the end of time is on the chain and counts as inactive. Asking for it
once more makes a cycle, and no further request returns. -/
theorem not_chain_at_end_of_time :
    ∃ t t' : KernelTimer (Fin 2),
      (start 1 0 fun _ => none).exec (.timerRequest SYSTIME_MAX .absolute 0 0 0) = some t ∧
      (¬ ∃ l, Chain t l) ∧
      t.exec (.timerRequest SYSTIME_MAX .absolute 0 0 0) = some t' ∧
      t'.exec (.timerRequest SYSTIME_MAX .absolute 0 0 0) = none := by
  have hstart : Chain (start 1 0 fun _ : Fin 2 => none) [] := start_chain _ _ _
  refine ⟨_, _, rfl, ?_, rfl, by decide⟩
  intro hchain
  exact (hstart.exec_iff (.timerRequest SYSTIME_MAX .absolute 0 0 0)).mp ⟨_, rfl, hchain⟩ rfl

end KernelTimer

end K42
