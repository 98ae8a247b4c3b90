import K42.Lib.AutoList
import K42.Lib.Word
import K42.Exception.KernelTimer

/-!
# The timer of a dispatcher

`SchedulerTimer` multiplexes the one timer a dispatcher gets from the kernel. Events
that are due in the bucket of the current time are on an unsorted list, the first of
them being the anchor; all others are in a table of buckets, where events that are
whole revolutions apart share a slot. `when` is the time asked of the kernel: the time
of the anchor, or else the start of a bucket that has events.

The clock can be read in user mode (`usermodeClock`). Every reading, by `getClock` or
as the result of a request to the kernel, is the next value of `clock`.

`handleEvent` is called last, on the expired events one by one; what it schedules is a
further operation, made while the events whose turn is still to come are on the run
list.
-/

namespace K42

/-! ## Buckets -/

/-- Bits in the window of the immediate bucket. -/
def IMMBITS : SysTime := 22

def BUCKET_TICKS : SysTime := 1 <<< IMMBITS

/-- `PAGE_SIZE / sizeof(AutoListHead)`, where a head is a table pointer and three links. -/
def TABLE_SIZE : SysTime := 4096 / 32

def bucketStart (curr : SysTime) : SysTime := curr &&& ~~~(BUCKET_TICKS - 1)

def bucketEnd (curr : SysTime) : SysTime := (curr &&& ~~~(BUCKET_TICKS - 1)) + BUCKET_TICKS - 1

def timeIndex (t : SysTime) : SysTime := (t >>> IMMBITS) &&& (TABLE_SIZE - 1)

/-- The lists an event can be on: the immediate one, a slot of the table, and the list
of expired events of an interrupt. -/
inductive TimerList
  | immediate | slot (i : SysTime) | runList
deriving DecidableEq

/-- The timer with its events `α`. `event` is the time of each event, `requested` what
the kernel was last asked for, and `cur` where the loop of an interrupt over its run
list goes on. -/
structure SchedulerTimer (α : Type) where
  lists : AutoLists TimerList α
  anchor : Option α
  now : SysTime
  when : SysTime
  event : α → SysTime
  requested : SysTime
  cur : Option α
  ticksPerSecond : SysTime
  clock : ℕ → SysTime
  reads : ℕ

namespace SchedulerTimer

variable {α : Type} [DecidableEq α]

def init (event : α → SysTime) (ticksPerSecond : SysTime) (clock : ℕ → SysTime) :
    SchedulerTimer α where
  lists := .empty
  anchor := none
  now := 0
  when := -1
  event := event
  requested := -1
  cur := none
  ticksPerSecond := ticksPerSecond
  clock := clock
  reads := 0

/-! ## The clock and the kernel -/

/-- `now = getClock()`, or a query to the kernel. -/
def readClock (t : SchedulerTimer α) : SchedulerTimer α :=
  { t with now := t.clock t.reads, reads := t.reads + 1 }

/-- `_TIMER_REQUEST` of `when`; the time `-1` withdraws the request. -/
def request (t : SchedulerTimer α) : SchedulerTimer α :=
  { t.readClock with requested := t.when }

/-- The request is made only for a new time. -/
def requestUnless (t : SchedulerTimer α) (old : SysTime) : SchedulerTimer α :=
  if old ≠ t.when then t.request else t

/-! ## Lists -/

def append (t : SchedulerTimer α) (l : TimerList) (e : α) : SchedulerTimer α :=
  { t with lists := t.lists.append l e }

def prepend (t : SchedulerTimer α) (l : TimerList) (e : α) : SchedulerTimer α :=
  { t with lists := t.lists.prepend l e }

def lockedDetach (t : SchedulerTimer α) (e : α) : SchedulerTimer α :=
  { t with lists := t.lists.detach e }

def setAnchor (t : SchedulerTimer α) (e : α) : SchedulerTimer α :=
  { t with anchor := some e, when := t.event e }

/-- Whether there is no anchor or `before` holds of its time. -/
def noAnchorOr (t : SchedulerTimer α) (before : SysTime → Bool) : Bool :=
  match t.anchor with
  | none => true
  | some a => before (t.event a)

/-- Goes on to the next bucket while the slot is neither `stop` nor in use. A turn of
the whole table is enough. -/
def skipEmpty (t : SchedulerTimer α) (stop : SysTime) : ℕ → SysTime → SysTime
  | 0, slot => slot
  | n + 1, slot =>
    if timeIndex slot ≠ stop ∧ (t.lists.nodes (.slot (timeIndex slot))).isEmpty then
      skipEmpty t stop n (slot + BUCKET_TICKS)
    else slot

/-- The scan from the bucket after that of `base`, over the whole table. -/
def scan (t : SchedulerTimer α) (stop base : SysTime) : SysTime :=
  t.skipEmpty stop TABLE_SIZE.toNat (bucketStart (base + BUCKET_TICKS))

/-! ## Scheduling -/

def considerAnchor (t : SchedulerTimer α) (e : α) : SchedulerTimer α :=
  if t.noAnchorOr (fun w => w > t.event e) then t.setAnchor e else t

/-- The earliest event of the immediate list becomes the anchor. -/
def findAnchor (t : SchedulerTimer α) : SchedulerTimer α :=
  (t.lists.nodes .immediate).foldl considerAnchor { t with anchor := none, when := -1 }

/-- The next bucket in use after that of the event that was taken off. -/
def nextBucket (t : SchedulerTimer α) (e : α) : SchedulerTimer α :=
  let currSlot := t.scan (timeIndex (t.event e)) (t.event e)
  { t with when := if timeIndex currSlot = timeIndex (t.event e) then -1 else currSlot }

def resetEvent (t : SchedulerTimer α) (e : α) : SchedulerTimer α :=
  match t.lists.head e with
  | none => t
  | some list =>
    let old := t.when
    let isAnchor := t.anchor = some e
    let t := t.lockedDetach e
    -- the bucket of the event is still in use
    if ¬ isAnchor ∧ ¬ (t.when = bucketStart (t.event e) ∧ t.lists.nodes list = []) then t
    else
      let t := if isAnchor then t.findAnchor else t
      let t := if t.anchor = none then t.nextBucket e else t
      t.requestUnless old

/-- The event is due: it is handled at once. -/
def expireNow (t : SchedulerTimer α) (e : α) : SchedulerTimer α :=
  let t := t.readClock
  { t with event := Function.update t.event e t.now }.lockedDetach e

/-- The event goes on the immediate list or into its bucket. -/
def placeEvent (t : SchedulerTimer α) (e : α) : SchedulerTimer α :=
  if t.event e ≤ bucketEnd t.now then
    if t.noAnchorOr (fun w => w > t.event e) then
      ((t.append .immediate e).setAnchor e).requestUnless t.when
    else t.prepend .immediate e
  else if t.event e < t.when then
    { t.append (.slot (timeIndex (t.event e))) e with
      when := bucketStart (t.event e)
      anchor := none }.requestUnless t.when
  else t.append (.slot (timeIndex (t.event e))) e

def absoluteEvent (t : SchedulerTimer α) (e : α) (whenTime : SysTime) : SchedulerTimer α :=
  if whenTime ≤ t.now then t.expireNow e
  else { t with event := Function.update t.event e whenTime }.placeEvent e

def relativeEvent (t : SchedulerTimer α) (e : α) (whenTime : SysTime) : SchedulerTimer α :=
  if whenTime = 0 then t.expireNow e
  else
    let t := t.readClock
    t.absoluteEvent e (whenTime + t.now)

/-- The state after the call and what it returns. -/
def disabledScheduleEvent (t : SchedulerTimer α) (e : α) (whenTime : SysTime) (kind : TimerKind) :
    SchedulerTimer α × SysTime :=
  match kind with
  | .invalid => (t, 0)
  | .queryTicksPerSecond => (t, t.ticksPerSecond)
  | .queryNow => (t.readClock, t.readClock.now)
  | .reset => (t.resetEvent e, (t.resetEvent e).now)
  | .relative => (t.relativeEvent e whenTime, (t.relativeEvent e whenTime).now)
  | .absolute => (t.absoluteEvent e whenTime, (t.absoluteEvent e whenTime).now)

/-! ## Interrupts -/

/-- Moves an event to the list of expired ones. -/
def expire (t : SchedulerTimer α) (e : α) : SchedulerTimer α :=
  (t.lockedDetach e).prepend .runList e

def sortImmediate (t : SchedulerTimer α) (e : α) : SchedulerTimer α :=
  if t.event e ≤ t.now then t.expire e
  else if t.noAnchorOr (fun w => t.event e ≤ w) then t.setAnchor e
  else t

def migrateEvent (stop : SysTime) (t : SchedulerTimer α) (e : α) : SchedulerTimer α :=
  if t.event e ≤ t.now then t.expire e
  else if t.event e ≤ bucketEnd stop then
    let t := (t.lockedDetach e).append .immediate e
    if t.noAnchorOr (fun w => t.event e ≤ w) then t.setAnchor e else t
  else t

/-- Fuelled by the number of buckets there are: a loop that does not end within these
never ends. -/
def migrateLoop (stop : SysTime) : ℕ → SysTime → SchedulerTimer α → Option (SchedulerTimer α)
  | 0, _, _ => none
  | n + 1, start, t =>
    if bucketEnd start ≤ bucketEnd stop then
      migrateLoop stop n (start + BUCKET_TICKS)
        ((t.lists.nodes (.slot (timeIndex start))).foldl (migrateEvent stop) t)
    else some t

def migrate (t : SchedulerTimer α) (start stop : SysTime) : Option (SchedulerTimer α) :=
  migrateLoop stop (2 ^ 42 + 1) start t

/-- With no anchor left, the timer is set for the next bucket in use. -/
def nextAfter (t : SchedulerTimer α) (old : SysTime) : SchedulerTimer α :=
  let nextSlot := t.scan (timeIndex old) t.now
  { t with
    when :=
      if timeIndex t.now = timeIndex nextSlot ∧ t.lists.nodes (.slot (timeIndex nextSlot)) = [] then -1
      else nextSlot }

/-- One turn of the loop of `timerInterrupt`, entered with `when` at `old`. -/
def turn (old : SysTime) (t : SchedulerTimer α) : Option (SchedulerTimer α) := do
  let t :=
    match t.anchor with
    | none => t
    | some cur => { t with anchor := none }.expire cur
  let t := (t.lists.nodes .immediate).foldl sortImmediate t
  let t ← t.migrate old t.now
  let t := if t.anchor = none then t.nextAfter old else t
  return t.requestUnless old

def interruptLoop (old : SysTime) : ℕ → SchedulerTimer α → Option (SchedulerTimer α)
  | 0, t => if t.now > t.when then none else some t
  | n + 1, t =>
    if t.now > t.when then (t.turn old).bind (interruptLoop old n)
    else some t

/-- Up to the loop over the run list; `turns` bounds the turns of the first loop. -/
def timerInterrupt (t : SchedulerTimer α) (turns : ℕ) : Option (SchedulerTimer α) := do
  let old := t.when
  let t := t.readClock
  let t := if t.now < t.when then t.request else t
  let t ← t.interruptLoop old turns
  return { t with cur := (t.lists.nodes .runList).head? }

/-- One turn of the loop over the run list, up to the call of `handleEvent`; after the
last one the list goes out of scope. -/
def runNext (t : SchedulerTimer α) : SchedulerTimer α :=
  match t.cur with
  | some e => { t with cur := t.lists.next e }.lockedDetach e
  | none => (t.lists.nodes .runList).foldl lockedDetach t

end SchedulerTimer

end K42
