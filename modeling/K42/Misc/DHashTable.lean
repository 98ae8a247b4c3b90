import Mathlib.Algebra.Group.Nat.Defs
import Mathlib.Data.Finset.Card

/-!
# The distributed hash table and its request count

A table is an array of chains of entries. Lookups take no lock: they read the head of a
chain, walk along it, and push a new entry with a compare and store. Emptied entries
stay in their chains until the table is resized. Whoever works on a table is counted by
its `RequestCountWithStop`, and `doResize` first waits until nobody is counted.

Every access to shared memory is one step, and the steps of different requests
interleave. An address may be used again as soon as the entry there has been deleted.
The thread that resizes is `resizer`; there is one at a time because it holds the lock
of the request count.
-/

namespace K42

/-- What the table asks of `DATA`. -/
class DHashData (δ : Type) where
  getKey : δ → ℕ
  isEmpty : δ → Bool
  /-- A new object, after `init` and `setKey`. -/
  create : ℕ → δ
  setEmpty : δ → δ
  Hash : ℕ → ℕ
  getKey_create : ∀ key, isEmpty (create key) = false → getKey (create key) = key
  isEmpty_setEmpty : ∀ d, isEmpty (setEmpty d) = true

/-- The `DATA` of the test of the table, where one key means empty. -/
structure TestHashData where
  key : ℕ
  data : ℕ
deriving DecidableEq

namespace TestHashData

abbrev INVALID : ℕ := 2 ^ 64 - 1

instance : DHashData TestHashData where
  getKey d := d.key
  isEmpty d := d.key = INVALID
  create key := ⟨key, 0⟩
  setEmpty d := { d with key := INVALID }
  Hash key := key
  getKey_create _ _ := rfl
  isEmpty_setEmpty _ := decide_eq_true rfl

end TestHashData

/-! ## The table -/

/-- `live` are the entries that `new` has returned and that have not been deleted. -/
structure DHashTable (δ : Type) where
  log2numBuckets : ℕ
  minlog2numBuckets : ℕ
  numValues : ℕ
  skip : Bool
  reSizing : Bool
  buckets : ℕ → List ℕ
  data : ℕ → δ
  locked : ℕ → Bool
  live : Finset ℕ

namespace DHashTable

variable {δ : Type} [DHashData δ]

open DHashData

def needGrow (curSize numVal : ℕ) : Bool := curSize < 2 * numVal

def needShrink (curSize minSize numVal : ℕ) : Bool := minSize < curSize ∧ 4 * numVal ≤ curSize

/-- The loop of `calcLog2Buckets` that grows. -/
def growLog2 (numVal : ℕ) : ℕ → ℕ → ℕ
  | 0, i => i
  | fuel + 1, i => if needGrow (2 ^ i) numVal then growLog2 numVal fuel (i + 1) else i

/-- The loop that shrinks; a table of one bucket is not larger than any minimum. -/
def shrinkLog2 (minSize numVal : ℕ) : ℕ → ℕ
  | 0 => 0
  | i + 1 => if needShrink (2 ^ (i + 1)) minSize numVal then shrinkLog2 minSize numVal i else i + 1

def calcLog2Buckets (log2start log2min numVal : ℕ) : ℕ :=
  if needGrow (2 ^ log2start) numVal then growLog2 numVal (2 * numVal) log2start
  else if needShrink (2 ^ log2start) (2 ^ log2min) numVal then
    shrinkLog2 (2 ^ log2min) numVal log2start
  else log2start

/-- The constructor; memory is as `d` says. -/
def init (numEntries minEntries : ℕ) (skip : Bool) (d : δ) : DHashTable δ where
  log2numBuckets := calcLog2Buckets 0 0 minEntries
  minlog2numBuckets := calcLog2Buckets 0 0 numEntries
  numValues := 0
  skip := skip
  reSizing := false
  buckets _ := []
  data _ := d
  locked _ := false
  live := ∅

def hash (t : DHashTable δ) (key : ℕ) : ℕ := (2 ^ t.log2numBuckets - 1) &&& Hash δ key

/-- `e->match(key)`. -/
def matchKey (t : DHashTable δ) (e key : ℕ) : Bool :=
  !isEmpty (t.data e) && key = getKey (t.data e)

def setData (t : DHashTable δ) (e : ℕ) (d : δ) : DHashTable δ :=
  { t with data := Function.update t.data e d }

def setLock (t : DHashTable δ) (e : ℕ) (b : Bool) : DHashTable δ :=
  { t with locked := Function.update t.locked e b }

/-- `numValues.inc()`. In the source `dec` adds one as well. -/
def inc (t : DHashTable δ) : DHashTable δ :=
  { t with numValues := if t.skip then t.numValues else t.numValues + 1 }

def dec (t : DHashTable δ) : DHashTable δ := t.inc

/-- `new AllocHashEntry`, initialized and locked, at a free address. -/
def newEntry (t : DHashTable δ) (e key : ℕ) : DHashTable δ :=
  { (t.setData e (create key)).setLock e true with live := insert e t.live }

def delete (t : DHashTable δ) (e : ℕ) : DHashTable δ := { t with live := t.live.erase e }

/-- `insert`, and what a compare and store that succeeds does. -/
def push (t : DHashTable δ) (b e : ℕ) : DHashTable δ :=
  { t with buckets := Function.update t.buckets b (e :: t.buckets b) }

/-- All entries, in the order in which `doResize` removes them. -/
def chains (t : DHashTable δ) : List ℕ := (List.range (2 ^ t.log2numBuckets)).flatMap t.buckets

/-- The new array of buckets. -/
def newBuckets (t : DHashTable δ) (log2 : ℕ) : DHashTable δ :=
  { t with log2numBuckets := log2, buckets := fun _ => [] }

/-- One turn of the loop of `doResize`: an entry moves to its new bucket or is deleted. -/
def rehash (t : DHashTable δ) (e : ℕ) : DHashTable δ :=
  if isEmpty (t.data e) then t.delete e else t.push (t.hash (getKey (t.data e))) e

end DHashTable

/-! ## The request count -/

/-- The requests counted are those `inside` and the `visitors`, which have found the count
stopped and are about to take themselves out again. `stopped` means that
`LONG_MAX / 2`, which is larger than any number of requests, has been subtracted, and
`waiting` that `shutdownThread` is set. -/
structure RequestCountWithStop where
  inside : Finset ℕ
  visitors : Finset ℕ
  stopped : Bool
  waiting : Bool
  lock : Bool

namespace RequestCountWithStop

def init : RequestCountWithStop := ⟨∅, ∅, false, false, false⟩

/-- The number of requests counted. -/
def requests (c : RequestCountWithStop) : ℕ := c.inside.card + c.visitors.card

/-- The addition in `enterInternal`. -/
def enter (c : RequestCountWithStop) (r : ℕ) : RequestCountWithStop :=
  if c.stopped then { c with visitors := insert r c.visitors }
  else { c with inside := insert r c.inside }

/-- The subtraction in `leave`. -/
def leave (c : RequestCountWithStop) (r : ℕ) : RequestCountWithStop :=
  { c with inside := c.inside.erase r, visitors := c.visitors.erase r }

/-- The one who leaves is the last while the count is stopped, and has to unblock the
thread that waits. -/
def last (c : RequestCountWithStop) : Bool := c.stopped ∧ c.requests = 1

end RequestCountWithStop

/-! ## Requests -/

namespace DHash

/-- The calls: `startEmpty` with a key and with an entry that the caller has locked. -/
inductive Op
  | findOrAllocateAndLock (key : ℕ) (noResize : Bool)
  | startEmpty (key : ℕ)
  | startEmptyData (e : ℕ)
deriving DecidableEq

/-- What is done when the key has been looked up. -/
inductive Lookup
  | findOrAllocate (noResize : Bool)
  | empty
deriving DecidableEq

/-- What a request does after it has left the count. -/
inductive After
  | retry (op : Op)
  | count (e : ℕ) (noResize : Bool)
  | hold (e : ℕ)
  | done
deriving DecidableEq

/-- The next step of a request. `held` is a caller that has the lock of an entry and is
not in the table any more. -/
inductive Pc
  | enter (op : Op)
  | backOut (op : Op)
  | wake (after : After)
  | waitLock (op : Op)
  | findBucket (l : Lookup) (key : ℕ)
  | read (l : Lookup) (key b : ℕ)
  | scan (l : Lookup) (key b : ℕ) (cur : Option ℕ) (rest : List ℕ)
  | lock (l : Lookup) (key b e : ℕ)
  | check (l : Lookup) (key b e : ℕ)
  | allocate (noResize : Bool) (key b : ℕ) (cur : Option ℕ)
  | compareAndStore (noResize : Bool) (key b : ℕ) (cur : Option ℕ) (ne : ℕ)
  | empty (e : ℕ)
  | unlock (e : ℕ)
  | leave (after : After)
  | count (e : ℕ) (noResize : Bool)
  | held (e : ℕ)
deriving DecidableEq

def After.pc : After → Option Pc
  | .retry op => some (.waitLock op)
  | .count e noResize => some (.count e noResize)
  | .hold e => some (.held e)
  | .done => none

/-- `stop`, `doResize` and `restart`. -/
inductive Resizer
  | idle | locked | marked | alone | blocked | stopped | moving (rest : List ℕ) | restart | unlock
deriving DecidableEq

/-- The entries that have been taken out of the old buckets and not yet moved. -/
def Resizer.rest : Resizer → List ℕ
  | .moving rest => rest
  | _ => []

/-- `pending`: `doResize` has been scheduled. -/
structure System (δ : Type) where
  table : DHashTable δ
  requestCount : RequestCountWithStop
  pending : Bool
  resizer : Resizer
  requests : ℕ → Option Pc

namespace System

variable {δ : Type} [DHashData δ]

open DHashData DHashTable

def goto (s : System δ) (r : ℕ) (pc : Option Pc) : System δ :=
  { s with requests := Function.update s.requests r pc }

def setTable (s : System δ) (t : DHashTable δ) : System δ := { s with table := t }

def setCount (s : System δ) (c : RequestCountWithStop) : System δ := { s with requestCount := c }

/-- `leave`: the last one goes on to wake up the thread in `stop`. -/
def leave (s : System δ) (r : ℕ) (after : After) : System δ :=
  (s.setCount (s.requestCount.leave r)).goto r
    (if s.requestCount.last then some (.wake after) else after.pc)

/-- The first step inside. -/
def Op.first : Op → Pc
  | .findOrAllocateAndLock key noResize => .findBucket (.findOrAllocate noResize) key
  | .startEmpty key => .findBucket .empty key
  | .startEmptyData e => .empty e

/-- `numValues.inc()` and `checkResize`, after an entry has been allocated. -/
def checkResize (s : System δ) (noResize : Bool) : System δ :=
  let t := s.table.inc
  if !noResize ∧ needGrow (2 ^ t.log2numBuckets) t.numValues ∧ !t.reSizing then
    { s with table := { t with reSizing := true }, pending := true }
  else s.setTable t

/-- The next step of the request `r`; a new entry gets the address `a`. `none` if the
request has to wait. -/
def step (s : System δ) (r a : ℕ) : Option (System δ) :=
  match s.requests r with
  | none => none
  | some (.enter op) =>
    some ((s.setCount (s.requestCount.enter r)).goto r
      (if s.requestCount.stopped then some (.backOut op) else some (Op.first op)))
  | some (.backOut op) => some (s.leave r (.retry op))
  | some (.wake after) =>
    some ((s.setCount { s.requestCount with waiting := false }).goto r after.pc)
  | some (.waitLock op) => if s.requestCount.lock then none else some (s.goto r (some (.enter op)))
  | some (.findBucket l key) => some (s.goto r (some (.read l key (s.table.hash key))))
  | some (.read l key b) =>
    some (s.goto r (some (.scan l key b (s.table.buckets b).head? (s.table.buckets b))))
  | some (.scan l key b cur (e :: rest)) =>
    some (s.goto r (some
      (if s.table.matchKey e key then .lock l key b e else .scan l key b cur rest)))
  | some (.scan (.findOrAllocate noResize) key b cur []) =>
    some (s.goto r (some (.allocate noResize key b cur)))
  | some (.scan .empty _ _ _ []) => some (s.goto r (some (.leave .done)))
  | some (.lock l key b e) =>
    if s.table.locked e then none
    else some ((s.setTable (s.table.setLock e true)).goto r (some (.check l key b e)))
  | some (.check l key b e) =>
    match l, s.table.matchKey e key with
    | .findOrAllocate _, true => some (s.goto r (some (.leave (.hold e))))
    | .empty, true => some (s.goto r (some (.empty e)))
    -- the bucket is looked up again only by `countedFindAndLock`
    | .findOrAllocate noResize, false =>
      some ((s.setTable (s.table.setLock e false)).goto r
        (some (.read (.findOrAllocate noResize) key b)))
    | .empty, false =>
      some ((s.setTable (s.table.setLock e false)).goto r (some (.findBucket .empty key)))
  | some (.allocate noResize key b cur) =>
    if a ∈ s.table.live then none
    else some ((s.setTable (s.table.newEntry a key)).goto r
      (some (.compareAndStore noResize key b cur a)))
  | some (.compareAndStore noResize key b cur ne) =>
    if (s.table.buckets b).head? = cur then
      some ((s.setTable (s.table.push b ne)).goto r (some (.leave (.count ne noResize))))
    else
      some ((s.setTable (s.table.delete ne)).goto r
        (some (.read (.findOrAllocate noResize) key b)))
  | some (.empty e) =>
    if isEmpty (s.table.data e) then some (s.goto r (some (.unlock e)))
    else
      some ((s.setTable (s.table.setData e (setEmpty (s.table.data e))).dec).goto r
        (some (.unlock e)))
  | some (.unlock e) =>
    some ((s.setTable (s.table.setLock e false)).goto r (some (.leave .done)))
  | some (.leave after) => some (s.leave r after)
  | some (.count e noResize) => some ((s.checkResize noResize).goto r (some (.held e)))
  | some (.held _) => none

/-- The next step of the thread that resizes. -/
def resize (s : System δ) : Option (System δ) :=
  match s.resizer with
  | .idle =>
    if s.pending ∧ !s.requestCount.lock then
      some { s.setCount { s.requestCount with lock := true } with
        pending := false, resizer := .locked }
    else none
  | .locked =>
    if s.requestCount.stopped ∨ s.requestCount.waiting then
      some { s.setCount { s.requestCount with lock := false } with resizer := .idle }
    else
      some { s.setCount { s.requestCount with waiting := true } with resizer := .marked }
  | .marked =>
    some { s.setCount { s.requestCount with stopped := true } with
      resizer := if s.requestCount.requests = 0 then .alone else .blocked }
  | .alone =>
    some { s.setCount { s.requestCount with waiting := false } with resizer := .stopped }
  | .blocked => if s.requestCount.waiting then none else some { s with resizer := .stopped }
  | .stopped =>
    let t := s.table
    let newLog2 := calcLog2Buckets t.log2numBuckets t.minlog2numBuckets t.numValues
    if newLog2 = t.log2numBuckets then
      some { s with table := { t with reSizing := false }, resizer := .restart }
    else some { s with table := t.newBuckets newLog2, resizer := .moving t.chains }
  | .moving (e :: rest) => some { s with table := s.table.rehash e, resizer := .moving rest }
  | .moving [] => some { s with table := { s.table with reSizing := false }, resizer := .restart }
  | .restart => some { s.setCount { s.requestCount with stopped := false } with resizer := .unlock }
  | .unlock => some { s.setCount { s.requestCount with lock := false } with resizer := .idle }

/-- Besides the steps of requests and of the resizing thread: calls begin, and a caller
that holds an entry writes to its data, empties it or unlocks it. -/
inductive Action (δ : Type)
  | call (r : ℕ) (op : Op)
  | step (r a : ℕ)
  | write (r : ℕ) (d : δ)
  | doEmpty (r : ℕ)
  | release (r : ℕ)
  | resize

def act (s : System δ) : Action δ → Option (System δ)
  | .call r op =>
    match s.requests r, op with
    | none, .findOrAllocateAndLock key noResize =>
      some (s.goto r (some (.enter (.findOrAllocateAndLock key noResize))))
    | none, .startEmpty key => some (s.goto r (some (.enter (.startEmpty key))))
    | _, _ => none
  | .step r a => s.step r a
  | .write r d =>
    match s.requests r with
    | some (.held e) =>
      -- a caller keeps the key, and does not empty the entry in this way
      if getKey d = getKey (s.table.data e) ∧ isEmpty d = isEmpty (s.table.data e) then
        some (s.setTable (s.table.setData e d))
      else none
    | _ => none
  | .doEmpty r =>
    match s.requests r with
    | some (.held e) => some (s.goto r (some (.enter (.startEmptyData e))))
    | _ => none
  | .release r =>
    match s.requests r with
    | some (.held e) => some ((s.setTable (s.table.setLock e false)).goto r none)
    | _ => none
  | .resize => s.resize

/-- A table that has just been made. -/
def init (numEntries minEntries : ℕ) (skip : Bool) (d : δ) : System δ :=
  ⟨DHashTable.init numEntries minEntries skip d, .init, false, .idle, fun _ => none⟩

end System

end DHash

end K42
