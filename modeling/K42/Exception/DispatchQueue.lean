import K42.Lib.Word
import K42.Sys.SysStatus
import K42.Exception.DispatchHeap

/-!
# The dispatch queue of a processor

CPU domains compete for the processor by priority, and the process annexes of a domain
take turns. The domain that runs is `dispatchedCDA`; the other domains with annexes to
run are in a heap, which keeps a copy of their priorities. The kernel works for a
process on the domain of that process; when it is done, `awaitDispatch` gives the
processor back, or puts the annex off in `preemptedPA`.

All of this happens with interrupts disabled. A thread that has to wait inside
`awaitDispatch` is remembered in `blocked`, with the priority class it has read; what it
does when it is woken up is `resumeDispatch`. Domains, annexes and processors are
numbers. The counts of `KernelScheduler::Stats`, the accumulated times of
`CurrentStats` and the domain borrowers, which no function here reads, are left out.
-/

open Function (update)

namespace K42

open MachineWord

/-! ## KernelScheduler -/

abbrev PRIORITY_CLASS_KERNEL : ℕ := 1
abbrev PRIORITY_CLASS_TIME_SHARING : ℕ := 4
abbrev PRIORITY_CLASS_IDLE : ℕ := 6
abbrev PRIORITY_CLASS_UNRUNNABLE : ℕ := 7
abbrev MIN_WEIGHT : ℕ := 1
abbrev MAX_WEIGHT : ℕ := 4096
abbrev MIN_QUANTUM_MICROSECS : ℕ := 100
abbrev MAX_QUANTUM_MICROSECS : ℕ := 40000
abbrev MIN_PULSE_MICROSECS : ℕ := 100
abbrev MAX_PULSE_MICROSECS : ℕ := 40000

/-! ## Process annexes -/

/-- `reservedThread`: the kernel thread that is responsible for the annex. -/
inductive ReservedThread
  | null | ppcPrimitive | thread
deriving DecidableEq

structure ProcessAnnex where
  cpuDomainAnnex : Option ℕ
  reservedThread : ReservedThread
  awaitingDispatch : Bool
  /-- `terminator` is not the null thread. -/
  terminationPending : Bool
  hasWork : Bool
  /-- `dispatcher->interrupts.pending()`. -/
  interrupts : Bool
  dispatchTicks : SysTime
  pulseTicks : SysTime
  warningTicks : SysTime
deriving DecidableEq

namespace ProcessAnnex

/-- `init`. -/
def init (hasWork interrupts : Bool) : ProcessAnnex :=
  ⟨none, .null, false, false, hasWork, interrupts, 0, 0, SYSTIME_MAX⟩

def stillRunnable (pa : ProcessAnnex) : Bool :=
  pa.reservedThread = .null && (pa.hasWork || pa.interrupts)

/-- What `CPUDomainAnnex::stillRunnable` asks of an annex. -/
def canRun (pa : ProcessAnnex) : Bool := pa.stillRunnable || pa.awaitingDispatch

def setWarning (pa : ProcessAnnex) (warningQuantum : SysTime) : ProcessAnnex :=
  { pa with warningTicks := pa.dispatchTicks + warningQuantum }

def clearWarning (pa : ProcessAnnex) : ProcessAnnex := { pa with warningTicks := SYSTIME_MAX }

def hasWarning (pa : ProcessAnnex) : Bool := pa.warningTicks ≠ SYSTIME_MAX

def warningExpired (pa : ProcessAnnex) : Bool := pa.warningTicks ≤ pa.dispatchTicks

def pulseNeeded (pa : ProcessAnnex) : Bool := pa.pulseTicks ≤ pa.dispatchTicks

def resetPulse (pa : ProcessAnnex) (pulseInterval : SysTime) : ProcessAnnex :=
  { pa with pulseTicks := pa.dispatchTicks + pulseInterval }

/-- The `do` loop of `reschedulePulse`. -/
def nextPulse (dispatchTicks pulseInterval : SysTime) : ℕ → SysTime → SysTime
  | 0, pulse => pulse
  | fuel + 1, pulse =>
    if pulse + pulseInterval < dispatchTicks then
      nextPulse dispatchTicks pulseInterval fuel (pulse + pulseInterval)
    else pulse + pulseInterval

def reschedulePulse (pa : ProcessAnnex) (pulseInterval : SysTime) : ProcessAnnex :=
  { pa with pulseTicks := nextPulse pa.dispatchTicks pulseInterval (2 ^ 64) pa.pulseTicks }

def getTimeout (pa : ProcessAnnex) : SysTime :=
  let warning := pa.warningTicks - pa.dispatchTicks
  let pulse := pa.pulseTicks - pa.dispatchTicks
  if warning < pulse then warning else pulse

end ProcessAnnex

/-! ## CPU domains -/

abbrev EXPONENT_BITS : ℕ := 40
abbrev MANTISSA_BITS : ℕ := 20

/-- `ring` has the annexes in the order of `cpuDomainNext`, from `currentPA` on. An annex
whose `cpuDomainNext` is null is in no ring. -/
structure CPUDomainAnnex where
  pclass : ℕ
  exponent : SysTime
  mantissa : SysTime
  consumedTicks : SysTime
  quantum : SysTime
  pulseInterval : SysTime
  drag : SysTime
  weight : ℕ
  ring : List ℕ
  pp : ℕ
deriving DecidableEq

namespace CPUDomainAnnex

/-- `init`, with the quantum and the pulse in ticks. -/
def init (pclass weight : ℕ) (quantum pulseInterval : SysTime) (pp : ℕ) : CPUDomainAnnex :=
  ⟨pclass, 0, 0, 0, quantum, pulseInterval, UInt64.ofNat (MAX_WEIGHT / weight), weight, [], pp⟩

/-- `priority.whole`. -/
def getPriority (cda : CPUDomainAnnex) : SysTime :=
  UInt64.ofNat cda.pclass <<< 60 ||| cda.exponent <<< 20 ||| cda.mantissa

def hasHigherPriorityThan (cda other : CPUDomainAnnex) : Bool :=
  cda.getPriority < other.getPriority

/-- The bit fields keep the low bits. -/
def adjustPriority (cda : CPUDomainAnnex) (inflation tickScale delta : SysTime) : CPUDomainAnnex :=
  let mantissa := (cda.mantissa >>> (inflation - cda.exponent)) + ((cda.drag * delta) >>> tickScale)
  { cda with mantissa := mantissa % 2 ^ MANTISSA_BITS, exponent := inflation % 2 ^ EXPONENT_BITS }

def flushQuantum (cda : CPUDomainAnnex) (inflation tickScale : SysTime) : CPUDomainAnnex :=
  { cda.adjustPriority inflation tickScale cda.consumedTicks with consumedTicks := 0 }

def hasFreshQuantum (cda : CPUDomainAnnex) : Bool := cda.consumedTicks = 0

def getTimeout (cda : CPUDomainAnnex) : SysTime := cda.quantum - cda.consumedTicks

/-- `stillRunnable`, where `canRun` says which annexes are: the answer and the ring
afterwards. The annexes passed over leave the ring. -/
def stillRunnable (canRun : ℕ → Bool) : List ℕ → Bool × List ℕ
  | [] => (false, [])
  | cur :: rest =>
    if canRun cur then (true, cur :: rest)
    else
      match rest.dropWhile fun pa => !canRun pa with
      | [] => (false, [])
      | pa :: more => (true, pa :: more ++ [cur])

end CPUDomainAnnex

/-! ## The queue -/

/-- `timeout` is what `finishDispatch` asks the kernel timer for, `runnableWeight` the
field of `currentStats`. -/
structure DispatchQueue where
  vp : ℕ
  cdas : ℕ → CPUDomainAnnex
  pas : ℕ → ProcessAnnex
  dispatchedCDA : ℕ
  dispatchedPA : ℕ
  lastDispatchTime : SysTime
  inflation : SysTime
  nextInflationTime : SysTime
  inflationInterval : SysTime
  tickScale : SysTime
  warningQuantum : SysTime
  timeout : SysTime
  runnableWeight : ℕ → ℕ
  preemptedPA : ℕ → Option ℕ
  heap : DispatchHeap
  blocked : ℕ → Option ℕ

namespace DispatchQueue

open DispatchHeap

/-- The annexes of the dummy, of the idle loop and of the kernel, each in a domain of
its own with the same number. -/
abbrev DUMMY : ℕ := 0
abbrev IDLE : ℕ := 1
abbrev KERNEL : ℕ := 2

def updCDA (q : DispatchQueue) (cda : ℕ) (f : CPUDomainAnnex → CPUDomainAnnex) : DispatchQueue :=
  { q with cdas := update q.cdas cda (f (q.cdas cda)) }

def updPA (q : DispatchQueue) (pa : ℕ) (f : ProcessAnnex → ProcessAnnex) : DispatchQueue :=
  { q with pas := update q.pas pa (f (q.pas pa)) }

def ring (q : DispatchQueue) (cda : ℕ) : List ℕ := (q.cdas cda).ring

def setRing (q : DispatchQueue) (cda : ℕ) (ring : List ℕ) : DispatchQueue :=
  q.updCDA cda fun c => { c with ring := ring }

def flushQuantum (q : DispatchQueue) (cda : ℕ) : DispatchQueue :=
  q.updCDA cda fun c => c.flushQuantum q.inflation q.tickScale

/-- The element of the heap for a domain. -/
def entry (q : DispatchQueue) (cda : ℕ) : Element := ⟨(q.cdas cda).getPriority, cda⟩

/-- `pa->getCDA()` for an annex whose domain is used. -/
def getCDA (q : DispatchQueue) (pa : ℕ) : Except DispatchAssert ℕ :=
  match (q.pas pa).cpuDomainAnnex with
  | none => .error .notAttached
  | some cda => .ok cda

def statCDARunnable (q : DispatchQueue) (cda : ℕ) : DispatchQueue :=
  let c := q.cdas cda
  { q with
    runnableWeight :=
      update q.runnableWeight c.pclass (add 64 (q.runnableWeight c.pclass) c.weight) }

def statCDANotRunnable (q : DispatchQueue) (cda : ℕ) : DispatchQueue :=
  let c := q.cdas cda
  { q with
    runnableWeight :=
      update q.runnableWeight c.pclass (sub 64 (q.runnableWeight c.pclass) c.weight) }

/-- What is done with a domain that stops being runnable. -/
def notRunnable (q : DispatchQueue) (cda : ℕ) : DispatchQueue :=
  (q.flushQuantum cda).statCDANotRunnable cda

/-- `dispatchedCDA->adjustQuantum(inflation, tickScale, delta)`. When the quantum is used
up the next annex of the ring is current. -/
def adjustQuantum (q : DispatchQueue) (delta : SysTime) : DispatchQueue :=
  let d := q.dispatchedCDA
  let q := q.updCDA d fun c => { c with consumedTicks := c.consumedTicks + delta }
  if (q.cdas d).quantum ≤ (q.cdas d).consumedTicks then
    let q := q.flushQuantum d
    match q.ring d with
    | [] => q
    | cur :: rest => (q.updPA cur fun p => p.resetPulse 0).setRing d (rest ++ [cur])
  else q

/-- The part of `startDispatch` that keeps `inflation` up to date. -/
def inflate (q : DispatchQueue) (now : SysTime) : DispatchQueue :=
  if q.nextInflationTime ≤ now then
    let next := q.nextInflationTime + q.inflationInterval
    if next ≤ now then
      { q with
        inflation := q.inflation + 1
        nextInflationTime := now + q.inflationInterval
        lastDispatchTime := now - q.inflationInterval }
    else { q with inflation := q.inflation + 1, nextInflationTime := next }
  else q

def startDispatch (q : DispatchQueue) (now : SysTime) : DispatchQueue :=
  let q := q.inflate now
  let delta := now - q.lastDispatchTime
  let q := { q with lastDispatchTime := now }
  let q := q.updPA q.dispatchedPA fun p => { p with dispatchTicks := p.dispatchTicks + delta }
  q.adjustQuantum delta

def finishDispatch (q : DispatchQueue) : DispatchQueue :=
  let q :=
    if (q.pas q.dispatchedPA).pulseNeeded then
      q.updPA q.dispatchedPA fun p =>
        { p with interrupts := true }.reschedulePulse (q.cdas q.dispatchedCDA).pulseInterval
    else q
  let cdaTimeout := (q.cdas q.dispatchedCDA).getTimeout
  let paTimeout := (q.pas q.dispatchedPA).getTimeout
  { q with timeout := if cdaTimeout < paTimeout then cdaTimeout else paTimeout }

/-! ### Domains become and stop being runnable -/

def addCPUDomainAnnex (q : DispatchQueue) (cda : ℕ) : Except DispatchAssert DispatchQueue :=
  if (q.cdas cda).hasFreshQuantum then do
    let heap ← q.heap.insert (q.entry cda)
    .ok { q.statCDARunnable cda with heap := heap }
  else .error .staleQuantum

def removeCPUDomainAnnex (q : DispatchQueue) (cda : ℕ) : Except DispatchAssert DispatchQueue :=
  if cda = q.dispatchedCDA then .error .removingDispatchedCDA
  else do
    let heap ← q.heap.remove cda
    .ok ({ q with heap := heap }.notRunnable cda)

/-- `cda->addProcessAnnex(pa)`. -/
def addProcessAnnex (q : DispatchQueue) (cda pa : ℕ) : Except DispatchAssert DispatchQueue :=
  let q := q.updPA pa fun p => p.resetPulse (q.cdas cda).pulseInterval
  match q.ring cda with
  | [] => (q.setRing cda [pa]).addCPUDomainAnnex cda
  | cur :: rest => .ok (q.setRing cda (cur :: pa :: rest))

def makeReady (q : DispatchQueue) (pa : ℕ) : Except DispatchAssert DispatchQueue := do
  let cda ← q.getCDA pa
  if pa ∈ q.ring cda then .ok q else q.addProcessAnnex cda pa

/-- `cda->makeCurrent(pa)`. -/
def makeCurrent (q : DispatchQueue) (cda pa : ℕ) : Except DispatchAssert DispatchQueue :=
  if (q.pas pa).cpuDomainAnnex ≠ some cda then .error .wrongDomain
  else if pa ∉ q.ring cda then .error .notInRing
  else .ok (q.setRing cda ((q.ring cda).rotate ((q.ring cda).idxOf pa)))

/-- The kernel takes the processor over, and `cda` goes into the heap. -/
def switchToKernel (q : DispatchQueue) (cda : ℕ) : Except DispatchAssert DispatchQueue := do
  let kernelCDA ← q.getCDA KERNEL
  let q := { q with dispatchedPA := KERNEL, dispatchedCDA := kernelCDA }
  let q ← q.makeReady KERNEL
  let q ← q.makeCurrent kernelCDA KERNEL
  let heap ← q.heap.swap (q.entry cda) kernelCDA
  .ok { q with heap := heap }

def clearSlot (q : DispatchQueue) (pclass : ℕ) : DispatchQueue :=
  { q with preemptedPA := update q.preemptedPA pclass none }

/-- `DispatchQueue::removeProcessAnnex(pa)` for an annex of `cda`. -/
def removeProcessAnnex (q : DispatchQueue) (cda pa : ℕ) (now : SysTime) :
    Except DispatchAssert DispatchQueue :=
  if pa = q.dispatchedPA then do
    let q ← (q.startDispatch now).switchToKernel cda
    .ok q.finishDispatch
  else
    let pclass := (q.cdas cda).pclass
    if q.preemptedPA pclass = some pa then .ok (q.clearSlot pclass) else .ok q

/-- `cda->removeProcessAnnex(pa)`. -/
def removeFromRing (q : DispatchQueue) (cda pa : ℕ) (now : SysTime) :
    Except DispatchAssert DispatchQueue := do
  let q ← q.removeProcessAnnex cda pa now
  if pa ∉ q.ring cda then .error .notInRing
  else if q.ring cda = [pa] then do
    let q ← q.removeCPUDomainAnnex cda
    .ok (q.setRing cda [])
  else .ok (q.setRing cda ((q.ring cda).erase pa))

def makeNotReady (q : DispatchQueue) (pa : ℕ) (now : SysTime) :
    Except DispatchAssert DispatchQueue := do
  let cda ← q.getCDA pa
  if pa ∈ q.ring cda then q.removeFromRing cda pa now else .ok q

def attach (q : DispatchQueue) (pa cda : ℕ) : Except DispatchAssert DispatchQueue :=
  if (q.pas pa).cpuDomainAnnex ≠ none then .error .alreadyAttached
  else (q.updPA pa fun p => { p with cpuDomainAnnex := some cda }).makeReady pa

def detach (q : DispatchQueue) (pa : ℕ) (now : SysTime) : Except DispatchAssert DispatchQueue := do
  let q ← q.makeNotReady pa now
  .ok (q.updPA pa fun p => { p with cpuDomainAnnex := none })

/-! ### Choosing the annex to run -/

/-- `cda->stillRunnable()`. -/
def stillRunnable (q : DispatchQueue) (cda : ℕ) : Except DispatchAssert (Bool × DispatchQueue) :=
  if q.ring cda = [] then .error .noProcessAnnexes
  else
    let (runnable, ring) := CPUDomainAnnex.stillRunnable (fun pa => (q.pas pa).canRun) (q.ring cda)
    .ok (runnable, q.setRing cda ring)

/-- The loop of `cleanHeap`, which takes one domain out in each turn. -/
def cleanHeap : ℕ → DispatchQueue → Except DispatchAssert DispatchQueue
  | 0, _ => .error .heapEmpty
  | fuel + 1, q => do
    let head ← q.heap.getHead
    let (runnable, q) ← q.stillRunnable head
    if runnable then .ok q
    else do
      let q := q.notRunnable head
      let heap ← q.heap.deleteHead
      cleanHeap fuel { q with heap := heap }

/-- The head of the heap takes over from the dispatched domain if that one cannot run
any more or has a lower priority. -/
def yieldTo (q : DispatchQueue) (head : ℕ) : Except DispatchAssert DispatchQueue := do
  let d := q.dispatchedCDA
  let (runnable, q) ← q.stillRunnable d
  if runnable then
    if (q.cdas head).hasHigherPriorityThan (q.cdas d) then do
      let heap ← q.heap.replaceHead (q.entry d)
      .ok { q with heap := heap, dispatchedCDA := head }
    else .ok q
  else do
    let q := q.notRunnable d
    let heap ← q.heap.deleteHead
    .ok { q with heap := heap, dispatchedCDA := head }

/-- `cda->getCurrentProcessAnnex()`. -/
def getCurrentProcessAnnex (q : DispatchQueue) (cda : ℕ) : Except DispatchAssert ℕ :=
  match q.ring cda with
  | [] => .error .noProcessAnnexes
  | pa :: _ => if (q.pas pa).canRun then .ok pa else .error .currentNotRunnable

/-- The domain with the highest priority is dispatched, with its current annex. -/
def chooseDomain (q : DispatchQueue) : Except DispatchAssert DispatchQueue := do
  let q ← q.cleanHeap q.heap.count
  let head ← q.heap.getHead
  let q ← q.yieldTo head
  let pa ← q.getCurrentProcessAnnex q.dispatchedCDA
  .ok { q with dispatchedPA := pa }

/-- The domain `newCDA`, if it is another one, takes the place of the dispatched domain. -/
def exchange (q : DispatchQueue) (newCDA : ℕ) : Except DispatchAssert DispatchQueue :=
  if q.dispatchedCDA ≠ newCDA then do
    let heap ← q.heap.swap (q.entry q.dispatchedCDA) newCDA
    .ok { q with heap := heap, dispatchedCDA := newCDA }
  else .ok q

/-- The annex put off in the class of the dispatched domain goes first. -/
def takePreempted (q : DispatchQueue) : Except DispatchAssert DispatchQueue :=
  let pclass := (q.cdas q.dispatchedCDA).pclass
  match q.preemptedPA pclass with
  | none => .ok q
  | some pa =>
    if q.dispatchedPA ≠ pa then do
      let preemptedCDA ← q.getCDA pa
      let q ← q.exchange preemptedCDA
      .ok ({ q with dispatchedPA := pa }.clearSlot pclass)
    else .ok (q.clearSlot pclass)

def signalDispatch (q : DispatchQueue) (pa : ℕ) : DispatchQueue :=
  q.updPA pa fun p => { p with awaitingDispatch := false }

/-- The queue afterwards and the annex to run. -/
def getNextProcessAnnex (q : DispatchQueue) (now : SysTime) :
    Except DispatchAssert (DispatchQueue × ℕ) := do
  let q ← (q.startDispatch now).chooseDomain
  let q ← q.takePreempted
  let pa := q.dispatchedPA
  -- the thread that waits for `pa` runs in the kernel
  let awaiting := (q.pas pa).awaitingDispatch
  let q := if awaiting then q.signalDispatch pa else q
  let q := q.updPA pa fun p => p.clearWarning
  .ok (q.finishDispatch, if awaiting then KERNEL else pa)

/-! ### Giving the processor back to an annex -/

def resumeTermination (q : DispatchQueue) (pa : ℕ) : DispatchQueue :=
  { q.updPA pa fun p => { p with terminationPending := false, reservedThread := .null } with
    blocked := update q.blocked pa none }

/-- The dispatched domain gives way to `newCDA`, which is in the heap. -/
def giveWay (q : DispatchQueue) (newCDA : ℕ) : Except DispatchAssert DispatchQueue := do
  let d := q.dispatchedCDA
  let (runnable, q) ← q.stillRunnable d
  if runnable then do
    let heap ← q.heap.swap (q.entry d) newCDA
    .ok { q with heap := heap, dispatchedCDA := newCDA }
  else do
    let q := q.notRunnable d
    let heap ← q.heap.remove newCDA
    .ok { q with heap := heap, dispatchedCDA := newCDA }

/-- The annex `newPA` of `newCDA` is dispatched. -/
def switchTo (q : DispatchQueue) (newPA newCDA : ℕ) : Except DispatchAssert DispatchQueue :=
  if q.dispatchedPA ≠ newPA then do
    let q ← q.makeReady newPA
    let q ← q.makeCurrent newCDA newPA
    let q ← if q.dispatchedCDA ≠ newCDA then q.giveWay newCDA else .ok q
    .ok { q with dispatchedPA := newPA }
  else .ok q

/-- The thread goes to sleep inside `awaitDispatch`. -/
def waitForDispatch (q : DispatchQueue) (pa newPClass : ℕ) : DispatchQueue :=
  { q.updPA pa fun p => { p with awaitingDispatch := true } with
    blocked := update q.blocked pa (some newPClass) }

/-- `awaitDispatch` from the label `Retry` on, for a thread that has read `newPClass`. -/
def retryDispatch (q : DispatchQueue) (newPA newCDA newPClass : ℕ) :
    Except DispatchAssert DispatchQueue :=
  if (q.pas newPA).terminationPending then .ok (q.resumeTermination newPA)
  else do
    let q ← q.switchTo newPA newCDA
    let q ← q.cleanHeap q.heap.count
    let head ← q.heap.getHead
    let expired := (q.pas newPA).warningExpired
    if (q.cdas head).pclass < newPClass ∨ q.preemptedPA newPClass ≠ none ∨ expired then do
      -- hard preempt
      let q ← q.switchToKernel newCDA
      let q :=
        if q.preemptedPA newPClass = none ∧ !expired then
          { q with preemptedPA := update q.preemptedPA newPClass (some newPA) }
        else q
      .ok (q.finishDispatch.waitForDispatch newPA newPClass)
    else
      let q :=
        if !(q.cdas head).hasHigherPriorityThan (q.cdas newCDA) ∧
            (q.ring newCDA).head? = some newPA then
          q.updPA newPA fun p => p.clearWarning
        else if !(q.pas newPA).hasWarning then
          q.updPA newPA fun p => { p with interrupts := true }.setWarning q.warningQuantum
        else q
      .ok { q.finishDispatch with blocked := update q.blocked newPA none }

def awaitDispatch (q : DispatchQueue) (newPA : ℕ) (now : SysTime) :
    Except DispatchAssert DispatchQueue :=
  if newPA = KERNEL then .error .reschedulingKernel
  else if (q.pas newPA).reservedThread ≠ .thread then .error .wrongThread
  else do
    let newCDA ← q.getCDA newPA
    let newPClass := (q.cdas newCDA).pclass
    (q.startDispatch now).retryDispatch newPA newCDA newPClass

/-- `awaitDispatch` goes on after `waitForDispatch`. -/
def resumeDispatch (q : DispatchQueue) (newPA : ℕ) (now : SysTime) :
    Except DispatchAssert DispatchQueue :=
  match q.blocked newPA with
  | none => .error .wrongThread
  | some newPClass => do
    let newCDA ← q.getCDA newPA
    (q.startDispatch now).retryDispatch newPA newCDA newPClass

/-- `waitForTerminate`, up to where the terminating thread blocks. -/
def waitForTerminate (q : DispatchQueue) (pa : ℕ) : DispatchQueue :=
  match (q.pas pa).reservedThread with
  | .null => q
  | .ppcPrimitive => q.updPA pa fun p => { p with reservedThread := .null }
  | .thread =>
    let q := if (q.pas pa).awaitingDispatch then q.signalDispatch pa else q
    q.updPA pa fun p => { p with terminationPending := true }

/-! ### Exported calls -/

def ticks (ticksPerSecond microsecs : ℕ) : SysTime :=
  UInt64.ofNat (ticksPerSecond * microsecs / 1000000)

/-- `CPUDomainAnnex::Create`, where the new object is `cda`. -/
def create (q : DispatchQueue) (ticksPerSecond cda pclass weight quantumMicrosecs
    pulseMicrosecs : ℕ) : DispatchQueue × Except Failure Unit :=
  if pclass < PRIORITY_CLASS_KERNEL ∨ PRIORITY_CLASS_UNRUNNABLE < pclass then
    (q, .error (.serror 2627 0 .EINVAL))
  else if quantumMicrosecs < MIN_QUANTUM_MICROSECS ∨ MAX_QUANTUM_MICROSECS < quantumMicrosecs then
    (q, .error (.serror 2628 0 .EINVAL))
  else if pulseMicrosecs < MIN_PULSE_MICROSECS ∨ MAX_PULSE_MICROSECS < pulseMicrosecs then
    (q, .error (.serror 2628 0 .EINVAL))
  else if weight < MIN_WEIGHT ∨ MAX_WEIGHT < weight then (q, .error (.serror 2629 0 .EINVAL))
  else
    (q.updCDA cda fun _ =>
      .init pclass weight (ticks ticksPerSecond quantumMicrosecs)
        (ticks ticksPerSecond pulseMicrosecs) q.vp, .ok ())

def setPriorityClass (q : DispatchQueue) (cda pclass : ℕ) :
    Except DispatchAssert (DispatchQueue × Except Failure Unit) :=
  if q.vp ≠ (q.cdas cda).pp then .ok (q, .error (.serror 2631 0 .EINVAL))
  else if pclass < PRIORITY_CLASS_KERNEL ∨ PRIORITY_CLASS_UNRUNNABLE < pclass then
    .ok (q, .error (.serror 2632 0 .EINVAL))
  else do
    let q := q.updCDA cda fun c => { c with pclass := pclass }
    if q.ring cda ≠ [] then do
      let q ← q.removeCPUDomainAnnex cda
      let q ← q.addCPUDomainAnnex cda
      .ok (q, .ok ())
    else .ok (q, .ok ())

def setWeight (q : DispatchQueue) (cda weight : ℕ) : DispatchQueue × Except Failure Unit :=
  if q.vp ≠ (q.cdas cda).pp then (q, .error (.serror 2633 0 .EINVAL))
  else if weight < MIN_WEIGHT ∨ MAX_WEIGHT < weight then (q, .error (.serror 2634 0 .EINVAL))
  else
    (q.updCDA cda fun c =>
      { c with weight := weight, drag := UInt64.ofNat (MAX_WEIGHT / weight) }, .ok ())

end DispatchQueue

end K42
