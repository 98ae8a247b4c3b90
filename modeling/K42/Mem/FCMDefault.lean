import K42.Mem.PMRoot
import K42.Mem.PageList
import Mathlib.Data.Finset.Basic

/-!
# The default file cache manager

A page is found or filled by `getPageInternal`, for a caller that pins it (`getPage`) or
maps it (`mapPage`). `locked_pageScan` puts pages on the free list, and `locked_giveBack`
and `writeFreeFreeList` take them from there: a clean page is given back at once, a dirty
one when its write has completed.

A step is one section under the lock of the manager, or an answer of the page manager or of
the file representative that a thread waits for with the lock released. `doingIO` is the
lock of a page in between: `Stage` says what the thread that set it waits for. A thread that
finds the page doing IO blocks and calls again; when it is woken is left open.
-/

open Function (update)

namespace K42

namespace FCMDefault

/-- What `getPageInternal` is called for. -/
inductive Want
  | pin
  | map (write : Bool)
  | preFetch
deriving DecidableEq

/-- The IO of a page: its frame is being allocated, `startFillPage` or `startPutPage` has
been called, or the file representative has taken the request and will complete it. -/
inductive Stage
  | idle
  | allocating (w : Want)
  | filling (w : Want)
  | putting
  | inFlight
deriving DecidableEq

/-- Who called `locked_giveBack`. -/
inductive Caller
  | giveBack (memLevelState : MemLevelState)
  | mapPage (fileOffset : ℕ) (write : Bool)
deriving DecidableEq

/-- Where a thread is that has released the lock. In `locked_giveBack` it waits for
`startPutPage` of a page, or for `deallocPages`. -/
inductive Cont
  | idle
  | giveBack (numPages totalReturned : ℕ) (put : Option ℕ) (c : Caller)
  | mapPage (fileOffset : ℕ) (write : Bool)
  | writeFree (numPages fileOffset : ℕ)
  | resume (fileOffset : ℕ)
  | writeFreeCall (numPages : ℕ)
deriving DecidableEq

/-- The page whose `startPutPage` the thread waits for. -/
def Cont.puts : Cont → Option ℕ
  | .giveBack _ _ put _ => put
  | .writeFree _ off => some off
  | .resume off => some off
  | .idle | .mapPage _ _ | .writeFreeCall _ => none

/-- The manager, with the threads in it. `frames` are the frames that the page manager has
given to it, and `holds` has for each page the frames that `getPage` returned and
`releasePage` has not taken back. -/
structure State (τ : Type) where
  pageList : PageList
  pendingWrite : Option ℕ
  pinnedCount : ℕ
  pageable : Bool
  maxNumPages : ℕ
  /-- `pageSize/PAGE_SIZE` -/
  framesPerPage : ℕ
  io : ℕ → Stage
  frames : Finset ℕ
  holds : ℕ → List (Option ℕ)
  threads : τ → Cont

namespace State

variable {τ : Type} [DecidableEq τ]

def giveBackNumPages (s : State τ) : ℕ := max (s.maxNumPages / 4) 16

def setPage (s : State τ) (off : ℕ) (pg : PageDesc) : State τ :=
  { s with pageList := s.pageList.set off pg }

def setStage (s : State τ) (off : ℕ) (st : Stage) : State τ :=
  { s with io := update s.io off st }

def setThread (s : State τ) (t : τ) (c : Cont) : State τ :=
  { s with threads := update s.threads t c }

/-- `deallocPages`. -/
def deallocPages (frames : Finset ℕ) : Option ℕ → Finset ℕ
  | none => frames
  | some f => frames.erase f

/-- The page is removed from the list and its frame is given back. -/
def drop (s : State τ) (off : ℕ) (pg : PageDesc) : State τ :=
  { s with
    pageList := s.pageList.remove off
    frames := deallocPages s.frames pg.paddr
    io := update s.io off .idle }

/-! ## Getting a page -/

/-- `getPage` pins the page that it was given with the lock held; `pinCount` has 8 bits. -/
def pin (s : State τ) (off : ℕ) (pg : PageDesc) : State τ :=
  { s with
    pageList := s.pageList.set off { pg with pinCount := (pg.pinCount + 1) % 256 }
    pinnedCount := if pg.pinCount = 0 then s.pinnedCount + 1 else s.pinnedCount
    holds := update s.holds off (pg.paddr :: s.holds off) }

/-- The page is there and is not doing IO, and the lock is held. -/
def deliver (s : State τ) (w : Want) (off : ℕ) (pg : PageDesc) : State τ :=
  match w with
  | .pin => s.pin off pg
  | .map write => s.setPage off { pg with mapped := true, dirty := pg.dirty || write }
  | .preFetch => s

/-- A page that is wanted again must not be freed when its IO is done. -/
def wanted (pg : PageDesc) : PageDesc :=
  if pg.doingIO then { pg with freeAfterIO := false } else pg

/-- `findOrAllocatePageAndLock` and what `getPageInternal` does before it releases the lock. -/
def getPageInternal (s : State τ) (off : ℕ) (w : Want) : State τ :=
  match s.pageList.find off with
  | none =>
    (s.setPage off { PageDesc.init none with doingIO := true }).setStage off (.allocating w)
  | some pg =>
    let l := if pg.free then s.pageList.dequeueFreeList off (wanted pg)
      else s.pageList.set off (wanted pg)
    let s := { s with pageList := l }
    if pg.doingIO then s else s.deliver w off { pg with free := false }

/-- `getFrame` returns. Without a frame the new descriptor is removed. -/
def gotFrame (s : State τ) (off : ℕ) (frame : Option ℕ) : State τ :=
  match s.pageList.find off, s.io off with
  | some pg, .allocating w =>
    match frame with
    | none => s.drop off pg
    | some f =>
      { (s.setPage off { pg with paddr := some f }).setStage off (.filling w) with
        frames := insert f s.frames }
  | _, _ => s

def ioCompleteInternal (s : State τ) (off : ℕ) (pg : PageDesc) : State τ :=
  if pg.freeAfterIO then s.drop off pg
  else (s.setPage off { pg with dirty := false, doingIO := false }).setStage off .idle

/-- `startFillPage` of the file representative returns. A page that it does not have is
zero-filled and there at once, if it has not been freed. -/
def fillAnswer (s : State τ) (off : ℕ) (notFound : Bool) : State τ :=
  match s.pageList.find off, s.io off with
  | some pg, .filling w =>
    if notFound then
      let s := s.ioCompleteInternal off pg
      if pg.freeAfterIO then s
      else s.deliver w off { pg with dirty := false, doingIO := false }
    else s.setStage off .inFlight
  | _, _ => s

def ioComplete (s : State τ) (off : ℕ) : State τ :=
  match s.pageList.find off with
  | none => s
  | some pg => s.ioCompleteInternal off pg

def releasePage (s : State τ) (off : ℕ) (dirty : Bool) : State τ :=
  match s.pageList.find off with
  | none => { s with holds := update s.holds off (s.holds off).tail }
  | some pg =>
    { s with
      pageList := s.pageList.set off
        { pg with dirty := pg.dirty || dirty, pinCount := (pg.pinCount + 255) % 256 }
      pinnedCount :=
        if (pg.pinCount + 255) % 256 = 0 then s.pinnedCount - 1 else s.pinnedCount
      holds := update s.holds off (s.holds off).tail }

/-! ## The scan -/

def numFreeTarget (numScan : ℕ) : MemLevelState → ℕ
  | .CRITICAL => max numScan 1
  | .LOW => max (numScan / 8) 1
  | .MID | .HIGH => max (numScan / 32) 1

/-- The loop of `locked_pageScan` over the pages that the walk visits. -/
def scanLoop (target : ℕ) : ℕ → List ℕ → State τ → State τ
  | _, [], s => s
  | numFree, off :: rest, s =>
    match s.pageList.find off with
    | none => scanLoop target numFree rest s
    | some pg =>
      if pg.doingIO || pg.established then scanLoop target numFree rest s
      else if pg.free then
        scanLoop target numFree rest (s.setPage off { pg with mapped := false })
      else
        let s := { s with
          pageList := s.pageList.enqueueFreeList off { pg with mapped := false } }
        if target ≤ numFree + 1 then s else scanLoop target (numFree + 1) rest s

def locked_pageScan (s : State τ) (memLevelState : MemLevelState) (walk : List ℕ) : State τ :=
  let numScan := s.pageList.getNumPages
  let numFree := s.pageList.getNumPagesFree
  let target := numFreeTarget numScan memLevelState
  if target ≤ numFree then s else scanLoop target numFree (walk.take numScan) s

/-! ## Giving pages back -/

/-- A page on the free list that is doing IO. -/
def freeLater (s : State τ) (off : ℕ) (pg : PageDesc) : State τ :=
  { s with pageList := s.pageList.dequeueFreeList off { pg with freeAfterIO := true } }

/-- A dirty page on the free list: its write is started. -/
def startPut (s : State τ) (off : ℕ) (pg : PageDesc) : State τ :=
  { s with
    pageList := s.pageList.dequeueFreeList off
      { pg with doingIO := true, dirty := false, freeAfterIO := true }
    pendingWrite := some off
    io := update s.io off .putting }

/-- How a section of `locked_giveBack` ends. -/
inductive Exit
  | done
  | put (fileOffset totalReturned : ℕ)
  | dealloc (totalReturned : ℕ)
deriving DecidableEq

/-- The loop of `locked_giveBack` up to where it releases the lock. Each round takes a page
off the free list, whose length bounds the rounds. -/
def giveBackLoop (numPages : ℕ) : ℕ → ℕ → State τ → State τ × Exit
  | 0, _, s => (s, .done)
  | fuel + 1, totalReturned, s =>
    if totalReturned < numPages then
      match s.pageList.firstFree (if s.pendingWrite.isSome then .DQ_CLEAN else .DQ_HEAD) with
      | none => (s, .done)
      | some off =>
        match s.pageList.find off with
        | none => (s, .done)
        | some pg =>
          if pg.doingIO then
            giveBackLoop numPages fuel (totalReturned + s.framesPerPage) (s.freeLater off pg)
          else if pg.dirty then
            (s.startPut off pg, .put off (totalReturned + s.framesPerPage))
          else (s.drop off pg, .dealloc (totalReturned + s.framesPerPage))
    else (s, .done)

/-- What the caller of `locked_giveBack` does next: it scans, and `mapPage` goes on. -/
def finish (s : State τ) (t : τ) (c : Caller) (walk : List ℕ) : State τ :=
  match c with
  | .giveBack level => (s.locked_pageScan level walk).setThread t .idle
  | .mapPage off write => (s.locked_pageScan .HIGH walk).setThread t (.mapPage off write)

def locked_giveBack (s : State τ) (t : τ) (numPages totalReturned : ℕ) (c : Caller)
    (walk : List ℕ) : State τ :=
  match giveBackLoop numPages (s.pageList.freeList.length + 1) totalReturned s with
  | (s, .done) => s.finish t c walk
  | (s, .put off total) => s.setThread t (.giveBack numPages total (some off) c)
  | (s, .dealloc total) => s.setThread t (.giveBack numPages total none c)

def giveBack (s : State τ) (t : τ) (memLevelState : MemLevelState) (walk walk' : List ℕ) :
    State τ :=
  let numPagesStart := s.pageList.getNumPagesFree
  let c := Caller.giveBack memLevelState
  if s.pageable then
    match memLevelState with
    | .HIGH => s.finish t c walk'
    | .MID => s.locked_giveBack t (numPagesStart / 4 + 1) 0 c walk'
    | .LOW => s.locked_giveBack t (numPagesStart / 2 + 1) 0 c walk'
    | .CRITICAL => (s.locked_pageScan .CRITICAL walk).locked_giveBack t numPagesStart 0 c walk'
  else s

/-- `mapPage` bounds the number of pages first. -/
def mapPage (s : State τ) (t : τ) (off : ℕ) (write : Bool) (walk : List ℕ) : State τ :=
  if s.pageable && decide (s.maxNumPages < s.pageList.getNumPages) then
    s.locked_giveBack t s.giveBackNumPages 0 (.mapPage off write) walk
  else s.getPageInternal off (.map write)

/-- The loop of `writeFreeFreeList` up to where it releases the lock: the page whose write it
starts, if any. `totalReturned` stays 0. -/
def writeFreeLoop (numPages : ℕ) : ℕ → State τ → State τ × Option ℕ
  | 0, s => (s, none)
  | fuel + 1, s =>
    if s.pendingWrite.isSome then (s, none)
    else
      match s.pageList.firstFree .DQ_DIRTY with
      | none => (s, none)
      | some off =>
        match s.pageList.find off with
        | none => (s, none)
        | some pg =>
          if pg.doingIO then
            if numPages = 0 then (s.freeLater off pg, none)
            else writeFreeLoop numPages fuel (s.freeLater off pg)
          else (s.startPut off pg, some off)

def writeFreeFreeList (s : State τ) (t : τ) (numPages : ℕ) : State τ :=
  match writeFreeLoop numPages (s.pageList.freeList.length + 1) s with
  | (s, none) => s.setThread t .idle
  | (s, some off) => s.setThread t (.writeFree numPages off)

/-- `startPutPage` has succeeded. -/
def clearPending (s : State τ) (ok : Bool) : State τ :=
  if ok then { s with pendingWrite := none } else s

/-- The call that the thread made with the lock released returns; `ok` is the result of
`startPutPage`, which else would block. -/
def resume (s : State τ) (t : τ) (ok : Bool) (walk : List ℕ) : State τ :=
  match s.threads t with
  | .idle => s
  | .giveBack numPages total none c => s.locked_giveBack t numPages total c walk
  | .giveBack numPages total (some _) c =>
    (s.clearPending ok).locked_giveBack t numPages total c walk
  | .mapPage off write => (s.setThread t .idle).getPageInternal off (.map write)
  | .writeFree numPages _ =>
    if ok && decide (numPages ≠ 0) then (s.clearPending ok).writeFreeFreeList t numPages
    else (s.clearPending ok).setThread t .idle
  | .resume _ =>
    (s.clearPending ok).setThread t (if ok then .writeFreeCall 100 else .idle)
  | .writeFreeCall numPages => s.writeFreeFreeList t numPages

def resumeIO (s : State τ) (t : τ) : State τ :=
  match s.pendingWrite with
  | none => s
  | some off => s.setThread t (.resume off)

end State

/-! ## Steps -/

inductive Op (τ : Type)
  | getPage (fileOffset : ℕ)
  | preFetch (fileOffset : ℕ)
  | mapPage (t : τ) (fileOffset : ℕ) (write : Bool) (walk : List ℕ)
  | releasePage (fileOffset : ℕ) (dirty : Bool)
  | giveBack (t : τ) (memLevelState : MemLevelState) (walk walk' : List ℕ)
  | writeFreeFreeList (t : τ) (numPages : ℕ)
  | resumeIO (t : τ)
  | resume (t : τ) (ok : Bool) (walk : List ℕ)
  | gotFrame (fileOffset : ℕ) (frame : Option ℕ)
  | fillAnswer (fileOffset : ℕ) (notFound : Bool)
  /-- The file representative takes the write that the thread passed to `startPutPage`. -/
  | accept (t : τ) (fileOffset : ℕ)
  | ioComplete (fileOffset : ℕ)

variable {τ : Type} [DecidableEq τ]

def step (s : State τ) : Op τ → State τ
  | .getPage off => s.getPageInternal off .pin
  | .preFetch off => s.getPageInternal off .preFetch
  | .mapPage t off write walk => s.mapPage t off write walk
  | .releasePage off dirty => s.releasePage off dirty
  | .giveBack t level walk walk' => s.giveBack t level walk walk'
  | .writeFreeFreeList t numPages => s.writeFreeFreeList t numPages
  | Op.resumeIO t => s.resumeIO t
  | .resume t ok walk => s.resume t ok walk
  | .gotFrame off frame => s.gotFrame off frame
  | .fillAnswer off notFound => s.fillAnswer off notFound
  | .accept _ off => s.setStage off .inFlight
  | .ioComplete off => s.ioComplete off

def Stage.allocates : Stage → Bool
  | .allocating _ => true
  | _ => false

def Stage.fills : Stage → Bool
  | .filling _ => true
  | _ => false

/-- A thread starts a call when it is in none. A page is released by who holds it, the page
manager gives frames that the manager does not have, and the file representative answers
what it was asked. -/
def adm (s : State τ) : Op τ → Prop
  | .getPage _ | .preFetch _ => True
  | .mapPage t _ _ _ => s.threads t = .idle
  | .releasePage off _ => s.holds off ≠ []
  | .giveBack t _ _ _ => s.threads t = .idle
  | .writeFreeFreeList t _ => s.threads t = .idle
  | Op.resumeIO t => s.threads t = .idle ∧ ∃ off ∈ s.pendingWrite, s.io off = .putting
  | .resume t ok _ =>
    s.threads t ≠ .idle ∧ ∀ off ∈ (s.threads t).puts, (ok = true ↔ s.io off ≠ .putting)
  | .gotFrame off frame => (s.io off).allocates = true ∧ ∀ f ∈ frame, f ∉ s.frames
  | .fillAnswer off _ => (s.io off).fills = true
  | .accept t off => (s.threads t).puts = some off ∧ s.io off = .putting
  | .ioComplete off => s.io off = .inFlight

/-- The pages that a scan meets in the step. -/
def visits (s : State τ) : Op τ → List ℕ
  | .giveBack _ level walk walk' =>
    if s.pageable then (if level = .CRITICAL then walk else []) ++ walk' else []
  | .mapPage _ _ _ walk =>
    if s.pageable && decide (s.maxNumPages < s.pageList.getNumPages) then walk else []
  | .resume t _ walk =>
    match s.threads t with
    | .giveBack _ _ _ _ => walk
    | _ => []
  | _ => []

/-- A page is pinned fewer than 256 times. -/
def pinsFew (s : State τ) : Op τ → Prop
  | .getPage off => ∀ pg ∈ s.pageList.find off, pg.pinCount < 255
  | _ => True

/-- The scan meets no pinned page that it would put on the free list. -/
def Spares (s : State τ) (op : Op τ) : Prop :=
  (∀ off ∈ visits s op, ∀ pg ∈ s.pageList.find off, 0 < pg.pinCount →
    pg.established = true ∨ pg.doingIO = true ∨ pg.free = true) ∧ pinsFew s op

instance adm.decidable (s : State τ) : ∀ op : Op τ, Decidable (adm s op)
  | .getPage _ | .preFetch _ => isTrue trivial
  | .mapPage .. | .giveBack .. | .writeFreeFreeList .. | .fillAnswer .. | .ioComplete _ =>
    inferInstanceAs (Decidable (_ = _))
  | .releasePage .. => inferInstanceAs (Decidable (_ ≠ _))
  | Op.resumeIO _ | .resume .. | .gotFrame .. | .accept .. => inferInstanceAs (Decidable (_ ∧ _))

instance pinsFew.decidable (s : State τ) : ∀ op : Op τ, Decidable (pinsFew s op)
  | .getPage _ => inferInstanceAs (Decidable (∀ _, _ → _))
  | .preFetch _ | .mapPage .. | .releasePage .. | .giveBack .. | .writeFreeFreeList ..
  | Op.resumeIO _ | .resume .. | .gotFrame .. | .fillAnswer .. | .accept .. | .ioComplete _ =>
    isTrue trivial

instance (s : State τ) (op : Op τ) : Decidable (Spares s op) :=
  inferInstanceAs (Decidable (_ ∧ _))

/-- Any interleaving of the sections and the answers. -/
def interleavings : Machine (State τ) (Op τ) := ⟨step, adm⟩

/-- The interleavings whose scans spare the pinned pages. -/
def sparing : Machine (State τ) (Op τ) := ⟨step, fun s op => adm s op ∧ Spares s op⟩

instance (s : State τ) (op : Op τ) : Decidable ((interleavings (τ := τ)).adm s op) :=
  adm.decidable s op

instance (s : State τ) (op : Op τ) : Decidable ((sparing (τ := τ)).adm s op) :=
  inferInstanceAs (Decidable (adm s op ∧ Spares s op))

end FCMDefault

end K42
