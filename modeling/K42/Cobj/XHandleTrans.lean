import K42.Lib.Run
import K42.Sys.SysStatus
import Mathlib.Tactic.Common

/-!
# The table of external handles

An external handle is the index of a slot in the table and a sequence number, which a lookup
compares with the slot's own. A slot that has been freed goes to the removed list, with the next
grace period to the old list, and when that period has elapsed to the free list, where `alloc`
finds it.

Calls are sequential. What a call finds out about the objects and the processes is given with it.
-/

open Function (update update_of_ne update_self)

namespace K42

open Errno

/-! ## Handles -/

def XHANDLE_SEQNO_SHIFT : ℕ := 0

def XHANDLE_SEQNO_BITS : ℕ := 8

def XHANDLE_IDX_SHIFT : ℕ := 8

def XHANDLE_IDX_BITS : ℕ := 64 - XHANDLE_SEQNO_BITS

def XHANDLE_MAKE (idx seqNo : ℕ) : ℕ := idx <<< XHANDLE_IDX_SHIFT ||| seqNo <<< XHANDLE_SEQNO_SHIFT

def XHANDLE_SEQNO (xhandle : ℕ) : ℕ :=
  (xhandle >>> XHANDLE_SEQNO_SHIFT) &&& (1 <<< XHANDLE_SEQNO_BITS - 1)

def XHANDLE_IDX (xhandle : ℕ) : ℕ :=
  (xhandle >>> XHANDLE_IDX_SHIFT) &&& (1 <<< XHANDLE_IDX_BITS - 1)

/-- A reference to an object; 0 is null. -/
abbrev ObjRef := ℕ

abbrev ProcessID := ℕ

def KERNEL_PID : ProcessID := 0

namespace MetaObj

def globalHandle : ℕ := 0x1

def processOnly : ℕ := 0x2

end MetaObj

/-- A slot of the table. It is valid when `nummeth` is not zero. -/
structure XBaseObj where
  vtbl : ℕ
  iobj : ObjRef
  nummeth : ℕ
  seqNo : ℕ
  matchPID : ProcessID
  mrights : ℕ
  urights : ℕ
  clientData : ℕ
deriving DecidableEq

namespace XBaseObj

def isValid (x : XBaseObj) : Bool := x.nummeth ≠ 0

def zero : XBaseObj := ⟨0, 0, 0, 0, 0, 0, 0, 0⟩

end XBaseObj

namespace XHandleTrans

def XHANDLE_TABLE_MAX : ℕ := 0x800000

def XHANDLE_TABLE_INCREMENT : ℕ := 0x40

def XHANDLE_TABLE_GC_INTERVAL : ℕ := 0x20

def numReservedEntries : ℕ := 18

inductive MarkerState
  | ACTIVE | ELAPSED
deriving DecidableEq

/-- What the objects and the processes answer: the index that `GlobalXHandleIdx` gives an object,
whether `lockIfNotClosing` finds the list of an object or of a process closing, and whether
`getRefFromPID` finds a process. -/
structure Answers where
  globalXHandleIdx : ObjRef → ℕ
  exportedClosing : ObjRef → Bool
  matchedClosing : ProcessID → Bool
  getRefFromPID : ProcessID → Bool

end XHandleTrans

/-- The table and its lists. `exported` are the handles of an object and `matched` those of a
process, each from the head of its ring. -/
structure XHandleTrans where
  xhandleTable : ℕ → XBaseObj
  xhandleTableLimit : ℕ
  freeEntries : List ℕ
  removedEntries : List ℕ
  oldEntries : List ℕ
  numberRemoved : ℕ
  exported : ObjRef → List ℕ
  matched : ProcessID → List ℕ

namespace XHandleTrans

def init : XHandleTrans where
  xhandleTable := fun _ => .zero
  xhandleTableLimit := XHANDLE_TABLE_INCREMENT
  freeEntries :=
    List.range' numReservedEntries (XHANDLE_TABLE_INCREMENT - numReservedEntries)
  removedEntries := []
  oldEntries := []
  numberRemoved := 0
  exported := fun _ => []
  matched := fun _ => []

section Calls

variable (s : XHandleTrans)

/-! ## Lookups -/

def xhandleToXObj (xhandle : ℕ) : Except Failure ℕ :=
  let seqNo := XHANDLE_SEQNO xhandle
  let idx := XHANDLE_IDX xhandle
  if idx < s.xhandleTableLimit ∧ (s.xhandleTable idx).nummeth ≠ 0 ∧
      seqNo = (s.xhandleTable idx).seqNo then .ok idx
  else .error (.serror 1509 0 .EINVAL)

def xhandleValidate (xhandle : ℕ) : Except Failure Unit :=
  let seqNo := XHANDLE_SEQNO xhandle
  let idx := XHANDLE_IDX xhandle
  if idx < s.xhandleTableLimit ∧ (s.xhandleTable idx).nummeth ≠ 0 ∧
      seqNo = (s.xhandleTable idx).seqNo then .ok ()
  else .error (.serror 1162 0 .EINVAL)

def XHToInternal (getType : ObjRef → ℕ) (xh : ℕ) (pid : ProcessID) (rights : ℕ) :
    Except Failure (ObjRef × ℕ) :=
  match s.xhandleToXObj xh with
  | .error e => .error e
  | .ok idx =>
    let xobj := s.xhandleTable idx
    if pid = xobj.matchPID ∧ rights &&& xobj.mrights = rights ∨
        rights &&& xobj.urights = rights then .ok (xobj.iobj, getType xobj.iobj)
    else .error (.serror 1161 0 .EPERM)

/-! ## Grace periods -/

/-- `stat` is what `checkGlobalThreadMarker` says of the marker that was set when the old entries
became old. -/
def processToken (stat : MarkerState) : XHandleTrans :=
  if s.oldEntries ≠ [] ∧ stat = .ACTIVE then s
  else
    { s with
      removedEntries := []
      numberRemoved := 0
      oldEntries := s.removedEntries
      freeEntries := s.oldEntries ++ s.freeEntries }

/-- A new chunk of the table. -/
def extend : XHandleTrans :=
  let newLimit := s.xhandleTableLimit + XHANDLE_TABLE_INCREMENT
  { s with
    xhandleTable := fun i =>
      if s.xhandleTableLimit ≤ i ∧ i < newLimit then .zero else s.xhandleTable i
    xhandleTableLimit := newLimit
    freeEntries := List.range' s.xhandleTableLimit XHANDLE_TABLE_INCREMENT ++ s.freeEntries }

/-! ## `alloc` -/

/-- The free list before the pop that succeeds; none if the table is exhausted. -/
def refill (stat : MarkerState) : Option XHandleTrans :=
  if s.freeEntries ≠ [] then some s
  else
    let s := s.processToken stat
    if s.freeEntries ≠ [] then some s
    else if s.xhandleTableLimit + XHANDLE_TABLE_INCREMENT ≤ XHANDLE_TABLE_MAX then some s.extend
    else none

/-- The entry that `alloc` takes, and the table without it in the free list. -/
def takeEntry (a : Answers) (oref : ObjRef) (matched : ℕ) (stat : MarkerState) :
    Option (XHandleTrans × ℕ) :=
  let idx := a.globalXHandleIdx oref
  if idx ≠ 0 ∧ matched &&& MetaObj.globalHandle ≠ 0 then some (s, idx)
  else
    match s.refill stat with
    | none => none
    | some s =>
      match s.freeEntries with
      | [] => none
      | te :: rest => some ({ s with freeEntries := rest }, te)

/-- The entry `te` goes to the removed list. -/
def remove (te : ℕ) : XHandleTrans :=
  { s with removedEntries := te :: s.removedEntries, numberRemoved := s.numberRemoved + 1 }

/-- `locked_add` puts a handle at the end of a ring, before its head. -/
def locked_add (ring : List ℕ) (te : ℕ) : List ℕ := ring ++ [te]

/-- `locked_remove` takes a handle out of a ring, whose head is then its successor. -/
def locked_remove (ring : List ℕ) (te : ℕ) : List ℕ :=
  ring.drop (ring.idxOf te + 1) ++ ring.take (ring.idxOf te)

/-- The arguments of `alloc`. -/
structure Request where
  oref : ObjRef
  pid : ProcessID
  matched : ℕ
  unmatched : ℕ
  vtbl : ℕ
  numMethods : ℕ
  clientData : ℕ
deriving DecidableEq

/-- The sequence number stays as it is. -/
def populate (te : ℕ) (r : Request) : XHandleTrans :=
  { s with
    xhandleTable := update s.xhandleTable te
      { vtbl := r.vtbl
        iobj := r.oref
        nummeth := r.numMethods
        seqNo := (s.xhandleTable te).seqNo
        matchPID := r.pid
        mrights := r.matched ||| MetaObj.processOnly
        urights := r.unmatched
        clientData := r.clientData }
    matched :=
      if r.pid ≠ KERNEL_PID then
        update s.matched r.pid (locked_add (s.matched r.pid) te)
      else s.matched
    exported := update s.exported r.oref (locked_add (s.exported r.oref) te) }

def alloc (a : Answers) (r : Request) (stat : MarkerState) : XHandleTrans × Except Failure ℕ :=
  match s.takeEntry a r.oref r.matched stat with
  | none => (s, .error .passert)
  | some (s, te) =>
    if a.exportedClosing r.oref then (s.remove te, .error (.serror 1528 0 ENXIO))
    else if r.pid ≠ KERNEL_PID ∧ a.matchedClosing r.pid then
      (s.remove te, .error (.serror 1216 0 ENXIO))
    else (s.populate te r, .ok (XHANDLE_MAKE te (s.xhandleTable te).seqNo))

/-! ## `free` -/

/-- The slot of a handle is taken off the lists of its object and its process. -/
def unlist (idx : ℕ) : XHandleTrans :=
  let x := s.xhandleTable idx
  { s with
    xhandleTable := update s.xhandleTable idx { x with nummeth := 0 }
    matched :=
      if x.matchPID ≠ KERNEL_PID then
        update s.matched x.matchPID (locked_remove (s.matched x.matchPID) idx)
      else s.matched
    exported := update s.exported x.iobj (locked_remove (s.exported x.iobj) idx) }

/-- The tests of `free` before it holds the locks. -/
def locks (a : Answers) (x : XBaseObj) : Bool :=
  (x.matchPID = KERNEL_PID || a.getRefFromPID x.matchPID) && x.iobj ≠ 0 &&
    !a.exportedClosing x.iobj && (x.matchPID = KERNEL_PID || !a.matchedClosing x.matchPID)

/-- The end of `free`. -/
def collect (stat : MarkerState) : XHandleTrans :=
  if s.numberRemoved % XHANDLE_TABLE_GC_INTERVAL = 0 then s.processToken stat else s

def free (a : Answers) (xhandle : ℕ) (stat : MarkerState) : XHandleTrans :=
  let idx := XHANDLE_IDX xhandle
  if locks a (s.xhandleTable idx) then
    if (s.xhandleTable idx).isValid then ((s.unlist idx).remove idx).collect stat
    else s.collect stat
  else s

/-- `free` releases the handle. -/
def Releases (a : Answers) (xhandle : ℕ) : Prop :=
  locks a (s.xhandleTable (XHANDLE_IDX xhandle)) ∧ (s.xhandleTable (XHANDLE_IDX xhandle)).isValid

end Calls

/-! ## Sequences of calls -/

inductive Op
  | alloc (a : Answers) (r : Request) (stat : MarkerState)
  | free (a : Answers) (xhandle : ℕ) (stat : MarkerState)
  | processToken (stat : MarkerState)

def step (s : XHandleTrans) : Op → XHandleTrans
  | .alloc a r stat => (s.alloc a r stat).1
  | .free a xhandle stat => s.free a xhandle stat
  | .processToken stat => s.processToken stat

/-- An object has a reference, and exports methods. -/
def adm (_ : XHandleTrans) : Op → Prop
  | .alloc _ r _ => r.oref ≠ 0 ∧ r.numMethods ≠ 0
  | _ => True

def calls : Machine XHandleTrans Op := ⟨step, adm⟩

/-- The call gives the slot `idx` to an object: it is the entry that `alloc` takes, and neither
list is closing. -/
def Reuses (s : XHandleTrans) (idx : ℕ) : Op → Prop
  | .alloc a r stat => (s.takeEntry a r.oref r.matched stat).map Prod.snd = some idx ∧
      a.exportedClosing r.oref = false ∧ (r.pid = KERNEL_PID ∨ a.matchedClosing r.pid = false)
  | _ => False

/-- Every lookup of the handle fails, and a further `free` changes nothing, unless it is its turn
to look after the grace periods. -/
structure Dead (s : XHandleTrans) (xh : ℕ) : Prop where
  xhandleToXObj : s.xhandleToXObj xh = .error (.serror 1509 0 .EINVAL)
  xhandleValidate : s.xhandleValidate xh = .error (.serror 1162 0 .EINVAL)
  internal : ∀ getType pid rights,
    s.XHToInternal getType xh pid rights = .error (.serror 1509 0 .EINVAL)
  free : ∀ a stat, s.free a xh stat = s ∨ s.free a xh stat = s.processToken stat

/-! ## A freed handle -/

section Proofs

variable {s : XHandleTrans} {xh idx : ℕ} {op : Op}

theorem dead_of_not_valid (h : (s.xhandleTable (XHANDLE_IDX xh)).isValid = false) : s.Dead xh := by
  have hzero : (s.xhandleTable (XHANDLE_IDX xh)).nummeth = 0 := by
    by_contra hne
    exact absurd (decide_eq_true hne) (by rw [show decide _ = _ from h]; exact Bool.false_ne_true)
  have hlookup : s.xhandleToXObj xh = .error (.serror 1509 0 .EINVAL) :=
    if_neg fun hvalid => hvalid.2.1 hzero
  refine ⟨hlookup, if_neg fun hvalid => hvalid.2.1 hzero, ?_, ?_⟩
  · intro getType pid rights
    unfold XHToInternal
    rw [hlookup]
  · intro a stat
    unfold XHandleTrans.free
    dsimp only
    rw [h]
    by_cases hlocks : locks a (s.xhandleTable (XHANDLE_IDX xh))
    · rw [if_pos hlocks, if_neg Bool.false_ne_true]
      unfold collect
      split
      · exact .inr rfl
      · exact .inl rfl
    · rw [if_neg hlocks]
      exact .inl rfl

/-! What the calls do to the validity of a slot. -/

@[simp]
theorem xhandleTable_processToken (stat : MarkerState) :
    (s.processToken stat).xhandleTable = s.xhandleTable := by
  unfold processToken
  split <;> rfl

theorem xhandleTable_collect (stat : MarkerState) :
    (s.collect stat).xhandleTable = s.xhandleTable := by
  unfold collect
  split
  · exact xhandleTable_processToken stat
  · rfl

theorem isValid_extend (h : (s.xhandleTable idx).isValid = false) :
    (s.extend.xhandleTable idx).isValid = false := by
  unfold extend
  dsimp only
  split
  · rfl
  · exact h

variable {stat : MarkerState} {u : XHandleTrans} {a : Answers}

theorem isValid_refill (hu : s.refill stat = some u)
    (h : (s.xhandleTable idx).isValid = false) : (u.xhandleTable idx).isValid = false := by
  have hprocessed : ((s.processToken stat).xhandleTable idx).isValid = false := by
    rw [xhandleTable_processToken]
    exact h
  unfold refill at hu
  dsimp only at hu
  split_ifs at hu
  · cases hu
    exact h
  · cases hu
    exact hprocessed
  · cases hu
    exact isValid_extend hprocessed

theorem isValid_takeEntry {oref matched te : ℕ}
    (hu : s.takeEntry a oref matched stat = some (u, te))
    (h : (s.xhandleTable idx).isValid = false) : (u.xhandleTable idx).isValid = false := by
  unfold takeEntry at hu
  dsimp only at hu
  split at hu
  · cases hu
    exact h
  · split at hu
    · cases hu
    · rename_i v hv
      have hrefilled := isValid_refill hv h
      split at hu
      · cases hu
      · cases hu
        exact hrefilled

theorem isValid_free {xhandle : ℕ} (h : (s.xhandleTable idx).isValid = false) :
    ((s.free a xhandle stat).xhandleTable idx).isValid = false := by
  unfold XHandleTrans.free
  dsimp only
  split_ifs
  · rw [xhandleTable_collect]
    change (update s.xhandleTable _ _ idx).isValid = false
    by_cases heq : idx = XHANDLE_IDX xhandle
    · rw [heq, update_self]
      rfl
    · rw [update_of_ne heq]
      exact h
  · rw [xhandleTable_collect]
    exact h
  · exact h

theorem isValid_step (h : (s.xhandleTable idx).isValid = false) (hreuses : ¬ s.Reuses idx op) :
    ((s.step op).xhandleTable idx).isValid = false := by
  cases op with
  | processToken stat =>
    change ((s.processToken stat).xhandleTable idx).isValid = false
    rw [xhandleTable_processToken]
    exact h
  | free a xhandle stat => exact isValid_free h
  | alloc a r stat =>
    change ((s.alloc a r stat).1.xhandleTable idx).isValid = false
    unfold alloc
    split
    · exact h
    · rename_i u te hte
      have htaken := isValid_takeEntry hte h
      split_ifs with hexported hmatched
      · exact htaken
      · exact htaken
      · have hne : idx ≠ te := by
          rintro rfl
          refine hreuses ⟨by rw [hte]; rfl, Bool.eq_false_iff.2 hexported, ?_⟩
          by_cases hpid : r.pid = KERNEL_PID
          · exact .inl hpid
          · exact .inr (Bool.eq_false_iff.2 fun hclosing => hmatched ⟨hpid, hclosing⟩)
        change (update u.xhandleTable te _ idx).isValid = false
        rw [update_of_ne hne]
        exact htaken

theorem step_of_reuses (hadm : s.adm op) (h : s.Reuses idx op) :
    ((s.step op).xhandleTable idx).isValid = true ∧ ((s.step op).xhandleTable idx).iobj ≠ 0 := by
  cases op with
  | alloc a r stat =>
    obtain ⟨htaken, hexported, hmatched⟩ := h
    obtain ⟨⟨u, te⟩, hte, rfl⟩ := Option.map_eq_some_iff.1 htaken
    have halloc : (s.alloc a r stat).1 = u.populate te r := by
      unfold alloc
      rw [hte]
      dsimp only
      rw [if_neg (by rw [hexported]; exact Bool.false_ne_true), if_neg]
      rintro ⟨hpid, hclosing⟩
      rcases hmatched with hkernel | hopen
      · exact hpid hkernel
      · rw [hopen] at hclosing
        exact Bool.false_ne_true hclosing
    change ((s.alloc a r stat).1.xhandleTable te).isValid = true ∧
      ((s.alloc a r stat).1.xhandleTable te).iobj ≠ 0
    rw [halloc]
    change (update u.xhandleTable te _ te).isValid = true ∧
      (update u.xhandleTable te _ te).iobj ≠ 0
    rw [update_self]
    exact ⟨decide_eq_true hadm.2, hadm.1⟩
  | free a xhandle stat => exact h.elim
  | processToken stat => exact h.elim

theorem not_dead_of_valid (hvalid : (s.xhandleTable (XHANDLE_IDX xh)).isValid = true)
    (hiobj : (s.xhandleTable (XHANDLE_IDX xh)).iobj ≠ 0) : ¬ s.Dead xh := by
  intro hdead
  -- nothing is closing, and every process is found
  let a : Answers := ⟨fun _ => 0, fun _ => false, fun _ => false, fun _ => true⟩
  have hlocks : locks a (s.xhandleTable (XHANDLE_IDX xh)) = true := by
    unfold locks
    simp [a, hiobj]
  have hfreed : ((s.free a xh .ACTIVE).xhandleTable (XHANDLE_IDX xh)).isValid = false := by
    unfold XHandleTrans.free
    dsimp only
    rw [if_pos hlocks, if_pos hvalid, xhandleTable_collect]
    change (update s.xhandleTable (XHANDLE_IDX xh) _ (XHANDLE_IDX xh)).isValid = false
    rw [update_self]
    rfl
  rcases hdead.free a .ACTIVE with hsame | hsame
  · rw [hsame, hvalid] at hfreed
    cases hfreed
  · rw [hsame, xhandleTable_processToken, hvalid] at hfreed
    cases hfreed

theorem not_valid_of_releases (h : s.Releases a xh) :
    ((s.free a xh stat).xhandleTable (XHANDLE_IDX xh)).isValid = false := by
  unfold XHandleTrans.free
  dsimp only
  rw [if_pos h.1, if_pos h.2, xhandleTable_collect]
  change (update s.xhandleTable (XHANDLE_IDX xh) _ (XHANDLE_IDX xh)).isValid = false
  rw [update_self]
  rfl

/-- The handle is dead after every call. -/
def DeadThroughout (xh : ℕ) : XHandleTrans → List Op → Prop
  | s, [] => s.Dead xh
  | s, op :: ops => s.Dead xh ∧ DeadThroughout xh (s.step op) ops

/-- Some call reuses the slot. -/
def ReusesIn (idx : ℕ) : XHandleTrans → List Op → Prop
  | _, [] => False
  | s, op :: ops => s.Reuses idx op ∨ ReusesIn idx (s.step op) ops

theorem deadThroughout_iff {ops : List Op} :
    ∀ {s : XHandleTrans}, calls.Admits s ops →
      (s.xhandleTable (XHANDLE_IDX xh)).isValid = false →
      (DeadThroughout xh s ops ↔ ¬ ReusesIn (XHANDLE_IDX xh) s ops) := by
  induction ops with
  | nil =>
    intro s _ hfreed
    exact ⟨fun _ => id, fun _ => dead_of_not_valid hfreed⟩
  | cons op ops ih =>
    rintro s ⟨hadm, hadmits⟩ hfreed
    by_cases hreuses : s.Reuses (XHANDLE_IDX xh) op
    · obtain ⟨hvalid, hiobj⟩ := step_of_reuses hadm hreuses
      constructor
      · rintro ⟨-, hdead⟩
        have hfirst : (s.step op).Dead xh := by
          cases ops with
          | nil => exact hdead
          | cons _ _ => exact hdead.1
        exact absurd hfirst (not_dead_of_valid hvalid hiobj)
      · exact fun hnot => absurd (Or.inl hreuses) hnot
    · have hstep := isValid_step hfreed hreuses
      have htail := ih hadmits hstep
      constructor
      · rintro ⟨-, hdead⟩ (hreused | hreused)
        · exact hreuses hreused
        · exact htail.1 hdead hreused
      · intro hnot
        exact ⟨dead_of_not_valid hfreed, htail.2 fun hreused => hnot (.inr hreused)⟩

/-- A handle that has been released is dead for ever after exactly if its slot is never used
again. -/
theorem released_dead_iff {a : Answers} {stat : MarkerState} (hreleases : s.Releases a xh)
    {ops : List Op} (h : calls.Admits (s.free a xh stat) ops) :
    DeadThroughout xh (s.free a xh stat) ops ↔
      ¬ ReusesIn (XHANDLE_IDX xh) (s.free a xh stat) ops :=
  deadThroughout_iff h (not_valid_of_releases hreleases)

end Proofs

instance (s : XHandleTrans) (op : Op) : Decidable (calls.adm s op) :=
  match op with
  | .alloc .. => inferInstanceAs (Decidable (_ ∧ _))
  | .free .. | .processToken _ => isTrue trivial

instance (s : XHandleTrans) (idx : ℕ) (op : Op) : Decidable (s.Reuses idx op) :=
  match op with
  | .alloc .. => inferInstanceAs (Decidable (_ ∧ _))
  | .free _ _ _ => isFalse id
  | .processToken _ => isFalse id

instance ReusesIn.decidable (idx : ℕ) :
    ∀ (s : XHandleTrans) (ops : List Op), Decidable (ReusesIn idx s ops)
  | _, [] => isFalse id
  | s, op :: ops =>
    have := ReusesIn.decidable idx (s.step op) ops
    inferInstanceAs (Decidable (s.Reuses idx op ∨ ReusesIn idx (s.step op) ops))

/-- No global objects; nothing is closing. -/
def answers : Answers where
  globalXHandleIdx := fun _ => 0
  exportedClosing := fun _ => false
  matchedClosing := fun _ => false
  getRefFromPID := fun _ => true

/-- A handle of the object `oref` for the process `pid`. -/
def request (oref : ObjRef) (pid : ProcessID) : Request where
  oref := oref
  pid := pid
  matched := 4
  unmatched := 0
  vtbl := 1
  numMethods := 1
  clientData := 0

/-- The first handle. -/
def first : ℕ := XHANDLE_MAKE numReservedEntries 0

/-- The table with one handle, which has been given out for the object 5 and the process 7. -/
def given : XHandleTrans := (init.alloc answers (request 5 7) .ACTIVE).1

/-- The slot waits for its grace period while another handle is given out. -/
def waits : List Op :=
  [.processToken .ELAPSED, .alloc answers (request 6 8) .ACTIVE, .processToken .ACTIVE]

theorem released_dead_iff_waits :
    given.Releases answers first ∧ calls.Admits (given.free answers first .ACTIVE) waits ∧
      DeadThroughout first (given.free answers first .ACTIVE) waits := by
  have hreleases : given.Releases answers first := by
    unfold Releases
    decide +kernel
  have hadmits : calls.Admits (given.free answers first .ACTIVE) waits := by decide +kernel
  have hnot : ¬ ReusesIn (XHANDLE_IDX first) (given.free answers first .ACTIVE) waits := by
    decide +kernel
  exact ⟨hreleases, hadmits, (released_dead_iff hreleases hadmits).2 hnot⟩

/-- The grace period elapses, and the slot is given to the object 6 and the process 8. -/
def recycles : List Op :=
  [.processToken .ELAPSED, .processToken .ELAPSED, .alloc answers (request 6 8) .ACTIVE]

/-- The handle of the object 5 is valid again, stands for the object 6, and frees it. -/
theorem freed_handle_revives :
    let s := recycles.foldl calls.step (given.free answers first .ACTIVE)
    given.Releases answers first ∧
      calls.Run (given.free answers first .ACTIVE) recycles s ∧
      (s.xhandleToXObj first).toOption = some numReservedEntries ∧
      (s.XHToInternal id first 8 4).toOption = some (6, 6) ∧
      ((s.free answers first .ACTIVE).exported 6 = [] ∧ s.exported 6 ≠ []) ∧ ¬ s.Dead first := by
  intro s
  have hreleases : given.Releases answers first := by
    unfold Releases
    decide +kernel
  have hadmits : calls.Admits (given.free answers first .ACTIVE) recycles := by decide +kernel
  have hfound : (s.xhandleToXObj first).toOption = some numReservedEntries := by decide +kernel
  refine ⟨hreleases, hadmits.run, hfound, by decide +kernel, by decide +kernel, ?_⟩
  intro hdead
  rw [hdead.xhandleToXObj] at hfound
  cases hfound

end XHandleTrans

end K42
