import K42.Misc.DHashTableRuns
import K42.Mem.VPSet

/-!
# The master table and the operations on all replicas

A `MasterDHashTable` has one `LocalDHashTable` for each cluster of processors. An entry of
the master table knows the processors on which it is replicated, and `doOp` and `doOPAll`
apply an operation to the entry and then one to each of its replicas. The replicas are
found by their key three times: to lock them, to operate on them, and to unlock them.

A call is a function of the state it meets. It does not return (`none`) if it needs a lock
that is taken, or if one of its assertions fails. An entry that has been found still has
its key when it has been locked, since nothing else runs in between.
-/

namespace K42

/-! ## Looking up and going through a table -/

namespace DHashTable

variable {δ : Type} [DHashData δ]

open DHashData

def find (t : DHashTable δ) (key : ℕ) : Option ℕ :=
  (t.buckets (t.hash key)).find? (t.matchKey · key)

/-- The chain of the first bucket from `i` on that is not empty. A pointer to an entry is the
rest of a chain. -/
def firstFrom (t : DHashTable δ) : (left i : ℕ) → List ℕ
  | 0, _ => []
  | left + 1, i => if t.buckets i = [] then firstFrom t left (i + 1) else t.buckets i

def getFirst (t : DHashTable δ) : List ℕ := t.firstFrom (2 ^ t.log2numBuckets) 0

/-- At the end of a chain the key of the last entry says which buckets come next. -/
def getNext (t : DHashTable δ) : List ℕ → List ℕ
  | [] => []
  | [e] =>
    let i := t.hash (getKey (t.data e)) + 1
    t.firstFrom (2 ^ t.log2numBuckets - i) i
  | _ :: e :: rest => e :: rest

/-- A new entry in the chain of its key. -/
def allocate (t : DHashTable δ) (e key : ℕ) : DHashTable δ :=
  ((t.newEntry e key).push (t.hash key) e).inc

/-- `doResize`, to a number of buckets. -/
def doResize (t : DHashTable δ) (log2 : ℕ) : DHashTable δ :=
  t.chains.foldl rehash (t.newBuckets log2)

/-- The entries that a loop goes through from `p` on, if it ends after `fuel` of them. -/
def walk (t : DHashTable δ) : (fuel : ℕ) → List ℕ → Option (List ℕ)
  | _, [] => some []
  | 0, _ :: _ => none
  | fuel + 1, e :: rest => (walk t fuel (t.getNext (e :: rest))).map (e :: ·)

end DHashTable

/-! ## Operations -/

inductive OpStatus
  | FAILURE | SUCCESS | LOCALFAILURE
deriving DecidableEq

inductive OpDirective
  | LOCKALL | LOCKONEATATIME | LOCKNONE
deriving DecidableEq

/-- What the table asks of `MDATA` and `LDATA` together: the master entry keeps the set of
processors with a replica. -/
class MasterDHashData (μ : Type) (ℓ : outParam Type) [DHashData μ] [DHashData ℓ] where
  replicaVPs : μ → VPSet
  replicateToLocal : ℕ → μ → ℓ → μ × ℓ
  replicaVPs_create : ∀ key, replicaVPs (DHashData.create key) = VPSet.init
  replicaVPs_replicate : ∀ vp md ld,
    replicaVPs (replicateToLocal vp md ld).1 = (replicaVPs md).addVP vp
  getKey_replicate : ∀ vp md ld, DHashData.getKey (replicateToLocal vp md ld).1 =
    DHashData.getKey md ∧ DHashData.getKey (replicateToLocal vp md ld).2 = DHashData.getKey md
  isEmpty_replicate : ∀ vp md ld, DHashData.isEmpty (replicateToLocal vp md ld).1 =
    DHashData.isEmpty md ∧ DHashData.isEmpty (replicateToLocal vp md ld).2 = DHashData.isEmpty md

open DHashData MasterDHashData

/-- An operation on the data of a replica, with its `OpArg`. It reports any status, and
changes neither the key nor whether the entry is empty. -/
structure LOP (ℓ : Type) [DHashData ℓ] where
  run : ℓ → OpStatus × ℓ
  getKey_run : ∀ d, getKey (run d).2 = getKey d
  isEmpty_run : ∀ d, isEmpty (run d).2 = isEmpty d

/-- An operation on the data of a master entry, which does not change its replicas either. -/
structure MOP (μ : Type) {ℓ : Type} [DHashData μ] [DHashData ℓ] [MasterDHashData μ ℓ]
    extends LOP μ where
  replicaVPs_run : ∀ d, replicaVPs (run d).2 = replicaVPs d

/-- `locals` are the local tables by address, and `localTables` is that of each processor.
`applied` records the replicas that operations have been applied to. -/
structure MasterDHashTable (μ ℓ : Type) where
  master : DHashTable μ
  locals : ℕ → DHashTable ℓ
  localTables : ℕ → Option ℕ
  applied : List (ℕ × ℕ)

namespace MasterDHashTable

variable {μ ℓ : Type} [DHashData μ] [DHashData ℓ]

/-- `Scheduler::VPLimit`. -/
abbrev VPLimit : ℕ := 32

/-! ## Locks -/

def setLocal (s : MasterDHashTable μ ℓ) (l : ℕ) (t : DHashTable ℓ) : MasterDHashTable μ ℓ :=
  { s with locals := Function.update s.locals l t }

/-- A replica is an entry of a local table. -/
def isLocked (s : MasterDHashTable μ ℓ) (le : ℕ × ℕ) : Bool := (s.locals le.1).locked le.2

def lock (s : MasterDHashTable μ ℓ) (le : ℕ × ℕ) : Option (MasterDHashTable μ ℓ) :=
  if s.isLocked le then none else some (s.setLocal le.1 ((s.locals le.1).setLock le.2 true))

def unlock (s : MasterDHashTable μ ℓ) (le : ℕ × ℕ) : MasterDHashTable μ ℓ :=
  s.setLocal le.1 ((s.locals le.1).setLock le.2 false)

def lockMaster (s : MasterDHashTable μ ℓ) (me : ℕ) : Option (MasterDHashTable μ ℓ) :=
  if s.master.locked me then none else some { s with master := s.master.setLock me true }

def unlockMaster (s : MasterDHashTable μ ℓ) (me : ℕ) : MasterDHashTable μ ℓ :=
  { s with master := s.master.setLock me false }

/-- The replica of a key on a processor. It is asserted that there is one. -/
def replica (s : MasterDHashTable μ ℓ) (key vp : ℕ) : Option (ℕ × ℕ) :=
  (s.localTables vp).bind fun l => ((s.locals l).find key).map (l, ·)

def lockReplicas (key : ℕ) : List ℕ → MasterDHashTable μ ℓ → Option (MasterDHashTable μ ℓ)
  | [], s => some s
  | vp :: vps, s =>
    match s.replica key vp with
    | none => none
    | some le => (s.lock le).bind (lockReplicas key vps)

/-- It is asserted that each replica is locked. -/
def unlockReplicas (key : ℕ) (keepThisLeLocked : Option (ℕ × ℕ)) :
    List ℕ → MasterDHashTable μ ℓ → Option (MasterDHashTable μ ℓ)
  | [], s => some s
  | vp :: vps, s =>
    match s.replica key vp with
    | none => none
    | some le =>
      if s.isLocked le then
        unlockReplicas key keepThisLeLocked vps
          (if some le = keepThisLeLocked then s else s.unlock le)
      else none

/-- The caller of `findOrAllocateAndLock` unlocks the replica that it has got. -/
def release (s : MasterDHashTable μ ℓ) (le : ℕ × ℕ) : Option (MasterDHashTable μ ℓ) :=
  if s.isLocked le then some (s.unlock le) else none

/-! ## Operations on an entry -/

/-- `(ld->*lo)(oa)`. -/
def apply (s : MasterDHashTable μ ℓ) (lo : LOP ℓ) (le : ℕ × ℕ) :
    OpStatus × MasterDHashTable μ ℓ :=
  let t := s.locals le.1
  let r := lo.run (t.data le.2)
  (r.1, { s.setLocal le.1 (t.setData le.2 r.2) with applied := s.applied ++ [le] })

/-- `LocalDHashTable::doOp` on the local table of a processor. -/
def localDoOp (s : MasterDHashTable μ ℓ) (key : ℕ) (lo : LOP ℓ) (od : OpDirective) (vp : ℕ) :
    Option (OpStatus × MasterDHashTable μ ℓ) :=
  match s.replica key vp with
  | none => none
  | some le =>
    if od = .LOCKONEATATIME then
      (s.lock le).map fun s => ((s.apply lo le).1, (s.apply lo le).2.unlock le)
    else some (s.apply lo le)

def lockedDoLocalOPs (key : ℕ) (lo : LOP ℓ) (od : OpDirective) :
    List ℕ → OpStatus → MasterDHashTable μ ℓ → Option (OpStatus × MasterDHashTable μ ℓ)
  | [], stat, s => some (stat, s)
  | vp :: vps, stat, s =>
    (s.localDoOp key lo od vp).bind fun r =>
      lockedDoLocalOPs key lo od vps (if r.1 = .FAILURE then .FAILURE else stat) r.2

variable [MasterDHashData μ ℓ]

/-- The processors of the loops over the replicas of a master entry. -/
def replicas (s : MasterDHashTable μ ℓ) (me : ℕ) : List ℕ :=
  (replicaVPs (s.master.data me)).members VPLimit

def lockAllReplicas (s : MasterDHashTable μ ℓ) (me : ℕ) : Option (MasterDHashTable μ ℓ) :=
  lockReplicas (getKey (s.master.data me)) (s.replicas me) s

def unlockAllReplicas (s : MasterDHashTable μ ℓ) (me : ℕ) (keepThisLeLocked : Option (ℕ × ℕ)) :
    Option (MasterDHashTable μ ℓ) :=
  unlockReplicas (getKey (s.master.data me)) keepThisLeLocked (s.replicas me) s

/-- `(md->*mo)(oa)`, if there is an operation. -/
def applyMaster (s : MasterDHashTable μ ℓ) (mo : Option (MOP μ)) (me : ℕ) :
    OpStatus × MasterDHashTable μ ℓ :=
  match mo with
  | none => (.SUCCESS, s)
  | some mo =>
    let r := mo.run (s.master.data me)
    (r.1, { s with master := s.master.setData me r.2 })

/-- The operations on the replicas, and their status for the caller. -/
def localOps (s : MasterDHashTable μ ℓ) (key : ℕ) (me : ℕ) (lo : LOP ℓ) (od : OpDirective) :
    Option (OpStatus × MasterDHashTable μ ℓ) :=
  (lockedDoLocalOPs key lo od (s.replicas me) .SUCCESS s).map fun r =>
    (if r.1 = .FAILURE then .LOCALFAILURE else .SUCCESS, r.2)

/-- Between locking the entry and unlocking it. -/
def doOpLocked (s : MasterDHashTable μ ℓ) (key : ℕ) (mo : Option (MOP μ)) (lo : LOP ℓ)
    (keepThisLeLocked : Option (ℕ × ℕ)) (od : OpDirective) (me : ℕ) :
    Option (OpStatus × MasterDHashTable μ ℓ) :=
  (if od = .LOCKALL then s.lockAllReplicas me else some s).bind fun s =>
    (if (s.applyMaster mo me).1 = .FAILURE then some (.FAILURE, (s.applyMaster mo me).2)
      else (s.applyMaster mo me).2.localOps key me lo od).bind fun r =>
    (if od = .LOCKALL then r.2.unlockAllReplicas me keepThisLeLocked else some r.2).map fun s =>
      (r.1, s)

def doOp (s : MasterDHashTable μ ℓ) (key : ℕ) (mo : Option (MOP μ)) (lo : LOP ℓ)
    (keepThisLeLocked : Option (ℕ × ℕ)) (od : OpDirective) :
    Option (OpStatus × MasterDHashTable μ ℓ) :=
  match s.master.find key with
  | none => some (.FAILURE, s)
  | some me =>
    (s.lockMaster me).bind fun s =>
      (s.doOpLocked key mo lo keepThisLeLocked od me).map fun r => (r.1, r.2.unlockMaster me)

/-- The `doOp` for an entry that the caller has locked. -/
def doOpData (s : MasterDHashTable μ ℓ) (me : ℕ) (lo : LOP ℓ) (od : OpDirective) :
    Option (OpStatus × MasterDHashTable μ ℓ) :=
  (if od = .LOCKALL then s.lockAllReplicas me else some s).bind fun s =>
    (s.localOps (getKey (s.master.data me)) me lo od).bind fun r =>
      (if od = .LOCKALL then r.2.unlockAllReplicas me none else some r.2).map fun s => (r.1, s)

/-- What the loop of `doOPAll` does with one entry. -/
def opEntry (s : MasterDHashTable μ ℓ) (mo : Option (MOP μ)) (lo : LOP ℓ) (me : ℕ) :
    Option (MasterDHashTable μ ℓ) :=
  (s.lockMaster me).bind fun s =>
    if isEmpty (s.master.data me) then some (s.unlockMaster me)
    else
      (s.lockAllReplicas me).bind fun s =>
        let r := s.applyMaster mo me
        -- the replicas of this entry stay locked
        if r.1 = .FAILURE then some (r.2.unlockMaster me)
        else
          (r.2.localOps (getKey (r.2.master.data me)) me lo .LOCKNONE).bind fun r =>
            (r.2.unlockAllReplicas me none).map fun s => s.unlockMaster me

def opAll (mo : Option (MOP μ)) (lo : LOP ℓ) :
    (fuel : ℕ) → List ℕ → MasterDHashTable μ ℓ → Option (MasterDHashTable μ ℓ)
  | _, [], s => some s
  | 0, _ :: _, _ => none
  | fuel + 1, me :: rest, s =>
    (s.opEntry mo lo me).bind fun s => opAll mo lo fuel (s.master.getNext (me :: rest)) s

def doOPAll (fuel : ℕ) (s : MasterDHashTable μ ℓ) (mo : Option (MOP μ)) (lo : LOP ℓ) :
    Option (MasterDHashTable μ ℓ) :=
  opAll mo lo fuel s.master.getFirst s

/-! ## Allocating and emptying -/

/-- `findOrAllocateAndLock` of the master table. It is asserted that a new entry, which gets
the address `a`, has the key. -/
def findOrAllocateAndLock (s : MasterDHashTable μ ℓ) (key a : ℕ) :
    Option (ℕ × MasterDHashTable μ ℓ) :=
  match s.master.find key with
  | some me => (s.lockMaster me).map (me, ·)
  | none =>
    if a ∈ s.master.live then none
    else if (s.master.allocate a key).matchKey a key then
      some (a, { s with master := s.master.allocate a key })
    else none

/-- A new entry of a local table, at the address `a`, becomes a replica of a master entry. -/
def replicate (s : MasterDHashTable μ ℓ) (vp l key me a : ℕ) : MasterDHashTable μ ℓ :=
  let t := (s.locals l).allocate a key
  let r := replicateToLocal vp (s.master.data me) (t.data a)
  { s.setLocal l (t.setData a r.2) with master := s.master.setData me r.1 }

/-- `findOrAllocateAndLock` of the local table of a processor, for its caller. -/
def localFindOrAllocateAndLock (s : MasterDHashTable μ ℓ) (vp key a b : ℕ) :
    Option (MasterDHashTable μ ℓ) :=
  (s.localTables vp).bind fun l =>
    match (s.locals l).find key with
    | some e => s.lock (l, e)
    | none =>
      (s.findOrAllocateAndLock key a).bind fun r =>
        if b ∈ (s.locals l).live ∨ VPLimit ≤ vp then none
        else some ((r.2.replicate vp l key r.1 b).unlockMaster r.1)

/-- `li->lt->emptyData(ld, emptyArg)`. -/
def emptyLocal (s : MasterDHashTable μ ℓ) (le : ℕ × ℕ) : MasterDHashTable μ ℓ :=
  let t := s.locals le.1
  s.setLocal le.1 (t.setData le.2 (setEmpty (t.data le.2))).dec

def emptyMaster (s : MasterDHashTable μ ℓ) (me : ℕ) : MasterDHashTable μ ℓ :=
  { s with master := (s.master.setData me (setEmpty (s.master.data me))).dec }

/-- `startEmpty` and `finishEmpty`: the continuation holds the replicas. -/
def doEmpty (s : MasterDHashTable μ ℓ) (key : ℕ) : Option (MasterDHashTable μ ℓ) :=
  match s.master.find key with
  | none => some s
  | some me =>
    (s.lockMaster me).bind fun s =>
      (s.lockAllReplicas me).map fun s =>
        let lst := (s.replicas me).filterMap (s.replica key)
        ((lst.foldl unlock (lst.foldl emptyLocal s)).emptyMaster me).unlockMaster me

end MasterDHashTable

/-! ## The page descriptors of the file cache managers -/

/-- Of the `PageDesc`, the fields that the operations below use. -/
structure LocalPageDescData where
  fileOffset : ℕ
  empty : Bool
  dirty : Bool
deriving DecidableEq

structure MasterPageDescData extends LocalPageDescData where
  replicaVPs : VPSet
deriving DecidableEq

abbrev LOG_PAGE_SIZE : ℕ := 12

instance : DHashData LocalPageDescData where
  getKey d := d.fileOffset
  isEmpty d := d.empty
  create key := ⟨key, false, false⟩
  setEmpty d := { d with empty := true }
  Hash key := key >>> LOG_PAGE_SIZE
  getKey_create _ _ := rfl
  isEmpty_setEmpty _ := rfl

instance : DHashData MasterPageDescData where
  getKey d := d.fileOffset
  isEmpty d := d.empty
  create key := ⟨⟨key, false, false⟩, VPSet.init⟩
  setEmpty d := { d with empty := true }
  Hash key := key >>> LOG_PAGE_SIZE
  getKey_create _ _ := rfl
  isEmpty_setEmpty _ := rfl

instance : MasterDHashData MasterPageDescData LocalPageDescData where
  replicaVPs d := d.replicaVPs
  replicateToLocal vp md _ :=
    ({ md with replicaVPs := md.replicaVPs.addVP vp }, md.toLocalPageDescData)
  replicaVPs_create _ := rfl
  replicaVPs_replicate _ _ _ := rfl
  getKey_replicate _ _ _ := ⟨rfl, rfl⟩
  isEmpty_replicate _ _ _ := ⟨rfl, rfl⟩

/-- `LocalPageDescData::doSetDirty`. -/
def LOP.doSetDirty : LOP LocalPageDescData where
  run d := (.SUCCESS, { d with dirty := true })
  getKey_run _ := rfl
  isEmpty_run _ := rfl

/-- `MasterPageDescData::doDirty` fails on a page that is dirty. -/
def MOP.doDirty : MOP MasterPageDescData where
  run d := if d.dirty then (.FAILURE, d) else (.SUCCESS, { d with dirty := true })
  getKey_run d := by
    split <;> rfl
  isEmpty_run d := by
    split <;> rfl
  replicaVPs_run d := by
    split <;> rfl

end K42
