import K42.Io.PathName
import K42.Lib.PathTree

/-!
# The mount point manager

The mount table is a tree of components. A component is a mount point, which may be coverable, a
symbolic link, or an empty intermediate node. Path names are the lists of their components, and
their lengths the numbers of bytes that store them.
-/

namespace K42

open Components

open PathName (dot slash)

abbrev PATH_MAX : ℕ := 1023

structure ObjectHandle where
  commID : BitVec 64
  xhandle : BitVec 64
deriving DecidableEq

namespace MountPointMgrCommon

/-! ## Components -/

/-- The description ends with a null; without a description it is empty. -/
structure MountPointInfo where
  oh : ObjectHandle
  relPath : List Component
  desc : List UInt8
  isBind : BitVec 64
deriving DecidableEq

namespace MountPointInfo

def create (poh : ObjectHandle) (pth : List Component) (d : List UInt8) (iB : BitVec 64) :
    MountPointInfo where
  oh := poh
  relPath := pth
  desc := if d.length ≠ 0 then d ++ [0] else []
  isBind := iB

def getDescLen (info : MountPointInfo) : ℕ := info.desc.length

end MountPointInfo

/-- The type of a component, with the information that it has. -/
inductive CompType
  | mount (info : MountPointInfo)
  | covMount (info : MountPointInfo)
  | symLink (data : List UInt8)
  | empty
deriving DecidableEq

namespace CompType

def isCoverable : CompType → Bool
  | covMount _ => true
  | _ => false

def isMountPoint : CompType → Bool
  | mount _ => true
  | covMount _ => true
  | _ => false

def isSymLink : CompType → Bool
  | symLink _ => true
  | _ => false

def isEmpty : CompType → Bool
  | empty => true
  | _ => false

def mountPointInfo : CompType → Option MountPointInfo
  | mount info => some info
  | covMount info => some info
  | _ => none

end CompType

/-- The key of a component is its name. -/
abbrev MountComponent := PathTree Component CompType

namespace MountComponent

/-- The name is copied with the length that the byte `compLen` keeps, null included. -/
def Create (pth : Component) : Except Failure MountComponent :=
  let compLen := UInt8.ofNat (pth.length + 1)
  if compLen = 0 then .error .fault
  else .ok (.node (pth.take (compLen.toNat - 1)) .empty [])

def makeMountPoint (poh : ObjectHandle) (pth : List Component) (desc : List UInt8)
    (isCov isBind : BitVec 64) : CompType :=
  let info := MountPointInfo.create poh pth desc isBind
  if isCov ≠ 0 then .covMount info else .mount info

/-- What the component was before is dropped. -/
def overwriteMountPoint (poh : ObjectHandle) (pth : List Component) (desc : List UInt8)
    (isCov isBind : BitVec 64) (mc : MountComponent) : MountComponent :=
  mc.setVal (makeMountPoint poh pth desc isCov isBind)

/-- The string comes with its null. -/
def makeSymLink (str : List UInt8) (mc : MountComponent) : MountComponent :=
  mc.setVal (.symLink str)

end MountComponent

open MountComponent

/-! ## Registration -/

/-- The components that are new, one under the other; the last one is changed by `f`. -/
def newComponents (f : MountComponent → MountComponent) :
    Component → List Component → Except Failure MountComponent
  | currPth, [] => (Create currPth).map f
  | currPth, next :: rest => do
    let ptrPar ← Create currPth
    let ptrChld ← newComponents f next rest
    .ok (ptrPar.addChild ptrChld)

/-- The component at the end of the path is found or added under `ptrPar`, and changed by `f`. -/
def addMountComponent (f : MountComponent → MountComponent) :
    List Component → MountComponent → Except Failure MountComponent
  | [], _ => .error .fault
  | currPth :: rest, ptrPar =>
    match ptrPar.findChild currPth with
    | none => (newComponents f currPth rest).map ptrPar.addChild
    | some ptrChld =>
      if rest = [] then .ok (ptrPar.replaceChild (f ptrChld))
      else (addMountComponent f rest ptrChld).map ptrPar.replaceChild

/-- The arguments of `registerMountPoint`. -/
structure Registration where
  mountPath : List Component
  oh : ObjectHandle
  relPath : List Component
  desc : List UInt8
  isCoverable : BitVec 64
  isBind : BitVec 64
deriving DecidableEq

def registerMountPoint (top : MountComponent) (r : Registration) : Except Failure MountComponent :=
  let overwrite := overwriteMountPoint r.oh r.relPath r.desc r.isCoverable r.isBind
  if r.mountPath = [] then .ok (overwrite top)
  else addMountComponent overwrite r.mountPath top

def registerSymLink (top : MountComponent) (symPath : List Component) (buf : List UInt8) :
    Except Failure MountComponent :=
  addMountComponent (makeSymLink (buf ++ [0])) symPath top

/-- `top` after `init`; its name is a dot. -/
def init : MountComponent := .node [dot] .empty []

/-! ## Lookup -/

structure MountPointFound where
  mc : CompType
  unRes : List Component
deriving DecidableEq

namespace MountPointFound

/-- A coverable component is covered by any later one, another one only by one that is not
coverable. -/
def set (lastMP : Option MountPointFound) (imc : CompType) (iunRes : List Component) :
    Option MountPointFound :=
  match lastMP with
  | none => some ⟨imc, iunRes⟩
  | some last =>
    if last.mc.isCoverable ∨ imc.isCoverable = false ∨ imc.isSymLink then some ⟨imc, iunRes⟩
    else some last

end MountPointFound

/-- The loop of `lookup`, at `ptrPar` with what remains of the path. -/
def resolve (followLink : Bool) :
    List Component → MountComponent → Option MountPointFound → Option MountPointFound
  | [], _, lastMP => lastMP
  | c :: currPth, ptrPar, lastMP =>
    match ptrPar.findChild c with
    | none => lastMP
    | some ptrChld =>
      if ptrChld.val.isEmpty then resolve followLink currPth ptrChld lastMP
      else if followLink = false ∧ ptrChld.val.isSymLink ∧ currPth = [] then lastMP
      else
        let lastMP := MountPointFound.set lastMP ptrChld.val currPth
        if ptrChld.val.isSymLink then lastMP else resolve followLink currPth ptrChld lastMP

/-- `lookup` of a component. -/
def lookup (top : MountComponent) (name : List Component) (followLink : Bool) :
    Except Failure MountPointFound :=
  let lastMP := if top.val.isMountPoint then MountPointFound.set none top.val name else none
  match resolve followLink name top lastMP with
  | none => .error (.serror 1416 0 .ENOENT)
  | some found => .ok found

/-- The leading dots of the target of a link, on the path of its directory. -/
def backUp : List UInt8 → List Component → List Component
  | [x, y], name => if x = dot ∧ y = dot then name.dropLast else name
  | x :: y :: z :: dest, name =>
    if x = dot then
      if y = dot then backUp dest name.dropLast else backUp (z :: dest) name
    else name
  | _, name => name

/-- The path that `lookupMP` makes of the target of a link, in the `maxLen` bytes of the name;
`junk` is what the memory of its own buffer holds. What does not fit is not copied, but its length
is used, which is taken for a fault. -/
def followed (junk : Bytes.Buffer) (maxLen : ℕ) (name unRes : List Component) (data : List UInt8) :
    Except Failure (List Component) :=
  let dest := data.takeWhile (· ≠ 0)
  match PathName.Create junk dest [] PATH_MAX with
  | .error _ => .error .fault
  | .ok (np, newPathLen) =>
    -- without a path the rest would be copied to a null pointer
    if np.isNone ∧ unRes ≠ [] then .error .fault
    else
      let target := match np with
        | none => []
        | some np => decode (Bytes.read np.bytes 0 newPathLen)
      let newPath := target ++ unRes
      if PATH_MAX < size newPath then .error .fault
      else if dest.head? = some slash then
        if maxLen < size newPath then .error .fault else .ok newPath
      else
        let start := backUp dest (name.take (name.length - unRes.length)).dropLast
        if maxLen < size (start ++ newPath) then .error .fault else .ok (start ++ newPath)

/-- The loop of `lookupMP`, with the number of links that it still follows. -/
def lookupLoop (junk : Bytes.Buffer) (top : MountComponent) (maxLen : ℕ) (followLink : Bool) :
    ℕ → List Component → Except Failure (List Component × MountPointFound)
  | 0, name => do
    let found ← lookup top name followLink
    match found.mc with
    | .symLink _ => .error (.serror 2676 0 .ELOOP)
    | _ => .ok (name, found)
  | iterations + 1, name => do
    let found ← lookup top name followLink
    match found.mc with
    | .symLink data => do
      let name ← followed junk maxLen name found.unRes data
      lookupLoop junk top maxLen followLink iterations name
    | _ => .ok (name, found)

def lookupMP (junk : Bytes.Buffer) (top : MountComponent) (name : List Component) (maxLen : ℕ)
    (followLink : Bool) : Except Failure (List Component × MountPointFound) :=
  lookupLoop junk top maxLen followLink 11 name

/-- What the other `lookup` returns: the new name, or the status that is taken for its length, the
length of what is not resolved, and the handle. -/
structure Looked where
  name : Except Failure (List Component)
  unResLen : ℕ
  oh : ObjectHandle

def appendPath (this : List Component) (thisBufLen : ℕ) (pth : List Component) :
    Except Failure (List Component) :=
  if thisBufLen < size this + size pth then .error (.serror 1504 0 .ERANGE)
  else .ok (this ++ pth)

/-- `lookup` of a handle. What remains of the path is moved to a buffer of `PATH_MAX` bytes, behind
the relative path and back. -/
def lookupHandle (junk : Bytes.Buffer) (top : MountComponent) (name : List Component) (maxLen : ℕ)
    (followLink : Bool) : Except Failure Looked := do
  let (_, found) ← lookupMP junk top name maxLen followLink
  match found.mc.mountPointInfo with
  | none => .error .fault
  | some info =>
    if PATH_MAX < size found.unRes then .error (.serror 1413 0 .ENOMEM)
    else
      .ok
        { name := appendPath info.relPath maxLen found.unRes
          unResLen := size found.unRes
          oh := info.oh }

/-! ## What registration does to the tree -/

section Proofs

variable {t m : MountComponent} {c : Component} {path q : List Component} {v : CompType}

/-- The type of the component at the end of a path; where there is none it is empty. -/
def typeAt (t : MountComponent) (q : List Component) : CompType := (t.lookup q).getD .empty

theorem typeAt_nil (t : MountComponent) : typeAt t [] = t.val := rfl

theorem typeAt_cons_of_none (h : t.findChild c = none) (q : List Component) :
    typeAt t (c :: q) = .empty := by
  unfold typeAt
  rw [PathTree.lookup_cons, h]
  rfl

theorem typeAt_cons_of_some (h : t.findChild c = some m) (q : List Component) :
    typeAt t (c :: q) = typeAt m q := by
  unfold typeAt
  rw [PathTree.lookup_cons, h]
  rfl

theorem typeAt_init (q : List Component) : typeAt init q = .empty := by
  cases q with
  | nil => rfl
  | cons c q => exact typeAt_cons_of_none rfl q

theorem typeAt_setVal (t : MountComponent) (v : CompType) (q : List Component) :
    typeAt (t.setVal v) q = if q = [] then v else typeAt t q := by
  cases q with
  | nil =>
    rw [if_pos rfl, typeAt_nil]
    exact PathTree.val_setVal t v
  | cons c q =>
    unfold typeAt
    rw [if_neg (List.cons_ne_nil _ _), PathTree.lookup_setVal_cons]

theorem typeAt_addChild (t m : MountComponent) (c : Component) (q : List Component) :
    typeAt (t.addChild m) (c :: q) = if m.key = c then typeAt m q else typeAt t (c :: q) := by
  unfold typeAt
  rw [PathTree.lookup_addChild]
  split <;> rfl

theorem typeAt_replaceChild {d : MountComponent} (h : t.findChild m.key = some d) (c : Component)
    (q : List Component) :
    typeAt (t.replaceChild m) (c :: q) =
      if m.key = c then typeAt m q else typeAt t (c :: q) := by
  unfold typeAt
  rw [PathTree.lookup_replaceChild h]
  split <;> rfl

/-- A component of 1 to 254 bytes. -/
def Short (c : Component) : Prop := 0 < c.length ∧ c.length < 255

/-- The length and the null of the name fit in a byte. -/
def Storable (c : Component) : Prop := c.length < 255

theorem create_eq (h : c.length < 256) :
    Create c = if c.length = 255 then .error .fault else .ok (.node c .empty []) := by
  unfold Create
  dsimp only
  by_cases hlong : c.length = 255
  · rw [if_pos hlong, hlong]
    rfl
  · have hlength : (UInt8.ofNat (c.length + 1)).toNat = c.length + 1 :=
      UInt8.toNat_ofNat_of_lt' (by change c.length + 1 < 256; omega)
    have hne : UInt8.ofNat (c.length + 1) ≠ 0 := by
      intro hzero
      rw [hzero] at hlength
      cases hlength
    rw [if_neg hlong, if_neg hne, hlength, Nat.add_sub_cancel, List.take_length]

theorem create_of_ok (hc : c.length < 256) (h : Create c = .ok m) :
    m = .node c .empty [] ∧ Storable c := by
  rw [create_eq hc] at h
  split at h
  case isTrue => cases h
  case isFalse hlong =>
      cases h
      exact ⟨rfl, Nat.lt_of_le_of_ne (Nat.le_of_lt_succ hc) hlong⟩

theorem newComponents_ok (f : MountComponent → MountComponent) (hc : Storable c)
    (hpath : ∀ d ∈ path, Storable d) : ∃ m, newComponents f c path = .ok m := by
  have hcreate : ∀ d, Storable d → Create d = .ok (.node d .empty []) := by
    intro d hd
    rw [create_eq (lt_trans hd (Nat.lt_succ_self _)), if_neg (Nat.ne_of_lt hd)]
  induction path generalizing c with
  | nil =>
    rw [newComponents, hcreate c hc]
    exact ⟨_, rfl⟩
  | cons d path ih =>
    obtain ⟨m, hm⟩ :=
      ih (hpath d List.mem_cons_self) fun e he => hpath e (List.mem_cons_of_mem _ he)
    rw [newComponents, hcreate c hc, hm]
    exact ⟨_, rfl⟩

theorem newComponents_spec (hc : c.length < 256) (hpath : ∀ d ∈ path, d.length < 256)
    (h : newComponents (·.setVal v) c path = .ok m) :
    m.key = c ∧ Storable c ∧ PathTree.Proper Storable m ∧
      ∀ q, typeAt m q = if q = path then v else .empty := by
  induction path generalizing c m with
  | nil =>
    obtain ⟨n, hn, rfl⟩ := map_eq_ok h
    obtain ⟨rfl, hstorable⟩ := create_of_ok hc hn
    refine ⟨rfl, hstorable, PathTree.proper_leaf c v, ?_⟩
    intro q
    rw [typeAt_setVal]
    split
    case isTrue => rfl
    case isFalse hq =>
        cases q with
        | nil => exact absurd rfl hq
        | cons d q => exact typeAt_cons_of_none rfl q
  | cons d path ih =>
    unfold newComponents at h
    cases hcreate : Create c with
    | error e =>
      rw [hcreate] at h
      cases h
    | ok n =>
      obtain ⟨rfl, hstorable⟩ := create_of_ok hc hcreate
      rw [hcreate] at h
      cases hrest : newComponents (·.setVal v) d path with
      | error e =>
        rw [hrest] at h
        cases h
      | ok n =>
        obtain ⟨hkey, hd, hproper, htype⟩ := ih (hpath d List.mem_cons_self)
          (fun e he => hpath e (List.mem_cons_of_mem _ he)) hrest
        rw [hrest] at h
        have hm : m = PathTree.addChild (.node c .empty []) n := (Except.ok.inj h).symm
        subst hm
        refine ⟨rfl, hstorable, ?_, ?_⟩
        · exact (PathTree.proper_leaf c _).addChild hproper (hkey ▸ hd) rfl
        · intro q
          cases q with
          | nil =>
            rw [if_neg (List.cons_ne_nil _ _).symm]
            rfl
          | cons e q =>
            rw [typeAt_addChild, hkey]
            by_cases he : d = e
            · subst he
              rw [if_pos rfl, htype]
              simp only [List.cons.injEq, true_and]
            · rw [if_neg he, if_neg]
              · exact typeAt_cons_of_none rfl q
              · rintro hcons
                exact he (List.cons.inj hcons).1.symm

theorem addMountComponent_ok (f : MountComponent → MountComponent) (hne : path ≠ [])
    (hpath : ∀ c ∈ path, Storable c) (t : MountComponent) :
    ∃ m, addMountComponent f path t = .ok m := by
  induction path generalizing t with
  | nil => exact absurd rfl hne
  | cons c path ih =>
    have hrest : ∀ d ∈ path, Storable d := fun d hd => hpath d (List.mem_cons_of_mem _ hd)
    unfold addMountComponent
    cases t.findChild c with
    | none =>
      obtain ⟨m, hm⟩ := newComponents_ok f (hpath c List.mem_cons_self) hrest
      dsimp only
      rw [hm]
      exact ⟨_, rfl⟩
    | some d =>
      dsimp only
      by_cases hend : path = []
      · rw [if_pos hend]
        exact ⟨_, rfl⟩
      · obtain ⟨m, hm⟩ := ih hend hrest d
        rw [if_neg hend, hm]
        exact ⟨_, rfl⟩

theorem addMountComponent_spec (hpath : ∀ c ∈ path, c.length < 256)
    (h : addMountComponent (·.setVal v) path t = .ok m) :
    m.key = t.key ∧ (PathTree.Proper Storable t → PathTree.Proper Storable m) ∧
      ∀ q, typeAt m q = if q = path then v else typeAt t q := by
  induction path generalizing t m with
  | nil => cases h
  | cons c path ih =>
    have hrest : ∀ d ∈ path, d.length < 256 := fun d hd => hpath d (List.mem_cons_of_mem _ hd)
    -- a child that is found under `c` with the types of `n`
    have hchild : ∀ {n t' : MountComponent} {w : List Component → CompType}, n.key = c →
        t'.val = t.val →
        (∀ e q, typeAt t' (e :: q) = if n.key = e then typeAt n q else typeAt t (e :: q)) →
        (∀ q, typeAt t (c :: q) = w q) →
        (∀ q, typeAt n q = if q = path then v else w q) →
        ∀ q, typeAt t' q = if q = c :: path then v else typeAt t q := by
      intro n t' w hkey hval hcons hw htype q
      cases q with
      | nil =>
        rw [if_neg (List.cons_ne_nil _ _).symm, typeAt_nil, typeAt_nil, hval]
      | cons e q =>
        rw [hcons, hkey]
        by_cases he : c = e
        · subst he
          rw [if_pos rfl, htype, hw]
          simp only [List.cons.injEq, true_and]
        · rw [if_neg he, if_neg]
          intro heq
          exact he (List.cons.inj heq).1.symm
    unfold addMountComponent at h
    cases hfind : t.findChild c with
    | none =>
      rw [hfind] at h
      obtain ⟨n, hn, rfl⟩ := map_eq_ok h
      obtain ⟨hkey, hstorable, hproper, htype⟩ :=
        newComponents_spec (hpath c List.mem_cons_self) hrest hn
      refine ⟨PathTree.key_addChild t n, ?_, ?_⟩
      · intro ht
        exact ht.addChild hproper (hkey ▸ hstorable) (by rw [hkey]; exact hfind)
      · exact hchild hkey (PathTree.val_addChild t n) (typeAt_addChild t n)
          (typeAt_cons_of_none hfind) htype
    | some d =>
      have hd : d.key = c := PathTree.key_of_findChild hfind
      rw [hfind] at h
      dsimp only at h
      by_cases hend : path = []
      · rw [if_pos hend] at h
        cases h
        have hkey : (d.setVal v).key = c := (PathTree.key_setVal d v).trans hd
        refine ⟨PathTree.key_replaceChild _ _, ?_, ?_⟩
        · intro ht
          obtain ⟨hstorable, hproper⟩ := ht.findChild hfind
          exact ht.replaceChild (hproper.setVal v) (hkey ▸ hstorable)
        · refine hchild hkey (PathTree.val_replaceChild _ _) ?_ (typeAt_cons_of_some hfind) ?_
          · exact typeAt_replaceChild (by rw [hkey]; exact hfind)
          · rw [hend]
            exact typeAt_setVal d v
      · rw [if_neg hend] at h
        obtain ⟨n, hn, rfl⟩ := map_eq_ok h
        obtain ⟨hkey, hproper, htype⟩ := ih hrest hn
        rw [hd] at hkey
        refine ⟨PathTree.key_replaceChild _ _, ?_, ?_⟩
        · intro ht
          obtain ⟨hstorable, hproper'⟩ := ht.findChild hfind
          exact ht.replaceChild (hproper hproper') (hkey ▸ hstorable)
        · exact hchild hkey (PathTree.val_replaceChild _ _)
            (typeAt_replaceChild (by rw [hkey]; exact hfind)) (typeAt_cons_of_some hfind)
            htype

/-- The type that a registration gives. -/
def Registration.compType (r : Registration) : CompType :=
  makeMountPoint r.oh r.relPath r.desc r.isCoverable r.isBind

theorem compType_eq (r : Registration) :
    (r.compType.isCoverable = true ↔ r.isCoverable ≠ 0) ∧ r.compType.isEmpty = false ∧
      r.compType.isSymLink = false ∧ r.compType.isMountPoint = true ∧
      r.compType.mountPointInfo = some (.create r.oh r.relPath r.desc r.isBind) := by
  unfold Registration.compType MountComponent.makeMountPoint
  by_cases h : r.isCoverable ≠ 0
  · simp only [if_pos h]
    exact ⟨⟨fun _ => h, fun _ => rfl⟩, rfl, rfl, rfl, rfl⟩
  · simp only [if_neg h]
    exact ⟨⟨nofun, fun h' => absurd h' h⟩, rfl, rfl, rfl, rfl⟩

theorem registerMountPoint_ok {r : Registration} (hpath : ∀ c ∈ r.mountPath, Storable c)
    (t : MountComponent) : ∃ m, registerMountPoint t r = .ok m := by
  unfold registerMountPoint
  dsimp only
  by_cases hne : r.mountPath = []
  · rw [if_pos hne]
    exact ⟨_, rfl⟩
  · rw [if_neg hne]
    exact addMountComponent_ok _ hne hpath t

theorem registerMountPoint_spec {r : Registration} (hpath : ∀ c ∈ r.mountPath, c.length < 256)
    (h : registerMountPoint t r = .ok m) :
    (PathTree.Proper Storable t → PathTree.Proper Storable m) ∧
      ∀ q, typeAt m q = if q = r.mountPath then r.compType else typeAt t q := by
  unfold registerMountPoint at h
  dsimp only at h
  by_cases hne : r.mountPath = []
  · rw [if_pos hne] at h
    cases h
    rw [hne]
    exact ⟨fun ht => ht.setVal _, typeAt_setVal t _⟩
  · rw [if_neg hne] at h
    exact (addMountComponent_spec (v := r.compType) hpath h).2

/-! ## Many registrations -/

/-- The last registration of a mount path. -/
def lastRegistration (regs : List Registration) (q : List Component) : Option Registration :=
  regs.reverse.find? fun r => decide (r.mountPath = q)

theorem lastRegistration_append (regs : List Registration) (r : Registration) (q : List Component) :
    lastRegistration (regs ++ [r]) q =
      if q = r.mountPath then some r else lastRegistration regs q := by
  unfold lastRegistration
  rw [List.reverse_append, List.reverse_singleton, List.singleton_append, List.find?_cons]
  by_cases h : q = r.mountPath
  · rw [if_pos h, decide_eq_true h.symm]
  · rw [if_neg h, decide_eq_false (Ne.symm h)]

theorem registerAll_spec {regs : List Registration}
    (h : ∀ r ∈ regs, ∀ c ∈ r.mountPath, Storable c) (t : MountComponent) :
    ∃ m, regs.foldlM registerMountPoint t = .ok m ∧
      ∀ q, typeAt m q =
        ((lastRegistration regs q).map Registration.compType).getD (typeAt t q) := by
  induction regs using List.reverseRecOn with
  | nil => exact ⟨t, rfl, fun _ => rfl⟩
  | append_singleton regs r ih =>
    obtain ⟨n, hn, htypes⟩ := ih fun s hs => h s (List.mem_append_left _ hs)
    have hr := h r (List.mem_append_right _ (List.mem_singleton_self r))
    obtain ⟨m, hm⟩ := registerMountPoint_ok hr n
    obtain ⟨-, htype⟩ :=
      registerMountPoint_spec (fun c hc => lt_trans (hr c hc) (Nat.lt_succ_self _)) hm
    refine ⟨m, ?_, ?_⟩
    · rw [List.foldlM_append, hn]
      change (registerMountPoint n r >>= pure) = _
      rw [hm]
      rfl
    · intro q
      rw [htype, lastRegistration_append]
      by_cases hq : q = r.mountPath
      · rw [if_pos hq, if_pos hq]
        rfl
      · rw [if_neg hq, if_neg hq]
        exact htypes q

end Proofs

end MountPointMgrCommon

end K42
