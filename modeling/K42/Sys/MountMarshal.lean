import K42.Sys.MountPointMgrCommon

/-!
# The mount table in a buffer

`marshalToBuf` writes the mount points of the tree into a buffer, and `demarshalFromBuf` registers
them again. A number is stored in eight bytes, a path name or a description behind its length.
-/

open List (append_assoc length_append append_nil flatMap_cons)

namespace K42

open Components

open PathName (dot)

namespace MountPointMgrCommon

abbrev MAX_MP_DESC_LEN : ℕ := 128

/-- `PathFromBuf` of a string: the components end where the string does. A component takes at least
one byte, so that as many turns are enough. -/
def pathFromBuf : ℕ → List UInt8 → Except Failure (List Component)
  | _, [] => .ok []
  | 0, _ :: _ => .error .fault
  | n + 1, nmLen :: bs =>
    if bs.length < nmLen.toNat then .error (.serror 1160 0 .EINVAL)
    else (pathFromBuf n (bs.drop nmLen.toNat)).map (bs.take nmLen.toNat :: ·)

/-! ## The buffer -/

/-- What the memory holds behind `used` is left over. -/
structure MarshBuf where
  data : Bytes.Buffer
  len : ℕ
  used : ℕ

namespace MarshBuf

def reset (b : MarshBuf) : MarshBuf := { b with used := 0 }

/-- The length is doubled as long as `pLen` bytes do not fit, at most once for each byte. -/
def grow (used pLen : ℕ) : ℕ → ℕ → ℕ
  | 0, len => len
  | n + 1, len => if len - used ≤ pLen then grow used pLen n (len * 2) else len

def copyToBuf (b : MarshBuf) (p : List UInt8) : MarshBuf where
  data := Bytes.write b.data b.used p
  len := grow b.used p.length (b.used + p.length) b.len
  used := b.used + p.length

def copyWord (b : MarshBuf) (v : ℕ) : MarshBuf := b.copyToBuf (Bytes.encode 8 v)

def addPath (b : MarshBuf) (pth : List Component) : MarshBuf :=
  let b := b.copyWord (size pth)
  if size pth ≠ 0 then b.copyToBuf (encode pth) else b

def addEntry (b : MarshBuf) (r : Registration) : MarshBuf :=
  let b := b.addPath r.mountPath
  let b := b.addPath r.relPath
  let b := b.copyWord r.oh.commID.toNat
  let b := b.copyWord r.oh.xhandle.toNat
  let b := b.copyWord r.desc.length
  let b := if r.desc.length ≠ 0 then b.copyToBuf r.desc else b
  let b := b.copyWord r.isCoverable.toNat
  b.copyWord r.isBind.toNat

def word (b : MarshBuf) (cur : ℕ) : ℕ := Bytes.decode (Bytes.read b.data cur 8)

/-- The entry at `cur`, and where the next one begins. The description goes to a buffer of
`MAX_MP_DESC_LEN` bytes. -/
def readEntry (b : MarshBuf) (cur : ℕ) : Except Failure (ℕ × Registration) := do
  let pthLen := b.word cur
  let cur := cur + 8
  let pth ← pathFromBuf pthLen (Bytes.read b.data cur pthLen)
  let cur := cur + pthLen
  let lenRP := b.word cur
  let cur := cur + 8
  let relPath ← pathFromBuf lenRP (Bytes.read b.data cur lenRP)
  let cur := cur + lenRP
  let oh : ObjectHandle := ⟨BitVec.ofNat 64 (b.word cur), BitVec.ofNat 64 (b.word (cur + 8))⟩
  let cur := cur + 8 + 8
  let lenDesc := b.word cur
  let cur := cur + 8
  if MAX_MP_DESC_LEN < lenDesc then .error .fault
  else
    let desc := Bytes.read b.data cur lenDesc
    let cur := cur + lenDesc
    let isCoverable := BitVec.ofNat 64 (b.word cur)
    let isBind := BitVec.ofNat 64 (b.word (cur + 8))
    .ok (cur + 8 + 8, ⟨pth, oh, relPath, desc, isCoverable, isBind⟩)

/-- The next entry; `cur` is null at the beginning, which is in front of the end. -/
def getEntry (b : MarshBuf) (cur : Option ℕ) : Except Failure (Option (ℕ × Registration)) :=
  if cur.any (b.used ≤ ·) then .ok none else (b.readEntry (cur.getD 0)).map some

end MarshBuf

/-! ## To the buffer and back -/

/-- The entry of a mount point with the path `pth`. -/
def CompType.entry (pth : List Component) (mc : CompType) : Option Registration :=
  mc.mountPointInfo.map fun info =>
    ⟨pth, info.oh, info.relPath, info.desc, if mc.isCoverable then 1 else 0, info.isBind⟩

/-- A component is entered into the buffer if it is a mount point. -/
def addMount (b : MarshBuf) (curPath : List Component) (mc : CompType) : MarshBuf :=
  match mc.entry curPath with
  | none => b
  | some r => b.addEntry r

def marshalToBuf (top : MountComponent) (marshBuf : MarshBuf) : Option MarshBuf :=
  PathTree.traverse addMount top.steps [] [] top.children (addMount marshBuf.reset [] top.val)

/-- The loop of `demarshalFromBuf`. Each entry but the first one begins in the used part, and takes
bytes, so that two more turns than these are enough. -/
def demarshalLoop (marshBuf : MarshBuf) :
    ℕ → Option ℕ → MountComponent → Except Failure MountComponent
  | 0, _, _ => .error .fault
  | n + 1, cur, top => do
    match ← marshBuf.getEntry cur with
    | none => .ok top
    | some (cur, r) => do
      let top ← registerMountPoint top r
      demarshalLoop marshBuf n (some cur) top

def demarshalFromBuf (top : MountComponent) (marshBuf : MarshBuf) :
    Except Failure MountComponent :=
  demarshalLoop marshBuf (marshBuf.used + 2) none top

/-- `reInit` goes through the tree, and changes the top component. -/
def reInit (top : MountComponent) : Option MountComponent :=
  (PathTree.traverse (fun s _ _ => s) top.steps [] [] top.children ()).map
    fun _ => .node [dot] .empty top.children

/-! ## Tables -/

inductive Op
  | registerMountPoint (r : Registration)
  | registerSymLink (symPath : List Component) (buf : List UInt8)
deriving DecidableEq

def apply (top : MountComponent) : Op → Except Failure MountComponent
  | .registerMountPoint r => registerMountPoint top r
  | .registerSymLink symPath buf => registerSymLink top symPath buf

def build (ops : List Op) : Except Failure MountComponent := ops.foldlM apply init

/-- A path name, with a length that is a `uval`. -/
def IsPath (p : List Component) : Prop := (∀ c ∈ p, Fits c) ∧ size p < UVAL

instance (p : List Component) : Decidable (IsPath p) := inferInstanceAs (Decidable (_ ∧ _))

def Op.Valid : Op → Prop
  | .registerMountPoint r =>
    IsPath r.mountPath ∧ IsPath r.relPath ∧ r.desc.length < MAX_MP_DESC_LEN
  | .registerSymLink symPath _ => IsPath symPath

instance : DecidablePred Op.Valid
  | .registerMountPoint _ => inferInstanceAs (Decidable (_ ∧ _))
  | .registerSymLink _ _ => inferInstanceAs (Decidable (IsPath _))

/-- A table that has been built. -/
def Built (t : MountComponent) : Prop := ∃ ops, (∀ op ∈ ops, Op.Valid op) ∧ build ops = .ok t

/-- The table in the buffer comes back in `target`: its mount points, and nothing else. -/
def RoundTrips (marshBuf : MarshBuf) (t target : MountComponent) : Prop :=
  ∃ b t', marshalToBuf t marshBuf = some b ∧ demarshalFromBuf target b = .ok t' ∧
    ∀ q, typeAt t' q = if (typeAt t q).isMountPoint then typeAt t q else .empty

/-- There are mount points, all without a description, and the manager has a mount point or a link
only where the table has a mount point. -/
structure Harmless (t target : MountComponent) : Prop where
  mounted : ∃ q, (typeAt t q).isMountPoint
  silent : ∀ q info, (typeAt t q).mountPointInfo = some info → info.desc = []
  covered : ∀ q, typeAt target q ≠ .empty → (typeAt t q).isMountPoint

section Proofs

variable {t m target : MountComponent} {b : MarshBuf} {r : Registration} {bs : List UInt8}
  {p q : List Component} {cur : ℕ}

/-! ## What is written -/

def pathBytes (p : List Component) : List UInt8 := Bytes.encode 8 (size p) ++ encode p

def entryBytes (r : Registration) : List UInt8 :=
  pathBytes r.mountPath ++ (pathBytes r.relPath ++ (Bytes.encode 8 r.oh.commID.toNat ++
    (Bytes.encode 8 r.oh.xhandle.toNat ++ (Bytes.encode 8 r.desc.length ++ (r.desc ++
      (Bytes.encode 8 r.isCoverable.toNat ++ Bytes.encode 8 r.isBind.toNat))))))

/-- The used part of the buffer. -/
structure Written (b : MarshBuf) (bs : List UInt8) : Prop where
  used : b.used = bs.length
  holds : Bytes.Holds b.data 0 bs

theorem Written.copyToBuf (h : Written b bs) (p : List UInt8) :
    Written (b.copyToBuf p) (bs ++ p) where
  used := by
    rw [length_append, ← h.used]
    rfl
  holds := by
    change Bytes.Holds (Bytes.write b.data b.used p) 0 (bs ++ p)
    have hwrite := Bytes.holds_write_append h.holds p
    rw [Nat.zero_add, ← h.used] at hwrite
    exact hwrite

theorem Written.addPath (h : Written b bs) (p : List Component) :
    Written (b.addPath p) (bs ++ pathBytes p) := by
  have hsize := h.copyToBuf (Bytes.encode 8 (size p))
  unfold MarshBuf.addPath pathBytes
  dsimp only
  rw [← append_assoc]
  split
  case isTrue => exact hsize.copyToBuf (encode p)
  case isFalse hzero =>
      rw [size_eq_zero.1 (not_not.1 hzero), encode_nil, append_nil]
      rw [size_eq_zero.1 (not_not.1 hzero)] at hsize
      exact hsize

theorem Written.addEntry (h : Written b bs) (r : Registration) :
    Written (b.addEntry r) (bs ++ entryBytes r) := by
  have hhandle := (((h.addPath r.mountPath).addPath r.relPath).copyToBuf
    (Bytes.encode 8 r.oh.commID.toNat)).copyToBuf (Bytes.encode 8 r.oh.xhandle.toNat)
  have hlength := hhandle.copyToBuf (Bytes.encode 8 r.desc.length)
  unfold entryBytes
  simp only [← append_assoc]
  have hdesc : ∀ {c : MarshBuf}, Written c (bs ++ pathBytes r.mountPath ++ pathBytes r.relPath ++
      Bytes.encode 8 r.oh.commID.toNat ++ Bytes.encode 8 r.oh.xhandle.toNat ++
      Bytes.encode 8 r.desc.length) →
      Written (if r.desc.length ≠ 0 then c.copyToBuf r.desc else c)
        (bs ++ pathBytes r.mountPath ++ pathBytes r.relPath ++
          Bytes.encode 8 r.oh.commID.toNat ++ Bytes.encode 8 r.oh.xhandle.toNat ++
          Bytes.encode 8 r.desc.length ++ r.desc) := by
    intro c hc
    split
    case isTrue => exact hc.copyToBuf r.desc
    case isFalse hzero =>
        have hnil : r.desc = [] := List.length_eq_zero_iff.1 (not_not.1 hzero)
        conv =>
          arg 2
          rw [hnil]
        rw [append_nil]
        rw [hnil] at hc
        exact hc
  exact ((hdesc hlength).copyToBuf (Bytes.encode 8 r.isCoverable.toNat)).copyToBuf
    (Bytes.encode 8 r.isBind.toNat)

/-- The mount points among the components, as registrations. -/
def entered (l : List (List Component × CompType)) : List Registration :=
  l.filterMap fun x => x.2.entry x.1

theorem Written.enterAll (h : Written b bs) (l : List (List Component × CompType)) :
    Written (PathTree.enterAll addMount b l) (bs ++ (entered l).flatMap entryBytes) := by
  induction l generalizing b bs with
  | nil =>
    rw [entered, List.filterMap_nil, List.flatMap_nil, append_nil]
    exact h
  | cons x l ih =>
    change Written (PathTree.enterAll addMount (addMount b x.1 x.2) l) _
    cases hentry : x.2.entry x.1 with
    | none =>
      have hsame : addMount b x.1 x.2 = b := by
        unfold addMount
        rw [hentry]
      have hrest : entered (x :: l) = entered l := List.filterMap_cons_none hentry
      rw [hsame, hrest]
      exact ih h
    | some r =>
      have hadd : addMount b x.1 x.2 = b.addEntry r := by
        unfold addMount
        rw [hentry]
      have hrest : entered (x :: l) = r :: entered l := List.filterMap_cons_some hentry
      rw [hadd, hrest, flatMap_cons, ← append_assoc]
      exact ih (h.addEntry r)

/-- The table as registrations. -/
def table (t : MountComponent) : List Registration := entered (t.entries [])

theorem marshalToBuf_eq (t : MountComponent) (marshBuf : MarshBuf) :
    ∃ b, marshalToBuf t marshBuf = some b ∧ Written b ((table t).flatMap entryBytes) := by
  have hreset : Written marshBuf.reset [] := ⟨rfl, rfl⟩
  refine ⟨_, PathTree.traverse_eq addMount t _, ?_⟩
  have hall := hreset.enterAll (t.entries [])
  rw [PathTree.entries_eq] at hall
  unfold table
  rw [PathTree.entries_eq]
  exact hall

theorem reInit_eq (t : MountComponent) : reInit t = some (.node [dot] .empty t.children) := by
  unfold reInit
  rw [PathTree.traverse_eq]
  rfl

/-! ## What is read -/

theorem pathFromBuf_encode (hp : ∀ c ∈ p, c.length < 256) {n : ℕ} (hn : p.length ≤ n) :
    pathFromBuf n (encode p) = .ok p := by
  induction p generalizing n with
  | nil => cases n <;> rfl
  | cons c p ih =>
    obtain ⟨n, rfl⟩ := Nat.exists_eq_succ_of_ne_zero (Nat.ne_zero_of_lt hn)
    have hlength : (UInt8.ofNat c.length).toNat = c.length :=
      UInt8.toNat_ofNat_of_lt' (hp c List.mem_cons_self)
    have hrest := ih (fun d hd => hp d (List.mem_cons_of_mem _ hd)) (Nat.le_of_succ_le_succ hn)
    rw [encode_cons, List.cons_append, pathFromBuf, hlength, List.take_left, List.drop_left,
      hrest, if_neg]
    · rfl
    · rw [length_append]
      omega

theorem length_of_pathFromBuf {n : ℕ} (h : pathFromBuf n bs = .ok p) :
    ∀ c ∈ p, c.length < 256 := by
  induction n generalizing bs p with
  | zero =>
    cases bs with
    | nil =>
      cases h
      exact nofun
    | cons x bs => cases h
  | succ n ih =>
    cases bs with
    | nil =>
      cases h
      exact nofun
    | cons nmLen bs =>
      unfold pathFromBuf at h
      split at h
      case isTrue => cases h
      case isFalse =>
          obtain ⟨q, hq, rfl⟩ := map_eq_ok h
          intro c hc
          rcases List.mem_cons.1 hc with rfl | hc
          · rw [List.length_take]
            exact lt_of_le_of_lt (Nat.min_le_left _ _) nmLen.toNat_lt
          · exact ih hq c hc

/-- What `getEntry` can read. -/
structure Readable (r : Registration) : Prop where
  mountPath : ∀ c ∈ r.mountPath, c.length < 256
  mountSize : size r.mountPath < UVAL
  relPath : ∀ c ∈ r.relPath, c.length < 256
  relSize : size r.relPath < UVAL
  desc : r.desc.length ≤ MAX_MP_DESC_LEN

theorem word_of_holds {v : ℕ} (h : Bytes.Holds b.data cur (Bytes.encode 8 v)) (hv : v < UVAL) :
    b.word cur = v := h.decode hv

theorem path_of_holds (h : Bytes.Holds b.data cur (encode p)) (hp : ∀ c ∈ p, c.length < 256) :
    pathFromBuf (size p) (Bytes.read b.data cur (size p)) = .ok p := by
  unfold Bytes.Holds at h
  rw [length_encode] at h
  rw [h]
  exact pathFromBuf_encode hp (length_le_size p)

theorem length_pathBytes (p : List Component) : (pathBytes p).length = 8 + size p := by
  rw [pathBytes, length_append, Bytes.length_encode, length_encode]

theorem readEntry_eq (h : Bytes.Holds b.data cur (entryBytes r)) (hr : Readable r) :
    b.readEntry cur = .ok (cur + (entryBytes r).length, r) := by
  have hlength : (entryBytes r).length =
      8 + size r.mountPath +
        (8 + size r.relPath + (8 + (8 + (8 + (r.desc.length + (8 + 8)))))) := by
    unfold entryBytes
    simp only [length_append, length_pathBytes, Bytes.length_encode]
  have huval : ∀ v : BitVec 64, v.toNat < UVAL := fun v => v.isLt
  unfold entryBytes pathBytes at h
  simp only [append_assoc] at h
  obtain ⟨hmountSize, h⟩ := Bytes.holds_append.1 h
  rw [Bytes.length_encode] at h
  obtain ⟨hmount, h⟩ := Bytes.holds_append.1 h
  rw [length_encode] at h
  obtain ⟨hrelSize, h⟩ := Bytes.holds_append.1 h
  rw [Bytes.length_encode] at h
  obtain ⟨hrel, h⟩ := Bytes.holds_append.1 h
  rw [length_encode] at h
  obtain ⟨hcomm, h⟩ := Bytes.holds_append.1 h
  rw [Bytes.length_encode] at h
  obtain ⟨hxhandle, h⟩ := Bytes.holds_append.1 h
  rw [Bytes.length_encode] at h
  obtain ⟨hdescLen, h⟩ := Bytes.holds_append.1 h
  rw [Bytes.length_encode] at h
  obtain ⟨hdesc, h⟩ := Bytes.holds_append.1 h
  obtain ⟨hcov, hbind⟩ := Bytes.holds_append.1 h
  rw [Bytes.length_encode] at hbind
  have hdescWord : r.desc.length < UVAL := lt_of_le_of_lt hr.desc (by decide)
  unfold MarshBuf.readEntry
  rw [hlength]
  simp only [word_of_holds hmountSize hr.mountSize, path_of_holds hmount hr.mountPath, bind,
    Except.bind, word_of_holds hrelSize hr.relSize, path_of_holds hrel hr.relPath,
    word_of_holds hcomm (huval _), word_of_holds hxhandle (huval _),
    word_of_holds hdescLen hdescWord, if_neg (not_lt.2 hr.desc), word_of_holds hcov (huval _),
    word_of_holds hbind (huval _), BitVec.ofNat_toNat, BitVec.setWidth_eq]
  have hread : Bytes.read b.data _ r.desc.length = r.desc := hdesc
  rw [hread]
  simp only [Nat.add_assoc]

theorem entryBytes_pos (r : Registration) : 0 < (entryBytes r).length := by
  unfold entryBytes
  rw [length_append, length_pathBytes]
  omega

theorem getEntry_eq (h : Bytes.Holds b.data cur (entryBytes r)) (hr : Readable r)
    (hcur : cur < b.used) :
    b.getEntry (some cur) = .ok (some (cur + (entryBytes r).length, r)) := by
  have hinside : ¬ (some cur).any (b.used ≤ ·) = true := by
    rw [Option.any_some, decide_eq_true_eq]
    exact not_le.2 hcur
  unfold MarshBuf.getEntry
  rw [if_neg hinside]
  change (b.readEntry cur).map some = _
  rw [readEntry_eq h hr]
  rfl

theorem demarshalLoop_eq {rs : List Registration} (hrs : ∀ r ∈ rs, Readable r)
    (h : Bytes.Holds b.data cur (rs.flatMap entryBytes))
    (hend : cur + (rs.flatMap entryBytes).length = b.used) {n : ℕ} (hn : rs.length < n)
    (top : MountComponent) :
    demarshalLoop b n (some cur) top = rs.foldlM registerMountPoint top := by
  induction rs generalizing cur n top with
  | nil =>
    obtain ⟨n, rfl⟩ := Nat.exists_eq_succ_of_ne_zero (Nat.ne_zero_of_lt hn)
    have hout : (some cur).any (b.used ≤ ·) = true := by
      rw [Option.any_some, decide_eq_true_eq, ← hend]
      exact le_rfl
    have hget : b.getEntry (some cur) = .ok none := if_pos hout
    unfold demarshalLoop
    rw [hget]
    rfl
  | cons r rs ih =>
    obtain ⟨n, rfl⟩ := Nat.exists_eq_succ_of_ne_zero (Nat.ne_zero_of_lt hn)
    have hpos := entryBytes_pos r
    rw [flatMap_cons] at h hend
    rw [length_append] at hend
    obtain ⟨hr, hrest⟩ := Bytes.holds_append.1 h
    have hget := getEntry_eq hr (hrs r List.mem_cons_self) (by omega)
    unfold demarshalLoop
    rw [hget, List.foldlM_cons]
    change (registerMountPoint top r).bind _ = (registerMountPoint top r).bind _
    congr
    funext top'
    exact ih (fun s hs => hrs s (List.mem_cons_of_mem _ hs)) hrest (by omega)
      (Nat.lt_of_succ_lt_succ hn) top'

theorem length_le_flatMap (rs : List Registration) :
    rs.length ≤ (rs.flatMap entryBytes).length := by
  induction rs with
  | nil => exact le_rfl
  | cons r rs ih =>
    have hpos := entryBytes_pos r
    rw [flatMap_cons, length_append, List.length_cons]
    omega

theorem demarshalFromBuf_eq {rs : List Registration} (hrs : ∀ r ∈ rs, Readable r)
    (h : Written b (rs.flatMap entryBytes)) (hne : rs ≠ []) (top : MountComponent) :
    demarshalFromBuf top b = rs.foldlM registerMountPoint top := by
  have hlength := length_le_flatMap rs
  have hpos := List.length_pos_iff.2 hne
  have hused := h.used
  have hinside : ¬ (some 0).any (b.used ≤ ·) = true := by
    rw [Option.any_some, decide_eq_true_eq]
    omega
  -- null is in front of the end, as the beginning of the buffer is
  have hnull : b.getEntry none = b.getEntry (some 0) := (if_neg hinside).symm
  have hstart : demarshalFromBuf top b = demarshalLoop b (b.used + 2) (some 0) top := by
    unfold demarshalFromBuf demarshalLoop
    rw [hnull]
  rw [hstart]
  exact demarshalLoop_eq hrs h.holds (by omega) (by omega) top

theorem readEntry_path {next : ℕ} (h : b.readEntry cur = .ok (next, r)) :
    ∀ c ∈ r.mountPath, c.length < 256 := by
  unfold MarshBuf.readEntry at h
  cases hpth : pathFromBuf (b.word cur) (Bytes.read b.data (cur + 8) (b.word cur)) with
  | error e =>
    simp only [hpth, bind, Except.bind] at h
    cases h
  | ok pth =>
    simp only [hpth, bind, Except.bind] at h
    split at h
    case h_1 => cases h
    case h_2 =>
        split at h
        case isTrue => cases h
        case isFalse =>
            cases h
            exact length_of_pathFromBuf hpth

theorem demarshalFromBuf_empty (h : Written b []) (hok : demarshalFromBuf target b = .ok m) :
    ∃ r, (∀ c ∈ r.mountPath, c.length < 256) ∧ registerMountPoint target r = .ok m := by
  have hused : b.used = 0 := h.used
  unfold demarshalFromBuf demarshalLoop at hok
  rw [hused] at hok
  have hget : b.getEntry none = (b.readEntry 0).map some := rfl
  rw [hget] at hok
  cases hread : b.readEntry 0 with
  | error e =>
    rw [hread] at hok
    cases hok
  | ok entry =>
    obtain ⟨next, r⟩ := entry
    rw [hread] at hok
    change (registerMountPoint target r).bind (fun top => demarshalLoop b 1 (some next) top) =
      .ok m at hok
    have hend : ∀ top, demarshalLoop b 1 (some next) top = .ok top := by
      intro top
      have hout : (some next).any (b.used ≤ ·) = true := by
        rw [Option.any_some, decide_eq_true_eq, hused]
        exact Nat.zero_le _
      have hget' : b.getEntry (some next) = .ok none := if_pos hout
      unfold demarshalLoop
      rw [hget']
      rfl
    refine ⟨r, readEntry_path hread, ?_⟩
    cases hreg : registerMountPoint target r with
    | error e =>
      rw [hreg] at hok
      cases hok
    | ok top =>
      rw [hreg] at hok
      change demarshalLoop b 1 (some next) top = .ok m at hok
      rw [hend] at hok
      exact hok

/-! ## The table that is built -/

/-- What a mount point with the path `q` keeps. -/
structure Kept (q : List Component) (info : MountPointInfo) : Prop where
  size : size q < UVAL
  relPath : ∀ c ∈ info.relPath, c.length < 256
  relSize : Components.size info.relPath < UVAL
  desc : info.desc.length ≤ MAX_MP_DESC_LEN

/-- The invariant of the tree. -/
structure Good (t : MountComponent) : Prop where
  proper : PathTree.Proper Storable t
  kept : ∀ q info, (typeAt t q).mountPointInfo = some info → Kept q info

theorem lt_of_isPath (h : IsPath p) : ∀ c ∈ p, c.length < 256 := fun c hc => (h.1 c hc).2

theorem Good.apply {op : Op} (h : Good t) (hop : op.Valid) (hok : apply t op = .ok m) :
    Good m := by
  cases op with
  | registerMountPoint r =>
    obtain ⟨hmount, hrel, hdesc⟩ := hop
    obtain ⟨hproper, htype⟩ := registerMountPoint_spec (lt_of_isPath hmount) hok
    refine ⟨hproper h.proper, ?_⟩
    intro q info hinfo
    rw [htype] at hinfo
    split at hinfo
    case isTrue hq =>
        rw [(compType_eq r).2.2.2.2] at hinfo
        cases hinfo
        rw [hq]
        refine ⟨hmount.2, lt_of_isPath hrel, hrel.2, ?_⟩
        change (if r.desc.length ≠ 0 then r.desc ++ [0] else []).length ≤ _
        split
        case isTrue =>
            rw [length_append]
            exact hdesc
        case isFalse => exact Nat.zero_le _
    case isFalse => exact h.kept q info hinfo
  | registerSymLink symPath buf =>
    have hadd : addMountComponent (·.setVal (.symLink (buf ++ [0]))) symPath t = .ok m := hok
    obtain ⟨-, hproper, htype⟩ := addMountComponent_spec (lt_of_isPath hop) hadd
    refine ⟨hproper h.proper, ?_⟩
    intro q info hinfo
    rw [htype] at hinfo
    split at hinfo
    case isTrue => cases hinfo
    case isFalse => exact h.kept q info hinfo

theorem good_build {ops : List Op} (hops : ∀ op ∈ ops, op.Valid) (h : build ops = .ok t) :
    Good t := by
  induction ops using List.reverseRecOn generalizing t with
  | nil =>
    cases h
    refine ⟨PathTree.proper_leaf _ _, ?_⟩
    intro q info hinfo
    rw [typeAt_init] at hinfo
    cases hinfo
  | append_singleton ops op ih =>
    unfold build at h ih
    rw [List.foldlM_append] at h
    cases hbefore : ops.foldlM MountPointMgrCommon.apply init with
    | error e =>
      rw [hbefore] at h
      cases h
    | ok n =>
      have hn := ih (fun o ho => hops o (List.mem_append_left _ ho)) hbefore
      rw [hbefore] at h
      have hop := hops op (List.mem_append_right _ (List.mem_singleton_self op))
      refine hn.apply hop ?_
      change (MountPointMgrCommon.apply n op >>= pure) = .ok t at h
      cases happly : MountPointMgrCommon.apply n op with
      | error e =>
        rw [happly] at h
        cases h
      | ok m =>
        rw [happly] at h
        exact h

/-! ## There and back -/

theorem mountPath_of_entry {mc : CompType} (h : mc.entry q = some r) : r.mountPath = q := by
  obtain ⟨info, -, rfl⟩ := Option.map_eq_some_iff.1 h
  rfl

theorem mem_table (h : Good t) : r ∈ table t ↔ ∃ q, (typeAt t q).entry q = some r := by
  unfold table entered
  rw [List.mem_filterMap]
  constructor
  · rintro ⟨⟨q, mc⟩, hmem, hentry⟩
    obtain ⟨q', hq, hlookup⟩ := (PathTree.mem_entries [] h.proper).1 hmem
    have hq' : q = q' := hq
    refine ⟨q, ?_⟩
    unfold typeAt
    rw [hq', hlookup, ← hq']
    exact hentry
  · rintro ⟨q, hentry⟩
    refine ⟨(q, typeAt t q), ?_, hentry⟩
    apply (PathTree.mem_entries [] h.proper).2
    refine ⟨q, rfl, ?_⟩
    unfold typeAt at hentry ⊢
    cases hlookup : t.lookup q with
    | none =>
      rw [hlookup] at hentry
      cases hentry
    | some mc => rfl

theorem lastRegistration_table (h : Good t) (q : List Component) :
    lastRegistration (table t) q = (typeAt t q).entry q := by
  unfold lastRegistration
  cases hfind : (table t).reverse.find? fun r => decide (r.mountPath = q) with
  | some r =>
    have hfound := List.find?_some hfind
    have hpath : r.mountPath = q := of_decide_eq_true hfound
    obtain ⟨q', hentry⟩ := (mem_table h).1 (List.mem_reverse.1 (List.mem_of_find?_eq_some hfind))
    rw [mountPath_of_entry hentry] at hpath
    rw [← hpath]
    exact hentry.symm
  | none =>
    cases hentry : (typeAt t q).entry q with
    | none => rfl
    | some r =>
      have hmem : r ∈ (table t).reverse := List.mem_reverse.2 ((mem_table h).2 ⟨q, hentry⟩)
      have hnot := List.find?_eq_none.1 hfind r hmem
      rw [mountPath_of_entry hentry, decide_eq_true_eq] at hnot
      exact absurd rfl hnot

theorem readable_of_mem (h : Good t) (hr : r ∈ table t) :
    Readable r ∧ ∀ c ∈ r.mountPath, Storable c := by
  obtain ⟨q, hentry⟩ := (mem_table h).1 hr
  obtain ⟨info, hinfo, rfl⟩ := Option.map_eq_some_iff.1 hentry
  have hkept := h.kept q info hinfo
  have hstorable : ∀ c ∈ q, Storable c := by
    unfold typeAt at hinfo
    cases hlookup : t.lookup q with
    | none =>
      rw [hlookup] at hinfo
      cases hinfo
    | some mc => exact h.proper.of_lookup hlookup
  exact ⟨⟨fun c hc => lt_trans (hstorable c hc) (Nat.lt_succ_self _), hkept.size, hkept.relPath,
    hkept.relSize, hkept.desc⟩, hstorable⟩

/-- A mount point that is registered again gets a description that is longer by a null, if it has
one. -/
theorem compType_entry {mc : CompType} {info : MountPointInfo}
    (hinfo : mc.mountPointInfo = some info) :
    ∃ r, mc.entry q = some r ∧ (r.compType = mc ↔ info.desc = []) := by
  refine ⟨_, Option.map_eq_some_iff.2 ⟨info, hinfo, rfl⟩, ?_⟩
  have hcreate : MountPointInfo.create info.oh info.relPath info.desc info.isBind = info ↔
      info.desc = [] := by
    obtain ⟨oh, relPath, desc, isBind⟩ := info
    unfold MountPointInfo.create
    rw [MountPointInfo.mk.injEq]
    constructor
    · rintro ⟨-, -, hdesc, -⟩
      split at hdesc
      case isTrue =>
          have hlength := congrArg List.length hdesc
          rw [length_append, List.length_singleton] at hlength
          exact absurd hlength (Nat.succ_ne_self _)
      case isFalse hzero => exact List.length_eq_zero_iff.1 (not_not.1 hzero)
    · intro hdesc
      have hdesc' : desc = [] := hdesc
      subst hdesc'
      exact ⟨rfl, rfl, rfl, rfl⟩
  cases mc with
  | mount info' =>
    cases hinfo
    rw [← hcreate]
    exact ⟨fun h => CompType.mount.inj h, fun h => congrArg CompType.mount h⟩
  | covMount info' =>
    cases hinfo
    rw [← hcreate]
    exact ⟨fun h => CompType.covMount.inj h, fun h => congrArg CompType.covMount h⟩
  | symLink data => cases hinfo
  | empty => cases hinfo

theorem isMountPoint_iff (mc : CompType) :
    mc.isMountPoint = true ↔ ∃ info, mc.mountPointInfo = some info := by
  cases mc with
  | mount info => exact ⟨fun _ => ⟨info, rfl⟩, fun _ => rfl⟩
  | covMount info => exact ⟨fun _ => ⟨info, rfl⟩, fun _ => rfl⟩
  | symLink data => exact ⟨nofun, nofun⟩
  | empty => exact ⟨nofun, nofun⟩

theorem Good.roundTrips_iff (h : Good t) (marshBuf : MarshBuf) (target : MountComponent) :
    RoundTrips marshBuf t target ↔ Harmless t target := by
  obtain ⟨b, hb, hwritten⟩ := marshalToBuf_eq t marshBuf
  by_cases hempty : table t = []
  · -- nothing is written, and what the buffer happens to hold is registered
    have hnone : ∀ q, (typeAt t q).isMountPoint = false := by
      intro q
      by_contra hmount
      rw [Bool.not_eq_false, isMountPoint_iff] at hmount
      obtain ⟨info, hinfo⟩ := hmount
      obtain ⟨r, hr, -⟩ := compType_entry (q := q) hinfo
      have hmem := (mem_table h).2 ⟨q, hr⟩
      rw [hempty] at hmem
      cases hmem
    constructor
    · rintro ⟨b', t', hb', ht', htype⟩
      rw [hb] at hb'
      cases hb'
      rw [hempty] at hwritten
      obtain ⟨r, hpath, hreg⟩ := demarshalFromBuf_empty hwritten ht'
      have hself := (registerMountPoint_spec hpath hreg).2 r.mountPath
      rw [if_pos rfl, htype, hnone] at hself
      have hmount := (compType_eq r).2.2.2.1
      rw [← hself] at hmount
      cases hmount
    · intro hharmless
      obtain ⟨q, hq⟩ := hharmless.mounted
      rw [hnone] at hq
      cases hq
  · have hdemarshal := demarshalFromBuf_eq (fun r hr => (readable_of_mem h hr).1) hwritten hempty
      target
    obtain ⟨t', ht', htypes⟩ := registerAll_spec (fun r hr => (readable_of_mem h hr).2) target
    rw [ht'] at hdemarshal
    have htrip : RoundTrips marshBuf t target ↔
        ∀ q, typeAt t' q = if (typeAt t q).isMountPoint then typeAt t q else .empty := by
      constructor
      · rintro ⟨b', t'', hb', ht'', htype⟩
        rw [hb] at hb'
        cases hb'
        rw [hdemarshal] at ht''
        cases ht''
        exact htype
      · exact fun htype => ⟨b, t', hb, hdemarshal, htype⟩
    rw [htrip]
    have htype : ∀ q, typeAt t' q =
        (((typeAt t q).entry q).map Registration.compType).getD (typeAt target q) := by
      intro q
      rw [htypes, lastRegistration_table h]
    constructor
    · intro hback
      refine ⟨?_, ?_, ?_⟩
      · obtain ⟨r, hr⟩ := List.exists_mem_of_ne_nil _ hempty
        obtain ⟨q, hentry⟩ := (mem_table h).1 hr
        obtain ⟨info, hinfo, -⟩ := Option.map_eq_some_iff.1 hentry
        exact ⟨q, (isMountPoint_iff _).2 ⟨info, hinfo⟩⟩
      · intro q info hinfo
        obtain ⟨r, hr, hsame⟩ := compType_entry (q := q) hinfo
        have hq := hback q
        rw [htype, hr, if_pos ((isMountPoint_iff _).2 ⟨info, hinfo⟩)] at hq
        exact hsame.1 hq
      · intro q hq
        by_contra hmount
        have hentry : (typeAt t q).entry q = none := by
          unfold CompType.entry
          cases hinfo : (typeAt t q).mountPointInfo with
          | none => rfl
          | some info => exact absurd ((isMountPoint_iff _).2 ⟨info, hinfo⟩) hmount
        have hback' := hback q
        rw [htype, hentry, if_neg hmount] at hback'
        exact hq hback'
    · rintro ⟨-, hsilent, hcovered⟩ q
      rw [htype]
      cases hinfo : (typeAt t q).mountPointInfo with
      | none =>
        have hmount : ¬ (typeAt t q).isMountPoint = true := by
          rw [isMountPoint_iff, hinfo]
          exact nofun
        have hentry : (typeAt t q).entry q = none := by
          unfold CompType.entry
          rw [hinfo]
          rfl
        rw [hentry, if_neg hmount]
        by_contra hq
        exact hmount (hcovered q hq)
      | some info =>
        obtain ⟨r, hr, hsame⟩ := compType_entry (q := q) hinfo
        rw [hr, if_pos ((isMountPoint_iff _).2 ⟨info, hinfo⟩)]
        exact hsame.2 (hsilent q info hinfo)

end Proofs

/-- A table comes back, in a manager after `init` and in any one after `reInit`, if and only if it
has mount points, all without a description, and the manager is empty where there are none. -/
theorem roundTrips_iff_harmless {t : MountComponent} (ht : Built t) (marshBuf : MarshBuf)
    (t₀ : MountComponent) : (RoundTrips marshBuf t init ↔ Harmless t init) ∧
      ∃ target, reInit t₀ = some target ∧
        (RoundTrips marshBuf t target ↔ Harmless t target) := by
  obtain ⟨ops, hops, hbuild⟩ := ht
  have hgood := good_build hops hbuild
  exact ⟨hgood.roundTrips_iff marshBuf init, _, reInit_eq t₀, hgood.roundTrips_iff marshBuf _⟩

/-- A mount point without a description, and a link. -/
def mountAndLink : List Op :=
  [.registerMountPoint ⟨[[97]], ⟨1, 1⟩, [[114]], [], 1, 1⟩, .registerSymLink [[98]] [97]]

theorem roundTrips_iff_harmless_mountAndLink :
    ∃ t, build mountAndLink = .ok t ∧ ∀ marshBuf, RoundTrips marshBuf t init := by
  have hops : ∀ op ∈ mountAndLink, op.Valid := by decide +kernel
  obtain ⟨t, ht⟩ : ∃ t, build mountAndLink = .ok t := ⟨_, rfl⟩
  refine ⟨t, ht, ?_⟩
  intro marshBuf
  have hgood := good_build hops ht
  have htable : table t = [⟨[[97]], ⟨1, 1⟩, [[114]], [], 1, 1⟩] := by
    cases ht
    rfl
  refine (roundTrips_iff_harmless ⟨mountAndLink, hops, ht⟩ marshBuf init).1.2 ⟨?_, ?_, ?_⟩
  · refine ⟨[[97]], ?_⟩
    cases ht
    rfl
  · intro q info hinfo
    have hmem := (mem_table hgood).2 ⟨q, Option.map_eq_some_iff.2 ⟨info, hinfo, rfl⟩⟩
    rw [htable, List.mem_singleton, Registration.mk.injEq] at hmem
    exact hmem.2.2.2.1
  · intro q hq
    exact absurd (typeAt_init q) hq

/-- A mount point at `a` with the description `t`. -/
def described : Op := .registerMountPoint ⟨[[97]], ⟨1, 1⟩, [], [116], 0, 0⟩

/-- The empty table does not come back; nor does a description, which gets one more null; and a
mount point that was there before `reInit` is still there. -/
theorem table_not_back : (∀ marshBuf, ¬ RoundTrips marshBuf init init) ∧
    (∀ marshBuf, ∃ t, build [described] = .ok t ∧ ¬ RoundTrips marshBuf t init) ∧
    ∀ marshBuf, ∃ t t₀ target, build [.registerMountPoint ⟨[], ⟨1, 1⟩, [], [], 0, 0⟩] = .ok t ∧
      build [described] = .ok t₀ ∧ reInit t₀ = some target ∧ ¬ RoundTrips marshBuf t target := by
  refine ⟨?_, ?_, ?_⟩
  · intro marshBuf htrip
    have hops : ∀ op ∈ ([] : List Op), op.Valid := nofun
    have hgood : Good init := good_build hops rfl
    obtain ⟨q, hq⟩ := ((hgood.roundTrips_iff marshBuf init).1 htrip).mounted
    rw [typeAt_init] at hq
    cases hq
  · intro marshBuf
    have hops : ∀ op ∈ [described], op.Valid := by decide +kernel
    obtain ⟨t, ht⟩ : ∃ t, build [described] = .ok t := ⟨_, rfl⟩
    refine ⟨t, ht, ?_⟩
    intro htrip
    have hsilent := (((good_build hops ht).roundTrips_iff marshBuf init).1 htrip).silent
    cases ht
    have hnull := hsilent [[97]] (.create ⟨1, 1⟩ [] [116] 0) rfl
    exact absurd hnull (by decide)
  · intro marshBuf
    have hops : ∀ op ∈ [Op.registerMountPoint ⟨[], ⟨1, 1⟩, [], [], 0, 0⟩], op.Valid := by
      decide +kernel
    obtain ⟨t, ht⟩ : ∃ t, build [.registerMountPoint ⟨[], ⟨1, 1⟩, [], [], 0, 0⟩] = .ok t :=
      ⟨_, rfl⟩
    obtain ⟨t₀, ht₀⟩ : ∃ t₀, build [described] = .ok t₀ := ⟨_, rfl⟩
    refine ⟨t, t₀, _, ht, ht₀, reInit_eq t₀, ?_⟩
    intro htrip
    have hcovered := (((good_build hops ht).roundTrips_iff marshBuf _).1 htrip).covered [[97]]
    cases ht
    cases ht₀
    have hstill := hcovered nofun
    cases hstill

end MountPointMgrCommon

end K42
