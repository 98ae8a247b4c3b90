import K42.Lib.Run
import K42.Sys.SysStatus
import Mathlib.Tactic.Linarith
import Mathlib.Tactic.Ring
import Mathlib.Data.List.Perm.Subperm

/-!
# Link counts

Objects are files and directories, named by the ids of their records; every
object has a link count. The entries of all directories are kept in one list of
triples: directory, name, object. `rmdir` leaves the entries `.` and `..` of the
directory it removes in that directory's data; `removed` remembers such
directories until `deleteFile` frees them. An entry is live unless its directory
has been removed.

Records are freed by `deleteFile` alone. Counts are integers: the field has 64
bits, and there are never that many entries.
-/

open Function (update update_of_ne update_self)
open List (mem_cons mem_cons_of_mem nodup_cons map_cons forall_mem_cons mem_map perm_middle)

namespace K42

inductive Kind
  | file
  | dir
deriving DecidableEq

/-- One entry of one directory. -/
structure Entry where
  dir : ℕ
  name : String
  id : ℕ
deriving DecidableEq

/-- A name that callers pass: `.` and `..` are resolved above this layer. -/
def Plain (name : String) : Prop := name ≠ "." ∧ name ≠ ".."

instance (name : String) : Decidable (Plain name) := inferInstanceAs (Decidable (_ ∧ _))

structure FileSystem where
  kind : ℕ → Option Kind
  nlink : ℕ → ℤ
  entries : List Entry
  removed : List ℕ

namespace FileSystem

variable {fs : FileSystem} {d id : ℕ} {name : String}

/-- `LSOBasic::link`. -/
def linkObj (fs : FileSystem) (id : ℕ) : FileSystem :=
  { fs with nlink := update fs.nlink id (fs.nlink id + 1) }

/-- `LSOBasic::unlink`. -/
def unlinkObj (fs : FileSystem) (id : ℕ) : FileSystem :=
  { fs with nlink := update fs.nlink id (fs.nlink id - 1) }

/-! ## One directory -/

/-- `e` is the entry `name` of directory `d`. -/
def At (d : ℕ) (name : String) (e : Entry) : Bool := decide (e.dir = d ∧ e.name = name)

/-- `matchDir`. -/
def matchDir (fs : FileSystem) (d : ℕ) (name : String) : Option ℕ :=
  (fs.entries.find? (At d name)).map Entry.id

/-- `locked_createEntry`. -/
def lockedCreateEntry (fs : FileSystem) (d : ℕ) (name : String) (id : ℕ) : FileSystem :=
  { fs with entries := fs.entries ++ [⟨d, name, id⟩] }

/-- `createEntry`. -/
def createEntry (fs : FileSystem) (d : ℕ) (name : String) (id : ℕ) : FileSystem :=
  (fs.lockedCreateEntry d name id).linkObj id

/-- `deleteEntry` of a name that is there, with the object `otok` it refers to. -/
def deleteEntry (fs : FileSystem) (d : ℕ) (name : String) (otok : ℕ) : FileSystem :=
  unlinkObj { fs with entries := fs.entries.eraseP (At d name) } otok

/-- `updateEntry`: the old object `old` of the name is unlinked first. -/
def updateEntry (fs : FileSystem) (d : ℕ) (name : String) (old otok : ℕ) : FileSystem :=
  let unlinked := fs.unlinkObj old
  linkObj { unlinked with
    entries := unlinked.entries.map fun e => if At d name e then { e with id := otok } else e } otok

/-- `createDir`. -/
def createDir (fs : FileSystem) (d : ℕ) (name : String) (dtok : ℕ) : FileSystem :=
  (((fs.lockedCreateEntry d name dtok).createEntry dtok "." dtok).createEntry dtok ".." d).linkObj
    dtok

/-- The entries of directory `d`. -/
def entriesOf (fs : FileSystem) (d : ℕ) : List Entry := fs.entries.filter fun e => e.dir = d

/-- `deleteDir`: `.` and `..` are skipped, and a third entry makes it fail. -/
def deleteDir (fs : FileSystem) (d : ℕ) (name : String) : Except Failure FileSystem :=
  match fs.matchDir d name with
  | none => .error (.serror 0 0 .ENOENT)
  | some dir =>
    if (fs.entriesOf dir).length > 2 then .error (.serror 2347 0 .ENOTEMPTY)
    else
      let deleted := ((fs.deleteEntry d name dir).unlinkObj d).unlinkObj dir
      .ok { deleted with removed := dir :: deleted.removed }

/-! ## The file system calls -/

/-- A record for a new object, with no links (`createRecord`, `initAttribute`). -/
def createRecord (fs : FileSystem) (id : ℕ) (kind : Kind) : FileSystem :=
  { fs with
    kind := update fs.kind id (some kind)
    nlink := update fs.nlink id 0 }

/-- `createFile`, with the record `id` that it gets. -/
def createFile (fs : FileSystem) (d : ℕ) (name : String) (id : ℕ) : Except Failure FileSystem :=
  .ok ((fs.createRecord id .file).createEntry d name id)

/-- `link`. -/
def link (fs : FileSystem) (file newDir : ℕ) (newname : String) : Except Failure FileSystem :=
  match fs.matchDir newDir newname with
  | none => .ok (fs.createEntry newDir newname file)
  | some _ => .error (.serror 2342 0 .EEXIST)

/-- `unlink`; `file` is the object of the name. -/
def unlink (fs : FileSystem) (d : ℕ) (name : String) (file : ℕ) : Except Failure FileSystem :=
  match fs.matchDir d name with
  | none => .error (.serror 2343 0 .ENOENT)
  | some _ => .ok (fs.deleteEntry d name file)

/-- `rename`; `file` is the object renamed. -/
def rename (fs : FileSystem) (d : ℕ) (oldName : String) (newDir : ℕ) (newName : String)
    (file : ℕ) : Except Failure FileSystem :=
  match fs.matchDir d oldName with
  | none => .error (.serror 2345 0 .ENOENT)
  | some _ =>
    let isDir := fs.kind file = some .dir
    let linked :=
      match fs.matchDir newDir newName with
      | none =>
        let created := fs.createEntry newDir newName file
        if isDir then created.linkObj newDir else created
      | some old => fs.updateEntry newDir newName old file
    let moved := if isDir then linked.unlinkObj d else linked
    moved.unlink d oldName file

/-- `mkdir`, with the record `id` that it gets. -/
def mkdir (fs : FileSystem) (d : ℕ) (name : String) (id : ℕ) : Except Failure FileSystem :=
  match fs.matchDir d name with
  | some _ => .error (.serror 2346 0 .EEXIST)
  | none => .ok ((fs.createRecord id .dir).createDir d name id)

/-- `rmdir`. -/
def rmdir (fs : FileSystem) (d : ℕ) (name : String) : Except Failure FileSystem :=
  fs.deleteDir d name

/-- `deleteFile`: the record and the data of an object without links are freed. -/
def deleteFile (fs : FileSystem) (id : ℕ) : Except Failure FileSystem :=
  if fs.nlink id ≠ 0 then .error (.serror 2344 0 .EMLINK)
  else
    .ok { fs with
          kind := update fs.kind id none
          entries := fs.entries.filter fun e => e.dir ≠ id
          removed := fs.removed.filter fun r => r ≠ id }

/-- Nothing, before there is a root. -/
def nothing : FileSystem := ⟨fun _ => none, fun _ => 0, [], []⟩

/-- The root directory, as `createRootDirectory` makes it in record `root`. -/
def createRootDirectory (root : ℕ) : FileSystem :=
  ((nothing.createRecord root .dir).createEntry root "." root).createEntry root ".." root

/-! ## Counting live entries -/

/-- The number of live entries that refer to `id`. -/
def liveEntries (fs : FileSystem) (id : ℕ) : ℕ :=
  fs.entries.countP fun e => decide (e.dir ∉ fs.removed ∧ e.id = id)

/-- The counts are right up to `δ`. -/
def Off (fs : FileSystem) (δ : ℕ → ℤ) : Prop :=
  ∀ x, fs.kind x ≠ none → fs.nlink x = fs.liveEntries x + δ x

/-- One at `id`. -/
def one (id : ℕ) : ℕ → ℤ := fun x => if x = id then 1 else 0

variable {δ : ℕ → ℤ}

theorem Off.linkObj (h : fs.Off δ) (id : ℕ) : (fs.linkObj id).Off (δ + one id) := by
  intro x hx
  show update fs.nlink id (fs.nlink id + 1) x = fs.liveEntries x + (δ x + one id x)
  unfold one
  by_cases heq : x = id
  · subst heq
    rw [update_self, h x hx, if_pos rfl]
    ring
  · rw [update_of_ne heq, h x hx, if_neg heq]
    ring

theorem Off.unlinkObj (h : fs.Off δ) (id : ℕ) : (fs.unlinkObj id).Off (δ - one id) := by
  intro x hx
  show update fs.nlink id (fs.nlink id - 1) x = fs.liveEntries x + (δ x - one id x)
  unfold one
  by_cases heq : x = id
  · subst heq
    rw [update_self, h x hx, if_pos rfl]
    ring
  · rw [update_of_ne heq, h x hx, if_neg heq]
    ring

theorem Off.recount (h : fs.Off δ) {entries : List Entry} {removed : List ℕ} {δ' : ℕ → ℤ}
    (hcount : ∀ x, (liveEntries { fs with entries, removed } x : ℤ) + δ' x =
      fs.liveEntries x + δ x) :
    Off { fs with entries, removed } δ' := by
  intro x hx
  show fs.nlink x = _
  rw [hcount x, h x hx]

theorem liveEntries_cons_perm (fs : FileSystem) {e : Entry} {rest : List Entry}
    (hperm : fs.entries.Perm (e :: rest)) (hlive : e.dir ∉ fs.removed) (x : ℕ) :
    (fs.liveEntries x : ℤ) = liveEntries { fs with entries := rest } x + one e.id x := by
  unfold liveEntries one
  rw [hperm.countP_eq, List.countP_cons]
  by_cases heq : x = e.id
  · rw [if_pos heq, if_pos (decide_eq_true ⟨hlive, heq.symm⟩)]
    push_cast
    rfl
  · rw [if_neg heq, if_neg (by simp [Ne.symm heq])]
    push_cast
    rfl

theorem Off.lockedCreateEntry (h : fs.Off δ) (hlive : d ∉ fs.removed) (name : String) (id : ℕ) :
    (fs.lockedCreateEntry d name id).Off (δ - one id) := by
  apply h.recount
  intro x
  have hperm : (fs.lockedCreateEntry d name id).entries.Perm (⟨d, name, id⟩ :: fs.entries) :=
    List.perm_append_singleton _ _
  have hcount := liveEntries_cons_perm (fs.lockedCreateEntry d name id) hperm hlive x
  show ((fs.lockedCreateEntry d name id).liveEntries x : ℤ) + (δ x - one id x) = _
  rw [hcount]
  show (fs.liveEntries x : ℤ) + one id x + (δ x - one id x) = _
  ring

theorem Off.createEntry (h : fs.Off δ) (hlive : d ∉ fs.removed) (name : String) (id : ℕ) :
    (fs.createEntry d name id).Off δ := by
  have hboth := (h.lockedCreateEntry hlive name id).linkObj id
  rwa [sub_add_cancel] at hboth

/-! ## Finding an entry -/

/-- The directory and the name of an entry. -/
def key (e : Entry) : ℕ × String := (e.dir, e.name)

theorem at_iff {e : Entry} : At d name e = true ↔ key e = (d, name) := by
  simp [At, key]

theorem map_of_absent {l : List Entry} (h : (d, name) ∉ l.map key) (f : Entry → Entry) :
    (l.map fun e => if At d name e then f e else e) = l := by
  conv_rhs => rw [← List.map_id l]
  apply List.map_congr_left
  intro e he
  rw [if_neg]
  · rfl
  · intro hat
    exact h (mem_map.mpr ⟨e, he, at_iff.mp hat⟩)

/-- An entry that is found splits the list; it is what `eraseP` takes out, and, as
no other has its name, what a renaming of its object changes. -/
theorem split_of_find {l : List Entry} {e : Entry} (hfind : l.find? (At d name) = some e)
    (hkeys : (l.map key).Nodup) :
    key e = (d, name) ∧ l.Perm (e :: l.eraseP (At d name)) ∧
      ∀ id, (l.map fun e => if At d name e then { e with id } else e).Perm
        ({ e with id } :: l.eraseP (At d name)) := by
  obtain ⟨hat, l₁, l₂, rfl, hbefore⟩ := List.find?_eq_some_iff_append.mp hfind
  have hrest : (l₁ ++ e :: l₂).eraseP (At d name) = l₁ ++ l₂ := by
    rw [List.eraseP_append_right, List.eraseP_cons_of_pos hat]
    intro b hb
    simpa using hbefore b hb
  rw [hrest]
  have hnodup := hkeys.perm ((perm_middle).map key)
  rw [map_cons, at_iff.mp hat, nodup_cons, List.map_append] at hnodup
  refine ⟨at_iff.mp hat, perm_middle, ?_⟩
  intro id
  rw [List.map_append, map_cons, if_pos hat,
    map_of_absent fun h => hnodup.1 (List.mem_append_left _ h),
    map_of_absent fun h => hnodup.1 (List.mem_append_right _ h)]
  exact perm_middle

theorem find_of_matchDir (h : fs.matchDir d name = some id) :
    fs.entries.find? (At d name) = some ⟨d, name, id⟩ := by
  obtain ⟨e, hfind, rfl⟩ := Option.map_eq_some_iff.mp h
  obtain ⟨rfl, rfl⟩ : e.dir = d ∧ e.name = name := by
    simpa [At] using List.find?_some hfind
  exact hfind

theorem absent_of_matchDir (h : fs.matchDir d name = none) : (d, name) ∉ fs.entries.map key := by
  intro hmem
  obtain ⟨e, he, hkey⟩ := mem_map.mp hmem
  exact List.find?_eq_none.mp (Option.map_eq_none_iff.mp h) e he (at_iff.mpr hkey)

theorem Off.deleteEntry (h : fs.Off δ) (hkeys : (fs.entries.map key).Nodup) (hlive : d ∉ fs.removed)
    (hmatch : fs.matchDir d name = some id) : (fs.deleteEntry d name id).Off δ := by
  obtain ⟨-, hperm, -⟩ := split_of_find (find_of_matchDir hmatch) hkeys
  have herased : Off { fs with entries := fs.entries.eraseP (At d name) } (δ + one id) := by
    apply h.recount
    intro x
    rw [liveEntries_cons_perm fs hperm hlive x]
    show _ + (δ x + one id x) = _
    ring
  have hboth := herased.unlinkObj id
  rwa [add_sub_cancel_right] at hboth

theorem Off.updateEntry {old : ℕ} (h : fs.Off δ) (hkeys : (fs.entries.map key).Nodup)
    (hlive : d ∉ fs.removed) (hmatch : fs.matchDir d name = some old) (id : ℕ) :
    (fs.updateEntry d name old id).Off δ := by
  obtain ⟨-, hperm, hupdate⟩ := split_of_find (find_of_matchDir hmatch) hkeys
  have hchanged : Off { fs.unlinkObj old with
      entries := fs.entries.map fun e => if At d name e then { e with id } else e }
      (δ - one id) := by
    apply (h.unlinkObj old).recount
    intro x
    have hold := liveEntries_cons_perm fs hperm hlive x
    have hnew := liveEntries_cons_perm { fs with
      entries := fs.entries.map fun e => if At d name e then { e with id } else e }
      (hupdate id) hlive x
    show _ + (δ x - one id x) = (fs.liveEntries x : ℤ) + (δ x - one old x)
    rw [hold]
    refine (congrArg (· + (δ x - one id x)) hnew).trans ?_
    show _ + one id x + (δ x - one id x) = _ + one old x + (δ x - one old x)
    ring
  have hboth := hchanged.linkObj id
  rwa [sub_add_cancel] at hboth

/-! ## The tree of directories -/

/-- What the directories look like between calls. The parent of a directory that
has a name is the directory the name is in. -/
structure Shape (kind : ℕ → Option Kind) (entries : List Entry) (removed : List ℕ) : Prop where
  keys : (entries.map key).Nodup
  dirs : ∀ e ∈ entries, kind e.dir = some .dir
  targets : ∀ e ∈ entries, e.dir ∉ removed → kind e.id ≠ none
  removed_dirs : ∀ r ∈ removed, kind r = some .dir
  dots : ∀ d, kind d = some .dir → d ∉ removed →
    ⟨d, ".", d⟩ ∈ entries ∧ ∃ p, ⟨d, "..", p⟩ ∈ entries
  plain_live : ∀ e ∈ entries, Plain e.name → e.dir ∉ removed
  subdirs : ∀ e ∈ entries, Plain e.name → kind e.id = some .dir →
    e.id ∉ removed ∧ ⟨e.id, "..", e.dir⟩ ∈ entries
  one_parent : ∀ e ∈ entries, ∀ e' ∈ entries, Plain e.name → Plain e'.name →
    kind e.id = some .dir → e.id = e'.id → e = e'

section Shape

variable {kind : ℕ → Option Kind} {l l' : List Entry} {removed : List ℕ} {e : Entry} {c : ℕ}

theorem Shape.perm (h : Shape kind l removed) (hperm : l.Perm l') : Shape kind l' removed where
  keys := h.keys.perm (hperm.map key)
  dirs e he := h.dirs e (hperm.mem_iff.mpr he)
  targets e he := h.targets e (hperm.mem_iff.mpr he)
  removed_dirs := h.removed_dirs
  dots d hkind hlive := by
    obtain ⟨hdot, p, hdotdot⟩ := h.dots d hkind hlive
    exact ⟨hperm.mem_iff.mp hdot, p, hperm.mem_iff.mp hdotdot⟩
  plain_live e he := h.plain_live e (hperm.mem_iff.mpr he)
  subdirs e he hplain hkind := by
    obtain ⟨hlive, hdotdot⟩ := h.subdirs e (hperm.mem_iff.mpr he) hplain hkind
    exact ⟨hlive, hperm.mem_iff.mp hdotdot⟩
  one_parent e he e' he' := h.one_parent e (hperm.mem_iff.mpr he) e' (hperm.mem_iff.mpr he')

/-- A new name, for an object that is not a directory or for a directory in its
own parent. -/
theorem Shape.cons (h : Shape kind l removed) (hd : kind d = some .dir) (hlive : d ∉ removed)
    (habsent : (d, name) ∉ l.map key) (hid : kind id ≠ none) (hdir : kind id = some .dir →
      id ∉ removed ∧ ⟨id, "..", d⟩ ∈ l ∧ ∀ e ∈ l, Plain e.name → e.id ≠ id) :
    Shape kind (⟨d, name, id⟩ :: l) removed where
  keys := by
    rw [map_cons, nodup_cons]
    exact ⟨habsent, h.keys⟩
  dirs := by
    simp only [forall_mem_cons]
    exact ⟨hd, h.dirs⟩
  targets := by
    simp only [forall_mem_cons]
    exact ⟨fun _ => hid, h.targets⟩
  removed_dirs := h.removed_dirs
  dots d hkind hlive := by
    obtain ⟨hdot, p, hdotdot⟩ := h.dots d hkind hlive
    exact ⟨mem_cons_of_mem _ hdot, p, mem_cons_of_mem _ hdotdot⟩
  plain_live := by
    simp only [forall_mem_cons]
    exact ⟨fun _ => hlive, h.plain_live⟩
  subdirs := by
    simp only [forall_mem_cons]
    refine ⟨fun _ hkind => ?_, fun e he hplain hkind => ?_⟩
    · exact ⟨(hdir hkind).1, mem_cons_of_mem _ (hdir hkind).2.1⟩
    · exact ⟨(h.subdirs e he hplain hkind).1, mem_cons_of_mem _ (h.subdirs e he hplain hkind).2⟩
  one_parent := by
    simp only [forall_mem_cons]
    refine ⟨⟨by simp, ?_⟩, fun e he => ⟨?_, h.one_parent e he⟩⟩
    · intro e he _ hplain' hkind heq
      exact absurd heq.symm ((hdir hkind).2.2 e he hplain')
    · intro hplain' _ hkind heq
      rw [heq] at hkind
      exact absurd heq ((hdir hkind).2.2 e he hplain')

theorem Shape.tail (h : Shape kind (e :: l) removed) (hplain : Plain e.name) :
    Shape kind l removed where
  keys := (nodup_cons.mp h.keys).2
  dirs e he := h.dirs e (mem_cons_of_mem _ he)
  targets e he := h.targets e (mem_cons_of_mem _ he)
  removed_dirs := h.removed_dirs
  dots d hkind hlive := by
    obtain ⟨hdot, p, hdotdot⟩ := h.dots d hkind hlive
    rw [mem_cons] at hdot hdotdot
    refine ⟨hdot.resolve_left ?_, p, hdotdot.resolve_left ?_⟩
    · rintro rfl
      exact hplain.1 rfl
    · rintro rfl
      exact hplain.2 rfl
  plain_live e he := h.plain_live e (mem_cons_of_mem _ he)
  subdirs e' he' hplain' hkind := by
    obtain ⟨hlive, hdotdot⟩ := h.subdirs e' (mem_cons_of_mem _ he') hplain' hkind
    refine ⟨hlive, (mem_cons.mp hdotdot).resolve_left ?_⟩
    rintro rfl
    exact hplain.2 rfl
  one_parent e he e' he' :=
    h.one_parent e (mem_cons_of_mem _ he) e' (mem_cons_of_mem _ he')

section

variable (h : Shape kind l removed)

include h

theorem Shape.ne_of_fresh (hfresh : kind id = none) (he : e ∈ l)
    (hlive : e.dir ∉ removed) : e.id ≠ id := by
  rintro rfl
  exact h.targets e he hlive hfresh

theorem Shape.dir_ne_of_fresh (hfresh : kind id = none) (he : e ∈ l) :
    e.dir ≠ id := by
  rintro rfl
  simp [h.dirs e he] at hfresh

theorem Shape.fresh_file (hfresh : kind id = none) :
    Shape (update kind id (some .file)) l removed where
  keys := h.keys
  dirs e he := by
    rw [update_of_ne (h.dir_ne_of_fresh hfresh he)]
    exact h.dirs e he
  targets e he hlive := by
    rw [update_of_ne (h.ne_of_fresh hfresh he hlive)]
    exact h.targets e he hlive
  removed_dirs r hr := by
    rw [update_of_ne]
    · exact h.removed_dirs r hr
    · rintro rfl
      simp [h.removed_dirs r hr] at hfresh
  dots d hkind hlive := by
    by_cases heq : d = id
    · subst heq
      simp at hkind
    · rw [update_of_ne heq] at hkind
      exact h.dots d hkind hlive
  plain_live := h.plain_live
  subdirs e he hplain hkind := by
    rw [update_of_ne (h.ne_of_fresh hfresh he (h.plain_live e he hplain))] at hkind
    exact h.subdirs e he hplain hkind
  one_parent e he e' he' hplain hplain' hkind := by
    rw [update_of_ne (h.ne_of_fresh hfresh he (h.plain_live e he hplain))] at hkind
    exact h.one_parent e he e' he' hplain hplain' hkind

theorem Shape.fresh_dir (hfresh : kind id = none) (hd : update kind id (some .dir) d ≠ none) :
    Shape (update kind id (some .dir)) (⟨id, "..", d⟩ :: ⟨id, ".", id⟩ :: l) removed where
  keys := by
    have habsent : ∀ name, (id, name) ∉ l.map key := by
      intro name hmem
      obtain ⟨e, he, hkey⟩ := mem_map.mp hmem
      exact h.dir_ne_of_fresh hfresh he (congrArg Prod.fst hkey)
    simp only [map_cons, nodup_cons, mem_cons, not_or]
    exact ⟨⟨by simp [key], habsent ".."⟩, habsent ".", h.keys⟩
  dirs := by
    simp only [forall_mem_cons, update_self, true_and]
    intro e he
    rw [update_of_ne (h.dir_ne_of_fresh hfresh he)]
    exact h.dirs e he
  targets := by
    simp only [forall_mem_cons, update_self]
    refine ⟨fun _ => hd, by simp, fun e he hlive => ?_⟩
    rw [update_of_ne (h.ne_of_fresh hfresh he hlive)]
    exact h.targets e he hlive
  removed_dirs r hr := by
    rw [update_of_ne]
    · exact h.removed_dirs r hr
    · rintro rfl
      simp [h.removed_dirs r hr] at hfresh
  dots x hkind hlive := by
    by_cases heq : x = id
    · subst heq
      exact ⟨by simp, d, by simp⟩
    · rw [update_of_ne heq] at hkind
      obtain ⟨hdot, p, hdotdot⟩ := h.dots x hkind hlive
      exact ⟨by simp [hdot], p, by simp [hdotdot]⟩
  plain_live := by
    simp only [forall_mem_cons]
    exact ⟨fun hplain => absurd rfl hplain.2, fun hplain => absurd rfl hplain.1, h.plain_live⟩
  subdirs := by
    simp only [forall_mem_cons]
    refine ⟨fun hplain => absurd rfl hplain.2, fun hplain => absurd rfl hplain.1, ?_⟩
    intro e he hplain hkind
    rw [update_of_ne (h.ne_of_fresh hfresh he (h.plain_live e he hplain))] at hkind
    obtain ⟨hlive, hdotdot⟩ := h.subdirs e he hplain hkind
    exact ⟨hlive, by simp [hdotdot]⟩
  one_parent := by
    simp only [forall_mem_cons]
    refine ⟨⟨?_, ?_, ?_⟩, ⟨?_, ?_, ?_⟩, fun e he => ⟨?_, ?_, fun e' he' hplain hplain' hkind => ?_⟩⟩
    rotate_right 1
    · rw [update_of_ne (h.ne_of_fresh hfresh he (h.plain_live e he hplain))] at hkind
      exact h.one_parent e he e' he' hplain hplain' hkind
    all_goals simp [Plain]

end

theorem Shape.remove (h : Shape kind (⟨d, name, c⟩ :: l) removed) (hplain : Plain name)
    (hc : kind c = some .dir) (hempty : ∀ e ∈ l, Plain e.name → e.dir ≠ c) :
    Shape kind l (c :: removed) where
  keys := (h.tail hplain).keys
  dirs := (h.tail hplain).dirs
  targets e he hlive := (h.tail hplain).targets e he fun hr => hlive (mem_cons_of_mem _ hr)
  removed_dirs := by
    simp only [forall_mem_cons]
    exact ⟨hc, h.removed_dirs⟩
  dots x hkind hlive :=
    (h.tail hplain).dots x hkind fun hr => hlive (mem_cons_of_mem _ hr)
  plain_live e he hplain' := by
    rw [mem_cons, not_or]
    exact ⟨hempty e he hplain', (h.tail hplain).plain_live e he hplain'⟩
  subdirs e he hplain' hkind := by
    obtain ⟨hlive, hdotdot⟩ := (h.tail hplain).subdirs e he hplain' hkind
    rw [mem_cons, not_or]
    refine ⟨⟨?_, hlive⟩, hdotdot⟩
    -- the directory removed had one name, the one that went with it
    intro heq
    have hsame := h.one_parent e (mem_cons_of_mem _ he) _ List.mem_cons_self hplain' hplain
      hkind heq
    subst hsame
    exact (nodup_cons.mp h.keys).1 (List.mem_map_of_mem he)
  one_parent := (h.tail hplain).one_parent

theorem Shape.free (h : Shape kind l removed) (hunlinked : ∀ e ∈ l, e.dir ∉ removed → e.id ≠ id) :
    Shape (update kind id none) (l.filter fun e => e.dir ≠ id)
      (removed.filter fun r => r ≠ id) := by
  have hmem : ∀ {e}, e ∈ l.filter (fun e => e.dir ≠ id) ↔ e ∈ l ∧ e.dir ≠ id := by simp
  have hlive : ∀ {x}, x ≠ id → x ∉ removed.filter (fun r => r ≠ id) → x ∉ removed := by
    intro x hne hx hr
    exact hx (by simp [hr, hne])
  have hplain_ne : ∀ e ∈ l, Plain e.name → e.id ≠ id := fun e he hplain =>
    hunlinked e he (h.plain_live e he hplain)
  constructor
  · exact h.keys.sublist (List.filter_sublist.map key)
  · intro e he
    rw [update_of_ne (hmem.mp he).2]
    exact h.dirs e (hmem.mp he).1
  · intro e he hr
    have hr' := hlive (hmem.mp he).2 hr
    rw [update_of_ne (hunlinked e (hmem.mp he).1 hr')]
    exact h.targets e (hmem.mp he).1 hr'
  · intro r hr
    obtain ⟨hr, hne⟩ : r ∈ removed ∧ r ≠ id := by simpa using hr
    rw [update_of_ne hne]
    exact h.removed_dirs r hr
  · intro x hkind hr
    by_cases hne : x = id
    · subst hne
      simp at hkind
    rw [update_of_ne hne] at hkind
    obtain ⟨hdot, p, hdotdot⟩ := h.dots x hkind (hlive hne hr)
    exact ⟨hmem.mpr ⟨hdot, hne⟩, p, hmem.mpr ⟨hdotdot, hne⟩⟩
  · intro e he hplain hr
    exact h.plain_live e (hmem.mp he).1 hplain (List.mem_filter.mp hr).1
  · intro e he hplain hkind
    have hne := hplain_ne e (hmem.mp he).1 hplain
    rw [update_of_ne hne] at hkind
    obtain ⟨hr, hdotdot⟩ := h.subdirs e (hmem.mp he).1 hplain hkind
    exact ⟨fun hr' => hr (List.mem_filter.mp hr').1, hmem.mpr ⟨hdotdot, hne⟩⟩
  · intro e he e' he' hplain hplain' hkind
    rw [update_of_ne (hplain_ne e (hmem.mp he).1 hplain)] at hkind
    exact h.one_parent e (hmem.mp he).1 e' (hmem.mp he').1 hplain hplain' hkind

end Shape

end FileSystem

end K42
