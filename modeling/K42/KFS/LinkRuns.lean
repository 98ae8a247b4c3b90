import K42.KFS.Links

/-!
# Link counts in runs

The file system calls keep the link count of every object equal to the number of
live entries that refer to it, as long as a directory is renamed within its
parent only. `rename` does not rewrite the entry `..` of a directory it moves.
-/

open Function (update_of_ne update_self update)

namespace K42

namespace FileSystem

variable {fs : FileSystem} {d id : ℕ} {name : String} {δ : ℕ → ℤ}

/-! ## The calls keep the counts -/

/-- The tree is as it should be and every count is right. -/
structure Sound (fs : FileSystem) : Prop where
  shape : Shape fs.kind fs.entries fs.removed
  counts : fs.Off 0

theorem liveEntries_eq_zero_iff :
    fs.liveEntries id = 0 ↔ ∀ e ∈ fs.entries, e.dir ∉ fs.removed → e.id ≠ id := by
  unfold liveEntries
  rw [List.countP_eq_zero]
  simp

theorem Sound.createRecord (h : fs.Sound) (hfresh : fs.kind id = none) (kind : Kind) :
    (fs.createRecord id kind).Off 0 := by
  intro x hx
  show update fs.nlink id 0 x = fs.liveEntries x + 0
  by_cases heq : x = id
  · subst heq
    have hzero : fs.liveEntries x = 0 :=
      liveEntries_eq_zero_iff.mpr fun e he hlive => h.shape.ne_of_fresh hfresh he hlive
    rw [update_self, hzero]
    rfl
  · have hx' : fs.kind x ≠ none := by
      show fs.kind x ≠ none
      rw [← update_of_ne heq (some kind) fs.kind]
      exact hx
    rw [update_of_ne heq]
    exact h.counts x hx'

/-- Directory `d` is there and has not been removed. -/
def Dir (fs : FileSystem) (d : ℕ) : Prop := fs.kind d = some .dir ∧ d ∉ fs.removed

theorem Sound.createFile (h : fs.Sound) (hd : fs.Dir d)
    (habsent : fs.matchDir d name = none) (hfresh : fs.kind id = none) :
    ((fs.createRecord id .file).createEntry d name id).Sound where
  shape := by
    have hne : d ≠ id := by
      rintro rfl
      simp [hd.1] at hfresh
    refine Shape.perm ((h.shape.fresh_file hfresh).cons ?_ hd.2 (absent_of_matchDir habsent)
      ?_ ?_) (List.perm_append_singleton _ _).symm
    · rw [update_of_ne hne]
      exact hd.1
    · simp
    · simp
  counts := (h.createRecord hfresh .file).createEntry hd.2 name id

variable {file x : ℕ} {newName : String} {fs' : FileSystem} {call : Call}

theorem Sound.link (h : fs.Sound) (hd : fs.Dir d)
    (habsent : fs.matchDir d name = none) (hfile : fs.kind file = some .file) :
    (fs.createEntry d name file).Sound where
  shape :=
    (h.shape.cons hd.1 hd.2 (absent_of_matchDir habsent) (by simp [hfile])
      (by simp [hfile])).perm (List.perm_append_singleton _ _).symm
  counts := h.counts.createEntry hd.2 name file

theorem Sound.deleteEntry (h : fs.Sound) (hd : d ∉ fs.removed) (hplain : Plain name)
    (hmatch : fs.matchDir d name = some id) : (fs.deleteEntry d name id).Sound where
  shape := by
    obtain ⟨-, hperm, -⟩ := split_of_find (find_of_matchDir hmatch) h.shape.keys
    exact (h.shape.perm hperm).tail hplain
  counts := h.counts.deleteEntry h.shape.keys hd hmatch

theorem Sound.ne_of_fresh (h : fs.Sound) (hd : fs.Dir d) (hfresh : fs.kind id = none) :
    d ≠ id ∧ id ∉ fs.removed := by
  constructor
  · rintro rfl
    simp [hd.1] at hfresh
  · intro hr
    simp [h.shape.removed_dirs id hr] at hfresh

theorem Sound.mkdir (h : fs.Sound) (hd : fs.Dir d)
    (habsent : fs.matchDir d name = none) (hfresh : fs.kind id = none) :
    ((fs.createRecord id .dir).createDir d name id).Sound where
  shape := by
    obtain ⟨hne, hlive⟩ := h.ne_of_fresh hd hfresh
    have hdots := h.shape.fresh_dir (d := d) hfresh (by simp [update_of_ne hne, hd.1])
    have hperm : (⟨d, name, id⟩ :: ⟨id, "..", d⟩ :: ⟨id, ".", id⟩ :: fs.entries).Perm
        (((fs.entries ++ [⟨d, name, id⟩]) ++ [⟨id, ".", id⟩]) ++ [⟨id, "..", d⟩]) := by
      refine (List.Perm.swap _ _ _).trans (List.Perm.trans ?_ (List.perm_append_singleton _ _).symm)
      refine ((List.Perm.swap _ _ _).trans ?_).cons _
      exact (((List.perm_append_singleton _ _).symm).cons _).trans
        (List.perm_append_singleton _ _).symm
    refine Shape.perm (hdots.cons ?_ hd.2 ?_ ?_ ?_) hperm
    · rw [update_of_ne hne]
      exact hd.1
    · simp only [List.map_cons, List.mem_cons, not_or]
      refine ⟨?_, ?_, absent_of_matchDir habsent⟩ <;> simp [key, hne]
    · simp
    · intro _
      refine ⟨hlive, by simp, ?_⟩
      simp only [List.forall_mem_cons]
      refine ⟨fun hplain => absurd rfl hplain.2, fun hplain => absurd rfl hplain.1, ?_⟩
      intro e he hplain
      exact h.shape.ne_of_fresh hfresh he (h.shape.plain_live e he hplain)
  counts := by
    obtain ⟨-, hlive⟩ := h.ne_of_fresh hd hfresh
    have hrecord := h.createRecord hfresh .dir
    have hnamed := hrecord.lockedCreateEntry hd.2 name id
    have hfull := ((hnamed.createEntry hlive "." id).createEntry hlive ".." d).linkObj id
    rwa [sub_add_cancel] at hfull

theorem Sound.entriesOf_of_empty {dir : ℕ} (h : fs.Sound) (hplain : Plain name)
    (hmatch : fs.matchDir d name = some dir) (hdir : fs.kind dir = some .dir)
    (hempty : (fs.entriesOf dir).length ≤ 2) :
    (fs.entriesOf dir).Perm [⟨dir, ".", dir⟩, ⟨dir, "..", d⟩] := by
  have hmem : (⟨d, name, dir⟩ : Entry) ∈ fs.entries :=
    List.mem_of_find?_eq_some (find_of_matchDir hmatch)
  obtain ⟨hlive, hdotdot⟩ := h.shape.subdirs _ hmem hplain hdir
  have hdot := (h.shape.dots dir hdir hlive).1
  have hsub : [(⟨dir, ".", dir⟩ : Entry), ⟨dir, "..", d⟩].Subperm (fs.entriesOf dir) := by
    apply List.subperm_of_subset
    · simp
    · intro e he
      rw [List.mem_cons, List.mem_singleton] at he
      unfold entriesOf
      obtain rfl | rfl := he
      · simp [hdot]
      · simp [hdotdot]
  exact (hsub.perm_of_length_le hempty).symm

theorem Off.remove {c : ℕ} (h : fs.Off δ) (hlive : c ∉ fs.removed)
    (hperm : (fs.entriesOf c).Perm [⟨c, ".", c⟩, ⟨c, "..", d⟩]) :
    Off { fs with removed := c :: fs.removed } (δ + one d + one c) := by
  apply h.recount
  intro x
  have hsplit : (fs.liveEntries x : ℤ) =
      liveEntries { fs with removed := c :: fs.removed } x + (one d x + one c x) := by
    unfold liveEntries
    rw [List.countP_eq_countP_filter_add _ _ fun e => decide (e.dir = c)]
    have hin : ((fs.entries.filter fun e => decide (e.dir = c)).countP fun e =>
        decide (e.dir ∉ fs.removed ∧ e.id = x) : ℤ) = one d x + one c x := by
      unfold entriesOf at hperm
      rw [hperm.countP_eq]
      unfold one
      simp only [List.countP_cons, List.countP_nil, hlive, not_false_eq_true, true_and,
        decide_eq_true_eq, eq_comm (b := x)]
      push_cast
      ring
    have hout : ((fs.entries.filter fun e => !decide (e.dir = c)).countP fun e =>
        decide (e.dir ∉ fs.removed ∧ e.id = x)) =
        fs.entries.countP fun e => decide (e.dir ∉ c :: fs.removed ∧ e.id = x) := by
      rw [List.countP_filter]
      apply List.countP_congr
      intro e _
      simp only [List.mem_cons, not_or, Bool.and_eq_true, decide_eq_true_eq,
        Bool.not_eq_true', decide_eq_false_iff_not]
      tauto
    push_cast
    rw [hin, hout]
    ring
  show _ + (δ x + one d x + one c x) = _
  rw [hsplit]
  ring

theorem Sound.deleteDir {dir : ℕ} (h : fs.Sound) (hd : fs.Dir d) (hplain : Plain name)
    (hmatch : fs.matchDir d name = some dir) (hdir : fs.kind dir = some .dir)
    (hempty : (fs.entriesOf dir).length ≤ 2) :
    Sound { ((fs.deleteEntry d name dir).unlinkObj d).unlinkObj dir with
      removed := dir :: fs.removed } := by
  have hdots := h.entriesOf_of_empty hplain hmatch hdir hempty
  obtain ⟨-, hperm, -⟩ := split_of_find (find_of_matchDir hmatch) h.shape.keys
  have hnames : ∀ e ∈ fs.entries, Plain e.name → e.dir ≠ dir := by
    intro e he hplain heq
    have hin : e ∈ fs.entriesOf dir := by simp [entriesOf, he, heq]
    rw [hdots.mem_iff, List.mem_cons, List.mem_singleton] at hin
    obtain rfl | rfl := hin
    · exact hplain.1 rfl
    · exact hplain.2 rfl
  have hmem : (⟨d, name, dir⟩ : Entry) ∈ fs.entries :=
    List.mem_of_find?_eq_some (find_of_matchDir hmatch)
  have hlive := (h.shape.subdirs _ hmem hplain hdir).1
  constructor
  · apply (h.shape.perm hperm).remove hplain hdir
    intro e he
    exact hnames e (hperm.mem_iff.mpr (List.mem_cons_of_mem _ he))
  · -- the name's entry was in the parent, so the two entries are still there
    have hdots' : ((fs.deleteEntry d name dir).entriesOf dir).Perm
        [⟨dir, ".", dir⟩, ⟨dir, "..", d⟩] := by
      refine List.Perm.trans ?_ hdots
      have hfilter := hperm.filter fun e => decide (e.dir = dir)
      rw [List.filter_cons_of_neg (by simpa using hnames _ hmem hplain)] at hfilter
      exact hfilter.symm
    have hunlinked := (((h.deleteEntry hd.2 hplain hmatch).counts).unlinkObj d).unlinkObj dir
    have hall := hunlinked.remove hlive hdots'
    have hzero : (0 : ℕ → ℤ) - one d - one dir + one d + one dir = 0 := by
      funext x
      show 0 - one d x - one dir x + one d x + one dir x = 0
      ring
    rwa [hzero] at hall

theorem matchDir_createEntry {d' : ℕ} {name' : String} (hmatch : fs.matchDir d name = some file) :
    (fs.createEntry d' name' id).matchDir d name = some file := by
  show ((fs.entries ++ [(⟨d', name', id⟩ : Entry)]).find? (At d name)).map Entry.id = some file
  rw [List.find?_append, find_of_matchDir hmatch]
  rfl

theorem matchDir_updateEntry {d' old : ℕ} {name' : String}
    (hmatch : fs.matchDir d name = some file) (hne : (d, name) ≠ (d', name')) :
    (fs.updateEntry d' name' old id).matchDir d name = some file := by
  show ((fs.entries.map fun e => if At d' name' e then { e with id } else e).find?
    (At d name)).map Entry.id = some file
  have hsame : (At d name ∘ fun e : Entry => if At d' name' e then { e with id } else e) =
      At d name := by
    funext e
    simp only [Function.comp_apply]
    split <;> rfl
  have hother : ¬At d' name' ⟨d, name, file⟩ = true := by
    rw [at_iff]
    exact hne
  rw [List.find?_map, hsame, find_of_matchDir hmatch, Option.map_some, if_neg hother]
  rfl

theorem Sound.updateEntry {old : ℕ} (h : fs.Sound) (hd : fs.Dir d) (hplain : Plain name)
    (hmatch : fs.matchDir d name = some old) (hfile : fs.kind file = some .file) :
    (fs.updateEntry d name old file).Sound where
  shape := by
    obtain ⟨-, hperm, hupdate⟩ := split_of_find (find_of_matchDir hmatch) h.shape.keys
    have hshape := h.shape.perm hperm
    refine Shape.perm ((hshape.tail hplain).cons hd.1 hd.2 ?_ ?_ ?_) (hupdate file).symm
    · exact (List.nodup_cons.mp hshape.keys).1
    · simp [hfile]
    · simp [hfile]
  counts := h.counts.updateEntry h.shape.keys hd.2 hmatch file

/-- A directory gets another name in the same parent: it is linked under the new
name, the parent's count goes up and down, and the old name goes. -/
theorem Sound.renameDir (h : fs.Sound) (hd : fs.Dir d)
    (hplain : Plain name) (hmatch : fs.matchDir d name = some file)
    (habsent : fs.matchDir d newName = none) :
    ((((fs.createEntry d newName file).linkObj d).unlinkObj d).deleteEntry d name file).Sound := by
  have hfound : (⟨d, name, file⟩ : Entry) ∈ fs.entries :=
    List.mem_of_find?_eq_some (find_of_matchDir hmatch)
  obtain ⟨-, hperm, -⟩ := split_of_find (find_of_matchDir hmatch) h.shape.keys
  have hshape := h.shape.perm hperm
  constructor
  · show Shape fs.kind ((fs.entries ++ [(⟨d, newName, file⟩ : Entry)]).eraseP (At d name)) fs.removed
    rw [List.eraseP_append_left (at_iff.mpr rfl) _ hfound]
    refine Shape.perm ((hshape.tail hplain).cons hd.1 hd.2 ?_ ?_ ?_)
      (List.perm_append_singleton _ _).symm
    · intro hmem
      exact absent_of_matchDir habsent ((hperm.map key).mem_iff.mpr (List.mem_cons_of_mem _ hmem))
    · exact h.shape.targets _ hfound hd.2
    · intro hdir
      obtain ⟨hlive, hdotdot⟩ := hshape.subdirs _ List.mem_cons_self hplain hdir
      refine ⟨hlive, (List.mem_cons.mp hdotdot).resolve_left ?_, ?_⟩
      · intro heq
        exact hplain.2 (congrArg Entry.name heq).symm
      · intro e he hplain' heq
        have hsame := hshape.one_parent _ List.mem_cons_self e (List.mem_cons_of_mem _ he) hplain
          hplain' hdir heq.symm
        subst hsame
        exact (List.nodup_cons.mp hshape.keys).1 (List.mem_map_of_mem he)
  · have hlinked := ((h.counts.createEntry hd.2 newName file).linkObj d).unlinkObj d
    rw [add_sub_cancel_right] at hlinked
    refine hlinked.deleteEntry ?_ hd.2 (matchDir_createEntry hmatch)
    show ((fs.entries ++ [(⟨d, newName, file⟩ : Entry)]).map key).Nodup
    rw [((List.perm_append_singleton _ _).map key).nodup_iff, List.map_cons, List.nodup_cons]
    exact ⟨absent_of_matchDir habsent, h.shape.keys⟩

theorem Sound.deleteFile (h : fs.Sound) (hzero : fs.liveEntries id = 0) :
    Sound { fs with
      kind := update fs.kind id none
      entries := fs.entries.filter fun e => e.dir ≠ id
      removed := fs.removed.filter fun r => r ≠ id } where
  shape := h.shape.free (liveEntries_eq_zero_iff.mp hzero)
  counts := by
    -- the entries dropped with a directory were not live
    have hdropped : ∀ e ∈ fs.entries, e.dir = id → e.dir ∈ fs.removed := by
      intro e he heq
      by_contra hlive
      have hdot := (h.shape.dots id (heq ▸ h.shape.dirs e he) (heq ▸ hlive)).1
      exact liveEntries_eq_zero_iff.mp hzero _ hdot (heq ▸ hlive) rfl
    intro x hx
    have hne : x ≠ id := by
      rintro rfl
      simp at hx
    show fs.nlink x = _
    rw [h.counts x (by simpa [hne] using hx)]
    congr 2
    show fs.entries.countP _ = (fs.entries.filter _).countP _
    rw [List.countP_filter]
    apply List.countP_congr
    intro e he
    simp only [List.mem_filter, decide_eq_true_eq, Bool.and_eq_true, decide_not,
      Bool.not_eq_true', decide_eq_false_iff_not]
    constructor
    · rintro ⟨hlive, rfl⟩
      refine ⟨⟨fun hr => hlive hr.1, rfl⟩, fun heq => hlive (hdropped e he heq)⟩
    · rintro ⟨⟨hlive, rfl⟩, heq⟩
      exact ⟨fun hr => hlive ⟨hr, heq⟩, rfl⟩

/-! ## Runs -/

inductive Call
  | createFile (d : ℕ) (name : String) (id : ℕ)
  | link (file newDir : ℕ) (newname : String)
  | unlink (d : ℕ) (name : String) (file : ℕ)
  | rename (d : ℕ) (oldName : String) (newDir : ℕ) (newName : String) (file : ℕ)
  | mkdir (d : ℕ) (name : String) (id : ℕ)
  | rmdir (d : ℕ) (name : String)
  | deleteFile (id : ℕ)
deriving DecidableEq

def exec (fs : FileSystem) : Call → Except Failure FileSystem
  | .createFile d name id => fs.createFile d name id
  | .link file newDir newname => fs.link file newDir newname
  | .unlink d name file => fs.unlink d name file
  | .rename d oldName newDir newName file => fs.rename d oldName newDir newName file
  | .mkdir d name id => fs.mkdir d name id
  | .rmdir d name => fs.rmdir d name
  | .deleteFile id => fs.deleteFile id

/-- A call that fails leaves the file system as it was. -/
def step (fs : FileSystem) (call : Call) : FileSystem := (fs.exec call).toOption.getD fs

/-- The object `file` that comes with a name is the one the name refers to. -/
def Names (fs : FileSystem) (d : ℕ) (name : String) (file : ℕ) : Prop :=
  fs.matchDir d name = none ∨ fs.matchDir d name = some file

/-- What the directory cache above checks before it calls: directories are there
and names are plain; a name is created when it is not in use; new objects get
unused records; files are linked and unlinked, directories removed; a rename is
between different names. -/
def Checked (fs : FileSystem) : Call → Prop
  | .createFile d name id =>
    fs.Dir d ∧ Plain name ∧ fs.matchDir d name = none ∧ fs.kind id = none
  | .link file newDir newname => fs.Dir newDir ∧ Plain newname ∧ fs.kind file = some .file
  | .unlink d name file =>
    fs.Dir d ∧ Plain name ∧ fs.Names d name file ∧ fs.kind file = some .file
  | .rename d oldName newDir newName file =>
    fs.Dir d ∧ Plain oldName ∧ fs.Dir newDir ∧ Plain newName ∧ fs.Names d oldName file ∧
      (d, oldName) ≠ (newDir, newName)
  | .mkdir d name id => fs.Dir d ∧ Plain name ∧ fs.kind id = none
  | .rmdir d name => fs.Dir d ∧ Plain name ∧ ∀ c ∈ fs.matchDir d name, fs.kind c = some .dir
  | .deleteFile id => fs.kind id ≠ none

/-- A directory is renamed within its parent, to a name that is not in use. -/
def KeepsParents (fs : FileSystem) : Call → Prop
  | .rename d _ newDir newName file =>
    fs.kind file = some .dir → newDir = d ∧ fs.matchDir newDir newName = none
  | _ => True

instance (d : ℕ) : Decidable (fs.Dir d) := inferInstanceAs (Decidable (_ ∧ _))

instance (d : ℕ) (name : String) (file : ℕ) : Decidable (fs.Names d name file) :=
  inferInstanceAs (Decidable (_ ∨ _))

instance : ∀ call, Decidable (fs.Checked call)
  | .createFile .. | .link .. | .unlink .. | .rename .. | .mkdir .. | .rmdir .. =>
    inferInstanceAs (Decidable (_ ∧ _))
  | .deleteFile _ => inferInstanceAs (Decidable (_ ≠ _))

instance : ∀ call, Decidable (fs.KeepsParents call)
  | .rename .. => inferInstanceAs (Decidable (_ → _))
  | .createFile .. | .link .. | .unlink .. | .mkdir .. | .rmdir .. | .deleteFile _ => isTrue trivial

/-- Every call the layer above makes. -/
def calls : Machine FileSystem Call := ⟨step, Checked⟩

/-- The calls, with directories renamed as `KeepsParents` says. -/
def callsKeepingParents : Machine FileSystem Call :=
  ⟨step, fun fs call => fs.Checked call ∧ fs.KeepsParents call⟩

instance (fs : FileSystem) (call : Call) : Decidable (calls.adm fs call) :=
  inferInstanceAs (Decidable (fs.Checked call))

instance (fs : FileSystem) (call : Call) : Decidable (callsKeepingParents.adm fs call) :=
  inferInstanceAs (Decidable (_ ∧ _))

theorem step_of_ok (h : fs.exec call = .ok fs') :
    fs.step call = fs' := by
  unfold step
  rw [h]
  rfl

theorem step_of_error {f : Failure} (h : fs.exec call = .error f) :
    fs.step call = fs := by
  unfold step
  rw [h]
  rfl

theorem unlink_of_matchDir (hmatch : fs.matchDir d name = some id) :
    fs.unlink d name file = .ok (fs.deleteEntry d name file) := by
  unfold unlink
  rw [hmatch]

theorem Sound.rename {newDir : ℕ} (h : fs.Sound)
    (hadm : fs.Checked (.rename d name newDir newName file))
    (hkeeps : fs.KeepsParents (.rename d name newDir newName file))
    (hmatch : fs.matchDir d name = some file) :
    ∃ fs', fs.rename d name newDir newName file = .ok fs' ∧ fs'.Sound := by
  obtain ⟨hd, hplain, hnew, hplain', -, hne⟩ := hadm
  have hfound : (⟨d, name, file⟩ : Entry) ∈ fs.entries :=
    List.mem_of_find?_eq_some (find_of_matchDir hmatch)
  unfold FileSystem.rename
  simp only [hmatch]
  cases hkind : fs.kind file with
  | none => exact absurd hkind (h.shape.targets _ hfound hd.2)
  | some kind =>
    cases kind with
    | dir =>
      obtain ⟨rfl, habsent⟩ := hkeeps hkind
      simp only [habsent, if_true]
      exact ⟨_, unlink_of_matchDir (matchDir_createEntry hmatch),
        h.renameDir hd hplain hmatch habsent⟩
    | file =>
      simp only [reduceCtorEq, Option.some.injEq, if_false]
      cases hold : fs.matchDir newDir newName with
      | none =>
        have hmatch' : (fs.createEntry newDir newName file).matchDir d name = some file :=
          matchDir_createEntry hmatch
        exact ⟨_, unlink_of_matchDir hmatch',
          (h.link hnew hold hkind).deleteEntry hd.2 hplain hmatch'⟩
      | some old =>
        have hmatch' : (fs.updateEntry newDir newName old file).matchDir d name = some file :=
          matchDir_updateEntry hmatch hne
        exact ⟨_, unlink_of_matchDir hmatch',
          (h.updateEntry hnew hplain' hold hkind).deleteEntry hd.2 hplain hmatch'⟩

theorem Sound.step (h : fs.Sound) (hadm : fs.Checked call)
    (hkeeps : fs.KeepsParents call) : (fs.step call).Sound := by
  cases call with
  | createFile d name id =>
    obtain ⟨hd, -, habsent, hfresh⟩ := hadm
    rw [step_of_ok rfl]
    exact h.createFile hd habsent hfresh
  | link file newDir newname =>
    obtain ⟨hd, -, hfile⟩ := hadm
    cases hmatch : fs.matchDir newDir newname with
    | none =>
      rw [step_of_ok (by simp only [exec, FileSystem.link, hmatch]; rfl)]
      exact h.link hd hmatch hfile
    | some old =>
      rw [step_of_error (by simp only [exec, FileSystem.link, hmatch]; rfl)]
      exact h
  | unlink d name file =>
    obtain ⟨hd, hplain, hmatch | hmatch, -⟩ := hadm
    · rw [step_of_error (by simp only [exec, FileSystem.unlink, hmatch]; rfl)]
      exact h
    · have hok : fs.exec (.unlink d name file) = .ok _ := unlink_of_matchDir hmatch
      rw [step_of_ok hok]
      exact h.deleteEntry hd.2 hplain hmatch
  | rename d oldName newDir newName file =>
    obtain hmatch | hmatch := hadm.2.2.2.2.1
    · rw [step_of_error (by simp only [exec, FileSystem.rename, hmatch]; rfl)]
      exact h
    · obtain ⟨fs', hok, hsound⟩ := h.rename hadm hkeeps hmatch
      have hexec : fs.exec (.rename d oldName newDir newName file) = .ok fs' := hok
      rw [step_of_ok hexec]
      exact hsound
  | mkdir d name id =>
    obtain ⟨hd, hplain, hfresh⟩ := hadm
    cases hmatch : fs.matchDir d name with
    | some old =>
      rw [step_of_error (by simp only [exec, FileSystem.mkdir, hmatch]; rfl)]
      exact h
    | none =>
      rw [step_of_ok (by simp only [exec, FileSystem.mkdir, hmatch]; rfl)]
      exact h.mkdir hd hmatch hfresh
  | rmdir d name =>
    obtain ⟨hd, hplain, hdir⟩ := hadm
    cases hmatch : fs.matchDir d name with
    | none =>
      rw [step_of_error (by simp only [exec, rmdir, FileSystem.deleteDir, hmatch]; rfl)]
      exact h
    | some dir =>
      by_cases hempty : (fs.entriesOf dir).length > 2
      · rw [step_of_error (by simp only [exec, rmdir, FileSystem.deleteDir, hmatch, hempty]; rfl)]
        exact h
      · rw [step_of_ok (by simp only [exec, rmdir, FileSystem.deleteDir, hmatch, hempty]; rfl)]
        exact h.deleteDir hd hplain hmatch (hdir dir hmatch) (Nat.le_of_not_lt hempty)
  | deleteFile id =>
    by_cases hzero : fs.nlink id ≠ 0
    · rw [step_of_error (by simp only [exec, FileSystem.deleteFile, if_pos hzero]; rfl)]
      exact h
    · rw [step_of_ok (by simp only [exec, FileSystem.deleteFile, if_neg hzero]; rfl)]
      have hcount := h.counts id hadm
      rw [not_not.mp hzero] at hcount
      apply h.deleteFile
      show fs.liveEntries id = 0
      have hsum : (0 : ℤ) = fs.liveEntries id + 0 := hcount
      omega

theorem kind_unlink (h : fs.unlink d name file = .ok fs') :
    fs'.kind = fs.kind := by
  unfold unlink at h
  split at h
  · cases h
  · cases h
    rfl

theorem kind_rename {newDir : ℕ}
    (h : fs.rename d name newDir newName file = .ok fs') : fs'.kind = fs.kind := by
  unfold rename at h
  cases hmatch : fs.matchDir d name with
  | none =>
    rw [hmatch] at h
    cases h
  | some _ =>
    simp only [hmatch] at h
    rw [kind_unlink h]
    -- whether or not the object is a directory, only counts and entries change
    cases fs.matchDir newDir newName <;> simp only <;> split_ifs <;> rfl

theorem kind_exec (h : fs.exec call = .ok fs')
    (hx : fs.kind x ≠ none) (hne : call ≠ .deleteFile x) : fs'.kind x ≠ none := by
  have hrecord : ∀ id (kind : Kind), update fs.kind id (some kind) x ≠ none := by
    intro id kind
    by_cases heq : x = id
    · subst heq
      simp
    · rwa [update_of_ne heq]
  cases call with
  | createFile d name id =>
    cases h
    exact hrecord id .file
  | link file newDir newname =>
    simp only [exec, link] at h
    split at h
    · cases h
      exact hx
    · cases h
  | unlink d name file =>
    rw [kind_unlink h]
    exact hx
  | rename d oldName newDir newName file =>
    rw [kind_rename h]
    exact hx
  | mkdir d name id =>
    simp only [exec, mkdir] at h
    split at h
    · cases h
    · cases h
      exact hrecord id .dir
  | rmdir d name =>
    simp only [exec, rmdir, deleteDir] at h
    split at h
    · cases h
    · split at h
      · cases h
      · cases h
        exact hx
  | deleteFile id =>
    simp only [exec, deleteFile] at h
    split at h
    · cases h
    · cases h
      have hother : x ≠ id := fun heq => hne (heq ▸ rfl)
      show update fs.kind id none x ≠ none
      rwa [update_of_ne hother]

theorem kind_step (hx : fs.kind x ≠ none) (hne : call ≠ .deleteFile x) :
    (fs.step call).kind x ≠ none := by
  cases hexec : fs.exec call with
  | error f =>
    rw [step_of_error hexec]
    exact hx
  | ok fs' =>
    rw [step_of_ok hexec]
    exact kind_exec hexec hx hne

theorem Sound.kind_deleteFile (h : fs.Sound) (hx : fs.kind x ≠ none) :
    (fs.step (.deleteFile x)).kind x = none ↔ fs.liveEntries x = 0 := by
  have hcount : fs.nlink x = fs.liveEntries x + 0 := h.counts x hx
  by_cases hzero : fs.nlink x ≠ 0
  · rw [step_of_error (by simp only [exec, FileSystem.deleteFile, if_pos hzero]; rfl)]
    constructor
    · intro hnone
      exact absurd hnone hx
    · intro hlive
      omega
  · rw [step_of_ok (by simp only [exec, FileSystem.deleteFile, if_neg hzero]; rfl)]
    constructor
    · intro _
      omega
    · intro _
      exact update_self ..

/-- What the counts are for. An object is freed by the call that deletes it, and
by that call exactly if no live entry refers to it. -/
structure Counted (fs : FileSystem) : Prop where
  nlink : ∀ x, fs.kind x ≠ none → fs.nlink x = fs.liveEntries x
  freed : ∀ call, fs.Checked call → ∀ x, fs.kind x ≠ none →
    ((fs.step call).kind x = none ↔ call = .deleteFile x ∧ fs.liveEntries x = 0)

theorem Sound.counted (h : fs.Sound) : fs.Counted where
  nlink x hx := by
    rw [h.counts x hx]
    exact add_zero _
  freed call _ x hx := by
    by_cases hcall : call = .deleteFile x
    · subst hcall
      rw [h.kind_deleteFile hx]
      simp
    · constructor
      · intro hnone
        exact absurd hnone (kind_step hx hcall)
      · rintro ⟨heq, -⟩
        exact absurd heq hcall

theorem nothing_sound : nothing.Sound where
  shape := by
    constructor <;> simp [nothing]
  counts x hx := absurd rfl hx

theorem createRootDirectory_sound (root : ℕ) : (createRootDirectory root).Sound where
  shape := by
    have hfresh : nothing.kind root = none := rfl
    have hdots := nothing_sound.shape.fresh_dir (d := root) hfresh (by simp)
    exact hdots.perm (List.Perm.swap _ _ _)
  counts :=
    ((nothing_sound.createRecord rfl .dir).createEntry List.not_mem_nil "." root).createEntry
      List.not_mem_nil ".." root

/-- In every run in which directories keep their parents. -/
theorem run_counted {root : ℕ} {ops : List Call}
    (hrun : callsKeepingParents.Run (createRootDirectory root) ops fs) : fs.Counted := by
  have hsound : fs.Sound := by
    refine hrun.invariant (I := Sound) (createRootDirectory_sound root) ?_
    rintro fs call h ⟨hadm, hkeeps⟩
    exact h.step hadm hkeeps
  exact hsound.counted

/-- In every such run names are unique in their directory, entries of live directories name live
objects, and a directory that has a name has one only, in the directory its `..` names. -/
theorem run_shape {root : ℕ} {ops : List Call}
    (hrun : callsKeepingParents.Run (createRootDirectory root) ops fs) :
    Shape fs.kind fs.entries fs.removed := by
  have hsound : fs.Sound := by
    refine hrun.invariant (I := Sound) (createRootDirectory_sound root) ?_
    rintro fs call h ⟨hadm, hkeeps⟩
    exact h.step hadm hkeeps
  exact hsound.shape

/-- A directory and a file with two names are made; the file is moved over
another, the directory renamed, emptied, removed and freed, and its record used
again. -/
def busyTree : List Call :=
  [.mkdir 1 "a" 2, .createFile 2 "f" 3, .link 3 1 "g", .createFile 1 "h" 4,
    .rename 2 "f" 1 "h" 3, .rename 1 "a" 1 "b" 2, .unlink 1 "h" 3, .deleteFile 4,
    .rmdir 1 "b", .deleteFile 2, .createFile 1 "i" 2, .unlink 1 "g" 3, .deleteFile 3]

theorem run_counted_busyTree :
    callsKeepingParents.Admits (createRootDirectory 1) busyTree ∧
      (busyTree.foldl step (createRootDirectory 1)).Counted := by
  have hadm : callsKeepingParents.Admits (createRootDirectory 1) busyTree := by decide +kernel
  exact ⟨hadm, run_counted hadm.run⟩

theorem run_shape_busyTree :
    let fs := busyTree.foldl step (createRootDirectory 1)
    Shape fs.kind fs.entries fs.removed := by
  have hadm : callsKeepingParents.Admits (createRootDirectory 1) busyTree := by decide +kernel
  exact run_shape hadm.run

/-- A file is made and unlinked. -/
def makeAndUnlink : List Call := [.createFile 1 "f" 2, .unlink 1 "f" 2]

/-- Directory `c` moves from `a` to `b`. -/
def moveBetweenParents : List Call :=
  [.mkdir 1 "a" 2, .mkdir 1 "b" 3, .mkdir 2 "c" 4, .rename 2 "c" 3 "c" 4]

/-- An unlinked file keeps its record, though no live entry refers to it; and the
entry `..` of a directory that moves keeps referring to the parent it left, whose
count goes down. -/
theorem not_freed_at_zero_and_not_counted :
    (∃ fs, calls.Run (createRootDirectory 1) makeAndUnlink fs ∧
      fs.kind 2 = some .file ∧ fs.liveEntries 2 = 0) ∧
    (∃ fs, calls.Run (createRootDirectory 1) moveBetweenParents fs ∧
      fs.kind 2 = some .dir ∧ fs.nlink 2 = 2 ∧ fs.liveEntries 2 = 3 ∧
      fs.nlink 3 = 3 ∧ fs.liveEntries 3 = 2) := by
  have hunlink : calls.Admits (createRootDirectory 1) makeAndUnlink := by decide +kernel
  have hmove : calls.Admits (createRootDirectory 1) moveBetweenParents := by decide +kernel
  exact ⟨⟨_, hunlink.run, by decide +kernel⟩, ⟨_, hmove.run, by decide +kernel⟩⟩

end FileSystem

end K42
