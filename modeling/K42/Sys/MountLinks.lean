import K42.Io.PathNameLexical
import K42.Sys.MountLookup
import K42.Sys.MountMarshal
import Mathlib.Data.List.TakeWhile

/-!
# Links in the mount table

`lookupMP` against the repeated replacement of the first link by its target, which is read
lexically in the directory of the link.
-/

namespace K42

open Components

open PathName (dot slash lexical lexicalStep Trace)

namespace MountPointMgrCommon

/-! ## Replaced links -/

/-- A link that a name meets in `dir`, and what remains of the name behind it. -/
structure Link where
  dir : List Component
  target : List UInt8
  rest : List Component
deriving DecidableEq

namespace Link

def pieces (l : Link) : List Component := l.target.splitOn slash

def Absolute (l : Link) : Prop := l.target.head? = some slash

instance (l : Link) : Decidable l.Absolute := inferInstanceAs (Decidable (_ = _))

/-- The name with the target in the place of the link. -/
def replaced (l : Link) : List Component :=
  lexical (if l.Absolute then [] else l.dir) l.pieces ++ l.rest

end Link

/-- The first link that the name meets below `dir`; without `followLink` it is not the last
component. -/
def firstLink (t : MountComponent) (followLink : Bool) :
    List Component → List Component → Option Link
  | _, [] => none
  | dir, c :: rest =>
    match typeAt t (dir ++ [c]) with
    | .symLink data =>
      if followLink = false ∧ rest = [] then none
      else some ⟨dir, data.takeWhile (· ≠ 0), rest⟩
    | _ => firstLink t followLink (dir ++ [c]) rest

/-- The name without links; there is none if more links than these have to be replaced. -/
def afterLinks (t : MountComponent) (followLink : Bool) :
    ℕ → List Component → Option (List Component)
  | 0, name =>
    match firstLink t followLink [] name with
    | none => some name
    | some _ => none
  | n + 1, name =>
    match firstLink t followLink [] name with
    | none => some name
    | some l => afterLinks t followLink n l.replaced

/-- `P` for each of the first links that are replaced. -/
def ForReplaced (t : MountComponent) (followLink : Bool) (P : Link → Prop) :
    ℕ → List Component → Prop
  | 0, _ => True
  | n + 1, name =>
    ∀ l ∈ firstLink t followLink [] name, P l ∧ ForReplaced t followLink P n l.replaced

instance ForReplaced.decidable (t : MountComponent) (followLink : Bool) (P : Link → Prop)
    [DecidablePred P] : ∀ n name, Decidable (ForReplaced t followLink P n name)
  | 0, _ => isTrue trivial
  | n + 1, name =>
    have := ForReplaced.decidable t followLink P n
    inferInstanceAs (Decidable (∀ l ∈ firstLink t followLink [] name,
      P l ∧ ForReplaced t followLink P n l.replaced))

/-! ## What a name without links finds -/

/-- A prefix of the name is a mount point. -/
def HasMount (t : MountComponent) (name : List Component) : Prop :=
  ∃ q, q <+: name ∧ (typeAt t q).isMountPoint

/-- The mount point at `q` is the deepest one on the name that is not coverable or, where all are
coverable, the deepest one. -/
structure Selects (t : MountComponent) (name q : List Component) (found : MountPointFound) :
    Prop where
  name_eq : name = q ++ found.unRes
  type : typeAt t q = found.mc
  mount : found.mc.isMountPoint
  covered : found.mc.isCoverable → ∀ q', q' <+: name → (typeAt t q').isMountPoint →
    (typeAt t q').isCoverable
  deepest : ∀ q', q' <+: name → (typeAt t q').isMountPoint →
    (typeAt t q').isCoverable = found.mc.isCoverable → q'.length ≤ q.length

/-- What `lookupMP` is to return with the links replaced, of which there are 11 at most. -/
structure Resolved (t : MountComponent) (followLink : Bool) (name : List Component)
    (result : Except Failure (List Component × MountPointFound)) : Prop where
  loops : result = .error (.serror 2676 0 .ELOOP) ↔ afterLinks t followLink 11 name = none
  missing : ∀ final, afterLinks t followLink 11 name = some final → ¬ HasMount t final →
    result = .error (.serror 1416 0 .ENOENT)
  found : ∀ final, afterLinks t followLink 11 name = some final → HasMount t final →
    ∃ q found, Selects t final q found ∧ result = .ok (final, found)

/-! ## Levels -/

/-- The levels by which the scan of the leading dots backs up. -/
def backs : List UInt8 → ℕ
  | [x, y] => if x = dot ∧ y = dot then 1 else 0
  | x :: y :: z :: dest =>
    if x = dot then
      if y = dot then backs dest + 1 else backs (z :: dest)
    else 0
  | _ => 0

/-- The levels by which the components leave the directory where they start, which are at `p` in
it. -/
def escapes : List Component → List Component → ℕ
  | _, [] => 0
  | p, c :: cs => (if c = [dot, dot] ∧ p = [] then 1 else 0) + escapes (lexicalStep p c) cs

/-- The buffers of `lookupMP` have room for the target and for the paths that are made of it, and
the length of each component fits in a byte. -/
structure Link.HasRoom (maxLen : ℕ) (l : Link) : Prop where
  target : l.target.length < PATH_MAX
  pieces : ∀ c ∈ l.pieces, c.length ≤ 255
  appended : size (lexical [] l.pieces ++ l.rest) ≤ PATH_MAX
  replaced : size l.replaced ≤ maxLen

instance (maxLen : ℕ) : DecidablePred (Link.HasRoom maxLen) := fun l =>
  decidable_of_iff (l.target.length < PATH_MAX ∧ (∀ c ∈ l.pieces, c.length ≤ 255) ∧
      size (lexical [] l.pieces ++ l.rest) ≤ PATH_MAX ∧ size l.replaced ≤ maxLen)
    ⟨fun ⟨h₁, h₂, h₃, h₄⟩ => ⟨h₁, h₂, h₃, h₄⟩, fun ⟨h₁, h₂, h₃, h₄⟩ => ⟨h₁, h₂, h₃, h₄⟩⟩

/-- `Create` reads the target lexically, and if it is relative, the scan of its leading dots goes
as far up as all its components do. -/
structure Link.Aligned (l : Link) : Prop where
  benign : Trace.Benign [] (PathName.begin []) l.pieces
  levels : l.Absolute ∨ l.dir.length - backs l.target = l.dir.length - escapes [] l.pieces

instance : DecidablePred Link.Aligned := fun l =>
  decidable_of_iff (Trace.Benign [] (PathName.begin []) l.pieces ∧
      (l.Absolute ∨ l.dir.length - backs l.target = l.dir.length - escapes [] l.pieces))
    ⟨fun ⟨h₁, h₂⟩ => ⟨h₁, h₂⟩, fun ⟨h₁, h₂⟩ => ⟨h₁, h₂⟩⟩

section Proofs

variable {t m : MountComponent} {followLink : Bool} {dir name rest : List Component}
  {c : Component} {l : Link} {maxLen n : ℕ}

theorem backUp_eq (dest : List UInt8) (name : List Component) :
    backUp dest name = name.take (name.length - backs dest) := by
  induction dest, name using backUp.induct with
  | case1 x y name hdots =>
    rw [backUp, backs, if_pos hdots, if_pos hdots]
    exact List.dropLast_eq_take
  | case2 x y name hdots =>
    rw [backUp, backs, if_neg hdots, if_neg hdots, Nat.sub_zero, List.take_length]
  | case3 z dest name ih =>
    rw [backUp, if_pos rfl, if_pos rfl, ih, backs, if_pos rfl, if_pos rfl, List.dropLast_eq_take,
      List.take_take, List.length_take]
    congr 1
    omega
  | case4 y z dest name hy ih =>
    rw [backUp, if_pos rfl, if_neg hy, ih, backs, if_pos rfl, if_neg hy]
  | case5 x y z dest name hx =>
    rw [backUp, if_neg hx, backs, if_neg hx, Nat.sub_zero, List.take_length]
  | case6 dest name htwo hmore =>
    rw [backUp, backs, Nat.sub_zero, List.take_length]
    · exact htwo
    · exact hmore
    · exact htwo
    · exact hmore

theorem lexical_append (d p cs : List Component) :
    lexical (d ++ p) cs = d.take (d.length - escapes p cs) ++ lexical p cs := by
  induction cs generalizing d p with
  | nil =>
    change d ++ p = d.take (d.length - 0) ++ p
    rw [Nat.sub_zero, List.take_length]
  | cons c cs ih =>
    change lexical (lexicalStep (d ++ p) c) cs = _ ++ lexical (lexicalStep p c) cs
    unfold escapes
    by_cases hup : c = [dot, dot] ∧ p = []
    · obtain ⟨rfl, rfl⟩ := hup
      have hstep : lexicalStep (d ++ []) [dot, dot] = d.dropLast ++ [] := by
        rw [List.append_nil, List.append_nil]
        rfl
      rw [hstep, ih, if_pos ⟨rfl, rfl⟩, List.dropLast_eq_take, List.take_take, List.length_take]
      change d.take _ ++ lexical [] cs = d.take (d.length - (1 + escapes [] cs)) ++ lexical [] cs
      congr 2
      omega
    · have hstep : lexicalStep (d ++ p) c = d ++ lexicalStep p c := by
        unfold lexicalStep
        split_ifs with hnoise hpair
        · rfl
        · exact List.dropLast_append_of_ne_nil fun hnil => hup ⟨hpair, hnil⟩
        · exact List.append_assoc d p [c]
      rw [hstep, ih, if_neg hup, Nat.zero_add]

/-! ## One replacement -/

theorem zero_not_mem_takeWhile (data : List UInt8) : 0 ∉ data.takeWhile (· ≠ 0) := by
  intro hmem
  have hne := List.mem_takeWhile_imp (p := fun x : UInt8 => decide (x ≠ 0)) hmem
  exact of_decide_eq_true hne rfl

theorem Link.replaced_of_absolute (h : l.Absolute) :
    l.replaced = lexical [] l.pieces ++ l.rest := by
  unfold Link.replaced
  rw [if_pos h]

theorem Link.replaced_of_relative (h : ¬ l.Absolute) :
    l.replaced =
      l.dir.take (l.dir.length - escapes [] l.pieces) ++ (lexical [] l.pieces ++ l.rest) := by
  unfold Link.replaced
  rw [if_neg h, ← List.append_assoc, ← lexical_append, List.append_nil]

theorem created_lexical (junk : Bytes.Buffer) (hinput : PathName.Input l.target)
    (hlength : l.target.length < PATH_MAX)
    (hbenign : Trace.Benign [] (PathName.begin []) l.pieces) :
    ∃ np len, PathName.Create junk l.target [] PATH_MAX = .ok (some np, len) ∧
      decode (Bytes.read np.bytes 0 len) = lexical [] l.pieces := by
  have hlarge : PathName.Large l.target [] PATH_MAX := .inr hlength
  have hstart : PathName.WellFormed [] := nofun
  have hcreated : ∃ r, PathName.Create junk l.target (encode []) PATH_MAX = .ok r ∧
      PathName.Returns r (lexical [] l.pieces) :=
    (PathName.create_lexical_iff hinput hstart hlarge).2 hbenign
  obtain ⟨⟨np, len⟩, hcreate, hlen, hstored⟩ := hcreated
  obtain ⟨np, rfl⟩ := PathName.create_isSome hinput hstart hlarge (by decide) hcreate
  refine ⟨np, len, hcreate, ?_⟩
  have hlen' : len = size (lexical [] l.pieces) := hlen
  have hread : Bytes.read np.bytes 0 len = encode (lexical [] l.pieces) := by
    rw [hlen']
    exact hstored.2
  rw [hread]
  exact decode_encode (PathName.fits_lexical nofun hinput.short)

theorem followed_of_created {junk : Bytes.Buffer} {data : List UInt8} {np : PathName.Buf} {len : ℕ}
    (hdata : l.target = data.takeWhile (· ≠ 0))
    (hcreate : PathName.Create junk l.target [] PATH_MAX = .ok (some np, len)) (c : Component) :
    followed junk maxLen (l.dir ++ c :: l.rest) l.rest data =
      let newPath := decode (Bytes.read np.bytes 0 len) ++ l.rest
      let start := l.dir.take (l.dir.length - backs l.target)
      if PATH_MAX < size newPath then .error .fault
      else if l.Absolute then
        if maxLen < size newPath then .error .fault else .ok newPath
      else if maxLen < size (start ++ newPath) then .error .fault
      else .ok (start ++ newPath) := by
  have hdir : ((l.dir ++ c :: l.rest).take
      ((l.dir ++ c :: l.rest).length - l.rest.length)).dropLast = l.dir := by
    have hlength : (l.dir ++ c :: l.rest).length - l.rest.length = (l.dir ++ [c]).length := by
      rw [List.length_append, List.length_append, List.length_cons, List.length_singleton]
      omega
    have happend : l.dir ++ c :: l.rest = (l.dir ++ [c]) ++ l.rest := by
      rw [List.append_assoc]
      rfl
    rw [hlength, happend, List.take_left, List.dropLast_concat]
  unfold followed
  dsimp only
  rw [← hdata, hcreate, hdir, backUp_eq]
  exact if_neg fun hnone => Option.some_ne_none np (Option.isNone_iff_eq_none.1 hnone.1)

theorem followed_eq_iff (junk : Bytes.Buffer) (c : Component) {data : List UInt8}
    (hdata : l.target = data.takeWhile (· ≠ 0)) (hroom : l.HasRoom maxLen)
    (hbenign : Trace.Benign [] (PathName.begin []) l.pieces) :
    followed junk maxLen (l.dir ++ c :: l.rest) l.rest data = .ok l.replaced ↔
      l.Absolute ∨ l.dir.length - backs l.target = l.dir.length - escapes [] l.pieces := by
  have hinput : PathName.Input l.target :=
    ⟨by rw [hdata]; exact zero_not_mem_takeWhile data, hroom.pieces⟩
  obtain ⟨np, len, hcreate, hdecode⟩ := created_lexical junk hinput hroom.target hbenign
  have hreplaced := hroom.replaced
  rw [followed_of_created hdata hcreate, hdecode]
  dsimp only
  rw [if_neg (not_lt.2 hroom.appended)]
  by_cases habs : l.Absolute
  · rw [Link.replaced_of_absolute habs] at hreplaced ⊢
    rw [if_pos habs, if_neg (not_lt.2 hreplaced)]
    exact ⟨fun _ => .inl habs, fun _ => rfl⟩
  · rw [Link.replaced_of_relative habs] at hreplaced ⊢
    rw [if_neg habs]
    constructor
    · intro hok
      right
      split at hok
      case isTrue => cases hok
      case isFalse =>
          have htake := congrArg List.length (List.append_cancel_right (Except.ok.inj hok))
          rw [List.length_take, List.length_take] at htake
          omega
    · intro hlevels
      rw [hlevels.resolve_left habs]
      exact if_neg (not_lt.2 hreplaced)

/-! ## The walk -/

/-- The mount points of a walk. -/
def metMounts (l : List (CompType × List Component)) : List MountPointFound :=
  (l.filter fun x => x.1.isMountPoint).map fun x => ⟨x.1, x.2⟩

theorem metMounts_cons_of_mount {v : CompType} (h : v.isMountPoint = true) (name : List Component)
    (l : List (CompType × List Component)) :
    metMounts ((v, name) :: l) = ⟨v, name⟩ :: metMounts l := by
  unfold metMounts
  rw [List.filter_cons, if_pos h]
  rfl

theorem metMounts_cons_of_not {v : CompType} (h : v.isMountPoint = false) (name : List Component)
    (l : List (CompType × List Component)) : metMounts ((v, name) :: l) = metMounts l := by
  unfold metMounts
  rw [List.filter_cons, if_neg (Bool.not_eq_true _ ▸ h)]

theorem firstLink_cons_of_link {data : List UInt8} (h : typeAt t (dir ++ [c]) = .symLink data) :
    firstLink t followLink dir (c :: rest) =
      if followLink = false ∧ rest = [] then none
      else some ⟨dir, data.takeWhile (· ≠ 0), rest⟩ := by
  rw [firstLink, h]

theorem firstLink_cons_of_not (h : (typeAt t (dir ++ [c])).isSymLink = false) :
    firstLink t followLink dir (c :: rest) = firstLink t followLink (dir ++ [c]) rest := by
  rw [firstLink]
  cases htype : typeAt t (dir ++ [c]) with
  | symLink data =>
    rw [htype] at h
    cases h
  | _ => rfl

theorem firstLink_of_empty (h : ∀ q, q ≠ [] → typeAt t (dir ++ q) = .empty) :
    firstLink t followLink dir name = none := by
  induction name generalizing dir with
  | nil => rfl
  | cons c name ih =>
    rw [firstLink_cons_of_not (by rw [h [c] (List.cons_ne_nil _ _)]; rfl)]
    apply ih
    intro q _
    rw [List.append_assoc]
    exact h _ (List.cons_ne_nil _ _)

theorem resolve_cons {d : MountComponent} (hfind : m.findChild c = some d)
    (lastMP : Option MountPointFound) :
    resolve followLink (c :: rest) m lastMP =
      match d.val with
      | .symLink data =>
        if followLink = false ∧ rest = [] then lastMP else some ⟨.symLink data, rest⟩
      | .empty => resolve followLink rest d lastMP
      | v => resolve followLink rest d (MountPointFound.set lastMP v rest) := by
  rw [resolve, hfind]
  dsimp only
  cases htype : d.val with
  | symLink data =>
    have hset : MountPointFound.set lastMP (.symLink data) rest = some ⟨.symLink data, rest⟩ := by
      cases lastMP with
      | none => rfl
      | some last => exact if_pos (.inr (.inr rfl))
    simp [CompType.isEmpty, CompType.isSymLink, hset]
  | _ => simp [CompType.isEmpty, CompType.isSymLink]

theorem resolve_spec (followLink : Bool) (name : List Component)
    (h : ∀ q, typeAt t (dir ++ q) = typeAt m q) (lastMP : Option MountPointFound) :
    (firstLink t followLink dir name = none ∧
        resolve followLink name m lastMP = kept lastMP (metMounts (m.visits name).tail)) ∨
      ∃ l data c, firstLink t followLink dir name = some l ∧ l.target = data.takeWhile (· ≠ 0) ∧
        dir ++ name = l.dir ++ c :: l.rest ∧
        resolve followLink name m lastMP = some ⟨.symLink data, l.rest⟩ := by
  induction name generalizing dir m lastMP with
  | nil => exact .inl ⟨rfl, rfl⟩
  | cons c name ih =>
    cases hfind : m.findChild c with
    | none =>
      left
      constructor
      · have hempty : ∀ q, typeAt t (dir ++ c :: q) = .empty := fun q =>
          (h (c :: q)).trans (typeAt_cons_of_none hfind q)
        rw [firstLink_cons_of_not (by rw [hempty []]; rfl)]
        apply firstLink_of_empty
        intro q _
        rw [List.append_assoc]
        exact hempty q
      · unfold resolve PathTree.visits
        rw [hfind]
        rfl
    | some d =>
      have hd : ∀ q, typeAt t ((dir ++ [c]) ++ q) = typeAt d q := by
        intro q
        rw [List.append_assoc]
        exact (h (c :: q)).trans (typeAt_cons_of_some hfind q)
      have hval : typeAt t (dir ++ [c]) = d.val := by
        rw [← List.append_nil (dir ++ [c])]
        exact hd []
      have hname : dir ++ c :: name = (dir ++ [c]) ++ name := by
        rw [List.append_assoc]
        rfl
      rw [resolve_cons hfind, tail_visits_cons hfind, visits_eq_cons]
      cases htype : d.val with
      | empty =>
        rw [firstLink_cons_of_not (by rw [hval, htype]; rfl), metMounts_cons_of_not rfl, hname]
        exact ih hd lastMP
      | mount info =>
        rw [firstLink_cons_of_not (by rw [hval, htype]; rfl), metMounts_cons_of_mount rfl, hname]
        exact ih hd _
      | covMount info =>
        rw [firstLink_cons_of_not (by rw [hval, htype]; rfl), metMounts_cons_of_mount rfl, hname]
        exact ih hd _
      | symLink data =>
        rw [firstLink_cons_of_link (hval.trans htype)]
        dsimp only
        by_cases hlast : followLink = false ∧ name = []
        · obtain ⟨rfl, rfl⟩ := hlast
          left
          refine ⟨rfl, ?_⟩
          rw [if_pos ⟨rfl, rfl⟩, metMounts_cons_of_not rfl]
          rfl
        · rw [if_neg hlast, if_neg hlast]
          exact .inr ⟨_, data, c, rfl, rfl, rfl, rfl⟩

/-! ## What is selected -/

theorem mem_metMounts {x : MountPointFound} : x ∈ metMounts (t.visits name) ↔
    ∃ q, name = q ++ x.unRes ∧ typeAt t q = x.mc ∧ x.mc.isMountPoint = true := by
  unfold metMounts
  rw [List.mem_map]
  constructor
  · rintro ⟨y, hy, rfl⟩
    obtain ⟨hvisit, hmount⟩ := List.mem_filter.1 hy
    obtain ⟨q, hq, hlookup⟩ := PathTree.mem_visits.1 hvisit
    refine ⟨q, hq, ?_, hmount⟩
    unfold typeAt
    rw [hlookup]
    rfl
  · rintro ⟨q, hname, htype, hmount⟩
    have hlookup : t.lookup q = some x.mc := by
      unfold typeAt at htype
      cases hq : t.lookup q with
      | none =>
        rw [hq] at htype
        change CompType.empty = x.mc at htype
        rw [← htype] at hmount
        cases hmount
      | some v =>
        rw [hq] at htype
        exact congrArg some htype
    exact ⟨(x.mc, x.unRes),
      List.mem_filter.2 ⟨PathTree.mem_visits.2 ⟨q, hname, hlookup⟩, hmount⟩, rfl⟩

theorem Preferred.selects {x : MountPointFound} (h : Preferred (metMounts (t.visits name)) x) :
    ∃ q, Selects t name q x := by
  obtain ⟨q, hname, htype, hmount⟩ := mem_metMounts.1 h.mem
  have hmet : ∀ q' r, name = q' ++ r → (typeAt t q').isMountPoint = true →
      (⟨typeAt t q', r⟩ : MountPointFound) ∈ metMounts (t.visits name) :=
    fun q' r hname' hmount' => mem_metMounts.2 ⟨q', hname', rfl, hmount'⟩
  refine ⟨q, hname, htype, hmount, ?_, ?_⟩
  · rintro hcov q' ⟨r, hr⟩ hmount'
    exact h.covered hcov _ (hmet q' r hr.symm hmount')
  · rintro q' ⟨r, hr⟩ hmount' hsame
    have hle : x.unRes.length ≤ r.length := h.deepest _ (hmet q' r hr.symm hmount') hsame
    have hlength : (q' ++ r).length = (q ++ x.unRes).length := by
      rw [hr, ← hname]
    rw [List.length_append, List.length_append] at hlength
    omega

theorem kept_selects (t : MountComponent) (name : List Component) :
    (¬ HasMount t name ∧ kept none (metMounts (t.visits name)) = none) ∨
      ∃ q found, Selects t name q found ∧ kept none (metMounts (t.visits name)) = some found := by
  have hsorted : (metMounts (t.visits name)).Pairwise
      fun x y => y.unRes.length < x.unRes.length := by
    unfold metMounts
    rw [List.pairwise_map]
    exact (PathTree.visits_sorted (t := t) (p := name)).filter _
  have hlinks : ∀ x ∈ metMounts (t.visits name), x.mc.isSymLink = false := by
    intro x hx
    obtain ⟨-, -, -, hmount⟩ := mem_metMounts.1 hx
    cases hmc : x.mc with
    | symLink data =>
      rw [hmc] at hmount
      cases hmount
    | _ => rfl
  rcases kept_preferred hsorted hlinks with ⟨hnil, hkept⟩ | ⟨x, hkept, hpref⟩
  · left
    refine ⟨?_, hkept⟩
    rintro ⟨q, ⟨r, hr⟩, hmount⟩
    have hmem : (⟨typeAt t q, r⟩ : MountPointFound) ∈ metMounts (t.visits name) :=
      mem_metMounts.2 ⟨q, hr.symm, rfl, hmount⟩
    rw [hnil] at hmem
    cases hmem
  · obtain ⟨q, hselects⟩ := hpref.selects
    exact .inr ⟨q, x, hselects, hkept⟩

theorem lookup_cases (t : MountComponent) (followLink : Bool) (name : List Component) :
    (firstLink t followLink [] name = none ∧
      ((¬ HasMount t name ∧ lookup t name followLink = .error (.serror 1416 0 .ENOENT)) ∨
        ∃ q found, Selects t name q found ∧ lookup t name followLink = .ok found)) ∨
      ∃ l data c, firstLink t followLink [] name = some l ∧ l.target = data.takeWhile (· ≠ 0) ∧
        name = l.dir ++ c :: l.rest ∧
        lookup t name followLink = .ok ⟨.symLink data, l.rest⟩ := by
  have htop : kept (if t.val.isMountPoint then MountPointFound.set none t.val name else none)
      (metMounts (t.visits name).tail) = kept none (metMounts (t.visits name)) := by
    rw [visits_eq_cons t name, List.tail_cons]
    cases hmount : t.val.isMountPoint with
    | true =>
      rw [metMounts_cons_of_mount hmount]
      rfl
    | false =>
      rw [metMounts_cons_of_not hmount]
      rfl
  have hroot : ∀ q, typeAt t ([] ++ q) = typeAt t q := fun _ => rfl
  unfold lookup
  dsimp only
  rcases resolve_spec followLink name hroot
      (if t.val.isMountPoint then MountPointFound.set none t.val name else none) with
    ⟨hnone, hresolve⟩ | ⟨l, data, c, hsome, htarget, hname, hresolve⟩
  · left
    refine ⟨hnone, ?_⟩
    rw [hresolve, htop]
    rcases kept_selects t name with ⟨hmount, hkept⟩ | ⟨q, found, hselects, hkept⟩
    · rw [hkept]
      exact .inl ⟨hmount, rfl⟩
    · rw [hkept]
      exact .inr ⟨q, found, hselects, rfl⟩
  · right
    rw [hresolve]
    exact ⟨l, data, c, hsome, htarget, hname, rfl⟩

/-! ## The loop -/

/-- What `lookup` of a path without links answers. -/
def Answered (t : MountComponent) (name : List Component)
    (result : Except Failure (List Component × MountPointFound)) : Prop :=
  (¬ HasMount t name ∧ result = .error (.serror 1416 0 .ENOENT)) ∨
    ∃ q found, Selects t name q found ∧ result = .ok (name, found)

theorem lookupLoop_of_none (junk : Bytes.Buffer) (n : ℕ)
    (h : firstLink t followLink [] name = none) :
    Answered t name (lookupLoop junk t maxLen followLink n name) := by
  rcases lookup_cases t followLink name with
    ⟨-, ⟨hmount, hlookup⟩ | ⟨q, found, hselects, hlookup⟩⟩ | ⟨l, data, c, hsome, -⟩
  · left
    refine ⟨hmount, ?_⟩
    cases n <;> rw [lookupLoop, hlookup] <;> rfl
  · right
    obtain ⟨mc, unRes⟩ := found
    refine ⟨q, ⟨mc, unRes⟩, hselects, ?_⟩
    have hmount : mc.isMountPoint = true := hselects.mount
    cases mc with
    | symLink data => cases hmount
    | empty => cases hmount
    | mount info => cases n <;> rw [lookupLoop, hlookup] <;> rfl
    | covMount info => cases n <;> rw [lookupLoop, hlookup] <;> rfl
  · rw [h] at hsome
    cases hsome

theorem lookupLoop_cases (junk : Bytes.Buffer) (n : ℕ) (name : List Component)
    (hroom : ForReplaced t followLink (Link.HasRoom maxLen) n name)
    (haligned : ForReplaced t followLink Link.Aligned n name) :
    (afterLinks t followLink n name = none ∧
        lookupLoop junk t maxLen followLink n name = .error (.serror 2676 0 .ELOOP)) ∨
      ∃ final, afterLinks t followLink n name = some final ∧
        Answered t final (lookupLoop junk t maxLen followLink n name) := by
  induction n generalizing name with
  | zero =>
    unfold afterLinks
    rcases lookup_cases t followLink name with
      ⟨hnone, -⟩ | ⟨l, data, c, hsome, -, -, hlookup⟩
    · rw [hnone]
      exact .inr ⟨name, rfl, lookupLoop_of_none junk 0 hnone⟩
    · rw [hsome, lookupLoop, hlookup]
      exact .inl ⟨rfl, rfl⟩
  | succ n ih =>
    unfold afterLinks
    rcases lookup_cases t followLink name with
      ⟨hnone, -⟩ | ⟨l, data, c, hsome, htarget, hname, hlookup⟩
    · rw [hnone]
      exact .inr ⟨name, rfl, lookupLoop_of_none junk (n + 1) hnone⟩
    · obtain ⟨hl, hroom'⟩ := hroom l hsome
      obtain ⟨⟨hbenign, hlevels⟩, haligned'⟩ := haligned l hsome
      have hfollowed : followed junk maxLen name l.rest data = .ok l.replaced := by
        rw [hname]
        exact (followed_eq_iff junk c htarget hl hbenign).2 hlevels
      have hloop : lookupLoop junk t maxLen followLink (n + 1) name =
          lookupLoop junk t maxLen followLink n l.replaced := by
        rw [lookupLoop, hlookup]
        change (followed junk maxLen name l.rest data >>= fun name =>
          lookupLoop junk t maxLen followLink n name) = _
        rw [hfollowed]
        rfl
      rw [hsome, hloop]
      exact ih l.replaced hroom' haligned'

end Proofs

/-- `lookupMP` replaces the links one after the other, if all the intermediate paths have room,
`Create` reads each target lexically, and each relative target goes as far up as the scan of its
leading dots. -/
theorem lookupMP_resolved (junk : Bytes.Buffer) (t : MountComponent) (name : List Component)
    (maxLen : ℕ) (followLink : Bool)
    (hroom : ForReplaced t followLink (Link.HasRoom maxLen) 11 name)
    (haligned : ForReplaced t followLink Link.Aligned 11 name) :
    Resolved t followLink name (lookupMP junk t name maxLen followLink) := by
  unfold lookupMP
  rcases lookupLoop_cases junk 11 name hroom haligned with
    ⟨hnone, hloops⟩ | ⟨final, hsome, ⟨hmount, hmissing⟩ | ⟨q, found, hselects, hfound⟩⟩
  · rw [hloops]
    refine ⟨⟨fun _ => hnone, fun _ => rfl⟩, ?_, ?_⟩
    · intro final hfinal
      rw [hnone] at hfinal
      cases hfinal
    · intro final hfinal
      rw [hnone] at hfinal
      cases hfinal
  · rw [hmissing]
    refine ⟨?_, fun _ _ _ => rfl, ?_⟩
    · rw [hsome]
      constructor <;> intro h <;> cases h
    · intro final' hfinal hmount'
      rw [hsome] at hfinal
      cases hfinal
      exact absurd hmount' hmount
  · rw [hfound]
    have hmount : HasMount t final :=
      ⟨q, ⟨found.unRes, hselects.name_eq.symm⟩, by rw [hselects.type]; exact hselects.mount⟩
    refine ⟨?_, ?_, ?_⟩
    · rw [hsome]
      constructor <;> intro h <;> cases h
    · intro final' hfinal hmount'
      rw [hsome] at hfinal
      cases hfinal
      exact absurd hmount hmount'
    · intro final' hfinal _
      rw [hsome] at hfinal
      cases hfinal
      exact ⟨q, found, hselects, rfl⟩

/-- The root is mounted, and `a/l` is a link to the target. -/
def linkOps (target : List UInt8) : List Op :=
  [.registerMountPoint ⟨[], ⟨1, 1⟩, [], [], 0, 0⟩, .registerSymLink [[97], [108]] target]

def linkTable (target : List UInt8) : MountComponent :=
  .node [dot] (.mount ⟨⟨1, 1⟩, [], [], 0⟩)
    [.node [97] .empty [.node [108] (.symLink (target ++ [0])) []]]

theorem build_linkOps (target : List UInt8) : build (linkOps target) = .ok (linkTable target) :=
  rfl

/-- From `a`, the target `.././/c` leads to `c`. -/
theorem lookupMP_resolved_upOne :
    build (linkOps [dot, dot, slash, dot, slash, slash, 99]) =
        .ok (linkTable [dot, dot, slash, dot, slash, slash, 99]) ∧
      Resolved (linkTable [dot, dot, slash, dot, slash, slash, 99]) true [[97], [108], [120]]
        (lookupMP (fun _ => 0) (linkTable [dot, dot, slash, dot, slash, slash, 99])
          [[97], [108], [120]] 64 true) ∧
      afterLinks (linkTable [dot, dot, slash, dot, slash, slash, 99]) true 11 [[97], [108], [120]] =
        some [[99], [120]] := by
  refine ⟨build_linkOps _, ?_, by decide +kernel⟩
  exact lookupMP_resolved _ _ _ _ _ (by decide +kernel) (by decide +kernel)

/-- `x/../../b`, which goes up by one level behind its first component. -/
def climbs : List UInt8 := [120, slash, dot, dot, slash, dot, dot, slash, 98]

/-- `..b`, the name of which begins with dots. -/
def dotted : List UInt8 := [dot, dot, 98]

/-- From `a`, the target `x/../../b` is to lead to `b` and `..b` to `a/..b`, but `lookupMP` does not
back up for the first one, and backs up for the second one. -/
theorem lookupMP_not_resolved : (build (linkOps climbs) = .ok (linkTable climbs) ∧
      ForReplaced (linkTable climbs) true (Link.HasRoom 64) 11 [[97], [108]] ∧
      ¬ Resolved (linkTable climbs) true [[97], [108]]
        (lookupMP (fun _ => 0) (linkTable climbs) [[97], [108]] 64 true)) ∧
    build (linkOps dotted) = .ok (linkTable dotted) ∧
      ForReplaced (linkTable dotted) true (Link.HasRoom 64) 11 [[97], [108]] ∧
      ¬ Resolved (linkTable dotted) true [[97], [108]]
        (lookupMP (fun _ => 0) (linkTable dotted) [[97], [108]] 64 true) := by
  -- the root is mounted, so that the name without links is returned
  have hfails : ∀ target final other,
      afterLinks (linkTable target) true 11 [[97], [108]] = some final →
      (lookupMP (fun _ => 0) (linkTable target) [[97], [108]] 64 true).toOption.map Prod.fst =
        some other → other ≠ final →
      ¬ Resolved (linkTable target) true [[97], [108]]
        (lookupMP (fun _ => 0) (linkTable target) [[97], [108]] 64 true) := by
    intro target final other hafter hresult hne hresolved
    obtain ⟨q, found, -, hfound⟩ := hresolved.found final hafter ⟨[], List.nil_prefix, rfl⟩
    rw [hfound] at hresult
    exact hne (Option.some.inj hresult).symm
  refine ⟨⟨build_linkOps _, by decide +kernel, ?_⟩, build_linkOps _, by decide +kernel, ?_⟩
  · apply hfails climbs [[98]] [[97], [98]] <;> decide +kernel
  · apply hfails dotted [[97], [dot, dot, 98]] [[dot, dot, 98]] <;> decide +kernel

end MountPointMgrCommon

end K42
