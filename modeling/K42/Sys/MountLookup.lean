import K42.Sys.MountPointMgrCommon

/-!
# Lookup in the mount table

Without symbolic links `lookup` selects the longest mount path that is a prefix of the name, and a
coverable one only if no other one is.
-/

namespace K42

open Components

namespace MountPointMgrCommon

/-- The tree after the registrations, in their order. -/
def registerAll (regs : List Registration) : Except Failure MountComponent :=
  regs.foldlM registerMountPoint init

/-! ## The flat table -/

/-- The mount path of `reg` is the longest prefix of the name that is not coverable or, where there
is none, the longest one that is coverable. -/
structure Selected (regs : List Registration) (name q : List Component) (reg : Registration) :
    Prop where
  last : lastRegistration regs q = some reg
  isPrefix : q <+: name
  covered : reg.isCoverable ≠ 0 → ∀ q' reg', lastRegistration regs q' = some reg' → q' <+: name →
    reg'.isCoverable ≠ 0
  longest : ∀ q' reg', lastRegistration regs q' = some reg' → q' <+: name →
    (reg'.isCoverable ≠ 0 ↔ reg.isCoverable ≠ 0) → q'.length ≤ q.length

/-- A prefix of the name is a mount path. -/
def Mounted (regs : List Registration) (name : List Component) : Prop :=
  ∃ q reg, lastRegistration regs q = some reg ∧ q <+: name

/-- What `lookup` of a handle is to return. -/
structure Answers (regs : List Registration) (name : List Component) (maxLen : ℕ)
    (result : Except Failure Looked) : Prop where
  missing : result = .error (.serror 1416 0 .ENOENT) ↔ ¬ Mounted regs name
  found : Mounted regs name → ∃ q reg rest looked, Selected regs name q reg ∧ name = q ++ rest ∧
    result = .ok looked ∧ looked.oh = reg.oh ∧ looked.unResLen = size rest ∧
      (size reg.relPath + size rest ≤ maxLen → looked.name = .ok (reg.relPath ++ rest))

section Proofs

variable {regs : List Registration} {reg : Registration} {t : MountComponent}
  {name q rest : List Component} {followLink : Bool}

/-- The tree and the flat table agree on every path. -/
def Agrees (regs : List Registration) (t : MountComponent) : Prop :=
  ∀ q, typeAt t q = ((lastRegistration regs q).map Registration.compType).getD .empty

theorem registerAll_agrees (h : ∀ r ∈ regs, ∀ c ∈ r.mountPath, Short c) :
    ∃ t, registerAll regs = .ok t ∧ Agrees regs t := by
  obtain ⟨t, ht, htypes⟩ := registerAll_spec (fun r hr c hc => (h r hr c hc).2) init
  refine ⟨t, ht, ?_⟩
  intro q
  rw [htypes, typeAt_init]

/-! ## The walk -/

/-- The components of a walk that are not empty. -/
def met (l : List (CompType × List Component)) : List MountPointFound :=
  (l.filter fun x => !x.1.isEmpty).map fun x => ⟨x.1, x.2⟩

/-- What the walk keeps. -/
def kept (lastMP : Option MountPointFound) (l : List MountPointFound) : Option MountPointFound :=
  l.foldl (fun last x => MountPointFound.set last x.mc x.unRes) lastMP

def Linkless (t : MountComponent) : Prop := ∀ q, (typeAt t q).isSymLink = false

theorem visits_eq_cons (t : MountComponent) (name : List Component) :
    t.visits name = (t.val, name) :: (t.visits name).tail := by
  cases name <;> rfl

theorem tail_visits_cons {c : Component} {m : MountComponent} (h : t.findChild c = some m)
    (name : List Component) : (t.visits (c :: name)).tail = m.visits name := by
  unfold PathTree.visits
  rw [h]
  exact PathTree.visits.eq_def m name

theorem met_cons_of_empty {x : CompType × List Component} (h : x.1.isEmpty = true)
    (l : List (CompType × List Component)) : met (x :: l) = met l := by
  unfold met
  rw [List.filter_cons_of_neg]
  simp [h]

theorem met_cons_of_not {x : CompType × List Component} (h : x.1.isEmpty = false)
    (l : List (CompType × List Component)) : met (x :: l) = ⟨x.1, x.2⟩ :: met l := by
  unfold met
  rw [List.filter_cons_of_pos]
  · rfl
  · simp [h]

theorem Linkless.child {c : Component} {m : MountComponent} (h : Linkless t)
    (hfind : t.findChild c = some m) : Linkless m := by
  intro q
  rw [← typeAt_cons_of_some hfind]
  exact h _

theorem resolve_eq (h : Linkless t) (lastMP : Option MountPointFound) :
    resolve followLink name t lastMP = kept lastMP (met (t.visits name).tail) := by
  induction name generalizing t lastMP with
  | nil => rfl
  | cons c name ih =>
    unfold resolve
    cases hfind : t.findChild c with
    | none =>
      unfold PathTree.visits
      rw [hfind]
      rfl
    | some m =>
      have hm := h.child hfind
      have hlink : m.val.isSymLink = false := hm []
      dsimp only
      rw [tail_visits_cons hfind, visits_eq_cons]
      cases hempty : m.val.isEmpty with
      | true =>
        rw [if_pos rfl, met_cons_of_empty hempty]
        exact ih hm lastMP
      | false =>
        rw [if_neg Bool.false_ne_true, met_cons_of_not hempty, hlink,
          if_neg fun hcond => Bool.false_ne_true hcond.2.1, if_neg Bool.false_ne_true]
        exact ih hm _

theorem lookup_eq (h : Linkless t) : lookup t name followLink =
    match kept none (met (t.visits name)) with
    | none => .error (.serror 1416 0 .ENOENT)
    | some found => .ok found := by
  have htop : t.val.isMountPoint = !t.val.isEmpty := by
    have hlink : t.val.isSymLink = false := h []
    cases hval : t.val with
    | symLink data =>
      rw [hval] at hlink
      cases hlink
    | _ => rfl
  have hkept : resolve followLink name t
      (if t.val.isMountPoint then MountPointFound.set none t.val name else none) =
        kept none (met (t.visits name)) := by
    rw [resolve_eq h, visits_eq_cons t name, List.tail_cons, htop]
    cases hempty : t.val.isEmpty with
    | true =>
      rw [met_cons_of_empty hempty]
      rfl
    | false =>
      rw [met_cons_of_not hempty]
      rfl
  exact congrArg (fun last : Option MountPointFound => match last with
    | none => Except.error (Failure.serror 1416 0 .ENOENT)
    | some found => .ok found) hkept

/-! ## What is kept -/

/-- Of the deepest components that are met, one that is not coverable is preferred. -/
structure Preferred (l : List MountPointFound) (x : MountPointFound) : Prop where
  mem : x ∈ l
  covered : x.mc.isCoverable = true → ∀ y ∈ l, y.mc.isCoverable = true
  deepest : ∀ y ∈ l, y.mc.isCoverable = x.mc.isCoverable → x.unRes.length ≤ y.unRes.length

theorem kept_preferred {l : List MountPointFound}
    (hsorted : l.Pairwise fun x y => y.unRes.length < x.unRes.length)
    (hlinks : ∀ x ∈ l, x.mc.isSymLink = false) :
    l = [] ∧ kept none l = none ∨ ∃ x, kept none l = some x ∧ Preferred l x := by
  induction l using List.reverseRecOn with
  | nil => exact .inl ⟨rfl, rfl⟩
  | append_singleton l y ih =>
    right
    have hstep : kept none (l ++ [y]) = MountPointFound.set (kept none l) y.mc y.unRes := by
      unfold kept
      rw [List.foldl_append]
      rfl
    rw [List.pairwise_append] at hsorted
    obtain ⟨hbefore, -, hdeeper⟩ := hsorted
    have hlinky := hlinks y (List.mem_append_right _ (List.mem_singleton_self y))
    rw [hstep]
    rcases ih hbefore fun x hx => hlinks x (List.mem_append_left _ hx) with
      ⟨rfl, hnone⟩ | ⟨x, hx, hpref⟩
    · rw [hnone]
      refine ⟨y, rfl, List.mem_singleton_self y, ?_, ?_⟩
      · intro hy z hz
        rw [List.mem_singleton.1 hz]
        exact hy
      · intro z hz _
        rw [List.mem_singleton.1 hz]
    · rw [hx]
      unfold MountPointFound.set
      dsimp only
      by_cases hcover : x.mc.isCoverable = true ∨ y.mc.isCoverable = false
      · rw [if_pos (hcover.imp_right .inl)]
        refine ⟨y, rfl, List.mem_append_right _ (List.mem_singleton_self y), ?_, ?_⟩
        · intro hy z hz
          rcases List.mem_append.1 hz with hz | hz
          · apply hpref.covered _ z hz
            apply hcover.resolve_right
            exact fun hfalse => Bool.false_ne_true (hfalse.symm.trans hy)
          · rw [List.mem_singleton.1 hz]
            exact hy
        · intro z hz _
          rcases List.mem_append.1 hz with hz | hz
          · exact le_of_lt (hdeeper z hz y (List.mem_singleton_self y))
          · rw [List.mem_singleton.1 hz]
      · obtain ⟨hx', hy'⟩ := not_or.1 hcover
        rw [if_neg]
        · refine ⟨x, rfl, List.mem_append_left _ hpref.mem, fun h => absurd h hx', ?_⟩
          intro z hz hsame
          rcases List.mem_append.1 hz with hz | hz
          · exact hpref.deepest z hz hsame
          · rw [List.mem_singleton.1 hz] at hsame
            rw [Bool.not_eq_false] at hy'
            rw [hy'] at hsame
            exact absurd hsame.symm hx'
        · rintro (h | h | h)
          · exact hx' h
          · exact hy' h
          · rw [hlinky] at h
            cases h

/-! ## The tree against the table -/

theorem Agrees.linkless (h : Agrees regs t) : Linkless t := by
  intro q
  rw [h q]
  cases lastRegistration regs q with
  | none => rfl
  | some r => exact (compType_eq r).2.2.1

theorem Agrees.mem_met (h : Agrees regs t) {x : MountPointFound} :
    x ∈ met (t.visits name) ↔
      ∃ q reg, lastRegistration regs q = some reg ∧ name = q ++ x.unRes ∧ x.mc = reg.compType := by
  unfold met
  rw [List.mem_map]
  constructor
  · rintro ⟨y, hy, rfl⟩
    obtain ⟨hvisit, hempty⟩ := List.mem_filter.1 hy
    obtain ⟨q, hq, hlookup⟩ := PathTree.mem_visits.1 hvisit
    have htype : typeAt t q = y.1 := by
      unfold typeAt
      rw [hlookup]
      rfl
    rw [h q] at htype
    cases hlast : lastRegistration regs q with
    | none =>
      rw [hlast] at htype
      rw [← htype] at hempty
      cases hempty
    | some reg =>
      rw [hlast] at htype
      exact ⟨q, reg, hlast, hq, htype.symm⟩
  · rintro ⟨q, reg, hlast, hname, hmc⟩
    have htype := h q
    rw [hlast] at htype
    have hlookup : t.lookup q = some reg.compType := by
      unfold typeAt at htype
      cases hq : t.lookup q with
      | none =>
        rw [hq] at htype
        have hempty := (compType_eq reg).2.1
        change CompType.empty = reg.compType at htype
        rw [← htype] at hempty
        cases hempty
      | some v =>
        rw [hq] at htype
        exact congrArg some htype
    refine ⟨(reg.compType, x.unRes), List.mem_filter.2 ⟨?_, ?_⟩, ?_⟩
    · exact PathTree.mem_visits.2 ⟨q, hname, hlookup⟩
    · rw [(compType_eq reg).2.1]
      rfl
    · rw [← hmc]

theorem Agrees.lookup_cases (h : Agrees regs t) (name : List Component) (followLink : Bool) :
    ¬ Mounted regs name ∧ lookup t name followLink = .error (.serror 1416 0 .ENOENT) ∨
      ∃ q reg rest, Selected regs name q reg ∧ name = q ++ rest ∧
        lookup t name followLink = .ok ⟨reg.compType, rest⟩ := by
  have hsorted : (met (t.visits name)).Pairwise fun x y => y.unRes.length < x.unRes.length := by
    unfold met
    rw [List.pairwise_map]
    exact (PathTree.visits_sorted (t := t) (p := name)).filter _
  have hlinks : ∀ x ∈ met (t.visits name), x.mc.isSymLink = false := by
    intro x hx
    obtain ⟨q, reg, -, -, hmc⟩ := h.mem_met.1 hx
    rw [hmc]
    exact (compType_eq reg).2.2.1
  rw [lookup_eq h.linkless]
  rcases kept_preferred hsorted hlinks with ⟨hnil, hkept⟩ | ⟨x, hkept, hpref⟩
  · left
    rw [hkept]
    refine ⟨?_, rfl⟩
    rintro ⟨q, reg, hlast, rest, rfl⟩
    have hmem : (⟨reg.compType, rest⟩ : MountPointFound) ∈ met (t.visits (q ++ rest)) :=
      h.mem_met.2 ⟨q, reg, hlast, rfl, rfl⟩
    rw [hnil] at hmem
    cases hmem
  · right
    obtain ⟨mc, rest⟩ := x
    obtain ⟨q, reg, hlast, hname, hmc⟩ := h.mem_met.1 hpref.mem
    have hmc' : mc = reg.compType := hmc
    subst hmc'
    have hname' : name = q ++ rest := hname
    refine ⟨q, reg, rest, ⟨hlast, ⟨rest, hname'.symm⟩, ?_, ?_⟩, hname', by rw [hkept]⟩
    · rintro hcov q' reg' hlast' ⟨rest', hname''⟩
      have hmem : (⟨reg'.compType, rest'⟩ : MountPointFound) ∈ met (t.visits name) :=
        h.mem_met.2 ⟨q', reg', hlast', hname''.symm, rfl⟩
      exact (compType_eq reg').1.1 (hpref.covered ((compType_eq reg).1.2 hcov) _ hmem)
    · rintro q' reg' hlast' ⟨rest', hname''⟩ hsame
      have hmem : (⟨reg'.compType, rest'⟩ : MountPointFound) ∈ met (t.visits name) :=
        h.mem_met.2 ⟨q', reg', hlast', hname''.symm, rfl⟩
      have hcov : reg'.compType.isCoverable = reg.compType.isCoverable := by
        rw [Bool.eq_iff_iff, (compType_eq reg').1, (compType_eq reg).1]
        exact hsame
      have hle : rest.length ≤ rest'.length := hpref.deepest _ hmem hcov
      have hlength : (q' ++ rest').length = (q ++ rest).length := by
        rw [hname'', hname']
      rw [List.length_append, List.length_append] at hlength
      omega

theorem Selected.unique {q' : List Component} {reg' : Registration} (h : Selected regs name q reg)
    (h' : Selected regs name q' reg') : q = q' := by
  have hsame : reg'.isCoverable ≠ 0 ↔ reg.isCoverable ≠ 0 :=
    ⟨fun hcov => h'.covered hcov q reg h.last h.isPrefix,
      fun hcov => h.covered hcov q' reg' h'.last h'.isPrefix⟩
  have hle := h.longest q' reg' h'.last h'.isPrefix hsame
  have hge := h'.longest q reg h.last h.isPrefix hsame.symm
  obtain ⟨rest, hrest⟩ := h.isPrefix
  obtain ⟨rest', hrest'⟩ := h'.isPrefix
  exact (List.append_inj (hrest.trans hrest'.symm) (le_antisymm hge hle)).1

theorem lookupHandle_of_lookup {junk : Bytes.Buffer} {maxLen : ℕ}
    (h : lookup t name followLink = .ok ⟨reg.compType, rest⟩) :
    lookupHandle junk t name maxLen followLink =
      if PATH_MAX < size rest then .error (.serror 1413 0 .ENOMEM)
      else .ok ⟨appendPath reg.relPath maxLen rest, size rest, reg.oh⟩ := by
  have hloop : lookupMP junk t name maxLen followLink = .ok (name, ⟨reg.compType, rest⟩) := by
    unfold lookupMP lookupLoop
    rw [h]
    have hlink := (compType_eq reg).2.2.1
    dsimp only [bind, Except.bind]
    split
    · next data htype =>
      rw [htype] at hlink
      cases hlink
    · rfl
  unfold lookupHandle
  rw [hloop]
  dsimp only [bind, Except.bind]
  rw [(compType_eq reg).2.2.2.2]
  rfl

/-- A handle is looked up as the table says, where the rest of the name fits into `PATH_MAX`
bytes. -/
theorem Agrees.answers_iff (hagrees : Agrees regs t) (junk : Bytes.Buffer)
    (name : List Component) (maxLen : ℕ) (followLink : Bool) :
    Answers regs name maxLen (lookupHandle junk t name maxLen followLink) ↔
      ∀ q reg rest, Selected regs name q reg → name = q ++ rest → size rest ≤ PATH_MAX := by
  rcases hagrees.lookup_cases name followLink with
    ⟨hmounted, hlookup⟩ | ⟨q, reg, rest, hsel, hname, hlookup⟩
  · have hhandle : lookupHandle junk t name maxLen followLink =
        .error (.serror 1416 0 .ENOENT) := by
      unfold lookupHandle lookupMP lookupLoop
      rw [hlookup]
      rfl
    rw [hhandle]
    constructor
    · intro _ q reg rest hsel _
      exact absurd ⟨q, reg, hsel.last, hsel.isPrefix⟩ hmounted
    · intro _
      exact ⟨⟨fun _ => hmounted, fun _ => rfl⟩, fun h => absurd h hmounted⟩
  · have hmounted : Mounted regs name := ⟨q, reg, hsel.last, hsel.isPrefix⟩
    rw [lookupHandle_of_lookup hlookup]
    constructor
    · rintro ⟨-, hfound⟩ q' reg' rest' hsel' hname'
      have hq := hsel.unique hsel'
      subst hq
      have hrest : rest = rest' := List.append_cancel_left (hname.symm.trans hname')
      subst hrest
      obtain ⟨-, -, -, looked, -, -, hok, -⟩ := hfound hmounted
      by_contra hlarge
      rw [if_pos (not_le.1 hlarge)] at hok
      cases hok
    · intro hsmall
      rw [if_neg (not_lt.2 (hsmall q reg rest hsel hname))]
      refine ⟨⟨nofun, fun h => absurd hmounted h⟩, ?_⟩
      intro _
      refine ⟨q, reg, rest, _, hsel, hname, rfl, rfl, rfl, ?_⟩
      intro hfits
      exact if_neg (not_lt.2 hfits)

end Proofs

/-- A component is always found as the table says, a handle if and only if what remains of the name
has at most `PATH_MAX` bytes. -/
theorem lookup_answers_iff {regs : List Registration}
    (hshort : ∀ r ∈ regs, ∀ c ∈ r.mountPath, Short c) (junk : Bytes.Buffer)
    (name : List Component) (maxLen : ℕ) (followLink : Bool) :
    ∃ t, registerAll regs = .ok t ∧
      (¬ Mounted regs name ∧ lookup t name followLink = .error (.serror 1416 0 .ENOENT) ∨
        ∃ q reg rest, Selected regs name q reg ∧ name = q ++ rest ∧
          lookup t name followLink = .ok ⟨reg.compType, rest⟩) ∧
      (Answers regs name maxLen (lookupHandle junk t name maxLen followLink) ↔
        ∀ q reg rest, Selected regs name q reg → name = q ++ rest → size rest ≤ PATH_MAX) := by
  obtain ⟨t, ht, hagrees⟩ := registerAll_agrees hshort
  exact ⟨t, ht, hagrees.lookup_cases name followLink,
    hagrees.answers_iff junk name maxLen followLink⟩

/-- The root is mounted coverably, then `a` and, coverably, `a/b`. -/
def mounts : List Registration :=
  [⟨[], ⟨1, 1⟩, [], [], 1, 0⟩, ⟨[[97]], ⟨2, 2⟩, [[114]], [], 0, 0⟩,
    ⟨[[97], [98]], ⟨3, 3⟩, [], [], 1, 0⟩]

theorem lookup_answers_mounts : ∃ t, registerAll mounts = .ok t ∧
    Answers mounts [[97], [98], [99]] 64
      (lookupHandle (fun _ => 0) t [[97], [98], [99]] 64 true) := by
  have hshort : ∀ r ∈ mounts, ∀ c ∈ r.mountPath, Short c := by
    unfold Short
    decide
  obtain ⟨t, ht, -, hiff⟩ := lookup_answers_iff hshort (fun _ => 0) [[97], [98], [99]] 64 true
  refine ⟨t, ht, hiff.2 ?_⟩
  intro q reg rest _ hname
  have hsize : size q + size rest = 6 := by
    rw [← size_append, ← hname]
    rfl
  unfold PATH_MAX
  omega

/-- Only the root is mounted. -/
def rootMount : Registration := ⟨[], ⟨1, 1⟩, [], [], 0, 0⟩

/-- Four components with the bytes of a maximal path. -/
def maximalName : List Component := List.replicate 4 (List.replicate 255 97)

/-- There is a buffer for a maximal path, but it is not found. -/
theorem maximalName_not_found :
    size maximalName = PATH_MAX + 1 ∧ ∃ t, registerAll [rootMount] = .ok t ∧
      ¬ Answers [rootMount] maximalName (PATH_MAX + 1)
        (lookupHandle (fun _ => 0) t maximalName (PATH_MAX + 1) true) := by
  have hsize : size maximalName = PATH_MAX + 1 := by decide +kernel
  have hshort : ∀ r ∈ [rootMount], ∀ c ∈ r.mountPath, Short c := by
    unfold Short
    decide
  obtain ⟨t, ht, hagrees⟩ := registerAll_agrees hshort
  refine ⟨hsize, t, ht, ?_⟩
  rw [hagrees.answers_iff]
  have honly : ∀ q reg, lastRegistration [rootMount] q = some reg → q = [] ∧ reg = rootMount := by
    intro q reg hlast
    have hlast' : (if q = [] then some rootMount else none) = some reg := by
      rw [← hlast]
      exact (lastRegistration_append [] rootMount q).symm
    split at hlast'
    case isTrue hq => exact ⟨hq, (Option.some.inj hlast').symm⟩
    case isFalse => cases hlast'
  have hsel : Selected [rootMount] maximalName [] rootMount := by
    refine ⟨rfl, List.nil_prefix, fun h => absurd rfl h, ?_⟩
    intro q reg hlast _ _
    rw [(honly q reg hlast).1]
  intro hsmall
  have hle := hsmall [] rootMount maximalName hsel rfl
  rw [hsize] at hle
  exact absurd hle (Nat.not_succ_le_self _)

end MountPointMgrCommon

end K42
