import Mathlib.Algebra.Group.Nat.Defs
import Mathlib.Tactic.SplitIfs

/-!
# The construction of a region

`initRegion` stops the requests of the region, attaches it to the FCM of its file and to the list of
its process, and lets the requests run again. Each error undoes what has been done before, but for
two: a region with large pages that does not begin at a segment returns at once, and the status of
`unmapRange` is returned for a region that has been attached.
-/

namespace K42.RegionInit

inductive Gate
  | running
  | stopped
  | shutdown
deriving DecidableEq

/-- `fcm` says whether the FCM has the region, and `list` at which range the process has it. -/
structure Region where
  gate : Gate
  fcm : Bool
  list : Option (ℕ × ℕ)
  regionVaddr : ℕ
  regionSize : ℕ
  attachSize : ℕ

structure Args where
  vaddr : ℕ
  vaddr2 : ℕ
  size : ℕ
  frRef : Bool
  useVaddr : Bool
  skipProcessAttach : Bool

/-- What the calls return. `attachProcess` is for the three ways to attach, with the address
that the process allocates. -/
structure Outcome where
  getPM : Bool
  getHATProcess : Bool
  attachFCM : Bool
  pageSize : ℕ
  sharedSegments : Bool
  attachProcess : Option ℕ
  unmapRange : Bool

def roundDown (unit n : ℕ) : ℕ := n / unit * unit

def roundUp (unit n : ℕ) : ℕ := (n + (unit - 1)) % 2 ^ 64 / unit * unit

def PAGE_SIZE : ℕ := 4096

def SEGMENT_SIZE : ℕ := 2 ^ 28

/-- The FCM uses large pages. -/
def Outcome.large (a : Args) (o : Outcome) : Bool := a.frRef && o.pageSize ≠ PAGE_SIZE

/-- The region, and the status so far: that of `getHATProcess` if nothing is attached. -/
def attachProcess (a : Args) (o : Outcome) (r : Region) : Region × Bool :=
  if a.skipProcessAttach then (r, a.frRef || o.getHATProcess)
  else
    match o.attachProcess with
    | none => (r, false)
    | some vaddr =>
      let r := if a.useVaddr then r else { r with regionVaddr := vaddr }
      ({ r with list := some (r.regionVaddr, r.attachSize) }, true)

/-- Some full segments are unmapped, so that shared mappings can be used. -/
def unmaps (a : Args) (o : Outcome) (r : Region) : Bool :=
  !a.skipProcessAttach && a.frRef && o.sharedSegments &&
    roundUp SEGMENT_SIZE r.regionVaddr <
      roundDown SEGMENT_SIZE ((r.regionVaddr + r.regionSize) % 2 ^ 64)

/-- The region, and whether the status is a success. -/
def initRegion (a : Args) (o : Outcome) (r : Region) : Region × Bool :=
  if !o.getPM then (r, false)
  else
    let size := roundUp PAGE_SIZE a.size
    let r := { r with
      gate := .stopped, regionVaddr := a.vaddr, regionSize := size, attachSize := size }
    -- `restart`, and then `destroy`
    if a.frRef && !o.attachFCM then ({ r with gate := .shutdown }, false)
    else
      let r := { r with
        fcm := a.frRef
        attachSize := if o.large a then roundUp SEGMENT_SIZE size else size }
      if o.large a && a.useVaddr && roundDown SEGMENT_SIZE r.regionVaddr ≠ r.regionVaddr then
        (r, false)
      else
        let (r, ok) := attachProcess a o r
        if !ok then ({ r with fcm := false, gate := .running }, false)
        else ({ r with gate := .running }, !unmaps a o r || o.unmapRange)

/-- A region before it is attached. -/
structure Fresh (r : Region) : Prop where
  gate : r.gate = .running
  fcm : r.fcm = false
  list : r.list = none

/-- An error leaves nothing attached and nothing stopped; after a success the region is attached to
the FCM, if it has a file, and to the process, if that is not left out, at its own range. -/
def Clean (a : Args) (result : Region × Bool) : Prop :=
  if result.2 then
    result.1.fcm = a.frRef ∧
    (a.skipProcessAttach = false →
      result.1.list = some (result.1.regionVaddr, result.1.attachSize)) ∧
    result.1.gate = .running
  else result.1.gate ≠ .stopped ∧ result.1.fcm = false ∧ result.1.list = none

/-- A region with large pages is to begin at an address that is not that of a segment. -/
def Unaligned (a : Args) (o : Outcome) : Prop :=
  o.getPM ∧ a.frRef ∧ o.attachFCM ∧ o.pageSize ≠ PAGE_SIZE ∧ a.useVaddr ∧
    roundDown SEGMENT_SIZE a.vaddr ≠ a.vaddr

/-- The full segments of an attached region are not unmapped. -/
def UnmapFails (a : Args) (o : Outcome) : Prop :=
  o.getPM ∧ a.frRef ∧ o.attachFCM ∧ a.skipProcessAttach = false ∧ o.sharedSegments ∧
    o.unmapRange = false ∧ ∃ vaddr, o.attachProcess = some vaddr ∧
      let at' := if a.useVaddr then a.vaddr else vaddr
      roundUp SEGMENT_SIZE at' < roundDown SEGMENT_SIZE ((at' + roundUp PAGE_SIZE a.size) % 2 ^ 64)

variable {a : Args} {o : Outcome} {r : Region}

/-- Attaching to the process, from a region that is attached to its FCM. -/
theorem clean_attach (hlist : r.list = none) (hfcm : r.fcm = a.frRef) :
    let s := attachProcess a o r
    Clean a (if !s.2 then ({ s.1 with fcm := false, gate := .running }, false)
      else ({ s.1 with gate := .running }, !unmaps a o s.1 || o.unmapRange)) ↔
    ¬ (a.frRef ∧ a.skipProcessAttach = false ∧ o.sharedSegments ∧ o.unmapRange = false ∧
      ∃ vaddr, o.attachProcess = some vaddr ∧
        let at' := if a.useVaddr then r.regionVaddr else vaddr
        roundUp SEGMENT_SIZE at' < roundDown SEGMENT_SIZE ((at' + r.regionSize) % 2 ^ 64)) := by
  unfold attachProcess unmaps Clean
  cases hskip : a.skipProcessAttach with
  | true => cases hfr : a.frRef <;> cases hhat : o.getHATProcess <;> simp_all
  | false =>
    cases hattach : o.attachProcess with
    | none => simp [hlist]
    | some vaddr =>
      cases huse : a.useVaddr <;> cases hfr : a.frRef <;> cases hshared : o.sharedSegments <;>
        cases hunmap : o.unmapRange <;> simp_all

/-- **Construction fails cleanly** just if no large region begins inside of a segment and no
`unmapRange` fails. -/
theorem initRegion_clean_iff (h : Fresh r) :
    Clean a (initRegion a o r) ↔ ¬ Unaligned a o ∧ ¬ UnmapFails a o := by
  unfold initRegion Unaligned UnmapFails
  cases hpm : o.getPM with
  | false => simp [Clean, h.gate, h.fcm, h.list]
  | true =>
    cases hattach : a.frRef && !o.attachFCM with
    | true =>
      obtain ⟨hfr, hfcm⟩ := Bool.and_eq_true_iff.mp hattach
      simp [Clean, h.fcm, h.list] at hfcm ⊢
      simp [hfcm]
    | false =>
      simp only [Bool.not_true, Bool.false_eq_true, if_false]
      cases hlarge : o.large a && a.useVaddr && roundDown SEGMENT_SIZE a.vaddr ≠ a.vaddr with
      | true =>
        obtain ⟨⟨hl, huse⟩, haddr⟩ : (o.large a ∧ a.useVaddr) ∧
            roundDown SEGMENT_SIZE a.vaddr ≠ a.vaddr := by simpa using hlarge
        obtain ⟨hfr, hsize⟩ : a.frRef ∧ o.pageSize ≠ PAGE_SIZE := by
          simpa [Outcome.large] using hl
        have hfcm : o.attachFCM := by simpa [hfr] using hattach
        simp [huse, haddr, hfr, hsize, hfcm, Clean]
      | false =>
        have hal : ¬ (a.frRef ∧ o.attachFCM ∧ o.pageSize ≠ PAGE_SIZE ∧ a.useVaddr ∧
            roundDown SEGMENT_SIZE a.vaddr ≠ a.vaddr) := by
          rintro ⟨hfr, -, hsize, huse, haddr⟩
          simp [Outcome.large, hfr, hsize, huse, haddr] at hlarge
        have hfcm (hfr : a.frRef) : o.attachFCM := by simpa [hfr] using hattach
        simp only [true_and, hal, not_false_eq_true]
        refine (clean_attach (o := o) ?_ ?_).trans (not_congr ⟨?_, ?_⟩)
        · exact h.list
        · rfl
        · exact fun ⟨hfr, hrest⟩ ↦ ⟨hfr, hfcm hfr, hrest⟩
        · exact fun ⟨hfr, _, hrest⟩ ↦ ⟨hfr, hrest⟩

/-- A region of one page at an address of the program's own. -/
theorem initRegion_clean_page :
    let a : Args := ⟨4096, 0, 100, true, true, false⟩
    let o : Outcome := ⟨true, true, true, PAGE_SIZE, true, some 4096, true⟩
    Clean a (initRegion a o ⟨.running, false, none, 0, 0, 0⟩) :=
  (initRegion_clean_iff ⟨rfl, rfl, rfl⟩).mpr
    ⟨fun h ↦ h.2.2.2.1 rfl, fun h ↦ Bool.noConfusion h.2.2.2.2.2.1⟩

/-- A region with large pages in the middle of a segment: the error leaves its requests stopped,
and the region attached to the FCM. -/
theorem not_initRegion_clean :
    ¬ ∀ (a : Args) (o : Outcome) (r : Region), Fresh r → Clean a (initRegion a o r) := by
  intro h
  have := h ⟨4096, 0, 100, true, true, false⟩ ⟨true, true, true, 2 ^ 24, false, some 0, true⟩
    ⟨.running, false, none, 0, 0, 0⟩ ⟨rfl, rfl, rfl⟩
  exact this.1 (by decide +kernel)

end K42.RegionInit
