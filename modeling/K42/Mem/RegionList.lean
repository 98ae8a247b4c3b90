import K42.Lib.Run
import K42.Lib.Word
import K42.Lib.Interval
import K42.Sys.SysStatus
import Mathlib.Data.List.Find

/-!
# The list of regions of a process

`RegionList` keeps a singly linked list of region holders, one for each range of
virtual addresses given to a region. Pointers into the list are indices here;
`new` is the creation of a list cell and `delete` its removal. The lock is held
over each operation, so an operation is one step.

A reservation, wherever its search stops, puts one new holder between a prefix
and a suffix of the list (`Inserted`); every other operation removes holders or
trims one. The invariant follows from these two shapes alone.
-/

namespace K42.RegionList

open MachineWord Interval

/-! ## Data model -/

/-- The fork behaviour a `RegionType::Type` names. -/
inductive ForkType
  | none | forkCopy | newCRW | useSame | mip
deriving DecidableEq

/-- `RegionType::Type`: a fork behaviour and the `KeepOnExec` bit. -/
structure RegionType where
  fork : ForkType
  keepOnExec : Bool
deriving DecidableEq

/-- `FreeOnExec`, the zero of the enumeration. -/
def RegionType.freeOnExec : RegionType := ⟨.none, false⟩

/-- A reference to a region object; `0` is the null reference. -/
abbrev RegionRef := ℕ

structure RegionHolder where
  type : RegionType
  vaddr : ℕ
  size : ℕ
  reg : RegionRef
deriving DecidableEq

/-- The constructor: no region is attached yet. -/
def RegionHolder.new (vmbase isize : ℕ) : RegionHolder :=
  ⟨.freeOnExec, vmbase, isize, 0⟩

def RegionHolder.attachRegion (h : RegionHolder) (r : RegionRef)
    (regionType : RegionType) : RegionHolder :=
  { h with type := regionType, reg := r }

/-- `vaddr + size`, as the code computes it. -/
def RegionHolder.bound (h : RegionHolder) : ℕ := add 64 h.vaddr h.size

end RegionList

structure RegionList where
  regions : List RegionList.RegionHolder
  regionsStart : ℕ
  regionsAllocStart : ℕ
  regionsEnd : ℕ
deriving DecidableEq

namespace RegionList

open MachineWord Interval
open Except (ok)

/-! ## Lookup -/

/-- `vaddrToRegion`: the region of the first holder whose range has `vaddr`. -/
def vaddrToRegion (rl : RegionList) (vaddr : ℕ) : Except Failure RegionRef :=
  match rl.regions.find? (fun r => decide (r.vaddr ≤ vaddr ∧ vaddr < r.bound)) with
  | some r => .ok r.reg
  | none => .error (.serror 1485 100 .EINVAL)

/-! ## Reservation at a fixed address -/

/-- The walk of `reserveFixedSpace` from `reg`, which starts below `vmbase`.
Returns the list and the index of the new holder in it. -/
def reserveFixedAfter (size vmbase regionsEnd : ℕ) (reg : RegionHolder) :
    List RegionHolder → Except Failure (List RegionHolder × ℕ)
  | [] =>
    if reg.bound > vmbase then .error (.serror 1491 10 .EINVAL)
    else if vmbase ≥ regionsEnd ∨ size > regionsEnd - vmbase then
      .error (.serror 1492 10 .EINVAL)
    else .ok ([reg, .new vmbase size], 1)
  | next :: rest =>
    if reg.bound > vmbase then .error (.serror 1491 10 .EINVAL)
    else if next.vaddr > vmbase then
      if size > next.vaddr - vmbase then .error (.serror 1493 10 .EINVAL)
      else .ok (reg :: .new vmbase size :: next :: rest, 1)
    else
      (reserveFixedAfter size vmbase regionsEnd next rest).map
        (fun p => (reg :: p.1, p.2 + 1))

def reserveFixedSpace (rl : RegionList) (size vmbase : ℕ) :
    Except Failure (RegionList × ℕ) :=
  if size = 0 ∨ size &&& MIN_PAGE_MASK ≠ 0 then .error (.serror 1487 10 .EINVAL)
  else if vmbase < rl.regionsStart then .error (.serror 1488 10 .EINVAL)
  else
    match rl.regions with
    | [] =>
      if vmbase ≥ rl.regionsEnd ∨ rl.regionsEnd - vmbase < size then
        .error (.serror 1489 10 .EINVAL)
      else .ok ({ rl with regions := [.new vmbase size] }, 0)
    | reg :: rest =>
      if reg.vaddr ≥ vmbase then
        if size > reg.vaddr - vmbase then .error (.serror 1490 10 .EINVAL)
        else .ok ({ rl with regions := .new vmbase size :: reg :: rest }, 0)
      else
        (reserveFixedAfter size vmbase rl.regionsEnd reg rest).map
          (fun p => ({ rl with regions := p.1 }, p.2))

/-! ## Reservation anywhere in a range -/

/-- `DFLT_ALIGNMENT`. -/
abbrev DFLT_ALIGNMENT : ℕ := PAGE_SIZE

/-- The alignment `reserveSomeSpace` works with. -/
def effAlignment (alignment : ℕ) : ℕ := if alignment = 0 then DFLT_ALIGNMENT else alignment

/-- Where the hole after `reg` starts for an aligned request in the range. -/
def holeStart (rangeStart alignment : ℕ) (reg : RegionHolder) : ℕ :=
  alignUp 64 (if reg.bound < rangeStart then rangeStart else reg.bound) alignment

/-- Where the hole after `reg` ends: at the next holder or the end of the range. -/
def holeEnd (rangeEnd : ℕ) : List RegionHolder → ℕ
  | [] => rangeEnd
  | next :: _ => if next.vaddr > rangeEnd then rangeEnd else next.vaddr

/-- The search of `reserveSomeSpace` for a hole after `reg` or later. -/
def reserveSomeAfter (size rangeStart rangeEnd alignment : ℕ) (reg : RegionHolder) :
    List RegionHolder → Except Failure (List RegionHolder × ℕ)
  | [] =>
    if holeEnd rangeEnd [] > holeStart rangeStart alignment reg ∧
        holeEnd rangeEnd [] - holeStart rangeStart alignment reg ≥ size then
      .ok ([reg, .new (holeStart rangeStart alignment reg) size], 1)
    else .error .passert
  | next :: rest =>
    -- the hole lies entirely before the range
    if next.vaddr < rangeStart then
      (reserveSomeAfter size rangeStart rangeEnd alignment next rest).map
        (fun p => (reg :: p.1, p.2 + 1))
    else if holeEnd rangeEnd (next :: rest) > holeStart rangeStart alignment reg ∧
        holeEnd rangeEnd (next :: rest) - holeStart rangeStart alignment reg ≥ size then
      .ok (reg :: .new (holeStart rangeStart alignment reg) size :: next :: rest, 1)
    else
      (reserveSomeAfter size rangeStart rangeEnd alignment next rest).map
        (fun p => (reg :: p.1, p.2 + 1))

def reserveSomeSpace (rl : RegionList) (size rangeStart rangeEnd alignment : ℕ) :
    Except Failure (RegionList × ℕ) :=
  if size = 0 ∨ size &&& MIN_PAGE_MASK ≠ 0 then .error (.serror 1494 10 .EINVAL)
  else if alignment ≠ 0 ∧ alignment &&& MIN_PAGE_MASK ≠ 0 then
    .error (.serror 1495 10 .EINVAL)
  else
    let align := effAlignment alignment
    let vmbase := alignUp 64 rangeStart align
    if vmbase ≥ rangeEnd ∨ size > rangeEnd - vmbase then .error (.serror 1496 10 .EINVAL)
    else
      match rl.regions with
      | [] =>
        if vmbase ≥ rangeEnd ∨ rangeEnd - vmbase < size then
          .error (.serror 1497 10 .EINVAL)
        else .ok ({ rl with regions := [.new vmbase size] }, 0)
      | reg :: rest =>
        if reg.vaddr > vmbase ∧ reg.vaddr - vmbase ≥ size then
          .ok ({ rl with regions := .new vmbase size :: reg :: rest }, 0)
        else
          (reserveSomeAfter size vmbase rangeEnd align reg rest).map
            (fun p => ({ rl with regions := p.1 }, p.2))

/-! ## Attaching -/

/-- `tmp->attachRegion(reg, regionType)` on the holder at index `i`. -/
def attachAt (rl : RegionList) (i : ℕ) (reg : RegionRef) (regionType : RegionType) :
    RegionList :=
  { rl with regions := rl.regions.modify i (·.attachRegion reg regionType) }

/-- `locked_attachFixedRegion`. -/
def attachFixedRegion (rl : RegionList) (vaddr size : ℕ) (reg : RegionRef)
    (regionType : RegionType) : Except Failure RegionList :=
  (rl.reserveFixedSpace size vaddr).map (fun p => p.1.attachAt p.2 reg regionType)

def attachDynamicRegion (rl : RegionList) (size : ℕ) (reg : RegionRef)
    (regionType : RegionType) (alignment : ℕ) : Except Failure RegionList :=
  (rl.reserveSomeSpace size rl.regionsAllocStart rl.regionsEnd alignment).map
    (fun p => p.1.attachAt p.2 reg regionType)

/-- `attachWithinRangeRegion`: the range is clamped to the bounds of the list,
and the default alignment is a page. -/
def attachWithinRangeRegion (rl : RegionList) (vaddr vaddr2 size : ℕ) (reg : RegionRef)
    (regionType : RegionType) (alignment : ℕ) : Except Failure RegionList :=
  (rl.reserveSomeSpace size
      (if vaddr < rl.regionsStart then rl.regionsStart else vaddr)
      (if vaddr2 > rl.regionsEnd then rl.regionsEnd else vaddr2)
      (if alignment = 0 then PAGE_SIZE else alignment)).map
    (fun p => p.1.attachAt p.2 reg regionType)

/-! ## Detaching, truncation and exec -/

def detachRegion (rl : RegionList) (r : RegionRef) : Except Failure RegionList :=
  if rl.regions.any (fun rh => rh.reg = r) then
    .ok { rl with regions := rl.regions.eraseP (fun rh => rh.reg = r) }
  else .error (.serror 1059 0 .EINVAL)

/-- The walk of `locked_truncate`. Returns the list and the region found. -/
def truncateWalk (start size : ℕ) :
    List RegionHolder → Except Failure (List RegionHolder × RegionRef)
  | [] => .error (.serror 2357 0 .EINVAL)
  | rh :: rest =>
    if rh.vaddr ≤ start ∧ rh.bound ≥ add 64 start size then
      if rh.vaddr = start ∧ rh.size = size then .ok (rest, rh.reg)
      else if rh.vaddr = start then
        .ok ({ rh with size := sub 64 rh.size size, vaddr := add 64 rh.vaddr size } ::
          rest, rh.reg)
      else if rh.bound = add 64 start size then
        .ok ({ rh with size := sub 64 rh.size size } :: rest, rh.reg)
      else .error (.serror 2356 0 .EINVAL)
    else (truncateWalk start size rest).map (fun p => (rh :: p.1, p.2))

/-- `locked_truncate`. -/
def truncate (rl : RegionList) (start size : ℕ) : Except Failure (RegionList × RegionRef) :=
  (truncateWalk start size rl.regions).map (fun p => ({ rl with regions := p.1 }, p.2))

/-- `truncateAndInsertInPlace`: once the truncation has worked, a failing insert
is a failed assertion. -/
def truncateAndInsertInPlace (rl : RegionList) (truncVaddr truncSize newVaddr1 newSize1 : ℕ)
    (newReg1 : RegionRef) (newType1 : RegionType) (newVaddr2 newSize2 : ℕ)
    (newReg2 : RegionRef) (newType2 : RegionType) : Except Failure RegionList :=
  match rl.truncate truncVaddr truncSize with
  | .error e => .error e
  | .ok (rl1, _) =>
    match rl1.attachFixedRegion newVaddr1 newSize1 newReg1 newType1 with
    | .error _ => .error .passert
    | .ok rl2 =>
      if newReg2 = 0 then .ok rl2
      else
        match rl2.attachFixedRegion newVaddr2 newSize2 newReg2 newType2 with
        | .error _ => .error .passert
        | .ok rl3 => .ok rl3

/-- The callback a region makes when it is destroyed; it fails silently. -/
def destroyRegion (rl : RegionList) (r : RegionRef) : RegionList :=
  match rl.detachRegion r with
  | .ok rl' => rl'
  | .error _ => rl

/-- `preExec`: unchain the holders that are not kept, then destroy their regions
in list order. -/
def preExec (rl : RegionList) : RegionList :=
  ((rl.regions.filter (fun h => !h.type.keepOnExec)).map (·.reg)).foldl destroyRegion
    { rl with regions := rl.regions.filter (fun h => h.type.keepOnExec) }

/-! ## Operations and the invariant -/

/-- The calls on a region list. -/
inductive Op
  | reserveFixedSpace (size vmbase : ℕ)
  | reserveSomeSpace (size rangeStart rangeEnd alignment : ℕ)
  | attachFixedRegion (vaddr size : ℕ) (reg : RegionRef) (type : RegionType)
  | attachDynamicRegion (size : ℕ) (reg : RegionRef) (type : RegionType) (alignment : ℕ)
  | attachWithinRangeRegion (vaddr vaddr2 size : ℕ) (reg : RegionRef) (type : RegionType)
      (alignment : ℕ)
  | detachRegion (reg : RegionRef)
  | truncate (start size : ℕ)
  | truncateAndInsertInPlace (truncVaddr truncSize newVaddr1 newSize1 : ℕ)
      (newReg1 : RegionRef) (newType1 : RegionType) (newVaddr2 newSize2 : ℕ)
      (newReg2 : RegionRef) (newType2 : RegionType)
  | preExec
deriving DecidableEq

/-- The list after a call: a call that fails leaves it as it was (a failed
assertion halts the system, so there is no later call). -/
def orSelf (rl : RegionList) : Except Failure RegionList → RegionList
  | .ok rl' => rl'
  | .error _ => rl

def step (rl : RegionList) : Op → RegionList
  | .reserveFixedSpace size vmbase => rl.orSelf ((rl.reserveFixedSpace size vmbase).map (·.1))
  | .reserveSomeSpace size rangeStart rangeEnd alignment =>
    rl.orSelf ((rl.reserveSomeSpace size rangeStart rangeEnd alignment).map (·.1))
  | .attachFixedRegion vaddr size reg type =>
    rl.orSelf (rl.attachFixedRegion vaddr size reg type)
  | .attachDynamicRegion size reg type alignment =>
    rl.orSelf (rl.attachDynamicRegion size reg type alignment)
  | .attachWithinRangeRegion vaddr vaddr2 size reg type alignment =>
    rl.orSelf (rl.attachWithinRangeRegion vaddr vaddr2 size reg type alignment)
  | .detachRegion reg => rl.orSelf (rl.detachRegion reg)
  | .truncate start size => rl.orSelf ((rl.truncate start size).map (·.1))
  | .truncateAndInsertInPlace tv ts v1 s1 r1 t1 v2 s2 r2 t2 =>
    rl.orSelf (rl.truncateAndInsertInPlace tv ts v1 s1 r1 t1 v2 s2 r2 t2)
  | .preExec => rl.preExec

/-- A page-aligned address. -/
def PageAligned (a : ℕ) : Prop := a % PAGE_SIZE = 0

/-- A page-aligned range of addresses that does not wrap. -/
def RangeArg (vaddr size : ℕ) : Prop :=
  PageAligned vaddr ∧ PageAligned size ∧ vaddr + size < UVAL

/-- An alignment that carries none of the addresses it is applied to past the
end of the address space. -/
def AlignArg (rl : RegionList) (rangeStart alignment : ℕ) : Prop :=
  PageAligned alignment ∧ alignment < UVAL ∧ rangeStart + effAlignment alignment ≤ UVAL ∧
    ∀ h ∈ rl.regions, h.vaddr + h.size + effAlignment alignment ≤ UVAL

/-- Page-aligned arguments that do not wrap. The internal `reserveSomeSpace` is
called with a range inside the bounds of the list. -/
def Admissible (rl : RegionList) : Op → Prop
  | .reserveFixedSpace size vmbase => RangeArg vmbase size
  | .reserveSomeSpace size rangeStart rangeEnd alignment =>
    PageAligned size ∧ AlignArg rl rangeStart alignment ∧
      rl.regionsStart ≤ rangeStart ∧ rangeEnd ≤ rl.regionsEnd
  | .attachFixedRegion vaddr size _ _ => RangeArg vaddr size
  | .attachDynamicRegion size _ _ alignment =>
    PageAligned size ∧ AlignArg rl rl.regionsAllocStart alignment
  | .attachWithinRangeRegion vaddr _ size _ _ alignment =>
    PageAligned size ∧ AlignArg rl (max vaddr rl.regionsStart) alignment
  | .detachRegion _ => True
  | .truncate start size => RangeArg start size
  | .truncateAndInsertInPlace tv ts v1 s1 _ _ v2 s2 _ _ =>
    RangeArg tv ts ∧ RangeArg v1 s1 ∧ RangeArg v2 s2
  | .preExec => True

instance (vaddr size : ℕ) : Decidable (RangeArg vaddr size) :=
  inferInstanceAs (Decidable (vaddr % PAGE_SIZE = 0 ∧ size % PAGE_SIZE = 0 ∧ _))

instance (rl : RegionList) (rangeStart alignment : ℕ) :
    Decidable (AlignArg rl rangeStart alignment) :=
  inferInstanceAs (Decidable (alignment % PAGE_SIZE = 0 ∧ _ ∧ _ ∧ ∀ h ∈ rl.regions, _))

instance (size : ℕ) : Decidable (PageAligned size) :=
  inferInstanceAs (Decidable (size % PAGE_SIZE = 0))

instance (rl : RegionList) : ∀ op, Decidable (Admissible rl op)
  | .reserveFixedSpace size vmbase => inferInstanceAs (Decidable (RangeArg vmbase size))
  | .reserveSomeSpace .. | .attachDynamicRegion .. | .attachWithinRangeRegion ..
  | .truncateAndInsertInPlace .. => inferInstanceAs (Decidable (_ ∧ _))
  | .attachFixedRegion vaddr size _ _ => inferInstanceAs (Decidable (RangeArg vaddr size))
  | .detachRegion _ | .preExec => isTrue trivial
  | .truncate start size => inferInstanceAs (Decidable (RangeArg start size))

def machine : Machine RegionList Op := ⟨step, Admissible⟩

instance (rl : RegionList) (op : Op) : Decidable (machine.adm rl op) :=
  inferInstanceAs (Decidable (Admissible rl op))

/-- The first address after the holder's range. -/
def RegionHolder.stop (h : RegionHolder) : ℕ := h.vaddr + h.size

/-- Nonempty disjoint ascending ranges inside `[lo, hi)`. -/
def Ordered (lo hi : ℕ) (l : List RegionHolder) : Prop :=
  Spaced RegionHolder.vaddr RegionHolder.stop 0 l ∧
    ∀ h ∈ l, lo ≤ h.vaddr ∧ h.stop ≤ hi

/-- The representation invariant. The bounds are those `setRegionsBounds` was
given: addresses, the lowest allocatable one not below the lowest one. -/
structure Inv (rl : RegionList) : Prop where
  ordered : Ordered rl.regionsStart rl.regionsEnd rl.regions
  allocStart : rl.regionsStart ≤ rl.regionsAllocStart
  regionsEnd : rl.regionsEnd < UVAL

theorem bound_eq_stop {h : RegionHolder} (hs : h.stop < UVAL) : h.bound = h.stop :=
  add_of_lt hs

variable {lo hi base size i alignment rangeStart : ℕ} {l l' : List RegionHolder} {r : RegionHolder}
  {rl rl' : RegionList}

theorem Ordered.bound_eq (ho : Ordered lo hi l)
    (hhi : hi < UVAL) {h : RegionHolder} (hm : h ∈ l) : h.bound = h.stop :=
  bound_eq_stop (lt_of_le_of_lt (ho.2 h hm).2 hhi)

theorem Ordered.tail (ho : Ordered lo hi (r :: l)) : Ordered lo hi l :=
  ⟨(Spaced.cons_iff.mp ho.1).2.1, fun h hm => ho.2 h (List.mem_cons_of_mem _ hm)⟩

theorem Ordered.sublist (ho : Ordered lo hi l) (hsub : l'.Sublist l) : Ordered lo hi l' :=
  ⟨ho.1.sublist hsub, fun h hm => ho.2 h (hsub.subset hm)⟩

/-! ## Reservations put one holder into the list -/

/-- `l'` is `l` with a new holder for `[base, base + size)` at index `i`, in
order, and the new range is nonempty and inside `[lo, hi)`. -/
def Inserted (lo hi base size : ℕ) (l l' : List RegionHolder) (i : ℕ) : Prop :=
  0 < size ∧ lo ≤ base ∧ base + size ≤ hi ∧
    ∃ pre post, l = pre ++ post ∧ l' = pre ++ .new base size :: post ∧ i = pre.length ∧
      (∀ a ∈ pre, a.stop ≤ base) ∧ ∀ b ∈ post, base + size ≤ b.vaddr

theorem Inserted.cons (h : Inserted lo hi base size l l' i) (hr : r.stop ≤ base) :
    Inserted lo hi base size (r :: l) (r :: l') (i + 1) := by
  obtain ⟨hs, hlo, hhi, pre, post, rfl, rfl, rfl, hpre, hpost⟩ := h
  refine ⟨hs, hlo, hhi, r :: pre, post, rfl, rfl, rfl, ?_, hpost⟩
  intro a ha
  rcases List.mem_cons.mp ha with rfl | ha
  · exact hr
  · exact hpre a ha

theorem modify_length_append (pre : List RegionHolder) (x : RegionHolder)
    (post : List RegionHolder) (f : RegionHolder → RegionHolder) :
    (pre ++ x :: post).modify pre.length f = pre ++ f x :: post := by
  induction pre with
  | nil => rfl
  | cons a pre ih => simpa using ih

/-- **A reservation keeps the order**, whatever is then attached to it. -/
theorem Inserted.ordered_modify (h : Inserted lo hi base size l l' i) (ho : Ordered lo hi l)
    {f : RegionHolder → RegionHolder} (hv : ∀ x, (f x).vaddr = x.vaddr)
    (hz : ∀ x, (f x).size = x.size) : Ordered lo hi (l'.modify i f) := by
  obtain ⟨hs, hlo, hhi, pre, post, rfl, rfl, rfl, hpre, hpost⟩ := h
  have hstart : (f (RegionHolder.new base size)).vaddr = base := hv _
  have hstop : (f (RegionHolder.new base size)).stop = base + size := by
    rw [RegionHolder.stop, hv, hz]
    rfl
  rw [modify_length_append]
  refine ⟨ho.1.insert ?_ ?_ ?_, ?_⟩
  · omega
  · intro a ha
    have := hpre a ha
    omega
  · intro b hb
    have := hpost b hb
    omega
  · intro x hx
    rcases List.mem_append.mp hx with hx | hx
    · exact ho.2 x (List.mem_append_left _ hx)
    · rcases List.mem_cons.mp hx with rfl | hx
      · omega
      · exact ho.2 x (List.mem_append_right _ hx)

theorem Inserted.ordered
    (h : Inserted lo hi base size l l' i) (ho : Ordered lo hi l) : Ordered lo hi l' := by
  have := h.ordered_modify ho (f := id) (fun _ => rfl) (fun _ => rfl)
  simpa using this

theorem Ordered.le_vaddr {x : ℕ}
    (ho : Ordered lo hi (r :: l)) (hx : x ≤ r.vaddr) : ∀ b ∈ r :: l, x ≤ b.vaddr := by
  intro b hb
  rcases List.mem_cons.mp hb with rfl | hb
  · exact hx
  · have hpos := ho.1.pos r (by simp)
    have := (Spaced.cons_iff.mp ho.1).2.2 b hb
    omega

theorem inserted_front (hs : 0 < size)
    (hlo : lo ≤ base) (hhi : base + size ≤ hi) (hl : ∀ b ∈ l, base + size ≤ b.vaddr) :
    Inserted lo hi base size l (.new base size :: l) 0 :=
  ⟨hs, hlo, hhi, [], l, rfl, rfl, rfl, by simp, hl⟩

theorem inserted_after
    (hs : 0 < size) (hlo : lo ≤ base) (hhi : base + size ≤ hi) (hr : r.stop ≤ base)
    (hl : ∀ b ∈ l, base + size ≤ b.vaddr) :
    Inserted lo hi base size (r :: l) (r :: .new base size :: l) 1 :=
  (inserted_front hs hlo hhi hl).cons hr

theorem reserveFixedAfter_spec {lo hi size vmbase : ℕ} (hhi : hi < UVAL) (hs : 0 < size)
    (hlo : lo ≤ vmbase) : ∀ {rest : List RegionHolder} {reg : RegionHolder}
    {l' : List RegionHolder} {i : ℕ}, Ordered lo hi (reg :: rest) →
    reserveFixedAfter size vmbase hi reg rest = .ok (l', i) →
    Inserted lo hi vmbase size (reg :: rest) l' i
  | [], reg, l', i, ho, h => by
    have hb := ho.bound_eq hhi (List.mem_cons_self (a := reg))
    rw [reserveFixedAfter] at h
    split_ifs at h with h1 h2
    obtain ⟨rfl, rfl⟩ := Prod.mk.inj (ok.inj h)
    exact inserted_after hs hlo (by omega) (by omega) (by simp)
  | next :: rest, reg, l', i, ho, h => by
    have hb := ho.bound_eq hhi (List.mem_cons_self (a := reg))
    rw [reserveFixedAfter] at h
    split_ifs at h with h1 h2 h3
    · obtain ⟨rfl, rfl⟩ := Prod.mk.inj (ok.inj h)
      have hnext := (ho.2 next (by simp)).2
      have hpos := ho.1.pos next (by simp)
      exact inserted_after hs hlo (by omega) (by omega)
        (ho.tail.le_vaddr (by omega))
    · obtain ⟨⟨l'', j⟩, hr, hp⟩ := map_eq_ok h
      obtain ⟨rfl, rfl⟩ := Prod.mk.inj hp
      exact (reserveFixedAfter_spec hhi hs hlo ho.tail hr).cons (by omega)

/-- **Fixed reservation.** A success puts `[vmbase, vmbase + size)` into the list. -/
theorem reserveFixedSpace_spec {vmbase : ℕ} (hi : Inv rl)
    (h : rl.reserveFixedSpace size vmbase = .ok (rl', i)) :
    ∃ l', rl' = { rl with regions := l' } ∧
      Inserted rl.regionsStart rl.regionsEnd vmbase size rl.regions l' i := by
  have ho := hi.ordered
  cases hr : rl.regions with
  | nil =>
    simp only [reserveFixedSpace, hr] at h
    split_ifs at h with h1 h2 h3
    obtain ⟨rfl, rfl⟩ := Prod.mk.inj (ok.inj h)
    exact ⟨_, rfl, inserted_front (by omega) (by omega) (by omega) (by simp)⟩
  | cons reg rest =>
    simp only [reserveFixedSpace, hr] at h
    rw [hr] at ho
    split_ifs at h with h1 h2 h3 h4 <;> have hs : 0 < size := by omega
    · obtain ⟨rfl, rfl⟩ := Prod.mk.inj (ok.inj h)
      have hreg := (ho.2 reg (by simp)).2
      have hpos := ho.1.pos reg (by simp)
      exact ⟨_, rfl, inserted_front hs (by omega) (by omega) (ho.le_vaddr (by omega))⟩
    · obtain ⟨⟨l', j⟩, hw, hp⟩ := map_eq_ok h
      obtain ⟨rfl, rfl⟩ := Prod.mk.inj hp
      exact ⟨_, rfl, reserveFixedAfter_spec hi.regionsEnd hs (by omega) ho hw⟩

/-! ### Reservation in a range -/

theorem effAlignment_pos (alignment : ℕ) : 0 < effAlignment alignment := by
  unfold effAlignment
  split_ifs
  · decide
  · omega

theorem effAlignment_lt (h : alignment < UVAL) :
    effAlignment alignment < UVAL := by
  unfold effAlignment
  split_ifs
  · decide
  · exact h

theorem le_holeStart {align : ℕ} {reg : RegionHolder} (hb : reg.bound = reg.stop)
    (hpos : 0 < align) (hlt : align < UVAL) (h1 : rangeStart + align ≤ UVAL)
    (h2 : reg.stop + align ≤ UVAL) :
    reg.stop ≤ holeStart rangeStart align reg ∧
      rangeStart ≤ holeStart rangeStart align reg := by
  unfold holeStart
  rw [hb]
  split_ifs with h
  · have := le_alignUp (w := 64) hpos hlt h1
    omega
  · have := le_alignUp (w := 64) hpos hlt h2
    omega

theorem holeEnd_le (rangeEnd : ℕ) (l : List RegionHolder) : holeEnd rangeEnd l ≤ rangeEnd := by
  cases l with
  | nil => exact le_rfl
  | cons next rest =>
    rw [holeEnd]
    split_ifs <;> omega

theorem Ordered.holeEnd_le_vaddr (ho : Ordered lo hi l)
    (rangeEnd : ℕ) : ∀ b ∈ l, holeEnd rangeEnd l ≤ b.vaddr := by
  cases l with
  | nil => simp
  | cons next rest =>
    refine ho.le_vaddr ?_
    rw [holeEnd]
    split_ifs <;> omega

theorem reserveSomeAfter_spec {lo hi size rangeStart rangeEnd align : ℕ} (hhi : hi < UVAL)
    (hs : 0 < size) (hlo : lo ≤ rangeStart) (hre : rangeEnd ≤ hi) (hpos : 0 < align)
    (hlt : align < UVAL) (hra : rangeStart + align ≤ UVAL) :
    ∀ {rest : List RegionHolder} {reg : RegionHolder} {l' : List RegionHolder} {i : ℕ},
    Ordered lo hi (reg :: rest) → (∀ h ∈ reg :: rest, h.stop + align ≤ UVAL) →
    reserveSomeAfter size rangeStart rangeEnd align reg rest = .ok (l', i) →
    ∃ base, rangeStart ≤ base ∧ reg.stop ≤ base ∧
      Inserted lo hi base size (reg :: rest) l' i
  | [], reg, l', i, ho, hal, h => by
    have hb := ho.bound_eq hhi (List.mem_cons_self (a := reg))
    obtain ⟨hge, hge'⟩ := le_holeStart hb hpos hlt hra (hal reg (by simp))
    have hend := holeEnd_le rangeEnd []
    rw [reserveSomeAfter] at h
    split_ifs at h with h1
    obtain ⟨rfl, rfl⟩ := Prod.mk.inj (ok.inj h)
    exact ⟨_, hge', hge, inserted_after hs (by omega) (by omega) hge (by simp)⟩
  | next :: rest, reg, l', i, ho, hal, h => by
    have hb := ho.bound_eq hhi (List.mem_cons_self (a := reg))
    obtain ⟨hge, hge'⟩ := le_holeStart hb hpos hlt hra (hal reg (by simp))
    have hnext : reg.stop ≤ next.vaddr := (Spaced.cons_iff.mp ho.1).2.2 next (by simp)
    have hnpos := ho.1.pos next (by simp)
    -- both ways on, the search continues behind `next`
    have hrec : ∀ {l'' : List RegionHolder} {j : ℕ},
        (reserveSomeAfter size rangeStart rangeEnd align next rest).map
          (fun p => (reg :: p.1, p.2 + 1)) = .ok (l'', j) →
        ∃ base, rangeStart ≤ base ∧ reg.stop ≤ base ∧
          Inserted lo hi base size (reg :: next :: rest) l'' j := by
      intro l'' j hm
      obtain ⟨⟨l', i⟩, hr, hp⟩ := map_eq_ok hm
      obtain ⟨rfl, rfl⟩ := Prod.mk.inj hp
      obtain ⟨base, h1, h2, hins⟩ := reserveSomeAfter_spec hhi hs hlo hre hpos hlt hra
        ho.tail (fun x hx => hal x (List.mem_cons_of_mem _ hx)) hr
      exact ⟨base, h1, by omega, hins.cons (by omega)⟩
    rw [reserveSomeAfter] at h
    split_ifs at h with h1 h2
    · exact hrec h
    · have hend := holeEnd_le rangeEnd (next :: rest)
      have habove := ho.tail.holeEnd_le_vaddr rangeEnd
      obtain ⟨rfl, rfl⟩ := Prod.mk.inj (ok.inj h)
      refine ⟨_, hge', hge, inserted_after hs (by omega) (by omega) hge ?_⟩
      intro b hb'
      have := habove b hb'
      omega
    · exact hrec h

/-- **Reservation in a range.** A success puts a new range inside the range asked
for into the list. -/
theorem reserveSomeSpace_spec {rangeEnd : ℕ} (hi : Inv rl)
    (hal : AlignArg rl rangeStart alignment) (hlo : rl.regionsStart ≤ rangeStart)
    (hre : rangeEnd ≤ rl.regionsEnd)
    (h : rl.reserveSomeSpace size rangeStart rangeEnd alignment = .ok (rl', i)) :
    ∃ base l', rl' = { rl with regions := l' } ∧
      Inserted rl.regionsStart rl.regionsEnd base size rl.regions l' i := by
  obtain ⟨-, halt, hra, hha⟩ := hal
  have ho := hi.ordered
  have hpos := effAlignment_pos alignment
  have hlt := effAlignment_lt halt
  have hup := le_alignUp (w := 64) hpos hlt hra
  cases hr : rl.regions with
  | nil =>
    simp only [reserveSomeSpace, hr] at h
    split_ifs at h with h1 h2 h3
    obtain ⟨rfl, rfl⟩ := Prod.mk.inj (ok.inj h)
    exact ⟨_, _, rfl, inserted_front (by omega) (by omega) (by omega) (by simp)⟩
  | cons reg rest =>
    simp only [reserveSomeSpace, hr] at h
    rw [hr] at ho hha
    split_ifs at h with h1 h2 h3 h4 <;> have hs : 0 < size := by omega
    · obtain ⟨rfl, rfl⟩ := Prod.mk.inj (ok.inj h)
      exact ⟨_, _, rfl, inserted_front hs (by omega) (by omega) (ho.le_vaddr (by omega))⟩
    · obtain ⟨⟨l', j⟩, hw, hp⟩ := map_eq_ok h
      obtain ⟨rfl, rfl⟩ := Prod.mk.inj hp
      obtain ⟨base, _, _, hins⟩ := reserveSomeAfter_spec hi.regionsEnd hs (by omega)
        hre hpos hlt (alignUp_add_le hpos hlt) ho hha hw
      exact ⟨base, _, rfl, hins⟩

/-! ## Attaching, detaching and truncating keep the list -/

/-- `rl'` is `rl` with a list that is still ordered inside the same bounds. -/
def Keeps (rl rl' : RegionList) : Prop :=
  ∃ l', rl' = { rl with regions := l' } ∧ Ordered rl.regionsStart rl.regionsEnd l'

theorem Keeps.refl (hi : Inv rl) : Keeps rl rl := ⟨_, rfl, hi.ordered⟩

theorem Keeps.trans {rl'' : RegionList} (h : Keeps rl rl') (h' : Keeps rl' rl'') :
    Keeps rl rl'' := by
  obtain ⟨l, rfl, _⟩ := h
  obtain ⟨l', rfl, ho⟩ := h'
  exact ⟨l', rfl, ho⟩

theorem Keeps.inv (h : Keeps rl rl') (hi : Inv rl) : Inv rl' := by
  obtain ⟨l, rfl, ho⟩ := h
  exact ⟨ho, hi.allocStart, hi.regionsEnd⟩

theorem Keeps.sublist (hi : Inv rl)
    (hsub : l'.Sublist rl.regions) : Keeps rl { rl with regions := l' } :=
  ⟨l', rfl, hi.ordered.sublist hsub⟩

theorem Inserted.keeps (hi : Inv rl)
    (h : Inserted rl.regionsStart rl.regionsEnd base size rl.regions l' i) :
    Keeps rl { rl with regions := l' } :=
  ⟨l', rfl, h.ordered hi.ordered⟩

theorem Inserted.keeps_attachAt (hi : Inv rl)
    (h : Inserted rl.regionsStart rl.regionsEnd base size rl.regions l' i)
    (reg : RegionRef) (type : RegionType) :
    Keeps rl (attachAt { rl with regions := l' } i reg type) :=
  ⟨_, rfl, h.ordered_modify hi.ordered (fun _ => rfl) (fun _ => rfl)⟩

theorem attachFixedRegion_keeps {vaddr : ℕ} {reg : RegionRef} {type : RegionType} (hi : Inv rl)
    (h : rl.attachFixedRegion vaddr size reg type = .ok rl') : Keeps rl rl' := by
  obtain ⟨⟨rl₁, i⟩, hr, rfl⟩ := map_eq_ok h
  obtain ⟨l', rfl, hins⟩ := reserveFixedSpace_spec hi hr
  exact hins.keeps_attachAt hi reg type

theorem reserveSomeSpace_keeps {rangeEnd : ℕ} {reg : RegionRef} {type : RegionType}
    (hi : Inv rl) (hal : AlignArg rl rangeStart alignment)
    (hlo : rl.regionsStart ≤ rangeStart) (hre : rangeEnd ≤ rl.regionsEnd)
    (h : (rl.reserveSomeSpace size rangeStart rangeEnd alignment).map
      (fun p => p.1.attachAt p.2 reg type) = .ok rl') : Keeps rl rl' := by
  obtain ⟨⟨rl₁, i⟩, hr, rfl⟩ := map_eq_ok h
  obtain ⟨base, l', rfl, hins⟩ := reserveSomeSpace_spec hi hal hlo hre hr
  exact hins.keeps_attachAt hi reg type

theorem detachRegion_keeps {r : RegionRef} (hi : Inv rl)
    (h : rl.detachRegion r = .ok rl') : Keeps rl rl' := by
  unfold detachRegion at h
  split_ifs at h
  rw [← ok.inj h]
  exact Keeps.sublist hi List.eraseP_sublist

theorem destroyRegion_keeps {r : RegionRef} (hi : Inv rl) :
    Keeps rl (rl.destroyRegion r) := by
  unfold destroyRegion
  cases hd : rl.detachRegion r with
  | error e => exact Keeps.refl hi
  | ok rl' => exact detachRegion_keeps hi hd

theorem foldl_destroyRegion_keeps : ∀ {refs : List RegionRef} {rl : RegionList}, Inv rl →
    Keeps rl (refs.foldl destroyRegion rl)
  | [], _, hi => Keeps.refl hi
  | _ :: _, _, hi =>
    have hd := destroyRegion_keeps hi
    hd.trans (foldl_destroyRegion_keeps (hd.inv hi))

theorem preExec_keeps (hi : Inv rl) : Keeps rl rl.preExec := by
  have hf : Keeps rl { rl with regions := rl.regions.filter (fun h => h.type.keepOnExec) } :=
    Keeps.sublist hi List.filter_sublist
  exact hf.trans (foldl_destroyRegion_keeps (hf.inv hi))

/-! ### Truncation -/

/-- One holder of `l` is gone from `l'`, or has lost one end of its range. -/
def Shrunk (l l' : List RegionHolder) : Prop :=
  ∃ pre rh post, l = pre ++ rh :: post ∧
    (l' = pre ++ post ∨ ∃ rh' : RegionHolder, l' = pre ++ rh' :: post ∧
      rh.vaddr ≤ rh'.vaddr ∧ rh'.vaddr < rh'.stop ∧ rh'.stop ≤ rh.stop)

theorem Shrunk.cons (h : Shrunk l l') (r : RegionHolder) :
    Shrunk (r :: l) (r :: l') := by
  obtain ⟨pre, rh, post, rfl, hc⟩ := h
  refine ⟨r :: pre, rh, post, rfl, ?_⟩
  rcases hc with rfl | ⟨rh', rfl, hle⟩
  · exact .inl rfl
  · exact .inr ⟨rh', rfl, hle⟩

theorem Shrunk.ordered (h : Shrunk l l') (ho : Ordered lo hi l) : Ordered lo hi l' := by
  obtain ⟨pre, rh, post, rfl, hc⟩ := h
  have hrh := ho.2 rh (by simp)
  rcases hc with rfl | ⟨rh', rfl, h1, h2, h3⟩
  · exact ho.sublist (List.Sublist.append_left (List.sublist_cons_self rh post) pre)
  · refine ⟨ho.1.replace h2 ?_ ?_, ?_⟩
    · intro a ha
      have := ho.1.below a ha
      omega
    · intro b hb
      have := ho.1.above b hb
      omega
    · intro x hx
      rcases List.mem_append.mp hx with hx | hx
      · exact ho.2 x (List.mem_append_left _ hx)
      · rcases List.mem_cons.mp hx with rfl | hx
        · omega
        · exact ho.2 x (List.mem_append_right _ (List.mem_cons_of_mem _ hx))

theorem truncateWalk_shrunk {lo hi start size : ℕ} (hhi : hi < UVAL)
    (hw : start + size < UVAL) : ∀ {l l' : List RegionHolder} {r : RegionRef},
    Ordered lo hi l → truncateWalk start size l = .ok (l', r) → Shrunk l l'
  | [], _, _, _, h => by simp [truncateWalk] at h
  | rh :: rest, l', r, ho, h => by
    have hb := ho.bound_eq hhi (List.mem_cons_self (a := rh))
    have hpos := ho.1.pos rh (by simp)
    have hle := (ho.2 rh (by simp)).2
    have hsum : add 64 start size = start + size := add_of_lt hw
    rw [truncateWalk, hb, hsum] at h
    unfold RegionHolder.stop at hle hpos h
    have hsize : rh.size < UVAL := by omega
    split_ifs at h with h1 h2 h3 h4
    · obtain ⟨rfl, _⟩ := Prod.mk.inj (ok.inj h)
      exact ⟨[], rh, rest, rfl, .inl rfl⟩
    · -- the front is cut off
      have hsub : sub 64 rh.size size = rh.size - size := sub_of_le hsize (by omega)
      have hadd : add 64 rh.vaddr size = rh.vaddr + size :=
        add_of_lt (lt_of_le_of_lt (by omega) hw)
      obtain ⟨rfl, _⟩ := Prod.mk.inj (ok.inj h)
      refine ⟨[], rh, rest, rfl, .inr ⟨_, rfl, ?_⟩⟩
      simp only [RegionHolder.stop, hsub, hadd]
      omega
    · -- the back is cut off
      have hsub : sub 64 rh.size size = rh.size - size := sub_of_le hsize (by omega)
      obtain ⟨rfl, _⟩ := Prod.mk.inj (ok.inj h)
      refine ⟨[], rh, rest, rfl, .inr ⟨_, rfl, ?_⟩⟩
      simp only [RegionHolder.stop, hsub]
      omega
    · obtain ⟨⟨l'', r'⟩, hr, hp⟩ := map_eq_ok h
      obtain ⟨rfl, rfl⟩ := Prod.mk.inj hp
      exact (truncateWalk_shrunk hhi hw ho.tail hr).cons rh

theorem truncate_keeps {start : ℕ} {r : RegionRef} (hi : Inv rl)
    (hw : start + size < UVAL) (h : rl.truncate start size = .ok (rl', r)) :
    Keeps rl rl' := by
  obtain ⟨⟨l', r'⟩, hr, hp⟩ := map_eq_ok h
  obtain ⟨rfl, rfl⟩ := Prod.mk.inj hp
  have hs := truncateWalk_shrunk hi.regionsEnd hw hi.ordered hr
  exact ⟨l', rfl, hs.ordered hi.ordered⟩

theorem truncateAndInsertInPlace_keeps {tv ts v1 s1 v2 s2 : ℕ}
    {r1 r2 : RegionRef} {t1 t2 : RegionType} (hi : Inv rl) (hw : tv + ts < UVAL)
    (h : rl.truncateAndInsertInPlace tv ts v1 s1 r1 t1 v2 s2 r2 t2 = .ok rl') :
    Keeps rl rl' := by
  unfold truncateAndInsertInPlace at h
  cases ht : rl.truncate tv ts with
  | error e => simp [ht] at h
  | ok p =>
    obtain ⟨rl1, r⟩ := p
    have hk := truncate_keeps hi hw ht
    cases h1 : rl1.attachFixedRegion v1 s1 r1 t1 with
    | error e => simp [ht, h1] at h
    | ok rl2 =>
      have hk2 := hk.trans (attachFixedRegion_keeps (hk.inv hi) h1)
      simp only [ht, h1] at h
      split_ifs at h with hz
      · rw [← ok.inj h]
        exact hk2
      · cases h2 : rl2.attachFixedRegion v2 s2 r2 t2 with
        | error e => simp [h2] at h
        | ok rl3 =>
          simp only [h2] at h
          rw [← ok.inj h]
          exact hk2.trans (attachFixedRegion_keeps (hk2.inv hi) h2)

/-! ## Every run -/

theorem keeps_orSelf (hi : Inv rl) {res : Except Failure RegionList}
    (h : ∀ rl', res = .ok rl' → Keeps rl rl') : Keeps rl (rl.orSelf res) := by
  cases res with
  | error e => exact Keeps.refl hi
  | ok rl' => exact h rl' rfl

/-- **Step.** Every admissible call keeps the list ordered inside its bounds. -/
theorem step_keeps {op : Op} (hi : Inv rl) (ha : Admissible rl op) :
    Keeps rl (rl.step op) := by
  cases op with
  | reserveFixedSpace size vmbase =>
    refine keeps_orSelf hi ?_
    intro rl' h
    obtain ⟨⟨rl₁, i⟩, hr, rfl⟩ := map_eq_ok h
    obtain ⟨l', rfl, hins⟩ := reserveFixedSpace_spec hi hr
    exact hins.keeps hi
  | reserveSomeSpace size rangeStart rangeEnd alignment =>
    obtain ⟨-, hal, hlo, hre⟩ := ha
    refine keeps_orSelf hi ?_
    intro rl' h
    obtain ⟨⟨rl₁, i⟩, hr, rfl⟩ := map_eq_ok h
    obtain ⟨base, l', rfl, hins⟩ := reserveSomeSpace_spec hi hal hlo hre hr
    exact hins.keeps hi
  | attachFixedRegion vaddr size reg type =>
    exact keeps_orSelf hi (fun _ h => attachFixedRegion_keeps hi h)
  | attachDynamicRegion size reg type alignment =>
    exact keeps_orSelf hi
      (fun _ h => reserveSomeSpace_keeps hi ha.2 hi.allocStart le_rfl h)
  | attachWithinRangeRegion vaddr vaddr2 size reg type alignment =>
    refine keeps_orSelf hi (fun _ h => reserveSomeSpace_keeps hi ?_ ?_ ?_ h)
    · obtain ⟨-, hpa, hlt, hra, hha⟩ := ha
      have hmax : (if vaddr < rl.regionsStart then rl.regionsStart else vaddr) =
          max vaddr rl.regionsStart := by
        split_ifs <;> omega
      have heff : effAlignment (if alignment = 0 then PAGE_SIZE else alignment) =
          effAlignment alignment := by
        by_cases hz : alignment = 0
        · subst hz
          rfl
        · rw [if_neg hz]
      rw [hmax]
      refine ⟨?_, ?_, ?_, ?_⟩
      · split_ifs
        · rfl
        · exact hpa
      · split_ifs
        · decide
        · exact hlt
      · rw [heff]
        exact hra
      · rw [heff]
        exact hha
    · split_ifs <;> omega
    · split_ifs <;> omega
  | detachRegion reg => exact keeps_orSelf hi (fun _ h => detachRegion_keeps hi h)
  | truncate start size =>
    refine keeps_orSelf hi ?_
    intro rl' h
    obtain ⟨⟨rl₁, r⟩, ht, rfl⟩ := map_eq_ok h
    exact truncate_keeps hi ha.2.2 ht
  | truncateAndInsertInPlace tv ts v1 s1 r1 t1 v2 s2 r2 t2 =>
    exact keeps_orSelf hi (fun _ h => truncateAndInsertInPlace_keeps hi ha.1.2.2 h)
  | preExec => exact preExec_keeps hi

/-- A list with no regions and the bounds `setRegionsBounds` sets. -/
def empty (start allocStart end_ : ℕ) : RegionList := ⟨[], start, allocStart, end_⟩

theorem run_inv {start allocStart end_ : ℕ} (hs : start ≤ allocStart) (he : end_ < UVAL)
    {ops : List Op} (h : machine.Run (empty start allocStart end_) ops rl) :
    Inv rl ∧ rl.regionsStart = start ∧ rl.regionsEnd = end_ := by
  refine h.invariant (I := fun rl => Inv rl ∧ rl.regionsStart = start ∧ rl.regionsEnd = end_)
    ⟨⟨⟨.nil, by simp [empty]⟩, hs, he⟩, rfl, rfl⟩ ?_
  rintro rl op ⟨hi, hst, hen⟩ ha
  have hk : Keeps rl (rl.step op) := step_keeps hi ha
  refine ⟨hk.inv hi, ?_⟩
  obtain ⟨l', hrl, _⟩ := hk
  change (rl.step op).regionsStart = start ∧ (rl.step op).regionsEnd = end_
  rw [hrl]
  exact ⟨hst, hen⟩

/-- The holder's range contains the address. -/
def RegionHolder.Covers (h : RegionHolder) (a : ℕ) : Prop := h.vaddr ≤ a ∧ a < h.stop

theorem find?_bound (hi : Inv rl) (a : ℕ) :
    rl.regions.find? (fun r => decide (r.vaddr ≤ a ∧ a < r.bound)) =
      rl.regions.find? (fun r => decide (r.vaddr ≤ a ∧ a < r.stop)) := by
  refine List.find?_congr ?_
  intro r hr
  simp only [hi.ordered.bound_eq hi.regionsEnd hr]

theorem vaddrToRegion_of_covers (hi : Inv rl) {a : ℕ}
    (hr : r ∈ rl.regions) (hc : r.Covers a) : rl.vaddrToRegion a = .ok r.reg := by
  rw [vaddrToRegion, find?_bound hi, hi.ordered.1.find?_eq hr hc]

theorem vaddrToRegion_of_not_covers (hi : Inv rl) {a : ℕ} (hc : ∀ r ∈ rl.regions, ¬ r.Covers a) :
    rl.vaddrToRegion a = .error (.serror 1485 100 .EINVAL) := by
  have hn : rl.regions.find? (fun r => decide (r.vaddr ≤ a ∧ a < r.stop)) = none := by
    refine find?_eq_none.mpr ?_
    rintro ⟨r, hr, hc'⟩
    exact hc r hr hc'
  rw [vaddrToRegion, find?_bound hi, hn]

/-- **The region list.** After every run of admissible calls from an empty list
the holders ascend, their ranges are nonempty, disjoint and inside the bounds,
and a lookup returns the region of the one holder that covers the address, or
the not-found status when none does. -/
theorem run_ordered_and_lookup {start allocStart end_ : ℕ} (hs : start ≤ allocStart)
    (he : end_ < UVAL) {ops : List Op} {rl : RegionList}
    (h : machine.Run (empty start allocStart end_) ops rl) :
    rl.regions.Pairwise (fun x y => x.vaddr < y.vaddr ∧ x.stop ≤ y.vaddr) ∧
      (∀ r ∈ rl.regions, r.vaddr < r.stop ∧ start ≤ r.vaddr ∧ r.stop ≤ end_) ∧
      ∀ a : ℕ,
        (∀ r ∈ rl.regions, r.Covers a →
          rl.vaddrToRegion a = .ok r.reg ∧ ∀ r' ∈ rl.regions, r'.Covers a → r' = r) ∧
        ((∀ r ∈ rl.regions, ¬ r.Covers a) →
          rl.vaddrToRegion a = .error (.serror 1485 100 .EINVAL)) := by
  obtain ⟨hi, rfl, rfl⟩ := run_inv hs he h
  have hsp := hi.ordered.1
  refine ⟨?_, ?_, fun a => ⟨?_, vaddrToRegion_of_not_covers hi⟩⟩
  · refine List.Pairwise.imp_of_mem ?_ hsp.apart
    intro x y hx _ hxy
    have := hsp.pos x hx
    omega
  · intro r hr
    exact ⟨hsp.pos r hr, hi.ordered.2 r hr⟩
  · intro r hr hc
    refine ⟨vaddrToRegion_of_covers hi hr hc, ?_⟩
    intro r' hr' hc'
    exact hsp.eq_of_mem hr' hr hc' hc

/-- Two regions attached, the front of the lower one truncated away. -/
def truncatedPair : List Op :=
  [.attachFixedRegion 0x1000 0x3000 5 ⟨.forkCopy, true⟩,
    .attachDynamicRegion 0x2000 7 ⟨.useSame, false⟩ 0, .truncate 0x1000 0x1000]

theorem run_ordered_and_lookup_truncatedPair :
    machine.Admits (empty 0 0x100000 0x8000000000000000) truncatedPair ∧
      (truncatedPair.foldl step (empty 0 0x100000 0x8000000000000000)).vaddrToRegion 0x3000 =
        .ok 5 := by
  have hadm : machine.Admits (empty 0 0x100000 0x8000000000000000) truncatedPair := by decide
  have h := run_ordered_and_lookup (by decide) (by decide) hadm.run
  exact ⟨hadm, ((h.2.2 0x3000).1 ⟨⟨.forkCopy, true⟩, 0x2000, 0x2000, 5⟩ (by decide)
    ⟨by decide, by decide⟩).1⟩

/-- Rounded up to half the address space, the end of the upper region wraps to zero. -/
def wrappedAlignment : List Op :=
  [.attachFixedRegion 0 0x1000 5 .freeOnExec,
    .attachFixedRegion 0x8000000000000000 0x1000 6 .freeOnExec,
    .attachDynamicRegion 0x1000 7 .freeOnExec 0x8000000000000000]

/-- The arguments are aligned and no range wraps, and the third region is put behind the second one,
at the addresses of the first. -/
theorem not_ordered_of_wrappedAlignment :
    (RangeArg 0 0x1000 ∧ RangeArg 0x8000000000000000 0x1000 ∧ PageAligned 0x1000 ∧
      PageAligned 0x8000000000000000) ∧
      ¬ (wrappedAlignment.foldl step (empty 0 0x1000 0x9000000000000000)).regions.Pairwise
        (fun x y => x.vaddr < y.vaddr ∧ x.stop ≤ y.vaddr) := by
  decide

end K42.RegionList
