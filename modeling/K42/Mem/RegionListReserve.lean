import K42.Mem.RegionList

/-!
# When a reservation succeeds

`RegionList` says that what a reservation puts into the list keeps its order.
Here is the other half: for every list in order and every request, whether there
is room decides whether the reservation succeeds.

At a fixed address room means that no region overlaps the range asked for. In a
range it means that some aligned interval of the size is free in it. The loop
that looks for one never goes beyond it (rounding up goes beyond no multiple of
the alignment), so it finds the first.
-/

namespace K42.RegionList

open MachineWord Interval

/-! ## Room -/

/-- Some address of `[base, base + size)` is in the holder's range. -/
def RegionHolder.Overlaps (h : RegionHolder) (base size : ℕ) : Prop :=
  ∃ a, base ≤ a ∧ a < base + size ∧ h.Covers a

/-- No region overlaps `[base, base + size)`. -/
def Free (rl : RegionList) (base size : ℕ) : Prop :=
  ∀ r ∈ rl.regions, ¬ r.Overlaps base size

variable {base size alignment rangeStart rangeEnd : ℕ} {rl : RegionList}

theorem not_overlaps_iff {h : RegionHolder} (hh : h.vaddr < h.stop) (hs : 0 < size) :
    ¬ h.Overlaps base size ↔ h.stop ≤ base ∨ base + size ≤ h.vaddr := by
  constructor
  · intro hno
    by_contra hc
    refine hno ⟨max base h.vaddr, by omega, by omega, ?_⟩
    exact ⟨by omega, by omega⟩
  · rintro hc ⟨a, h1, h2, h3, h4⟩
    omega

theorem free_iff (hi : Inv rl) (hs : 0 < size) :
    rl.Free base size ↔ ∀ r ∈ rl.regions, r.stop ≤ base ∨ base + size ≤ r.vaddr := by
  constructor
  · intro hf r hr
    exact (not_overlaps_iff (hi.ordered.1.pos r hr) hs).mp (hf r hr)
  · intro hf r hr
    exact (not_overlaps_iff (hi.ordered.1.pos r hr) hs).mpr (hf r hr)

theorem Inserted.free (hi : Inv rl) {lo hi' i : ℕ}
    {l' : List RegionHolder} (h : Inserted lo hi' base size rl.regions l' i) :
    rl.Free base size := by
  obtain ⟨hs, -, -, pre, post, hl, -, -, hpre, hpost⟩ := h
  refine (free_iff hi hs).mpr ?_
  intro r hr
  rw [hl] at hr
  rcases List.mem_append.mp hr with hr | hr
  · exact .inl (hpre r hr)
  · exact .inr (hpost r hr)

theorem and_MIN_PAGE_MASK (a : ℕ) : a &&& MIN_PAGE_MASK = a % PAGE_SIZE :=
  Nat.and_two_pow_sub_one_eq_mod a 12

/-! ## At a fixed address -/

theorem reserveFixedAfter_ok {lo hi size vmbase : ℕ} (hhi : hi < UVAL) (hs : 0 < size)
    (hend : vmbase + size ≤ hi) : ∀ {rest : List RegionHolder} {reg : RegionHolder},
    Ordered lo hi (reg :: rest) → reg.vaddr < vmbase →
    (∀ r ∈ reg :: rest, r.stop ≤ vmbase ∨ vmbase + size ≤ r.vaddr) →
    ∃ p, reserveFixedAfter size vmbase hi reg rest = .ok p
  | [], reg, ho, hlt, hfree => by
    have hb := ho.bound_eq hhi (List.mem_cons_self (a := reg))
    have hreg := hfree reg (by simp)
    rw [reserveFixedAfter, if_neg (by omega), if_neg (by omega)]
    exact ⟨_, rfl⟩
  | next :: rest, reg, ho, hlt, hfree => by
    have hb := ho.bound_eq hhi (List.mem_cons_self (a := reg))
    have hreg := hfree reg (by simp)
    have hnext := hfree next (by simp)
    have hpos := ho.1.pos next (by simp)
    rw [reserveFixedAfter, if_neg (by omega)]
    by_cases hn : next.vaddr > vmbase
    · rw [if_pos hn, if_neg (by omega)]
      exact ⟨_, rfl⟩
    · obtain ⟨p, hp⟩ := reserveFixedAfter_ok hhi hs hend ho.tail (by omega)
        (fun r hr => hfree r (List.mem_cons_of_mem _ hr))
      rw [if_neg hn, hp]
      exact ⟨_, rfl⟩

theorem reserveFixedSpace_ok (hi : Inv rl) {vmbase : ℕ}
    (hs : 0 < size) (hpage : size % PAGE_SIZE = 0) (hlo : rl.regionsStart ≤ vmbase)
    (hend : vmbase + size ≤ rl.regionsEnd) (hfree : rl.Free vmbase size) :
    ∃ p, rl.reserveFixedSpace size vmbase = .ok p := by
  have ho := hi.ordered
  have hfree' := (free_iff hi hs).mp hfree
  rw [reserveFixedSpace, and_MIN_PAGE_MASK, if_neg (by omega), if_neg (by omega)]
  cases hr : rl.regions with
  | nil =>
    simp only []
    rw [if_neg (by omega)]
    exact ⟨_, rfl⟩
  | cons reg rest =>
    rw [hr] at ho hfree'
    have hreg := hfree' reg (by simp)
    have hpos := ho.1.pos reg (by simp)
    simp only []
    by_cases hv : reg.vaddr ≥ vmbase
    · rw [if_pos hv, if_neg (by omega)]
      exact ⟨_, rfl⟩
    · obtain ⟨p, hp⟩ := reserveFixedAfter_ok hi.regionsEnd hs hend ho (by omega) hfree'
      rw [if_neg hv, hp]
      exact ⟨_, rfl⟩

theorem size_of_reserveFixedSpace {vmbase : ℕ}
    {p : RegionList × ℕ} (h : rl.reserveFixedSpace size vmbase = .ok p) :
    0 < size ∧ size % PAGE_SIZE = 0 := by
  rw [reserveFixedSpace, and_MIN_PAGE_MASK] at h
  split_ifs at h <;> omega

/-- **Fixed reservation.** It succeeds exactly for a positive number of pages
whose range does not wrap, lies within the bounds and overlaps no region. A
success adds this range and changes nothing else; a failure changes nothing. -/
theorem reserveFixedSpace_iff {rl : RegionList} (hi : Inv rl) (vaddr size : ℕ) :
    ((∃ p, rl.reserveFixedSpace size vaddr = .ok p) ↔
      (0 < size ∧ size % PAGE_SIZE = 0) ∧ vaddr + size < UVAL ∧
        (rl.regionsStart ≤ vaddr ∧ vaddr + size ≤ rl.regionsEnd) ∧ rl.Free vaddr size) ∧
      (∀ rl' i, rl.reserveFixedSpace size vaddr = .ok (rl', i) →
        ∃ pre post, rl.regions = pre ++ post ∧ i = pre.length ∧
          rl' = { rl with regions := pre ++ .new vaddr size :: post }) ∧
      ∀ e, rl.reserveFixedSpace size vaddr = .error e →
        rl.step (.reserveFixedSpace size vaddr) = rl := by
  refine ⟨⟨?_, ?_⟩, ?_, ?_⟩
  · rintro ⟨⟨rl', i⟩, h⟩
    have hsize := size_of_reserveFixedSpace h
    obtain ⟨l', -, hins⟩ := reserveFixedSpace_spec hi h
    have hlt := hi.regionsEnd
    have hend := hins.2.2.1
    exact ⟨hsize, by omega, ⟨hins.2.1, hend⟩, hins.free hi⟩
  · rintro ⟨⟨hs, hpage⟩, -, ⟨hlo, hend⟩, hfree⟩
    exact reserveFixedSpace_ok hi hs hpage hlo hend hfree
  · intro rl' i h
    obtain ⟨l', hrl, -, -, -, pre, post, hl, hl', hlen, -, -⟩ := reserveFixedSpace_spec hi h
    exact ⟨pre, post, hl, hlen, by rw [hrl, hl']⟩
  · intro e h
    rw [step, h]
    rfl

/-- One region of two pages in the bounds of a process. -/
def oneRegion : RegionList :=
  ⟨[⟨⟨.forkCopy, true⟩, 0x4000, 0x2000, 5⟩], 0x1000, 0x2000, 0x10000⟩

theorem oneRegion_inv : Inv oneRegion where
  ordered := ⟨⟨by simp [oneRegion, RegionHolder.stop], by simp [oneRegion]⟩,
    by simp [oneRegion, RegionHolder.stop]⟩
  allocStart := by decide
  regionsEnd := by decide

theorem reserveFixedSpace_iff_oneRegion :
    ∃ p, oneRegion.reserveFixedSpace 0x1000 0x6000 = .ok p := by
  refine (reserveFixedSpace_iff oneRegion_inv 0x6000 0x1000).1.mpr ⟨by decide, by decide,
    by decide, ?_⟩
  rintro r hr ⟨a, h1, h2, h3, h4⟩
  obtain rfl := List.mem_singleton.mp hr
  simp only [RegionHolder.stop] at h4
  omega

/-- A single byte fits in front of the region, but is no multiple of a page. -/
theorem reserveFixedSpace_refuses_byte :
    ¬ ∀ (rl : RegionList) (vaddr size : ℕ), Inv rl → vaddr < UVAL → size < UVAL →
      ((∃ p, rl.reserveFixedSpace size vaddr = .ok p) ↔
        vaddr + size < UVAL ∧ (rl.regionsStart ≤ vaddr ∧ vaddr + size ≤ rl.regionsEnd) ∧
          rl.Free vaddr size) := by
  intro h
  obtain ⟨p, hp⟩ := (h oneRegion 0x1000 1 oneRegion_inv (by decide) (by decide)).mpr
    ⟨by decide, by decide, by
      rintro r hr ⟨a, h1, h2, h3, h4⟩
      obtain rfl := List.mem_singleton.mp hr
      dsimp only at h3
      omega⟩
  have herr : oneRegion.reserveFixedSpace 1 0x1000 = .error (.serror 1487 10 .EINVAL) := by
    decide
  rw [herr] at hp
  cases hp

/-! ## In a range -/

/-- The sizes and alignments that are not refused at once: a positive number of
pages, and an alignment that is the default or a multiple of the page size. -/
def Acceptable (size alignment : ℕ) : Prop :=
  0 < size ∧ size % PAGE_SIZE = 0 ∧ alignment % PAGE_SIZE = 0

/-- `[base, base + size)` is an aligned free interval in the range. -/
def FitsAt (rl : RegionList) (size rangeStart rangeEnd alignment base : ℕ) : Prop :=
  effAlignment alignment ∣ base ∧ rangeStart ≤ base ∧ base + size ≤ rangeEnd ∧
    rl.Free base size

/-- The range, from its start rounded up to the alignment, is as long as the size. -/
def LongEnough (size rangeStart rangeEnd alignment : ℕ) : Prop :=
  alignUp 64 rangeStart (effAlignment alignment) < rangeEnd ∧
    size ≤ rangeEnd - alignUp 64 rangeStart (effAlignment alignment)

/-- What a call should come to: a success takes an aligned free interval inside
the range and changes nothing else, there is an error only if there is no such
interval (or the size or alignment is none), and the list is then unchanged. -/
def ReservesRight (rl : RegionList) (size rangeStart rangeEnd alignment : ℕ) : Prop :=
  match rl.reserveSomeSpace size rangeStart rangeEnd alignment with
  | .ok (rl', i) => Acceptable size alignment ∧
      ∃ base, rl.FitsAt size rangeStart rangeEnd alignment base ∧
        ∃ pre post, rl.regions = pre ++ post ∧ i = pre.length ∧
          rl' = { rl with regions := pre ++ .new base size :: post }
  | .error (.serror _ _ _) =>
    (Acceptable size alignment → ∀ base, ¬ rl.FitsAt size rangeStart rangeEnd alignment base) ∧
      rl.step (.reserveSomeSpace size rangeStart rangeEnd alignment) = rl
  | .error _ => False

theorem effAlignment_two_pow (h : alignment = 0 ∨ ∃ k, alignment = 2 ^ k)
    (hlt : alignment < UVAL) : ∃ k < 64, effAlignment alignment = 2 ^ k := by
  rcases h with rfl | ⟨k, rfl⟩
  · exact ⟨12, by omega, rfl⟩
  · refine ⟨k, (Nat.pow_lt_pow_iff_right (by omega)).mp hlt, ?_⟩
    rw [effAlignment, if_neg (Nat.two_pow_pos k).ne']

theorem FitsAt.longEnough (h : rl.FitsAt size rangeStart rangeEnd alignment base) (hs : 0 < size)
    (halign : alignment = 0 ∨ ∃ k, alignment = 2 ^ k) (hlt : alignment < UVAL)
    (hstart : rangeStart < UVAL) : LongEnough size rangeStart rangeEnd alignment := by
  obtain ⟨k, hk, heff⟩ := effAlignment_two_pow halign hlt
  obtain ⟨hdvd, hle, hend, -⟩ := h
  rw [heff] at hdvd
  have hup := alignUp_le hk hstart hdvd hle
  rw [LongEnough, heff]
  omega

theorem holeStart_le {k : ℕ} {reg : RegionHolder} (hk : k < 64)
    (hb : reg.bound = reg.stop) (hdvd : 2 ^ k ∣ base) (hlt : base < UVAL)
    (hstart : rangeStart ≤ base) (hstop : reg.stop ≤ base) :
    2 ^ k ∣ holeStart rangeStart (2 ^ k) reg ∧ holeStart rangeStart (2 ^ k) reg ≤ base ∧
      rangeStart ≤ holeStart rangeStart (2 ^ k) reg ∧
      reg.stop ≤ holeStart rangeStart (2 ^ k) reg := by
  unfold holeStart
  rw [hb]
  split_ifs with h
  · have hle := le_alignUp_of_multiple (w := 64) hk hdvd hstart hlt
    have hw := lt_of_le_of_lt hstart hlt
    exact ⟨dvd_alignUp hk hw, alignUp_le hk hw hdvd hstart, hle, by omega⟩
  · have hle := le_alignUp_of_multiple (w := 64) hk hdvd hstop hlt
    have hw := lt_of_le_of_lt hstop hlt
    exact ⟨dvd_alignUp hk hw, alignUp_le hk hw hdvd hstop, by omega, hle⟩

/-- **The search finds room behind `reg` when there is room behind `reg`.** -/
theorem reserveSomeAfter_ok {lo hi k size rangeStart rangeEnd base : ℕ} (hhi : hi < UVAL)
    (hk : k < 64) (hs : 0 < size) (hdvd : 2 ^ k ∣ base) (hstart : rangeStart ≤ base)
    (hend : base + size ≤ rangeEnd) (hre : rangeEnd < UVAL) :
    ∀ {rest : List RegionHolder} {reg : RegionHolder}, Ordered lo hi (reg :: rest) →
    reg.stop ≤ base → (∀ r ∈ rest, r.stop ≤ base ∨ base + size ≤ r.vaddr) →
    ∃ base' l' i, reserveSomeAfter size rangeStart rangeEnd (2 ^ k) reg rest = .ok (l', i) ∧
      2 ^ k ∣ base' ∧ reg.stop ≤ base' ∧
        Inserted rangeStart rangeEnd base' size (reg :: rest) l' i
  | [], reg, ho, hstop, hfree => by
    have hb := ho.bound_eq hhi (List.mem_cons_self (a := reg))
    obtain ⟨hd, hle, hge, hge'⟩ := holeStart_le hk hb hdvd (by omega) hstart hstop
    rw [reserveSomeAfter, holeEnd, if_pos (by omega)]
    exact ⟨_, _, _, rfl, hd, hge', inserted_after hs hge (by omega) hge' (by simp)⟩
  | next :: rest, reg, ho, hstop, hfree => by
    have hb := ho.bound_eq hhi (List.mem_cons_self (a := reg))
    obtain ⟨hd, hle, hge, hge'⟩ := holeStart_le hk hb hdvd (by omega) hstart hstop
    have hnpos := ho.1.pos next (by simp)
    have hregnext : reg.stop ≤ next.vaddr := (Spaced.cons_iff.mp ho.1).2.2 next (by simp)
    -- what is found behind `next` is found
    have hrec : next.stop ≤ base → ∃ base' l' i,
        (reserveSomeAfter size rangeStart rangeEnd (2 ^ k) next rest).map
          (fun p => (reg :: p.1, p.2 + 1)) = .ok (l', i) ∧ 2 ^ k ∣ base' ∧
        reg.stop ≤ base' ∧
          Inserted rangeStart rangeEnd base' size (reg :: next :: rest) l' i := by
      intro hnext
      obtain ⟨base', l', i, hres, hd', hnext', hins⟩ := reserveSomeAfter_ok hhi hk hs hdvd
        hstart hend hre ho.tail hnext (fun r hr => hfree r (List.mem_cons_of_mem _ hr))
      have hreg : reg.stop ≤ base' := by omega
      exact ⟨base', reg :: l', i + 1, by rw [hres]; rfl, hd', hreg, hins.cons hreg⟩
    rw [reserveSomeAfter]
    by_cases hskip : next.vaddr < rangeStart
    · rw [if_pos hskip]
      have hnext := hfree next (by simp)
      exact hrec (by omega)
    rw [if_neg hskip]
    have hhole := holeEnd_le rangeEnd (next :: rest)
    have habove := ho.tail.holeEnd_le_vaddr rangeEnd
    by_cases hfits : holeEnd rangeEnd (next :: rest) > holeStart rangeStart (2 ^ k) reg ∧
        holeEnd rangeEnd (next :: rest) - holeStart rangeStart (2 ^ k) reg ≥ size
    · rw [if_pos hfits]
      refine ⟨_, _, _, rfl, hd, hge', inserted_after hs hge (by omega) hge' ?_⟩
      intro b hb'
      have := habove b hb'
      omega
    · rw [if_neg hfits]
      refine hrec ?_
      -- the interval is not in the hole before `next`
      rcases hfree next (by simp) with hnext | hnext
      · exact hnext
      · rw [holeEnd] at hfits
        split_ifs at hfits <;> omega

theorem reserveSomeAfter_error {size rangeStart rangeEnd align : ℕ} {e : Failure} :
    ∀ {rest : List RegionHolder} {reg : RegionHolder},
    reserveSomeAfter size rangeStart rangeEnd align reg rest = .error e → e = .passert
  | [], reg, h => by
    rw [reserveSomeAfter] at h
    split_ifs at h
    exact (Except.error.inj h).symm
  | next :: rest, reg, h => by
    rw [reserveSomeAfter] at h
    cases hrest : reserveSomeAfter size rangeStart rangeEnd align next rest with
    | error e' =>
      have he := reserveSomeAfter_error hrest
      rw [hrest] at h
      split_ifs at h <;> exact (Except.error.inj h).symm.trans he
    | ok p =>
      rw [hrest] at h
      split_ifs at h <;> cases h

/-! ### The checks, one at a time -/

theorem reserveSomeSpace_refused (h : ¬ Acceptable size alignment) :
    ∃ ec, rl.reserveSomeSpace size rangeStart rangeEnd alignment =
      .error (.serror ec 10 .EINVAL) := by
  rw [reserveSomeSpace, and_MIN_PAGE_MASK, and_MIN_PAGE_MASK]
  by_cases hs : size = 0 ∨ size % PAGE_SIZE ≠ 0
  · exact ⟨_, if_pos hs⟩
  · rw [if_neg hs, if_pos]
    · exact ⟨_, rfl⟩
    · have hal : alignment % PAGE_SIZE ≠ 0 := fun hz => h ⟨by omega, by omega, hz⟩
      refine ⟨?_, hal⟩
      rintro rfl
      exact hal rfl

theorem reserveSomeSpace_short
    (hacc : Acceptable size alignment) (h : ¬ LongEnough size rangeStart rangeEnd alignment) :
    rl.reserveSomeSpace size rangeStart rangeEnd alignment = .error (.serror 1496 10 .EINVAL) := by
  obtain ⟨hs, hpage, hal⟩ := hacc
  unfold LongEnough at h
  rw [reserveSomeSpace, and_MIN_PAGE_MASK, and_MIN_PAGE_MASK, if_neg (by omega), if_neg (by omega)]
  dsimp only
  rw [if_pos (by omega)]

theorem reserveSomeSpace_long
    (hacc : Acceptable size alignment) (h : LongEnough size rangeStart rangeEnd alignment)
    {e : Failure} (he : rl.reserveSomeSpace size rangeStart rangeEnd alignment = .error e) :
    e = .passert := by
  obtain ⟨hs, hpage, hal⟩ := hacc
  unfold LongEnough at h
  rw [reserveSomeSpace, and_MIN_PAGE_MASK, and_MIN_PAGE_MASK, if_neg (by omega),
    if_neg (by omega)] at he
  dsimp only at he
  rw [if_neg (by omega)] at he
  cases hr : rl.regions with
  | nil =>
    rw [hr] at he
    dsimp only at he
    rw [if_neg (by omega)] at he
    cases he
  | cons reg rest =>
    rw [hr] at he
    dsimp only at he
    split_ifs at he
    cases hw : reserveSomeAfter size (alignUp 64 rangeStart (effAlignment alignment)) rangeEnd
        (effAlignment alignment) reg rest with
    | error e' =>
      rw [hw] at he
      exact (Except.error.inj he).symm.trans (reserveSomeAfter_error hw)
    | ok p =>
      rw [hw] at he
      cases he

/-- **What fits is found.** -/
theorem reserveSomeSpace_ok (hi : Inv rl)
    (halign : alignment = 0 ∨ ∃ k, alignment = 2 ^ k) (hlt : alignment < UVAL)
    (hstart : rangeStart < UVAL) (hre : rangeEnd < UVAL) (hacc : Acceptable size alignment)
    (h : rl.FitsAt size rangeStart rangeEnd alignment base) :
    ∃ base' l' i, rl.reserveSomeSpace size rangeStart rangeEnd alignment =
        .ok ({ rl with regions := l' }, i) ∧ effAlignment alignment ∣ base' ∧
      Inserted rangeStart rangeEnd base' size rl.regions l' i := by
  have hlong := h.longEnough hacc.1 halign hlt hstart
  obtain ⟨k, hk, heff⟩ := effAlignment_two_pow halign hlt
  obtain ⟨hdvd, hle, hend, hfree⟩ := h
  obtain ⟨hs, hpage, hal⟩ := hacc
  have ho := hi.ordered
  have hfree' := (free_iff hi hs).mp hfree
  rw [heff] at hdvd
  have hup := alignUp_le hk hstart hdvd hle
  have hbase : base < UVAL := by omega
  have hge := le_alignUp_of_multiple (w := 64) hk hdvd hle hbase
  have hd := dvd_alignUp hk hstart
  unfold LongEnough at hlong
  rw [heff] at hlong
  rw [reserveSomeSpace, and_MIN_PAGE_MASK, and_MIN_PAGE_MASK, if_neg (by omega), if_neg (by omega)]
  dsimp only
  rw [heff, if_neg (by omega)]
  cases hr : rl.regions with
  | nil =>
    dsimp only
    rw [if_neg (by omega)]
    exact ⟨_, _, _, rfl, hd, inserted_front hs hge (by omega) (by simp)⟩
  | cons reg rest =>
    rw [hr] at ho hfree'
    have hreg := hfree' reg (by simp)
    dsimp only
    by_cases hhead : reg.vaddr > alignUp 64 rangeStart (2 ^ k) ∧
        reg.vaddr - alignUp 64 rangeStart (2 ^ k) ≥ size
    · rw [if_pos hhead]
      exact ⟨_, _, _, rfl, hd, inserted_front hs hge (by omega) (ho.le_vaddr (by omega))⟩
    · obtain ⟨base', l', i, hres, hd', -, hins⟩ := reserveSomeAfter_ok hi.regionsEnd hk hs hdvd
        hup hend hre ho (by omega) (fun r hr' => hfree' r (List.mem_cons_of_mem _ hr'))
      rw [if_neg hhead, hres]
      exact ⟨base', l', i, rfl, hd', hins.1, hge.trans hins.2.1, hins.2.2⟩

theorem Inserted.fitsAt (hi : Inv rl) {i : ℕ} {l' : List RegionHolder}
    (hd : effAlignment alignment ∣ base)
    (h : Inserted rangeStart rangeEnd base size rl.regions l' i) :
    rl.FitsAt size rangeStart rangeEnd alignment base :=
  ⟨hd, h.2.1, h.2.2.1, h.free hi⟩

/-- **Reservation in a range.** The call does what it should exactly when no
acceptable request, whose range is long enough by the rounded start that the code
computes, is left without an aligned free interval. -/
theorem reserveSomeSpace_right_iff {rl : RegionList} (hi : Inv rl)
    {size rangeStart rangeEnd alignment : ℕ} (halign : alignment = 0 ∨ ∃ k, alignment = 2 ^ k)
    (hlt : alignment < UVAL) (hstart : rangeStart < UVAL) (hre : rangeEnd < UVAL) :
    rl.ReservesRight size rangeStart rangeEnd alignment ↔
      (Acceptable size alignment → LongEnough size rangeStart rangeEnd alignment →
        ∃ base, rl.FitsAt size rangeStart rangeEnd alignment base) := by
  constructor
  · intro hright hacc hlong
    unfold ReservesRight at hright
    cases hres : rl.reserveSomeSpace size rangeStart rangeEnd alignment with
    | ok p =>
      rw [hres] at hright
      obtain ⟨-, base, hfits, -⟩ := hright
      exact ⟨base, hfits⟩
    | error e =>
      rw [reserveSomeSpace_long hacc hlong hres] at hres
      rw [hres] at hright
      exact hright.elim
  · intro hcond
    unfold ReservesRight
    by_cases hacc : Acceptable size alignment
    · by_cases hlong : LongEnough size rangeStart rangeEnd alignment
      · obtain ⟨base, hfits⟩ := hcond hacc hlong
        obtain ⟨base', l', i, hres, hd, hins⟩ :=
          reserveSomeSpace_ok hi halign hlt hstart hre hacc hfits
        have hfits' := hins.fitsAt hi hd
        obtain ⟨-, -, -, pre, post, hl, hl', hlen, -⟩ := hins
        rw [hres]
        exact ⟨hacc, base', hfits', pre, post, hl, hlen, by rw [hl']⟩
      · have hres : rl.reserveSomeSpace size rangeStart rangeEnd alignment =
            .error (.serror 1496 10 .EINVAL) := reserveSomeSpace_short hacc hlong
        rw [hres]
        refine ⟨?_, by rw [step, hres]; rfl⟩
        intro _ base hfits
        exact hlong (hfits.longEnough hacc.1 halign hlt hstart)
    · obtain ⟨ec, hres⟩ : ∃ ec, rl.reserveSomeSpace size rangeStart rangeEnd alignment =
          .error (.serror ec 10 .EINVAL) := reserveSomeSpace_refused hacc
      rw [hres]
      exact ⟨fun h => absurd h hacc, by rw [step, hres]; rfl⟩

theorem reserveSomeSpace_right_iff_oneRegion :
    oneRegion.ReservesRight 0x2000 0x1000 0x10000 0x4000 := by
  refine (reserveSomeSpace_right_iff oneRegion_inv (.inr ⟨14, by decide⟩) (by decide)
    (by decide) (by decide)).mpr (fun _ _ => ⟨0x8000, by decide, by decide, by decide, ?_⟩)
  rintro r hr ⟨a, h1, h2, h3, h4⟩
  obtain rfl := List.mem_singleton.mp hr
  simp only [RegionHolder.stop] at h4
  omega

/-- The range is taken up by the region, and the assertion fails. -/
theorem reserveSomeSpace_full :
    ¬ ∀ (rl : RegionList) (size rangeStart rangeEnd alignment : ℕ), Inv rl →
      (alignment = 0 ∨ ∃ k, alignment = 2 ^ k) → alignment < UVAL → size < UVAL →
      rangeStart < UVAL → rangeEnd < UVAL →
      rl.ReservesRight size rangeStart rangeEnd alignment := by
  intro h
  have hright := h oneRegion 0x1000 0x4000 0x6000 0 oneRegion_inv (.inl rfl) (by decide)
    (by decide) (by decide) (by decide)
  have hres : oneRegion.reserveSomeSpace 0x1000 0x4000 0x6000 0 = .error .passert := by decide
  unfold ReservesRight at hright
  rw [hres] at hright
  exact hright

end K42.RegionList
