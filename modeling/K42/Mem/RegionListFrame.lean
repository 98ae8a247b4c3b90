import K42.Mem.RegionListReserve

/-!
# What truncation and exec do to lookups

A lookup is the effect of the list that a process sees, so an operation is
described here by what `vaddrToRegion` returns after it, for every address.

`locked_truncate` compares ends computed with wrapping sums. A range that ends at
or above the top of the address space has a small sum, and is found in a region
that it is no part of. The region then grows instead.
-/

namespace K42.RegionList

open MachineWord Interval
open RegionHolder (bound stop)

/-! ## Lookups -/

/-- The status of a lookup that finds nothing. -/
abbrev notFound : Except Failure RegionRef := .error (.serror 1485 100 .EINVAL)

/-- The first holder that a lookup takes. -/
def holderOf (l : List RegionHolder) (a : ℕ) : Option RegionHolder :=
  l.find? (fun r => decide (r.vaddr ≤ a ∧ a < r.bound))

theorem vaddrToRegion_eq (rl : RegionList) (a : ℕ) :
    rl.vaddrToRegion a =
      ((holderOf rl.regions a).map (fun r => Except.ok r.reg)).getD notFound := by
  rw [vaddrToRegion, holderOf]
  cases rl.regions.find? (fun r => decide (r.vaddr ≤ a ∧ a < r.bound)) <;> rfl

theorem holderOf_append (pre mid post : List RegionHolder) (a : ℕ) :
    holderOf (pre ++ (mid ++ post)) a =
      ((holderOf pre a).or (holderOf mid a)).or (holderOf post a) := by
  rw [holderOf, List.find?_append, List.find?_append, Option.or_assoc]
  rfl

variable {a lo hi size start : ℕ} {r : RegionRef} {rl rl' : RegionList}

theorem holderOf_eq_none {l : List RegionHolder}
    (h : ∀ r ∈ l, r.vaddr ≤ a → r.bound ≤ a) : holderOf l a = none := by
  refine List.find?_eq_none.mpr ?_
  intro r hr hc
  have hc' := of_decide_eq_true hc
  have := h r hr hc'.1
  omega

theorem holderOf_singleton (r : RegionHolder) (a : ℕ) :
    holderOf [r] a = if r.vaddr ≤ a ∧ a < r.bound then some r else none := by
  rw [holderOf, List.find?_singleton]
  simp only [decide_eq_true_eq]

/-- Below a holder of an ordered list nothing before it is hidden, and above it
nothing before it is found. -/
theorem Ordered.holderOf_pre {pre post : List RegionHolder} {r : RegionHolder}
    (ho : Ordered lo hi (pre ++ r :: post)) (hhi : hi < UVAL) (ha : r.vaddr ≤ a) :
    holderOf pre a = none := by
  refine holderOf_eq_none ?_
  intro x hx _
  have hbelow := ho.1.below x hx
  rw [ho.bound_eq hhi (List.mem_append_left _ hx)]
  omega

theorem Ordered.holderOf_post {pre post : List RegionHolder} {r : RegionHolder}
    (ho : Ordered lo hi (pre ++ r :: post)) (ha : a < r.stop) : holderOf post a = none := by
  refine holderOf_eq_none ?_
  intro x hx hle
  have habove := ho.1.above x hx
  omega

/-! ## Attaching -/

/-- **A region attached at a fixed address** is found in its range, and every
other lookup is as before. -/
theorem attachFixedRegion_lookup {vaddr : ℕ} {reg : RegionRef} {type : RegionType} (hi : Inv rl)
    (h : rl.attachFixedRegion vaddr size reg type = .ok rl') (a : ℕ) :
    rl'.vaddrToRegion a =
      if vaddr ≤ a ∧ a < vaddr + size then .ok reg else rl.vaddrToRegion a := by
  have hi' := (attachFixedRegion_keeps hi h).inv hi
  obtain ⟨⟨rl₁, i⟩, hr, rfl⟩ := map_eq_ok h
  obtain ⟨l', rfl, -, -, -, pre, post, hl, rfl, rfl, hpre, hpost⟩ := reserveFixedSpace_spec hi hr
  have hregions : (attachAt { rl with regions := pre ++ .new vaddr size :: post } pre.length
      reg type).regions = pre ++ ⟨type, vaddr, size, reg⟩ :: post :=
    modify_length_append pre _ post _
  have ho := hi'.ordered
  rw [hregions] at ho
  have hb := ho.bound_eq hi'.regionsEnd (List.mem_append_right pre List.mem_cons_self)
  have hmid : holderOf [⟨type, vaddr, size, reg⟩] a =
      if vaddr ≤ a ∧ a < vaddr + size then some ⟨type, vaddr, size, reg⟩ else none := by
    rw [holderOf_singleton, hb]
    rfl
  rw [vaddrToRegion_eq, vaddrToRegion_eq, hregions, hl]
  rw [show pre ++ (⟨type, vaddr, size, reg⟩ : RegionHolder) :: post =
    pre ++ ([⟨type, vaddr, size, reg⟩] ++ post) from rfl, holderOf_append, hmid]
  split_ifs with hin
  · rw [ho.holderOf_pre hi'.regionsEnd hin.1]
    rfl
  · rw [Option.or_none, holderOf, holderOf, holderOf, List.find?_append]

/-! ## Truncation -/

theorem truncateWalk_cases {start size : ℕ} : ∀ {l l' : List RegionHolder} {r : RegionRef},
    truncateWalk start size l = .ok (l', r) → ∃ (pre : List RegionHolder) (rh : RegionHolder)
      (post mid : List RegionHolder), l = pre ++ rh :: post ∧
      l' = pre ++ (mid ++ post) ∧ r = rh.reg ∧ rh.vaddr ≤ start ∧ add 64 start size ≤ rh.bound ∧
      (∀ x ∈ pre, ¬ (x.vaddr ≤ start ∧ x.bound ≥ add 64 start size)) ∧
      (rh.vaddr = start ∧ rh.size = size ∧ mid = [] ∨
        rh.vaddr = start ∧
          mid = [{ rh with size := sub 64 rh.size size, vaddr := add 64 rh.vaddr size }] ∨
        rh.vaddr ≠ start ∧ rh.bound = add 64 start size ∧
          mid = [{ rh with size := sub 64 rh.size size }])
  | [], _, _, h => by simp [truncateWalk] at h
  | rh :: rest, l', r, h => by
    rw [truncateWalk] at h
    split_ifs at h with h1 h2 h3 h4
    · obtain ⟨rfl, rfl⟩ := Prod.mk.inj (Except.ok.inj h)
      exact ⟨[], rh, rest, [], rfl, rfl, rfl, h1.1, h1.2, by simp, .inl ⟨h2.1, h2.2, rfl⟩⟩
    · obtain ⟨rfl, rfl⟩ := Prod.mk.inj (Except.ok.inj h)
      exact ⟨[], rh, rest, _, rfl, rfl, rfl, h1.1, h1.2, by simp, .inr (.inl ⟨h3, rfl⟩)⟩
    · obtain ⟨rfl, rfl⟩ := Prod.mk.inj (Except.ok.inj h)
      exact ⟨[], rh, rest, _, rfl, rfl, rfl, h1.1, h1.2, by simp, .inr (.inr ⟨h3, h4, rfl⟩)⟩
    · obtain ⟨⟨l'', r'⟩, hr, hp⟩ := map_eq_ok h
      obtain ⟨rfl, rfl⟩ := Prod.mk.inj hp
      obtain ⟨pre, x, post, mid, rfl, rfl, hreg, hle, hge, hpre, hmid⟩ := truncateWalk_cases hr
      refine ⟨rh :: pre, x, post, mid, rfl, rfl, hreg, hle, hge, ?_, hmid⟩
      intro y hy
      rcases List.mem_cons.mp hy with rfl | hy
      · exact h1
      · exact hpre y hy

/-- What is left of `rh` after a cut that does not wrap: nothing, or its back, or
its front. -/
theorem truncate_left {rh : RegionHolder} {mid : List RegionHolder}
    (hhi : hi < UVAL) (hin : lo ≤ rh.vaddr ∧ rh.stop ≤ hi) (hb : rh.bound = rh.stop)
    (hw : start + size < UVAL) (hle : rh.vaddr ≤ start) (hge : start + size ≤ rh.stop)
    (hmid : rh.vaddr = start ∧ rh.size = size ∧ mid = [] ∨
      rh.vaddr = start ∧
        mid = [{ rh with size := sub 64 rh.size size, vaddr := add 64 rh.vaddr size }] ∨
      rh.vaddr ≠ start ∧ rh.bound = add 64 start size ∧
        mid = [{ rh with size := sub 64 rh.size size }]) :
    (mid = [] ∧ rh.vaddr = start ∧ rh.stop = start + size) ∨
      ∃ x : RegionHolder, mid = [x] ∧ x.reg = rh.reg ∧
        (x.vaddr = start + size ∧ x.bound = rh.stop ∧ rh.vaddr = start ∨
          x.vaddr = rh.vaddr ∧ x.bound = start ∧ rh.stop = start + size) := by
  have hsize : size ≤ rh.size → sub 64 rh.size size = rh.size - size := by
    unfold stop at hin
    exact fun h => sub_of_le (lt_of_le_of_lt (by omega) hhi) h
  rcases hmid with ⟨hv, hz, rfl⟩ | ⟨hv, rfl⟩ | ⟨hv, hz, rfl⟩
  · exact .inl ⟨rfl, hv, by rw [stop, hv, hz]⟩
  · -- the front is cut off
    have hadd : add 64 rh.vaddr size = rh.vaddr + size := add_of_lt (by rw [hv]; exact hw)
    unfold stop at *
    refine .inr ⟨_, rfl, rfl, .inl ⟨by rw [hadd, hv], ?_, hv⟩⟩
    rw [bound, hadd, hsize (by omega), add_of_lt (lt_of_le_of_lt ?_ hhi)] <;>
      dsimp only <;> omega
  · -- the back is cut off
    rw [hb, add_of_lt hw] at hz
    unfold stop at *
    refine .inr ⟨_, rfl, rfl, .inr ⟨rfl, ?_, hz⟩⟩
    rw [bound, hsize (by omega), add_of_lt (lt_of_le_of_lt ?_ hhi)] <;>
      dsimp only <;> omega

/-- After the cut of `[start, start + size)` out of the region `r` no address in
it leads to `r`, and every other lookup is as before. -/
def CutOut (rl rl' : RegionList) (start size : ℕ) (r : RegionRef) : Prop :=
  ∀ a < UVAL, (start ≤ a ∧ a < start + size → rl'.vaddrToRegion a ≠ .ok r) ∧
    (¬ (start ≤ a ∧ a < start + size) → rl'.vaddrToRegion a = rl.vaddrToRegion a)

/-- **A cut that does not wrap** hides its addresses and no other. -/
theorem truncate_lookup (hi : Inv rl)
    (hw : start + size < UVAL) (h : rl.truncate start size = .ok (rl', r)) (a : ℕ) :
    rl'.vaddrToRegion a =
      if start ≤ a ∧ a < start + size then notFound else rl.vaddrToRegion a := by
  have ho := hi.ordered
  obtain ⟨⟨l', r'⟩, hr, hp⟩ := map_eq_ok h
  obtain ⟨rfl, rfl⟩ := Prod.mk.inj hp
  obtain ⟨pre, rh, post, mid, hl, rfl, -, hle, hge, -, hmid⟩ := truncateWalk_cases hr
  rw [hl] at ho
  have hmem : rh ∈ pre ++ rh :: post := List.mem_append_right _ List.mem_cons_self
  have hb := ho.bound_eq hi.regionsEnd hmem
  have hpos := ho.1.pos rh hmem
  rw [add_of_lt hw, hb] at hge
  have hleft := truncate_left hi.regionsEnd (ho.2 rh hmem) hb hw hle hge hmid
  have hold : holderOf (pre ++ rh :: post) a =
      ((holderOf pre a).or (holderOf [rh] a)).or (holderOf post a) :=
    holderOf_append pre [rh] post a
  rw [vaddrToRegion_eq, vaddrToRegion_eq, hl, hold, holderOf_append, holderOf_singleton rh, hb]
  by_cases hcut : start ≤ a ∧ a < start + size
  · rw [if_pos hcut, ho.holderOf_pre hi.regionsEnd (by omega), ho.holderOf_post (by omega)]
    rcases hleft with ⟨rfl, -, -⟩ | ⟨x, rfl, -, hx⟩
    · rfl
    · rw [holderOf_singleton, if_neg (by omega)]
      rfl
  · rw [if_neg hcut]
    rcases hleft with ⟨rfl, h1, h2⟩ | ⟨x, rfl, hreg, hx⟩
    · rw [if_neg (by omega)]
      rfl
    · rw [holderOf_singleton]
      by_cases hin : x.vaddr ≤ a ∧ a < x.bound
      · rw [if_pos hin, if_pos (by omega), ho.holderOf_pre hi.regionsEnd (by omega)]
        exact congrArg Except.ok hreg
      · rw [if_neg hin, if_neg (by omega)]

theorem truncate_cutOut (hi : Inv rl)
    (hw : start + size < UVAL) (h : rl.truncate start size = .ok (rl', r)) :
    CutOut rl rl' start size r := by
  intro a _
  rw [truncate_lookup hi hw h a]
  constructor
  · intro hcut
    rw [if_pos hcut]
    exact fun hc => nomatch hc
  · intro hcut
    rw [if_neg hcut]

/-! ### A cut that wraps -/

/-- The region `rh` ends where the wrapped range ends. Every address from there up
to the start of the range leads to it, and none from the start on. -/
def LedTo (rl : RegionList) (start : ℕ) (rh : RegionHolder) : Prop :=
  (∀ a, rh.stop ≤ a → a < start → rl.vaddrToRegion a = .ok rh.reg) ∧
    ∀ a < UVAL, start ≤ a → rl.vaddrToRegion a ≠ .ok rh.reg

theorem add_add_sub {z : ℕ} (hsize : size < UVAL) :
    add 64 (add 64 start size) (sub 64 z size) = add 64 start z := by
  unfold add sub
  rw [Nat.mod_add_mod, Nat.add_mod_mod]
  change size < 2 ^ 64 at hsize
  have hsum : start + size + (z + (2 ^ 64 - size)) = start + z + 2 ^ 64 := by omega
  rw [hsum, Nat.add_mod_right]

theorem add_sub_of_wrap {vaddr z : ℕ} (hstart : start < UVAL) (hsize : size < UVAL)
    (hend : add 64 vaddr z = add 64 start size) : add 64 vaddr (sub 64 z size) = start := by
  unfold add sub at *
  rw [Nat.add_mod_mod, ← Nat.add_assoc, Nat.add_mod, hend, ← Nat.add_mod]
  change size < 2 ^ 64 at hsize
  have hsum : start + size + (2 ^ 64 - size) = start + 2 ^ 64 := by omega
  rw [hsum, Nat.add_mod_right]
  exact Nat.mod_eq_of_lt hstart

/-- **A cut that wraps.** It gives the front of the region found to other
addresses, or lets the region grow up to the start of the cut. -/
theorem truncate_wrap_cutOut
    (hi : Inv rl) (hstart : start < UVAL) (hsize : size < UVAL) (hw : UVAL ≤ start + size)
    (h : rl.truncate start size = .ok (rl', r)) :
    CutOut rl rl' start size r ↔
      ∃ rh ∈ rl.regions, rh.stop = add 64 start size ∧ rl.LedTo start rh := by
  have ho := hi.ordered
  obtain ⟨⟨l', r'⟩, hr, hp⟩ := map_eq_ok h
  obtain ⟨rfl, rfl⟩ := Prod.mk.inj hp
  obtain ⟨pre, rh, post, mid, hl, rfl, rfl, hle, hge, hpre, hmid⟩ := truncateWalk_cases hr
  rw [hl] at ho
  have hmem : rh ∈ pre ++ rh :: post := List.mem_append_right _ List.mem_cons_self
  have hb := ho.bound_eq hi.regionsEnd hmem
  have hpos := ho.1.pos rh hmem
  have hstop := (ho.2 rh hmem).2
  have hend := hi.regionsEnd
  have hwrap : add 64 start size = start + size - UVAL := by
    unfold add
    rw [Nat.mod_eq_sub_mod hw]
    exact Nat.mod_eq_of_lt (by omega)
  have hold : ∀ a, holderOf (pre ++ rh :: post) a =
      ((holderOf pre a).or (holderOf [rh] a)).or (holderOf post a) :=
    holderOf_append pre [rh] post
  rcases hmid with ⟨hv, hz, -⟩ | ⟨hv, rfl⟩ | ⟨hv, hz, rfl⟩
  · -- the range of a region does not wrap
    unfold stop at hstop
    omega
  · constructor
    · -- the start of the cut still leads to the region
      intro hcut
      have hlookup := (hcut start hstart).1 ⟨le_rfl, by omega⟩
      refine absurd ?_ hlookup
      have hbound : (RegionHolder.mk rh.type (add 64 rh.vaddr size) (sub 64 rh.size size)
          rh.reg).bound = rh.stop := by
        rw [← hb]
        exact add_add_sub hsize
      rw [vaddrToRegion_eq, holderOf_append, ho.holderOf_pre hi.regionsEnd (by omega),
        holderOf_singleton, if_pos]
      · rfl
      · dsimp only at hbound ⊢
        rw [hbound, hv, hwrap]
        omega
    · -- a region that ends at the wrapped end would have been found first
      rintro ⟨x, hx, hxs, -⟩
      rw [hl] at hx
      have hxb := ho.bound_eq hi.regionsEnd hx
      have hxpos := ho.1.pos x hx
      rcases List.mem_append.mp hx with hx | hx
      · exact absurd ⟨by omega, by omega⟩ (hpre x hx)
      · rcases List.mem_cons.mp hx with rfl | hx
        · omega
        · have habove := ho.1.above x hx
          omega
  · rw [hb] at hz
    have hbound : (RegionHolder.mk rh.type rh.vaddr (sub 64 rh.size size) rh.reg).bound = start :=
      add_sub_of_wrap hstart hsize (by rw [← hz, ← hb]; rfl)
    have hnew : ∀ a, ({ rl with regions := pre ++ ([{ rh with size := sub 64 rh.size size }] ++
        post) } : RegionList).vaddrToRegion a =
        if rh.stop ≤ a ∧ a < start then .ok rh.reg else rl.vaddrToRegion a := by
      intro a
      rw [vaddrToRegion_eq, vaddrToRegion_eq, hl, hold, holderOf_append, holderOf_singleton rh, hb,
        holderOf_singleton, hbound]
      dsimp only
      by_cases hgrown : rh.stop ≤ a ∧ a < start
      · rw [if_pos hgrown, ho.holderOf_pre hi.regionsEnd (by omega), if_pos (by omega)]
        rfl
      · rw [if_neg hgrown]
        by_cases hin : rh.vaddr ≤ a ∧ a < rh.stop
        · rw [if_pos hin, if_pos (by omega)]
          cases holderOf pre a <;> rfl
        · rw [if_neg hin, if_neg (by omega)]
    have hiff : CutOut rl { rl with regions := pre ++ ([{ rh with size := sub 64 rh.size size }] ++
        post) } start size rh.reg ↔ rl.LedTo start rh := by
      unfold CutOut LedTo
      constructor
      · intro hcut
        refine ⟨?_, ?_⟩
        · intro a h1 h2
          rw [← (hcut a (by omega)).2 (by omega), hnew, if_pos ⟨h1, h2⟩]
        · intro a h1 h2
          have := (hcut a h1).1 ⟨h2, by omega⟩
          rwa [hnew, if_neg (by omega)] at this
      · rintro ⟨h1, h2⟩ a ha
        refine ⟨?_, ?_⟩
        · rintro ⟨h3, -⟩
          rw [hnew, if_neg (by omega)]
          exact h2 a ha h3
        · intro h3
          rw [hnew]
          split_ifs with hgrown
          · exact (h1 a hgrown.1 hgrown.2).symm
          · rfl
    rw [hiff]
    constructor
    · intro hled
      exact ⟨rh, by rw [hl]; exact hmem, hz, hled⟩
    · rintro ⟨x, hx, hxs, hled⟩
      rw [hl] at hx
      have hxpos := ho.1.pos x hx
      obtain rfl := ho.1.eq_of_mem (x := rh.stop - 1) hx hmem ⟨by omega, by omega⟩
        ⟨by omega, by omega⟩
      exact hled

/-- A cut that the code accepts takes its addresses from the region and keeps every
other lookup exactly when it does not wrap, or nothing that it changes is seen. -/
theorem truncate_cutOut_iff (hi : Inv rl) (hstart : start < UVAL) (hsize : size < UVAL)
    (h : rl.truncate start size = .ok (rl', r)) :
    CutOut rl rl' start size r ↔ start + size < UVAL ∨
      ∃ rh ∈ rl.regions, rh.stop = add 64 start size ∧ rl.LedTo start rh := by
  by_cases hw : start + size < UVAL
  · exact ⟨fun _ => .inl hw, fun _ => truncate_cutOut hi hw h⟩
  · rw [truncate_wrap_cutOut hi hstart hsize (Nat.le_of_not_lt hw) h]
    constructor
    · exact .inr
    · rintro (hlt | hled)
      · exact absurd hlt hw
      · exact hled

/-! ## Truncation with insertion -/

/-- The lookups after the cut and the insertion of the new regions, the second of
which is optional. -/
def replacedLookup (rl : RegionList) (truncVaddr truncSize newVaddr1 newSize1 : ℕ)
    (newReg1 : RegionRef) (newVaddr2 newSize2 : ℕ) (newReg2 : RegionRef) (a : ℕ) :
    Except Failure RegionRef :=
  if newReg2 ≠ 0 ∧ newVaddr2 ≤ a ∧ a < newVaddr2 + newSize2 then .ok newReg2
  else if newVaddr1 ≤ a ∧ a < newVaddr1 + newSize1 then .ok newReg1
  else if truncVaddr ≤ a ∧ a < truncVaddr + truncSize then notFound
  else rl.vaddrToRegion a

/-- **Truncation with insertion** of regions that the code accepts. -/
theorem truncateAndInsertInPlace_lookup {tv ts v1 s1 v2 s2 : ℕ}
    {r1 r2 : RegionRef} {t1 t2 : RegionType} (hi : Inv rl) (hw : tv + ts < UVAL)
    (h : rl.truncateAndInsertInPlace tv ts v1 s1 r1 t1 v2 s2 r2 t2 = .ok rl') (a : ℕ) :
    rl'.vaddrToRegion a = rl.replacedLookup tv ts v1 s1 r1 v2 s2 r2 a := by
  unfold truncateAndInsertInPlace at h
  unfold replacedLookup
  cases ht : rl.truncate tv ts with
  | error e => simp [ht] at h
  | ok p =>
    obtain ⟨rl1, r⟩ := p
    have hi1 := (truncate_keeps hi hw ht).inv hi
    cases h1 : rl1.attachFixedRegion v1 s1 r1 t1 with
    | error e => simp [ht, h1] at h
    | ok rl2 =>
      have hi2 := (attachFixedRegion_keeps hi1 h1).inv hi1
      have hlookup : rl2.vaddrToRegion a = if v1 ≤ a ∧ a < v1 + s1 then .ok r1
          else if tv ≤ a ∧ a < tv + ts then notFound else rl.vaddrToRegion a := by
        rw [attachFixedRegion_lookup hi1 h1, truncate_lookup hi hw ht]
      simp only [ht, h1] at h
      split_ifs at h with hz
      · have hno : ¬ (r2 ≠ 0 ∧ v2 ≤ a ∧ a < v2 + s2) := fun hc => hc.1 hz
        rw [← Except.ok.inj h, hlookup, if_neg hno]
      · cases h2 : rl2.attachFixedRegion v2 s2 r2 t2 with
        | error e => simp [h2] at h
        | ok rl3 =>
          simp only [h2] at h
          rw [← Except.ok.inj h, attachFixedRegion_lookup hi2 h2, hlookup]
          by_cases hin : v2 ≤ a ∧ a < v2 + s2
          · rw [if_pos hin, if_pos ⟨hz, hin⟩]
          · have hno : ¬ (r2 ≠ 0 ∧ v2 ≤ a ∧ a < v2 + s2) := fun hc => hin hc.2
            rw [if_neg hin, if_neg hno]

/-! ## Exec -/

theorem destroyRegion_sublist (rl : RegionList) (r : RegionRef) :
    (rl.destroyRegion r).regions.Sublist rl.regions := by
  unfold destroyRegion detachRegion
  split_ifs
  · exact List.eraseP_sublist
  · exact List.Sublist.refl _

theorem foldl_destroyRegion_sublist (refs : List RegionRef) (rl : RegionList) :
    (refs.foldl destroyRegion rl).regions.Sublist rl.regions := by
  induction refs generalizing rl with
  | nil => exact List.Sublist.refl _
  | cons r refs ih => exact (ih _).trans (destroyRegion_sublist rl r)

theorem destroyRegion_eq_self_iff (rl : RegionList) (r : RegionRef) :
    (rl.destroyRegion r).regions = rl.regions ↔ ∀ h ∈ rl.regions, h.reg ≠ r := by
  unfold destroyRegion detachRegion
  constructor
  · intro heq h hm hr
    have hany : rl.regions.any (fun rh => decide (rh.reg = r)) = true :=
      List.any_eq_true.mpr ⟨h, hm, by simp [hr]⟩
    rw [if_pos hany] at heq
    -- one holder is gone
    have hlen := List.length_eraseP_of_mem (p := fun rh => decide (rh.reg = r)) hm (by simp [hr])
    have hlen' := congrArg List.length heq
    have hpos := List.length_pos_of_mem hm
    dsimp only at hlen'
    omega
  · intro hno
    have hany : ¬ rl.regions.any (fun rh => decide (rh.reg = r)) = true := by
      intro hc
      obtain ⟨h, hm, hr⟩ := List.any_eq_true.mp hc
      exact hno h hm (of_decide_eq_true hr)
    rw [if_neg hany]

theorem foldl_destroyRegion_eq_self_iff (refs : List RegionRef) (rl : RegionList) :
    (refs.foldl destroyRegion rl).regions = rl.regions ↔
      ∀ r ∈ refs, ∀ h ∈ rl.regions, h.reg ≠ r := by
  induction refs generalizing rl with
  | nil => simp
  | cons r refs ih =>
    rw [List.foldl_cons, List.forall_mem_cons, ← destroyRegion_eq_self_iff]
    constructor
    · intro heq
      -- what is lost at one callback does not come back
      have hfirst : (rl.destroyRegion r).regions = rl.regions := by
        refine (destroyRegion_sublist rl r).eq_of_length_le ?_
        rw [← heq]
        exact (foldl_destroyRegion_sublist refs _).length_le
      have hrest := (ih (rl.destroyRegion r)).mp (by rw [heq, hfirst])
      rw [hfirst] at hrest
      exact ⟨hfirst, hrest⟩
    · rintro ⟨hfirst, hrest⟩
      rw [(ih (rl.destroyRegion r)).mpr (by rw [hfirst]; exact hrest), hfirst]

/-- **Exec** keeps exactly the holders that are kept, in their order, if and only if
none of them has the region of a holder that is not. -/
theorem preExec_regions_iff (rl : RegionList) :
    rl.preExec.regions = rl.regions.filter (fun h => h.type.keepOnExec) ↔
      ∀ d ∈ rl.regions, d.type.keepOnExec = false →
        ∀ k ∈ rl.regions, k.type.keepOnExec = true → k.reg ≠ d.reg := by
  rw [preExec, foldl_destroyRegion_eq_self_iff
    _ { rl with regions := rl.regions.filter (fun h => h.type.keepOnExec) }]
  simp only [List.forall_mem_map, List.mem_filter, Bool.not_eq_true']
  constructor
  · intro h d hd hdk k hk hkk
    exact h d ⟨hd, hdk⟩ k ⟨hk, hkk⟩
  · rintro h d ⟨hd, hdk⟩ k ⟨hk, hkk⟩
    exact h d hd hdk k hk hkk

/-! ## The three operations -/

/-- **Truncation, insertion and exec.** For every list in order: an accepted cut is
right exactly when it does not wrap (or nothing that it changes is seen); with
insertion, a cut that does not wrap leaves exactly the new ranges in its place; and
exec keeps exactly the holders to keep when no other holder has one of their
regions. -/
theorem truncate_insert_exec {rl : RegionList} (hi : Inv rl) :
    (∀ start size rl' r, start < UVAL → size < UVAL → rl.truncate start size = .ok (rl', r) →
      (CutOut rl rl' start size r ↔ start + size < UVAL ∨
        ∃ rh ∈ rl.regions, rh.stop = add 64 start size ∧ rl.LedTo start rh)) ∧
    (∀ tv ts v1 s1 r1 t1 v2 s2 r2 t2 rl', tv + ts < UVAL →
      rl.truncateAndInsertInPlace tv ts v1 s1 r1 t1 v2 s2 r2 t2 = .ok rl' →
      ∀ a, rl'.vaddrToRegion a = rl.replacedLookup tv ts v1 s1 r1 v2 s2 r2 a) ∧
    (rl.preExec.regions = rl.regions.filter (fun h => h.type.keepOnExec) ↔
      ∀ d ∈ rl.regions, d.type.keepOnExec = false →
        ∀ k ∈ rl.regions, k.type.keepOnExec = true → k.reg ≠ d.reg) := by
  refine ⟨?_, ?_, preExec_regions_iff rl⟩
  · intro start size rl' r hstart hsize h
    exact truncate_cutOut_iff hi hstart hsize h
  · intro tv ts v1 s1 r1 t1 v2 s2 r2 t2 rl' hw h a
    exact truncateAndInsertInPlace_lookup hi hw h a

theorem truncate_insert_exec_oneRegion :
    CutOut oneRegion { oneRegion with regions := [⟨⟨.forkCopy, true⟩, 0x5000, 0x1000, 5⟩] }
        0x4000 0x1000 5 ∧
      ({ oneRegion with regions := [⟨⟨.useSame, false⟩, 0x4000, 0x1000, 7⟩,
        ⟨⟨.forkCopy, true⟩, 0x5000, 0x1000, 5⟩] } : RegionList).vaddrToRegion 0x5fff =
        oneRegion.vaddrToRegion 0x5fff ∧
      oneRegion.preExec.regions = oneRegion.regions := by
  obtain ⟨hcut, hreplaced, hexec⟩ := truncate_insert_exec oneRegion_inv
  refine ⟨?_, ?_, ?_⟩
  · exact (hcut 0x4000 0x1000 _ 5 (by decide) (by decide) (by decide)).mpr (.inl (by decide))
  · exact hreplaced 0x4000 0x1000 0x4000 0x1000 7 ⟨.useSame, false⟩ 0 0 0 ⟨.none, false⟩ _
      (by decide) (by decide) 0x5fff
  · exact hexec.mpr (by decide)

/-- A cut from the start of the region to the top of the address space is accepted,
and the region then has the addresses from `0` on. -/
theorem truncate_wraps :
    ¬ ∀ (rl rl' : RegionList) (start size : ℕ) (r : RegionRef), Inv rl → PageAligned start →
      PageAligned size → start < UVAL → size < UVAL → rl.truncate start size = .ok (rl', r) →
      CutOut rl rl' start size r := by
  intro h
  have hcut := h oneRegion { oneRegion with regions := [⟨⟨.forkCopy, true⟩, 0, 0x6000, 5⟩] }
    0x4000 (UVAL - 0x4000) 5 oneRegion_inv (by decide) (by decide) (by decide) (by decide)
    (by decide)
  exact (hcut 0x4000 (by decide)).1 (by decide) (by decide)

end K42.RegionList
