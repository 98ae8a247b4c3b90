import Mathlib.Data.List.Find
import Mathlib.Data.List.Range
import Mathlib.Data.Nat.Bitwise

/-!
# The hardware segment table

The table has 32 groups of eight entries. An address has a primary group and a secondary one, whose
number is the complement. A full pair of groups loses an entry that is taken at random.

`steg_index + (rand_bits >> 11) & 7` adds first, so that the entry is one of group 0. The search that
goes down in `mapVmapsRSegment` compares an unsigned index with the start of the group, and goes on
below group 0.
-/

open Function (update)

namespace K42.SegmentTableHardware

structure SegDesc where
  ESID : ℕ
  V : Bool
  Bolted : Bool
  VSID : ℕ
deriving DecidableEq

abbrev Table : Type := ℕ → SegDesc

/-- The 5-bit group, shifted for eight entries. -/
def stegIndex (vaddr : ℕ) : ℕ := (vaddr >>> (28 - 3)) &&& 0xF8

/-- The indices of a group. -/
def steg (index : ℕ) : List ℕ := List.range' index 8

/-- The primary group, and then the secondary one. -/
def slots (vaddr : ℕ) : List ℕ := steg (stegIndex vaddr) ++ steg (stegIndex vaddr ^^^ 0xF8)

def maps (t : Table) (vaddr i : ℕ) : Bool := (t i).V && (t i).ESID = vaddr >>> 28

def findSegmentTableEntry (t : Table) (vaddr : ℕ) : Option ℕ := (slots vaddr).find? (maps t vaddr)

/-- `none` for a panic; `rand` is the time base. -/
def evict (t : Table) (vaddr rand : ℕ) : Option ℕ :=
  let i := (stegIndex vaddr + (rand >>> 11)) &&& 7
  if (t i).Bolted then (steg (stegIndex vaddr)).find? fun i => !(t i).Bolted else some i

def findEmptySegmentTableEntry (t : Table) (vaddr rand : ℕ) : Option ℕ :=
  ((slots vaddr).find? fun i => !(t i).V).or (evict t vaddr rand)

def mapSegment (t : Table) (segDesc : SegDesc) (vaddr rand : ℕ) : Option Table :=
  ((findSegmentTableEntry t vaddr).or (findEmptySegmentTableEntry t vaddr rand)).map fun index =>
    update t index { segDesc with ESID := vaddr >>> 28 }

/-- `for (i = steg_index + 7; i >= steg_index; i--)`, where `0` goes down to `2 ^ 64 - 1`; `none` if
it leaves the table. -/
def searchDown (t : Table) (index : ℕ) : ℕ → ℕ → Option ℕ
  | 0, _ => none
  | n + 1, i =>
    if 256 ≤ i then none
    else if index ≤ i ∧ (t i).V then searchDown t index n (if i = 0 then 2 ^ 64 - 1 else i - 1)
    else some i

/-- The search of `mapVmapsRSegment`; a result below the group is a panic. -/
def freeSlot (t : Table) (vaddr : ℕ) : Option ℕ :=
  searchDown t (stegIndex vaddr) 9 (stegIndex vaddr + 7)

/-- Valid entries are in their groups, and no group is bolted as a whole. -/
structure WellFormed (t : Table) : Prop where
  home : ∀ i < 256, (t i).V → i ∈ slots ((t i).ESID <<< 28)
  evictable : ∀ g < 32, ∃ i ∈ steg (8 * g), (t i).Bolted = false

/-- The entry is found, one slot at most has changed, and no bolted entry of another segment. -/
structure Maps (t t' : Table) (segDesc : SegDesc) (vaddr : ℕ) : Prop where
  found : ∃ i, findSegmentTableEntry t' vaddr = some i ∧
    t' i = { segDesc with ESID := vaddr >>> 28 }
  one : ∃ i, ∀ j, j ≠ i → t' j = t j
  bolted : ∀ i, (t i).V → (t i).Bolted → (t i).ESID ≠ vaddr >>> 28 → t' i = t i

/-- What is to hold of an address. -/
def Findable (t : Table) (segDesc : SegDesc) (vaddr rand : ℕ) : Prop :=
  (∃ i ∈ slots vaddr, findEmptySegmentTableEntry t vaddr rand = some i ∧
    ((t i).V = false ∨ (t i).Bolted = false)) ∧
  (∃ t', mapSegment t segDesc vaddr rand = some t' ∧ Maps t t' segDesc vaddr) ∧
  (freeSlot t vaddr).isSome

/-- An entry of group 0 is lost to an address that is not in that group. -/
def EvictsElsewhere (t : Table) (vaddr rand : ℕ) : Prop :=
  (∀ i ∈ slots vaddr, (t i).V) ∧ (t (rand >>> 11 % 8)).Bolted = false ∧
    stegIndex vaddr ≠ 0 ∧ stegIndex vaddr ≠ 0xF8

/-- The address is in group 0, and there is no free entry in it. -/
def FullAtZero (t : Table) (vaddr : ℕ) : Prop := stegIndex vaddr = 0 ∧ ∀ i < 8, (t i).V

/-! ## The groups -/

variable {t t' : Table} {segDesc : SegDesc} {vaddr rand i : ℕ}

theorem stegIndex_eq (vaddr : ℕ) : stegIndex vaddr = 8 * (vaddr >>> 28 % 32) := by
  have hmask : 0xF8 = 2 ^ 3 * (2 ^ 5 - 1) := by decide
  apply Nat.eq_of_testBit_eq
  intro i
  rw [stegIndex, hmask, Nat.testBit_and, Nat.testBit_two_pow_mul, Nat.testBit_two_pow_sub_one,
    show 8 = 2 ^ 3 from rfl, show 32 = 2 ^ 5 from rfl, Nat.testBit_two_pow_mul,
    Nat.testBit_mod_two_pow, Nat.testBit_shiftRight, Nat.testBit_shiftRight]
  by_cases hi : 3 ≤ i
  · have hshift : 28 - 3 + i = 28 + (i - 3) := by omega
    rw [hshift]
    cases vaddr.testBit (28 + (i - 3)) <;> simp
  · simp [hi]

theorem exists_group (vaddr : ℕ) : ∃ g < 32, stegIndex vaddr = 8 * g ∧
    stegIndex vaddr ^^^ 0xF8 = 8 * (31 - g) := by
  have hxor : ∀ g < 32, 8 * g ^^^ 0xF8 = 8 * (31 - g) := by decide
  have hlt := Nat.mod_lt (vaddr >>> 28) (by decide : 0 < 32)
  exact ⟨_, hlt, stegIndex_eq vaddr, by rw [stegIndex_eq, hxor _ hlt]⟩

theorem mem_slots : i ∈ slots vaddr ↔
    i / 8 * 8 = stegIndex vaddr ∨ i / 8 * 8 = stegIndex vaddr ^^^ 0xF8 := by
  obtain ⟨g, hg, hindex, hother⟩ := exists_group vaddr
  unfold slots steg
  rw [List.mem_append, List.mem_range'_1, List.mem_range'_1, hother, hindex]
  omega

/-! ## Eviction -/

theorem evict_cases (hwf : WellFormed t) : ((t (rand >>> 11 % 8)).Bolted = true ∧
      ∃ i ∈ steg (stegIndex vaddr), evict t vaddr rand = some i ∧ (t i).Bolted = false) ∨
    (t (rand >>> 11 % 8)).Bolted = false ∧ evict t vaddr rand = some (rand >>> 11 % 8) := by
  obtain ⟨g, hg, hindex, -⟩ := exists_group vaddr
  have hslot : (stegIndex vaddr + (rand >>> 11)) &&& 7 = rand >>> 11 % 8 := by
    rw [show 7 = 2 ^ 3 - 1 from rfl, Nat.and_two_pow_sub_one_eq_mod, hindex]
    omega
  unfold evict
  simp only [hslot]
  cases hbolted : (t (rand >>> 11 % 8)).Bolted with
  | false => exact .inr ⟨rfl, rfl⟩
  | true =>
    obtain ⟨i, hi, hfree⟩ := hwf.evictable g hg
    rw [← hindex] at hi
    have hsome : ((steg (stegIndex vaddr)).find? fun i => !(t i).Bolted).isSome := by
      rw [List.find?_isSome]
      exact ⟨i, hi, by simp [hfree]⟩
    obtain ⟨j, hj⟩ := Option.isSome_iff_exists.mp hsome
    refine .inl ⟨rfl, j, List.mem_of_find?_eq_some hj, hj, ?_⟩
    simpa using List.find?_some hj

theorem findEmpty_iff (hwf : WellFormed t) :
    (∃ i ∈ slots vaddr, findEmptySegmentTableEntry t vaddr rand = some i ∧
      ((t i).V = false ∨ (t i).Bolted = false)) ↔ ¬ EvictsElsewhere t vaddr rand := by
  obtain ⟨g, hg, hindex, hother⟩ := exists_group vaddr
  unfold findEmptySegmentTableEntry EvictsElsewhere
  cases hempty : (slots vaddr).find? fun i => !(t i).V with
  | some i =>
    have hfree := List.find?_some hempty
    have hmem := List.mem_of_find?_eq_some hempty
    refine iff_of_true ⟨i, hmem, rfl, .inl (by simpa using hfree)⟩ ?_
    rintro ⟨hvalid, -⟩
    simp [hvalid i hmem] at hfree
  | none =>
    have hvalid : ∀ i ∈ slots vaddr, (t i).V := by simpa using hempty
    rw [Option.none_or]
    rcases evict_cases hwf with ⟨hbolted, i, hi, hevict, hfree⟩ | ⟨hbolted, hevict⟩
    · refine iff_of_true ⟨i, List.mem_append_left _ hi, hevict, .inr hfree⟩ ?_
      rintro ⟨-, hfree, -⟩
      rw [hbolted] at hfree
      cases hfree
    · have hgroup : rand >>> 11 % 8 ∈ slots vaddr ↔
          ¬ (stegIndex vaddr ≠ 0 ∧ stegIndex vaddr ≠ 0xF8) := by
        rw [mem_slots, hother, hindex]
        omega
      constructor
      · rintro ⟨i, hi, hsome, -⟩ ⟨-, -, helse⟩
        rw [hevict] at hsome
        cases hsome
        exact hgroup.mp hi helse
      · intro helse
        refine ⟨_, hgroup.mpr fun h => helse ⟨hvalid, hbolted, h⟩, hevict, .inr hbolted⟩

/-! ## Mapping -/

theorem mapSegment_maps (hV : segDesc.V = true)
    (hempty : ∃ i ∈ slots vaddr, findEmptySegmentTableEntry t vaddr rand = some i ∧
      ((t i).V = false ∨ (t i).Bolted = false)) :
    ∃ t', mapSegment t segDesc vaddr rand = some t' ∧ Maps t t' segDesc vaddr := by
  -- where the entry goes, and that no other slot of the groups maps the address
  obtain ⟨i, hi, hindex, hother, hbolted⟩ : ∃ i ∈ slots vaddr,
      (findSegmentTableEntry t vaddr).or (findEmptySegmentTableEntry t vaddr rand) = some i ∧
      (findSegmentTableEntry t vaddr = some i ∨ ∀ j ∈ slots vaddr, maps t vaddr j = false) ∧
      ((t i).V → (t i).Bolted → (t i).ESID = vaddr >>> 28) := by
    cases hfind : findSegmentTableEntry t vaddr with
    | some i =>
      have hmaps := List.find?_some hfind
      refine ⟨i, List.mem_of_find?_eq_some hfind, rfl, .inl rfl, fun _ _ => ?_⟩
      simp only [maps, Bool.and_eq_true, decide_eq_true_eq] at hmaps
      exact hmaps.2
    | none =>
      obtain ⟨i, hi, hsome, hfree⟩ := hempty
      refine ⟨i, hi, hsome, .inr ?_, fun hV hB => ?_⟩
      · simpa [findSegmentTableEntry] using hfind
      · rcases hfree with hfree | hfree
        · rw [hV] at hfree
          cases hfree
        · rw [hB] at hfree
          cases hfree
  refine ⟨_, by rw [mapSegment, hindex]; rfl, ?_, ⟨i, fun j hj => Function.update_of_ne hj _ _⟩, ?_⟩
  · refine ⟨i, ?_, Function.update_self _ _ _⟩
    have hself : maps (update t i { segDesc with ESID := vaddr >>> 28 }) vaddr i = true := by
      simp [maps, hV]
    have hne : ∀ j, j ≠ i →
        maps (update t i { segDesc with ESID := vaddr >>> 28 }) vaddr j = maps t vaddr j := by
      intro j hj
      rw [maps, Function.update_of_ne hj]
      rfl
    rcases hother with hfind | hnone
    · refine Eq.trans (List.find?_congr fun j _ => ?_) hfind
      by_cases hj : j = i
      · subst hj
        rw [hself]
        exact (List.find?_some hfind).symm
      · exact hne j hj
    · obtain ⟨j, hj⟩ := Option.isSome_iff_exists.mp (List.find?_isSome.mpr ⟨i, hi, hself⟩)
      have hmaps := List.find?_some hj
      by_cases hji : j = i
      · rw [hji] at hj
        exact hj
      · rw [hne j hji, hnone j (List.mem_of_find?_eq_some hj)] at hmaps
        cases hmaps
  · intro j hV hB hne
    refine Function.update_of_ne ?_ _ _
    rintro rfl
    exact hne (hbolted hV hB)

/-! ## The search of `mapVmapsRSegment` -/

theorem searchDown_isSome {index : ℕ} (hindex : 8 ≤ index) {n : ℕ} (hi : index ≤ i + 1)
    (hlt : i < 256) (hn : i + 1 < index + n) : (searchDown t index n i).isSome := by
  induction n generalizing i with
  | zero => omega
  | succ n ih =>
    rw [searchDown, if_neg (by omega)]
    split_ifs with hgo hzero
    · omega
    · exact ih (by omega) (by omega) (by omega)
    · rfl

theorem searchDown_zero (t : Table) {n : ℕ} (hi : i < 256) (hn : i + 1 < n) :
    (searchDown t 0 n i).isSome ↔ ∃ j ≤ i, (t j).V = false := by
  induction i generalizing n with
  | zero =>
    obtain ⟨n, rfl⟩ := Nat.exists_eq_add_of_lt hn
    rw [show 0 + 1 + n + 1 = (n + 1) + 1 by omega, searchDown, if_neg (by decide)]
    cases hV : (t 0).V <;> simp [hV, searchDown]
  | succ i ih =>
    obtain ⟨n, rfl⟩ := Nat.exists_eq_add_of_lt hn
    rw [searchDown, if_neg (by omega)]
    cases hV : (t (i + 1)).V with
    | false => simpa [hV] using ⟨i + 1, le_rfl, hV⟩
    | true =>
      simp only [Nat.zero_le, true_and, if_true, Nat.succ_ne_zero, if_false, Nat.add_sub_cancel]
      rw [ih (by omega) (by omega)]
      constructor
      · rintro ⟨j, hj, hfree⟩
        exact ⟨j, by omega, hfree⟩
      · rintro ⟨j, hj, hfree⟩
        refine ⟨j, ?_, hfree⟩
        rcases Nat.lt_succ_iff_lt_or_eq.mp (Nat.lt_succ_of_le hj) with hlt | rfl
        · omega
        · rw [hV] at hfree
          cases hfree

theorem freeSlot_iff : (freeSlot t vaddr).isSome ↔ ¬ FullAtZero t vaddr := by
  obtain ⟨g, hg, hindex, -⟩ := exists_group vaddr
  unfold freeSlot FullAtZero
  by_cases hzero : stegIndex vaddr = 0
  · rw [hzero, searchDown_zero t (by decide) (by decide)]
    simp only [true_and, not_forall, Bool.not_eq_true]
    exact ⟨fun ⟨j, hj, h⟩ => ⟨j, by omega, h⟩, fun ⟨j, hj, h⟩ => ⟨j, by omega, h⟩⟩
  · refine iff_of_true (searchDown_isSome (by omega) (by omega) (by omega) (by omega)) ?_
    exact fun h => hzero h.1

/-- **Entries stay findable** just if no entry of group 0 is lost to another group, and group 0 has
an entry that is free for a search in it. -/
theorem findable_iff (hwf : WellFormed t) (hV : segDesc.V = true) :
    Findable t segDesc vaddr rand ↔ ¬ EvictsElsewhere t vaddr rand ∧ ¬ FullAtZero t vaddr := by
  unfold Findable
  rw [findEmpty_iff hwf, freeSlot_iff]
  constructor
  · rintro ⟨hempty, -, hfree⟩
    exact ⟨hempty, hfree⟩
  · rintro ⟨hempty, hfree⟩
    exact ⟨hempty, mapSegment_maps hV ((findEmpty_iff hwf).mpr hempty), hfree⟩

theorem findable_iff_empty :
    Findable (fun _ => ⟨0, false, false, 0⟩) ⟨0, true, false, 7⟩ 0x30000000 0 ↔
      ¬ EvictsElsewhere (fun _ => ⟨0, false, false, 0⟩) 0x30000000 0 ∧
        ¬ FullAtZero (fun _ => ⟨0, false, false, 0⟩) 0x30000000 :=
  findable_iff ⟨fun _ _ => nofun, fun g _ => ⟨8 * g, by simp [steg], rfl⟩⟩ rfl

/-- Groups 3 and 28 are full, and an entry of group 0 is taken. -/
theorem not_findable : ¬ ∀ (t : Table) (segDesc : SegDesc) (vaddr rand : ℕ), WellFormed t →
    segDesc.V = true → Findable t segDesc vaddr rand := by
  intro h
  have hwf : WellFormed fun i => ⟨i / 8, true, false, 0⟩ := by
    refine ⟨fun i hi _ => mem_slots.mpr (.inl ?_), fun g _ => ⟨8 * g, by simp [steg], rfl⟩⟩
    rw [stegIndex_eq, Nat.shiftLeft_shiftRight]
    change i / 8 * 8 = 8 * (i / 8 % 32)
    omega
  obtain ⟨⟨i, hi, hempty, -⟩, -⟩ := h _ ⟨0, true, false, 7⟩ 0x230000000 0 hwf rfl
  revert i
  decide

end K42.SegmentTableHardware
