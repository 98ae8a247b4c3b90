import Mathlib.Data.List.Range
import Mathlib.Data.List.Nodup

/-!
# Sets of virtual processors

A `VPSet` is a word with one bit for each processor. Loops over a set go from `firstVP` to
`nextVP` below a limit.
-/

namespace K42

@[ext]
structure VPSet where
  vec : BitVec 64
deriving DecidableEq

namespace VPSet

def init : VPSet := ⟨0⟩

def addVP (s : VPSet) (vp : ℕ) : VPSet := ⟨s.vec ||| 1#64 <<< vp⟩

def unite (s set : VPSet) : VPSet := ⟨s.vec ||| set.vec⟩

def intersect (s other : VPSet) : VPSet := ⟨s.vec &&& other.vec⟩

def isSet (s : VPSet) (vp : ℕ) : Bool := s.vec &&& 1#64 <<< vp ≠ 0#64

/-- The scan shared by `firstVP` and `nextVP`: from `vp` on, at most `left` processors. -/
def scan (s : VPSet) : (left vp : ℕ) → ℕ
  | 0, vp => vp
  | left + 1, vp => if s.isSet vp then vp else scan s left (vp + 1)

def firstVP (s : VPSet) (limit : ℕ) : ℕ :=
  if s.vec = 0#64 then limit else s.scan limit 0

def nextVP (s : VPSet) (vp limit : ℕ) : ℕ :=
  if s.vec >>> (vp + 1) = 0#64 then limit else s.scan (limit - (vp + 1)) (vp + 1)

/-- The processors that a loop goes through, from the processor `vp` on. -/
def visits (s : VPSet) (limit : ℕ) : (left vp : ℕ) → List ℕ
  | 0, _ => []
  | left + 1, vp => if vp < limit then vp :: visits s limit left (s.nextVP vp limit) else []

/-- The processors of the set below the limit, in the order of the loop. -/
def members (s : VPSet) (limit : ℕ) : List ℕ := s.visits limit limit (s.firstVP limit)

/-! ## Membership -/

variable {s set : VPSet} {vp limit : ℕ}

theorem getLsbD_mask (vp i : ℕ) : (1#64 <<< vp).getLsbD i = true ↔ i = vp ∧ i < 64 := by
  simp only [BitVec.getLsbD_shiftLeft, Bool.and_eq_true, decide_eq_true_iff, Bool.not_eq_true',
    decide_eq_false_iff_not, BitVec.getLsbD_one]
  omega

theorem isSet_iff : s.isSet vp ↔ s.vec.getLsbD vp = true := by
  unfold isSet
  rw [decide_eq_true_iff, ne_eq, BitVec.zero_iff_eq_false, not_forall]
  constructor
  · rintro ⟨i, hi⟩
    rw [BitVec.getLsbD_and, Bool.not_eq_false, Bool.and_eq_true, getLsbD_mask] at hi
    rw [← hi.2.1]
    exact hi.1
  · intro h
    have hvp : vp < 64 := by
      by_contra hge
      rw [BitVec.getLsbD_of_ge _ _ (by omega)] at h
      cases h
    refine ⟨vp, ?_⟩
    rw [BitVec.getLsbD_and, h, Bool.true_and, (getLsbD_mask vp vp).2 ⟨rfl, hvp⟩]
    exact nofun

theorem scan_spec (s : VPSet) : ∀ left vp, vp ≤ s.scan left vp ∧ s.scan left vp ≤ vp + left ∧
    (∀ u, vp ≤ u → u < s.scan left vp → ¬ s.isSet u) ∧
    (s.scan left vp < vp + left → s.isSet (s.scan left vp)) := by
  intro left
  induction left with
  | zero => exact fun vp => ⟨le_rfl, le_rfl, fun u h hu => absurd hu (Nat.not_lt.2 h),
      fun h => absurd h (lt_irrefl _)⟩
  | succ left ih =>
    intro vp
    unfold scan
    split
    · rename_i hset
      exact ⟨le_rfl, Nat.le_add_right _ _, fun u h hu => absurd hu (Nat.not_lt.2 h), fun _ => hset⟩
    · rename_i hset
      obtain ⟨hge, hle, hnone, hsome⟩ := ih (vp + 1)
      refine ⟨by omega, by omega, ?_, fun hlt => hsome (by omega)⟩
      intro u hu hlt
      rcases Nat.eq_or_lt_of_le hu with rfl | hu
      · exact hset
      · exact hnone u hu hlt

theorem not_isSet_of_shift (h : s.vec >>> vp = 0#64) {u : ℕ} (hu : vp ≤ u) : ¬ s.isSet u := by
  rw [isSet_iff]
  have hbit := congrArg (fun v : BitVec 64 => v.getLsbD (u - vp)) h
  simp only [BitVec.getLsbD_ushiftRight] at hbit
  rw [Nat.add_sub_cancel' hu] at hbit
  simp [hbit]

theorem nextVP_spec (s : VPSet) (hvp : vp < limit) :
    vp < s.nextVP vp limit ∧ s.nextVP vp limit ≤ limit ∧
      (∀ u, vp < u → u < s.nextVP vp limit → ¬ s.isSet u) ∧
      (s.nextVP vp limit < limit → s.isSet (s.nextVP vp limit)) := by
  unfold nextVP
  split
  · rename_i hzero
    exact ⟨hvp, le_rfl, fun u hu _ => not_isSet_of_shift hzero hu, fun h => absurd h (lt_irrefl _)⟩
  · obtain ⟨hge, hle, hnone, hsome⟩ := s.scan_spec (limit - (vp + 1)) (vp + 1)
    exact ⟨by omega, by omega, hnone, fun hlt => hsome (by omega)⟩

theorem firstVP_spec (s : VPSet) (limit : ℕ) :
    s.firstVP limit ≤ limit ∧ (∀ u, u < s.firstVP limit → ¬ s.isSet u) ∧
      (s.firstVP limit < limit → s.isSet (s.firstVP limit)) := by
  unfold firstVP
  split
  · rename_i hzero
    refine ⟨le_rfl, fun u _ => ?_, fun h => absurd h (lt_irrefl _)⟩
    have hshift : s.vec >>> 0 = 0#64 := by
      rw [hzero]
      rfl
    exact not_isSet_of_shift hshift (Nat.zero_le u)
  · obtain ⟨-, hle, hnone, hsome⟩ := s.scan_spec limit 0
    exact ⟨by omega, fun u hu => hnone u (Nat.zero_le u) hu, fun hlt => hsome (by omega)⟩

theorem visits_spec (s : VPSet) (limit : ℕ) : ∀ left vp, limit ≤ vp + left → vp ≤ limit →
    (vp < limit → s.isSet vp) → (s.visits limit left vp).Pairwise (· < ·) ∧
      ∀ u, u ∈ s.visits limit left vp ↔ vp ≤ u ∧ u < limit ∧ s.isSet u := by
  intro left
  induction left with
  | zero =>
    intro vp hle hvp _
    refine ⟨List.Pairwise.nil, fun u => ?_⟩
    simp only [visits, List.not_mem_nil, false_iff]
    rintro ⟨hu, hlt, -⟩
    omega
  | succ left ih =>
    intro vp hle hvp hset
    unfold visits
    split
    · rename_i hlt
      obtain ⟨hnext, hbound, hnone, hsome⟩ := s.nextVP_spec hlt
      obtain ⟨hsorted, hmem⟩ := ih (s.nextVP vp limit) (by omega) hbound hsome
      refine ⟨List.Pairwise.cons (fun u hu => ?_) hsorted, fun u => ?_⟩
      · have := ((hmem u).1 hu).1
        omega
      · rw [List.mem_cons, hmem]
        constructor
        · rintro (rfl | ⟨hu, hul, hus⟩)
          · exact ⟨le_rfl, hlt, hset hlt⟩
          · exact ⟨by omega, hul, hus⟩
        · rintro ⟨hu, hul, hus⟩
          rcases Nat.eq_or_lt_of_le hu with rfl | hu
          · exact .inl rfl
          · refine .inr ⟨?_, hul, hus⟩
            by_contra hlow
            exact hnone u hu (by omega) hus
    · rename_i hge
      refine ⟨List.Pairwise.nil, fun u => ?_⟩
      simp only [List.not_mem_nil, false_iff]
      rintro ⟨hu, hlt, -⟩
      omega

theorem mem_members : vp ∈ s.members limit ↔ vp < limit ∧ s.isSet vp := by
  obtain ⟨hle, hnone, hsome⟩ := s.firstVP_spec limit
  rw [members, (s.visits_spec limit limit (s.firstVP limit) (Nat.le_add_left _ _) hle hsome).2]
  constructor
  · exact fun h => h.2
  · intro h
    refine ⟨?_, h⟩
    by_contra hlt
    exact hnone vp (by omega) h.2

theorem members_nodup (s : VPSet) (limit : ℕ) : (s.members limit).Nodup := by
  obtain ⟨hle, -, hsome⟩ := s.firstVP_spec limit
  have hsorted := (s.visits_spec limit limit (s.firstVP limit) (Nat.le_add_left _ _) hle hsome).1
  exact hsorted.imp fun h => Nat.ne_of_lt h

theorem isSet_unite : (s.unite set).isSet vp ↔ s.isSet vp ∨ set.isSet vp := by
  simp [isSet_iff, unite]

theorem isSet_intersect : (s.intersect set).isSet vp ↔ s.isSet vp ∧ set.isSet vp := by
  simp [isSet_iff, intersect]

theorem isSet_addVP {u : ℕ} (hu : u < 64) : (s.addVP u).isSet vp ↔ s.isSet vp ∨ vp = u := by
  rw [isSet_iff, isSet_iff, addVP, BitVec.getLsbD_or, Bool.or_eq_true, getLsbD_mask]
  refine or_congr_right ⟨fun h => h.1, ?_⟩
  rintro rfl
  exact ⟨rfl, hu⟩

end VPSet

end K42
