import K42.KFS.TruncateSweep

/-!
# Truncation of block maps

Truncation to a direct block frees what the file has from there on. Started from a
block behind an indirect pointer, the sweep goes through the record as if it were an
indirect block.
-/

namespace K42

open RadixTree

namespace PSOSmall

variable {p p' : PSOSmall} {F : Forest}

/-! ## Indirect blocks -/

/-- Block `b` is an indirect block with `h` levels of pointers. -/
inductive Indirect (p : PSOSmall) : ℕ → ℕ → Prop
  | root {i : ℕ} (hi : 25 ≤ i ∧ i < 28) (hptr : p.dBlk i ≠ 0) : Indirect p (i - 24) (p.dBlk i)
  | child {h b i : ℕ} (hb : Indirect p (h + 2) b) (hi : i < 1024) (hptr : p.disk b i ≠ 0) :
      Indirect p (h + 1) (p.disk b i)

def IsIndirect (p : PSOSmall) (b : ℕ) : Prop := ∃ h, Indirect p h b

/-- A subtree of one of the trees. -/
structure Below {h : ℕ} (p : PSOSmall) (F : Forest) (i : ℕ) (t : RadixTree ℕ h) : Prop where
  reps : t.Reps 1024 p.disk
  inner : ∀ x ∈ t.inner 1024, x ∈ (F i).inner 1024

theorem inner_eq_nil {h : ℕ} {t : RadixTree ℕ h} (hh : h = 0) : t.inner 1024 = [] := by
  cases t with
  | empty => rfl
  | leaf b => rfl
  | node b kids => omega

theorem root_mem_inner {h : ℕ} {t : RadixTree ℕ h} (hh : 0 < h) (hroot : t.root ≠ 0) :
    t.root ∈ t.inner 1024 := by
  cases t with
  | empty => exact absurd rfl hroot
  | leaf b => omega
  | node b kids => exact mem_inner_node.mpr (.inr rfl)

theorem Holds.below_of_indirect (h : Holds p F) {k b : ℕ} (hb : Indirect p k b) :
    b ≠ 0 ∧ 0 < k ∧ ∃ i < 28, ∃ t : RadixTree ℕ k, t.root = b ∧ Below p F i t := by
  induction hb with
  | @root i hi hptr =>
    exact ⟨hptr, by omega, i, hi.2, F i, (h.word i hi.2).symm, h.reps i hi.2, fun _ hx => hx⟩
  | @child k b j _ hj hptr ih =>
    obtain ⟨hb, -, i, hi, t, hroot, hreps, hinner⟩ := ih
    refine ⟨hptr, by omega, i, hi, ?_⟩
    cases t with
    | empty => exact absurd hroot.symm hb
    | node b' kids =>
      obtain rfl : b' = b := hroot
      refine ⟨kids j, (hreps j hj).1.symm, (hreps j hj).2, ?_⟩
      intro x hx
      exact hinner x (mem_inner_node.mpr (.inl ⟨j, hj, hx⟩))

theorem indirect_of_mem_inner {h : ℕ} {t : RadixTree ℕ h} (hreps : t.Reps 1024 p.disk)
    (hne : ∀ x ∈ t.blocks 1024, x ≠ 0) (hroot : 0 < h → t.root ≠ 0 → Indirect p h t.root) :
    ∀ x ∈ t.inner 1024, IsIndirect p x := by
  induction t with
  | empty => exact fun x hx => absurd hx List.not_mem_nil
  | leaf b => exact fun x hx => absurd hx List.not_mem_nil
  | @node h b kids ih =>
    have hb : Indirect p (h + 1) b :=
      hroot (Nat.succ_pos h) (hne b (mem_blocks_node.mpr (.inr rfl)))
    intro x hx
    obtain ⟨j, hj, hx⟩ | rfl := mem_inner_node.mp hx
    · refine ih j (hreps j hj).2 (fun y hy => hne y (mem_blocks_node.mpr (.inl ⟨j, hj, hy⟩)))
        ?_ x hx
      intro hpos hkid
      rw [← (hreps j hj).1] at hkid ⊢
      obtain ⟨k, rfl⟩ : ∃ k, h = k + 1 := ⟨h - 1, by omega⟩
      exact .child hb hj hkid
    · exact ⟨h + 1, hb⟩

theorem Holds.isIndirect_iff (h : Holds p F) {b : ℕ} :
    IsIndirect p b ↔ ∃ i < 28, b ∈ (F i).inner 1024 := by
  constructor
  · rintro ⟨k, hb⟩
    obtain ⟨hb0, hk, i, hi, t, rfl, -, hinner⟩ := h.below_of_indirect hb
    exact ⟨i, hi, hinner _ (root_mem_inner hk hb0)⟩
  · rintro ⟨i, hi, hb⟩
    refine indirect_of_mem_inner (h.reps i hi) (h.nonzero i hi) ?_ b hb
    intro hpos hroot
    rw [← h.word i hi] at hroot ⊢
    exact .root ⟨by omega, hi⟩ hroot

/-! ## What truncation is for -/

/-- `getDblk(k, 0)`. -/
def blockAt (p : PSOSmall) (k : ℕ) : ℕ :=
  match p.getDblk k false [] with
  | .ok (_, b) => b
  | .error _ => 0

theorem Holds.blockAt {l i : ℕ} {rest : List ℕ} (h : Holds p F) (hpath : IsPath i rest)
    (hl : blockToPath l = .ok (i :: rest)) : p.blockAt l = find (F i) rest := by
  unfold PSOSmall.blockAt
  rw [h.getDblk hpath hl]

/-- The blocks below `l` stay, those from `l` on go, and they and the indirect blocks
that have become empty are freed, each once. -/
structure Truncated (p : PSOSmall) (l : ℕ) (p' : PSOSmall) (freed : List ℕ) : Prop where
  below : ∀ k < l, p'.blockAt k = p.blockAt k
  above : ∀ k, l ≤ k → k < PSO_SMALL_MAXBLK → p'.blockAt k = 0
  once : freed.Nodup
  freed : ∀ b, b ∈ freed ↔
    (b ≠ 0 ∧ ∃ k, l ≤ k ∧ k < PSO_SMALL_MAXBLK ∧ p.blockAt k = b) ∨
      (IsIndirect p b ∧ ∀ i < 1024, p'.disk b i = 0)

theorem Holds.truncated (h : Holds p F) {l : ℕ} (hl : l < 25) :
    Truncated p l (p.cut ((List.range' l (28 - l)).flatMap fun k => (F k).inner 1024) l)
      ((List.range' l (28 - l)).flatMap fun k => (F k).blocks 1024) where
  below k hk := by
    obtain ⟨i, rest, hpath, his, hdirect, -⟩ :=
      blockToPath_spec (l := k) (by simp only [PSO_SMALL_MAXBLK]; omega)
    have hik : i = k := hdirect (by omega)
    rw [(h.cut hl).blockAt his hpath, h.blockAt his hpath, F.below_of_lt (by omega)]
  above k hle hk := by
    obtain ⟨i, rest, hpath, his, hdirect, hdeep⟩ := blockToPath_spec hk
    have hli : l ≤ i := by
      by_cases hk25 : k < 25
      · rw [hdirect hk25]
        exact hle
      · have := hdeep (by omega)
        omega
    rw [(h.cut hl).blockAt his hpath, F.below_of_le hli]
    rfl
  once := by
    refine List.Nodup.sublist (List.Sublist.flatMap ?_ _) h.nodup
    have hsplit : List.range 28 = List.range' 0 l ++ List.range' l (28 - l) := by
      have happend := @List.range'_append_1 0 l (28 - l)
      rw [Nat.zero_add, Nat.add_sub_cancel' (by omega)] at happend
      rw [List.range_eq_range', happend]
    rw [hsplit]
    exact List.sublist_append_right _ _
  freed b := by
    rw [mem_cut_slots _ (by omega)]
    constructor
    · rintro ⟨i, hle, hi, hb⟩
      obtain hin | ⟨hb0, rest, hlen, hlt, hfind⟩ := (mem_blocks_iff (h.nonzero i hi)).mp hb
      · refine .inr ⟨h.isIndirect_iff.mpr ⟨i, hi, hin⟩, fun j hj => ?_⟩
        exact wipe_of_mem p ((mem_cut_slots _ (by omega)).mpr ⟨i, hle, hi, hin⟩) hj
      · have hpath : IsPath i rest := ⟨hi, hlen, hlt⟩
        obtain ⟨k, hk, hkpath, hdirect, hdeep⟩ := exists_blockToPath hpath
        refine .inl ⟨hb0, k, ?_, hk, ?_⟩
        · by_cases hi25 : i < 25
          · rw [hdirect hi25]
            exact hle
          · have := hdeep (by omega)
            omega
        · rw [h.blockAt hpath hkpath, hfind]
    · rintro (⟨hb0, k, hle, hk, hblk⟩ | ⟨hind, -⟩)
      · obtain ⟨i, rest, hpath, his, hdirect, hdeep⟩ := blockToPath_spec hk
        rw [h.blockAt his hpath] at hblk
        refine ⟨i, ?_, his.slot, ?_⟩
        · by_cases hk25 : k < 25
          · rw [hdirect hk25]
            exact hle
          · have := hdeep (by omega)
            omega
        · exact (mem_blocks_iff (h.nonzero i his.slot)).mpr
            (.inr ⟨hb0, rest, his.length, his.offsets, hblk⟩)
      · obtain ⟨i, hi, hin⟩ := h.isIndirect_iff.mp hind
        have hi25 : 25 ≤ i := by
          by_contra hlt
          rw [inner_eq_nil (by omega)] at hin
          exact absurd hin List.not_mem_nil
        exact ⟨i, by omega, hi, mem_blocks_of_inner hin⟩

/-! ## Behind an indirect pointer -/

theorem Sweep.loop_fault {s : Sweep} (hdblk : s.dblk = none) (hdepth : s.depth ≠ 0)
    (hdeep : 25 ≤ s.offsets 0 ∧ s.offsets 0 < 28)
    (hleaf : s.offsets 0 + 1 - PSO_SMALL_RECORD_MAXBLK = s.depth)
    (hoffset : s.offsets s.depth < 1024) (fuel : ℕ) :
    ∃ s', Sweep.loop fuel s = (s', some .fault) := by
  induction fuel generalizing s with
  | zero => exact ⟨s, rfl⟩
  | succ fuel ih =>
    have hstep : s.step = s.leaf := by
      unfold step
      rw [if_neg (fun h => absurd h.2 (Nat.ne_of_lt hoffset)), if_pos (.inr hleaf)]
    rw [Sweep.loop, if_pos hdeep.2, hstep]
    -- the turn goes astray, or the next one starts from the same place
    cases hleaf' : s.leaf with
    | none => exact ⟨s, rfl⟩
    | some s' =>
      unfold Sweep.leaf at hleaf'
      by_cases hext : extent s.dblk ≤ s.offsets s.depth
      · rw [if_pos hext] at hleaf'
        cases hleaf'
      rw [if_neg hext] at hleaf'
      have hsmall : s.offsets s.depth + 1 < 1024 := by
        rw [hdblk] at hext
        simp only [extent, RECORD_WORDS, KFS_RECORD_SIZE] at hext
        omega
      have hnext : s'.dblk = s.dblk ∧ s'.depth = s.depth ∧
          s'.offsets = Function.update s.offsets s.depth (s.offsets s.depth + 1) := by
        simp only at hleaf'
        split at hleaf'
        · split at hleaf'
          · cases hleaf'
          · cases hleaf'
            exact ⟨rfl, rfl, rfl⟩
        · cases hleaf'
          exact ⟨rfl, rfl, rfl⟩
      obtain ⟨hdblk', hdepth', hoffsets'⟩ := hnext
      have h0 : s'.offsets 0 = s.offsets 0 := by
        rw [hoffsets', Function.update_of_ne (Ne.symm hdepth)]
      apply ih
      · rw [hdblk', hdblk]
      · rw [hdepth']
        exact hdepth
      · rw [h0]
        exact hdeep
      · rw [h0, hdepth']
        exact hleaf
      · rw [hdepth', hoffsets', Function.update_self]
        exact hsmall

theorem truncate_fault (p : PSOSmall) {l : ℕ} (hl : 25 ≤ l) (hmax : l < PSO_SMALL_MAXBLK) :
    ∃ s f, p.truncate l = (s, some f) := by
  obtain ⟨i, rest, hpath, his, -, hdeep⟩ := blockToPath_spec hmax
  have hi := hdeep hl
  have hlen := his.length
  unfold truncate
  rw [hpath]
  simp only
  cases p.fetch (i :: rest).length 0 none (fun _ => 0) (i :: rest) with
  | none => exact ⟨_, _, rfl⟩
  | some blocks =>
    have hdepth : (i :: rest).length - 1 = rest.length := by simp
    obtain ⟨s, hs⟩ := Sweep.loop_fault
      (s := ⟨p, [], fun k => (i :: rest).getD k 0, blocks, (i :: rest).length - 1, none⟩)
      rfl
      (by
        show (i :: rest).length - 1 ≠ 0
        rw [hdepth]
        omega)
      ⟨hi, his.slot⟩
      (by
        show i + 1 - PSO_SMALL_RECORD_MAXBLK = (i :: rest).length - 1
        rw [hdepth]
        simp only [PSO_SMALL_RECORD_MAXBLK]
        omega)
      (by
        show (i :: rest).getD ((i :: rest).length - 1) 0 < 1024
        obtain ⟨m, hm⟩ : ∃ m, rest.length = m + 1 := ⟨rest.length - 1, by omega⟩
        rw [hdepth, hm, List.getD_cons_succ, List.getD_eq_getElem _ _ (by omega)]
        exact his.offsets _ (List.getElem_mem _)) (2 ^ 40)
    exact ⟨s, _, hs⟩

theorem Holds.truncate_iff (h : Holds p F) {l : ℕ} (hmax : l < PSO_SMALL_MAXBLK) :
    (∃ s, p.truncate l = (s, none) ∧ Truncated p l s.pso s.freed) ↔
      l < PSO_SMALL_RECORD_MAXBLK := by
  constructor
  · rintro ⟨s, hok, -⟩
    by_contra hge
    obtain ⟨s', f, hfail⟩ := p.truncate_fault (Nat.le_of_not_lt hge) hmax
    rw [hok] at hfail
    cases hfail
  · intro hl
    obtain ⟨s, hok, hfreed, hpso⟩ := h.truncate hl
    refine ⟨s, hok, ?_⟩
    rw [hfreed, hpso]
    exact h.truncated hl

end PSOSmall

end K42
