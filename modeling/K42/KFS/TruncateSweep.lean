import K42.KFS.PSOSmall

/-!
# The sweep of `truncate`

A block map that the calls have built is a forest of pointers: no block is in two
places, and no indirect block is empty. `truncate` to one of the direct blocks
takes the direct pointers from there on and the three trees away, each block after
those below it.
-/

open Function (update update_of_ne update_self)

namespace K42

open RadixTree

namespace PSOSmall

open RadixTree (inner node)
open List (append_assoc append_nil flatMap_cons not_mem_nil range range' range'_succ)

/-- Slot `i` of the record leads to a tree of height `i - 24`. -/
abbrev Forest := (i : ℕ) → RadixTree ℕ (i - 24)

/-- The block map is the forest. -/
structure Holds (p : PSOSmall) (F : Forest) : Prop where
  word : ∀ i < 28, p.dBlk i = root (F i)
  reps : ∀ i < 28, Reps 1024 p.disk (F i)
  nodup : ((List.range 28).flatMap fun i => blocks 1024 (F i)).Nodup
  nonzero : ∀ i < 28, ∀ x ∈ blocks 1024 (F i), x ≠ 0
  pruned : ∀ i < 28, Pruned 1024 (F i)

/-! ## Paths -/

/-- A path starts in the record and has as many offsets as the slot's tree is high. -/
structure IsPath (i : ℕ) (rest : List ℕ) : Prop where
  slot : i < 28
  length : rest.length = i - 24
  offsets : ∀ j ∈ rest, j < 1024

variable {l i x : ℕ} {rest : List ℕ}

theorem blockToPath_spec (hl : l < PSO_SMALL_MAXBLK) :
    ∃ i rest, blockToPath l = .ok (i :: rest) ∧ IsPath i rest ∧ (l < 25 → i = l) ∧
      (25 ≤ l → 25 ≤ i) := by
  unfold blockToPath
  simp only [PSO_SMALL_MAXBLK, PSO_SMALL_RECORD_MAXBLK, PSO_SMALL_DIRECT_MAXBLK] at *
  by_cases h₀ : l < 25
  · exact ⟨l, [], by rw [if_pos h₀], ⟨by omega, by simp; omega, by simp⟩, fun _ => rfl,
      fun h => by omega⟩
  rw [if_neg h₀]
  by_cases h₁ : l - 25 < 1024
  · exact ⟨25, [l - 25], by rw [if_pos h₁], ⟨by omega, rfl, by simpa using h₁⟩,
      fun h => absurd h h₀, fun _ => le_rfl⟩
  rw [if_neg h₁]
  by_cases h₂ : l - 25 - 1024 < 2 ^ 20
  · refine ⟨26, _, by rw [if_pos h₂], ⟨by omega, rfl, ?_⟩, fun h => absurd h h₀, fun _ => by omega⟩
    simp only [List.forall_mem_cons, not_mem_nil, false_imp_iff, implies_true, and_true]
    omega
  rw [if_neg h₂]
  have h₃ : (l - 25 - 1024 - 2 ^ 20) / 2 ^ 20 < 1024 := by omega
  refine ⟨27, _, by rw [if_pos h₃], ⟨by omega, rfl, ?_⟩, fun h => absurd h h₀, fun _ => by omega⟩
  simp only [List.forall_mem_cons, not_mem_nil, false_imp_iff, implies_true, and_true]
  omega

theorem exists_blockToPath (h : IsPath i rest) :
    ∃ l < PSO_SMALL_MAXBLK, blockToPath l = .ok (i :: rest) ∧ (i < 25 → l = i) ∧
      (25 ≤ i → 25 ≤ l) := by
  obtain ⟨hi, hlen, hlt⟩ := h
  unfold blockToPath
  simp only [PSO_SMALL_MAXBLK, PSO_SMALL_RECORD_MAXBLK, PSO_SMALL_DIRECT_MAXBLK]
  obtain h₀ | rfl | rfl | rfl : i < 25 ∨ i = 25 ∨ i = 26 ∨ i = 27 := by omega
  · have hnil : rest = [] := List.length_eq_zero_iff.mp (by omega)
    subst hnil
    exact ⟨i, by omega, by rw [if_pos h₀], fun _ => rfl, fun h => by omega⟩
  · obtain ⟨a, rfl⟩ := List.length_eq_one_iff.mp hlen
    have ha : a < 1024 := hlt a (by simp)
    refine ⟨25 + a, by omega, ?_, fun h => by omega, fun _ => by omega⟩
    rw [if_neg (by omega), Nat.add_sub_cancel_left, if_pos ha]
  · obtain ⟨a, c, rfl⟩ := List.length_eq_two.mp hlen
    have ha : a < 1024 := hlt a (by simp)
    have hc : c < 1024 := hlt c (by simp)
    refine ⟨25 + (1024 + (a * 1024 + c)), by omega, ?_, fun h => by omega, fun _ => by omega⟩
    rw [if_neg (by omega), Nat.add_sub_cancel_left, if_neg (by omega), Nat.add_sub_cancel_left,
      if_pos (by omega)]
    rw [show (a * 1024 + c) / 2 ^ 10 = a by omega, show (a * 1024 + c) % 2 ^ 10 = c by omega]
  · obtain ⟨a, c, e, rfl⟩ := List.length_eq_three.mp hlen
    have ha : a < 1024 := hlt a (by simp)
    have hc : c < 1024 := hlt c (by simp)
    have he : e < 1024 := hlt e (by simp)
    refine ⟨25 + (1024 + (2 ^ 20 + (a * 2 ^ 20 + c * 1024 + e))), by omega, ?_, fun h => by omega,
      fun _ => by omega⟩
    rw [if_neg (by omega), Nat.add_sub_cancel_left, if_neg (by omega), Nat.add_sub_cancel_left,
      if_neg (by omega), Nat.add_sub_cancel_left, if_pos (by omega)]
    rw [show (a * 2 ^ 20 + c * 1024 + e) / 2 ^ 20 = a by omega,
      show (a * 2 ^ 20 + c * 1024 + e) / 2 ^ 10 % 2 ^ 10 = c by omega,
      show (a * 2 ^ 20 + c * 1024 + e) % 2 ^ 10 = e by omega]

variable {p p' : PSOSmall} {F : Forest}

theorem getDblkFrom_cons (create : Bool) (p : PSOSmall) (dblk : Option ℕ) (i : ℕ)
    (rest fresh : List ℕ) :
    getDblkFrom create p dblk (i :: rest) fresh =
      if p.ptrs dblk i = 0 then
        if create = false then .ok (p, 0)
        else
          match fresh with
          | [] => .error .passert
          | b :: fresh =>
            if rest = [] then .ok (p.setPtr dblk i b, b)
            else getDblkFrom create ((p.setPtr dblk i b).zeroBlock b) (some b) rest fresh
      else if rest = [] then .ok (p, p.ptrs dblk i)
      else getDblkFrom create p (some (p.ptrs dblk i)) rest fresh := by
  cases fresh <;> rfl

theorem getDblkFrom_false {h : ℕ} {t : RadixTree ℕ h} {dblk : Option ℕ}
    (hptr : p.ptrs dblk i = root t) (hreps : Reps 1024 p.disk t)
    (hne : ∀ x ∈ blocks 1024 t, x ≠ 0) (hlen : rest.length = h) (hlt : ∀ j ∈ rest, j < 1024)
    (fresh : List ℕ) : getDblkFrom false p dblk (i :: rest) fresh = .ok (p, find t rest) := by
  induction t generalizing dblk i rest with
  | empty =>
    have hzero : p.ptrs dblk i = 0 := hptr
    rw [getDblkFrom_cons, if_pos hzero, if_pos rfl]
    rfl
  | leaf b =>
    have hb : p.ptrs dblk i = b := hptr
    have hb0 : b ≠ 0 := hne b (by simp [blocks])
    have hnil : rest = [] := List.length_eq_zero_iff.mp hlen
    rw [getDblkFrom_cons, hb, if_neg hb0, if_pos hnil]
    rfl
  | node b kids ih =>
    have hb : p.ptrs dblk i = b := hptr
    have hb0 : b ≠ 0 := hne b (mem_blocks_node.mpr (.inr rfl))
    cases rest with
    | nil => simp at hlen
    | cons j rest =>
      simp only [List.forall_mem_cons] at hlt
      have hlen' : rest.length = _ := Nat.succ.inj hlen
      rw [getDblkFrom_cons, hb, if_neg hb0, if_neg (List.cons_ne_nil _ _)]
      refine ih j (hreps j hlt.1).1 (hreps j hlt.1).2 ?_ hlen' hlt.2
      intro x hx
      exact hne x (mem_blocks_node.mpr (.inl ⟨j, hlt.1, hx⟩))

theorem Holds.getDblk (h : Holds p F) (hpath : IsPath i rest)
    (hl : blockToPath l = .ok (i :: rest)) :
    p.getDblk l false [] = .ok (p, find (F i) rest) := by
  unfold PSOSmall.getDblk
  rw [hl]
  have hptr : p.ptrs none i = root (F i) := h.word i hpath.slot
  exact getDblkFrom_false hptr (h.reps i hpath.slot) (h.nonzero i hpath.slot) hpath.length
    hpath.offsets []

/-! ## Clearing a tree -/

/-- The pointers of the blocks in `S`, and those of `b` from `j` on, are null. -/
def clear (p : PSOSmall) (S : List ℕ) (b j : ℕ) : PSOSmall :=
  { p with disk := fun x i => if i < 1024 ∧ (x ∈ S ∨ x = b ∧ j ≤ i) then 0 else p.disk x i }

/-- The pointers of the blocks in `S` are null. -/
def wipe (p : PSOSmall) (S : List ℕ) : PSOSmall :=
  { p with disk := fun x i => if i < 1024 ∧ x ∈ S then 0 else p.disk x i }

theorem ext_iff' {p q : PSOSmall} (hrec : p.dBlk = q.dBlk) (hdisk : p.disk = q.disk) : p = q := by
  cases p
  cases q
  cases hrec
  cases hdisk
  rfl

theorem wipe_of_notMem (p : PSOSmall) {S : List ℕ} (hx : x ∉ S) (i : ℕ) :
    (p.wipe S).disk x i = p.disk x i := if_neg fun h => hx h.2

theorem wipe_of_mem (p : PSOSmall) {S : List ℕ} (hx : x ∈ S) (hi : i < 1024) :
    (p.wipe S).disk x i = 0 := if_pos ⟨hi, hx⟩

theorem wipe_nil (p : PSOSmall) : p.wipe [] = p := by
  apply ext_iff'
  · rfl
  · funext x i
    simp [wipe]

theorem clear_at_end (p : PSOSmall) (b : ℕ) : p.clear [] b 1024 = p := by
  apply ext_iff'
  · rfl
  · funext x i
    show (if i < 1024 ∧ (x ∈ [] ∨ x = b ∧ 1024 ≤ i) then 0 else p.disk x i) = p.disk x i
    rw [if_neg]
    rintro ⟨hlt, hmem | ⟨-, hle⟩⟩
    · exact absurd hmem not_mem_nil
    · omega

theorem clear_from_start (p : PSOSmall) (S : List ℕ) (b : ℕ) : p.clear S b 0 = p.wipe (S ++ [b]) := by
  apply ext_iff'
  · rfl
  · funext x i
    simp [clear, wipe]

theorem setPtr_of_zero {b j : ℕ} (h : p.disk b j = 0) : p.setPtr (some b) j 0 = p := by
  apply ext_iff'
  · rfl
  · show update p.disk b (update (p.disk b) j 0) = p.disk
    rw [Function.update_eq_self_iff, Function.update_eq_self_iff]
    exact h.symm

theorem setPtr_some_disk (p : PSOSmall) (b i v x j : ℕ) :
    (p.setPtr (some b) i v).disk x j = if x = b ∧ j = i then v else p.disk x j := by
  show update p.disk b (update (p.disk b) i v) x j = _
  by_cases hx : x = b
  · subst hx
    rw [update_self]
    by_cases hj : j = i
    · subst hj
      simp
    · simp [hj]
  · simp [hx]

theorem clear_setPtr_wipe (p : PSOSmall) (S S' : List ℕ) {b j : ℕ} (hj : j < 1024) :
    ((p.wipe S).setPtr (some b) j 0).clear S' b (j + 1) = p.clear (S ++ S') b j := by
  apply ext_iff'
  · rfl
  · funext x i
    show (if i < 1024 ∧ (x ∈ S' ∨ x = b ∧ j + 1 ≤ i) then 0
      else ((p.wipe S).setPtr (some b) j 0).disk x i) =
      if i < 1024 ∧ (x ∈ S ++ S' ∨ x = b ∧ j ≤ i) then 0 else p.disk x i
    rw [setPtr_some_disk]
    show (if _ then 0 else if _ then 0 else if i < 1024 ∧ x ∈ S then 0 else p.disk x i) = _
    by_cases hnew : i < 1024 ∧ (x ∈ S ++ S' ∨ x = b ∧ j ≤ i)
    · rw [if_pos hnew]
      obtain ⟨hi, hx⟩ := hnew
      rw [List.mem_append] at hx
      split_ifs with h₁ h₂ h₃
      · rfl
      · rfl
      · rfl
      · exfalso
        obtain (hS | hS') | ⟨rfl, hle⟩ := hx
        · exact h₃ ⟨hi, hS⟩
        · exact h₁ ⟨hi, .inl hS'⟩
        · obtain rfl | hlt := Nat.eq_or_lt_of_le hle
          · exact h₂ ⟨rfl, rfl⟩
          · exact h₁ ⟨hi, .inr ⟨rfl, hlt⟩⟩
    · rw [if_neg hnew, if_neg, if_neg, if_neg]
      · rintro ⟨hi, hS⟩
        exact hnew ⟨hi, .inl (List.mem_append_left _ hS)⟩
      · rintro ⟨rfl, rfl⟩
        exact hnew ⟨hj, .inr ⟨rfl, le_rfl⟩⟩
      · rintro ⟨hi, hS' | ⟨rfl, hle⟩⟩
        · exact hnew ⟨hi, .inl (List.mem_append_right _ hS')⟩
        · exact hnew ⟨hi, .inr ⟨rfl, by omega⟩⟩

namespace Sweep

/-! ## The loop -/

/-- `n` turns of the loop. -/
inductive Reaches : ℕ → Sweep → Sweep → Prop
  | refl (s : Sweep) : Reaches 0 s s
  | head {n : ℕ} {s s₁ s' : Sweep} (hrun : s.offsets 0 < 28) (hstep : s.step = some s₁)
      (h : Reaches n s₁ s') : Reaches (n + 1) s s'

variable {s s' s'' : Sweep} {n m d b j : ℕ}

theorem Reaches.trans (h : Reaches n s s') (h' : Reaches m s' s'') : Reaches (n + m) s s'' := by
  induction h with
  | refl s => rwa [Nat.zero_add]
  | head hrun hstep _ ih =>
    rw [Nat.add_right_comm]
    exact .head hrun hstep (ih h')

theorem Reaches.one (hrun : s.offsets 0 < 28) (hstep : s.step = some s') : Reaches 1 s s' :=
  .head hrun hstep (.refl s')

theorem Reaches.loop (h : Reaches n s s') (fuel : ℕ) :
    Sweep.loop (n + fuel) s = Sweep.loop fuel s' := by
  induction h with
  | refl s => rw [Nat.zero_add]
  | head hrun hstep _ ih =>
    rw [Nat.add_right_comm, Sweep.loop, if_pos hrun, hstep]
    exact ih

/-- The sweep is in block `b` at depth `d + 1`, at slot `j`. -/
structure NodeAt (s : Sweep) (d b j : ℕ) : Prop where
  depth : s.depth = d + 1
  dblk : s.dblk = some b
  offset : s.offsets (d + 1) = j
  block : s.blocks (d + 1) = b

/-- Nothing has changed up to depth `d`. -/
def Frame (s s' : Sweep) (d : ℕ) : Prop :=
  ∀ e ≤ d, s'.offsets e = s.offsets e ∧ s'.blocks e = s.blocks e

theorem Frame.trans (h : Frame s s' d) (h' : Frame s' s'' d) : Frame s s'' d := by
  intro e he
  rw [(h' e he).1, (h' e he).2]
  exact h e he

/-- Slot `j` of block `b`, which leads to `t`, has been gone through. -/
structure Cleared {h : ℕ} (s s' : Sweep) (d b j : ℕ) (t : RadixTree ℕ h) : Prop where
  at_next : NodeAt s' d b (j + 1)
  frame : Frame s s' d
  freed : s'.freed = s.freed ++ t.blocks 1024
  pso : s'.pso = (s.pso.wipe (t.inner 1024)).setPtr (some b) j 0

theorem step_of_leaf (hat : NodeAt s d b j) (hj : j < 1024)
    (hleaf : s.offsets 0 + 1 - PSO_SMALL_RECORD_MAXBLK = d + 1) : s.step = s.leaf := by
  unfold step
  rw [hat.depth, hat.offset, if_neg (by simp only [PSO_SMALL_DIRECT_MAXBLK]; omega),
    if_pos (.inr hleaf)]

theorem step_of_internal (hat : NodeAt s d b j) (hj : j < 1024)
    (hdeep : PSO_SMALL_RECORD_MAXBLK ≤ s.offsets 0)
    (hnot : s.offsets 0 + 1 - PSO_SMALL_RECORD_MAXBLK ≠ d + 1) : s.step = s.internal := by
  unfold step
  rw [hat.depth, hat.offset, if_neg (by simp only [PSO_SMALL_DIRECT_MAXBLK]; omega), if_neg]
  omega

theorem NodeAt.next (hat : NodeAt s d b j) (hdepth : s'.depth = d + 1) (hdblk : s'.dblk = some b)
    (hoffsets : s'.offsets = update s.offsets (d + 1) (j + 1))
    (hblocks : s'.blocks = s.blocks) : NodeAt s' d b (j + 1) ∧ Frame s s' d := by
  constructor
  · refine ⟨hdepth, hdblk, ?_, ?_⟩
    · rw [hoffsets, update_self]
    · rw [hblocks, hat.block]
  · intro e he
    rw [hoffsets, hblocks, update_of_ne (by omega)]
    exact ⟨rfl, rfl⟩

theorem leaf_step {t : RadixTree ℕ 0} (hat : NodeAt s d b j) (hj : j < 1024) (hb : b ≠ 0)
    (hdeep : 25 ≤ s.offsets 0 ∧ s.offsets 0 < 28) (hleaf : s.offsets 0 - 24 = d + 1)
    (hword : s.pso.disk b j = t.root) (hne : ∀ x ∈ t.blocks 1024, x ≠ 0) :
    ∃ s', Reaches 1 s s' ∧ Cleared s s' d b j t := by
  have hstep : s.step = s.leaf := step_of_leaf hat hj (by simp only [PSO_SMALL_RECORD_MAXBLK]; omega)
  have hptr : s.pso.ptrs s.dblk (s.offsets s.depth) = t.root := by
    rw [hat.dblk, hat.depth, hat.offset]
    exact hword
  have hbound : ¬ extent s.dblk ≤ s.offsets s.depth := by
    rw [hat.dblk, hat.depth, hat.offset]
    exact Nat.not_le.mpr hj
  unfold leaf at hstep
  rw [if_neg hbound] at hstep
  simp only [hptr] at hstep
  cases t with
  | empty =>
    rw [root_empty, if_neg (not_not.mpr rfl)] at hstep
    simp only [hat.depth, hat.offset] at hstep
    have hnext : NodeAt ⟨s.pso, s.freed, update s.offsets (d + 1) (j + 1), s.blocks,
        d + 1, s.dblk⟩ d b (j + 1) ∧ _ := hat.next rfl hat.dblk rfl rfl
    refine ⟨_, .one hdeep.2 hstep, ⟨hnext.1, hnext.2, ?_, ?_⟩⟩
    · exact (append_nil _).symm
    · show s.pso = (s.pso.wipe []).setPtr (some b) j 0
      rw [wipe_nil, setPtr_of_zero hword]
  | leaf x =>
    have hx : x ≠ 0 := hne x (by simp [RadixTree.blocks])
    rw [root_leaf, if_pos hx, hat.depth, hat.block, if_neg (by simp [hb])] at hstep
    simp only [hat.dblk, hat.offset] at hstep
    have hnext : NodeAt ⟨s.pso.setPtr (some b) j 0, s.freed ++ [x],
        update s.offsets (d + 1) (j + 1), s.blocks, d + 1, some b⟩ d b (j + 1) ∧ _ :=
      hat.next rfl rfl rfl rfl
    refine ⟨_, .one hdeep.2 hstep, ⟨hnext.1, hnext.2, rfl, ?_⟩⟩
    show s.pso.setPtr (some b) j 0 = (s.pso.wipe []).setPtr (some b) j 0
    rw [wipe_nil]

/-- The block above depth `d + 1`: the record, or the block at depth `d`. -/
def parent (s : Sweep) (d : ℕ) : Option ℕ := if d = 0 then none else some (s.blocks d)

/-- The block at depth `d + 1`, the root of `t`, has been gone through, and the
pointer to it. -/
structure Left {h : ℕ} (s s' : Sweep) (d : ℕ) (t : RadixTree ℕ h) : Prop where
  depth : s'.depth = d
  dblk : s'.dblk = s.parent d
  offset : s'.offsets d = s.offsets d + 1
  frame : ∀ e < d, s'.offsets e = s.offsets e
  blocks : ∀ e ≤ d, s'.blocks e = s.blocks e
  freed : s'.freed = s.freed ++ t.blocks 1024
  pso : s'.pso = (s.pso.wipe (t.inner 1024)).setPtr (s.parent d) (s.offsets d) 0

/-- The pointer to the block at depth `d + 1` can be written. -/
structure Linked (s : Sweep) (d b : ℕ) : Prop where
  parent : d ≠ 0 → s.blocks d ≠ 0
  bound : s.offsets d < extent (s.parent d)
  word : s.pso.ptrs (s.parent d) (s.offsets d) = b

theorem used_eq_false (p : PSOSmall) {b : ℕ} (h : ∀ i < 1024, p.disk b i = 0) :
    p.used b = false := by
  unfold used
  rw [List.any_eq_false]
  intro i hi
  simpa using h i (List.mem_range.mp hi)

theorem back_step (hat : NodeAt s d b 1024) (hb : b ≠ 0)
    (hlink : s.Linked d b) (hempty : ∀ i < 1024, s.pso.disk b i = 0) :
    s.step = some ⟨s.pso.setPtr (s.parent d) (s.offsets d) 0, s.freed ++ [b],
      update (update s.offsets (d + 1) 0) d (s.offsets d + 1),
      update s.blocks (d + 1) 0, d, s.parent d⟩ := by
  have hd : d ≠ d + 1 := by omega
  have hdblk : (if d = 0 then none else some (update s.blocks (d + 1) 0 d)) =
      s.parent d := by
    rw [update_of_ne hd]
    rfl
  have hnull : ¬(d ≠ 0 ∧ update s.blocks (d + 1) 0 d = 0) := by
    rw [update_of_ne hd]
    rintro ⟨hd0, hzero⟩
    exact hlink.parent hd0 hzero
  unfold step
  rw [if_pos (by rw [hat.depth, hat.offset]; exact ⟨by omega, rfl⟩)]
  unfold stepBack
  simp only [hat.depth, hat.dblk, Nat.add_sub_cancel, used_eq_false s.pso hempty]
  rw [if_neg (by simpa using hnull), hdblk, update_of_ne hd, hlink.word,
    if_neg (fun h => Nat.not_le.mpr hlink.bound h.2), if_pos ⟨trivial, hb⟩]

/-- What is known of block `b` and its subtrees when the sweep is at slot `j`. -/
structure Ready {h : ℕ} (p : PSOSmall) (b j : ℕ) (kids : ℕ → RadixTree ℕ h) : Prop where
  word : ∀ i, j ≤ i → i < 1024 → p.disk b i = (kids i).root
  reps : ∀ i, j ≤ i → i < 1024 → (kids i).Reps 1024 p.disk

variable {h i : ℕ}

theorem Ready.next {kids : ℕ → RadixTree ℕ h} {p : PSOSmall} (hready : Ready p b j kids)
    (hnd : ((node b kids).blocks 1024).Nodup) (hj : j < 1024) :
    Ready ((p.wipe ((kids j).inner 1024)).setPtr (some b) j 0) b (j + 1) kids := by
  have hsame : ∀ x i, x ∉ (kids j).inner 1024 → ¬(x = b ∧ i = j) →
      ((p.wipe ((kids j).inner 1024)).setPtr (some b) j 0).disk x i = p.disk x i := by
    intro x i hx hne
    rw [setPtr_some_disk, if_neg hne]
    exact wipe_of_notMem p hx i
  constructor
  · intro i hle hi
    rw [hsame b i (fun hb => notMem_kid_of_nodup hnd hj (mem_blocks_of_inner hb)) (by omega)]
    exact hready.word i (by omega) hi
  · intro i hle hi
    refine (hready.reps i (by omega) hi).congr ?_
    intro x hx k _
    apply hsame
    · intro hxj
      exact disjoint_of_flatMap (nodup_kids hnd) hi hj (by omega) (mem_blocks_of_inner hx)
        (mem_blocks_of_inner hxj)
    · rintro ⟨rfl, -⟩
      exact notMem_kid_of_nodup hnd hi (mem_blocks_of_inner hx)

theorem slots {K : ℕ} {kids : ℕ → RadixTree ℕ h} (hnd : ((node b kids).blocks 1024).Nodup)
    (hslot : ∀ j < 1024, ∀ s', Frame s s' d → NodeAt s' d b j → Ready s'.pso b j kids →
      ∃ n s'', n ≤ K ∧ Reaches n s' s'' ∧ Cleared s' s'' d b j (kids j)) :
    ∀ m j s', j + m = 1024 → Frame s s' d → NodeAt s' d b j → Ready s'.pso b j kids →
      ∃ n s'', n ≤ m * K ∧ Reaches n s' s'' ∧ NodeAt s'' d b 1024 ∧ Frame s' s'' d ∧
        s''.freed = s'.freed ++ (range' j m).flatMap (fun i => (kids i).blocks 1024) ∧
        s''.pso = s'.pso.clear ((range' j m).flatMap fun i => (kids i).inner 1024) b j := by
  intro m
  induction m with
  | zero =>
    intro j s' hjm hframe hat _
    obtain rfl : j = 1024 := by omega
    refine ⟨0, s', by omega, .refl s', hat, fun e _ => ⟨rfl, rfl⟩, ?_, ?_⟩
    · simp
    · exact (clear_at_end s'.pso b).symm
  | succ m ih =>
    intro j s' hjm hframe hat hready
    obtain ⟨n₁, s₁, hn₁, hreach₁, hcl⟩ := hslot j (by omega) s' hframe hat hready
    have hready₁ : Ready s₁.pso b (j + 1) kids := by
      rw [hcl.pso]
      exact hready.next hnd (by omega)
    obtain ⟨n₂, s₂, hn₂, hreach₂, hat₂, hframe₂, hfreed₂, hpso₂⟩ :=
      ih (j + 1) s₁ (by omega) (hframe.trans hcl.frame) hcl.at_next hready₁
    refine ⟨n₁ + n₂, s₂, ?_, hreach₁.trans hreach₂, hat₂, hcl.frame.trans hframe₂, ?_, ?_⟩
    · rw [Nat.succ_mul]
      omega
    · rw [hfreed₂, hcl.freed, append_assoc, range'_succ, flatMap_cons]
    · rw [hpso₂, hcl.pso, clear_setPtr_wipe _ _ _ (by omega), range'_succ, flatMap_cons]

theorem leave {K : ℕ} {kids : ℕ → RadixTree ℕ h} (hb : b ≠ 0) (hrun : s.offsets 0 < 28)
    (hat : NodeAt s d b 0) (hlink : s.Linked d b)
    (hnd : ((node b kids).blocks 1024).Nodup)
    (hout : ∀ x, s.parent d = some x → x ∉ (node b kids).blocks 1024)
    (hready : Ready s.pso b 0 kids)
    (hslot : ∀ j < 1024, ∀ s', Frame s s' d → NodeAt s' d b j → Ready s'.pso b j kids →
      ∃ n s'', n ≤ K ∧ Reaches n s' s'' ∧ Cleared s' s'' d b j (kids j)) :
    ∃ n s', n ≤ 1024 * K + 1 ∧ Reaches n s s' ∧ Left s s' d (node b kids) := by
  obtain ⟨n, s₁, hn, hreach, hat₁, hframe, hfreed, hpso⟩ :=
    slots hnd hslot 1024 0 s rfl (fun e _ => ⟨rfl, rfl⟩) hat hready
  rw [clear_from_start, ← List.range_eq_range'] at hpso
  rw [← List.range_eq_range'] at hfreed
  have hinner : (node b kids).inner 1024 =
      ((range 1024).flatMap fun i => (kids i).inner 1024) ++ [b] := by
    rw [RadixTree.inner]
  rw [← hinner] at hpso
  have hparent : s₁.parent d = s.parent d := by
    unfold parent
    rw [(hframe d le_rfl).2]
  have hlink₁ : s₁.Linked d b := by
    refine ⟨?_, ?_, ?_⟩
    · rw [(hframe d le_rfl).2]
      exact hlink.parent
    · rw [hparent, (hframe d le_rfl).1]
      exact hlink.bound
    · rw [hparent, (hframe d le_rfl).1, hpso]
      refine Eq.trans ?_ hlink.word
      cases hup : s.parent d with
      | none => rfl
      | some x =>
        exact wipe_of_notMem s.pso (fun h => hout x hup (mem_blocks_of_inner h)) _
  have hempty : ∀ i < 1024, s₁.pso.disk b i = 0 := by
    intro i hi
    rw [hpso]
    exact wipe_of_mem s.pso (mem_inner_node.mpr (.inr rfl)) hi
  have hstep := back_step hat₁ hb hlink₁ hempty
  have hrun₁ : s₁.offsets 0 < 28 := by
    rw [(hframe 0 (Nat.zero_le d)).1]
    exact hrun
  refine ⟨n + 1, _, by omega, hreach.trans (.one hrun₁ hstep), ⟨rfl, hparent, ?_, ?_, ?_, ?_, ?_⟩⟩
  · show update (update s₁.offsets (d + 1) 0) d (s₁.offsets d + 1) d = _
    rw [update_self, (hframe d le_rfl).1]
  · intro e he
    show update (update s₁.offsets (d + 1) 0) d _ e = _
    rw [update_of_ne (by omega), update_of_ne (by omega), (hframe e (by omega)).1]
  · intro e he
    show update s₁.blocks (d + 1) 0 e = _
    rw [update_of_ne (by omega), (hframe e he).2]
  · show s₁.freed ++ [b] = _
    rw [hfreed, append_assoc, RadixTree.blocks]
  · show s₁.pso.setPtr (s₁.parent d) (s₁.offsets d) 0 = _
    rw [hparent, (hframe d le_rfl).1, hpso]

/-- How many turns a block takes that is above `h` others. -/
def turns : ℕ → ℕ
  | 0 => 1024 * 1 + 1
  | h + 1 => 1024 * (turns h + 1) + 1

theorem skip_step (hat : NodeAt s d b j) (hj : j < 1024)
    (hdeep : 25 ≤ s.offsets 0 ∧ s.offsets 0 < 28) (hnot : s.offsets 0 - 24 ≠ d + 1)
    (hword : s.pso.disk b j = 0) :
    ∃ s', Reaches 1 s s' ∧ Cleared s s' d b j (empty : RadixTree ℕ (h + 1)) := by
  have hstep : s.step = s.internal :=
    step_of_internal hat hj hdeep.1 (by simp only [PSO_SMALL_RECORD_MAXBLK]; omega)
  unfold internal at hstep
  simp only [hat.dblk, hat.depth, hat.offset] at hstep
  have hin : ¬ extent (some b) ≤ j := Nat.not_le.mpr hj
  have hptr : s.pso.ptrs (some b) j = 0 := hword
  rw [if_neg hin, if_neg (not_not.mpr hptr)] at hstep
  have hnext : NodeAt ⟨s.pso, s.freed, update s.offsets (d + 1) (j + 1), s.blocks,
      d + 1, some b⟩ d b (j + 1) ∧ _ := hat.next rfl rfl rfl rfl
  refine ⟨_, .one hdeep.2 hstep, ⟨hnext.1, hnext.2, (append_nil _).symm, ?_⟩⟩
  show s.pso = (s.pso.wipe []).setPtr (some b) j 0
  rw [wipe_nil, setPtr_of_zero hword]

theorem enter_step {c : ℕ} (hat : NodeAt s d b j) (hj : j < 1024) (hb : b ≠ 0)
    (hdeep : 25 ≤ s.offsets 0 ∧ s.offsets 0 < 28) (hnot : s.offsets 0 - 24 ≠ d + 1)
    (hword : s.pso.disk b j = c) (hc : c ≠ 0) :
    ∃ s', Reaches 1 s s' ∧ NodeAt s' (d + 1) c 0 ∧ Linked s' (d + 1) c ∧
      s'.parent (d + 1) = some b ∧ (∀ e ≤ d + 1, s'.offsets e = s.offsets e) ∧
      (∀ e ≤ d + 1, s'.blocks e = s.blocks e) ∧ s'.pso = s.pso ∧ s'.freed = s.freed := by
  have hstep : s.step = s.internal :=
    step_of_internal hat hj hdeep.1 (by simp only [PSO_SMALL_RECORD_MAXBLK]; omega)
  unfold internal at hstep
  have hptr : s.pso.ptrs (some b) j = c := hword
  have hin : ¬ extent (some b) ≤ j := Nat.not_le.mpr hj
  simp only [hat.dblk, hat.depth, hat.offset, hptr] at hstep
  rw [if_neg hin, if_pos hc] at hstep
  have hoffset : update s.offsets (d + 1 + 1) 0 (d + 1) = j := by
    rw [update_of_ne (by omega), hat.offset]
  have hblock : update s.blocks (d + 1 + 1) c (d + 1) = b := by
    rw [update_of_ne (by omega), hat.block]
  have hparent : parent ⟨s.pso, s.freed, update s.offsets (d + 1 + 1) 0,
      update s.blocks (d + 1 + 1) c, d + 1 + 1, some c⟩ (d + 1) = some b := by
    unfold parent
    rw [if_neg (by omega)]
    exact congrArg some hblock
  refine ⟨_, .one hdeep.2 hstep, ⟨rfl, rfl, update_self .., update_self ..⟩,
    ⟨?_, ?_, ?_⟩, hparent, ?_, ?_, rfl, rfl⟩
  · intro _
    show update s.blocks (d + 1 + 1) c (d + 1) ≠ 0
    rwa [hblock]
  · rw [hparent]
    show update s.offsets (d + 1 + 1) 0 (d + 1) < 1024
    rwa [hoffset]
  · rw [hparent]
    show s.pso.disk b (update s.offsets (d + 1 + 1) 0 (d + 1)) = c
    rwa [hoffset]
  · intro e he
    show update s.offsets (d + 1 + 1) 0 e = _
    rw [update_of_ne (by omega)]
  · intro e he
    show update s.blocks (d + 1 + 1) c e = _
    rw [update_of_ne (by omega)]

theorem node_left (kids : ℕ → RadixTree ℕ h) : ∀ {s : Sweep} {d b : ℕ},
    NodeAt s d b 0 → 25 ≤ s.offsets 0 ∧ s.offsets 0 < 28 → s.offsets 0 - 24 = d + 1 + h →
    s.Linked d b → ((node b kids).blocks 1024).Nodup →
    (∀ x ∈ (node b kids).blocks 1024, x ≠ 0) →
    (∀ x, s.parent d = some x → x ∉ (node b kids).blocks 1024) →
    (node b kids).Reps 1024 s.pso.disk →
    ∃ n s', n ≤ turns h ∧ Reaches n s s' ∧ Left s s' d (node b kids) := by
  induction h with
  | zero =>
    intro s d b hat hdeep hheight hlink hnd hne hout hreps
    have hb : b ≠ 0 := hne b (mem_blocks_node.mpr (.inr rfl))
    refine leave hb hdeep.2 hat hlink hnd hout
      ⟨fun i _ hi => (hreps i hi).1, fun i _ hi => (hreps i hi).2⟩ ?_
    intro j hj s' hframe hat' hready
    have h0 := (hframe 0 (Nat.zero_le d)).1
    obtain ⟨s'', hreach, hcl⟩ := leaf_step hat' hj hb (by rwa [h0]) (by rw [h0, hheight])
      (hready.word j le_rfl hj)
      fun x hx => hne x (mem_blocks_node.mpr (.inl ⟨j, hj, hx⟩))
    exact ⟨1, s'', le_rfl, hreach, hcl⟩
  | succ h ih =>
    intro s d b hat hdeep hheight hlink hnd hne hout hreps
    have hb : b ≠ 0 := hne b (mem_blocks_node.mpr (.inr rfl))
    refine leave hb hdeep.2 hat hlink hnd hout
      ⟨fun i _ hi => (hreps i hi).1, fun i _ hi => (hreps i hi).2⟩ ?_
    intro j hj s' hframe hat' hready
    have h0 := (hframe 0 (Nat.zero_le d)).1
    have hdeep' : 25 ≤ s'.offsets 0 ∧ s'.offsets 0 < 28 := by rwa [h0]
    have hnot : s'.offsets 0 - 24 ≠ d + 1 := by
      rw [h0, hheight]
      omega
    have hword := hready.word j le_rfl hj
    have hsub : ∀ x ∈ (kids j).blocks 1024, x ∈ (node b kids).blocks 1024 :=
      fun x hx => mem_blocks_node.mpr (.inl ⟨j, hj, hx⟩)
    have hndj := nodup_of_flatMap (nodup_kids hnd) hj
    have hrepsj := hready.reps j le_rfl hj
    have hbj := notMem_kid_of_nodup hnd hj
    cases hkid : kids j with
    | empty =>
      rw [hkid] at hword
      obtain ⟨s'', hreach, hcl⟩ := skip_step (h := h) hat' hj hdeep' hnot hword
      exact ⟨1, s'', by omega, hreach, hcl⟩
    | node c kids' =>
      simp only [hkid, root_node] at hword hsub hndj hrepsj hbj
      have hc : c ≠ 0 := hne c (hsub c (mem_blocks_node.mpr (.inr rfl)))
      obtain ⟨s₁, hreach₁, hat₁, hlink₁, hparent₁, hoff₁, hblk₁, hpso₁, hfreed₁⟩ :=
        enter_step hat' hj hb hdeep' hnot hword hc
      have h01 := hoff₁ 0 (by omega)
      obtain ⟨n, s₂, hn, hreach₂, hleft⟩ := ih kids' hat₁ (by rwa [h01])
        (by rw [h01, h0, hheight]; omega) hlink₁ hndj (fun x hx => hne x (hsub x hx))
        (by
          intro x hx
          rw [hparent₁] at hx
          cases hx
          exact hbj)
        (by rw [hpso₁]; exact hrepsj)
      refine ⟨1 + n, s₂, by omega, hreach₁.trans hreach₂, ⟨⟨hleft.depth, ?_, ?_, ?_⟩, ?_, ?_, ?_⟩⟩
      · rw [hleft.dblk, hparent₁]
      · rw [hleft.offset, hoff₁ _ le_rfl, hat'.offset]
      · rw [hleft.blocks _ le_rfl, hblk₁ _ le_rfl, hat'.block]
      · intro e he
        rw [hleft.frame e (by omega), hoff₁ e (by omega), hleft.blocks e (by omega),
          hblk₁ e (by omega)]
        exact ⟨rfl, rfl⟩
      · rw [hleft.freed, hfreed₁]
      · rw [hleft.pso, hpso₁, hparent₁, hoff₁ _ le_rfl, hat'.offset]

/-- The sweep is in the record, at slot `i`. -/
structure RecordAt (s : Sweep) (i : ℕ) : Prop where
  depth : s.depth = 0
  dblk : s.dblk = none
  offset : s.offsets 0 = i

/-- Slot `i` of the record, which leads to `t`, has been gone through. -/
structure RecordCleared {h : ℕ} (s s' : Sweep) (i : ℕ) (t : RadixTree ℕ h) : Prop where
  at_next : RecordAt s' (i + 1)
  freed : s'.freed = s.freed ++ t.blocks 1024
  pso : s'.pso = (s.pso.wipe (t.inner 1024)).setPtr none i 0

theorem setPtr_none_of_zero {p : PSOSmall} (h : p.dBlk i = 0) : p.setPtr none i 0 = p := by
  apply ext_iff'
  · show update p.dBlk i 0 = p.dBlk
    rw [Function.update_eq_self_iff]
    exact h.symm
  · rfl

theorem record_skip (hat : RecordAt s i) (hi : i < 28) (hword : s.pso.dBlk i = 0) :
    ∃ s', Reaches 1 s s' ∧ RecordCleared s s' i (empty : RadixTree ℕ h) := by
  have hrun : s.offsets 0 < 28 := by rwa [hat.offset]
  have hptr : s.pso.ptrs none i = 0 := hword
  have hin : ¬ extent none ≤ i := by
    simp only [extent, RECORD_WORDS, KFS_RECORD_SIZE]
    omega
  have hnext : s.step = some { s with offsets := update s.offsets 0 (i + 1) } := by
    unfold step
    rw [if_neg (fun h => h.1 hat.depth)]
    unfold leaf internal
    simp only [hat.depth, hat.dblk, hat.offset]
    rw [if_neg hin, if_neg hin, if_neg (not_not.mpr hptr), if_neg (not_not.mpr hptr), ite_self]
  refine ⟨_, .one hrun hnext, ⟨⟨hat.depth, hat.dblk, update_self 0 (i + 1) s.offsets⟩,
    (append_nil _).symm, ?_⟩⟩
  show s.pso = (s.pso.wipe []).setPtr none i 0
  rw [wipe_nil, setPtr_none_of_zero hword]

theorem record_leaf {x : ℕ} (hat : RecordAt s i) (hi : i < 25) (hx : x ≠ 0)
    (hword : s.pso.dBlk i = x) :
    ∃ s', Reaches 1 s s' ∧ RecordCleared s s' i (RadixTree.leaf x) := by
  have hrun : s.offsets 0 < 28 := by
    rw [hat.offset]
    omega
  have hptr : s.pso.ptrs none i = x := hword
  have hin : ¬ extent none ≤ i := by
    simp only [extent, RECORD_WORDS, KFS_RECORD_SIZE]
    omega
  have hnext : s.step = some ⟨s.pso.setPtr none i 0, s.freed ++ [x],
      update s.offsets 0 (i + 1), s.blocks, 0, none⟩ := by
    unfold step
    rw [if_neg (fun h => h.1 hat.depth), if_pos (.inl (by rwa [hat.offset]))]
    unfold leaf
    simp only [hat.depth, hat.dblk, hat.offset, hptr]
    rw [if_neg hin, if_pos hx, if_neg (by simp)]
  refine ⟨_, .one hrun hnext, ⟨⟨rfl, rfl, update_self 0 (i + 1) s.offsets⟩, rfl, ?_⟩⟩
  show s.pso.setPtr none i 0 = (s.pso.wipe []).setPtr none i 0
  rw [wipe_nil]

theorem record_enter {c : ℕ} (hat : RecordAt s i) (hi : 25 ≤ i ∧ i < 28) (hc : c ≠ 0)
    (hword : s.pso.dBlk i = c) :
    ∃ s', Reaches 1 s s' ∧ NodeAt s' 0 c 0 ∧ Linked s' 0 c ∧ s'.offsets 0 = i ∧
      s'.pso = s.pso ∧ s'.freed = s.freed := by
  have hrun : s.offsets 0 < 28 := by
    rw [hat.offset]
    exact hi.2
  have hptr : s.pso.ptrs none i = c := hword
  have hin : ¬ extent none ≤ i := by
    simp only [extent, RECORD_WORDS, KFS_RECORD_SIZE]
    omega
  have hnext : s.step = some ⟨s.pso, s.freed, update s.offsets 1 0,
      update s.blocks 1 c, 1, some c⟩ := by
    unfold step
    rw [if_neg (fun h => h.1 hat.depth), if_neg]
    · unfold internal
      simp only [hat.depth, hat.dblk, hat.offset, hptr]
      rw [if_neg hin, if_pos hc]
    · rw [hat.offset, hat.depth]
      simp only [PSO_SMALL_RECORD_MAXBLK]
      omega
  have hoffset : update s.offsets 1 0 0 = i := by
    rw [update_of_ne (by omega), hat.offset]
  refine ⟨_, .one hrun hnext, ⟨rfl, rfl, update_self 1 0 s.offsets, update_self 1 c s.blocks⟩,
    ⟨fun h => absurd rfl h, ?_, ?_⟩, hoffset, rfl, rfl⟩
  · show update s.offsets 1 0 0 < extent none
    rw [hoffset]
    exact Nat.not_le.mp hin
  · show s.pso.dBlk (update s.offsets 1 0 0) = c
    rwa [hoffset]

theorem record_slot {t : RadixTree ℕ h} (hh : h = i - 24) (hat : RecordAt s i)
    (hi : i < 28) (hword : s.pso.dBlk i = t.root) (hreps : t.Reps 1024 s.pso.disk)
    (hnd : (t.blocks 1024).Nodup) (hne : ∀ x ∈ t.blocks 1024, x ≠ 0) :
    ∃ n s', n ≤ turns 2 + 1 ∧ Reaches n s s' ∧ RecordCleared s s' i t := by
  cases t with
  | empty =>
    obtain ⟨s', hreach, hcl⟩ := record_skip (h := h) hat hi hword
    exact ⟨1, s', by omega, hreach, hcl⟩
  | leaf x =>
    obtain ⟨s', hreach, hcl⟩ := record_leaf hat (by omega) (hne x (by simp [RadixTree.blocks])) hword
    exact ⟨1, s', by omega, hreach, hcl⟩
  | @node h' c kids =>
    have hc : c ≠ 0 := hne c (mem_blocks_node.mpr (.inr rfl))
    obtain ⟨s₁, hreach₁, hat₁, hlink₁, hoff₁, hpso₁, hfreed₁⟩ :=
      record_enter hat (by omega) hc hword
    have hparent : s₁.parent 0 = none := rfl
    obtain ⟨n, s₂, hn, hreach₂, hleft⟩ := node_left kids hat₁ (by rw [hoff₁]; omega)
      (by rw [hoff₁]; omega) hlink₁ hnd hne (by rw [hparent]; intro x hx; cases hx)
      (by rw [hpso₁]; exact hreps)
    have hturns : turns h' ≤ turns 2 := by
      obtain rfl | rfl | rfl : h' = 0 ∨ h' = 1 ∨ h' = 2 := by omega
      · simp only [turns]
        omega
      · simp only [turns]
        omega
      · exact le_rfl
    refine ⟨1 + n, s₂, by omega, hreach₁.trans hreach₂, ⟨⟨hleft.depth, hleft.dblk, ?_⟩, ?_, ?_⟩⟩
    · rw [hleft.offset, hoff₁]
    · rw [hleft.freed, hfreed₁]
    · rw [hleft.pso, hpso₁, hparent, hoff₁]

end Sweep

/-- The pointers of the record from slot `i` on, and those of the blocks in `S`, are
null. -/
def cut (p : PSOSmall) (S : List ℕ) (i : ℕ) : PSOSmall :=
  { p.wipe S with dBlk := fun k => if i ≤ k ∧ k < 28 then 0 else p.dBlk k }

theorem cut_setPtr_wipe (p : PSOSmall) (S S' : List ℕ) (hi : i < 28) :
    ((p.wipe S).setPtr none i 0).cut S' (i + 1) = p.cut (S ++ S') i := by
  apply ext_iff'
  · funext k
    show (if i + 1 ≤ k ∧ k < 28 then 0 else update p.dBlk i 0 k) =
      if i ≤ k ∧ k < 28 then 0 else p.dBlk k
    by_cases hk : k = i
    · subst hk
      rw [update_self, ite_self, if_pos ⟨le_rfl, hi⟩]
    · rw [update_of_ne hk]
      congr 1
      rw [eq_iff_iff]
      omega
  · funext x k
    show (if k < 1024 ∧ x ∈ S' then 0 else if k < 1024 ∧ x ∈ S then 0 else p.disk x k) =
      if k < 1024 ∧ x ∈ S ++ S' then 0 else p.disk x k
    by_cases hk : k < 1024
    · by_cases hS : x ∈ S <;> by_cases hS' : x ∈ S' <;> simp [hk, hS, hS']
    · simp [hk]

theorem cut_at_end (p : PSOSmall) : p.cut [] 28 = p := by
  apply ext_iff'
  · funext k
    show (if 28 ≤ k ∧ k < 28 then 0 else p.dBlk k) = p.dBlk k
    rw [if_neg (by omega)]
  · show (p.wipe []).disk = p.disk
    rw [wipe_nil]

namespace Sweep

theorem record_slots (hnd : ((range 28).flatMap fun i => (F i).blocks 1024).Nodup)
    (hne : ∀ i < 28, ∀ x ∈ (F i).blocks 1024, x ≠ 0) : ∀ m i s, i + m = 28 → RecordAt s i →
      (∀ k, i ≤ k → k < 28 → s.pso.dBlk k = (F k).root ∧ (F k).Reps 1024 s.pso.disk) →
      ∃ n s', n ≤ m * (turns 2 + 1) ∧ Reaches n s s' ∧ s'.offsets 0 = 28 ∧
        s'.freed = s.freed ++ (range' i m).flatMap (fun k => (F k).blocks 1024) ∧
        s'.pso = s.pso.cut ((range' i m).flatMap fun k => (F k).inner 1024) i := by
  intro m
  induction m with
  | zero =>
    intro i s him hat _
    obtain rfl : i = 28 := by omega
    refine ⟨0, s, by omega, .refl s, hat.offset, ?_, ?_⟩
    · simp
    · exact (cut_at_end s.pso).symm
  | succ m ih =>
    intro i s him hat hready
    have hi : i < 28 := by omega
    obtain ⟨n₁, s₁, hn₁, hreach₁, hcl⟩ := record_slot rfl hat hi (hready i le_rfl hi).1
      (hready i le_rfl hi).2 (nodup_of_flatMap hnd hi) (hne i hi)
    have hready₁ : ∀ k, i + 1 ≤ k → k < 28 →
        s₁.pso.dBlk k = (F k).root ∧ (F k).Reps 1024 s₁.pso.disk := by
      intro k hle hk
      rw [hcl.pso]
      constructor
      · show update s.pso.dBlk i 0 k = _
        rw [update_of_ne (by omega)]
        exact (hready k (by omega) hk).1
      · refine (hready k (by omega) hk).2.congr ?_
        intro x hx j _
        refine wipe_of_notMem s.pso (fun hxi => ?_) j
        exact disjoint_of_flatMap hnd hk hi (by omega) (mem_blocks_of_inner hx)
          (mem_blocks_of_inner hxi)
    obtain ⟨n₂, s₂, hn₂, hreach₂, hoff₂, hfreed₂, hpso₂⟩ :=
      ih (i + 1) s₁ (by omega) hcl.at_next hready₁
    refine ⟨n₁ + n₂, s₂, ?_, hreach₁.trans hreach₂, hoff₂, ?_, ?_⟩
    · rw [Nat.succ_mul]
      omega
    · rw [hfreed₂, hcl.freed, append_assoc, range'_succ, flatMap_cons]
    · rw [hpso₂, hcl.pso, cut_setPtr_wipe _ _ _ hi, range'_succ, flatMap_cons]

end Sweep

theorem Holds.truncate (h : Holds p F) (hl : l < 25) :
    ∃ s, p.truncate l = (s, none) ∧
      s.freed = (range' l (28 - l)).flatMap (fun k => (F k).blocks 1024) ∧
      s.pso = p.cut ((range' l (28 - l)).flatMap fun k => (F k).inner 1024) l := by
  have hpath : blockToPath l = .ok [l] := by
    unfold blockToPath
    rw [if_pos hl]
  have hfetch : p.fetch 1 0 none (fun _ => 0) [l] = some fun _ => 0 := by
    unfold fetch
    split
    · rfl
    · rfl
  obtain ⟨n, s, hn, hreach, hoff, hfreed, hpso⟩ := Sweep.record_slots h.nodup h.nonzero (28 - l) l
    ⟨p, [], fun i => [l].getD i 0, fun _ => 0, 0, none⟩ (by omega) ⟨rfl, rfl, rfl⟩
    fun k _ hk => ⟨h.word k hk, h.reps k hk⟩
  refine ⟨s, ?_, hfreed, hpso⟩
  have hbound : n ≤ 2 ^ 40 - 1 := by
    have hm : (28 - l) * (Sweep.turns 2 + 1) ≤ 28 * (Sweep.turns 2 + 1) :=
      Nat.mul_le_mul_right _ (by omega)
    simp only [Sweep.turns] at hn hm
    omega
  unfold PSOSmall.truncate
  rw [hpath]
  simp only [List.length_singleton]
  rw [hfetch]
  obtain ⟨fuel, hfuel⟩ : ∃ fuel, 2 ^ 40 = n + (fuel + 1) := ⟨2 ^ 40 - 1 - n, by omega⟩
  rw [hfuel]
  refine (hreach.loop (fuel + 1)).trans ?_
  rw [Sweep.loop, if_neg]
  rw [hoff]
  exact Nat.lt_irrefl 28

/-- The forest without the slots from `l` on. -/
def Forest.below (F : Forest) (l : ℕ) : Forest := fun k => if k < l then F k else empty

theorem Forest.below_of_lt (F : Forest) {k : ℕ} (h : k < l) : F.below l k = F k := if_pos h

theorem Forest.below_of_le (F : Forest) {k : ℕ} (h : l ≤ k) : F.below l k = empty :=
  if_neg (Nat.not_lt.mpr h)

theorem mem_cut_slots (f : ℕ → List ℕ) (hl : l ≤ 28) :
    x ∈ (range' l (28 - l)).flatMap f ↔ ∃ k, l ≤ k ∧ k < 28 ∧ x ∈ f k := by
  simp only [List.mem_flatMap, List.mem_range'_1]
  constructor
  · rintro ⟨k, ⟨hle, hlt⟩, hx⟩
    exact ⟨k, hle, by omega, hx⟩
  · rintro ⟨k, hle, hlt, hx⟩
    exact ⟨k, ⟨hle, by omega⟩, hx⟩

theorem Holds.cut (h : Holds p F) (hl : l < 25) :
    Holds (p.cut ((range' l (28 - l)).flatMap fun k => (F k).inner 1024) l) (F.below l) where
  word k hk := by
    show (if l ≤ k ∧ k < 28 then 0 else p.dBlk k) = _
    by_cases hkl : k < l
    · rw [if_neg (by omega), F.below_of_lt hkl]
      exact h.word k hk
    · rw [if_pos ⟨by omega, hk⟩, F.below_of_le (by omega)]
      rfl
  reps k hk := by
    by_cases hkl : k < l
    · rw [F.below_of_lt hkl]
      refine (h.reps k hk).congr ?_
      intro x hx j _
      refine wipe_of_notMem p (fun hmem => ?_) j
      obtain ⟨k', hle, hk', hx'⟩ := (mem_cut_slots _ (by omega)).mp hmem
      exact disjoint_of_flatMap h.nodup hk hk' (by omega) (mem_blocks_of_inner hx)
        (mem_blocks_of_inner hx')
    · rw [F.below_of_le (by omega)]
      trivial
  nodup := by
    refine List.Nodup.sublist (List.Sublist.flatMap_right _ fun k _ => ?_) h.nodup
    by_cases hkl : k < l
    · rw [F.below_of_lt hkl]
    · rw [F.below_of_le (by omega)]
      exact List.nil_sublist _
  nonzero k hk x hx := by
    by_cases hkl : k < l
    · rw [F.below_of_lt hkl] at hx
      exact h.nonzero k hk x hx
    · rw [F.below_of_le (by omega)] at hx
      exact absurd hx not_mem_nil
  pruned k hk := by
    by_cases hkl : k < l
    · rw [F.below_of_lt hkl]
      exact h.pruned k hk
    · rw [F.below_of_le (by omega)]
      trivial

end PSOSmall

end K42
