import K42.KFS.BlockMapRuns

/-!
# The blocks that `getDblk` allocates

`allocBlock` returns a block or an error code, both as a `SysStatus`; `getDblk` keeps the low 32
bits of either. Where every answer is a block the file has one logical block more. The code of an
error becomes the number of a block.
-/

namespace K42

open RadixTree

namespace PSOSmall

variable {p p' : PSOSmall} {F : Forest}

/-- What `allocBlock` returns. -/
inductive AllocStatus
  | block (b : ℕ)
  | noSpace
deriving DecidableEq

/-- The `SysStatus`; the error is `_SERROR(2607, 0, ENOSPC)`. -/
def AllocStatus.word : AllocStatus → ℕ
  | block b => b
  | noSpace => 2 ^ 63 + 2607 * 2 ^ 16 + 28

/-- What is written to `dblk[*ptr]`, which has 32 bits. -/
def AllocStatus.stored (a : AllocStatus) : ℕ := a.word % 2 ^ 32

/-- How many blocks a path lacks: from the first null pointer on, all of them. -/
def missing (p : PSOSmall) : Option ℕ → List ℕ → ℕ
  | _, [] => 0
  | dblk, i :: rest =>
    if p.ptrs dblk i = 0 then rest.length + 1 else missing p (some (p.ptrs dblk i)) rest

/-- How often `getDblk(l, 1)` calls `allocBlock`. -/
def allocations (p : PSOSmall) (l : ℕ) : ℕ :=
  match blockToPath l with
  | .error _ => 0
  | .ok offsets => p.missing none offsets

/-- `getDblk(l, 1)`, where `allocBlock` gives these answers. -/
def getDblkAnswered (p : PSOSmall) (l : ℕ) (answers : List AllocStatus) :
    Except Failure (PSOSmall × ℕ) :=
  p.getDblk l true (answers.map AllocStatus.stored)

/-! ## The walk -/

theorem getDblkFrom_null {rest : List ℕ} : ∀ {p : PSOSmall} {dblk : Option ℕ} {i : ℕ}
    {fresh : List ℕ}, p.ptrs dblk i = 0 → fresh.length = rest.length + 1 →
    ∃ p' b, getDblkFrom true p dblk (i :: rest) fresh = .ok (p', b) ∧ b ∈ fresh := by
  induction rest with
  | nil =>
    intro p dblk i fresh hzero hlen
    obtain ⟨b, rfl⟩ := List.length_eq_one_iff.mp hlen
    rw [getDblkFrom_cons, if_pos hzero]
    exact ⟨_, b, rfl, List.mem_cons_self⟩
  | cons j rest ih =>
    intro p dblk i fresh hzero hlen
    cases fresh with
    | nil => simp at hlen
    | cons c fresh =>
      have hnull : ((p.setPtr dblk i c).zeroBlock c).ptrs (some c) j = 0 := by
        show Function.update (p.setPtr dblk i c).disk c (fun _ => 0) c j = 0
        rw [Function.update_self]
      obtain ⟨p', b, hok, hb⟩ := ih hnull (Nat.succ.inj hlen)
      refine ⟨p', b, ?_, List.mem_cons_of_mem c hb⟩
      rw [getDblkFrom_cons, if_pos hzero, if_neg (by simp)]
      simp only [if_neg (List.cons_ne_nil _ _)]
      exact hok

theorem getDblkFrom_answered {rest : List ℕ} : ∀ {dblk : Option ℕ} {i : ℕ} {fresh : List ℕ},
    fresh.length = p.missing dblk (i :: rest) →
    ∃ p' b, getDblkFrom true p dblk (i :: rest) fresh = .ok (p', b) ∧ (b ∈ fresh ∨ b ≠ 0) := by
  induction rest with
  | nil =>
    intro dblk i fresh hlen
    by_cases hzero : p.ptrs dblk i = 0
    · rw [missing, if_pos hzero] at hlen
      obtain ⟨p', b, hok, hb⟩ := getDblkFrom_null hzero hlen
      exact ⟨p', b, hok, .inl hb⟩
    · rw [getDblkFrom_cons, if_neg hzero, if_pos rfl]
      exact ⟨p, _, rfl, .inr hzero⟩
  | cons j rest ih =>
    intro dblk i fresh hlen
    by_cases hzero : p.ptrs dblk i = 0
    · rw [missing, if_pos hzero] at hlen
      obtain ⟨p', b, hok, hb⟩ := getDblkFrom_null hzero hlen
      exact ⟨p', b, hok, .inl hb⟩
    · rw [missing, if_neg hzero] at hlen
      rw [getDblkFrom_cons, if_neg hzero, if_neg (List.cons_ne_nil _ _)]
      exact ih hlen

theorem getDblkAnswered_ok {l : ℕ} (hl : l < PSO_SMALL_MAXBLK) {answers : List AllocStatus}
    (hlen : answers.length = p.allocations l) :
    ∃ p' b, p.getDblkAnswered l answers = .ok (p', b) ∧
      (b ∈ answers.map AllocStatus.stored ∨ b ≠ 0) := by
  obtain ⟨i, rest, hpath, -⟩ := blockToPath_spec hl
  rw [allocations, hpath] at hlen
  rw [getDblkAnswered, PSOSmall.getDblk, hpath]
  exact getDblkFrom_answered (by rw [List.length_map, hlen])

/-! ## Blocks and their paths -/

theorem blockToPath_injective {k l : ℕ} (hk : k < PSO_SMALL_MAXBLK) (hl : l < PSO_SMALL_MAXBLK)
    (heq : blockToPath k = blockToPath l) : k = l := by
  unfold blockToPath at heq
  simp only [PSO_SMALL_MAXBLK, PSO_SMALL_RECORD_MAXBLK, PSO_SMALL_DIRECT_MAXBLK] at *
  split_ifs at heq <;>
    simp only [Except.ok.injEq, List.cons.injEq, and_true, true_and, reduceCtorEq,
      and_false] at heq <;>
    omega

theorem Holds.blockAt_injective (h : Holds p F) {k l : ℕ} (hk : k < PSO_SMALL_MAXBLK)
    (hl : l < PSO_SMALL_MAXBLK) (hne : p.blockAt k ≠ 0) (heq : p.blockAt k = p.blockAt l) :
    k = l := by
  obtain ⟨i, rest, hpath, his, -⟩ := blockToPath_spec hk
  obtain ⟨j, rest', hpath', hjs, -⟩ := blockToPath_spec hl
  rw [h.blockAt his hpath] at hne heq
  rw [h.blockAt hjs hpath'] at heq
  have hmem := find_mem_blocks (F i) his.offsets hne
  have hmem' := find_mem_blocks (F j) hjs.offsets (heq ▸ hne)
  have hij : i = j := by
    by_contra hij
    rw [← heq] at hmem'
    exact disjoint_of_flatMap h.nodup his.slot hjs.slot hij hmem hmem'
  subst hij
  have hrest := find_injective (F i) (nodup_of_flatMap h.nodup his.slot) his.length hjs.length
    his.offsets hjs.offsets hne heq
  exact blockToPath_injective hk hl (by rw [hpath, hpath', hrest])

/-! ## What `getDblk` is for -/

/-- Block `b` is at `l`, and nothing else has changed. -/
structure AllocatesOne (p : PSOSmall) (l : ℕ) (p' : PSOSmall) (b : ℕ) : Prop where
  nonzero : b ≠ 0
  mapped : p'.blockAt l = b
  others : ∀ k < PSO_SMALL_MAXBLK, k ≠ l → p'.blockAt k = p.blockAt k
  once : ∀ j < PSO_SMALL_MAXBLK, ∀ k < PSO_SMALL_MAXBLK, p'.blockAt j ≠ 0 →
    p'.blockAt j = p'.blockAt k → j = k

/-- What the caller of `getDblk(l, 1)` may rely on. -/
def GetsBlock (p : PSOSmall) (l : ℕ) (answers : List AllocStatus) : Prop :=
  ∃ p' b, p.getDblkAnswered l answers = .ok (p', b) ∧
    (AllocStatus.noSpace ∉ answers → AllocatesOne p l p' b) ∧
    (AllocStatus.noSpace ∈ answers →
      b = 0 ∧ ∀ k < PSO_SMALL_MAXBLK, p'.blockAt k = p.blockAt k)

theorem Holds.allocatesOne (h : Holds p F) {l b : ℕ} {fresh : List ℕ}
    (hl : l < PSO_SMALL_MAXBLK) (hnd : fresh.Nodup) (hfresh : ∀ x ∈ fresh, x ≠ 0 ∧ ¬ InUse p x)
    (hok : p.getDblk l true fresh = .ok (p', b)) : AllocatesOne p l p' b := by
  obtain ⟨i, rest, hpath, his, -⟩ := blockToPath_spec hl
  obtain ⟨hholds, -, hb, hfind⟩ := h.getDblk_put his hpath hnd (fun x hx => (hfresh x hx).1)
    (fun x hx k hk hmem => (hfresh x hx).2 (h.inUse_of_mem hk hmem)) hok
  constructor
  · exact hb
  · rw [hholds.blockAt his hpath, Function.update_self, hfind]
  · intro k hk hkl
    obtain ⟨j, rest', hpath', hjs, -⟩ := blockToPath_spec hk
    rw [hholds.blockAt hjs hpath', h.blockAt hjs hpath']
    by_cases hji : j = i
    · subst hji
      rw [Function.update_self]
      refine find_put_of_ne (F j) fresh his.length hjs.length ?_
      rintro rfl
      exact hkl (blockToPath_injective hk hl (by rw [hpath, hpath']))
    · rw [Function.update_of_ne hji]
  · intro j hj k hk hne heq
    exact hholds.blockAt_injective hj hk hne heq

/-- The answers of an allocator that gives each block away once and gives no block away that
the file has. -/
structure Answers (p : PSOSmall) (l : ℕ) (answers : List AllocStatus) : Prop where
  length : answers.length = p.allocations l
  blocks : ∀ b, .block b ∈ answers → b ≠ 0 ∧ b < 2 ^ 32 ∧ ¬ InUse p b
  once : ∀ b, answers.count (.block b) ≤ 1

/-- `getDblk(l, 1)` gets a block, or leaves the file as it is, exactly if `allocBlock` gives it a
block each time. -/
theorem run_getsBlock_iff {ops : List Call} (hrun : calls.Run start ops p) {l : ℕ}
    (hl : l < PSO_SMALL_MAXBLK) {answers : List AllocStatus} (hans : Answers p l answers) :
    GetsBlock p l answers ↔ AllocStatus.noSpace ∉ answers := by
  obtain ⟨F, h⟩ := run_holds hrun
  obtain ⟨p', b, hok, hb⟩ := getDblkAnswered_ok hl hans.length
  have hne : b ≠ 0 := by
    rcases hb with hb | hb
    · obtain ⟨a, ha, rfl⟩ := List.mem_map.mp hb
      cases a with
      | block c =>
        obtain ⟨hc, hlt, -⟩ := hans.blocks c ha
        show c % 2 ^ 32 ≠ 0
        rwa [Nat.mod_eq_of_lt hlt]
      | noSpace => decide
    · exact hb
  constructor
  · rintro ⟨q, c, hok', -, herror⟩ hmem
    rw [hok] at hok'
    cases hok'
    exact hne (herror hmem).1
  · intro hmem
    refine ⟨p', b, hok, fun _ => ?_, fun hin => absurd hin hmem⟩
    have hstored : ∀ a ∈ answers, ∃ c, a = .block c ∧ a.stored = c := by
      intro a ha
      cases a with
      | block c => exact ⟨c, rfl, Nat.mod_eq_of_lt (hans.blocks c ha).2.1⟩
      | noSpace => exact absurd ha hmem
    refine h.allocatesOne hl ?_ ?_ hok
    · refine (List.nodup_map_iff_inj_on ?_).mpr ?_
      · rw [List.nodup_iff_count_le_one]
        intro a
        cases a with
        | block c => exact hans.once c
        | noSpace => rw [List.count_eq_zero_of_not_mem hmem]; exact Nat.zero_le 1
      · intro a ha a' ha' heq
        obtain ⟨c, rfl, hc⟩ := hstored a ha
        obtain ⟨c', rfl, hc'⟩ := hstored a' ha'
        rw [← hc, ← hc', heq]
    · intro x hx
      obtain ⟨a, ha, rfl⟩ := List.mem_map.mp hx
      obtain ⟨c, rfl, hc⟩ := hstored a ha
      rw [hc]
      exact ⟨(hans.blocks c ha).1, (hans.blocks c ha).2.2⟩

/-- A direct block of an empty file. -/
theorem run_getsBlock_direct :
    calls.Run start [] start ∧ GetsBlock start 5 [.block 77] := by
  refine ⟨.nil, (run_getsBlock_iff .nil (by decide) ⟨rfl, ?_, ?_⟩).mpr (by decide)⟩
  · intro b hb
    obtain rfl : b = 77 := by simpa using hb
    exact ⟨by decide, by decide, not_inUse_start 77⟩
  · intro b
    exact (List.count_le_length).trans (by decide)

/-- Without space the error code is mapped, and returned as a block. -/
theorem not_getsBlock_noSpace :
    calls.Run start [] start ∧ Answers start 5 [.noSpace] ∧
      (∃ p', start.getDblkAnswered 5 [.noSpace] = .ok (p', 170852380) ∧
        start.blockAt 5 = 0 ∧ p'.blockAt 5 = 170852380) ∧
      ¬ GetsBlock start 5 [.noSpace] := by
  refine ⟨.nil, ⟨rfl, ?_, ?_⟩, ⟨_, rfl, rfl, rfl⟩, ?_⟩
  · intro b hb
    simp at hb
  · intro b
    exact (List.count_le_length).trans (by decide)
  · rintro ⟨p', b, hok, -, herror⟩
    cases hok
    exact absurd (herror List.mem_cons_self).1 (by decide)

end PSOSmall

end K42
