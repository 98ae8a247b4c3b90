import K42.Swap.BlockSet
import K42.Lib.Run

/-!
# The sets that a hierarchical bitmap gives out

Over whole runs: a bit of the levels 2 and 3 says that the word it stands for is full, a bit of
level 1 that its set is held or lies behind the end of the device, and a search fails only when
no set is left.
-/

namespace K42

namespace BlockSet

open Bitmap (bit bit_clearBit bit_setBit clearBit lowClear setBit)

variable {m m' : BlockSet} {l n curr numBlocks : ℕ}

/-! ## Full words below set bits -/

/-- Each set bit of the level above `l` stands for a full word. -/
def Full (m : BlockSet) (l : ℕ) : Prop :=
  ∀ n, Bitmap.bit (m.mapLevel (l + 1)) (n / 64) = true → Bitmap.bit (m.mapLevel l) n = true

theorem bit_of_lowClear (words : ℕ → BitVec 64) (h : lowClear (words (n / 64)) = 64) :
    bit words n = true := by
  rw [← Bool.not_eq_false]
  exact fun hclear => Bitmap.lowClear_ne (Nat.mod_lt n (by decide)) hclear h

theorem exists_clear (words : ℕ → BitVec 64) (h : lowClear (words curr) ≠ 64) :
    ∃ n, n / 64 = curr ∧ bit words n = false := by
  obtain ⟨hlt, hclear⟩ := bit_lowClear words curr h
  exact ⟨_, by omega, hclear⟩

theorem numAt_succ (numBlocks level : ℕ) :
    numAt numBlocks (level + 1) = numAbove (numAt numBlocks level) := rfl

theorem create_full (numBlocks l : ℕ) : (create numBlocks).Full l := by
  intro n hn
  change bit (initialWord (numAt numBlocks (l + 1))) (n / 64) = true at hn
  change bit (initialWord (numAt numBlocks l)) n = true
  rw [bit_initialWord, decide_eq_true_eq] at hn ⊢
  rw [numAt_succ] at hn
  by_contra hlt
  have hbelow : n / 64 < numAbove (numAt numBlocks l) := lt_numAbove.mpr (by omega)
  exact absurd hbelow (Nat.not_lt.mpr hn)

theorem Full.set_above (h : m.Full l) {setID : ℕ}
    (hfull : lowClear (m.mapLevel l setID) = 64) :
    (m.setLevel (l + 1) (setBit (m.mapLevel (l + 1)) setID)).Full l := by
  intro n hn
  rw [setLevel_self, bit_setBit (by decide), Bool.or_eq_true, decide_eq_true_eq] at hn
  rw [setLevel_of_ne (by omega)]
  rcases hn with hn | rfl
  · exact h n hn
  · exact bit_of_lowClear _ hfull

theorem Full.set_below (h : m.Full l) (setID : ℕ) :
    (m.setLevel l (setBit (m.mapLevel l) setID)).Full l := by
  intro n hn
  rw [setLevel_of_ne (by omega)] at hn
  rw [setLevel_self, bit_setBit (by decide), h n hn, Bool.true_or]

theorem Full.other (h : m.Full l) (level : ℕ) (hl : l ≠ level) (hl' : l + 1 ≠ level)
    (words : ℕ → BitVec 64) : (m.setLevel level words).Full l := by
  intro n hn
  rw [setLevel_of_ne hl'] at hn
  rw [setLevel_of_ne hl]
  exact h n hn

theorem getBlockSetLoop_full {fuel level setID : ℕ} (hlevel : level < 3) (hone : m.Full 1)
    (htwo : m.Full 2) : (m.getBlockSetLoop fuel (level + 1) setID).1.Full 1 ∧
      (m.getBlockSetLoop fuel (level + 1) setID).1.Full 2 := by
  induction fuel generalizing m level setID with
  | zero => exact ⟨hone, htwo⟩
  | succ fuel ih =>
    rw [getBlockSetLoop]
    simp only
    split
    · next hfull =>
      split
      · exact ⟨hone, htwo⟩
      · rcases level with _ | _ | level
        · exact ih (by decide) (hone.set_above hfull) (htwo.set_below setID)
        · exact ih (by decide) (hone.other 3 (by decide) (by decide) _) (htwo.set_above hfull)
        · omega
    · cases level with
      | zero =>
        rw [if_pos rfl]
        have hone' := hone.set_below (setID * 64 + lowClear (m.mapLevel 1 setID))
        have htwo' := htwo.other 1 (by decide) (by decide)
          (setBit (m.mapLevel 1) (setID * 64 + lowClear (m.mapLevel 1 setID)))
        cases fuel with
        | zero => exact ⟨hone', htwo'⟩
        | succ fuel => exact ⟨hone', htwo'⟩
      | succ level =>
        rw [if_neg (by omega)]
        exact ih (by omega) hone htwo

theorem getBlockSetLoop_outOfSpace {fuel level setID : ℕ} (hlevel : level < 3)
    (hid : setID < 64 ^ (2 - level))
    (h : m.getBlockSetLoop fuel (level + 1) setID = (m', .outOfSpace)) :
    lowClear (m'.mapLevel 3 0) = 64 ∧ m'.mapLevel 1 = m.mapLevel 1 := by
  induction fuel generalizing m level setID with
  | zero => cases h
  | succ fuel ih =>
    rw [getBlockSetLoop] at h
    simp only at h
    split at h
    · next hfull =>
      split at h
      · next hroot =>
        obtain rfl : level = 2 := by omega
        obtain rfl : setID = 0 := by simpa using hid
        cases h
        exact ⟨hfull, rfl⟩
      · have hup : setID / 64 < 64 ^ (2 - (level + 1)) := by
          have hpow : 2 - level = 2 - (level + 1) + 1 := by omega
          rw [hpow, pow_succ] at hid
          omega
        obtain ⟨hroot, hsets⟩ := ih (by omega) hup h
        exact ⟨hroot, by rw [hsets, setLevel_of_ne (by omega)]⟩
    · rename_i hne
      obtain ⟨hlt, -⟩ := bit_lowClear _ _ hne
      cases level with
      | zero =>
        rw [if_pos rfl] at h
        cases fuel <;> cases h
      | succ level =>
        rw [if_neg (by omega)] at h
        refine ih (by omega) ?_ h
        have hpow : 2 - level = 2 - (level + 1) + 1 := by omega
        rw [hpow, pow_succ]
        omega

/-! ## Giving a set back -/

/-- The loop clears the bit of `curr` and then that of each word that was full: a word that was
not full had its bit clear. -/
theorem putBlockSetLoop_full (k : ℕ) (hl : 1 ≤ l) :
    ∀ (level curr : ℕ) (m : BlockSet), level + k = 3 → l ≤ 2 →
    (∀ n, (l = level → n / 64 ≠ curr) → bit (m.mapLevel (l + 1)) (n / 64) = true →
      bit (m.mapLevel l) n = true) → (m.putBlockSetLoop k level curr).Full l := by
  induction k with
  | zero =>
    intro level curr m hlevel hle h n hn
    exact h n (by omega) hn
  | succ k ih =>
    intro level curr m hlevel hle h
    rw [putBlockSetLoop]
    have hbit : ∀ j, bit (clearBit (m.mapLevel (level + 1)) curr) j = true ↔
        bit (m.mapLevel (level + 1)) j = true ∧ j ≠ curr := by
      intro j
      rw [bit_clearBit (by decide), Bool.and_eq_true, Bool.not_eq_true',
        decide_eq_false_iff_not]
    have hkept : ∀ n, (l = level + 1 → n / 64 ≠ curr / 64) →
        bit ((m.setLevel (level + 1)
          (clearBit (m.mapLevel (level + 1)) curr)).mapLevel (l + 1)) (n / 64) = true →
        bit ((m.setLevel (level + 1)
          (clearBit (m.mapLevel (level + 1)) curr)).mapLevel l) n = true := by
      intro n hn hset
      by_cases heq : l = level
      · subst heq
        rw [setLevel_self, hbit] at hset
        rw [setLevel_of_ne (by omega)]
        exact h n (fun _ => hset.2) hset.1
      · by_cases heq' : l = level + 1
        · subst heq'
          rw [setLevel_of_ne (by omega)] at hset
          rw [setLevel_self, hbit]
          refine ⟨h n (fun hc => absurd hc (by omega)) hset, ?_⟩
          rintro rfl
          exact hn rfl rfl
        · rw [setLevel_of_ne (by omega)] at hset ⊢
          exact h n (fun hc => absurd hc heq) hset
    split
    · exact ih (level + 1) (curr / 64) _ (by omega) hle hkept
    · next hfull =>
      obtain ⟨j, hj, hclear⟩ := exists_clear _ hfull
      intro n hn
      refine hkept n ?_ hn
      rintro rfl hsame
      -- the word was not full, so its own bit is clear
      rw [setLevel_of_ne (by omega), hsame, ← hj] at hn
      rw [h j (fun hc => absurd hc (by omega)) hn] at hclear
      cases hclear

/-- `putBlockSet` with its second argument. -/
def putBlockSetClearing (m : BlockSet) (orig : ℕ) (clearSet : Bool) : BlockSet :=
  if clearSet then m.putBlockSet orig else m.putBlockSetLoop 3 0 orig

theorem putBlockSetClearing_level1 (m : BlockSet) (orig : ℕ) (clearSet : Bool) :
    (m.putBlockSetClearing orig clearSet).mapLevel 1 = clearBit (m.mapLevel 1) orig := by
  have hput := putBlockSet_level1 m orig
  cases clearSet with
  | true => exact hput
  | false => rwa [putBlockSet, setLevel_of_ne (by decide)] at hput

theorem Full.putBlockSet (hl : 1 ≤ l) (hle : l ≤ 2) (h : m.Full l) (orig : ℕ)
    (clearSet : Bool) : (m.putBlockSetClearing orig clearSet).Full l := by
  have hloop : (m.putBlockSetLoop 3 0 orig).Full l :=
    putBlockSetLoop_full 3 hl 0 orig m rfl hle fun n _ => h n
  cases clearSet with
  | true => exact hloop.other 0 (by omega) (by omega) _
  | false => exact hloop

/-! ## Runs -/

/-- The bitmaps and the sets that have been given out. -/
structure Usage where
  map : BlockSet
  held : Finset ℕ

inductive Op
  | getBlockSet
  | putBlockSet (setID : ℕ) (clearSet : Bool)
deriving DecidableEq

namespace Usage

def step (s : Usage) : Op → Usage
  | .getBlockSet =>
    match s.map.getBlockSet with
    | (map, .found setID) => ⟨map, insert setID s.held⟩
    | (map, _) => ⟨map, s.held⟩
  | .putBlockSet setID clearSet =>
    ⟨s.map.putBlockSetClearing setID clearSet, s.held.erase setID⟩

/-- Only held sets are put back, and nothing comes after the assertion that there is space. -/
def adm (s : Usage) : Op → Prop
  | .getBlockSet => s.map.getBlockSet.2 ≠ .outOfSpace
  | .putBlockSet setID _ => setID ∈ s.held

instance (s : Usage) : (op : Op) → Decidable (s.adm op)
  | .getBlockSet => inferInstanceAs (Decidable (_ ≠ _))
  | .putBlockSet _ _ => inferInstanceAs (Decidable (_ ∈ _))

end Usage

def blockSets : Machine Usage Op := ⟨Usage.step, Usage.adm⟩

instance (s : Usage) (op : Op) : Decidable (blockSets.adm s op) :=
  inferInstanceAs (Decidable (s.adm op))

def start (numBlocks : ℕ) : Usage := ⟨create numBlocks, ∅⟩

/-- The words below set bits are full, and the bits of the sets tell which are not to be
had. -/
structure Inv (numBlocks : ℕ) (s : Usage) : Prop where
  sets : s.map.Full 1
  words : s.map.Full 2
  taken : ∀ n, Bitmap.bit (s.map.mapLevel 1) n = true ↔ n ∈ s.held ∨ numBlocks ≤ n * 64
  below : ∀ n ∈ s.held, n * 64 < numBlocks

theorem start_inv (numBlocks : ℕ) : Inv numBlocks (start numBlocks) where
  sets := create_full numBlocks 1
  words := create_full numBlocks 2
  taken := by
    intro n
    change bit (initialWord (numAbove numBlocks)) n = true ↔ _
    rw [bit_initialWord, decide_eq_true_eq, ← not_lt, lt_numAbove, not_lt]
    simp [start]
  below := nofun

theorem getBlockSet_full (hsets : m.Full 1) (hwords : m.Full 2) :
    m.getBlockSet.1.Full 1 ∧ m.getBlockSet.1.Full 2 :=
  getBlockSetLoop_full (by decide) hsets hwords

theorem Inv.found {s : Usage} (h : Inv numBlocks s) {S : ℕ}
    (hget : s.map.getBlockSet = (m', .found S)) : S ∉ s.held ∧ S * 64 < numBlocks := by
  have hfree := (getBlockSet_found hget).clear
  have hnot : ¬ (S ∈ s.held ∨ numBlocks ≤ S * 64) := by
    rw [← h.taken, hfree]
    decide
  rw [not_or, not_le] at hnot
  exact hnot

theorem Inv.step {s : Usage} (h : Inv numBlocks s) (op : Op) (hadm : s.adm op) :
    Inv numBlocks (s.step op) := by
  cases op with
  | getBlockSet =>
    have hfull := getBlockSet_full h.sets h.words
    have hends := getBlockSet_ends s.map
    simp only [Usage.step]
    rcases hget : s.map.getBlockSet with ⟨map, found | - | -⟩
    · rw [hget] at hfull
      have htakes := getBlockSet_found hget
      refine ⟨hfull.1, hfull.2, fun n => ?_, fun n hn => ?_⟩
      · change bit (map.mapLevel 1) n = true ↔ n ∈ insert found s.held ∨ _
        rw [htakes.level1, bit_setBit (by decide), Bool.or_eq_true, decide_eq_true_eq,
          h.taken, Finset.mem_insert]
        tauto
      · rcases Finset.mem_insert.mp hn with rfl | hn
        · exact (h.found hget).2
        · exact h.below n hn
    · rw [hget] at hfull
      refine ⟨hfull.1, hfull.2, ?_, h.below⟩
      change ∀ n, bit (map.mapLevel 1) n = true ↔ _
      rw [(getBlockSetLoop_outOfSpace (by decide) (by decide) hget).2]
      exact h.taken
    · rw [hget] at hends
      exact absurd rfl hends
  | putBlockSet setID clearSet =>
    refine ⟨h.sets.putBlockSet (by decide) (by decide) setID clearSet,
      h.words.putBlockSet (by decide) (by decide) setID clearSet, fun n => ?_,
      fun n hn => h.below n (Finset.mem_of_mem_erase hn)⟩
    change bit ((s.map.putBlockSetClearing setID clearSet).mapLevel 1) n = true ↔
      n ∈ s.held.erase setID ∨ _
    rw [putBlockSetClearing_level1, bit_clearBit (by decide), Bool.and_eq_true,
      Bool.not_eq_true', decide_eq_false_iff_not, h.taken, Finset.mem_erase]
    have hbelow := h.below setID hadm
    constructor
    · rintro ⟨hheld | hbehind, hne⟩
      · exact .inl ⟨hne, hheld⟩
      · exact .inr hbehind
    · rintro (⟨hne, hheld⟩ | hbehind)
      · exact ⟨.inl hheld, hne⟩
      · refine ⟨.inr hbehind, ?_⟩
        rintro rfl
        exact absurd hbelow (Nat.not_lt.mpr hbehind)

theorem run_inv {s : Usage} {ops : List Op} (hrun : blockSets.Run (start numBlocks) ops s) :
    Inv numBlocks s :=
  hrun.invariant (start_inv numBlocks) fun _ op h hadm => h.step op hadm

theorem Inv.outOfSpace {s : Usage} (h : Inv numBlocks s) (hn : numBlocks ≤ 64 ^ 4)
    (hget : s.map.getBlockSet = (m', .outOfSpace)) {S : ℕ} (hS : S * 64 < numBlocks) :
    S ∈ s.held := by
  obtain ⟨hroot, hsame⟩ := getBlockSetLoop_outOfSpace (by decide) (by decide) hget
  obtain ⟨hsets, hwords⟩ := getBlockSet_full h.sets h.words
  rw [hget] at hsets hwords
  have htop : bit (m'.mapLevel 3) (S / 64 / 64) = true := by
    refine bit_of_lowClear _ ?_
    have hzero : S / 64 / 64 / 64 = 0 := by omega
    rw [hzero, hroot]
  have hset : bit (m'.mapLevel 1) S = true := hsets S (hwords (S / 64) htop)
  rw [hsame, h.taken] at hset
  rcases hset with hheld | hbehind
  · exact hheld
  · exact absurd hS (Nat.not_lt.mpr hbehind)

/-- What a search may return. -/
def Answers (numBlocks : ℕ) (s : Usage) : Search → Prop
  | .found setID => setID ∉ s.held ∧ setID * 64 < numBlocks
  | .outOfSpace => ∀ setID, setID * 64 < numBlocks → setID ∈ s.held
  | .running => False

/-- In every run set bits at the levels 2 and 3 stand for full words, the bits of level 1 for
the sets that are held or behind the end, and `getBlockSet` returns a set that is not held as
long as there is one. -/
theorem run_getBlockSet {s : Usage} {ops : List Op} (hn : numBlocks ≤ 64 ^ 4)
    (hrun : blockSets.Run (start numBlocks) ops s) :
    (∀ level, 1 ≤ level → level < 3 → s.map.Full level) ∧
      (∀ n, Bitmap.bit (s.map.mapLevel 1) n = true ↔ n ∈ s.held ∨ numBlocks ≤ n * 64) ∧
      Answers numBlocks s s.map.getBlockSet.2 := by
  have h := run_inv hrun
  refine ⟨fun level hpos hlt => ?_, h.taken, ?_⟩
  · obtain rfl | rfl : level = 1 ∨ level = 2 := by omega
    · exact h.sets
    · exact h.words
  · have hends := getBlockSet_ends s.map
    rcases hget : s.map.getBlockSet with ⟨map, S | - | -⟩
    · exact h.found hget
    · exact fun S => h.outOfSpace hn hget
    · rw [hget] at hends
      exact absurd rfl hends

theorem run_getBlockSet_reused : ∃ s : Usage, blockSets.Run (start 100)
    [.getBlockSet, .getBlockSet, .putBlockSet 0 false] s ∧
    Answers 100 s s.map.getBlockSet.2 :=
  ⟨_, Machine.Admits.run (by decide +kernel),
    (run_getBlockSet (by decide) (Machine.Admits.run (by decide +kernel))).2.2⟩

/-- The bit of a set says that it is held; its word is not full. -/
theorem not_run_full : ¬ ∀ (numBlocks : ℕ) (ops : List Op) (s : Usage), numBlocks ≤ 64 ^ 4 →
    blockSets.Run (start numBlocks) ops s → ∀ level < 3, s.map.Full level := by
  intro h
  have hfull := h 100 [.getBlockSet] _ (by decide) (Machine.Admits.run (by decide +kernel)) 0
    (by decide) 0
  revert hfull
  decide +kernel

end BlockSet

end K42
