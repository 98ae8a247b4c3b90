import K42.Lib.Bitmap

/-!
# The hierarchical bitmap of a swap device

Level 0 has one bit for each block, 1 for used. A bit of a higher level stands for one
word of the level below; at level 1 it says that the set of 64 blocks has been given out.
The search goes down from the single word of level 3 and goes up again, after it has marked
the word as full, where it finds no clear bit.

All levels are `mapLevel`; the words of a level are a bitmap, in which bit `n` of level
`l + 1` is the bit of word `n` of level `l`.
-/

namespace K42

/-- The four levels of words. -/
structure BlockSet where
  mapLevel : ℕ → ℕ → BitVec 64

namespace BlockSet

/-- The words of one level, for the number of things below it that are free. -/
def initialWord (numBlocks i : ℕ) : BitVec 64 :=
  if 64 * i ≤ numBlocks then
    let numBits := numBlocks - 64 * i
    if 64 ≤ numBits then 0
    else ~~~(((1 : BitVec 64) <<< numBits) - 1)
  else BitVec.allOnes 64

/-- How many words of a level are not full. -/
def numAbove (numBlocks : ℕ) : ℕ :=
  (if numBlocks % 64 ≠ 0 then numBlocks + 64 else numBlocks) / 64

/-- The number of free things at a level. -/
def numAt (numBlocks : ℕ) : ℕ → ℕ
  | 0 => numBlocks
  | level + 1 => numAbove (numAt numBlocks level)

/-- The constructor. -/
def create (numBlocks : ℕ) : BlockSet where
  mapLevel := fun level i => initialWord (numAt numBlocks level) i

def setLevel (m : BlockSet) (level : ℕ) (words : ℕ → BitVec 64) : BlockSet where
  mapLevel := Function.update m.mapLevel level words

/-- How the search for a set ends; `running` if it has not come to an end. -/
inductive Search
  | found (setID : ℕ)
  | outOfSpace
  | running
deriving DecidableEq

/-- The loop of `getBlockSet`. Only at level 1 is the bit that is found set. -/
def getBlockSetLoop (m : BlockSet) : (fuel level setID : ℕ) → BlockSet × Search
  | 0, _, _ => (m, .running)
  | _ + 1, 0, setID => (m, .found setID)
  | fuel + 1, level + 1, setID =>
    let tmp := Bitmap.lowClear (m.mapLevel (level + 1) setID)
    if tmp = 64 then
      if level + 1 = 3 then (m, .outOfSpace)
      else
        (m.setLevel (level + 2) (Bitmap.setBit (m.mapLevel (level + 2)) setID)).getBlockSetLoop
          fuel (level + 2) (setID / 64)
    else
      let m :=
        if level + 1 = 1 then m.setLevel 1 (Bitmap.setBit (m.mapLevel 1) (setID * 64 + tmp))
        else m
      m.getBlockSetLoop fuel level (setID * 64 + tmp)

/-- Retrieve a set of 64 blocks. Each time the search goes up it sets one more bit of the
levels 2 and 3, which bounds the number of its rounds. -/
def getBlockSet (m : BlockSet) : BlockSet × Search :=
  m.getBlockSetLoop (2 * (64 + 64 * 64) + 4) 3 0

/-- The loop of `putBlockSet`, with `n` levels to go. -/
def putBlockSetLoop (m : BlockSet) : (n level curr : ℕ) → BlockSet
  | 0, _, _ => m
  | n + 1, level, curr =>
    let bitmapFull := Bitmap.lowClear (m.mapLevel (level + 1) (curr / 64)) = 64
    let m := m.setLevel (level + 1) (Bitmap.clearBit (m.mapLevel (level + 1)) curr)
    if bitmapFull then m.putBlockSetLoop n (level + 1) (curr / 64) else m

/-- Give back the set `orig`; its own word is cleared at the end. -/
def putBlockSet (m : BlockSet) (orig : ℕ) : BlockSet :=
  let m := m.putBlockSetLoop 3 0 orig
  m.setLevel 0 (Function.update (m.mapLevel 0) orig 0)

/-! ## The constructor -/

theorem bit_initialWord (numBlocks n : ℕ) :
    Bitmap.bit (initialWord numBlocks) n = decide (numBlocks ≤ n) := by
  have hmod := Nat.mod_lt n (by decide : 0 < 64)
  have hdm := Nat.div_add_mod n 64
  unfold Bitmap.bit initialWord
  split
  · simp only
    split
    · rw [BitVec.ofNat_eq_ofNat, BitVec.getLsbD_zero, eq_comm, decide_eq_false_iff_not]
      omega
    · rw [Bitmap.getLsbD_clearFirstBits (by omega) hmod]
      refine decide_eq_decide.2 ?_
      omega
  · rw [BitVec.getLsbD_allOnes, decide_eq_true hmod, eq_comm, decide_eq_true_eq]
    omega

theorem lt_numAbove {numBlocks s : ℕ} : s < numAbove numBlocks ↔ s * 64 < numBlocks := by
  unfold numAbove
  split <;> omega

/-! ## The search -/

variable {m m' : BlockSet} {fuel level setID S : ℕ}

theorem setLevel_self (words : ℕ → BitVec 64) : (m.setLevel level words).mapLevel level = words :=
  Function.update_self ..

theorem setLevel_of_ne {l : ℕ} (h : l ≠ level) (words : ℕ → BitVec 64) :
    (m.setLevel level words).mapLevel l = m.mapLevel l :=
  Function.update_of_ne h ..

theorem bit_lowClear (words : ℕ → BitVec 64) (j : ℕ) (h : Bitmap.lowClear (words j) ≠ 64) :
    Bitmap.lowClear (words j) < 64 ∧
      Bitmap.bit words (j * 64 + Bitmap.lowClear (words j)) = false := by
  obtain ⟨hlt, hclear⟩ := Bitmap.getLsbD_lowClear h
  exact ⟨hlt, (Bitmap.bit_mul_add (by decide) words j hlt).trans hclear⟩

/-- What the search changes at the levels 0 and 1: it takes one set that was not given
out. -/
structure Takes (m m' : BlockSet) (S : ℕ) : Prop where
  lt : S < 64 ^ 3
  clear : Bitmap.bit (m.mapLevel 1) S = false
  level0 : m'.mapLevel 0 = m.mapLevel 0
  level1 : m'.mapLevel 1 = Bitmap.setBit (m.mapLevel 1) S

theorem getBlockSetLoop_found (hlevel : level < 3) (hid : setID < 64 ^ (2 - level))
    (h : m.getBlockSetLoop fuel (level + 1) setID = (m', .found S)) : Takes m m' S := by
  induction fuel generalizing m level setID with
  | zero => cases h
  | succ fuel ih =>
    rw [getBlockSetLoop] at h
    simp only at h
    split at h
    · -- the word is full, and the search goes up
      split at h
      · cases h
      · have hup : setID / 64 < 64 ^ (2 - (level + 1)) := by
          have hpow : 2 - level = 2 - (level + 1) + 1 := by omega
          rw [hpow, pow_succ] at hid
          omega
        have htakes := ih (by omega) hup h
        exact {
          lt := htakes.lt
          clear := by
            have := htakes.clear
            rwa [setLevel_of_ne (by omega)] at this
          level0 := by rw [htakes.level0, setLevel_of_ne (by omega)]
          level1 := by rw [htakes.level1, setLevel_of_ne (by omega)] }
    · rename_i hne
      obtain ⟨hlt, hclear⟩ := bit_lowClear _ _ hne
      cases level with
      | zero =>
        rw [if_pos rfl] at h
        cases fuel with
        | zero => cases h
        | succ fuel =>
          cases h
          exact {
            lt := by omega
            clear := hclear
            level0 := setLevel_of_ne (by decide) _
            level1 := setLevel_self _ }
      | succ level =>
        rw [if_neg (by omega)] at h
        refine ih (by omega) ?_ h
        have hpow : 2 - level = 2 - (level + 1) + 1 := by omega
        rw [hpow, pow_succ]
        omega

theorem getBlockSet_found (h : m.getBlockSet = (m', .found S)) : Takes m m' S :=
  getBlockSetLoop_found (by decide) (by decide) h

/-- The bits of the higher levels on the way to a word are clear; at most two levels lie
above the word. -/
def ClearAbove (m : BlockSet) (level setID : ℕ) : Prop :=
  setID < 64 ^ (3 - level) ∧
    (level ≤ 2 → 1 ≤ level → Bitmap.bit (m.mapLevel (level + 1)) setID = false) ∧
    (level = 1 → Bitmap.bit (m.mapLevel 3) (setID / 64) = false)

/-- The bits that the search may still set as it goes up. -/
def clearBits (m : BlockSet) : ℕ :=
  Bitmap.clearCount (m.mapLevel 3) 64 + Bitmap.clearCount (m.mapLevel 2) (64 * 64)

theorem clearBits_setLevel_three (hid : setID < 64) (hclear : Bitmap.bit (m.mapLevel 3) setID = false) :
    (m.setLevel 3 (Bitmap.setBit (m.mapLevel 3) setID)).clearBits + 1 = m.clearBits := by
  have hcount := Bitmap.clearCount_setBit (by decide) hid hclear
  unfold clearBits
  rw [setLevel_self, setLevel_of_ne (by decide)]
  omega

theorem clearBits_setLevel_two (hid : setID < 64 * 64)
    (hclear : Bitmap.bit (m.mapLevel 2) setID = false) :
    (m.setLevel 2 (Bitmap.setBit (m.mapLevel 2) setID)).clearBits + 1 = m.clearBits := by
  have hcount := Bitmap.clearCount_setBit (by decide) hid hclear
  unfold clearBits
  rw [setLevel_self, setLevel_of_ne (by decide)]
  omega

theorem getBlockSetLoop_ends (hlevel : level ≤ 3) (habove : m.ClearAbove level setID)
    (hfuel : 2 * m.clearBits + level < fuel) :
    (m.getBlockSetLoop fuel level setID).2 ≠ .running := by
  induction fuel generalizing m level setID with
  | zero => omega
  | succ fuel ih =>
    obtain ⟨hid, hparent, hgrand⟩ := habove
    rcases level with _ | _ | _ | _ | level
    · rw [getBlockSetLoop]
      simp
    · -- the sets of blocks
      have hparent := hparent (by decide) (by decide)
      have hgrand := hgrand rfl
      rw [getBlockSetLoop]
      simp only
      split
      · rw [if_neg (by decide)]
        refine ih (by decide) ⟨?_, fun _ _ => ?_, by omega⟩ ?_
        · simp only [Nat.reduceAdd, Nat.reduceSub, Nat.reducePow] at hid ⊢
          omega
        · rwa [setLevel_of_ne (by decide)]
        · have hclear := clearBits_setLevel_two (by simpa using hid) hparent
          simp only [Nat.zero_add] at hclear ⊢
          omega
      · rename_i hne
        obtain ⟨hlt, -⟩ := bit_lowClear _ _ hne
        rw [if_pos trivial]
        refine ih (by decide) ⟨?_, by omega, by omega⟩ ?_
        · simp only [Nat.zero_add, Nat.reduceSub, Nat.reducePow] at hid hlt ⊢
          omega
        · have hsame : (m.setLevel 1 (Bitmap.setBit (m.mapLevel 1)
              (setID * 64 + Bitmap.lowClear (m.mapLevel (0 + 1) setID)))).clearBits =
              m.clearBits := by
            unfold clearBits
            rw [setLevel_of_ne (by decide), setLevel_of_ne (by decide)]
          rw [hsame]
          omega
    · have hparent := hparent (by decide) (by decide)
      rw [getBlockSetLoop]
      simp only
      split
      · rw [if_neg (by decide)]
        refine ih (by decide) ⟨?_, by omega, by omega⟩ ?_
        · simp only [Nat.reduceAdd, Nat.reduceSub, Nat.reducePow] at hid ⊢
          omega
        · have hclear := clearBits_setLevel_three (by simpa using hid) hparent
          simp only [Nat.reduceAdd] at hclear ⊢
          omega
      · rename_i hne
        obtain ⟨hlt, hclear⟩ := bit_lowClear _ _ hne
        rw [if_neg (by decide)]
        refine ih (by decide) ⟨?_, fun _ _ => hclear, fun _ => ?_⟩ (by omega)
        · simp only [Nat.reduceAdd, Nat.reduceSub, Nat.reducePow] at hid hlt ⊢
          omega
        · have hdiv : (setID * 64 + Bitmap.lowClear (m.mapLevel (1 + 1) setID)) / 64 = setID := by
            omega
          rw [hdiv]
          exact hparent
    · rw [getBlockSetLoop]
      simp only
      split
      · simp
      · rename_i hne
        obtain ⟨hlt, hclear⟩ := bit_lowClear _ _ hne
        rw [if_neg (by decide)]
        refine ih (by decide) ⟨?_, fun _ _ => hclear, by omega⟩ (by omega)
        simp only [Nat.reduceAdd, Nat.reduceSub, Nat.reducePow] at hid hlt ⊢
        omega
    · omega

theorem getBlockSet_ends (m : BlockSet) : m.getBlockSet.2 ≠ .running := by
  refine getBlockSetLoop_ends (le_refl 3) ⟨by decide, by omega, by omega⟩ ?_
  have h₃ := Bitmap.clearCount_le (m.mapLevel 3) 64
  have h₂ := Bitmap.clearCount_le (m.mapLevel 2) (64 * 64)
  unfold clearBits
  omega

/-! ## Giving a set back -/

theorem putBlockSetLoop_below (n : ℕ) {level curr l : ℕ} (hl : l ≤ level) :
    (m.putBlockSetLoop n level curr).mapLevel l = m.mapLevel l := by
  induction n generalizing m level curr with
  | zero => rfl
  | succ n ih =>
    rw [putBlockSetLoop]
    split
    · rw [ih (by omega), setLevel_of_ne (by omega)]
    · rw [setLevel_of_ne (by omega)]

theorem putBlockSet_level0 (m : BlockSet) (orig : ℕ) :
    (m.putBlockSet orig).mapLevel 0 = Function.update (m.mapLevel 0) orig 0 := by
  rw [putBlockSet, setLevel_self, putBlockSetLoop_below 3 (le_refl 0)]

theorem putBlockSet_level1 (m : BlockSet) (orig : ℕ) :
    (m.putBlockSet orig).mapLevel 1 = Bitmap.clearBit (m.mapLevel 1) orig := by
  rw [putBlockSet, setLevel_of_ne (by decide), putBlockSetLoop]
  split
  · rw [putBlockSetLoop_below 2 (by decide), setLevel_self]
  · rw [setLevel_self]

end BlockSet

end K42
