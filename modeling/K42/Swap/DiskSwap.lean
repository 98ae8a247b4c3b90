import K42.Lib.Run
import K42.Swap.BlockSet

/-!
# Swap blocks

A block is handed out from the set of 64 blocks that the caller's pager context names,
and, when that set is full, from a set that a device gives out next. A set whose last
block is freed goes back to the bitmap of its device.

A context is the id of the block that was last allocated with it: it names the set the
block is in. The calls hold the lock of the list of devices from their first access to
their last.
-/

open Function (update update_of_ne update_self)

namespace K42

/-- A device: its size in blocks, and its bitmap. -/
structure DeviceDesc where
  numBlocks : ℕ
  usage : BlockSet

/-- The devices by id, newest first in `devList`, and the pager contexts `γ` of the
callers. `allocated` are the blocks that have been returned and not been freed since. -/
structure DiskSwap (γ : Type) where
  devList : List ℕ
  desc : ℕ → DeviceDesc
  nextDevID : ℕ
  numPagesAvail : ℕ
  currentDev : Option ℕ
  contexts : γ → ℕ
  allocated : Finset ℕ

namespace DiskSwap

open Finset (card card_range mem_biUnion mem_coe mem_image mem_insert mem_range mem_sdiff range)
open Bitmap (bit bit_clearBit bit_setBit setBit)

def INIT_PAGER_CONTEXT : ℕ := 2 ^ 64 - 1

def getSwapDevID (blockID : ℕ) : ℕ := blockID / 2 ^ 52

def getSwapBlocknum (blockID : ℕ) : ℕ := blockID % 2 ^ 52

/-- The 64 bits of a block id: 12 are for the device. -/
def blockID (devID block : ℕ) : ℕ := devID % 2 ^ 12 * 2 ^ 52 + block % 2 ^ 52

variable {γ : Type} [DecidableEq γ]

def init : DiskSwap γ where
  devList := []
  desc := fun _ => ⟨0, .create 0⟩
  nextDevID := 0
  numPagesAvail := 0
  currentDev := none
  contexts := fun _ => INIT_PAGER_CONTEXT
  allocated := ∅

def setUsage (s : DiskSwap γ) (devID : ℕ) (usage : BlockSet) : DiskSwap γ :=
  { s with desc := update s.desc devID { s.desc devID with usage := usage } }

def attachDevice (s : DiskSwap γ) (bytes : ℕ) : DiskSwap γ :=
  { s with
    devList := s.nextDevID :: s.devList
    desc := update s.desc s.nextDevID ⟨bytes / 4096, .create (bytes / 4096)⟩
    nextDevID := s.nextDevID + 1
    numPagesAvail := (s.numPagesAvail + bytes / 4096) % 2 ^ 64 }

/-- `devList.next`. -/
def next (devList : List ℕ) : Option ℕ → Option ℕ
  | none => devList.head?
  | some curr => (devList.dropWhile (· ≠ curr)).tail.head?

/-- The loop that moves `currentDev` on; at the end of the list it starts again. -/
def nextDev (s : DiskSwap γ) : Option ℕ := (next s.devList s.currentDev).or s.devList.head?

/-- The block is handed out; `avail` pages are left. -/
def hand (s : DiskSwap γ) (c : γ) (bid avail : ℕ) : DiskSwap γ :=
  { s with
    contexts := update s.contexts c bid
    numPagesAvail := avail
    allocated := insert bid s.allocated }

/-- The end of `allocBlock`. -/
def finish (s : DiskSwap γ) (c : γ) (devID block : ℕ) : DiskSwap γ × Option ℕ :=
  let bid := blockID devID block
  (s.hand c bid ((s.numPagesAvail + (2 ^ 64 - 1)) % 2 ^ 64), some bid)

/-- `setFindFirstUnSet` on the word of a set. -/
def setFirst (usage : BlockSet) (setID block : ℕ) : BlockSet :=
  if block = 64 then usage
  else usage.setLevel 0 (Bitmap.setBit (usage.mapLevel 0) (setID * 64 + block))

/-- A block of a new set. That the set has a free block is only asserted. Without a device
the loop does not end, and a device without a set panics: nothing is returned. -/
def allocNew (s : DiskSwap γ) (c : γ) : DiskSwap γ × Option ℕ :=
  match s.nextDev with
  | none => (s, none)
  | some devID =>
    match (s.desc devID).usage.getBlockSet with
    | (usage, .found newBlockSet) =>
      let block := Bitmap.lowClear (usage.mapLevel 0 newBlockSet)
      let s := { s with currentDev := some devID }
      (s.setUsage devID (setFirst usage newBlockSet block)).finish c devID
        (block + newBlockSet * 64)
    | (_, _) => (s, none)

def allocBlock (s : DiskSwap γ) (c : γ) : DiskSwap γ × Option ℕ :=
  let context := s.contexts c
  let devID := getSwapDevID context
  if context ≠ INIT_PAGER_CONTEXT ∧ devID ∈ s.devList then
    let setID := getSwapBlocknum context / 64
    let usage := (s.desc devID).usage
    let block := Bitmap.lowClear (usage.mapLevel 0 setID)
    if block ≠ 64 then
      (s.setUsage devID (setFirst usage setID block)).finish c devID
        (block + (context - context % 64))
    else s.allocNew c
  else s.allocNew c

/-- The context is erased if it names the set, but it names the device too. -/
def eraseContext (s : DiskSwap γ) (context : Option γ) (block : ℕ) : γ → ℕ :=
  match context with
  | none => s.contexts
  | some c =>
    if block / 64 = s.contexts c / 64 then update s.contexts c INIT_PAGER_CONTEXT
    else s.contexts

/-- The words of a device with the bit of a block cleared. -/
def clearedWords (s : DiskSwap γ) (bid : ℕ) : ℕ → BitVec 64 :=
  Bitmap.clearBit ((s.desc (getSwapDevID bid)).usage.mapLevel 0) (getSwapBlocknum bid)

/-- The block is free again; `avail` pages are left. -/
def takeBack (s : DiskSwap γ) (bid avail : ℕ) : DiskSwap γ :=
  { s with numPagesAvail := avail, allocated := s.allocated.erase bid }

/-- `freePage`; a throw-away context is `none`. -/
def freePage (s : DiskSwap γ) (bid : ℕ) (context : Option γ) : DiskSwap γ :=
  let devID := getSwapDevID bid
  let block := getSwapBlocknum bid
  if devID ∈ s.devList then
    let words := s.clearedWords bid
    let usage := (s.desc devID).usage
    let s := s.takeBack bid ((s.numPagesAvail + 1) % 2 ^ 64)
    if words (block / 64) = 0 then
      let usage :=
        usage.setLevel 0 (update words (block / 64) (BitVec.allOnes 64))
      { s.setUsage devID (usage.putBlockSet (block / 64)) with
        contexts := s.eraseContext context block }
    else s.setUsage devID (usage.setLevel 0 words)
  else s

inductive Op (γ : Type)
  | attachDevice (bytes : ℕ)
  | allocBlock (c : γ)
  | freePage (bid : ℕ) (context : Option γ)
deriving DecidableEq

def step (s : DiskSwap γ) : Op γ → DiskSwap γ
  | .attachDevice bytes => s.attachDevice bytes
  | .allocBlock c => (s.allocBlock c).1
  | .freePage bid context => s.freePage bid context

/-- Sizes are 64-bit. -/
def adm (_ : DiskSwap γ) : Op γ → Prop
  | .attachDevice bytes => bytes < 2 ^ 64
  | _ => True

def calls : Machine (DiskSwap γ) (Op γ) := ⟨step, adm⟩

/-! ## What is to hold -/

/-- Every block of every device. -/
def blocks (s : DiskSwap γ) : Finset ℕ :=
  s.devList.toFinset.biUnion fun d => (Finset.range (s.desc d).numBlocks).image (blockID d)

def unallocated (s : DiskSwap γ) : Finset ℕ := s.blocks \ s.allocated

/-- No block is handed out twice or beyond the end of its device, and `numPagesAvail` is
the number of unallocated blocks. -/
structure Sound (s : DiskSwap γ) : Prop where
  fresh : ∀ c bid, (s.allocBlock c).2 = some bid → bid ∉ s.allocated
  inRange : ∀ c bid, (s.allocBlock c).2 = some bid → getSwapDevID bid ∈ s.devList ∧
    getSwapBlocknum bid < (s.desc (getSwapDevID bid)).numBlocks
  avail : s.numPagesAvail = s.unallocated.card

/-- A context that names a set of a device. -/
def Names (s : DiskSwap γ) (c : γ) (devID setID : ℕ) : Prop :=
  s.contexts c ≠ INIT_PAGER_CONTEXT ∧ getSwapDevID (s.contexts c) = devID ∧
    getSwapBlocknum (s.contexts c) / 64 = setID

/-- What the calls rely on. There are no more devices than there are device ids; what is
freed is a block that was handed out; and when the last block of a set is freed, a context
that still names the set is the one that `freePage` erases. -/
def givesBack (s : DiskSwap γ) : Op γ → Prop
  | .attachDevice _ => s.nextDevID < 2 ^ 12
  | .allocBlock _ => True
  | .freePage bid context => bid ∈ s.allocated ∧
      (s.clearedWords bid (getSwapBlocknum bid / 64) = 0 → ∀ c,
        s.Names c (getSwapDevID bid) (getSwapBlocknum bid / 64) →
          context = some c ∧ getSwapBlocknum bid / 64 = s.contexts c / 64)

def erasingCalls : Machine (DiskSwap γ) (Op γ) := ⟨step, fun s op => adm s op ∧ givesBack s op⟩

/-! ## Block ids -/

variable {d k bid : ℕ} {usage : BlockSet}

theorem getSwapDevID_blockID (hd : d < 2 ^ 12) : getSwapDevID (blockID d k) = d := by
  unfold getSwapDevID blockID
  omega

theorem getSwapBlocknum_blockID (hk : k < 2 ^ 52) : getSwapBlocknum (blockID d k) = k := by
  unfold getSwapBlocknum blockID
  omega

theorem blockID_inj {d' k' : ℕ} (hd : d < 2 ^ 12) (hd' : d' < 2 ^ 12) (hk : k < 2 ^ 52)
    (hk' : k' < 2 ^ 52) (h : blockID d k = blockID d' k') : d = d' ∧ k = k' := by
  constructor
  · rw [← getSwapDevID_blockID hd, h, getSwapDevID_blockID hd']
  · rw [← getSwapBlocknum_blockID (d := d) hk, h, getSwapBlocknum_blockID hk']

/-- The blocks of a device number at most `2 ^ 52 - 1`, so no block has the id that
stands for no block. -/
theorem blockID_lt (hk : k + 1 < 2 ^ 52) : blockID d k < 2 ^ 64 - 1 := by
  unfold blockID
  omega

/-! ## The invariant -/

/-- How the bitmaps, the contexts and the allocated blocks go together. -/
structure Inv (s : DiskSwap γ) : Prop where
  few : s.nextDevID ≤ 2 ^ 12
  ids : ∀ d ∈ s.devList, d < s.nextDevID
  size : ∀ d ∈ s.devList, (s.desc d).numBlocks < 2 ^ 52
  used : ∀ d ∈ s.devList, ∀ k < 2 ^ 24, Bitmap.bit ((s.desc d).usage.mapLevel 0) k = true ↔
    blockID d k ∈ s.allocated ∨ (s.desc d).numBlocks ≤ k
  /-- A set that can be given out has a block, and no block of it is allocated. -/
  empty : ∀ d ∈ s.devList, ∀ setID < 2 ^ 18,
    Bitmap.bit ((s.desc d).usage.mapLevel 1) setID = false →
      setID * 64 < (s.desc d).numBlocks ∧ ∀ k, k / 64 = setID → blockID d k ∉ s.allocated
  /-- Nor does a context name it. -/
  unnamed : ∀ d ∈ s.devList, ∀ setID < 2 ^ 18,
    Bitmap.bit ((s.desc d).usage.mapLevel 1) setID = false → ∀ c, ¬ s.Names c d setID
  valid : ∀ bid ∈ s.allocated, ∃ d ∈ s.devList, ∃ k < 2 ^ 24,
    k < (s.desc d).numBlocks ∧ bid = blockID d k
  context : ∀ c, s.contexts c ≠ INIT_PAGER_CONTEXT → ∃ d ∈ s.devList, ∃ k < 2 ^ 24,
    s.contexts c = blockID d k
  avail : s.numPagesAvail = s.unallocated.card

variable {s : DiskSwap γ}

namespace Inv

variable {d k : ℕ}

section

omit [DecidableEq γ]

theorem devID_lt (hs : s.Inv) (hd : d ∈ s.devList) : d < 2 ^ 12 :=
  Nat.lt_of_lt_of_le (hs.ids d hd) hs.few

theorem mem_blocks (hd : d ∈ s.devList) (hk : k < (s.desc d).numBlocks) :
    blockID d k ∈ s.blocks := by
  refine mem_biUnion.2 ⟨d, List.mem_toFinset.2 hd, ?_⟩
  exact mem_image.2 ⟨k, mem_range.2 hk, rfl⟩

theorem card_unallocated_lt (hs : ∀ d ∈ s.devList, (s.desc d).numBlocks < 2 ^ 52) :
    s.unallocated.card < 2 ^ 64 := by
  have hsub : s.unallocated ⊆ range (2 ^ 64 - 1) := by
    intro bid hbid
    obtain ⟨d, hd, hmem⟩ := mem_biUnion.1 (mem_sdiff.1 hbid).1
    obtain ⟨k, hk, rfl⟩ := mem_image.1 hmem
    have hsize := hs d (List.mem_toFinset.1 hd)
    have hk := mem_range.1 hk
    exact mem_range.2 (blockID_lt (by omega))
  have hcard := Finset.card_le_card hsub
  rw [card_range] at hcard
  omega

theorem init : (DiskSwap.init : DiskSwap γ).Inv where
  few := Nat.zero_le _
  ids := by simp [DiskSwap.init]
  size := by simp [DiskSwap.init]
  used := by simp [DiskSwap.init]
  empty := by simp [DiskSwap.init]
  unnamed := by simp [DiskSwap.init]
  valid := by simp [DiskSwap.init]
  context := by simp [DiskSwap.init]
  avail := by simp [DiskSwap.init, unallocated, blocks]

theorem nextDevID_notMem (hs : s.Inv) : s.nextDevID ∉ s.devList :=
  fun h => Nat.lt_irrefl _ (hs.ids _ h)

theorem blockID_notMem (hs : s.Inv) (hlt : d < 2 ^ 12) (hk : k < 2 ^ 52)
    (hd : d ∉ s.devList) : blockID d k ∉ s.allocated := by
  intro hmem
  obtain ⟨d', hd', k', hk', -, heq⟩ := hs.valid _ hmem
  have := (blockID_inj hlt (hs.devID_lt hd') hk (by omega) heq).1
  exact hd (this ▸ hd')

theorem not_names (hs : s.Inv) (hd : d ∉ s.devList) (c : γ) (setID : ℕ) :
    ¬ s.Names c d setID := by
  rintro ⟨hne, hdev, -⟩
  obtain ⟨d', hd', k, -, heq⟩ := hs.context c hne
  rw [heq, getSwapDevID_blockID (hs.devID_lt hd')] at hdev
  exact hd (hdev ▸ hd')

theorem desc_attachDevice_of_mem (hs : s.Inv) (bytes : ℕ) (hd : d ∈ s.devList) :
    (s.attachDevice bytes).desc d = s.desc d := by
  have hne : d ≠ s.nextDevID := fun h => hs.nextDevID_notMem (h ▸ hd)
  exact update_of_ne hne ..

theorem desc_attachDevice_self (bytes : ℕ) :
    (s.attachDevice bytes).desc s.nextDevID = ⟨bytes / 4096, .create (bytes / 4096)⟩ :=
  update_self ..

theorem unallocated_attachDevice (hs : s.Inv) {bytes : ℕ} (hbytes : bytes < 2 ^ 64)
    (hnext : s.nextDevID < 2 ^ 12) :
    (s.attachDevice bytes).unallocated.card = bytes / 4096 + s.unallocated.card := by
  have hsize : bytes / 4096 < 2 ^ 52 := by omega
  have hblocks : (s.attachDevice bytes).blocks =
      (range (bytes / 4096)).image (blockID s.nextDevID) ∪ s.blocks := by
    unfold blocks
    have hlist : (s.attachDevice bytes).devList.toFinset = insert s.nextDevID s.devList.toFinset :=
      List.toFinset_cons
    rw [hlist, Finset.biUnion_insert, desc_attachDevice_self]
    congr 1
    refine Finset.biUnion_congr rfl ?_
    intro d hd
    rw [hs.desc_attachDevice_of_mem bytes (List.mem_toFinset.1 hd)]
  have hfree : (range (bytes / 4096)).image (blockID s.nextDevID) \ s.allocated =
      (range (bytes / 4096)).image (blockID s.nextDevID) := by
    refine Finset.sdiff_eq_self_of_disjoint ?_
    rw [Finset.disjoint_left]
    intro bid hbid
    obtain ⟨k, hk, rfl⟩ := mem_image.1 hbid
    have hk := mem_range.1 hk
    exact hs.blockID_notMem hnext (by omega) hs.nextDevID_notMem
  have hdisj : Disjoint ((range (bytes / 4096)).image (blockID s.nextDevID))
      s.unallocated := by
    rw [Finset.disjoint_left]
    intro bid hbid hmem
    obtain ⟨k, hk, rfl⟩ := mem_image.1 hbid
    obtain ⟨d, hd, hmem⟩ := mem_biUnion.1 (mem_sdiff.1 hmem).1
    obtain ⟨k', hk', heq⟩ := mem_image.1 hmem
    have hd := List.mem_toFinset.1 hd
    have hk := mem_range.1 hk
    have hk' := mem_range.1 hk'
    have hsize' := hs.size d hd
    have := (blockID_inj (hs.devID_lt hd) hnext (by omega) (by omega) heq).1
    exact hs.nextDevID_notMem (this ▸ hd)
  have hcard : ((range (bytes / 4096)).image (blockID s.nextDevID)).card = bytes / 4096 := by
    rw [Finset.card_image_of_injOn, card_range]
    intro k hk k' hk' heq
    have hk := mem_range.1 (mem_coe.1 hk)
    have hk' := mem_range.1 (mem_coe.1 hk')
    exact (blockID_inj hnext hnext (by omega) (by omega) heq).2
  calc (s.attachDevice bytes).unallocated.card
      = ((range (bytes / 4096)).image (blockID s.nextDevID) ∪ s.unallocated).card := by
        unfold unallocated
        rw [hblocks, Finset.union_sdiff_distrib]
        exact congrArg card (congrArg (· ∪ _) hfree)
    _ = bytes / 4096 + s.unallocated.card := by
        rw [Finset.card_union_of_disjoint hdisj, hcard]

theorem attachDevice (hs : s.Inv) {bytes : ℕ} (hbytes : bytes < 2 ^ 64)
    (hnext : s.nextDevID < 2 ^ 12) : (s.attachDevice bytes).Inv := by
  have hsize : bytes / 4096 < 2 ^ 52 := by omega
  have hself := desc_attachDevice_self (s := s) bytes
  have hother := fun {d} (hd : d ∈ s.devList) => hs.desc_attachDevice_of_mem bytes hd
  have hmem : ∀ d ∈ (s.attachDevice bytes).devList, d = s.nextDevID ∨ d ∈ s.devList :=
    fun d hd => List.mem_cons.1 hd
  have hsizes : ∀ d ∈ (s.attachDevice bytes).devList,
      ((s.attachDevice bytes).desc d).numBlocks < 2 ^ 52 := by
    intro d hd
    rcases hmem d hd with rfl | hd
    · rw [hself]
      exact hsize
    · rw [hother hd]
      exact hs.size d hd
  exact {
    few := hnext
    ids := by
      intro d hd
      rcases hmem d hd with rfl | hd
      · exact Nat.lt_succ_self _
      · exact Nat.lt_succ_of_lt (hs.ids d hd)
    size := hsizes
    used := by
      intro d hd k hk
      rcases hmem d hd with rfl | hd
      · have hnot := hs.blockID_notMem (k := k) hnext (by omega) hs.nextDevID_notMem
        rw [hself]
        simp only [BlockSet.create, BlockSet.numAt]
        rw [BlockSet.bit_initialWord, decide_eq_true_eq]
        exact ⟨.inr, fun h => h.resolve_left hnot⟩
      · rw [hother hd]
        exact hs.used d hd k hk
    empty := by
      intro d hd setID hset hbit
      rcases hmem d hd with rfl | hd
      · rw [hself] at hbit ⊢
        simp only [BlockSet.create, BlockSet.numAt] at hbit ⊢
        rw [BlockSet.bit_initialWord, decide_eq_false_iff_not, not_le, BlockSet.lt_numAbove] at hbit
        refine ⟨hbit, fun k hk => hs.blockID_notMem hnext ?_ hs.nextDevID_notMem⟩
        omega
      · rw [hother hd] at hbit ⊢
        exact hs.empty d hd setID hset hbit
    unnamed := by
      intro d hd setID hset hbit c
      rcases hmem d hd with rfl | hd
      · exact hs.not_names hs.nextDevID_notMem c setID
      · rw [hother hd] at hbit
        exact hs.unnamed d hd setID hset hbit c
    valid := by
      intro bid hbid
      obtain ⟨d, hd, k, hk, hlt, heq⟩ := hs.valid bid hbid
      exact ⟨d, List.mem_cons_of_mem _ hd, k, hk, by rwa [hother hd], heq⟩
    context := by
      intro c hc
      obtain ⟨d, hd, k, hk, heq⟩ := hs.context c hc
      exact ⟨d, List.mem_cons_of_mem _ hd, k, hk, heq⟩
    avail := by
      have hlt := card_unallocated_lt hsizes
      rw [hs.unallocated_attachDevice hbytes hnext] at hlt ⊢
      have hmod : (s.attachDevice bytes).numPagesAvail =
        (s.numPagesAvail + bytes / 4096) % 2 ^ 64 := rfl
      rw [hmod, hs.avail, Nat.mod_eq_of_lt (by omega)]
      omega }

end

/-! ## Handing out -/

section

omit [DecidableEq γ]

theorem desc_setUsage_self (d : ℕ) (usage : BlockSet) :
    (s.setUsage d usage).desc d = { s.desc d with usage := usage } :=
  update_self ..

theorem desc_setUsage_of_ne {d' : ℕ} (h : d' ≠ d) (usage : BlockSet) :
    (s.setUsage d usage).desc d' = s.desc d' :=
  update_of_ne h ..

theorem numBlocks_setUsage (d d' : ℕ) (usage : BlockSet) :
    ((s.setUsage d usage).desc d').numBlocks = (s.desc d').numBlocks := by
  by_cases h : d' = d
  · rw [h, desc_setUsage_self]
  · rw [desc_setUsage_of_ne h]

theorem blocks_setUsage (d : ℕ) (usage : BlockSet) : (s.setUsage d usage).blocks = s.blocks := by
  unfold blocks
  refine Finset.biUnion_congr rfl ?_
  intro d' _
  rw [numBlocks_setUsage]

theorem setCurrentDev (hs : s.Inv) (curr : Option ℕ) : { s with currentDev := curr }.Inv :=
  ⟨hs.few, hs.ids, hs.size, hs.used, hs.empty, hs.unnamed, hs.valid, hs.context, hs.avail⟩

end

theorem unallocated_hand (c : γ) (bid avail : ℕ) :
    (s.hand c bid avail).unallocated = s.unallocated.erase bid :=
  Finset.sdiff_insert ..

theorem hand (hs : s.Inv) (c : γ) {avail : ℕ} {usage : BlockSet} (hd : d ∈ s.devList)
    (hk : k < 2 ^ 24) (hlt : k < (s.desc d).numBlocks) (hfree : blockID d k ∉ s.allocated)
    (h₀ : usage.mapLevel 0 = setBit ((s.desc d).usage.mapLevel 0) k)
    (h₁ : ∀ setID, bit (usage.mapLevel 1) setID = false →
      bit ((s.desc d).usage.mapLevel 1) setID = false ∧ setID ≠ k / 64)
    (havail : avail + 1 = s.numPagesAvail) :
    ((s.setUsage d usage).hand c (blockID d k) avail).Inv := by
  have hd12 := hs.devID_lt hd
  have hinj : ∀ {d' k'}, d' ∈ s.devList → k' < 2 ^ 24 → blockID d' k' = blockID d k →
      d' = d ∧ k' = k :=
    fun hd' hk' h => blockID_inj (hs.devID_lt hd') hd12 (by omega) (by omega) h
  -- what was clear at level 1 and still is
  have hclear : ∀ d' setID,
      bit (((s.setUsage d usage).desc d').usage.mapLevel 1) setID = false →
        bit ((s.desc d').usage.mapLevel 1) setID = false ∧ (d' = d → setID ≠ k / 64) := by
    intro d' setID h
    by_cases hdd : d' = d
    · subst d'
      rw [desc_setUsage_self] at h
      exact ⟨(h₁ setID h).1, fun _ => (h₁ setID h).2⟩
    · rw [desc_setUsage_of_ne hdd] at h
      exact ⟨h, fun h => absurd h hdd⟩
  exact {
    few := hs.few
    ids := hs.ids
    size := by
      intro d' hd'
      exact (numBlocks_setUsage d d' usage).trans_lt (hs.size d' hd')
    used := by
      intro d' hd' k' hk'
      have hmem : blockID d' k' ∈ ((s.setUsage d usage).hand c (blockID d k) avail).allocated ↔
          blockID d' k' = blockID d k ∨ blockID d' k' ∈ s.allocated := mem_insert
      have hnum := numBlocks_setUsage (s := s) d d' usage
      have hused := hs.used d' hd' k' hk'
      rw [hmem]
      change bit (((s.setUsage d usage).desc d').usage.mapLevel 0) k' = true ↔
        _ ∨ ((s.setUsage d usage).desc d').numBlocks ≤ k'
      rw [hnum]
      by_cases hdd : d' = d
      · subst d'
        rw [desc_setUsage_self]
        simp only
        rw [h₀, bit_setBit (by decide), Bool.or_eq_true, decide_eq_true_eq, hused]
        constructor
        · rintro ((h | h) | rfl)
          · exact .inl (.inr h)
          · exact .inr h
          · exact .inl (.inl rfl)
        · rintro ((h | h) | h)
          · exact .inr (hinj hd' hk' h).2
          · exact .inl (.inl h)
          · exact .inl (.inr h)
      · rw [desc_setUsage_of_ne hdd, hused]
        have hne : blockID d' k' ≠ blockID d k := fun h => hdd (hinj hd' hk' h).1
        simp [hne]
    empty := by
      intro d' hd' setID hset hbit
      obtain ⟨hold, hne⟩ := hclear d' setID hbit
      obtain ⟨hpos, hnot⟩ := hs.empty d' hd' setID hset hold
      refine ⟨hpos.trans_eq (numBlocks_setUsage d d' usage).symm, fun k' hk' hmem => ?_⟩
      rcases mem_insert.1 hmem with h | h
      · obtain ⟨hdd, hkk⟩ := hinj hd' (by omega) h
        exact hne hdd (hkk ▸ hk'.symm)
      · exact hnot k' hk' h
    unnamed := by
      intro d' hd' setID hset hbit c' hnames
      obtain ⟨hold, hne⟩ := hclear d' setID hbit
      by_cases hc : c' = c
      · subst c'
        have hcontext : ((s.setUsage d usage).hand c (blockID d k) avail).contexts c = blockID d k :=
          update_self ..
        obtain ⟨-, hdev, hnum⟩ := hnames
        rw [hcontext, getSwapDevID_blockID hd12] at hdev
        rw [hcontext, getSwapBlocknum_blockID (by omega)] at hnum
        exact hne hdev.symm hnum.symm
      · have hcontext : ((s.setUsage d usage).hand c (blockID d k) avail).contexts c' = s.contexts c' :=
          update_of_ne hc ..
        unfold Names at hnames
        rw [hcontext] at hnames
        exact hs.unnamed d' hd' setID hset hold c' hnames
    valid := by
      intro bid hbid
      rcases mem_insert.1 hbid with rfl | h
      · exact ⟨d, hd, k, hk, hlt.trans_eq (numBlocks_setUsage d d usage).symm, rfl⟩
      · obtain ⟨d', hd', k', hk', hlt', heq⟩ := hs.valid bid h
        exact ⟨d', hd', k', hk', hlt'.trans_eq (numBlocks_setUsage d d' usage).symm, heq⟩
    context := by
      intro c' hc'
      by_cases hc : c' = c
      · subst c'
        exact ⟨d, hd, k, hk, update_self ..⟩
      · have hcontext : ((s.setUsage d usage).hand c (blockID d k) avail).contexts c' = s.contexts c' :=
          update_of_ne hc ..
        rw [hcontext] at hc' ⊢
        exact hs.context c' hc'
    avail := by
      have hmem : blockID d k ∈ s.unallocated :=
        mem_sdiff.2 ⟨mem_blocks hd hlt, hfree⟩
      have hun : (s.setUsage d usage).unallocated = s.unallocated :=
        congrArg (· \ s.allocated) (blocks_setUsage d usage)
      rw [unallocated_hand, hun, Finset.card_erase_of_mem hmem, ← hs.avail, ← havail]
      rfl }

end Inv

/-- A call returns a block that was free, or returns none. -/
def Hands (s : DiskSwap γ) : DiskSwap γ × Option ℕ → Prop
  | (s', none) => s' = s
  | (s', some bid) => s'.Inv ∧ bid ∉ s.allocated ∧ getSwapDevID bid ∈ s.devList ∧
      getSwapBlocknum bid < (s.desc (getSwapDevID bid)).numBlocks

theorem hands_finish (hs : s.Inv) (c : γ) {b : ℕ} (hd : d ∈ s.devList)
    (hk : k < 2 ^ 24) (hclear : bit ((s.desc d).usage.mapLevel 0) k = false)
    (hb : blockID d b = blockID d k)
    (h₀ : usage.mapLevel 0 = setBit ((s.desc d).usage.mapLevel 0) k)
    (h₁ : ∀ setID, bit (usage.mapLevel 1) setID = false →
      bit ((s.desc d).usage.mapLevel 1) setID = false ∧ setID ≠ k / 64) :
    s.Hands ((s.setUsage d usage).finish c d b) := by
  have hnot : ¬ (blockID d k ∈ s.allocated ∨ (s.desc d).numBlocks ≤ k) := by
    rw [← hs.used d hd k hk, hclear]
    simp
  obtain ⟨hfree, hlt⟩ := not_or.1 hnot
  have hlt := Nat.lt_of_not_le hlt
  have hpos : 0 < s.unallocated.card :=
    Finset.card_pos.2 ⟨_, mem_sdiff.2 ⟨Inv.mem_blocks hd hlt, hfree⟩⟩
  have hbound := Inv.card_unallocated_lt hs.size
  have havail : (s.numPagesAvail + (2 ^ 64 - 1)) % 2 ^ 64 + 1 = s.numPagesAvail := by
    rw [hs.avail]
    omega
  have hdev := getSwapDevID_blockID (k := k) (hs.devID_lt hd)
  have hnum : getSwapBlocknum (blockID d k) = k := getSwapBlocknum_blockID (by omega)
  unfold finish
  simp only [hb]
  refine ⟨hs.hand c hd hk hlt hfree h₀ h₁ havail, hfree, ?_, ?_⟩
  · rw [hdev]
    exact hd
  · rw [hdev, hnum]
    exact hlt

theorem setFirst_level0 {setID block : ℕ} (h : block ≠ 64) :
    (setFirst usage setID block).mapLevel 0 =
      setBit (usage.mapLevel 0) (setID * 64 + block) := by
  rw [setFirst, if_neg h, BlockSet.setLevel_self]

theorem setFirst_level1 (usage : BlockSet) (setID block : ℕ) :
    (setFirst usage setID block).mapLevel 1 = usage.mapLevel 1 := by
  rw [setFirst]
  split
  · rfl
  · rw [BlockSet.setLevel_of_ne (by decide)]

omit [DecidableEq γ] in
theorem nextDev_mem (h : s.nextDev = some d) : d ∈ s.devList := by
  have hhead : ∀ {l : List ℕ}, l.head? = some d → d ∈ l := List.mem_of_head?
  unfold nextDev at h
  rcases Option.or_eq_some_iff.1 h with h | ⟨-, h⟩
  · cases hcurr : s.currentDev with
    | none =>
      rw [hcurr] at h
      exact hhead h
    | some curr =>
      rw [hcurr] at h
      exact (List.dropWhile_sublist _).mem (List.mem_of_mem_tail (hhead h))
  · exact hhead h

theorem hands_allocNew (hs : s.Inv) (c : γ) : s.Hands (s.allocNew c) := by
  unfold allocNew
  split
  · rfl
  · rename_i d hnext
    have hd := nextDev_mem hnext
    split
    · rename_i usage newBlockSet hget
      have htakes := BlockSet.getBlockSet_found hget
      have hset : newBlockSet < 2 ^ 18 := htakes.lt
      obtain ⟨hpos, hfree⟩ := hs.empty d hd newBlockSet hset htakes.clear
      have hused : ∀ k, k / 64 = newBlockSet →
          (bit ((s.desc d).usage.mapLevel 0) k = true ↔ (s.desc d).numBlocks ≤ k) := by
        intro k hk
        have := hs.used d hd k (by omega)
        rw [this]
        simp [hfree k hk]
      have hfirst : (usage.mapLevel 0 newBlockSet).getLsbD 0 = false := by
        rw [htakes.level0, ← Bitmap.bit_mul_add (by decide) _ _ (by decide : 0 < 64)]
        refine Bool.eq_false_iff.2 fun h => ?_
        rw [hused _ (by omega)] at h
        omega
      obtain ⟨hlt, hclear⟩ :=
        BlockSet.bit_lowClear _ _ (Bitmap.lowClear_ne (by decide : 0 < 64) hfirst)
      rw [htakes.level0] at hlt hclear ⊢
      have hs' := hs.setCurrentDev (some d)
      refine hands_finish (k := newBlockSet * 64 + _) hs' c hd ?_ hclear ?_ ?_ ?_
      · omega
      · rw [Nat.add_comm]
      · rw [setFirst_level0 (by omega), htakes.level0]
      · intro setID hbit
        rw [setFirst_level1, htakes.level1, bit_setBit (by decide), Bool.or_eq_false_iff,
          decide_eq_false_iff_not] at hbit
        refine ⟨hbit.1, ?_⟩
        have hdiv : (newBlockSet * 64 +
            Bitmap.lowClear ((s.desc d).usage.mapLevel 0 newBlockSet)) / 64 = newBlockSet := by
          omega
        rw [hdiv]
        exact hbit.2
    · rfl

theorem hands_allocBlock (hs : s.Inv) (c : γ) : s.Hands (s.allocBlock c) := by
  unfold allocBlock
  simp only
  split
  · rename_i hcontext
    obtain ⟨hne, hmem⟩ := hcontext
    split
    · rename_i hblock
      obtain ⟨d, hd, k, hk, heq⟩ := hs.context c hne
      have hdev : getSwapDevID (s.contexts c) = d := by
        rw [heq, getSwapDevID_blockID (hs.devID_lt hd)]
      have hnum : getSwapBlocknum (s.contexts c) = k := by
        rw [heq, getSwapBlocknum_blockID (by omega)]
      rw [hdev, hnum] at hblock ⊢
      obtain ⟨hlt, hclear⟩ := BlockSet.bit_lowClear _ _ hblock
      refine hands_finish (k := k / 64 * 64 + _) hs c hd ?_ hclear ?_ (setFirst_level0 hblock) ?_
      · omega
      · rw [heq]
        unfold blockID
        have := hs.devID_lt hd
        omega
      · intro setID hbit
        rw [setFirst_level1] at hbit
        refine ⟨hbit, ?_⟩
        rintro rfl
        refine hs.unnamed d hd _ (by omega) hbit c ⟨hne, hdev, ?_⟩
        rw [hnum]
        omega
    · exact hands_allocNew hs c
  · exact hands_allocNew hs c

/-! ## Freeing -/

section

omit [DecidableEq γ]

theorem unallocated_takeBack (avail : ℕ) (hbid : bid ∈ s.blocks) :
    (s.takeBack bid avail).unallocated = insert bid s.unallocated :=
  Finset.sdiff_erase hbid

/-- A block is free again. A set that can be given out from now on has no used block, and
no context names it. -/
theorem Inv.takeBack (hs : s.Inv) {avail : ℕ} {contexts : γ → ℕ}
    (hd : d ∈ s.devList) (hk : k < 2 ^ 24) (hlt : k < (s.desc d).numBlocks)
    (hbid : blockID d k ∈ s.allocated)
    (h₀ : usage.mapLevel 0 = Bitmap.clearBit ((s.desc d).usage.mapLevel 0) k)
    (h₁ : ∀ setID, bit (usage.mapLevel 1) setID = false →
      bit ((s.desc d).usage.mapLevel 1) setID = false ∨
        setID = k / 64 ∧ usage.mapLevel 0 (k / 64) = 0 ∧
          ∀ c, contexts c = s.contexts c → ¬ s.Names c d (k / 64))
    (hcontexts : ∀ c, contexts c = s.contexts c ∨ contexts c = INIT_PAGER_CONTEXT)
    (havail : avail = s.numPagesAvail + 1) :
    { (s.takeBack (blockID d k) avail).setUsage d usage with contexts := contexts }.Inv := by
  generalize hs' : ({ (s.takeBack (blockID d k) avail).setUsage d usage with
    contexts := contexts } : DiskSwap γ) = s'
  have hd12 := hs.devID_lt hd
  have hinj : ∀ {d' k'}, d' ∈ s.devList → k' < 2 ^ 24 → blockID d' k' = blockID d k →
      d' = d ∧ k' = k :=
    fun hd' hk' h => blockID_inj (hs.devID_lt hd') hd12 (by omega) (by omega) h
  have hlist : s'.devList = s.devList := by
    rw [← hs']
    rfl
  have hnum : ∀ d', (s'.desc d').numBlocks = (s.desc d').numBlocks := by
    intro d'
    rw [← hs']
    exact Inv.numBlocks_setUsage (s := s.takeBack (blockID d k) avail) d d' usage
  have hself : (s'.desc d).usage = usage := by
    rw [← hs']
    exact congrArg DeviceDesc.usage (Inv.desc_setUsage_self d usage)
  have hother : ∀ d', d' ≠ d → (s'.desc d').usage = (s.desc d').usage := by
    intro d' hne
    rw [← hs']
    exact congrArg DeviceDesc.usage (Inv.desc_setUsage_of_ne hne usage)
  have hallocated : s'.allocated = s.allocated.erase (blockID d k) := by
    rw [← hs']
    rfl
  have hctx : s'.contexts = contexts := by
    rw [← hs']
  have hnames : ∀ {c d' setID}, s'.Names c d' setID →
      contexts c = s.contexts c ∧ s.Names c d' setID := by
    intro c d' setID h
    unfold Names at h
    rw [hctx] at h
    have hsame := (hcontexts c).resolve_right h.1
    rw [hsame] at h
    exact ⟨hsame, h⟩
  have hused : ∀ d' ∈ s.devList, ∀ k' < 2 ^ 24,
      bit ((s'.desc d').usage.mapLevel 0) k' = true ↔
        blockID d' k' ∈ s'.allocated ∨ (s'.desc d').numBlocks ≤ k' := by
    intro d' hd' k' hk'
    have hold := hs.used d' hd' k' hk'
    rw [hnum, hallocated, Finset.mem_erase]
    by_cases hdd : d' = d
    · subst d'
      rw [hself, h₀, bit_clearBit (by decide), Bool.and_eq_true, hold]
      by_cases hkk : k' = k
      · subst k'
        simp only [decide_true, Bool.not_true, Bool.false_eq_true, and_false, ne_eq,
          not_true_eq_false, false_and, false_or, false_iff]
        omega
      · have hne : blockID d k' ≠ blockID d k := fun h => hkk (hinj hd' hk' h).2
        simp [hkk, hne]
    · rw [hother d' hdd, hold]
      have hne : blockID d' k' ≠ blockID d k := fun h => hdd (hinj hd' hk' h).1
      simp [hne]
  exact {
    few := by
      rw [← hs']
      exact hs.few
    ids := by
      rw [← hs']
      exact hs.ids
    size := by
      intro d' hd'
      rw [hnum]
      exact hs.size d' (hlist ▸ hd')
    used := fun d' hd' => hused d' (hlist ▸ hd')
    empty := by
      intro d' hd' setID hset hbit
      rw [hlist] at hd'
      have hkept : bit ((s.desc d').usage.mapLevel 1) setID = false →
          setID * 64 < (s'.desc d').numBlocks ∧ ∀ k', k' / 64 = setID →
            blockID d' k' ∉ s'.allocated := by
        intro h
        obtain ⟨hpos, hnot⟩ := hs.empty d' hd' setID hset h
        rw [hnum, hallocated]
        exact ⟨hpos, fun k' hk' hmem => hnot k' hk' (Finset.mem_of_mem_erase hmem)⟩
      by_cases hdd : d' = d
      · subst d'
        rw [hself] at hbit
        rcases h₁ setID hbit with h | ⟨rfl, hzero, -⟩
        · exact hkept h
        · -- all blocks of the set are free
          have hfree : ∀ k', k' / 64 = k / 64 →
              ¬ (blockID d k' ∈ s'.allocated ∨ (s'.desc d).numBlocks ≤ k') := by
            intro k' hk'
            rw [← hused d hd k' (by omega), hself]
            unfold bit
            rw [hk', hzero]
            simp
          constructor
          · have := (not_or.1 (hfree (k / 64 * 64) (by omega))).2
            omega
          · intro k' hk'
            exact (not_or.1 (hfree k' hk')).1
      · rw [hother d' hdd] at hbit
        exact hkept hbit
    unnamed := by
      intro d' hd' setID hset hbit c h
      rw [hlist] at hd'
      obtain ⟨hsame, h⟩ := hnames h
      by_cases hdd : d' = d
      · subst d'
        rw [hself] at hbit
        rcases h₁ setID hbit with hold | ⟨rfl, -, hnot⟩
        · exact hs.unnamed d hd setID hset hold c h
        · exact hnot c hsame h
      · rw [hother d' hdd] at hbit
        exact hs.unnamed d' hd' setID hset hbit c h
    valid := by
      intro bid hmem
      rw [hallocated] at hmem
      obtain ⟨d', hd', k', hk', hlt', heq⟩ := hs.valid bid (Finset.mem_of_mem_erase hmem)
      exact ⟨d', hlist ▸ hd', k', hk', (hnum d').symm ▸ hlt', heq⟩
    context := by
      intro c hc
      rw [hctx] at hc ⊢
      rw [(hcontexts c).resolve_right hc, hlist] at *
      exact hs.context c hc
    avail := by
      have hblocks : s'.unallocated = insert (blockID d k) s.unallocated := by
        rw [← unallocated_takeBack avail (Inv.mem_blocks hd hlt), ← hs']
        exact congrArg (· \ _) (Inv.blocks_setUsage d usage)
      have hnot : blockID d k ∉ s.unallocated := fun h => (mem_sdiff.1 h).2 hbid
      rw [hblocks, Finset.card_insert_of_notMem hnot, ← hs.avail, ← havail, ← hs']
      rfl }

end

theorem putBlockSet_flipped {words : ℕ → BitVec 64} {setID : ℕ} (hzero : words setID = 0) :
    ((usage.setLevel 0 (update words setID (BitVec.allOnes 64))).putBlockSet
      setID).mapLevel 0 = words := by
  rw [BlockSet.putBlockSet_level0, BlockSet.setLevel_self, Function.update_idem]
  exact (congrArg (update words setID) hzero.symm).trans (Function.update_eq_self ..)

theorem Inv.freePage (hs : s.Inv) (context : Option γ) (hbid : bid ∈ s.allocated)
    (herased : s.clearedWords bid (getSwapBlocknum bid / 64) = 0 → ∀ c,
      s.Names c (getSwapDevID bid) (getSwapBlocknum bid / 64) →
        context = some c ∧ getSwapBlocknum bid / 64 = s.contexts c / 64) :
    (s.freePage bid context).Inv := by
  obtain ⟨d, hd, k, hk, hlt, rfl⟩ := hs.valid bid hbid
  have hdev : getSwapDevID (blockID d k) = d := getSwapDevID_blockID (hs.devID_lt hd)
  have hnum : getSwapBlocknum (blockID d k) = k := getSwapBlocknum_blockID (by omega)
  have havail : (s.numPagesAvail + 1) % 2 ^ 64 = s.numPagesAvail + 1 := by
    have hbound := Inv.card_unallocated_lt (s := s.takeBack (blockID d k) 0) hs.size
    have hnot : blockID d k ∉ s.unallocated := fun h => (mem_sdiff.1 h).2 hbid
    rw [unallocated_takeBack 0 (Inv.mem_blocks hd hlt), Finset.card_insert_of_notMem hnot,
      ← hs.avail] at hbound
    exact Nat.mod_eq_of_lt hbound
  unfold DiskSwap.freePage
  simp only [hdev, hnum, havail]
  rw [if_pos hd]
  unfold clearedWords at herased ⊢
  rw [hdev, hnum] at herased ⊢
  split
  · rename_i hzero
    refine hs.takeBack hd hk hlt hbid (putBlockSet_flipped hzero) ?_ ?_ rfl
    · intro setID hbit
      rw [BlockSet.putBlockSet_level1, BlockSet.setLevel_of_ne (by decide),
        bit_clearBit (by decide), Bool.and_eq_false_iff] at hbit
      refine hbit.imp_right fun hset => ?_
      have hset : setID = k / 64 := by simpa using hset
      refine ⟨hset, ?_, ?_⟩
      · rw [putBlockSet_flipped hzero, hzero]
      · intro c hsame hnames
        obtain ⟨rfl, hsets⟩ := herased hzero c hnames
        unfold eraseContext at hsame
        have hcontexts : ((s.takeBack (blockID d k) (s.numPagesAvail + 1)).contexts) = s.contexts :=
          rfl
        simp only [hcontexts] at hsame
        rw [if_pos hsets, update_self] at hsame
        exact hnames.1 hsame.symm
    · intro c
      unfold eraseContext
      split
      · exact .inl rfl
      · rename_i c'
        split
        · by_cases hc : c = c'
          · rw [hc, update_self]
            exact .inr rfl
          · rw [update_of_ne hc]
            exact .inl rfl
        · exact .inl rfl
  · refine hs.takeBack hd hk hlt hbid (BlockSet.setLevel_self _) ?_ (fun _ => .inl rfl) rfl
    intro setID hbit
    rw [BlockSet.setLevel_of_ne (by decide)] at hbit
    exact .inl hbit

/-! ## Whole runs -/

/-- **Step.** Each call that meets the condition keeps the invariant. -/
theorem Inv.step (hs : s.Inv) (op : Op γ) (hadm : adm s op) (hback : s.givesBack op) :
    (s.step op).Inv := by
  cases op with
  | attachDevice bytes => exact hs.attachDevice hadm hback
  | allocBlock c =>
    have hhands := hands_allocBlock hs c
    rw [DiskSwap.step]
    cases hres : s.allocBlock c with
    | mk s' result =>
      rw [hres] at hhands
      cases result with
      | none =>
        rw [show s' = s from hhands]
        exact hs
      | some bid => exact hhands.1
  | freePage bid context => exact hs.freePage context hback.1 hback.2

theorem Inv.sound (hs : s.Inv) : s.Sound := by
  have hhands : ∀ c bid, (s.allocBlock c).2 = some bid → bid ∉ s.allocated ∧
      getSwapDevID bid ∈ s.devList ∧
        getSwapBlocknum bid < (s.desc (getSwapDevID bid)).numBlocks := by
    intro c bid h
    have hhands := hands_allocBlock hs c
    cases hres : s.allocBlock c with
    | mk s' result =>
      rw [hres] at h hhands
      cases h
      exact hhands.2
  exact ⟨fun c bid h => (hhands c bid h).1, fun c bid h => (hhands c bid h).2, hs.avail⟩

/-- In every sequence of calls over any devices and contexts that meets the condition, no
block is handed out twice or beyond the end of its device, and the pages available are
those not allocated. -/
theorem run_handsOutOnce {ops : List (Op γ)} {s : DiskSwap γ} (h : erasingCalls.Run init ops s) :
    s.Sound := by
  refine Inv.sound (h.invariant (I := Inv) Inv.init ?_)
  rintro s op hs ⟨hadm, hback⟩
  exact hs.step op hadm hback

/-! ## Two runs -/

instance (s : DiskSwap γ) : (op : Op γ) → Decidable (adm s op)
  | .attachDevice bytes => inferInstanceAs (Decidable (bytes < 2 ^ 64))
  | .allocBlock _ | .freePage .. => isTrue trivial

instance (s : DiskSwap γ) (c : γ) (devID setID : ℕ) : Decidable (s.Names c devID setID) :=
  inferInstanceAs (Decidable (_ ∧ _ ∧ _))

instance [Fintype γ] (s : DiskSwap γ) : (op : Op γ) → Decidable (s.givesBack op)
  | .attachDevice _ => inferInstanceAs (Decidable (s.nextDevID < 2 ^ 12))
  | .allocBlock _ => isTrue trivial
  | .freePage .. => inferInstanceAs (Decidable (_ ∧ _))

instance (s : DiskSwap γ) (op : Op γ) : Decidable (calls.adm s op) :=
  inferInstanceAs (Decidable (adm s op))

instance [Fintype γ] (s : DiskSwap γ) (op : Op γ) : Decidable (erasingCalls.adm s op) :=
  inferInstanceAs (Decidable (adm s op ∧ s.givesBack op))

/-- Two contexts take a block each of a device with three sets; the first frees its block,
with its own context, and allocates again. -/
def reallocated : List (Op Bool) :=
  [.attachDevice (129 * 4096), .allocBlock false, .allocBlock true, .freePage 0 (some false),
    .allocBlock false]

theorem run_handsOutOnce_reallocated :
    let s := reallocated.foldl erasingCalls.step (init : DiskSwap Bool)
    erasingCalls.Run init reallocated s ∧ s.allocated = {0, 64} ∧ s.numPagesAvail = 127 ∧
      (s.allocBlock true).2 = some 65 ∧ s.Sound := by
  intro s
  have hadmits : erasingCalls.Admits (init : DiskSwap Bool) reallocated := by decide +kernel
  exact ⟨hadmits.run, by decide +kernel, by decide +kernel, by decide +kernel,
    run_handsOutOnce hadmits.run⟩

/-- A write fails, so that its block, the only one of its set, is freed with a throw-away
context. The context that still names the set takes all of its blocks. -/
def takenOver : List (Op Bool) :=
  [Op.attachDevice (128 * 4096), .allocBlock false, .freePage 0 none] ++
    List.replicate 64 (Op.allocBlock false) ++ [Op.allocBlock true]

theorem not_sound {c : γ} (halloc : (s.allocBlock c).2 = some bid)
    (hmem : bid ∈ s.allocated) : ¬ s.Sound :=
  fun h => h.fresh c bid halloc hmem

/-- The device gives the full set out again; the other context gets the block after its
end, and so does the first. -/
theorem sound_takenOver :
    let s := takenOver.foldl calls.step (init : DiskSwap Bool)
    calls.Run init takenOver s ∧ s.allocated.card = 65 ∧ 64 ∈ s.allocated ∧
      (s.allocBlock false).2 = some 64 ∧ ¬ s.Sound := by
  intro s
  have hadmits : calls.Admits (init : DiskSwap Bool) takenOver := by decide +kernel
  have halloc : (s.allocBlock false).2 = some 64 := by decide +kernel
  refine ⟨hadmits.run, by decide +kernel, by decide +kernel, halloc, not_sound halloc ?_⟩
  decide +kernel

end DiskSwap

end K42
