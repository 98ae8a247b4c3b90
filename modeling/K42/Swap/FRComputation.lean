import K42.Swap.DiskSwap
import Mathlib.Data.List.AList

/-!
# Who owns the blocks of the swap device

An FRComputation records in `blockHash` the block that has the contents of each of its offsets.
A block is taken from the swap device when an offset is first written, and goes back when the
offset is freed or the FRComputation is destroyed; when an FRComputation is forked, its blocks
move to that of the parent.

The calls are whole here: an IO has completed before the next call.
-/

open List (mem_cons nodup_cons)

namespace K42

/-- The FRComputations `γ` and the device they swap to, where each has its pager context.
`blockHash` never has two entries for an offset. -/
structure FRComputation (γ : Type) where
  swap : DiskSwap γ
  blockHash : γ → AList fun _ : ℕ => ℕ
  beingDestroyed : γ → Bool

namespace FRComputation

variable {γ : Type} [DecidableEq γ]

def init : FRComputation γ where
  swap := .init
  blockHash := fun _ => ∅
  beingDestroyed := fun _ => false

section Steps

variable (s : FRComputation γ) (fr : γ) (offset : ℕ)

/-- `blockHash.find`. -/
def find : Option ℕ := (s.blockHash fr).lookup offset

/-- `blockHash.add`. -/
def add (blockID : ℕ) : FRComputation γ :=
  { s with
    blockHash := Function.update s.blockHash fr ((s.blockHash fr).insert offset blockID) }

/-- `blockHash.remove`. -/
def remove : FRComputation γ :=
  { s with blockHash := Function.update s.blockHash fr ((s.blockHash fr).erase offset) }

def freePage (blockID : ℕ) (context : Option γ) : FRComputation γ :=
  { s with swap := s.swap.freePage blockID context }

/-- `DiskSwap::startPutPage` takes a block unless it has been passed one. -/
def takeBlock (blockID : Option ℕ) : FRComputation γ × Option ℕ :=
  match blockID with
  | some blockID => (s, some blockID)
  | none => ({ s with swap := (s.swap.allocBlock fr).1 }, (s.swap.allocBlock fr).2)

/-- What becomes of a write: the device does not accept it, or it completes. -/
inductive Write
  | notStarted | succeeds | fails
deriving DecidableEq

/-- `SwapIOCompletion::complete`. -/
def complete (blockID : ℕ) : Write → FRComputation γ
  | .fails => s.freePage blockID none
  | _ => s

def startPutPage (pageable : γ → Bool) (write : Write) : FRComputation γ :=
  if pageable fr then
    let oldBlockID := s.find fr offset
    match s.takeBlock fr oldBlockID with
    | (s', none) => s'
    | (s', some blockID) =>
      if write = .notStarted then s'
      else
        (if oldBlockID = none then s'.add fr offset blockID else s').complete blockID write
  else s

/-- The block that is read, or `PAGE_NOT_FOUND`. -/
def startFillPage (pageable : γ → Bool) : Option ℕ :=
  if pageable fr then s.find fr offset else none

def setOffset (blockID : Option ℕ) : FRComputation γ :=
  let s' := match s.find fr offset with
    | some oldBlockID => (s.remove fr offset).freePage oldBlockID (some fr)
    | none => s
  match blockID with
  | some blockID => s'.add fr offset blockID
  | none => s'

def freeOffset : FRComputation γ :=
  match s.find fr offset with
  | some blockID => (s.remove fr offset).freePage blockID (some fr)
  | none => s

/-- The block is the caller's. -/
def getBlockID : FRComputation γ × Option ℕ := (s.remove fr offset, s.find fr offset)

end Steps

/-- A block moves with `getBlockID` and `setOffset`. -/
def transfer (s : FRComputation γ) (fr : γ) (offset : ℕ) (fr' : γ) (offset' : ℕ) :
    FRComputation γ :=
  (s.getBlockID fr offset).1.setOffset fr' offset' (s.getBlockID fr offset).2

/-- `forkCopy`, with the offsets in the order in which `removeNext` finds them; `newBlockID` of the
parent calls `setOffset`. -/
def forkCopy (fr parent : γ) : List ℕ → FRComputation γ → FRComputation γ
  | [], s => s
  | offset :: rest, s => forkCopy fr parent rest (s.transfer fr offset parent offset)

/-- The loop of `destroy`. -/
def destroyLoop (fr : γ) : List ℕ → FRComputation γ → FRComputation γ
  | [], s => s
  | offset :: rest, s => destroyLoop fr rest (s.freeOffset fr offset)

def destroy (s : FRComputation γ) (fr : γ) (offsets : List ℕ) : FRComputation γ :=
  let s' := destroyLoop fr offsets s
  { s' with beingDestroyed := Function.update s'.beingDestroyed fr true }

/-! ## Runs -/

inductive Op (γ : Type)
  | attachDevice (bytes : ℕ)
  | startPutPage (fr : γ) (offset : ℕ) (write : FRComputation.Write)
  | startFillPage (fr : γ) (offset : ℕ)
  | freeOffset (fr : γ) (offset : ℕ)
  | transfer (fr : γ) (offset : ℕ) (fr' : γ) (offset' : ℕ)
  | forkCopy (fr parent : γ) (offsets : List ℕ)
  | destroy (fr : γ) (offsets : List ℕ)
deriving DecidableEq

section Runs

variable (pageable : γ → Bool)

def step (s : FRComputation γ) : Op γ → FRComputation γ
  | .attachDevice bytes => { s with swap := s.swap.attachDevice bytes }
  | .startPutPage fr offset write => s.startPutPage fr offset pageable write
  | .startFillPage _ _ => s
  | .freeOffset fr offset => s.freeOffset fr offset
  | .transfer fr offset fr' offset' => s.transfer fr offset fr' offset'
  | .forkCopy fr parent offsets => forkCopy fr parent offsets s
  | .destroy fr offsets => s.destroy fr offsets

/-- An FRComputation is not called when it has been destroyed, and the loops go through its
entries. -/
def adm (s : FRComputation γ) : Op γ → Prop
  | .attachDevice bytes => bytes < 2 ^ 64
  | .startPutPage fr _ _ | .startFillPage fr _ | .freeOffset fr _ => s.beingDestroyed fr = false
  | .transfer fr _ fr' _ => s.beingDestroyed fr = false ∧ s.beingDestroyed fr' = false
  | .forkCopy fr parent offsets => s.beingDestroyed fr = false ∧
      s.beingDestroyed parent = false ∧ fr ≠ parent ∧ offsets.Perm (s.blockHash fr).keys
  | .destroy fr offsets => s.beingDestroyed fr = false ∧ offsets.Perm (s.blockHash fr).keys

def calls : Machine (FRComputation γ) (Op γ) := ⟨step pageable, adm⟩

end Runs

/-- The blocks that are recorded are those allocated, each for one offset of one FRComputation. -/
structure Owned (s : FRComputation γ) : Prop where
  allocated : ∀ fr offset blockID, s.find fr offset = some blockID →
    blockID ∈ s.swap.allocated
  once : ∀ fr offset fr' offset' blockID, s.find fr offset = some blockID →
    s.find fr' offset' = some blockID → fr = fr' ∧ offset = offset'
  recorded : ∀ blockID ∈ s.swap.allocated, ∃ fr offset, s.find fr offset = some blockID

/-! ## The condition -/

/-- When the last block of a set is freed, the only context that may still name the set is that of
`fr`, if `freePage` erases it. -/
def Erases (s : FRComputation γ) (fr : γ) (blockID : ℕ) : Prop :=
  s.swap.clearedWords blockID (DiskSwap.getSwapBlocknum blockID / 64) = 0 → ∀ c,
    s.swap.Names c (DiskSwap.getSwapDevID blockID) (DiskSwap.getSwapBlocknum blockID / 64) →
      some fr = some c ∧ DiskSwap.getSwapBlocknum blockID / 64 = s.swap.contexts c / 64

/-- The block of the offset, if it has one, may be freed. -/
def Frees (s : FRComputation γ) (fr : γ) (offset : ℕ) : Prop :=
  ∀ blockID ∈ s.find fr offset, s.Erases fr blockID

def TransferFrees (s : FRComputation γ) (fr : γ) (offset : ℕ) (fr' : γ) (offset' : ℕ) : Prop :=
  (s.remove fr offset).Frees fr' offset'

def ForkFrees (fr parent : γ) : List ℕ → FRComputation γ → Prop
  | [], _ => True
  | offset :: rest, s => s.TransferFrees fr offset parent offset ∧
      ForkFrees fr parent rest (s.transfer fr offset parent offset)

def DestroyFrees (fr : γ) : List ℕ → FRComputation γ → Prop
  | [], _ => True
  | offset :: rest, s => s.Frees fr offset ∧ DestroyFrees fr rest (s.freeOffset fr offset)

/-- There are no more devices than device ids; no write fails, and one that is not started is to
a block that has been recorded; and blocks are freed only where no other context names their
set. -/
def keeps (pageable : γ → Bool) (s : FRComputation γ) : Op γ → Prop
  | .attachDevice _ => s.swap.nextDevID < 2 ^ 12
  | .startPutPage fr offset write => pageable fr → write ≠ .fails ∧
      (write = .notStarted → (s.find fr offset).isSome)
  | .startFillPage _ _ => True
  | .freeOffset fr offset => s.Frees fr offset
  | .transfer fr offset fr' offset' => s.TransferFrees fr offset fr' offset'
  | .forkCopy fr parent offsets => ForkFrees fr parent offsets s
  | .destroy fr offsets => DestroyFrees fr offsets s

def keepingCalls (pageable : γ → Bool) : Machine (FRComputation γ) (Op γ) :=
  ⟨step pageable, fun s op => s.adm op ∧ s.keeps pageable op⟩

/-! ## The allocator -/

section Allocator

variable {w : DiskSwap γ}

theorem allocated_allocBlock {c : γ} {bid : ℕ} (h : (w.allocBlock c).2 = some bid) :
    (w.allocBlock c).1.allocated = insert bid w.allocated := by
  unfold DiskSwap.allocBlock at h ⊢
  dsimp only at h ⊢
  have hnew : ∀ {bid}, (w.allocNew c).2 = some bid →
      (w.allocNew c).1.allocated = insert bid w.allocated := by
    intro bid h
    unfold DiskSwap.allocNew at h ⊢
    split at h
    · cases h
    · split at h
      · cases h
        rfl
      · cases h
  split_ifs at h ⊢ with hctx hblock
  · cases h
    rfl
  · exact hnew h
  · exact hnew h

theorem allocated_freePage (hw : w.Inv) {bid : ℕ} {context : Option γ} (hbid : bid ∈ w.allocated) :
    (w.freePage bid context).allocated = w.allocated.erase bid := by
  obtain ⟨d, hd, k, hk, -, rfl⟩ := hw.valid bid hbid
  have hdev : DiskSwap.getSwapDevID (DiskSwap.blockID d k) = d :=
    DiskSwap.getSwapDevID_blockID (hw.devID_lt hd)
  unfold DiskSwap.freePage
  dsimp only
  rw [hdev, if_pos hd]
  split_ifs <;> rfl

end Allocator

/-! ## Blocks on the way -/

section Invariant

variable {s : FRComputation γ} {fr fr' : γ} {offset offset' blockID : ℕ} {hand : List ℕ}
  {pageable : γ → Bool}

/-- The blocks in `hand` have been taken out of `blockHash`, or not been put in yet. -/
structure Inv (s : FRComputation γ) (hand : List ℕ) : Prop where
  swap : s.swap.Inv
  allocated : ∀ fr offset blockID, s.find fr offset = some blockID →
    blockID ∈ s.swap.allocated
  once : ∀ fr offset fr' offset' blockID, s.find fr offset = some blockID →
    s.find fr' offset' = some blockID → fr = fr' ∧ offset = offset'
  inHand : ∀ blockID ∈ hand, blockID ∈ s.swap.allocated ∧
    ∀ fr offset, s.find fr offset ≠ some blockID
  nodup : hand.Nodup
  recorded : ∀ blockID ∈ s.swap.allocated, blockID ∉ hand →
    ∃ fr offset, s.find fr offset = some blockID

omit [DecidableEq γ] in
theorem Inv.owned (h : Inv s []) : s.Owned where
  allocated := h.allocated
  once := h.once
  recorded := fun blockID hmem => h.recorded blockID hmem List.not_mem_nil

omit [DecidableEq γ] in
theorem inv_init : Inv (init : FRComputation γ) [] where
  swap := .init
  allocated := nofun
  once := nofun
  inHand := nofun
  nodup := .nil
  recorded := nofun

theorem find_add : (s.add fr offset blockID).find fr' offset' =
    if fr' = fr ∧ offset' = offset then some blockID else s.find fr' offset' := by
  unfold find add
  dsimp only
  by_cases hfr : fr' = fr
  · subst fr'
    rw [Function.update_self]
    by_cases ho : offset' = offset
    · subst offset'
      rw [AList.lookup_insert, if_pos ⟨rfl, rfl⟩]
    · rw [AList.lookup_insert_ne ho, if_neg fun hand => ho hand.2]
  · rw [Function.update_of_ne hfr, if_neg fun hand => hfr hand.1]

theorem find_remove : (s.remove fr offset).find fr' offset' =
    if fr' = fr ∧ offset' = offset then none else s.find fr' offset' := by
  unfold find remove
  dsimp only
  by_cases hfr : fr' = fr
  · subst fr'
    rw [Function.update_self]
    by_cases ho : offset' = offset
    · subst offset'
      rw [AList.lookup_erase, if_pos ⟨rfl, rfl⟩]
    · rw [AList.lookup_erase_ne ho, if_neg fun hand => ho hand.2]
  · rw [Function.update_of_ne hfr, if_neg fun hand => hfr hand.1]

theorem Inv.remove (h : Inv s hand) (hfind : s.find fr offset = some blockID) :
    Inv (s.remove fr offset) (blockID :: hand) := by
  have hold : ∀ {fr' offset' b}, (s.remove fr offset).find fr' offset' = some b →
      ¬ (fr' = fr ∧ offset' = offset) ∧ s.find fr' offset' = some b := by
    intro fr' offset' b hb
    rw [find_remove] at hb
    split_ifs at hb with hsame
    exact ⟨hsame, hb⟩
  constructor
  · exact h.swap
  · intro fr' offset' b hb
    exact h.allocated fr' offset' b (hold hb).2
  · intro fr₁ o₁ fr₂ o₂ b h₁ h₂
    exact h.once fr₁ o₁ fr₂ o₂ b (hold h₁).2 (hold h₂).2
  · intro b hb
    rcases mem_cons.1 hb with rfl | hb
    · refine ⟨h.allocated fr offset b hfind, ?_⟩
      intro fr' offset' hget
      obtain ⟨hne, hget⟩ := hold hget
      exact hne (h.once fr' offset' fr offset b hget hfind)
    · refine ⟨(h.inHand b hb).1, ?_⟩
      intro fr' offset' hget
      exact (h.inHand b hb).2 fr' offset' (hold hget).2
  · refine nodup_cons.2 ⟨?_, h.nodup⟩
    intro hmem
    exact (h.inHand blockID hmem).2 fr offset hfind
  · intro b hb hnot
    rw [mem_cons, not_or] at hnot
    obtain ⟨fr', offset', hget⟩ := h.recorded b hb hnot.2
    refine ⟨fr', offset', ?_⟩
    rw [find_remove, if_neg, hget]
    rintro ⟨rfl, rfl⟩
    rw [hfind] at hget
    exact hnot.1 (Option.some.inj hget).symm

theorem Inv.add (h : Inv s (blockID :: hand)) (hfind : s.find fr offset = none) :
    Inv (s.add fr offset blockID) hand := by
  obtain ⟨hmem, hfree⟩ := h.inHand blockID List.mem_cons_self
  have hcases : ∀ {fr' offset' b}, (s.add fr offset blockID).find fr' offset' = some b →
      (fr' = fr ∧ offset' = offset ∧ b = blockID) ∨ s.find fr' offset' = some b := by
    intro fr' offset' b hb
    rw [find_add] at hb
    split_ifs at hb with hsame
    · exact .inl ⟨hsame.1, hsame.2, (Option.some.inj hb).symm⟩
    · exact .inr hb
  constructor
  · exact h.swap
  · intro fr' offset' b hb
    rcases hcases hb with ⟨-, -, rfl⟩ | hb
    · exact hmem
    · exact h.allocated fr' offset' b hb
  · intro fr₁ o₁ fr₂ o₂ b h₁ h₂
    rcases hcases h₁ with ⟨rfl, rfl, rfl⟩ | hold₁
    · rcases hcases h₂ with ⟨rfl, rfl, -⟩ | hold₂
      · exact ⟨rfl, rfl⟩
      · exact absurd hold₂ (hfree fr₂ o₂)
    · rcases hcases h₂ with ⟨rfl, rfl, rfl⟩ | hold₂
      · exact absurd hold₁ (hfree fr₁ o₁)
      · exact h.once fr₁ o₁ fr₂ o₂ b hold₁ hold₂
  · intro b hb
    refine ⟨(h.inHand b (List.mem_cons_of_mem _ hb)).1, ?_⟩
    intro fr' offset' hget
    rcases hcases hget with ⟨-, -, rfl⟩ | hget
    · exact (nodup_cons.1 h.nodup).1 hb
    · exact (h.inHand b (List.mem_cons_of_mem _ hb)).2 fr' offset' hget
  · exact (nodup_cons.1 h.nodup).2
  · intro b hb hnot
    by_cases heq : b = blockID
    · refine ⟨fr, offset, ?_⟩
      rw [find_add, if_pos ⟨rfl, rfl⟩, heq]
    · obtain ⟨fr', offset', hget⟩ := h.recorded b hb fun hin => (mem_cons.1 hin).elim heq hnot
      refine ⟨fr', offset', ?_⟩
      rw [find_add, if_neg, hget]
      rintro ⟨rfl, rfl⟩
      rw [hfind] at hget
      cases hget

theorem Inv.freePage (h : Inv s (blockID :: hand)) (herases : s.Erases fr blockID) :
    Inv (s.freePage blockID (some fr)) hand := by
  obtain ⟨hmem, hfree⟩ := h.inHand blockID List.mem_cons_self
  have halloc : (s.freePage blockID (some fr)).swap.allocated = s.swap.allocated.erase blockID :=
    allocated_freePage h.swap hmem
  constructor
  · exact h.swap.freePage (some fr) hmem herases
  · intro fr' offset' b hb
    rw [halloc]
    refine Finset.mem_erase.2 ⟨?_, h.allocated fr' offset' b hb⟩
    rintro rfl
    exact hfree fr' offset' hb
  · exact h.once
  · intro b hb
    obtain ⟨hin, hnone⟩ := h.inHand b (List.mem_cons_of_mem _ hb)
    refine ⟨?_, hnone⟩
    rw [halloc]
    refine Finset.mem_erase.2 ⟨?_, hin⟩
    rintro rfl
    exact (nodup_cons.1 h.nodup).1 hb
  · exact (nodup_cons.1 h.nodup).2
  · intro b hb hnot
    rw [halloc, Finset.mem_erase] at hb
    exact h.recorded b hb.2 fun hin => (mem_cons.1 hin).elim hb.1 hnot

theorem Inv.alloc (h : Inv s hand) (c : γ) : (match s.swap.allocBlock c with
      | (w, none) => w = s.swap
      | (w, some blockID) => Inv { s with swap := w } (blockID :: hand)) := by
  have hhands := DiskSwap.hands_allocBlock h.swap c
  have hallocated : ∀ bid, (s.swap.allocBlock c).2 = some bid →
      (s.swap.allocBlock c).1.allocated = insert bid s.swap.allocated :=
    fun _ => allocated_allocBlock
  generalize s.swap.allocBlock c = result at hhands hallocated
  obtain ⟨w, block⟩ := result
  cases block with
  | none => exact hhands
  | some blockID =>
    obtain ⟨hinv, hnot, -⟩ := hhands
    have halloc : w.allocated = insert blockID s.swap.allocated :=
      hallocated blockID rfl
    constructor
    · exact hinv
    · intro fr' offset' b hb
      change b ∈ w.allocated
      rw [halloc]
      exact Finset.mem_insert_of_mem (h.allocated fr' offset' b hb)
    · exact h.once
    · intro b hb
      change b ∈ w.allocated ∧ _
      rw [halloc]
      rcases mem_cons.1 hb with rfl | hb
      · refine ⟨Finset.mem_insert_self b _, ?_⟩
        intro fr' offset' hget
        exact hnot (h.allocated fr' offset' b hget)
      · exact ⟨Finset.mem_insert_of_mem (h.inHand b hb).1, (h.inHand b hb).2⟩
    · refine nodup_cons.2 ⟨?_, h.nodup⟩
      intro hin
      exact hnot (h.inHand blockID hin).1
    · intro b hb hnotIn
      change b ∈ w.allocated at hb
      rw [halloc, Finset.mem_insert] at hb
      rw [mem_cons, not_or] at hnotIn
      rcases hb with rfl | hb
      · exact absurd rfl hnotIn.1
      · exact h.recorded b hb hnotIn.2

/-! ## The calls -/

theorem Inv.freeOffset (h : Inv s hand) (hfrees : s.Frees fr offset) :
    Inv (s.freeOffset fr offset) hand := by
  unfold FRComputation.freeOffset
  cases hfind : s.find fr offset with
  | none => exact h
  | some blockID =>
    have herases := hfrees blockID hfind
    exact (h.remove hfind).freePage herases

theorem find_freePage (context : Option γ) :
    (s.freePage blockID context).find fr offset = s.find fr offset := rfl

theorem Inv.setOffset (h : Inv s (blockID :: hand)) (hfrees : s.Frees fr offset) :
    Inv (s.setOffset fr offset (some blockID)) hand := by
  unfold FRComputation.setOffset
  dsimp only
  cases hfind : s.find fr offset with
  | none => exact h.add hfind
  | some oldBlockID =>
    have hfreed := (h.remove hfind).freePage (hfrees oldBlockID hfind)
    refine hfreed.add ?_
    rw [find_freePage, find_remove, if_pos ⟨rfl, rfl⟩]

theorem setOffset_none : s.setOffset fr offset none = s.freeOffset fr offset := by
  unfold FRComputation.setOffset FRComputation.freeOffset
  cases s.find fr offset <;> rfl

theorem remove_of_none (hfind : s.find fr offset = none) : s.remove fr offset = s := by
  unfold FRComputation.remove
  have hnot : offset ∉ s.blockHash fr := AList.lookup_eq_none.1 hfind
  have herase : (s.blockHash fr).erase offset = s.blockHash fr := by
    apply AList.ext
    exact List.kerase_of_notMem_keys hnot
  rw [herase, Function.update_eq_self]

theorem Inv.transfer (h : Inv s []) (hfrees : s.TransferFrees fr offset fr' offset') :
    Inv (s.transfer fr offset fr' offset') [] := by
  unfold FRComputation.transfer FRComputation.getBlockID
  unfold TransferFrees at hfrees
  dsimp only
  cases hfind : s.find fr offset with
  | none =>
    rw [remove_of_none hfind] at hfrees ⊢
    rw [setOffset_none]
    exact h.freeOffset hfrees
  | some blockID => exact (h.remove hfind).setOffset hfrees

theorem Inv.forkCopy {offsets : List ℕ} : ∀ {s : FRComputation γ}, Inv s [] →
    ForkFrees fr fr' offsets s → Inv (forkCopy fr fr' offsets s) [] := by
  induction offsets with
  | nil => exact fun h _ => h
  | cons offset rest ih =>
    rintro s h ⟨hfrees, hrest⟩
    exact ih (h.transfer hfrees) hrest

theorem Inv.destroyLoop {offsets : List ℕ} : ∀ {s : FRComputation γ}, Inv s [] →
    DestroyFrees fr offsets s → Inv (destroyLoop fr offsets s) [] := by
  induction offsets with
  | nil => exact fun h _ => h
  | cons offset rest ih =>
    rintro s h ⟨hfrees, hrest⟩
    exact ih (h.freeOffset hfrees) hrest

theorem Inv.destroy {offsets : List ℕ} (h : Inv s []) (hfrees : DestroyFrees fr offsets s) :
    Inv (s.destroy fr offsets) [] := by
  have hloop := h.destroyLoop hfrees
  exact ⟨hloop.swap, hloop.allocated, hloop.once, hloop.inHand, hloop.nodup, hloop.recorded⟩

theorem Inv.startPutPage {write : Write} (h : Inv s [])
    (hkeeps : pageable fr → write ≠ .fails ∧ (write = .notStarted → (s.find fr offset).isSome)) :
    Inv (s.startPutPage fr offset pageable write) [] := by
  unfold FRComputation.startPutPage
  by_cases hpageable : pageable fr
  · rw [if_pos hpageable]
    obtain ⟨hfails, hnot⟩ := hkeeps hpageable
    have hcomplete : ∀ t : FRComputation γ, ∀ b, t.complete b write = t := by
      intro t b
      cases write with
      | fails => exact absurd rfl hfails
      | _ => rfl
    dsimp only
    cases hfind : s.find fr offset with
    | some blockID =>
      unfold takeBlock
      dsimp only
      have hknown : ¬ some blockID = none := nofun
      rw [if_neg hknown, hcomplete, ite_self]
      exact h
    | none =>
      have halloc := h.alloc fr
      have hstarted : write ≠ .notStarted := by
        intro hw
        have hsome := hnot hw
        rw [hfind] at hsome
        cases hsome
      unfold takeBlock
      dsimp only
      generalize s.swap.allocBlock fr = result at halloc
      obtain ⟨w, block⟩ := result
      cases block with
      | none =>
        change w = s.swap at halloc
        subst w
        exact h
      | some blockID =>
        dsimp only
        rw [if_neg hstarted, if_pos rfl, hcomplete]
        exact Inv.add halloc hfind
  · rw [if_neg hpageable]
    exact h

/-- **Step.** Each call that meets the condition keeps the blocks owned. -/
theorem Inv.step (h : Inv s []) {op : Op γ} (hadm : s.adm op) (hkeeps : s.keeps pageable op) :
    Inv (s.step pageable op) [] := by
  cases op with
  | attachDevice bytes =>
    exact ⟨h.swap.attachDevice hadm hkeeps, h.allocated, h.once, h.inHand, h.nodup, h.recorded⟩
  | startPutPage fr offset write => exact h.startPutPage hkeeps
  | startFillPage fr offset => exact h
  | freeOffset fr offset => exact h.freeOffset hkeeps
  | transfer fr offset fr' offset' => exact h.transfer hkeeps
  | forkCopy fr parent offsets => exact h.forkCopy hkeeps
  | destroy fr offsets => exact h.destroy hkeeps

/-- In every sequence of calls that meets the condition, the blocks recorded are those allocated,
each for one offset of one FRComputation. -/
theorem run_owned {ops : List (Op γ)} (h : (keepingCalls pageable).Run init ops s) : s.Owned := by
  have hinv : Inv s [] := by
    refine h.invariant (I := fun s => Inv s []) inv_init ?_
    rintro s op hs ⟨hadm, hkeeps⟩
    exact hs.step hadm hkeeps
  exact hinv.owned

end Invariant

/-! ## Runs of two FRComputations -/

section Decide

instance (s : FRComputation γ) : (op : Op γ) → Decidable (s.adm op)
  | .attachDevice bytes => inferInstanceAs (Decidable (bytes < 2 ^ 64))
  | .startPutPage .. | .startFillPage .. | .freeOffset .. => inferInstanceAs (Decidable (_ = _))
  | .transfer .. | .forkCopy .. | .destroy .. => inferInstanceAs (Decidable (_ ∧ _))

variable [Fintype γ] (pageable : γ → Bool) (s : FRComputation γ)

instance (fr : γ) (blockID : ℕ) : Decidable (s.Erases fr blockID) :=
  inferInstanceAs (Decidable (_ → ∀ _, _ → _ ∧ _))

instance (fr : γ) (offset : ℕ) : Decidable (s.Frees fr offset) :=
  inferInstanceAs (Decidable (∀ blockID ∈ s.find fr offset, s.Erases fr blockID))

instance ForkFrees.decidable (fr parent : γ) : (offsets : List ℕ) → (s : FRComputation γ) →
    Decidable (ForkFrees fr parent offsets s)
  | [], _ => isTrue trivial
  | offset :: rest, s =>
    have := ForkFrees.decidable fr parent rest (s.transfer fr offset parent offset)
    inferInstanceAs (Decidable ((s.remove fr offset).Frees parent offset ∧
      ForkFrees fr parent rest (s.transfer fr offset parent offset)))

instance DestroyFrees.decidable (fr : γ) : (offsets : List ℕ) → (s : FRComputation γ) →
    Decidable (DestroyFrees fr offsets s)
  | [], _ => isTrue trivial
  | offset :: rest, s =>
    have := DestroyFrees.decidable fr rest (s.freeOffset fr offset)
    inferInstanceAs (Decidable (s.Frees fr offset ∧
      DestroyFrees fr rest (s.freeOffset fr offset)))

instance : (op : Op γ) → Decidable (s.keeps pageable op)
  | .attachDevice _ => inferInstanceAs (Decidable (s.swap.nextDevID < 2 ^ 12))
  | .startPutPage .. => inferInstanceAs (Decidable (_ → _))
  | .startFillPage .. => isTrue trivial
  | .freeOffset fr offset => inferInstanceAs (Decidable (s.Frees fr offset))
  | .transfer fr offset fr' offset' =>
    inferInstanceAs (Decidable ((s.remove fr offset).Frees fr' offset'))
  | .forkCopy fr parent offsets => ForkFrees.decidable fr parent offsets s
  | .destroy fr offsets => DestroyFrees.decidable fr offsets s

instance (op : Op γ) : Decidable ((keepingCalls pageable).adm s op) :=
  inferInstanceAs (Decidable (s.adm op ∧ s.keeps pageable op))

end Decide

instance (pageable : γ → Bool) (s : FRComputation γ) (op : Op γ) :
    Decidable ((calls pageable).adm s op) :=
  inferInstanceAs (Decidable (s.adm op))

/-- The child writes two pages and gives one block to its parent at a fork; the parent writes
another page and takes the other block; both free blocks, and the child is destroyed. -/
def forksAndFrees : List (Op Bool) :=
  [.attachDevice (128 * 4096), .startPutPage false 0 .succeeds, .startPutPage false 1 .succeeds,
    .startPutPage true 1 .succeeds, .forkCopy false true [1, 0], .startPutPage false 0 .succeeds,
    .startPutPage true 0 .notStarted, .freeOffset true 1, .destroy false [0]]

theorem run_owned_forksAndFrees :
    let s := forksAndFrees.foldl (keepingCalls fun _ => true).step init
    (keepingCalls fun _ => true).Run init forksAndFrees s ∧ s.swap.allocated = {0} ∧
      s.find true 0 = some 0 ∧ s.Owned := by
  intro s
  have hadmits : (keepingCalls fun _ => true).Admits init forksAndFrees := by decide +kernel
  exact ⟨hadmits.run, by decide +kernel, by decide +kernel, run_owned hadmits.run⟩

/-- The block of a write that fails is free, and the next write of another offset gets it. -/
def writeFails : List (Op Bool) :=
  [.attachDevice (128 * 4096), .startPutPage false 0 .fails, .startPutPage true 1 .succeeds]

/-- The block of a write that is not started is lost. -/
def writeNotStarted : List (Op Bool) :=
  [.attachDevice (128 * 4096), .startPutPage false 0 .notStarted]

theorem not_owned_of_failed_write :
    let s := writeFails.foldl (calls fun _ => true).step init
    let s' := writeNotStarted.foldl (calls fun _ => true).step init
    (calls fun _ => true).Run init writeFails s ∧ s.find false 0 = some 0 ∧
      s.find true 1 = some 0 ∧ ¬ s.Owned ∧
      (calls fun _ => true).Run init writeNotStarted s' ∧ s'.swap.allocated = {0} ∧
        ¬ s'.Owned := by
  intro s s'
  have hadmits : (calls fun _ => true).Admits init writeFails := by decide +kernel
  have hadmits' : (calls fun _ => true).Admits init writeNotStarted := by decide +kernel
  have hfirst : s.find false 0 = some 0 := by decide +kernel
  have hsecond : s.find true 1 = some 0 := by decide +kernel
  have hlost : s'.swap.allocated = {0} := by decide +kernel
  refine ⟨hadmits.run, hfirst, hsecond, ?_, hadmits'.run, hlost, ?_⟩
  · rintro ⟨-, honce, -⟩
    cases (honce false 0 true 1 0 hfirst hsecond).1
  · rintro ⟨-, -, hrecorded⟩
    obtain ⟨fr, offset, hfind⟩ := hrecorded 0 (by rw [hlost]; exact Finset.mem_singleton_self 0)
    have hempty : ∀ fr, (s'.blockHash fr).entries = [] := by decide +kernel
    have hmem := AList.mem_lookup_iff.1 hfind
    rw [hempty fr] at hmem
    cases hmem

end FRComputation

end K42
