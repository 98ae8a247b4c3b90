import K42.KFS.BlockCache
import K42.KFS.GetDblk
import K42.Lib.Update

/-!
# `freeDblk` and the block cache

`freeDblk` gets the entries of the indirect blocks on the path from the block cache, frees
blocks from the bottom up, and releases the entries at the end. `SuperBlock::freeBlock` makes the
cache forget the block, and `freeBlock` of the cache looks the block of the entry up. The two meet
where an indirect block is freed whose entry is still to be released.
-/

open Function (update update_of_ne update_self)
open List (mem_cons not_mem_nil forall_mem_cons)

namespace K42

open RadixTree

/-! ## Entries got and released -/

namespace BlockCacheK42

variable {Block : Type*} {c c' : BlockCacheK42 Block} {b e : ℕ}

/-- `freeBlock`. The hash data of the block is unlocked, also if there is none. Entries are not
evicted, and their users not counted. -/
def freeBlock (c : BlockCacheK42 Block) (e : ℕ) : Except Failure (BlockCacheK42 Block) :=
  if (c.heap e).blkno ≠ 0 ∧ c.blockHash (c.heap e).blkno = none then .error .fault
  else .ok c

/-- `freeBlock` of one entry after the other. -/
def releaseAll (c : BlockCacheK42 Block) : List ℕ → Except Failure (BlockCacheK42 Block)
  | [] => .ok c
  | e :: entries =>
    match c.freeBlock e with
    | .error err => .error err
    | .ok c => releaseAll c entries

/-- `getBlockRead` of one block after the other. -/
def getAll [Inhabited Block] (c : BlockCacheK42 Block) : List ℕ → BlockCacheK42 Block × List ℕ
  | [] => (c, [])
  | b :: blocks =>
    let rest := getAll (c.getBlockRead b).1 blocks
    (rest.1, (c.getBlockRead b).2 :: rest.2)

/-- The hash finds the entry of the block that is looked up. -/
structure Keyed (c : BlockCacheK42 Block) : Prop where
  blkno : ∀ b e, c.blockHash b = some e → (c.heap e).blkno = b
  lt : ∀ b e, c.blockHash b = some e → e < c.allocated

/-- The same entries under the same keys. -/
structure SameKeys (c c' : BlockCacheK42 Block) : Prop where
  blkno : ∀ e, (c'.heap e).blkno = (c.heap e).blkno
  hash : c'.blockHash = c.blockHash
  allocated : c'.allocated = c.allocated

theorem SameKeys.refl (c : BlockCacheK42 Block) : SameKeys c c := ⟨fun _ => rfl, rfl, rfl⟩

theorem SameKeys.trans {c'' : BlockCacheK42 Block} (h : SameKeys c c') (h' : SameKeys c' c'') :
    SameKeys c c'' :=
  ⟨fun e => (h'.blkno e).trans (h.blkno e), h'.hash.trans h.hash, h'.allocated.trans h.allocated⟩

theorem SameKeys.keyed (h : SameKeys c c') (hkeyed : c.Keyed) : c'.Keyed where
  blkno b e hb := by
    rw [h.hash] at hb
    rw [h.blkno, hkeyed.blkno b e hb]
  lt b e hb := by
    rw [h.hash] at hb
    rw [h.allocated]
    exact hkeyed.lt b e hb

variable (c)

theorem SameKeys.modify (e : ℕ)
    {f : BlockCacheEntryK42 Block → BlockCacheEntryK42 Block}
    (hf : (f (c.heap e)).blkno = (c.heap e).blkno) : SameKeys c (c.modify e f) := by
  refine ⟨?_, rfl, rfl⟩
  intro x
  by_cases hx : x = e
  · rw [hx, heap_modify_self, hf]
  · rw [heap_modify_of_ne c hx]

theorem SameKeys.readData (e : ℕ) : SameKeys c (c.readData e) := by
  unfold BlockCacheK42.readData
  split
  · exact SameKeys.modify c e rfl
  · exact SameKeys.refl c

theorem SameKeys.markClean (e : ℕ) : SameKeys c (c.markClean e) :=
  SameKeys.modify c e rfl

theorem SameKeys.add (e : ℕ) : SameKeys c (c.add e) := by
  unfold BlockCacheK42.add
  cases c.lastDirty with
  | none => exact ⟨fun _ => rfl, rfl, rfl⟩
  | some z =>
    have hz := SameKeys.modify c z (f := fun entry => { entry with nextDirty := some e }) rfl
    exact ⟨hz.blkno, hz.hash, hz.allocated⟩

theorem SameKeys.entryMarkDirty (e now : ℕ) :
    SameKeys c (c.entryMarkDirty e now) := by
  unfold BlockCacheK42.entryMarkDirty
  split
  · exact SameKeys.refl c
  · exact SameKeys.modify c e rfl

theorem SameKeys.markDirty (e now : ℕ) :
    SameKeys c (c.markDirty e now) := by
  unfold BlockCacheK42.markDirty
  split
  · exact SameKeys.entryMarkDirty c e now
  · exact (SameKeys.entryMarkDirty c e now).trans (SameKeys.add _ e)

theorem SameKeys.remove : SameKeys c c.remove.1 := by
  unfold BlockCacheK42.remove
  cases c.firstDirty with
  | none => exact SameKeys.refl c
  | some z =>
    have hz := SameKeys.modify c z (f := fun entry => { entry with nextDirty := none }) rfl
    exact ⟨hz.blkno, hz.hash, hz.allocated⟩

theorem SameKeys.entryFlush (e : ℕ) (ok : Bool) :
    SameKeys c (c.entryFlush e ok) := by
  unfold BlockCacheK42.entryFlush
  split
  · have hclear := SameKeys.modify (c.writeBlock e) e
      (f := fun entry => { entry with isDirty := false, flushTime := 0, nextDirty := none }) rfl
    exact ⟨hclear.blkno, hclear.hash, hclear.allocated⟩
  · exact SameKeys.refl c

theorem SameKeys.flushLoop (checkFlushTime : ℕ) (clock : ℕ → ℕ) (io : ℕ → Bool) {fuel : ℕ} :
    ∀ {counter : ℕ} {c c' : BlockCacheK42 Block} {written : List (ℕ × Block)},
      c.flushLoop checkFlushTime clock io fuel counter = .ok (c', written) → SameKeys c c' := by
  induction fuel with
  | zero =>
    intro counter c c' written hok
    cases hok
    exact SameKeys.refl c
  | succ fuel ih =>
    intro counter c c' written hok
    rw [BlockCacheK42.flushLoop] at hok
    cases hfirst : c.firstDirty with
    | none =>
      rw [hfirst] at hok
      cases hok
      exact SameKeys.refl c
    | some entry =>
      rw [hfirst] at hok
      simp only at hok
      split at hok
      · split at hok
        · split at hok
          · cases hok
          · obtain ⟨r, hr, hres⟩ := map_eq_ok hok
            obtain rfl : r.1 = c' := congrArg Prod.fst hres
            exact (SameKeys.remove c).trans ((SameKeys.entryFlush _ _ _).trans (ih hr))
        · cases hok
          exact SameKeys.refl c
      · split at hok
        · cases hok
        · exact (SameKeys.remove c).trans (ih hok)

theorem SameKeys.flush (checkFlushTime : ℕ) (clock : ℕ → ℕ)
    (io : ℕ → Bool) : SameKeys c (c.flush checkFlushTime clock io).1 := by
  have hentered : SameKeys c { c with doingFlush := c.doingFlush + 1 } :=
    ⟨fun _ => rfl, rfl, rfl⟩
  unfold BlockCacheK42.flush
  simp only
  split
  · exact hentered
  · cases hloop : BlockCacheK42.flushLoop checkFlushTime clock io (c.allocated + 1) 0
        { c with doingFlush := c.doingFlush + 1 } with
    | error err => exact hentered
    | ok r =>
      have hsame := hentered.trans (SameKeys.flushLoop checkFlushTime clock io hloop)
      exact ⟨hsame.blkno, hsame.hash, hsame.allocated⟩

theorem blockHash_forget (b x : ℕ) :
    (c.forget b).blockHash x = if x = b then none else c.blockHash x := by
  unfold forget
  cases hb : c.blockHash b with
  | none =>
    by_cases hx : x = b
    · rw [if_pos hx, hx]
      exact hb
    · rw [if_neg hx]
  | some e =>
    show update c.blockHash b none x = _
    rw [Function.update_apply]

theorem blkno_forget (b e : ℕ) :
    ((c.forget b).heap e).blkno = (c.heap e).blkno := by
  unfold forget
  cases c.blockHash b with
  | none => rfl
  | some x => exact (SameKeys.markClean c x).blkno e

theorem allocated_forget (b : ℕ) :
    (c.forget b).allocated = c.allocated := by
  unfold forget
  cases c.blockHash b <;> rfl

variable {c}

theorem Keyed.forget (h : c.Keyed) (b : ℕ) : (c.forget b).Keyed where
  blkno x e hx := by
    rw [blockHash_forget] at hx
    split at hx
    · cases hx
    · rw [blkno_forget]
      exact h.blkno x e hx
  lt x e hx := by
    rw [blockHash_forget] at hx
    split at hx
    · cases hx
    · rw [allocated_forget]
      exact h.lt x e hx

section Inhabited

variable [Inhabited Block]

theorem Keyed.getBlock (h : c.Keyed) (b : ℕ) : (c.getBlock b).1.Keyed ∧
    (b ≠ 0 → (c.getBlock b).1.blockHash b = some (c.getBlock b).2) ∧
    ∀ x e, c.blockHash x = some e → (c.getBlock b).1.blockHash x = some e := by
  have hother : ∀ (entry : BlockCacheEntryK42 Block) x e, c.blockHash x = some e →
      ((c.alloc entry).heap e).blkno = x := by
    intro entry x e hx
    have hne : e ≠ c.allocated := (h.lt x e hx).ne
    show (update c.heap c.allocated entry e).blkno = x
    rw [update_of_ne hne]
    exact h.blkno x e hx
  unfold BlockCacheK42.getBlock
  by_cases hb : b = 0
  · rw [if_pos hb]
    refine ⟨⟨hother _, fun x e hx => ?_⟩, fun hne => absurd hb hne, fun _ _ hx => hx⟩
    exact (h.lt x e hx).trans (Nat.lt_succ_self _)
  · rw [if_neg hb]
    cases hfind : c.blockHash b with
    | some e => exact ⟨h, fun _ => hfind, fun _ _ hx => hx⟩
    | none =>
      refine ⟨⟨?_, ?_⟩, fun _ => update_self .., ?_⟩
      · intro x e hx
        change update c.blockHash b (some c.allocated) x = some e at hx
        revert hx
        refine Function.update_cases (fun hx => ?_) (fun x _ => hother _ x e) x
        cases hx
        show (update c.heap c.allocated (newEntry b) c.allocated).blkno = b
        rw [update_self]
        rfl
      · intro x e hx
        change update c.blockHash b (some c.allocated) x = some e at hx
        show e < c.allocated + 1
        revert hx
        refine Function.update_cases (fun hx => ?_)
          (fun x _ hx => (h.lt x e hx).trans (Nat.lt_succ_self _)) x
        cases hx
        exact Nat.lt_succ_self _
      · intro x e hx
        show update c.blockHash b (some c.allocated) x = some e
        rw [update_of_ne]
        · exact hx
        · rintro rfl
          rw [hfind] at hx
          cases hx

theorem Keyed.getBlockRead (h : c.Keyed) (b : ℕ) : (c.getBlockRead b).1.Keyed ∧
    (b ≠ 0 → (c.getBlockRead b).1.blockHash b = some (c.getBlockRead b).2) ∧
    ∀ x e, c.blockHash x = some e → (c.getBlockRead b).1.blockHash x = some e := by
  obtain ⟨hkeyed, hself, hother⟩ := h.getBlock b
  have hsame := SameKeys.readData (c.getBlock b).1 (c.getBlock b).2
  unfold BlockCacheK42.getBlockRead
  refine ⟨hsame.keyed hkeyed, ?_, ?_⟩
  · rw [hsame.hash]
    exact hself
  · rw [hsame.hash]
    exact hother

theorem Keyed.getAll {blocks : List ℕ} : ∀ {c : BlockCacheK42 Block}, c.Keyed →
    (∀ b ∈ blocks, b ≠ 0) → (c.getAll blocks).1.Keyed ∧
      List.Forall₂ (fun b e => (c.getAll blocks).1.blockHash b = some e) blocks
        (c.getAll blocks).2 ∧
      ∀ x e, c.blockHash x = some e → (c.getAll blocks).1.blockHash x = some e := by
  induction blocks with
  | nil => exact fun h _ => ⟨h, .nil, fun _ _ hx => hx⟩
  | cons b blocks ih =>
    intro c h hne
    simp only [forall_mem_cons] at hne
    obtain ⟨hkeyed, hself, hother⟩ := h.getBlockRead b
    obtain ⟨hall, hblocks, hkept⟩ := ih hkeyed hne.2
    exact ⟨hall, .cons (hkept b _ (hself hne.1)) hblocks, fun x e hx => hkept x e (hother x e hx)⟩

theorem step_keyed (h : c.Keyed) (op : Op) : (step c op).Keyed := by
  cases op with
  | getBlock b => exact (h.getBlock b).1
  | markDirty e now => exact (SameKeys.markDirty c e now).keyed h
  | markClean e => exact (SameKeys.markClean c e).keyed h
  | forget b => exact h.forget b
  | flush checkFlushTime clock fails =>
    exact (SameKeys.flush c checkFlushTime clock (succeeds fails)).keyed h

theorem run_keyed {disk : ℕ → Block} {ticks : ℕ} {ops : List Op}
    (hrun : anyCalls.Run (init disk ticks) ops c) : c.Keyed := by
  refine hrun.invariant (I := Keyed) ⟨?_, ?_⟩ ?_
  · intro b e hb
    cases hb
  · intro b e hb
    cases hb
  · intro c op h _
    exact step_keyed h op

end Inhabited

theorem exists_of_forall₂ {R : ℕ → ℕ → Prop} {blocks entries : List ℕ}
    (hall : List.Forall₂ R blocks entries) (hb : b ∈ blocks) : ∃ e, R b e := by
  induction hall with
  | nil => exact absurd hb not_mem_nil
  | cons hbe _ ih =>
    rcases mem_cons.mp hb with rfl | hb
    · exact ⟨_, hbe⟩
    · exact ih hb

theorem releaseAll_cases {blocks entries : List ℕ}
    (hblocks : List.Forall₂ (fun b e => (c.heap e).blkno = b) blocks entries)
    (hne : ∀ b ∈ blocks, b ≠ 0) :
    (∀ b ∈ blocks, c.blockHash b ≠ none) ∧ c.releaseAll entries = .ok c ∨
      (∃ b ∈ blocks, c.blockHash b = none) ∧ c.releaseAll entries = .error .fault := by
  induction hblocks with
  | nil => exact .inl ⟨fun b hb => absurd hb not_mem_nil, rfl⟩
  | @cons b e blocks entries hb _ ih =>
    simp only [forall_mem_cons] at hne
    rw [releaseAll, freeBlock, hb]
    by_cases hnone : c.blockHash b = none
    · rw [if_pos ⟨hne.1, hnone⟩]
      exact .inr ⟨⟨b, List.mem_cons_self, hnone⟩, rfl⟩
    · rw [if_neg (fun hboth => hnone hboth.2)]
      obtain ⟨hall, hok⟩ | ⟨⟨x, hx, hforgot⟩, hfault⟩ := ih hne.2
      · refine .inl ⟨?_, hok⟩
        simp only [forall_mem_cons]
        exact ⟨hnone, hall⟩
      · exact .inr ⟨⟨x, List.mem_cons_of_mem b hx, hforgot⟩, hfault⟩

end BlockCacheK42

/-! ## `freeDblk` on a cache -/

namespace PSOSmall

open BlockCacheK42

variable {Block : Type*} {p p' : PSOSmall} {F : Forest} {c : BlockCacheK42 Block}

/-- The blocks of the first loop: those that are read to get to the pointers of the path. -/
def gotten (p : PSOSmall) : Option ℕ → List ℕ → List ℕ
  | dblk, i :: j :: rest =>
    if p.ptrs dblk i = 0 then []
    else p.ptrs dblk i :: gotten p (some (p.ptrs dblk i)) (j :: rest)
  | _, _ => []

/-- The sweep of `freeDblk`. Each pointer comes with the entry of the block that it is in. -/
def sweepCached (now : ℕ) : PSOSmall → List ℕ → BlockCacheK42 Block →
    List ((Option ℕ × ℕ) × ℕ) → PSOSmall × List ℕ × BlockCacheK42 Block
  | p, freed, c, [] => (p, freed, c)
  | p, freed, c, ((dblk, i), e) :: up =>
    if p.ptrs dblk i = 0 then (p, freed, c)
    else
      let freed := freed ++ [p.ptrs dblk i]
      -- `SuperBlock::freeBlock`
      let c := c.forget (p.ptrs dblk i)
      let p := p.setPtr dblk i 0
      match dblk with
      | none => sweepCached now p freed c up
      | some b =>
        if p.used b then (p, freed, c.markDirty e now)
        else sweepCached now p freed (c.markClean e) up

/-- `freeDblk`, with the entries that it gets and releases. `blocks[0]` is `NULL`. -/
def freeDblkCached [Inhabited Block] (p : PSOSmall) (c : BlockCacheK42 Block) (lblkno now : ℕ) :
    Except Failure (PSOSmall × List ℕ × BlockCacheK42 Block) :=
  match blockToPath lblkno with
  | .error err => .error err
  | .ok offsets =>
    let (c, entries) := c.getAll (p.gotten none offsets)
    match p.cells none offsets with
    | none => (c.releaseAll entries).map fun c => (p, [], c)
    | some cs =>
      let (p, freed, c) := sweepCached now p [] c (cs.zip (0 :: entries)).reverse
      (c.releaseAll entries).map fun c => (p, freed, c)

/-- The sweep on a cache has come to the same map as the one without, and the cache has
forgotten what both have freed. -/
structure Agrees (c : BlockCacheK42 Block) (r : PSOSmall × List ℕ × BlockCacheK42 Block)
    (s : PSOSmall × List ℕ × Bool) : Prop where
  pso : r.1 = s.1
  freed : r.2.1 = s.2.1
  blkno : ∀ e, (r.2.2.heap e).blkno = (c.heap e).blkno
  hash : ∀ b, r.2.2.blockHash b = if b ∈ s.2.1 then none else c.blockHash b

theorem Agrees.forget {d d' : BlockCacheK42 Block} {freed : List ℕ} {go go' : Bool} {x : ℕ}
    (h : Agrees c (p, freed, d) (p, freed, go)) (hsame : SameKeys (d.forget x) d')
    (q : PSOSmall) : Agrees c (q, freed ++ [x], d') (q, freed ++ [x], go') where
  pso := rfl
  freed := rfl
  blkno e := by
    show (d'.heap e).blkno = (c.heap e).blkno
    rw [hsame.blkno, blkno_forget]
    exact h.blkno e
  hash b := by
    have hd : d.blockHash b = if b ∈ freed then none else c.blockHash b := h.hash b
    show d'.blockHash b = if b ∈ freed ++ [x] then none else c.blockHash b
    rw [hsame.hash, blockHash_forget, hd]
    by_cases hx : b = x
    · rw [if_pos hx, if_pos (by simp [hx])]
    · rw [if_neg hx]
      simp [hx]

theorem sweepCached_agrees (now : ℕ) {xs : List ((Option ℕ × ℕ) × ℕ)} :
    ∀ {p : PSOSmall} {freed : List ℕ} {d : BlockCacheK42 Block},
      Agrees c (p, freed, d) (p, freed, true) →
      Agrees c (sweepCached now p freed d xs) (sweepBack p freed (xs.map Prod.fst)) := by
  induction xs with
  | nil => exact fun h => h
  | cons x xs ih =>
    intro p freed d h
    obtain ⟨⟨dblk, i⟩, e⟩ := x
    rw [List.map_cons, sweepCached, sweepBack]
    by_cases hzero : p.ptrs dblk i = 0
    · rw [if_pos hzero, if_pos hzero]
      exact ⟨rfl, rfl, h.blkno, h.hash⟩
    · rw [if_neg hzero, if_neg hzero]
      cases dblk with
      | none => exact ih (h.forget (SameKeys.refl _) _)
      | some b =>
        simp only
        split
        · exact h.forget (SameKeys.markDirty _ e now) _
        · exact ih (h.forget (SameKeys.markClean _ e) _)

variable {rest : List ℕ} {l i : ℕ}

theorem cells_length : ∀ {dblk : Option ℕ} {i : ℕ} {cs : List (Option ℕ × ℕ)},
    p.cells dblk (i :: rest) = some cs →
    cs.length = (p.gotten dblk (i :: rest)).length + 1 := by
  induction rest with
  | nil =>
    intro dblk i cs hcells
    rw [cells] at hcells
    split at hcells
    · cases hcells
    · cases hcells
      rfl
  | cons j rest ih =>
    intro dblk i cs hcells
    rw [cells] at hcells
    by_cases hzero : p.ptrs dblk i = 0
    · rw [if_pos hzero] at hcells
      cases hcells
    · rw [if_neg hzero] at hcells
      obtain ⟨cs', hcells', rfl⟩ := Option.map_eq_some_iff.mp hcells
      rw [gotten, if_neg hzero, List.length_cons, List.length_cons, ih hcells']

theorem gotten_ne_zero : ∀ {dblk : Option ℕ} {i : ℕ},
    ∀ b ∈ p.gotten dblk (i :: rest), b ≠ 0 := by
  induction rest with
  | nil => exact fun b hb => absurd hb not_mem_nil
  | cons j rest ih =>
    intro dblk i b hb
    rw [gotten] at hb
    split at hb
    · exact absurd hb not_mem_nil
    · next hzero =>
        rcases mem_cons.mp hb with rfl | hb
        · exact hzero
        · exact ih b hb

/-- `freeDblk` does on the cache what it does on the blocks alone, unless a block has been freed
whose entry it holds. -/
theorem freeDblkCached_cases [Inhabited Block] (h : c.Keyed) (now : ℕ) {freed : List ℕ}
    (hpath : blockToPath l = .ok (i :: rest)) (hfree : p.freeDblk l = .ok (p', freed)) :
    (∀ b ∈ p.gotten none (i :: rest), b ∉ freed) ∧
        (∃ c', p.freeDblkCached c l now = .ok (p', freed, c')) ∨
      (∃ b ∈ p.gotten none (i :: rest), b ∈ freed) ∧
        p.freeDblkCached c l now = .error .fault := by
  have hne : ∀ b ∈ p.gotten none (i :: rest), b ≠ 0 := gotten_ne_zero
  obtain ⟨hkeyed, hgot, -⟩ := h.getAll hne
  generalize hentries : (c.getAll (p.gotten none (i :: rest))).2 = entries at hgot
  generalize hcache : (c.getAll (p.gotten none (i :: rest))).1 = d at hkeyed hgot
  have hall : c.getAll (p.gotten none (i :: rest)) = (d, entries) := Prod.ext hcache hentries
  have hfound : ∀ b ∈ p.gotten none (i :: rest), d.blockHash b ≠ none := by
    intro b hb
    obtain ⟨e, hbe⟩ := exists_of_forall₂ hgot hb
    rw [hbe]
    nofun
  rw [PSOSmall.freeDblk, hpath] at hfree
  rw [freeDblkCached, hpath]
  simp only [hall]
  simp only at hfree
  cases hcells : p.cells none (i :: rest) with
  | none =>
    rw [hcells] at hfree
    cases hfree
    have hblocks := hgot.imp fun b e hb => hkeyed.blkno b e hb
    obtain ⟨-, hok⟩ | ⟨⟨b, hb, hnone⟩, -⟩ := releaseAll_cases hblocks hne
    · exact .inl ⟨fun _ _ => not_mem_nil, d, congrArg (Except.map _) hok⟩
    · exact absurd hnone (hfound b hb)
  | some cs =>
    rw [hcells] at hfree
    have hlen : cs.length = (0 :: entries).length := by
      rw [cells_length hcells, hgot.length_eq]
      rfl
    have hagrees : Agrees d (sweepCached now p [] d (cs.zip (0 :: entries)).reverse)
        (sweepBack p [] ((cs.zip (0 :: entries)).reverse.map Prod.fst)) :=
      sweepCached_agrees now ⟨rfl, rfl, fun _ => rfl, fun _ => rfl⟩
    rw [List.map_reverse, List.map_fst_zip hlen.le] at hagrees
    obtain ⟨hpso, hfreed, hblkno, hhash⟩ := hagrees
    have hp' : (sweepBack p [] cs.reverse).1 = p' := congrArg Prod.fst (Except.ok.inj hfree)
    have hfreed' : (sweepBack p [] cs.reverse).2.1 = freed :=
      congrArg Prod.snd (Except.ok.inj hfree)
    rw [hp'] at hpso
    rw [hfreed'] at hfreed hhash
    dsimp only
    generalize sweepCached now p [] d (cs.zip (0 :: entries)).reverse = r
      at hpso hfreed hblkno hhash ⊢
    have hblocks : List.Forall₂ (fun b e => (r.2.2.heap e).blkno = b)
        (p.gotten none (i :: rest)) entries := by
      refine hgot.imp fun b e hb => ?_
      rw [hblkno]
      exact hkeyed.blkno b e hb
    have hforgot : ∀ b ∈ p.gotten none (i :: rest), r.2.2.blockHash b = none ↔ b ∈ freed := by
      intro b hb
      rw [hhash]
      split
      · next hmem => exact iff_of_true rfl hmem
      · next hmem => exact iff_of_false (hfound b hb) hmem
    obtain ⟨hkept, hok⟩ | ⟨⟨b, hb, hnone⟩, hfault⟩ := releaseAll_cases hblocks hne
    · refine .inl ⟨fun b hb hmem => hkept b hb ((hforgot b hb).mpr hmem), r.2.2, ?_⟩
      rw [hok, hpso, hfreed]
      rfl
    · refine .inr ⟨⟨b, hb, (hforgot b hb).mp hnone⟩, ?_⟩
      rw [hfault]
      rfl

theorem SlotHolds.gotten : ∀ {h : ℕ} {dblk : Option ℕ} {i : ℕ}
    {t : RadixTree ℕ h}, SlotHolds p dblk i t → rest.length = h → (∀ j ∈ rest, j < 1024) →
    p.gotten dblk (i :: rest) = along t rest := by
  induction rest with
  | nil =>
    intro h dblk i t hs hlen _
    obtain rfl : h = 0 := hlen.symm
    rw [along_zero]
    rfl
  | cons j rest ih =>
    intro h dblk i t hs hlen hlt
    obtain ⟨h, rfl⟩ : ∃ k, h = k + 1 := ⟨rest.length, hlen.symm⟩
    simp only [forall_mem_cons] at hlt
    rw [PSOSmall.gotten, hs.ptr]
    cases t with
    | empty => rfl
    | node c kids =>
      have hc : c ≠ 0 := hs.nonzero c (mem_blocks_node.mpr (.inr rfl))
      rw [root_node, if_neg hc, ih (hs.kid hlt.1) (Nat.succ.inj hlen) hlt.2]
      rfl

/-! ## What `freeDblk` is for -/

/-- The indirect blocks on the path of a block, as far as they are there. -/
def onPath (p : PSOSmall) (l : ℕ) : List ℕ :=
  match blockToPath l with
  | .error _ => []
  | .ok offsets => p.gotten none offsets

/-- Block `l` is gone and no other one, and it and the indirect blocks on its path that have
become empty are freed, each once. -/
structure FreesOne (p : PSOSmall) (l : ℕ) (p' : PSOSmall) (freed : List ℕ) : Prop where
  gone : p'.blockAt l = 0
  others : ∀ k < PSO_SMALL_MAXBLK, k ≠ l → p'.blockAt k = p.blockAt k
  once : freed.Nodup
  freed : ∀ b, b ∈ freed ↔
    (b ≠ 0 ∧ p.blockAt l = b) ∨ (b ∈ p.onPath l ∧ ∀ i < 1024, p'.disk b i = 0)

theorem Holds.onPath (h : Holds p F) (his : IsPath i rest)
    (hpath : blockToPath l = .ok (i :: rest)) : p.onPath l = along (F i) rest := by
  rw [PSOSmall.onPath, hpath]
  exact (h.slot his.slot).gotten his.length his.offsets

theorem Holds.exists_ptr (h : Holds p F) {x : ℕ} (hi : i < 28) (hx : x ∈ (F i).inner 1024) :
    ∃ j < 1024, p.disk x j ≠ 0 :=
  (h.reps i hi).exists_ne_zero (h.pruned i hi) (h.nonzero i hi) hx

theorem Holds.freesOne_absent (h : Holds p F) (his : IsPath i rest)
    (hpath : blockToPath l = .ok (i :: rest)) (hfind : find (F i) rest = 0) :
    FreesOne p l p [] where
  gone := by rw [h.blockAt his hpath, hfind]
  others _ _ _ := rfl
  once := List.nodup_nil
  freed b := by
    refine iff_of_false not_mem_nil ?_
    rintro (⟨hb, hblk⟩ | ⟨hmem, hnull⟩)
    · rw [h.blockAt his hpath, hfind] at hblk
      exact hb hblk.symm
    · rw [h.onPath his hpath] at hmem
      obtain ⟨j, hj, hne⟩ := h.exists_ptr his.slot (mem_along his.offsets hmem)
      exact hne (hnull j hj)

theorem Holds.freesOne_prune (h : Holds p F) (his : IsPath i rest)
    (hl : l < PSO_SMALL_MAXBLK) (hpath : blockToPath l = .ok (i :: rest))
    (hfind : find (F i) rest ≠ 0) (hpruned : Holds p' (update F i (prune 1024 (F i) rest).1))
    (hnull : ∀ x ∈ (F i).inner 1024, x ∉ (prune 1024 (F i) rest).1.inner 1024 →
      ∀ k < 1024, p'.disk x k = 0) : FreesOne p l p' (prune 1024 (F i) rest).2 := by
  have hperm := perm_prune (n := 1024) (F i) his.offsets
  have hnd := hperm.nodup_iff.mpr (nodup_of_flatMap h.nodup his.slot)
  constructor
  · rw [hpruned.blockAt his hpath, update_self]
    exact find_prune_self (F i) rest his.length
  · intro k hk hkl
    obtain ⟨j, rest', hpath', hjs, -⟩ := blockToPath_spec hk
    rw [hpruned.blockAt hjs hpath', h.blockAt hjs hpath']
    by_cases hji : j = i
    · subst hji
      rw [update_self]
      refine find_prune_of_ne (F j) his.length hjs.length hjs.offsets ?_
      rintro rfl
      exact hkl (blockToPath_injective hk hl (by rw [hpath, hpath']))
    · rw [update_of_ne hji]
  · exact (List.nodup_append.mp hnd).1
  · intro b
    rw [h.blockAt his hpath, h.onPath his hpath]
    constructor
    · intro hb
      obtain hmem | rfl := mem_prune (F i) hb
      · refine .inr ⟨hmem, hnull b (mem_along his.offsets hmem) ?_⟩
        intro hin
        exact (List.nodup_append.mp hnd).2.2 b hb b (mem_blocks_of_inner hin) rfl
      · exact .inl ⟨hfind, rfl⟩
    · rintro (⟨-, rfl⟩ | ⟨hmem, hzero⟩)
      · exact find_mem_prune (F i) hfind
      · refine (mem_prune_or_inner his.offsets hmem).resolve_right ?_
        intro hin
        rw [← update_self i (prune 1024 (F i) rest).1 F] at hin
        obtain ⟨j, hj, hne⟩ := hpruned.exists_ptr his.slot hin
        exact hne (hzero j hj)

/-! ## When the entries are still there -/

theorem blockToPath_sibling (hdeep : 25 ≤ l) (hl : l < PSO_SMALL_MAXBLK) :
    ∃ i path, ∀ j < 1024, 25 + (l - 25) / 1024 * 1024 + j < PSO_SMALL_MAXBLK ∧
      blockToPath (25 + (l - 25) / 1024 * 1024 + j) = .ok (i :: (path ++ [j])) ∧
      IsPath i (path ++ [j]) := by
  unfold blockToPath
  simp only [PSO_SMALL_MAXBLK, PSO_SMALL_RECORD_MAXBLK, PSO_SMALL_DIRECT_MAXBLK] at hl ⊢
  obtain ⟨m, hm⟩ : ∃ m, m = (l - 25) / 1024 := ⟨_, rfl⟩
  rw [← hm]
  by_cases h₁ : m = 0
  · refine ⟨25, [], fun j hj => ?_⟩
    have heq : 25 + m * 1024 + j = 25 + j := by omega
    rw [heq, if_neg (by omega), Nat.add_sub_cancel_left, if_pos hj]
    exact ⟨by omega, rfl, by omega, rfl, by simpa using hj⟩
  by_cases h₂ : m < 1 + 1024
  · refine ⟨26, [m - 1], fun j hj => ?_⟩
    have heq : 25 + m * 1024 + j = 25 + (1024 + ((m - 1) * 1024 + j)) := by omega
    rw [heq, if_neg (by omega), Nat.add_sub_cancel_left, if_neg (by omega)]
    rw [Nat.add_sub_cancel_left, if_pos (by omega)]
    rw [show ((m - 1) * 1024 + j) / 2 ^ 10 = m - 1 by omega,
      show ((m - 1) * 1024 + j) % 2 ^ 10 = j by omega]
    refine ⟨by omega, rfl, by omega, rfl, ?_⟩
    simp only [List.cons_append, List.nil_append, forall_mem_cons, not_mem_nil,
      false_imp_iff, implies_true, and_true]
    omega
  · refine ⟨27, [(m - 1025) / 1024, (m - 1025) % 1024], fun j hj => ?_⟩
    have heq : 25 + m * 1024 + j =
        25 + (1024 + (2 ^ 20 + ((m - 1025) * 1024 + j))) := by omega
    rw [heq, if_neg (by omega), Nat.add_sub_cancel_left, if_neg (by omega)]
    rw [Nat.add_sub_cancel_left, if_neg (by omega), Nat.add_sub_cancel_left, if_pos (by omega)]
    rw [show ((m - 1025) * 1024 + j) / 2 ^ 20 = (m - 1025) / 1024 by omega,
      show ((m - 1025) * 1024 + j) / 2 ^ 10 % 2 ^ 10 = (m - 1025) % 1024 by omega,
      show ((m - 1025) * 1024 + j) % 2 ^ 10 = j by omega]
    refine ⟨by omega, rfl, by omega, rfl, ?_⟩
    simp only [List.cons_append, List.nil_append, forall_mem_cons, not_mem_nil,
      false_imp_iff, implies_true, and_true]
    omega

/-- Another block is behind the last indirect block of the path. -/
def Shared (p : PSOSmall) (l : ℕ) : Prop :=
  ∃ k < PSO_SMALL_MAXBLK, k ≠ l ∧ 25 ≤ k ∧ (k - 25) / 1024 = (l - 25) / 1024 ∧ p.blockAt k ≠ 0

theorem Holds.lonely_iff (h : Holds p F) {path : List ℕ} (hdeep : 25 ≤ l)
    (hall : ∀ j < 1024, 25 + (l - 25) / 1024 * 1024 + j < PSO_SMALL_MAXBLK ∧
      blockToPath (25 + (l - 25) / 1024 * 1024 + j) = .ok (i :: (path ++ [j])) ∧
      IsPath i (path ++ [j])) :
    Lonely 1024 (F i) path ((l - 25) % 1024) ↔ ¬ Shared p l := by
  constructor
  · rintro hlonely ⟨k, hk, hkl, hk25, hsame, hne⟩
    have hmod : (k - 25) % 1024 < 1024 := Nat.mod_lt _ (by decide)
    obtain ⟨-, hpath, his⟩ := hall _ hmod
    have hkeq : 25 + (l - 25) / 1024 * 1024 + (k - 25) % 1024 = k := by omega
    rw [hkeq] at hpath
    rw [h.blockAt his hpath] at hne
    exact hne (hlonely _ hmod (by omega))
  · intro hshared j hj hne
    by_contra hfind
    obtain ⟨hk, hpath, his⟩ := hall j hj
    refine hshared ⟨_, hk, by omega, by omega, by omega, ?_⟩
    rw [h.blockAt his hpath]
    exact hfind

/-- `freeDblk` frees block `l` and releases what it holds exactly if there is nothing to free, or
no indirect block on the path, or one that is needed for another block. -/
theorem run_freesOne_iff [Inhabited Block] {disk : ℕ → Block} {ticks : ℕ}
    {cacheOps : List BlockCacheK42.Op} {ops : List Call}
    (hcache : anyCalls.Run (init disk ticks) cacheOps c) (hrun : calls.Run start ops p) {l : ℕ}
    (hl : l < PSO_SMALL_MAXBLK) (now : ℕ) :
    (∃ p' freed c', p.freeDblkCached c l now = .ok (p', freed, c') ∧ FreesOne p l p' freed) ↔
      p.blockAt l = 0 ∨ l < PSO_SMALL_RECORD_MAXBLK ∨ Shared p l := by
  obtain ⟨F, h⟩ := run_holds hrun
  have hkeyed := run_keyed hcache
  obtain ⟨i, rest, hpath, his, hdirect, -⟩ := blockToPath_spec hl
  have hgotten := (h.slot his.slot).gotten his.length his.offsets
  rw [h.blockAt his hpath]
  by_cases hfind : find (F i) rest = 0
  · refine iff_of_true ?_ (.inl hfind)
    obtain ⟨-, c', hok⟩ | ⟨⟨b, -, hb⟩, -⟩ := freeDblkCached_cases hkeyed now hpath
      (h.freeDblk_absent his hpath hfind)
    · exact ⟨p, [], c', hok, h.freesOne_absent his hpath hfind⟩
    · exact absurd hb not_mem_nil
  · obtain ⟨p', hfree, hpruned, hnull⟩ := h.freeDblk_prune his hpath hfind
    have hfrees := h.freesOne_prune his hl hpath hfind hpruned hnull
    have hcases := freeDblkCached_cases hkeyed now hpath hfree
    rw [hgotten] at hcases
    have hcached : (∃ p' freed c', p.freeDblkCached c l now = .ok (p', freed, c') ∧
        FreesOne p l p' freed) ↔
          ¬ ∃ x ∈ along (F i) rest, x ∈ (prune 1024 (F i) rest).2 := by
      obtain ⟨hnone, c', hok⟩ | ⟨hsome, hfault⟩ := hcases
      · refine iff_of_true ⟨p', _, c', hok, hfrees⟩ ?_
        rintro ⟨x, hx, hgone⟩
        exact hnone x hx hgone
      · refine iff_of_false ?_ (not_not.mpr hsome)
        rintro ⟨q, gone, c', hok, -⟩
        rw [hfault] at hok
        cases hok
    rw [hcached, or_iff_right hfind]
    by_cases hl25 : l < 25
    · obtain rfl : i = l := hdirect hl25
      have hnil : rest = [] := List.length_eq_zero_iff.mp (by rw [his.length]; omega)
      subst hnil
      refine iff_of_true ?_ (.inl hl25)
      rintro ⟨x, hx, -⟩
      have hin := mem_along his.offsets hx
      rw [inner_eq_nil (by omega)] at hin
      exact absurd hin not_mem_nil
    · obtain ⟨j, path, hall⟩ := blockToPath_sibling (by omega) hl
      obtain ⟨-, hpath', -⟩ := hall _ (Nat.mod_lt (l - 25) (by decide))
      have hleq : 25 + (l - 25) / 1024 * 1024 + (l - 25) % 1024 = l := by omega
      rw [hleq, hpath] at hpath'
      obtain ⟨rfl, rfl⟩ := List.cons.inj (Except.ok.inj hpath')
      rw [or_iff_right hl25, exists_along_prune_iff his.length his.offsets
        (h.nonzero i his.slot) (nodup_of_flatMap h.nodup his.slot) hfind,
        h.lonely_iff (by omega) hall, not_not]

theorem run_getDblk {fresh : List ℕ} (hl : l < PSO_SMALL_MAXBLK) (hnd : fresh.Nodup)
    (hne : ∀ x ∈ fresh, x ≠ 0) :
    calls.Run start [.getDblk l fresh] (start.step (.getDblk l fresh)) :=
  .snoc .nil ⟨hl, hnd, fun x hx => ⟨hne x hx, not_inUse_start x⟩⟩

/-- A block behind a direct pointer. -/
theorem run_freesOne_direct :
    ∃ p' freed c', (start.step (.getDblk 5 [77])).freeDblkCached (init (fun _ => 0) 1000 :
        BlockCacheK42 ℕ) 5 0 = .ok (p', freed, c') ∧
      FreesOne (start.step (.getDblk 5 [77])) 5 p' freed :=
  (run_freesOne_iff .nil (run_getDblk (by decide) (by decide) (by decide)) (by decide) 0).mpr
    (.inr (.inl (by decide)))

/-- The only block behind the indirect block `90`: both are freed, and then the entry of `90` is
looked up. -/
theorem not_freesOne_only :
    calls.Run start [.getDblk 30 [90, 91]] (start.step (.getDblk 30 [90, 91])) ∧
      (∃ p', (start.step (.getDblk 30 [90, 91])).freeDblk 30 = .ok (p', [91, 90])) ∧
      (start.step (.getDblk 30 [90, 91])).freeDblkCached (init (fun _ => 0) 1000 :
        BlockCacheK42 ℕ) 30 0 = .error .fault ∧
      ¬ ∃ p' freed c', (start.step (.getDblk 30 [90, 91])).freeDblkCached (init (fun _ => 0) 1000 :
          BlockCacheK42 ℕ) 30 0 = .ok (p', freed, c') ∧
        FreesOne (start.step (.getDblk 30 [90, 91])) 30 p' freed := by
  have hrun : calls.Run start [.getDblk 30 [90, 91]] (start.step (.getDblk 30 [90, 91])) :=
    run_getDblk (by decide) (by decide) (by decide)
  have hcache : anyCalls.Run (init (fun _ => 0) 1000 : BlockCacheK42 ℕ) []
      (init (fun _ => 0) 1000) := .nil
  have hfreed : ((start.step (.getDblk 30 [90, 91])).freeDblk 30).map Prod.snd = .ok [91, 90] := by
    decide +kernel
  obtain ⟨⟨p', freed⟩, hfree, rfl⟩ := map_eq_ok hfreed
  have hgotten : (start.step (.getDblk 30 [90, 91])).gotten none [25, 5] = [90] := by
    decide +kernel
  have hpath : blockToPath 30 = .ok [25, 5] := rfl
  have hcases := freeDblkCached_cases (run_keyed hcache) 0 hpath hfree
  rw [hgotten] at hcases
  obtain ⟨hnone, -⟩ | ⟨-, hfault⟩ := hcases
  · exact absurd (hnone 90 (by decide)) (by decide)
  · refine ⟨hrun, ⟨p', hfree⟩, hfault, ?_⟩
    rintro ⟨q, gone, c', hok, -⟩
    rw [hfault] at hok
    cases hok

end PSOSmall

end K42
