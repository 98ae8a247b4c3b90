import K42.Lib.RadixTree
import K42.KFS.RecordMap

/-!
# Block maps of files

The record of a file has 25 pointers to data blocks and three pointers to trees
of indirect blocks with 1024 pointers each, one, two and three levels deep. Zero
is the null pointer. `disk` holds the blocks as the block cache shows them, word
by word; the words of data blocks are whatever the file holds.

What `allocBlock` returns is given as a list; for its error code see
`GetDblk`. The locks, the dirty marks and the reference counts of the block cache are
left out.
-/

open Function (update)

namespace K42

/-- `PSO_SMALL_RECORD_MAXBLK`. -/
abbrev PSO_SMALL_RECORD_MAXBLK : ℕ := 25

/-- `PSO_SMALL_DIRECT_MAXBLK`. -/
abbrev PSO_SMALL_DIRECT_MAXBLK : ℕ := 1024

/-- The words of `recordBuf`; `dBlk` is its start. -/
abbrev RECORD_WORDS : ℕ := KFS_RECORD_SIZE / 4

structure PSOSmall where
  dBlk : ℕ → ℕ
  disk : ℕ → ℕ → ℕ

namespace PSOSmall

/-- The pointers in the record, or in an indirect block. -/
def ptrs (p : PSOSmall) : Option ℕ → ℕ → ℕ
  | none => p.dBlk
  | some b => p.disk b

/-- `dblk[i] = v`. -/
def setPtr (p : PSOSmall) (dblk : Option ℕ) (i v : ℕ) : PSOSmall :=
  match dblk with
  | none => { p with dBlk := update p.dBlk i v }
  | some b => { p with disk := update p.disk b (update (p.disk b) i v) }

/-- `memset` of a block. -/
def zeroBlock (p : PSOSmall) (b : ℕ) : PSOSmall :=
  { p with disk := update p.disk b fun _ => 0 }

/-- `blockToPath`: the offsets, as many as the depth says. -/
def blockToPath (lblkno : ℕ) : Except Failure (List ℕ) :=
  if lblkno < PSO_SMALL_RECORD_MAXBLK then .ok [lblkno]
  else
    let lblkno := lblkno - PSO_SMALL_RECORD_MAXBLK
    if lblkno < PSO_SMALL_DIRECT_MAXBLK then .ok [PSO_SMALL_RECORD_MAXBLK, lblkno]
    else
      let lblkno := lblkno - PSO_SMALL_DIRECT_MAXBLK
      if lblkno < 2 ^ 20 then
        .ok [PSO_SMALL_RECORD_MAXBLK + 1, lblkno / 2 ^ 10, lblkno % 2 ^ 10]
      else
        let lblkno := lblkno - 2 ^ 20
        if lblkno / 2 ^ 20 < PSO_SMALL_DIRECT_MAXBLK then
          .ok [PSO_SMALL_RECORD_MAXBLK + 2, lblkno / 2 ^ 20, lblkno / 2 ^ 10 % 2 ^ 10,
            lblkno % 2 ^ 10]
        else .error .passert

/-! ## Looking up and allocating -/

/-- The loop of `getDblk` from the pointers `dblk` on. `fresh` are the blocks that
`allocBlock` returns one after the other. -/
def getDblkFrom (create : Bool) : PSOSmall → Option ℕ → List ℕ → List ℕ →
    Except Failure (PSOSmall × ℕ)
  | p, _, [], _ => .ok (p, 0)
  | p, dblk, i :: rest, fresh =>
    if p.ptrs dblk i = 0 then
      if create = false then .ok (p, 0)
      else
        match fresh with
        | [] => .error .passert
        | b :: fresh =>
          let p := p.setPtr dblk i b
          if rest = [] then .ok (p, b)
          else getDblkFrom create (p.zeroBlock b) (some b) rest fresh
    else if rest = [] then .ok (p, p.ptrs dblk i)
    else getDblkFrom create p (some (p.ptrs dblk i)) rest fresh

/-- `getDblk(lblkno, create)`. -/
def getDblk (p : PSOSmall) (lblkno : ℕ) (create : Bool) (fresh : List ℕ) :
    Except Failure (PSOSmall × ℕ) :=
  match blockToPath lblkno with
  | .error e => .error e
  | .ok offsets => getDblkFrom create p none offsets fresh

/-! ## Freeing one block -/

/-- The pointers on the way to a block, if none of them is null. -/
def cells (p : PSOSmall) (dblk : Option ℕ) : List ℕ → Option (List (Option ℕ × ℕ))
  | [] => some []
  | i :: rest =>
    if p.ptrs dblk i = 0 then none
    else (cells p (some (p.ptrs dblk i)) rest).map ((dblk, i) :: ·)

/-- Some pointer of block `b` is not null. -/
def used (p : PSOSmall) (b : ℕ) : Bool :=
  (List.range PSO_SMALL_DIRECT_MAXBLK).any fun i => p.disk b i ≠ 0

/-- The sweep of `freeDblk`, deepest pointer first. It goes on to the pointer above
if a block has become empty. -/
def sweepBack : PSOSmall → List ℕ → List (Option ℕ × ℕ) → PSOSmall × List ℕ × Bool
  | p, freed, [] => (p, freed, true)
  | p, freed, (dblk, i) :: up =>
    if p.ptrs dblk i = 0 then (p, freed, false)
    else
      let freed := freed ++ [p.ptrs dblk i]
      let p := p.setPtr dblk i 0
      match dblk with
      | none => sweepBack p freed up
      | some b => if p.used b then (p, freed, false) else sweepBack p freed up

/-- `freeDblk`, with the blocks passed to `SuperBlock::freeBlock`. -/
def freeDblk (p : PSOSmall) (lblkno : ℕ) : Except Failure (PSOSmall × List ℕ) :=
  match blockToPath lblkno with
  | .error e => .error e
  | .ok offsets =>
    match p.cells none offsets with
    | none => .ok (p, [])
    | some cs =>
      let (p, freed, _) := sweepBack p [] cs.reverse
      .ok (p, freed)

/-! ## Truncation -/

/-- What `truncate` keeps in its locals. `blocks` holds block numbers, zero for
`NULL`; `dblk` points to the record or into a block. -/
structure Sweep where
  pso : PSOSmall
  freed : List ℕ
  offsets : ℕ → ℕ
  blocks : ℕ → ℕ
  depth : ℕ
  dblk : Option ℕ

/-- How many words there are at `dblk`. -/
def extent : Option ℕ → ℕ
  | none => RECORD_WORDS
  | some _ => PSO_SMALL_DIRECT_MAXBLK

namespace Sweep

/-- The end of a block: it is released, its parent's pointer cleared if it has
become empty, and the sweep goes on behind that pointer. -/
def stepBack (s : Sweep) : Option Sweep :=
  let useful := match s.dblk with
    | none => (List.range RECORD_WORDS).any fun i => s.pso.dBlk i ≠ 0
    | some b => s.pso.used b
  let depth := s.depth - 1
  let offsets := update s.offsets s.depth 0
  let blocks := update s.blocks s.depth 0
  -- a record without a pointer is read past its end, and so is a missing parent
  if s.dblk = none ∧ useful = false ∨ depth ≠ 0 ∧ blocks depth = 0 then none
  else
    let dblk := if depth = 0 then none else some (blocks depth)
    if useful = false ∧ extent dblk ≤ offsets depth then none
    else
      let next := update offsets depth (offsets depth + 1)
      if useful = false ∧ s.pso.ptrs dblk (offsets depth) ≠ 0 then
        some ⟨s.pso.setPtr dblk (offsets depth) 0,
          s.freed ++ [s.pso.ptrs dblk (offsets depth)], next, blocks, depth, dblk⟩
      else some ⟨s.pso, s.freed, next, blocks, depth, dblk⟩

/-- A pointer to data. -/
def leaf (s : Sweep) : Option Sweep :=
  if extent s.dblk ≤ s.offsets s.depth then none
  else
    let ptr := s.pso.ptrs s.dblk (s.offsets s.depth)
    let next := update s.offsets s.depth (s.offsets s.depth + 1)
    if ptr ≠ 0 then
      -- `markDirty` of the block the pointer is in
      if s.depth ≠ 0 ∧ s.blocks s.depth = 0 then none
      else
        some { s with
          pso := s.pso.setPtr s.dblk (s.offsets s.depth) 0
          freed := s.freed ++ [ptr]
          offsets := next }
    else some { s with offsets := next }

/-- A pointer to an indirect block. -/
def internal (s : Sweep) : Option Sweep :=
  if extent s.dblk ≤ s.offsets s.depth then none
  else
    let ptr := s.pso.ptrs s.dblk (s.offsets s.depth)
    if ptr ≠ 0 then
      some { s with
        offsets := update s.offsets (s.depth + 1) 0
        blocks := update s.blocks (s.depth + 1) ptr
        depth := s.depth + 1
        dblk := some ptr }
    else some { s with offsets := update s.offsets s.depth (s.offsets s.depth + 1) }

/-- One turn of the loop of `truncate`; `none` if it goes astray. -/
def step (s : Sweep) : Option Sweep :=
  if s.depth ≠ 0 ∧ s.offsets s.depth = PSO_SMALL_DIRECT_MAXBLK then s.stepBack
  else if s.offsets 0 < PSO_SMALL_RECORD_MAXBLK ∨
      s.offsets 0 + 1 - PSO_SMALL_RECORD_MAXBLK = s.depth then s.leaf
  else s.internal

/-- The loop of `truncate`, with the failure it ends in. -/
def loop : ℕ → Sweep → Sweep × Option Failure
  | 0, s => (s, some .fault)
  | fuel + 1, s =>
    if s.offsets 0 < PSO_SMALL_RECORD_MAXBLK + 3 then
      match s.step with
      | none => (s, some .fault)
      | some s' => loop fuel s'
    else (s, none)

end Sweep

/-- The first loop of `truncate`, from `offsets[i]` on: the blocks on the way, as
far as they are there. `blocks` has four places. -/
def fetch (p : PSOSmall) (depth : ℕ) : ℕ → Option ℕ → (ℕ → ℕ) → List ℕ → Option (ℕ → ℕ)
  | _, _, blocks, [] => some blocks
  | i, dblk, blocks, o :: rest =>
    if p.ptrs dblk o = 0 then some blocks
    else if depth > 1 then
      if i + 1 ≥ 4 then none
      else
        fetch p depth (i + 1) (some (p.ptrs dblk o))
          (update blocks (i + 1) (p.ptrs dblk o)) rest
    else fetch p depth (i + 1) dblk blocks rest

/-- `truncate`, with the blocks passed to `SuperBlock::freeBlock` and the failure
it ends in. The loop turns fewer than `2 ^ 40` times. -/
def truncate (p : PSOSmall) (lblkno : ℕ) : Sweep × Option Failure :=
  let start : Sweep := ⟨p, [], fun _ => 0, fun _ => 0, 0, none⟩
  match blockToPath lblkno with
  | .error e => (start, some e)
  | .ok offsets =>
    match p.fetch offsets.length 0 none (fun _ => 0) offsets with
    | none => (start, some .fault)
    | some blocks =>
      Sweep.loop (2 ^ 40) { start with
        offsets := fun i => offsets.getD i 0
        blocks := blocks
        depth := offsets.length - 1 }

end PSOSmall

end K42
