import K42.Lib.Run
import K42.Lib.Word
import K42.Lib.BinTree
import K42.Sys.SysStatus

/-!
# The default page allocator

Free memory is kept as a tree of blocks: a search tree on the address of the
block and a heap on its size. A block is described by a `freePages` record;
unused records are chained in `freeList`, and a page of free memory is carved
into records when the chain runs out.

A pointer to a pointer (`top`) is a path in the tree. A record is named by its
address `self`; its `low` and `high` fields are the shape of the tree. Addresses
and sizes are 64-bit words. `getMoreMem` is the one of the base class, which
fails, so there is no retry.
-/

namespace K42

open MachineWord
open BinTree (Path)

namespace PageAllocatorDefault

/-! ## Data model -/

/-- A `freePages` record: its own address and the block it describes. -/
structure FreePages where
  self : ℕ
  start : ℕ
  size : ℕ
deriving DecidableEq

/-- `start + size`, as the code computes it. -/
def FreePages.bound (c : FreePages) : ℕ := add 64 c.start c.size

abbrev Tree := BinTree FreePages

/-- `PAGE_ROUND_UP`. -/
def pageRoundUp (x : ℕ) : ℕ := andNot 64 (add 64 (sub 64 x 1) PAGE_SIZE) PAGE_MASK

/-- `sizeof(freePages)`. -/
abbrev sizeofFreePages : ℕ := 32

/-- A subtree that exists and whose root is larger than `n`. -/
def largerThan (t : Tree) (n : ℕ) : Bool := t.root?.any (fun c => decide (c.size > n))

/-- A subtree that exists and whose root has at least `n`. -/
def provides (t : Tree) (n : ℕ) : Bool := t.root?.any (fun c => decide (c.size ≥ n))

/-! ## The tree -/

/-- `merge`: the addresses in `low` are all below those in `high`. -/
def merge : Tree → Tree → Tree
  | .nil, high => high
  | low, .nil => low
  | .node ll lc lh, .node hl hc hh =>
    if lc.size > hc.size then .node ll lc (merge lh (.node hl hc hh))
    else .node (merge (.node ll lc lh) hl) hc hh
termination_by low high => low.numNodes + high.numNodes
decreasing_by all_goals simp only [BinTree.numNodes]; omega

mutual
/-- The loop `findhigh` of `add`, entered with the high child of the last node
kept. Returns what stays linked there and what goes to `*top`. -/
def findhigh (nodestart : ℕ) : Tree → Tree × Tree
  | .nil => (.nil, .nil)
  | .node l next h =>
    if next.start < nodestart then
      let r := findhigh nodestart h
      (.node l next r.1, r.2)
    else
      let r := findlow nodestart l
      (r.2, .node r.1 next h)
/-- The loop `findlow`, entered with the low child of the last node kept. -/
def findlow (nodestart : ℕ) : Tree → Tree × Tree
  | .nil => (.nil, .nil)
  | .node l next h =>
    if next.start > nodestart then
      let r := findlow nodestart l
      (.node r.1 next h, r.2)
    else
      let r := findhigh nodestart h
      (r.2, .node l next r.1)
end

/-- `add`: descend to the first node that is not larger, put the new one there
and split the subtree found below it. -/
def add : Tree → FreePages → Tree
  | .nil, node => .node .nil node .nil
  | .node l cur h, node =>
    if cur.size > node.size then
      if cur.start < node.start then .node l cur (add h node)
      else .node (add l node) cur h
    else if cur.start < node.start then
      let r := findhigh node.start h
      .node (.node l cur r.1) node r.2
    else
      let r := findlow node.start l
      .node r.2 node (.node r.1 cur h)

end PageAllocatorDefault

open PageAllocatorDefault in
/-- The allocator. `carved` is history: the pages made into records. -/
structure PageAllocatorDefault where
  anchor : Tree
  freeList : List ℕ
  available : ℕ
  carved : List ℕ
deriving DecidableEq

namespace PageAllocatorDefault

/-! ## The list of unused records -/

/-- The page at `l` becomes records in front of the free list. -/
def carve (pa : PageAllocatorDefault) (l : ℕ) : PageAllocatorDefault :=
  { pa with
    freeList := (List.range (PAGE_SIZE / sizeofFreePages)).map (l + sizeofFreePages * ·) ++
      pa.freeList
    carved := l :: pa.carved }

/-- `extendFreeList`: take a page from the lowest block, or from the caller's
range `[vaddr, vaddr + size)` when the tree is empty (`getFreePagesMemory`).
Returns what is left of the range. -/
def extendFreeList (pa : PageAllocatorDefault) (vaddr size : ℕ) :
    PageAllocatorDefault × ℕ × ℕ :=
  let avail := sub 64 pa.available PAGE_SIZE
  let top := pa.anchor.lowPath
  match pa.anchor.get top with
  | .nil =>
    (carve { pa with available := avail } vaddr, MachineWord.add 64 vaddr PAGE_SIZE,
      sub 64 size PAGE_SIZE)
  | .node _ cur high =>
    if cur.size = PAGE_SIZE then
      (carve { pa with available := avail, anchor := pa.anchor.set top high,
                       freeList := [cur.self] } cur.start, vaddr, size)
    else
      let cur' := { cur with start := MachineWord.add 64 cur.start PAGE_SIZE,
                             size := sub 64 cur.size PAGE_SIZE }
      if largerThan high cur'.size then
        (carve { pa with available := avail,
                         anchor := add (pa.anchor.set top high) cur' } cur.start, vaddr, size)
      else
        (carve { pa with available := avail,
                         anchor := pa.anchor.set top (.node .nil cur' high) } cur.start,
          vaddr, size)

/-- Take a record off the free list, and extend the list when that empties it. -/
def takeRecord (pa : PageAllocatorDefault) (vaddr size : ℕ) :
    Except Failure (ℕ × PageAllocatorDefault × ℕ × ℕ) :=
  match pa.freeList with
  | [] => .error .fault
  | cur :: [] => .ok (cur, extendFreeList { pa with freeList := [] } vaddr size)
  | cur :: rest => .ok (cur, { pa with freeList := rest }, vaddr, size)

/-- `allocFromBlock`: remove `[vaddr, vaddr + size)` from the block `top` points
to. An address of `0` stands for no fragment in front. -/
def allocFromBlock (pa : PageAllocatorDefault) (top : Path) (vaddr size : ℕ) :
    Except Failure PageAllocatorDefault :=
  match pa.anchor.get top with
  | .nil => .error .fault
  | .node low cur high =>
    let pa := { pa with anchor := pa.anchor.set top (merge low high) }
    let extraaddr := if vaddr > cur.start then cur.start else 0
    let extrasize := sub 64 vaddr cur.start
    let rest := sub 64 cur.bound (MachineWord.add 64 vaddr size)
    if rest ≠ 0 then
      let after := { cur with start := MachineWord.add 64 vaddr size, size := rest }
      let pa := { pa with anchor := add pa.anchor after }
      if extraaddr ≠ 0 then
        (pa.takeRecord extraaddr extrasize).map fun r =>
          { r.2.1 with anchor := add r.2.1.anchor ⟨r.1, r.2.2.1, r.2.2.2⟩ }
      else .ok pa
    else if extraaddr ≠ 0 then
      let front := { cur with start := extraaddr, size := extrasize }
      .ok { pa with anchor := add pa.anchor front }
    else .ok { pa with freeList := cur.self :: pa.freeList }

/-! ## Initialisation -/

def init (start size : ℕ) : Except Failure PageAllocatorDefault :=
  let r := extendFreeList ⟨.nil, [], size, []⟩ start size
  match r.1.freeList with
  | [] => .error .fault
  | record :: rest =>
    .ok { r.1 with anchor := .node .nil ⟨record, r.2.1, r.2.2⟩ .nil, freeList := rest }

/-! ## Allocation -/

/-- The weight that the walk of `allocPages` lowers: rerooting moves nodes from
the low side to the high side. -/
def walkWeight : Tree → ℕ
  | .nil => 0
  | .node l _ h => 2 * walkWeight l + walkWeight h + 1

/-- The walk of `allocPages` from a subtree whose root provides `size`. Rerooting
changes the tree on the way; the path leads to the block it stops at. -/
def allocWalk (size : ℕ) : Tree → Tree × Path
  | .nil => (.nil, [])
  | .node (.node ll next lh) cur high =>
    if next.size = cur.size then allocWalk size (.node ll next (.node lh cur high))
    else if next.size ≥ size then
      let r := allocWalk size (.node ll next lh)
      (.node r.1 cur high, .low :: r.2)
    else if provides high size then
      let r := allocWalk size high
      (.node (.node ll next lh) cur r.1, .high :: r.2)
    else (.node (.node ll next lh) cur high, [])
  | .node .nil cur high =>
    if provides high size then
      let r := allocWalk size high
      (.node .nil cur r.1, .high :: r.2)
    else (.node .nil cur high, [])
termination_by t => walkWeight t
decreasing_by all_goals simp only [walkWeight]; omega

/-- `allocPages`: returns the address of the pages. -/
def allocPages (pa : PageAllocatorDefault) (size : ℕ) :
    Except Failure (PageAllocatorDefault × ℕ) :=
  let size := pageRoundUp size
  if provides pa.anchor size then
    let w := allocWalk size pa.anchor
    match w.1.get w.2 with
    | .nil => .error .fault
    | .node low cur high =>
      let rest := { cur with start := MachineWord.add 64 cur.start size,
                             size := sub 64 cur.size size }
      let pa := { pa with available := sub 64 pa.available size }
      if rest.size ≠ 0 then
        .ok ({ pa with anchor := w.1.set w.2 (add (merge low high) rest) }, cur.start)
      else
        .ok ({ pa with anchor := w.1.set w.2 (merge low high),
                       freeList := cur.self :: pa.freeList }, cur.start)
  else .error (.serror 1474 0 .ENOMEM)

/-- The search of `allocPagesAt`. -/
def findAt (vaddr size : ℕ) : Tree → Option Path
  | .nil => none
  | .node low cur high =>
    if cur.start ≤ vaddr ∧ cur.bound > vaddr then
      if MachineWord.add 64 vaddr size ≤ cur.bound then some [] else none
    else if cur.start > vaddr then (findAt vaddr size low).map (.low :: ·)
    else (findAt vaddr size high).map (.high :: ·)

def allocPagesAt (pa : PageAllocatorDefault) (vaddr size : ℕ) :
    Except Failure PageAllocatorDefault :=
  match findAt vaddr size pa.anchor with
  | none => .error (.serror 1475 0 .ENOMEM)
  | some top =>
    (pa.allocFromBlock top vaddr size).map fun pa =>
      { pa with available := sub 64 pa.available size }

/-- The address in the block that `allocPagesAligned` rounds up to. -/
def alignedAddr (start align offset : ℕ) : ℕ :=
  MachineWord.add 64
    (sub 64 (sub 64 (MachineWord.add 64 start align) offset) 1 / align * align) offset

/-- The aligned request is within the block. -/
def fitsAligned (size align offset : ℕ) (cur : FreePages) : Bool :=
  decide (MachineWord.add 64 (alignedAddr cur.start align offset) size ≤ cur.bound)

abbrev STACK_SIZE : ℕ := 64

/-- `stack[sp++] = cur`: the high subtree is left for later if there is one and
the stack has room. A stack entry is the subtree with the link to it. -/
def pushHigh (high : Tree) (top : Path) (stack : List (Tree × Path)) : List (Tree × Path) :=
  if high.numNodes ≠ 0 ∧ stack.length < STACK_SIZE then (high, top) :: stack else stack

/-- The nodes the search may still visit. -/
def pending (stack : List (Tree × Path)) : ℕ := (stack.map (·.1.numNodes)).sum

theorem pending_pushHigh_le (high : Tree) (top : Path) (stack : List (Tree × Path)) :
    pending (pushHigh high top stack) ≤ high.numNodes + pending stack := by
  unfold pushHigh
  split_ifs
  · exact le_of_eq (by simp [pending])
  · exact Nat.le_add_left _ _

/-- The search of `allocPagesAligned`, at the subtree `top` points to. -/
def searchAligned (fits : FreePages → Bool) (size : ℕ) :
    Tree → Path → List (Tree × Path) → Option Path → Option Path
  | .nil, _, _, _ => none
  | .node low cur high, top, stack, found =>
    let found' := if fits cur then some top else found
    if cur.size < size ∨ (low.numNodes = 0 ∧ high.numNodes = 0) then
      match found', stack with
      | some p, _ => some p
      | none, [] => none
      | none, (t, p) :: stack => searchAligned fits size t p stack none
    else if low.numNodes ≠ 0 then
      searchAligned fits size low (top ++ [.low]) (pushHigh high (top ++ [.high]) stack) found'
    else searchAligned fits size high (top ++ [.high]) stack found'
termination_by t _ stack _ => t.numNodes + pending stack
decreasing_by
  · simp only [pending, BinTree.numNodes, List.map_cons, List.sum_cons]
    omega
  · have := pending_pushHigh_le high (top ++ [.high]) stack
    simp only [BinTree.numNodes]
    omega
  · simp only [BinTree.numNodes]
    omega

/-- `allocPagesAligned`: the address returned is `offset` modulo `align`. -/
def allocPagesAligned (pa : PageAllocatorDefault) (size align offset : ℕ) :
    Except Failure (PageAllocatorDefault × ℕ) :=
  let size := pageRoundUp size
  match searchAligned (fitsAligned size align offset) size pa.anchor [] [] none with
  | none => .error (.serror 1476 0 .ENOMEM)
  | some top =>
    match pa.anchor.get top with
    | .nil => .error .fault
    | .node _ found _ =>
      let vaddr := alignedAddr found.start align offset
      (pa.allocFromBlock top vaddr size).map fun pa =>
        ({ pa with available := sub 64 pa.available size }, vaddr)

/-! ## Deallocation -/

/-- The block that ends where the range starts, or starts where it ends. -/
def findNeighbour (vaddr size : ℕ) : Tree → Option Path
  | .nil => none
  | .node low cur high =>
    if cur.bound = vaddr ∨ MachineWord.add 64 vaddr size = cur.start then some []
    else if vaddr < cur.start then (findNeighbour vaddr size low).map (.low :: ·)
    else (findNeighbour vaddr size high).map (.high :: ·)

/-- The enlarged block `cur` swallows the lowest block above it if it reaches it.
Returns the block, its high subtree and the record set free. -/
def coalesceHigh (cur : FreePages) (high : Tree) : FreePages × Tree × List ℕ :=
  match high.get high.lowPath with
  | .nil => (cur, high, [])
  | .node _ cur1 rest =>
    if cur.bound = cur1.start then
      ({ cur with size := MachineWord.add 64 cur.size cur1.size },
        high.set high.lowPath rest, [cur1.self])
    else (cur, high, [])

/-- The same to the left. -/
def coalesceLow (low : Tree) (cur : FreePages) : FreePages × Tree × List ℕ :=
  match low.get low.highPath with
  | .nil => (cur, low, [])
  | .node rest cur1 _ =>
    if cur1.bound = cur.start then
      ({ cur with start := cur1.start, size := MachineWord.add 64 cur.size cur1.size },
        low.set low.highPath rest, [cur1.self])
    else (cur, low, [])

/-- The label `enlarge`: a block that has outgrown its parent is reinserted. -/
def enlarge (pa : PageAllocatorDefault) (top : Path) (low : Tree) (cur : FreePages)
    (high : Tree) : PageAllocatorDefault :=
  if (pa.anchor.parent? top).any (fun parent => decide (cur.size > parent.size)) then
    { pa with anchor := add (pa.anchor.set top (merge low high)) cur }
  else { pa with anchor := pa.anchor.set top (.node low cur high) }

/-- A new block for what is left of the range; all of it may have become records. -/
def insertRange (r : ℕ × PageAllocatorDefault × ℕ × ℕ) : PageAllocatorDefault :=
  if r.2.2.2 = 0 then r.2.1
  else { r.2.1 with anchor := add r.2.1.anchor ⟨r.1, r.2.2.1, r.2.2.2⟩ }

/-- `locked_deallocPages`. -/
def deallocPages (pa : PageAllocatorDefault) (vaddr size : ℕ) :
    Except Failure PageAllocatorDefault :=
  let size := pageRoundUp size
  let pa := { pa with available := MachineWord.add 64 pa.available size }
  match findNeighbour vaddr size pa.anchor with
  | some top =>
    match pa.anchor.get top with
    | .nil => .error .fault
    | .node low cur high =>
      if cur.bound = vaddr then
        let r := coalesceHigh { cur with size := MachineWord.add 64 cur.size size } high
        .ok (enlarge { pa with freeList := r.2.2 ++ pa.freeList } top low r.1 r.2.1)
      else
        let r := coalesceLow low
          { cur with start := vaddr, size := MachineWord.add 64 cur.size size }
        .ok (enlarge { pa with freeList := r.2.2 ++ pa.freeList } top r.2.1 r.1 high)
  | none =>
    (pa.takeRecord vaddr size).map insertRange

end PageAllocatorDefault

end K42
