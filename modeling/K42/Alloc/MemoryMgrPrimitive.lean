import K42.Lib.Run
import K42.Lib.Word
import K42.Lib.Carving
import K42.Sys.SysStatus

/-!
# The primitive allocator of early initialization

`MemoryMgrPrimitive` hands out memory from the front of one range. What it skips
for the sake of an alignment is remembered in a small array of chunks, and a later
request may be satisfied from a chunk. Nothing is ever returned.

The chunks are kept newest first: the code fills the array from the front and
looks through it from the back. `breakpoint()` stops the system, so a call that
runs into it does not return.
-/

open List (mem_cons mem_cons_self mem_singleton not_mem_nil mem_append mem_append_right
  count_append)

namespace K42

namespace MemoryMgrPrimitive

open MachineWord Carving

/-- A range of addresses, as in the array `_savedChunk`. -/
@[ext]
structure Chunk where
  start : ℕ
  end_ : ℕ
deriving DecidableEq

/-- `MAX_SAVED_CHUNKS`. -/
abbrev MAX_SAVED_CHUNKS : ℕ := 16

def PAGE_ROUND_UP (a : ℕ) : ℕ := alignUp 64 a PAGE_SIZE

def PAGE_ROUND_DOWN (a : ℕ) : ℕ := andNot 64 a PAGE_MASK

end MemoryMgrPrimitive

/-- The first `_numSavedChunks` entries of the array are `savedChunk`. -/
structure MemoryMgrPrimitive where
  allocStart : ℕ
  allocEnd : ℕ
  allocNext : ℕ
  savedChunk : List MemoryMgrPrimitive.Chunk
  minAlign : ℕ
deriving DecidableEq

namespace MemoryMgrPrimitive

open MachineWord Carving

/-! ## The code -/

/-- `checkAlign` lets the value pass. -/
def checkAlign (value : ℕ) : Prop := PAGE_ROUND_DOWN value = value

instance (value : ℕ) : Decidable (checkAlign value) :=
  inferInstanceAs (Decidable (PAGE_ROUND_DOWN value = value))

def rememberChunk (m : MemoryMgrPrimitive) (start end_ : ℕ) :
    Except Failure MemoryMgrPrimitive :=
  if ¬ checkAlign start then .error .passert
  else if ¬ checkAlign end_ then .error .passert
  else if start > end_ then .error .passert
  else if m.savedChunk.length ≥ MAX_SAVED_CHUNKS then .error .passert
  else .ok { m with savedChunk := ⟨start, end_⟩ :: m.savedChunk }

def recoverSpace (m : MemoryMgrPrimitive) (start end_ : ℕ) :
    Except Failure MemoryMgrPrimitive :=
  if add 64 (PAGE_ROUND_UP start) PAGE_SIZE < PAGE_ROUND_DOWN end_ then
    m.rememberChunk (PAGE_ROUND_UP start) (PAGE_ROUND_DOWN end_)
  else .ok m

def init (allocstart allocend minalign : ℕ) : Except Failure MemoryMgrPrimitive :=
  if ¬ checkAlign allocstart then .error .passert
  else if ¬ checkAlign allocend then .error .passert
  else .ok ⟨allocstart, allocend, allocstart, [], minalign⟩

/-- The loop of `retrieveChunk`: entries of length zero are treated as not existing. -/
def retrieveLoop : List Chunk → List Chunk × Option Chunk
  | [] => ([], none)
  | c :: rest => if c.end_ > c.start then (rest, some c) else retrieveLoop rest

def retrieveChunk (m : MemoryMgrPrimitive) : MemoryMgrPrimitive × Option Chunk :=
  ({ m with savedChunk := (retrieveLoop m.savedChunk).1 }, (retrieveLoop m.savedChunk).2)

/-- `((next + (align - offset - 1)) & ~(align - 1)) + offset`. -/
def place (next align offset : ℕ) : ℕ :=
  add 64 (andNot 64 (add 64 next (sub 64 (sub 64 align offset) 1)) (sub 64 align 1)) offset

/-- `align < minAlign ? minAlign : align`. -/
def effAlign (m : MemoryMgrPrimitive) (align : ℕ) : ℕ :=
  if align < m.minAlign then m.minAlign else align

/-- `alloc`, with the pointer it returns. -/
def alloc (m : MemoryMgrPrimitive) (size align offset : ℕ) :
    Except Failure (MemoryMgrPrimitive × ℕ) :=
  let align := m.effAlign align
  if offset ≥ align then .error .passert
  else
    let ptr := place m.allocNext align offset
    let size := alignUp 64 size m.minAlign
    if add 64 ptr size > m.allocEnd then .error .passert
    else
      match m.recoverSpace m.allocNext ptr with
      | .error e => .error e
      | .ok m => .ok ({ m with allocNext := add 64 ptr size }, ptr)

/-- The walk of `allocFromChunks`. Returns the pointer, the chunks with the end or
the start of one of them moved, and what is then given to `recoverSpace`. -/
def chunkWalk (size align offset : ℕ) : List Chunk → Option (ℕ × List Chunk × Option Chunk)
  | [] => none
  | c :: rest =>
    let ptr := place c.start align offset
    if add 64 ptr size > c.end_ then
      (chunkWalk size align offset rest).map (fun p => (p.1, c :: p.2.1, p.2.2))
    else if ptr > c.start then
      -- the tail starts behind `ptr + start` here, not behind `ptr + size`
      some (ptr, { c with end_ := ptr } :: rest, some ⟨add 64 ptr c.start, c.end_⟩)
    else some (ptr, { c with start := add 64 ptr size } :: rest, none)

/-- `allocFromChunks`, with the pointer it returns. -/
def allocFromChunks (m : MemoryMgrPrimitive) (size align offset : ℕ) :
    Except Failure (MemoryMgrPrimitive × ℕ) :=
  let align := m.effAlign align
  if offset ≥ align then .error (.serror 2875 0 .ENOMEM)
  else
    match chunkWalk size align offset m.savedChunk with
    | none => .error (.serror 2875 0 .ENOMEM)
    | some (ptr, chunks, none) => .ok ({ m with savedChunk := chunks }, ptr)
    | some (ptr, chunks, some tail) =>
      match ({ m with savedChunk := chunks } : MemoryMgrPrimitive).recoverSpace
          tail.start tail.end_ with
      | .error e => .error e
      | .ok m => .ok (m, ptr)

def allocNextPage (m : MemoryMgrPrimitive) : MemoryMgrPrimitive × ℕ :=
  ({ m with allocNext := alignUp 64 m.allocNext PAGE_SIZE }, alignUp 64 m.allocNext PAGE_SIZE)

/-- `(_allocEnd - ptr) & ~(align - 1)`. -/
def restSize (m : MemoryMgrPrimitive) (ptr align : ℕ) : ℕ :=
  andNot 64 (sub 64 m.allocEnd ptr) (sub 64 align 1)

/-- `allocAll` from the pointer on. -/
def allocRest (m : MemoryMgrPrimitive) (ptr align : ℕ) :
    Except Failure (MemoryMgrPrimitive × ℕ × ℕ) :=
  match m.recoverSpace m.allocNext ptr with
  | .error e => .error e
  | .ok m₁ =>
    match m₁.recoverSpace (add 64 ptr (m₁.restSize ptr align)) m₁.allocEnd with
    | .error e => .error e
    | .ok m₂ => .ok ({ m₂ with allocNext := m₂.allocEnd }, ptr, m₁.restSize ptr align)

/-- `allocAll`, with the pointer and the size it returns. -/
def allocAll (m : MemoryMgrPrimitive) (align offset : ℕ) :
    Except Failure (MemoryMgrPrimitive × ℕ × ℕ) :=
  if offset ≥ align then .error .passert
  else m.allocRest (place m.allocNext align offset) align

/-! ## Calls and what they leave aside -/

/-- The calls that take memory. -/
inductive Op
  | alloc (size align offset : ℕ)
  | allocFromChunks (size align offset : ℕ)
  | allocNextPage
  | allocAll (align offset : ℕ)
  | retrieveChunk
deriving DecidableEq

/-- A call that returns, with the range it hands out. -/
def call (m : MemoryMgrPrimitive) : Op → Except Failure (MemoryMgrPrimitive × Option Chunk)
  | .alloc size align offset =>
    (m.alloc size align offset).map (fun p => (p.1, some ⟨p.2, p.1.allocNext⟩))
  | .allocFromChunks size align offset =>
    (m.allocFromChunks size align offset).map
      (fun p => (p.1, some ⟨p.2, add 64 p.2 size⟩))
  | .allocNextPage => .ok (m.allocNextPage.1, none)
  | .allocAll align offset =>
    (m.allocAll align offset).map (fun p => (p.1, some ⟨p.2.1, add 64 p.2.1 p.2.2⟩))
  | .retrieveChunk => .ok m.retrieveChunk

/-- The chunk that a request is satisfied from: the newest that it fits into. -/
def fittingChunk (m : MemoryMgrPrimitive) (size align offset : ℕ) : Option Chunk :=
  m.savedChunk.find? (fun c => place c.start (m.effAlign align) offset + size ≤ c.end_)

/-- The stretches of memory that a call skips or splits off: between what was free
and the range handed out, and behind it where nothing else is taken from there. -/
def stretches (m : MemoryMgrPrimitive) : Op → List Chunk
  | .alloc _ align offset => [⟨m.allocNext, place m.allocNext (m.effAlign align) offset⟩]
  | .allocFromChunks size align offset =>
    match m.fittingChunk size align offset with
    | none => []
    | some c =>
      let ptr := place c.start (m.effAlign align) offset
      [⟨c.start, ptr⟩, ⟨ptr + size, c.end_⟩]
  | .allocNextPage => []
  | .allocAll align offset =>
    let ptr := place m.allocNext align offset
    let size := (m.allocEnd - ptr) / align * align
    [⟨m.allocNext, ptr⟩, ⟨ptr + size, m.allocEnd⟩]
  | .retrieveChunk => []

/-- The whole pages of a range. -/
def wholePages (c : Chunk) : Chunk :=
  ⟨(c.start + PAGE_MASK) / PAGE_SIZE * PAGE_SIZE, c.end_ / PAGE_SIZE * PAGE_SIZE⟩

/-- A stretch that has at least two whole pages has them in a saved chunk. -/
def Saved (m : MemoryMgrPrimitive) (c : Chunk) : Prop :=
  (wholePages c).start + 2 * PAGE_SIZE ≤ (wholePages c).end_ →
    ∃ s ∈ m.savedChunk, s.start ≤ (wholePages c).start ∧ (wholePages c).end_ ≤ s.end_

/-! ## Which calls fit -/

/-- There is an aligned place for the block in `[next, end_)`. -/
def FitsIn (next end_ size align offset : ℕ) : Prop :=
  (∃ k < 64, align = 2 ^ k) ∧ offset < align ∧
    ∃ y, next ≤ y ∧ y % align = offset ∧ y + size ≤ end_

/-- The size `alloc` takes for a request: rounded up to the minimal alignment. -/
def takenSize (m : MemoryMgrPrimitive) (size : ℕ) : ℕ :=
  (size + (m.minAlign - 1)) / m.minAlign * m.minAlign

/-- Alignments are powers of two, and what `alloc` and `allocAll` are asked for fits into the
remaining range. -/
def Fits (m : MemoryMgrPrimitive) : Op → Prop
  | .alloc size align offset =>
    FitsIn m.allocNext m.allocEnd (m.takenSize size) (m.effAlign align) offset
  | .allocFromChunks _ align _ => ∃ k < 64, m.effAlign align = 2 ^ k
  | .allocNextPage => True
  | .allocAll align offset => FitsIn m.allocNext m.allocEnd 0 align offset
  | .retrieveChunk => True

/-- What `recoverSpace` remembers. -/
def recovered (start end_ : ℕ) : Option Chunk :=
  if add 64 (PAGE_ROUND_UP start) PAGE_SIZE < PAGE_ROUND_DOWN end_ then
    some ⟨PAGE_ROUND_UP start, PAGE_ROUND_DOWN end_⟩
  else none

/-- For a request to the chunks no sum wraps, and the tail that is given to
`recoverSpace` is worth what the right tail is worth. -/
def TailRight (m : MemoryMgrPrimitive) : Op → Prop
  | .allocFromChunks size align offset =>
    m.allocEnd + m.effAlign align + size ≤ UVAL ∧
      ∀ c, m.fittingChunk size align offset = some c →
        c.start < place c.start (m.effAlign align) offset →
        recovered (add 64 (place c.start (m.effAlign align) offset) c.start) c.end_ =
          recovered (place c.start (m.effAlign align) offset + size) c.end_
  | _ => True

/-! ## Rounding -/

variable {a next offset end_ size align ptr lo hi : ℕ} {m m' : MemoryMgrPrimitive}

theorem PAGE_ROUND_DOWN_eq (ha : a < 2 ^ 64) : PAGE_ROUND_DOWN a = a / 4096 * 4096 :=
  andNot_two_pow (k := 12) ha (by omega)

theorem PAGE_ROUND_UP_eq (ha : a + 4095 < 2 ^ 64) :
    PAGE_ROUND_UP a = (a + 4095) / 4096 * 4096 := by
  have h := alignUp_two_pow (w := 64) (k := 12) (a := a) (by omega) (by omega)
  rw [if_pos (by omega)] at h
  exact h

theorem saved_iff (m : MemoryMgrPrimitive) (c : Chunk) :
    m.Saved c ↔ ((c.start + 4095) / 4096 * 4096 + 2 * 4096 ≤ c.end_ / 4096 * 4096 →
      ∃ s ∈ m.savedChunk, s.start ≤ (c.start + 4095) / 4096 * 4096 ∧
        c.end_ / 4096 * 4096 ≤ s.end_) :=
  Iff.rfl

theorem place_eq {k : ℕ} (hk : k < 64) (ho : offset < 2 ^ k)
    (hsum : next + (2 ^ k - offset - 1) < 2 ^ 64)
    (hend : (next + (2 ^ k - offset - 1)) / 2 ^ k * 2 ^ k + offset < 2 ^ 64) :
    place next (2 ^ k) offset = (next + (2 ^ k - offset - 1)) / 2 ^ k * 2 ^ k + offset := by
  have hpow : 2 ^ k < 2 ^ 64 := Nat.pow_lt_pow_right (by omega) hk
  have h1 : sub 64 (2 ^ k) offset = 2 ^ k - offset := sub_of_le hpow ho.le
  have h2 : sub 64 (2 ^ k - offset) 1 = 2 ^ k - offset - 1 := sub_of_le (by omega) (by omega)
  have h3 : sub 64 (2 ^ k) 1 = 2 ^ k - 1 := sub_of_le hpow (Nat.two_pow_pos k)
  rw [place, h1, h2, h3, add_of_lt hsum, andNot_two_pow hsum hk.le, add_of_lt hend]

/-- Rounding an address so that it leaves the remainder `offset`. -/
theorem round_spec (ho : offset < a) :
    next ≤ (next + (a - offset - 1)) / a * a + offset ∧
      (next + (a - offset - 1)) / a * a + offset < next + a ∧
      ((next + (a - offset - 1)) / a * a + offset) % a = offset := by
  have hdm := Nat.div_add_mod (next + (a - offset - 1)) a
  have hmod := Nat.mod_lt (next + (a - offset - 1)) (show 0 < a by omega)
  rw [Nat.mul_comm] at hdm
  refine ⟨by omega, by omega, ?_⟩
  rw [Nat.mul_add_mod_self_right]
  exact Nat.mod_eq_of_lt ho

theorem round_le {y : ℕ} (ho : offset < a) (hy : next ≤ y) (hmod : y % a = offset) :
    (next + (a - offset - 1)) / a * a + offset ≤ y := by
  have hdm := Nat.div_add_mod y a
  rw [Nat.mul_comm, hmod] at hdm
  have hdiv : (next + (a - offset - 1)) / a ≤ y / a := by
    rw [Nat.div_le_iff_le_mul_add_pred (show 0 < a by omega), Nat.mul_comm]
    omega
  have := Nat.mul_le_mul_right a hdiv
  omega

/-- **The place of a block that fits** is the first aligned address, as a number. -/
theorem FitsIn.place (h : FitsIn next end_ size align offset) (hend : end_ < UVAL) :
    next ≤ MemoryMgrPrimitive.place next align offset ∧
      MemoryMgrPrimitive.place next align offset + size ≤ end_ := by
  obtain ⟨⟨k, hk, rfl⟩, ho, y, hy, hmod, hfit⟩ := h
  have hle := round_le ho hy hmod
  obtain ⟨h1, h2, -⟩ := @round_spec (2 ^ k) next offset ho
  have hylt : y < 2 ^ 64 := lt_of_le_of_lt (by omega) hend
  -- `y` and `2 ^ 64` are apart by at least what is left of the alignment
  have hroom : y + (2 ^ k - offset) ≤ 2 ^ 64 := by
    have hdm := Nat.div_add_mod y (2 ^ k)
    rw [hmod] at hdm
    have hdvd : 2 ^ k ∣ 2 ^ 64 - 2 ^ k * (y / 2 ^ k) :=
      Nat.dvd_sub (Nat.pow_dvd_pow 2 hk.le) (Nat.dvd_mul_right _ _)
    have := Nat.le_of_dvd (by omega) hdvd
    omega
  rw [place_eq hk ho (by omega) (by omega)]
  omega

theorem place_spec {k : ℕ} (hk : k < 64) (ho : offset < 2 ^ k) (hroom : next + 2 ^ k ≤ UVAL) :
    next ≤ place next (2 ^ k) offset ∧ place next (2 ^ k) offset < next + 2 ^ k := by
  obtain ⟨h1, h2, -⟩ := @round_spec (2 ^ k) next offset ho
  change next + 2 ^ k ≤ 2 ^ 64 at hroom
  rw [place_eq hk ho (by omega) (by omega)]
  exact ⟨h1, h2⟩

/-! ## What is recovered -/

theorem recoverSpace_eq (m : MemoryMgrPrimitive) (start end_ : ℕ) :
    m.recoverSpace start end_ =
      match recovered start end_ with
      | none => .ok m
      | some c => m.rememberChunk c.start c.end_ := by
  unfold recoverSpace recovered
  split_ifs <;> rfl

/-- **Recovery.** At most one chunk is added, inside of the stretch; it has the whole
pages when there are two of them. -/
theorem recoverSpace_spec {start : ℕ} (hle : start ≤ end_)
    (hend : end_ + 4096 ≤ 2 ^ 64) (h : m.recoverSpace start end_ = .ok m') :
    ∃ saved : List Chunk, m' = { m with savedChunk := saved ++ m.savedChunk } ∧
      saved.Pairwise (Apart Chunk.start Chunk.end_) ∧
      (∀ c ∈ saved, Within Chunk.start Chunk.end_ c ⟨start, end_⟩) ∧ m'.Saved ⟨start, end_⟩ := by
  have hup : PAGE_ROUND_UP start = (start + 4095) / 4096 * 4096 := PAGE_ROUND_UP_eq (by omega)
  have hdown : PAGE_ROUND_DOWN end_ = end_ / 4096 * 4096 := PAGE_ROUND_DOWN_eq (by omega)
  unfold recoverSpace rememberChunk at h
  split_ifs at h with h1 h2 h3 h4 h5
  · obtain rfl := Except.ok.inj h
    refine ⟨[⟨PAGE_ROUND_UP start, PAGE_ROUND_DOWN end_⟩], rfl, List.pairwise_singleton _ _,
      ?_, (saved_iff _ _).mpr fun _ => ⟨_, mem_cons_self, ?_⟩⟩
    · intro c hc
      obtain rfl := mem_singleton.mp hc
      rw [hup, hdown] at h4 ⊢
      refine ⟨?_, ?_, ?_⟩ <;> dsimp only <;> omega
    · exact ⟨hup.le, hdown.ge⟩
  · obtain rfl := Except.ok.inj h
    refine ⟨[], rfl, List.Pairwise.nil, by simp, (saved_iff _ _).mpr fun htwo => absurd ?_ h1⟩
    dsimp only at htwo
    rw [hup, hdown, add_of_lt (by change _ + 4096 < 2 ^ 64; omega)]
    change _ + 4096 < _
    omega

/-! ## What each call takes -/

/-- The remaining range. -/
def remaining (m : MemoryMgrPrimitive) : Chunk := ⟨m.allocNext, m.allocEnd⟩

/-- The memory that is still in the allocator. -/
def free (m : MemoryMgrPrimitive) : List Chunk := m.savedChunk ++ [m.remaining]

/-- The free memory is in order, and ends a page below the top of the address space. -/
structure Bounded (m : MemoryMgrPrimitive) : Prop where
  ordered : ∀ c ∈ m.free, c.start ≤ c.end_ ∧ c.end_ ≤ m.allocEnd
  allocEnd : m.allocEnd + 4096 ≤ 2 ^ 64
  pageEnd : m.allocEnd % 4096 = 0
  minAlign : ∃ j < 64, m.minAlign = 2 ^ j

theorem Bounded.allocNext_le (hb : Bounded m) :
    m.allocNext ≤ m.allocEnd :=
  (hb.ordered m.remaining (mem_append_right _ mem_cons_self)).1

/-- From `m` to `m'` one piece of free memory is carved up into what is handed out,
if anything, and what stays. -/
structure Takes (m m' : MemoryMgrPrimitive) (handed : Option Chunk) : Prop where
  allocEnd : m'.allocEnd = m.allocEnd
  minAlign : m'.minAlign = m.minAlign
  carved : Carved Chunk.start Chunk.end_ m.free (handed.toList ++ m'.free)

theorem Saved.mono {c : Chunk} (h : m.Saved c)
    (hsub : m.savedChunk ⊆ m'.savedChunk) : m'.Saved c := by
  intro htwo
  obtain ⟨s, hs, hin⟩ := h htwo
  exact ⟨s, hsub hs, hin⟩

theorem free_perm (m : MemoryMgrPrimitive) : m.free.Perm (m.remaining :: m.savedChunk) :=
  List.perm_append_singleton _ _

theorem takenSize_eq (hmin : ∃ j < 64, m.minAlign = 2 ^ j)
    (hlt : m.takenSize size < 2 ^ 64) : alignUp 64 size m.minAlign = m.takenSize size := by
  obtain ⟨j, hj, hmin⟩ := hmin
  unfold takenSize at *
  rw [hmin] at hlt ⊢
  have hpos := Nat.two_pow_pos j
  -- the sum that is rounded down does not reach a multiple it is not rounded to
  have hsum : size + (2 ^ j - 1) < 2 ^ 64 := by
    by_contra hc
    have hdvd : 2 ^ 64 / 2 ^ j * 2 ^ j = 2 ^ 64 :=
      Nat.div_mul_cancel (Nat.pow_dvd_pow 2 hj.le)
    have := Nat.mul_le_mul_right (2 ^ j) (Nat.div_le_div_right (c := 2 ^ j) (Nat.le_of_not_lt hc))
    omega
  rw [alignUp_two_pow hj (by omega), if_pos hsum]

/-- **`alloc`** carves the remaining range. -/
theorem alloc_takes (hb : Bounded m)
    (hfit : m.Fits (.alloc size align offset)) (h : m.alloc size align offset = .ok (m', ptr)) :
    Takes m m' (some ⟨ptr, m'.allocNext⟩) ∧
      m'.Saved ⟨m.allocNext, place m.allocNext (m.effAlign align) offset⟩ := by
  have hend := hb.allocEnd
  obtain ⟨hlo, hhi⟩ := FitsIn.place hfit (by change _ < 2 ^ 64; omega)
  have hsize : alignUp 64 size m.minAlign = m.takenSize size :=
    takenSize_eq hb.minAlign (by omega)
  unfold alloc at h
  dsimp only at h
  rw [if_neg (Nat.not_le.mpr hfit.2.1), hsize, add_of_lt (by omega), if_neg (by omega)] at h
  generalize place m.allocNext (m.effAlign align) offset = p at *
  generalize m.takenSize size = taken at *
  cases hrec : m.recoverSpace m.allocNext p with
  | error e => rw [hrec] at h; cases h
  | ok m₁ =>
    rw [hrec] at h
    obtain ⟨rfl, rfl⟩ := Prod.mk.inj (Except.ok.inj h)
    obtain ⟨saved, rfl, hpair, hin, hsaved⟩ := recoverSpace_spec hlo (by omega) hrec
    refine ⟨⟨rfl, rfl, m.remaining, m.savedChunk,
      saved ++ [⟨p, p + taken⟩, ⟨p + taken, m.allocEnd⟩],
      (free_perm m).symm.subperm, ?_, ?_, ?_⟩, hsaved.mono (List.Subset.refl _)⟩
    · refine List.perm_iff_count.mpr ?_
      intro x
      simp only [free, remaining, Option.toList_some, count_append, List.count_cons, List.count_nil]
      omega
    · refine pairwise_append_of_le p hpair ?_ (fun c hc => (hin c hc).2.2) ?_
      · exact List.pairwise_pair.mpr (apart_of_le le_rfl)
      · simp
    · intro c hc
      rcases mem_append.mp hc with hc | hc
      · exact (hin c hc).trans ⟨le_rfl, hlo, by simp only [remaining]; omega⟩
      · simp only [mem_cons, not_mem_nil, or_false] at hc
        rcases hc with rfl | rfl
        · refine ⟨hlo, ?_, ?_⟩ <;> simp only [remaining] <;> omega
        · refine ⟨?_, ?_, le_rfl⟩ <;> simp only [remaining] <;> omega

/-- The chunks below the top of the address space by an alignment and a size: the walk
takes the newest chunk that the request fits into. -/
theorem chunkWalk_spec {k size offset : ℕ} (hk : k < 64) (ho : offset < 2 ^ k) :
    ∀ {l l' : List Chunk} {ptr : ℕ} {tail : Option Chunk},
    (∀ c ∈ l, c.start + 2 ^ k + size ≤ 2 ^ 64) →
    chunkWalk size (2 ^ k) offset l = some (ptr, l', tail) → ∃ pre c post,
      l = pre ++ c :: post ∧
      l.find? (fun c => place c.start (2 ^ k) offset + size ≤ c.end_) = some c ∧
      ptr = place c.start (2 ^ k) offset ∧ c.start ≤ ptr ∧ ptr + size ≤ c.end_ ∧
      (c.start < ptr ∧ l' = pre ++ ⟨c.start, ptr⟩ :: post ∧
          tail = some ⟨add 64 ptr c.start, c.end_⟩ ∨
        ptr = c.start ∧ l' = pre ++ ⟨ptr + size, c.end_⟩ :: post ∧ tail = none)
  | [], _, _, _, _, h => by simp [chunkWalk] at h
  | c :: rest, l', ptr, tail, hroom, h => by
    have hc := hroom c mem_cons_self
    have hpos := Nat.two_pow_pos k
    obtain ⟨hle, hlt⟩ : c.start ≤ place c.start (2 ^ k) offset ∧
        place c.start (2 ^ k) offset < c.start + 2 ^ k :=
      place_spec hk ho (by change _ ≤ 2 ^ 64; omega)
    rw [chunkWalk, add_of_lt (by omega)] at h
    split_ifs at h with h1 h2
    · obtain ⟨⟨ptr', l'', tail'⟩, hr, hp⟩ := Option.map_eq_some_iff.mp h
      simp only [Prod.mk.injEq] at hp
      obtain ⟨rfl, rfl, rfl⟩ := hp
      obtain ⟨pre, x, post, rfl, hfind, hptr, hx⟩ := chunkWalk_spec hk ho
        (fun y hy => hroom y (List.mem_cons_of_mem _ hy)) hr
      refine ⟨c :: pre, x, post, rfl, ?_, hptr, hx.1, hx.2.1, ?_⟩
      · rw [List.find?_cons_of_neg (by simpa using h1)]
        exact hfind
      · rcases hx.2.2 with ⟨h3, rfl, h4⟩ | ⟨h3, rfl, h4⟩
        · exact .inl ⟨h3, rfl, h4⟩
        · exact .inr ⟨h3, rfl, h4⟩
    · obtain ⟨rfl, hp⟩ := Prod.mk.inj (Option.some.inj h)
      obtain ⟨rfl, rfl⟩ := Prod.mk.inj hp
      have hfit : place c.start (2 ^ k) offset + size ≤ c.end_ := by omega
      exact ⟨[], c, rest, rfl, List.find?_cons_of_pos (by simpa using hfit), rfl, hle, hfit,
        .inl ⟨h2, rfl, rfl⟩⟩
    · obtain ⟨rfl, hp⟩ := Prod.mk.inj (Option.some.inj h)
      obtain ⟨rfl, rfl⟩ := Prod.mk.inj hp
      have hfit : place c.start (2 ^ k) offset + size ≤ c.end_ := by omega
      exact ⟨[], c, rest, rfl, List.find?_cons_of_pos (by simpa using hfit), rfl, hle, hfit,
        .inr ⟨by omega, rfl, rfl⟩⟩

theorem recoverSpace_congr {b : ℕ} (h : recovered a end_ = recovered b end_) :
    m.recoverSpace a end_ = m.recoverSpace b end_ := by
  rw [recoverSpace_eq, recoverSpace_eq, h]

/-- **`allocFromChunks`** carves the chunk that the request fits into, when the tail is
right. -/
theorem allocFromChunks_takes (hb : Bounded m) (hfit : m.Fits (.allocFromChunks size align offset))
    (htail : m.TailRight (.allocFromChunks size align offset))
    (h : m.allocFromChunks size align offset = .ok (m', ptr)) :
    Takes m m' (some ⟨ptr, add 64 ptr size⟩) ∧
      ∀ c ∈ m.stretches (.allocFromChunks size align offset), m'.Saved c := by
  obtain ⟨k, hk, hal⟩ := hfit
  obtain ⟨hroom, htail⟩ := htail
  have hend := hb.allocEnd
  have hstretches : m.stretches (.allocFromChunks size align offset) =
      match m.savedChunk.find? (fun c => place c.start (2 ^ k) offset + size ≤ c.end_) with
      | none => []
      | some c => [⟨c.start, place c.start (2 ^ k) offset⟩,
          ⟨place c.start (2 ^ k) offset + size, c.end_⟩] := by
    rw [← hal]
    rfl
  rw [hstretches]
  unfold allocFromChunks at h
  dsimp only at h
  unfold fittingChunk at htail
  rw [hal] at h hroom htail
  change m.allocEnd + 2 ^ k + size ≤ 2 ^ 64 at hroom
  split_ifs at h with ho
  have hbounds : ∀ c ∈ m.savedChunk, c.start ≤ c.end_ ∧ c.end_ ≤ m.allocEnd :=
    fun c hc => hb.ordered c (List.mem_append_left _ hc)
  cases hw : chunkWalk size (2 ^ k) offset m.savedChunk with
  | none => rw [hw] at h; cases h
  | some p =>
    obtain ⟨ptr', chunks, tail⟩ := p
    obtain ⟨pre, c, post, hl, hfind, hptr, hlo, hhi, hcases⟩ := chunkWalk_spec hk
      (Nat.lt_of_not_le ho) (fun c hc => by have := hbounds c hc; omega) hw
    have hc := hbounds c (by rw [hl]; exact mem_append_right _ mem_cons_self)
    have hsum : add 64 ptr' size = ptr' + size := add_of_lt (by omega)
    have hfree : (c :: (pre ++ post ++ [m.remaining])).Subperm m.free := by
      rw [free, hl, List.append_assoc, List.append_assoc]
      exact List.perm_middle.symm.subperm
    rw [hfind] at htail ⊢
    rw [hw] at h
    rcases hcases with ⟨hlt, rfl, rfl⟩ | ⟨heq, rfl, rfl⟩
    · have hrecovered := htail c rfl (by rw [← hptr]; exact hlt)
      rw [← hptr] at hrecovered
      dsimp only at h
      rw [recoverSpace_congr hrecovered] at h
      cases hrec : ({ m with savedChunk := pre ++ ⟨c.start, ptr'⟩ :: post } :
          MemoryMgrPrimitive).recoverSpace (ptr' + size) c.end_ with
      | error e => rw [hrec] at h; cases h
      | ok m₁ =>
        rw [hrec] at h
        obtain ⟨rfl, rfl⟩ := Prod.mk.inj (Except.ok.inj h)
        obtain ⟨saved, rfl, hpair, hin, hsaved⟩ := recoverSpace_spec hhi (by omega) hrec
        rw [hsum]
        constructor
        · refine ⟨rfl, rfl, c, pre ++ post ++ [m.remaining],
            [⟨c.start, ptr'⟩, ⟨ptr', ptr' + size⟩] ++ saved, hfree, ?_, ?_, ?_⟩
          · refine List.perm_iff_count.mpr ?_
            intro x
            simp only [free, remaining, Option.toList_some, count_append,
              List.count_cons, List.count_nil]
            omega
          · refine pairwise_append_of_le (ptr' + size) ?_ hpair ?_ (fun s hs => (hin s hs).1)
            · exact List.pairwise_pair.mpr (apart_of_le le_rfl)
            · simp
          · intro s hs
            rcases mem_append.mp hs with hs | hs
            · simp only [mem_cons, not_mem_nil, or_false] at hs
              rcases hs with rfl | rfl
              · exact ⟨le_rfl, hlo, by dsimp only; omega⟩
              · exact ⟨hlo, Nat.le_add_right _ _, hhi⟩
            · exact (hin s hs).trans ⟨by dsimp only; omega, hhi, le_rfl⟩
        · intro s hs
          dsimp only at hs
          rw [← hptr] at hs
          simp only [mem_cons, not_mem_nil, or_false] at hs
          rcases hs with rfl | rfl
          · -- the front stays in the chunk
            rw [saved_iff]
            intro _
            exact ⟨⟨c.start, ptr'⟩, by simp, by dsimp only; omega, Nat.div_mul_le_self _ _⟩
          · exact hsaved
    · obtain ⟨rfl, rfl⟩ := Prod.mk.inj (Except.ok.inj h)
      rw [hsum]
      constructor
      · refine ⟨rfl, rfl, c, pre ++ post ++ [m.remaining],
          [⟨ptr', ptr' + size⟩, ⟨ptr' + size, c.end_⟩], hfree, ?_, ?_, ?_⟩
        · refine List.perm_iff_count.mpr ?_
          intro x
          simp only [free, remaining, Option.toList_some, count_append,
            List.count_cons, List.count_nil]
          omega
        · exact List.pairwise_pair.mpr (apart_of_le le_rfl)
        · intro s hs
          simp only [mem_cons, not_mem_nil, or_false] at hs
          rcases hs with rfl | rfl
          · exact ⟨hlo, Nat.le_add_right _ _, hhi⟩
          · exact ⟨by dsimp only; omega, hhi, le_rfl⟩
      · intro s hs
        dsimp only at hs
        rw [← hptr] at hs
        simp only [mem_cons, not_mem_nil, or_false] at hs
        rcases hs with rfl | rfl
        · -- nothing is skipped
          refine (saved_iff _ _).mpr fun htwo => ?_
          dsimp only at htwo
          omega
        · rw [saved_iff]
          intro _
          exact ⟨⟨ptr' + size, c.end_⟩, by simp, by dsimp only; omega, Nat.div_mul_le_self _ _⟩

theorem allocRest_ok {p : ℕ} (h : m.allocRest p align = .ok (m', ptr, size)) :
    ∃ m₁ m₂, m.recoverSpace m.allocNext p = .ok m₁ ∧
      m₁.recoverSpace (add 64 p (m₁.restSize p align)) m₁.allocEnd = .ok m₂ ∧
      m' = { m₂ with allocNext := m₂.allocEnd } ∧ ptr = p ∧ size = m₁.restSize p align := by
  rw [allocRest] at h
  split at h
  · cases h
  · rename_i m₁ hrec
    split at h
    · cases h
    · rename_i m₂ hrec'
      simp only [Except.ok.injEq, Prod.mk.injEq] at h
      exact ⟨m₁, m₂, hrec, hrec', h.1.symm, h.2.1.symm, h.2.2.symm⟩

/-- **`allocAll`** carves the remaining range up completely. -/
theorem allocAll_takes (hb : Bounded m) (hfit : m.Fits (.allocAll align offset))
    (h : m.allocAll align offset = .ok (m', ptr, size)) :
    Takes m m' (some ⟨ptr, add 64 ptr size⟩) ∧
      ∀ c ∈ m.stretches (.allocAll align offset), m'.Saved c := by
  have hend := hb.allocEnd
  obtain ⟨hlo, hhi⟩ := FitsIn.place hfit (by change _ < 2 ^ 64; omega)
  rw [Nat.add_zero] at hhi
  obtain ⟨⟨k, hk, rfl⟩, ho, -⟩ := hfit
  have hstretches : m.stretches (.allocAll (2 ^ k) offset) =
      [⟨m.allocNext, place m.allocNext (2 ^ k) offset⟩, ⟨place m.allocNext (2 ^ k) offset +
          (m.allocEnd - place m.allocNext (2 ^ k) offset) / 2 ^ k * 2 ^ k, m.allocEnd⟩] := rfl
  rw [hstretches]
  rw [allocAll, if_neg (Nat.not_le.mpr ho)] at h
  obtain ⟨m₁, m₂, hrec, hrec', rfl, rfl, rfl⟩ := allocRest_ok h
  obtain ⟨front, rfl, hpair, hin, hsaved⟩ := recoverSpace_spec hlo (by omega) hrec
  generalize place m.allocNext (2 ^ k) offset = p at *
  -- the size that the code computes
  have hpow : 2 ^ k < 2 ^ 64 := Nat.pow_lt_pow_right (by omega) hk
  have hsub : sub 64 m.allocEnd p = m.allocEnd - p := sub_of_le (by omega) hhi
  have hmask : sub 64 (2 ^ k) 1 = 2 ^ k - 1 := sub_of_le hpow (Nat.two_pow_pos k)
  have hrest : restSize { m with savedChunk := front ++ m.savedChunk } p (2 ^ k) =
      (m.allocEnd - p) / 2 ^ k * 2 ^ k := by
    rw [restSize, hsub, hmask, andNot_two_pow (by omega) hk.le]
  have hsize := Nat.div_mul_le_self (m.allocEnd - p) (2 ^ k)
  rw [hrest] at hrec' ⊢
  generalize (m.allocEnd - p) / 2 ^ k * 2 ^ k = taken at *
  have hsum : add 64 p taken = p + taken := add_of_lt (by omega)
  rw [hsum] at hrec' ⊢
  obtain ⟨back, rfl, hpair', hin', hsaved'⟩ := recoverSpace_spec (by omega) hend hrec'
  constructor
  · refine ⟨rfl, rfl, m.remaining, m.savedChunk,
      front ++ ([⟨p, p + taken⟩] ++ (back ++ [⟨m.allocEnd, m.allocEnd⟩])),
      (free_perm m).symm.subperm, ?_, ?_, ?_⟩
    · refine List.perm_iff_count.mpr ?_
      intro x
      simp only [free, remaining, Option.toList_some, count_append, List.count_cons, List.count_nil]
      omega
    · refine pairwise_append_of_le p hpair ?_ (fun c hc => (hin c hc).2.2) ?_
      · refine pairwise_append_of_le (p + taken) (List.pairwise_singleton _ _) ?_
          (by simp) ?_
        · exact pairwise_append_of_le m.allocEnd hpair' (List.pairwise_singleton _ _)
            (fun c hc => (hin' c hc).2.2) (by simp)
        · intro c hc
          rcases mem_append.mp hc with hc | hc
          · exact (hin' c hc).1
          · obtain rfl := mem_singleton.mp hc
            dsimp only
            omega
      · intro c hc
        simp only [mem_append, mem_singleton] at hc
        rcases hc with rfl | hc | rfl
        · exact le_rfl
        · exact (Nat.le_add_right p taken).trans (hin' c hc).1
        · dsimp only
          omega
    · intro c hc
      simp only [mem_append, mem_singleton] at hc
      rcases hc with hc | rfl | hc | rfl
      · exact (hin c hc).trans ⟨le_rfl, hlo, by simp only [remaining]; omega⟩
      · refine ⟨hlo, ?_, ?_⟩ <;> simp only [remaining] <;> omega
      · refine (hin' c hc).trans ⟨?_, ?_, le_rfl⟩ <;> simp only [remaining] <;> omega
      · exact ⟨hb.allocNext_le, le_rfl, le_rfl⟩
  · intro c hc
    simp only [mem_cons, not_mem_nil, or_false] at hc
    rcases hc with rfl | rfl
    · exact hsaved.mono (fun c hc => mem_append_right _ hc)
    · exact hsaved'

theorem retrieveLoop_spec (l : List Chunk) :
    match retrieveLoop l with
    | (rest, some c) => (c :: rest).Sublist l
    | (rest, none) => rest = [] := by
  induction l with
  | nil => rfl
  | cons c l ih =>
    rw [retrieveLoop]
    split_ifs with hc
    · exact List.Sublist.refl _
    · generalize retrieveLoop l = p at ih ⊢
      obtain ⟨rest, _ | c'⟩ := p
      · exact ih
      · exact ih.trans (List.sublist_cons_self c l)

theorem retrieveChunk_takes (hb : Bounded m) :
    Takes m m.retrieveChunk.1 m.retrieveChunk.2 := by
  have hspec := retrieveLoop_spec m.savedChunk
  unfold retrieveChunk
  generalize retrieveLoop m.savedChunk = p at hspec ⊢
  obtain ⟨rest, _ | c⟩ := p
  · -- nothing is left but the remaining range
    obtain rfl := hspec
    refine ⟨rfl, rfl, m.remaining, [], [m.remaining], ?_, List.Perm.refl _,
      List.pairwise_singleton _ _, ?_⟩
    · exact (List.sublist_append_right m.savedChunk [m.remaining]).subperm
    · intro c hc
      obtain rfl := mem_singleton.mp hc
      exact ⟨le_rfl, hb.allocNext_le, le_rfl⟩
  · have hmem : c ∈ m.savedChunk := hspec.subset mem_cons_self
    have hc := hb.ordered c (List.mem_append_left _ hmem)
    refine ⟨rfl, rfl, c, rest ++ [m.remaining], [c], ?_, List.Perm.refl _,
      List.pairwise_singleton _ _, ?_⟩
    · exact (hspec.append_right [m.remaining]).subperm
    · intro x hx
      obtain rfl := mem_singleton.mp hx
      exact ⟨le_rfl, hc.1, le_rfl⟩

theorem allocNextPage_takes (hb : Bounded m) :
    Takes m m.allocNextPage.1 none := by
  have hend := hb.allocEnd
  have hpage := hb.pageEnd
  have hle := hb.allocNext_le
  have hup : alignUp 64 m.allocNext PAGE_SIZE = (m.allocNext + 4095) / 4096 * 4096 :=
    PAGE_ROUND_UP_eq (by omega)
  refine ⟨rfl, rfl, m.remaining, m.savedChunk, [⟨alignUp 64 m.allocNext PAGE_SIZE, m.allocEnd⟩],
    (free_perm m).symm.subperm, free_perm _, List.pairwise_singleton _ _, ?_⟩
  intro c hc
  obtain rfl := mem_singleton.mp hc
  rw [hup]
  refine ⟨?_, ?_, le_rfl⟩ <;> simp only [remaining] <;> omega

/-- **One call** carves one piece of the free memory, and what it leaves aside is
saved. -/
theorem call_takes {op : Op} {r : Option Chunk} (hb : Bounded m)
    (hfit : m.Fits op) (htail : m.TailRight op) (h : m.call op = .ok (m', r)) :
    Takes m m' r ∧ ∀ c ∈ m.stretches op, m'.Saved c := by
  cases op with
  | alloc size align offset =>
    obtain ⟨⟨m₁, ptr⟩, hcall, hp⟩ := map_eq_ok h
    obtain ⟨rfl, rfl⟩ := Prod.mk.inj hp
    obtain ⟨htakes, hsaved⟩ := alloc_takes hb hfit hcall
    refine ⟨htakes, ?_⟩
    intro c hc
    obtain rfl := mem_singleton.mp hc
    exact hsaved
  | allocFromChunks size align offset =>
    obtain ⟨⟨m₁, ptr⟩, hcall, hp⟩ := map_eq_ok h
    obtain ⟨rfl, rfl⟩ := Prod.mk.inj hp
    exact allocFromChunks_takes hb hfit htail hcall
  | allocNextPage =>
    obtain ⟨rfl, rfl⟩ := Prod.mk.inj (Except.ok.inj h)
    exact ⟨allocNextPage_takes hb, by simp [stretches]⟩
  | allocAll align offset =>
    obtain ⟨⟨m₁, ptr, size⟩, hcall, hp⟩ := map_eq_ok h
    obtain ⟨rfl, rfl⟩ := Prod.mk.inj hp
    exact allocAll_takes hb hfit hcall
  | retrieveChunk =>
    have hp : m.retrieveChunk = (m', r) := Except.ok.inj h
    obtain ⟨rfl, rfl⟩ := Prod.mk.inj hp
    exact ⟨retrieveChunk_takes hb, by simp [stretches]⟩

/-! ## Every run -/

/-- The allocator with the ranges it has handed out. -/
structure Ledger where
  mgr : MemoryMgrPrimitive
  handed : List Chunk
deriving DecidableEq

/-- A call that fails hands out nothing (one that stops the system has no successor). -/
def Ledger.step (L : Ledger) (op : Op) : Ledger :=
  match L.mgr.call op with
  | .error _ => L
  | .ok (m, r) => ⟨m, r.toList ++ L.handed⟩

/-- The ranges handed out, the saved chunks and the remaining range. -/
def Ledger.parts (L : Ledger) : List Chunk := L.handed ++ L.mgr.free

/-- Runs of calls that fit. -/
def calls : Machine Ledger Op := ⟨Ledger.step, fun L op => L.mgr.Fits op⟩

/-- Runs of calls that fit and in which the tails of chunks are right. -/
def soundCalls : Machine Ledger Op :=
  ⟨Ledger.step, fun L op => L.mgr.Fits op ∧ L.mgr.TailRight op⟩

/-- The parts are disjoint and inside the range given to `init`. -/
structure Ledger.Inv (lo hi : ℕ) (L : Ledger) : Prop where
  allocEnd : L.mgr.allocEnd = hi
  pageEnd : hi % 4096 = 0 ∧ hi + 4096 ≤ 2 ^ 64
  minAlign : ∃ j < 64, L.mgr.minAlign = 2 ^ j
  apart : L.parts.Pairwise (Apart Chunk.start Chunk.end_)
  within : ∀ c ∈ L.parts, Within Chunk.start Chunk.end_ c ⟨lo, hi⟩

theorem Ledger.Inv.bounded {L : Ledger} (h : L.Inv lo hi) : Bounded L.mgr where
  ordered := by
    intro c hc
    have hin := h.within c (mem_append_right _ hc)
    rw [h.allocEnd]
    exact hin.2
  allocEnd := by rw [h.allocEnd]; exact h.pageEnd.2
  pageEnd := by rw [h.allocEnd]; exact h.pageEnd.1
  minAlign := h.minAlign

/-- **Step.** A sound call keeps the parts disjoint and inside the range. -/
theorem Ledger.Inv.step {L : Ledger} {op : Op} (h : L.Inv lo hi)
    (hfit : L.mgr.Fits op) (htail : L.mgr.TailRight op) : (L.step op).Inv lo hi := by
  unfold Ledger.step
  cases hcall : L.mgr.call op with
  | error e => exact h
  | ok p =>
    obtain ⟨m, r⟩ := p
    obtain ⟨⟨hend, hmin, hcarved⟩, -⟩ := call_takes h.bounded hfit htail hcall
    have hparts : Carved Chunk.start Chunk.end_ L.parts
        (r.toList ++ L.handed ++ m.free) := by
      refine (hcarved.append_left L.handed).perm ?_
      rw [← List.append_assoc]
      exact List.perm_append_comm.append_right m.free
    exact ⟨hend.trans h.allocEnd, h.pageEnd, by rw [hmin]; exact h.minAlign,
      hparts.pairwise h.apart, hparts.within h.within⟩

theorem init_inv {j : ℕ} (hle : lo ≤ hi) (hhi : hi < UVAL)
    (hj : j < 64) (h : init lo hi (2 ^ j) = .ok m) : (⟨m, []⟩ : Ledger).Inv lo hi := by
  unfold init at h
  split_ifs at h with h1 h2
  obtain rfl := Except.ok.inj h
  have hpage : hi / 4096 * 4096 = hi := by
    rw [← PAGE_ROUND_DOWN_eq hhi]
    exact h2
  change hi < 2 ^ 64 at hhi
  refine ⟨rfl, ⟨by omega, by omega⟩, ⟨j, hj, rfl⟩, List.pairwise_singleton _ _, ?_⟩
  intro c hc
  obtain rfl := mem_singleton.mp hc
  exact ⟨le_rfl, hle, le_rfl⟩

/-- **The primitive allocator.** After `init(start, end)`, in every run of calls that fit
in which the tails of chunks are right, the ranges handed out, the saved chunks and the
remaining range are disjoint and inside `[start, end)`, and of every stretch that a call
skips or splits off two or more whole pages are in a saved chunk. -/
theorem run_disjoint_and_saved {lo hi j : ℕ} {m : MemoryMgrPrimitive} (hle : lo ≤ hi)
    (hhi : hi < UVAL) (hj : j < 64) (hinit : init lo hi (2 ^ j) = .ok m) {ops : List Op}
    {L : Ledger} (hrun : soundCalls.Run ⟨m, []⟩ ops L) :
    L.parts.Pairwise (Apart Chunk.start Chunk.end_) ∧
      (∀ c ∈ L.parts, lo ≤ c.start ∧ c.start ≤ c.end_ ∧ c.end_ ≤ hi) ∧
      ∀ op, soundCalls.adm L op → ∀ m' r, L.mgr.call op = .ok (m', r) →
        ∀ c ∈ L.mgr.stretches op, m'.Saved c := by
  have hinv : L.Inv lo hi := by
    refine hrun.invariant (I := Ledger.Inv lo hi) (init_inv hle hhi hj hinit) ?_
    rintro L op hL ⟨hfit, htail⟩
    exact hL.step hfit htail
  refine ⟨hinv.apart, hinv.within, ?_⟩
  rintro op ⟨hfit, htail⟩ m' r hcall
  exact (call_takes hinv.bounded hfit htail hcall).2

/-- The allocator for `[0x10000, 0x40000)`. -/
def small : MemoryMgrPrimitive := ⟨0x10000, 0x40000, 0x10000, [], 8⟩

/-- A block at `0x20000`; what is in front of it becomes a chunk. -/
def skipping : Op := .alloc 0x1000 0x20000 0

theorem skipping_fits : soundCalls.adm ⟨small, []⟩ skipping :=
  ⟨⟨⟨17, by decide, by decide⟩, by decide, 0x20000, by decide, by decide, by decide⟩, trivial⟩

theorem run_disjoint_and_saved_small :
    (Ledger.parts ⟨⟨0x10000, 0x40000, 0x21000, [⟨0x12000, 0x20000⟩], 8⟩,
        [⟨0x10000, 0x12000⟩, ⟨0x20000, 0x21000⟩]⟩).Pairwise (Apart Chunk.start Chunk.end_) := by
  have hfirst : soundCalls.Run ⟨small, []⟩ [skipping] _ := Machine.Run.nil.snoc skipping_fits
  -- the request starts where the chunk does
  have hnext : soundCalls.adm (soundCalls.step ⟨small, []⟩ skipping)
      (.allocFromChunks 0x2000 0x1000 0) := by
    refine ⟨⟨12, by decide, by decide⟩, by decide, ?_⟩
    intro c hc hlt
    have hchunk : fittingChunk (soundCalls.step ⟨small, []⟩ skipping).mgr 0x2000 0x1000 0 =
        some ⟨0x10000, 0x20000⟩ := by decide
    obtain rfl := Option.some.inj (hchunk.symm.trans hc)
    exact absurd hlt (by decide)
  have hinit : init 0x10000 0x40000 (2 ^ 3) = .ok small := rfl
  exact (run_disjoint_and_saved (by decide) (by decide) (by decide) hinit (hfirst.snoc hnext)).1

/-- A request whose block lies in the middle of a chunk: 13 pages behind it are lost. -/
theorem allocFromChunks_loses_tail :
    ¬ ∀ (lo hi j : ℕ) (m : MemoryMgrPrimitive), lo ≤ hi → hi < UVAL → j < 64 →
      init lo hi (2 ^ j) = .ok m → ∀ (ops : List Op) (L : Ledger), calls.Run ⟨m, []⟩ ops L →
      L.parts.Pairwise (Apart Chunk.start Chunk.end_) ∧
        (∀ c ∈ L.parts, lo ≤ c.start ∧ c.start ≤ c.end_ ∧ c.end_ ≤ hi) ∧
        ∀ op, calls.adm L op → ∀ m' r, L.mgr.call op = .ok (m', r) →
          ∀ c ∈ L.mgr.stretches op, m'.Saved c := by
  intro h
  have hrun : calls.Run ⟨small, []⟩ [skipping] _ := Machine.Run.nil.snoc skipping_fits.1
  obtain ⟨-, -, hsaved⟩ := h 0x10000 0x40000 3 small (by decide) (by decide) (by decide) rfl
    _ _ hrun
  obtain ⟨s, hs, h1, h2⟩ := hsaved (.allocFromChunks 0x1000 0x4000 0x2000)
    ⟨14, by decide, by decide⟩ ⟨0x10000, 0x40000, 0x21000, [⟨0x10000, 0x12000⟩], 8⟩
    (some ⟨0x12000, 0x13000⟩) (by decide) ⟨0x13000, 0x20000⟩ (by decide) (by decide)
  obtain rfl := mem_singleton.mp hs
  exact absurd h2 (by decide)

end MemoryMgrPrimitive

end K42
