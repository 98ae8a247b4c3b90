import K42.Lib.Run
import Mathlib.Data.List.TakeDrop
import Mathlib.Tactic.Linarith

/-!
# The list of lists between the processors and the page level

`GMalloc` keeps a list of lists of free blocks. A pointer to a list carries a count
in the node field of the address, and the count in a pointer into the list of lists
is meant to be the number of lists from there on. `gFree` reads the count of the
first pointer only. When it has grown to twice the target, the rest of the list
behind the target is handed up to `PMalloc`.

The pointers of the list of lists are kept as the list of their counts and targets
here, from the front. A pointer whose word is zero is the end of the list. The lock
is held over each operation.
-/

open List (mem_cons mem_cons_self map_cons length_cons cons_ne_nil)

namespace K42

namespace GMalloc

/-- `MAX_NUMANODES`: a count is kept in as many bits as a node number. -/
abbrev MAX_NUMANODES : ℕ := 4096

/-- A block on a list, with the count that its `next` pointer carries. -/
structure AllocCell where
  addr : ℕ
  nextCount : ℕ
deriving DecidableEq

/-- A pointer into the list of lists: the count it carries and the list of blocks
that its target heads. -/
structure AllocCellPtr where
  count : ℕ
  cells : List AllocCell
deriving DecidableEq

/-- `count(cnt)`: the field takes as many bits as it has. -/
def AllocCellPtr.setCount (p : AllocCellPtr) (cnt : ℕ) : AllocCellPtr :=
  { p with count := cnt % MAX_NUMANODES }

inductive GoUp
  | DO_GO_UP | DO_NOT_GO_UP
deriving DecidableEq

end GMalloc

structure GMalloc where
  freeLists : List GMalloc.AllocCellPtr
  listSize : ℕ
  numListsTarget : ℕ
deriving DecidableEq

namespace GMalloc

/-! ## The code -/

/-- `tmp.count()` of the first pointer; a word that is zero has the count zero. -/
def firstCount : List AllocCellPtr → ℕ
  | [] => 0
  | p :: _ => p.count

/-- `tmp.count(cnt)` on the first pointer. -/
def setFirstCount (cnt : ℕ) : List AllocCellPtr → List AllocCellPtr
  | [] => []
  | p :: rest => p.setCount cnt :: rest

/-- The walk of `gFree` from `rtmp`, after `ncount` has been decremented: it returns
the lists kept and the lists to free, or `none` when it follows a null link. The
counts it sets on the way are those of its own copy of the pointer. -/
def trimWalk : ℕ → List AllocCellPtr → Option (List AllocCellPtr × List AllocCellPtr)
  | _, [] => none
  | 0, p :: lsttofree => some ([p], lsttofree)
  | ncount + 1, p :: rest => (trimWalk ncount rest).map (fun q => (p :: q.1, q.2))

/-- `gFree`, with the list handed up to `pFree`. -/
def gFree (g : GMalloc) (togfree : List AllocCell) (goUp : GoUp) :
    Option (GMalloc × List AllocCellPtr) :=
  if firstCount g.freeLists + 1 ≥ 2 * g.numListsTarget ∧ goUp = .DO_GO_UP then
    (trimWalk (g.numListsTarget - 2) g.freeLists).map (fun q =>
      ({ g with freeLists :=
          ⟨g.numListsTarget % MAX_NUMANODES, togfree⟩ ::
            setFirstCount (g.numListsTarget - 1) q.1 }, q.2))
  else
    some ({ g with freeLists :=
      ⟨(firstCount g.freeLists + 1) % MAX_NUMANODES, togfree⟩ :: g.freeLists }, [])

/-- Lists given to `gFree` one after the other, with everything handed up. -/
def gFreeAll (g : GMalloc) : List (List AllocCell) → Option (GMalloc × List AllocCellPtr)
  | [] => some (g, [])
  | togfree :: rest =>
    match g.gFree togfree .DO_GO_UP with
    | none => none
    | some (g₁, up) => (gFreeAll g₁ rest).map (fun q => (q.1, up ++ q.2))

/-- The loop of `gMalloc` that cuts the chunks it was given into lists; `partList` is
the list being made, of `lcnt` blocks. -/
def cut (lSize : ℕ) (partList : List AllocCell) (lcnt : ℕ) : List ℕ → List (List AllocCell)
  | [] => []
  | a :: next =>
    if lcnt + 1 = lSize ∨ next = [] then
      (⟨a, lcnt % MAX_NUMANODES⟩ :: partList) :: cut lSize [] 0 next
    else cut lSize (⟨a, lcnt % MAX_NUMANODES⟩ :: partList) (lcnt + 1) next

/-- The first list and its number of blocks, and what is left. -/
def pop (g : GMalloc) : Option (GMalloc × ℕ × List AllocCell) :=
  match g.freeLists with
  | ⟨_, el :: cells⟩ :: rest =>
    some ({ g with freeLists := rest }, (el.nextCount + 1) % MAX_NUMANODES, el :: cells)
  | _ => none

/-- `gMalloc`, with everything handed up meanwhile. When there is no list,
`checkForRemote` may bring the lists `remote` back through `gFree`; when there still
is none, `pMalloc` is asked for chunks and returns those at `freshChunks`. -/
def gMalloc (g : GMalloc) (remote : List (List AllocCell)) (freshChunks : List ℕ) :
    Option (GMalloc × (ℕ × List AllocCell) × List AllocCellPtr) :=
  if g.freeLists ≠ [] then g.pop.map (fun q => (q.1, q.2, []))
  else
    match g.gFreeAll remote with
    | none => none
    | some (g₁, up) =>
      if g₁.freeLists ≠ [] then g₁.pop.map (fun q => (q.1, q.2, up))
      else
        match g₁.gFreeAll (cut g₁.listSize [] 0 freshChunks) with
        | none => none
        | some (g₂, up') => g₂.pop.map (fun q => (q.1, q.2, up ++ up'))

/-! ## Operations -/

inductive Op
  | gMalloc (remote : List (List AllocCell)) (freshChunks : List ℕ)
  | gFree (togfree : List AllocCell) (goUp : GoUp)
deriving DecidableEq

/-- A call that returns, with the lists handed up. -/
def call (g : GMalloc) : Op → Option (GMalloc × List AllocCellPtr)
  | .gMalloc remote freshChunks =>
    (g.gMalloc remote freshChunks).map (fun q => (q.1, q.2.2))
  | .gFree togfree goUp => g.gFree togfree goUp

/-- What the callers and `PMalloc` promise: only lists with blocks are freed, and
`pMalloc` returns as many chunks as it is asked for. -/
def Proper (g : GMalloc) : Op → Prop
  | .gMalloc remote freshChunks =>
    (∀ l ∈ remote, l ≠ []) ∧ freshChunks.length = g.numListsTarget * g.listSize
  | .gFree togfree _ => togfree ≠ []

instance (g : GMalloc) : ∀ op, Decidable (g.Proper op)
  | .gMalloc .. => inferInstanceAs (Decidable (_ ∧ _))
  | .gFree .. => inferInstanceAs (Decidable (_ ≠ _))

/-- The call trims the list. -/
def Trims (g : GMalloc) (goUp : GoUp) : Prop :=
  firstCount g.freeLists + 1 ≥ 2 * g.numListsTarget ∧ goUp = .DO_GO_UP

instance (g : GMalloc) (goUp : GoUp) : Decidable (g.Trims goUp) :=
  inferInstanceAs (Decidable (_ ∧ _))

/-- A call of `gFree` that does not trim, or trims to two lists, with room in the
field of the count. -/
def Small (g : GMalloc) (goUp : GoUp) : Prop :=
  (g.numListsTarget = 2 ∨ ¬ g.Trims goUp) ∧ firstCount g.freeLists + 1 < MAX_NUMANODES

instance (g : GMalloc) (goUp : GoUp) : Decidable (g.Small goUp) :=
  inferInstanceAs (Decidable (_ ∧ _))

/-- The same of every call of `gFree` for the lists. -/
def AllSmall (g : GMalloc) : List (List AllocCell) → Prop
  | [] => True
  | togfree :: rest => g.Small .DO_GO_UP ∧
      match g.gFree togfree .DO_GO_UP with
      | none => False
      | some (g₁, _) => AllSmall g₁ rest

instance AllSmall.decidable : ∀ (lists : List (List AllocCell)) (g : GMalloc),
    Decidable (g.AllSmall lists)
  | [], _ => isTrue trivial
  | togfree :: rest, g =>
    match h : g.gFree togfree .DO_GO_UP with
    | none => decidable_of_iff False (by simp [AllSmall, h])
    | some (g₁, _) =>
      have := AllSmall.decidable rest g₁
      decidable_of_iff (g.Small .DO_GO_UP ∧ g₁.AllSmall rest) (by simp [AllSmall, h])

/-- Every call of `gFree` that an operation makes is small. -/
def Steady (g : GMalloc) : Op → Prop
  | .gMalloc remote _ => g.freeLists = [] → g.AllSmall remote
  | .gFree _ goUp => g.Small goUp

instance (g : GMalloc) : ∀ op, Decidable (g.Steady op)
  | .gMalloc .. => inferInstanceAs (Decidable (_ → _))
  | .gFree _ goUp => inferInstanceAs (Decidable (g.Small goUp))

/-! ## The counts -/

/-- The count of each pointer is the number of lists from there on. -/
def RightCounts : List AllocCellPtr → Prop
  | [] => True
  | p :: rest => p.count = rest.length + 1 ∧ RightCounts rest

theorem RightCounts.firstCount : ∀ {l : List AllocCellPtr}, RightCounts l →
    firstCount l = l.length
  | [], _ => rfl
  | _ :: _, h => h.1

theorem rightCounts_iff {l : List AllocCellPtr} : RightCounts l ↔
    ∀ pre p post, l = pre ++ p :: post → p.count = (p :: post).length := by
  induction l with
  | nil => simp [RightCounts]
  | cons q l ih =>
    rw [RightCounts, ih]
    constructor
    · rintro ⟨hq, hl⟩ pre p post heq
      cases pre with
      | nil =>
        obtain ⟨rfl, rfl⟩ := List.cons.inj heq
        exact hq
      | cons r pre => exact hl pre p post (List.cons.inj heq).2
    · intro h
      refine ⟨h [] q l rfl, ?_⟩
      intro pre p post heq
      exact h (q :: pre) p post (by rw [heq]; rfl)

/-- The walk follows a null link exactly when the list is too short, and otherwise
cuts it. -/
theorem trimWalk_eq : ∀ (n : ℕ) (l : List AllocCellPtr),
    trimWalk n l = if n < l.length then some (l.take (n + 1), l.drop (n + 1)) else none
  | _, [] => by simp [trimWalk]
  | 0, p :: rest => by simp [trimWalk]
  | n + 1, p :: rest => by
    rw [trimWalk, trimWalk_eq n rest]
    by_cases h : n < rest.length
    · rw [if_pos h, if_pos (by simpa using h)]
      rfl
    · rw [if_neg h, if_neg (by simpa using h)]
      rfl

/-- What a list of lists holds, without the counts. -/
def contents (l : List AllocCellPtr) : List (List AllocCell) := l.map (·.cells)

@[simp] theorem contents_append (l l' : List AllocCellPtr) :
    contents (l ++ l') = contents l ++ contents l' :=
  List.map_append

@[simp] theorem contents_setFirstCount (cnt : ℕ) (l : List AllocCellPtr) :
    contents (setFirstCount cnt l) = contents l := by
  cases l <;> rfl

/-! ## One call of `gFree` -/

variable {g : GMalloc} {togfree : List AllocCell} {goUp : GoUp}

/-- **Trimming** from right counts never follows a null link, and hands up exactly the
lists behind the target. -/
theorem gFree_trims (htarget : 2 ≤ g.numListsTarget) (hcounts : RightCounts g.freeLists)
    (ht : g.Trims goUp) :
    g.gFree togfree goUp = some
      ({ g with freeLists := ⟨g.numListsTarget % MAX_NUMANODES, togfree⟩ ::
          setFirstCount (g.numListsTarget - 1) (g.freeLists.take (g.numListsTarget - 1)) },
        g.freeLists.drop (g.numListsTarget - 1)) := by
  have hlen : g.numListsTarget - 2 < g.freeLists.length := by
    have h := ht.1
    rw [hcounts.firstCount] at h
    omega
  have hsucc : g.numListsTarget - 2 + 1 = g.numListsTarget - 1 := by omega
  have hif : g.gFree togfree goUp = (trimWalk (g.numListsTarget - 2) g.freeLists).map (fun q =>
      ({ g with freeLists := ⟨g.numListsTarget % MAX_NUMANODES, togfree⟩ ::
          setFirstCount (g.numListsTarget - 1) q.1 }, q.2)) := if_pos ht
  rw [hif, trimWalk_eq, if_pos hlen, hsucc]
  rfl

theorem gFree_adds (ht : ¬ g.Trims goUp) :
    g.gFree togfree goUp = some
      ({ g with freeLists := ⟨(firstCount g.freeLists + 1) % MAX_NUMANODES, togfree⟩ ::
          g.freeLists }, []) :=
  if_neg ht

/-- **After trimming the counts are right exactly for a target of two**: the third
list still has the count it had. -/
theorem trimmed_rightCounts_iff
    (htarget : 2 ≤ g.numListsTarget) (hroom : g.numListsTarget < MAX_NUMANODES)
    (hcounts : RightCounts g.freeLists) (ht : g.Trims goUp) :
    RightCounts (⟨g.numListsTarget % MAX_NUMANODES, togfree⟩ ::
      setFirstCount (g.numListsTarget - 1) (g.freeLists.take (g.numListsTarget - 1))) ↔
      g.numListsTarget = 2 := by
  have hlen := ht.1
  rw [hcounts.firstCount] at hlen
  generalize g.freeLists = l at *
  generalize g.numListsTarget = target at *
  obtain ⟨n, rfl⟩ : ∃ n, target = n + 2 := ⟨target - 2, by omega⟩
  have hmod : (n + 2 - 1) % MAX_NUMANODES = n + 1 := Nat.mod_eq_of_lt (by omega)
  have hmod' : (n + 2) % MAX_NUMANODES = n + 2 := Nat.mod_eq_of_lt hroom
  cases l with
  | nil => rw [List.length_nil] at hlen; omega
  | cons p rest =>
    rw [length_cons] at hlen
    have htake : setFirstCount (n + 2 - 1) ((p :: rest).take (n + 2 - 1)) =
        ⟨(n + 2 - 1) % MAX_NUMANODES, p.cells⟩ :: rest.take n := rfl
    have hlen' : (rest.take n).length = n := by
      rw [List.length_take]
      omega
    rw [htake, hmod, hmod', RightCounts, RightCounts, length_cons, hlen']
    constructor
    · rintro ⟨-, -, hrest⟩
      -- the head of the rest keeps a count that is too large
      cases n with
      | zero => rfl
      | succ n =>
        cases rest with
        | nil => rw [List.length_nil] at hlen; omega
        | cons q rest =>
          have hq : q.count = rest.length + 1 := hcounts.2.1
          have hq' : q.count = (rest.take n).length + 1 := hrest.1
          rw [List.length_take, hq] at hq'
          rw [length_cons] at hlen
          omega
    · intro h2
      obtain rfl : n = 0 := by omega
      exact ⟨rfl, rfl, trivial⟩

/-- Every list has a block. -/
def Filled (l : List AllocCellPtr) : Prop := ∀ p ∈ l, p.cells ≠ []

/-- What is kept between operations. -/
structure Inv (g : GMalloc) : Prop where
  target : 2 ≤ g.numListsTarget
  room : g.numListsTarget < MAX_NUMANODES
  listSize : 0 < g.listSize
  counts : RightCounts g.freeLists
  filled : Filled g.freeLists

/-- `g'` has the configuration of `g`, and the lists of `g` and `added` are now in
`g'` and in `up`. -/
structure Moves (g g' : GMalloc) (added : List (List AllocCell)) (up : List AllocCellPtr) :
    Prop where
  inv : Inv g'
  target : g'.numListsTarget = g.numListsTarget
  listSize : g'.listSize = g.listSize
  perm : (contents g'.freeLists ++ contents up).Perm (added ++ contents g.freeLists)
  nonempty : added ≠ [] → g'.freeLists ≠ []

/-- **A small `gFree`** keeps the counts right. -/
theorem gFree_moves (hi : Inv g) (hne : togfree ≠ []) (hs : g.Small goUp) :
    ∃ g' up, g.gFree togfree goUp = some (g', up) ∧ Moves g g' [togfree] up := by
  by_cases ht : g.Trims goUp
  · have h2 : g.numListsTarget = 2 := hs.1.resolve_right (not_not.mpr ht)
    refine ⟨_, _, gFree_trims hi.target hi.counts ht, ⟨?_, rfl, rfl, ?_, fun _ => cons_ne_nil _ _⟩⟩
    · refine ⟨hi.target, hi.room, hi.listSize,
        (trimmed_rightCounts_iff hi.target hi.room hi.counts ht).mpr h2, ?_⟩
      intro p hp
      rcases mem_cons.mp hp with rfl | hp
      · exact hne
      · rw [h2] at hp
        cases hl : g.freeLists with
        | nil => rw [hl] at hp; simp [setFirstCount] at hp
        | cons q rest =>
          rw [hl] at hp
          obtain rfl := List.mem_singleton.mp hp
          exact hi.filled q (by rw [hl]; exact mem_cons_self)
    · refine List.Perm.of_eq ?_
      simp only [contents, map_cons, List.cons_append, List.nil_append]
      have hset := contents_setFirstCount (g.numListsTarget - 1)
        (g.freeLists.take (g.numListsTarget - 1))
      simp only [contents] at hset
      rw [hset, ← List.map_append, List.take_append_drop]
  · refine ⟨_, _, gFree_adds ht, ⟨⟨hi.target, hi.room, hi.listSize, ?_, ?_⟩, rfl, rfl, ?_,
      fun _ => cons_ne_nil _ _⟩⟩
    · refine ⟨?_, hi.counts⟩
      rw [Nat.mod_eq_of_lt hs.2, hi.counts.firstCount]
    · intro p hp
      rcases mem_cons.mp hp with rfl | hp
      · exact hne
      · exact hi.filled p hp
    · simp [contents]

theorem gFreeAll_moves : ∀ {lists : List (List AllocCell)} {g : GMalloc}, Inv g →
    (∀ l ∈ lists, l ≠ []) → g.AllSmall lists →
    ∃ g' up, g.gFreeAll lists = some (g', up) ∧ Moves g g' lists up
  | [], g, hi, _, _ => ⟨g, [], rfl, hi, rfl, rfl, by simp [contents], fun h => absurd rfl h⟩
  | togfree :: rest, g, hi, hne, hs => by
    obtain ⟨g₁, up₁, hcall, hmoves⟩ := gFree_moves hi (hne togfree mem_cons_self) hs.1
    have hs' := hs.2
    rw [hcall] at hs'
    obtain ⟨g', up, hcall', hmoves'⟩ := gFreeAll_moves hmoves.inv
      (fun l hl => hne l (List.mem_cons_of_mem _ hl)) hs'
    refine ⟨g', up₁ ++ up, ?_, hmoves'.inv, hmoves'.target.trans hmoves.target,
      hmoves'.listSize.trans hmoves.listSize, ?_, fun _ => ?_⟩
    · rw [gFreeAll, hcall]
      dsimp only
      rw [hcall']
      rfl
    · rw [contents_append, List.perm_iff_count]
      intro x
      have h1 := hmoves.perm.count_eq x
      have h2 := hmoves'.perm.count_eq x
      simp only [List.count_append, List.count_cons, List.count_nil] at h1 h2 ⊢
      omega
    · cases rest with
      | nil =>
        obtain ⟨rfl, -⟩ := Prod.mk.inj (Option.some.inj hcall')
        exact hmoves.nonempty (cons_ne_nil _ _)
      | cons l rest => exact hmoves'.nonempty (cons_ne_nil _ _)

/-! ## One call of `gMalloc` -/

theorem cut_spec {lSize : ℕ} : ∀ {fresh : List ℕ} {partList : List AllocCell} {lcnt : ℕ},
    lcnt < lSize → (∀ l ∈ cut lSize partList lcnt fresh, l ≠ []) ∧
      (cut lSize partList lcnt fresh).length * lSize < lcnt + fresh.length + lSize ∧
      (fresh ≠ [] → cut lSize partList lcnt fresh ≠ [])
  | [], _, _, h => by
    refine ⟨by simp [cut], ?_, fun hc => absurd rfl hc⟩
    simp only [cut, List.length_nil]
    omega
  | a :: next, partList, lcnt, h => by
    rw [cut]
    split_ifs with hfull
    · obtain ⟨hne, hlen, -⟩ := @cut_spec lSize next [] 0 (by omega)
      refine ⟨?_, ?_, fun _ => cons_ne_nil _ _⟩
      · intro l hl
        rcases mem_cons.mp hl with rfl | hl
        · exact cons_ne_nil _ _
        · exact hne l hl
      · rcases hfull with hfull | rfl
        · rw [length_cons, length_cons, Nat.succ_mul]
          omega
        · simp only [cut, length_cons, List.length_nil]
          omega
    · have hlcnt : lcnt + 1 < lSize := by
        have : lcnt + 1 ≠ lSize := fun hc => hfull (.inl hc)
        omega
      obtain ⟨hne, hlen, hnil⟩ :=
        @cut_spec lSize next (⟨a, lcnt % MAX_NUMANODES⟩ :: partList) (lcnt + 1) hlcnt
      refine ⟨hne, ?_, fun _ => hnil (fun hc => hfull (.inr hc))⟩
      rw [length_cons]
      omega

theorem allSmall_of_length : ∀ {lists : List (List AllocCell)} {g : GMalloc}, Inv g →
    (∀ l ∈ lists, l ≠ []) → g.freeLists.length + lists.length < 2 * g.numListsTarget →
    g.freeLists.length + lists.length < MAX_NUMANODES → g.AllSmall lists
  | [], _, _, _, _, _ => trivial
  | togfree :: rest, g, hi, hne, hlen, hroom => by
    rw [length_cons] at hlen hroom
    have ht : ¬ g.Trims .DO_GO_UP := by
      rintro ⟨hc, -⟩
      rw [hi.counts.firstCount] at hc
      omega
    have hsmall : g.Small .DO_GO_UP := by
      refine ⟨.inr ht, ?_⟩
      rw [hi.counts.firstCount]
      omega
    refine ⟨hsmall, ?_⟩
    obtain ⟨g', up, hcall, hmoves⟩ := gFree_moves hi (hne togfree mem_cons_self) hsmall
    rw [hcall]
    rw [gFree_adds ht] at hcall
    obtain ⟨rfl, rfl⟩ := Prod.mk.inj (Option.some.inj hcall)
    refine allSmall_of_length hmoves.inv (fun l hl => hne l (List.mem_cons_of_mem _ hl)) ?_ ?_
    · simp only [length_cons]
      omega
    · simp only [length_cons]
      omega

/-- `g'` is `g` after the first list, with the blocks `cells`, has been taken. -/
structure Pops (g g' : GMalloc) (cells : List AllocCell) : Prop where
  inv : Inv g'
  target : g'.numListsTarget = g.numListsTarget
  listSize : g'.listSize = g.listSize
  contents : contents g.freeLists = cells :: contents g'.freeLists

theorem pop_pops (hi : Inv g) (hne : g.freeLists ≠ []) :
    ∃ g' n cells, g.pop = some (g', n, cells) ∧ Pops g g' cells := by
  cases hl : g.freeLists with
  | nil => exact absurd hl hne
  | cons p rest =>
    obtain ⟨count, cells⟩ := p
    cases cells with
    | nil => exact absurd rfl (hi.filled ⟨count, []⟩ (by rw [hl]; exact mem_cons_self))
    | cons el cells =>
      have hcounts := hi.counts
      rw [hl] at hcounts
      refine ⟨{ g with freeLists := rest }, (el.nextCount + 1) % MAX_NUMANODES, el :: cells,
        by rw [pop, hl], ⟨hi.target, hi.room, hi.listSize, hcounts.2, ?_⟩, rfl, rfl,
        by rw [hl]; rfl⟩
      intro p hp
      exact hi.filled p (by rw [hl]; exact List.mem_cons_of_mem _ hp)

/-- **A steady `gMalloc`** returns one of its lists and keeps the others: those it had
and those that came from remote frees or were cut from fresh chunks. -/
theorem gMalloc_moves {remote : List (List AllocCell)} {freshChunks : List ℕ}
    (hi : Inv g) (hp : g.Proper (.gMalloc remote freshChunks))
    (hs : g.Steady (.gMalloc remote freshChunks)) :
    ∃ g' n cells up added, g.gMalloc remote freshChunks = some (g', (n, cells), up) ∧ Inv g' ∧
      g'.numListsTarget = g.numListsTarget ∧ g'.listSize = g.listSize ∧
      (added = [] ∨ added = remote ∨
        added = cut g.listSize [] 0 freshChunks ++ remote) ∧
      (cells :: (contents g'.freeLists ++ contents up)).Perm (added ++ contents g.freeLists) := by
  unfold gMalloc
  by_cases hempty : g.freeLists = []
  · rw [if_neg (not_not.mpr hempty)]
    obtain ⟨g₁, up, hcall, hmoves⟩ := gFreeAll_moves hi hp.1 (hs hempty)
    rw [hcall]
    dsimp only
    by_cases hempty' : g₁.freeLists = []
    · rw [if_neg (not_not.mpr hempty')]
      obtain ⟨hne, hlen, hnil⟩ := @cut_spec g₁.listSize freshChunks [] 0 hmoves.inv.listSize
      have hlists : (cut g₁.listSize [] 0 freshChunks).length ≤ g₁.numListsTarget := by
        rw [hp.2, ← hmoves.target, ← hmoves.listSize, Nat.zero_add, ← Nat.succ_mul] at hlen
        have := Nat.lt_of_mul_lt_mul_right hlen
        omega
      have htarget := hmoves.inv.target
      have hroom := hmoves.inv.room
      have hsmall : g₁.AllSmall (cut g₁.listSize [] 0 freshChunks) :=
        allSmall_of_length hmoves.inv hne (by rw [hempty']; simp only [List.length_nil]; omega)
          (by rw [hempty']; simp only [List.length_nil]; omega)
      obtain ⟨g₂, up', hcall', hmoves'⟩ := gFreeAll_moves hmoves.inv hne hsmall
      have hfilled : g₂.freeLists ≠ [] := by
        refine hmoves'.nonempty (hnil ?_)
        intro hc
        have hzero := hp.2
        rw [hc, List.length_nil] at hzero
        have := Nat.mul_pos (Nat.lt_of_lt_of_le (by omega) hi.target) hi.listSize
        omega
      obtain ⟨g', n, cells, hpop, hpops⟩ := pop_pops hmoves'.inv hfilled
      rw [hcall']
      dsimp only
      rw [hpop]
      refine ⟨g', n, cells, up ++ up', _, rfl, hpops.inv,
        hpops.target.trans (hmoves'.target.trans hmoves.target),
        hpops.listSize.trans (hmoves'.listSize.trans hmoves.listSize), .inr (.inr rfl), ?_⟩
      rw [contents_append, ← hmoves.listSize, List.perm_iff_count]
      intro x
      have h1 := hmoves.perm.count_eq x
      have h2 := hmoves'.perm.count_eq x
      rw [hpops.contents] at h2
      simp only [List.count_append, List.count_cons] at h1 h2 ⊢
      omega
    · rw [if_pos hempty']
      obtain ⟨g', n, cells, hpop, hpops⟩ := pop_pops hmoves.inv hempty'
      rw [hpop]
      refine ⟨g', n, cells, up, _, rfl, hpops.inv, hpops.target.trans hmoves.target,
        hpops.listSize.trans hmoves.listSize, .inr (.inl rfl), ?_⟩
      have hperm := hmoves.perm
      rw [hpops.contents] at hperm
      exact hperm
  · rw [if_pos hempty]
    obtain ⟨g', n, cells, hpop, hpops⟩ := pop_pops hi hempty
    rw [hpop]
    refine ⟨g', n, cells, [], _, rfl, hpops.inv, hpops.target, hpops.listSize, .inl rfl, ?_⟩
    rw [hpops.contents]
    simp [contents]

/-! ## Every run -/

/-- The list of lists after a call (one that does not return has no successor). -/
def step (g : GMalloc) (op : Op) : GMalloc :=
  match g.call op with
  | none => g
  | some (g', _) => g'

/-- The runs of proper calls. -/
def calls : Machine GMalloc Op := ⟨step, Proper⟩

/-- The runs of proper calls in which every call of `gFree` is small. -/
def steadyCalls : Machine GMalloc Op := ⟨step, fun g op => g.Proper op ∧ g.Steady op⟩

instance (g : GMalloc) (op : Op) : Decidable (calls.adm g op) :=
  inferInstanceAs (Decidable (g.Proper op))

instance (g : GMalloc) (op : Op) : Decidable (steadyCalls.adm g op) :=
  inferInstanceAs (Decidable (g.Proper op ∧ g.Steady op))

/-- `init`. -/
def init (lSize nListsTarget : ℕ) : GMalloc := ⟨[], lSize, nListsTarget⟩

theorem Inv.step {op : Op} (hi : Inv g) (hp : g.Proper op) (hs : g.Steady op) :
    Inv (g.step op) ∧ (g.step op).numListsTarget = g.numListsTarget := by
  cases op with
  | gMalloc remote freshChunks =>
    obtain ⟨g', n, cells, up, added, hcall, hi', htarget, -⟩ := gMalloc_moves hi hp hs
    rw [GMalloc.step, call, hcall]
    exact ⟨hi', htarget⟩
  | gFree togfree goUp =>
    obtain ⟨g', up, hcall, hmoves⟩ := gFree_moves hi hp hs
    rw [GMalloc.step, call, hcall]
    exact ⟨hmoves.inv, hmoves.target⟩

/-- **The list of lists.** In every run in which each trimming is one to a target of
two, the count of every pointer is the number of lists from there on. The next
`gFree`, trimming or not, never follows a null link; it keeps the lists and hands up
exactly those behind the target, and if it trims the counts stay right just when
the target is two. The next `gMalloc` returns one list and loses none. -/
theorem run_counts {lSize nListsTarget : ℕ} (htarget : 2 ≤ nListsTarget)
    (hroom : nListsTarget < MAX_NUMANODES) (hsize : 0 < lSize) {ops : List Op} {g : GMalloc}
    (hrun : steadyCalls.Run (init lSize nListsTarget) ops g) :
    (∀ pre p post, g.freeLists = pre ++ p :: post → p.count = (p :: post).length) ∧
      (∀ togfree goUp, ∃ g' up, g.gFree togfree goUp = some (g', up) ∧
        contents g'.freeLists ++ contents up = togfree :: contents g.freeLists ∧
        up = (if g.Trims goUp then g.freeLists.drop (nListsTarget - 1) else []) ∧
        (g.Trims goUp → (RightCounts g'.freeLists ↔ nListsTarget = 2))) ∧
      ∀ remote freshChunks, g.Proper (.gMalloc remote freshChunks) →
        g.Steady (.gMalloc remote freshChunks) → ∃ g' n cells up added,
          g.gMalloc remote freshChunks = some (g', (n, cells), up) ∧
          (added = [] ∨ added = remote ∨ added = cut g.listSize [] 0 freshChunks ++ remote) ∧
          (cells :: (contents g'.freeLists ++ contents up)).Perm
            (added ++ contents g.freeLists) := by
  obtain ⟨hi, hT⟩ : Inv g ∧ g.numListsTarget = nListsTarget := by
    have hinit : Inv (init lSize nListsTarget) :=
      ⟨htarget, hroom, hsize, trivial, by simp [init, Filled]⟩
    refine hrun.invariant (I := fun g => Inv g ∧ g.numListsTarget = nListsTarget)
      ⟨hinit, rfl⟩ ?_
    rintro g op ⟨hi, hT⟩ ⟨hp, hs⟩
    obtain ⟨hi', hT'⟩ := hi.step hp hs
    exact ⟨hi', hT'.trans hT⟩
  refine ⟨rightCounts_iff.mp hi.counts, ?_, ?_⟩
  · intro togfree goUp
    by_cases ht : g.Trims goUp
    · refine ⟨_, _, gFree_trims hi.target hi.counts ht, ?_, by rw [if_pos ht, hT], fun _ => ?_⟩
      · rw [contents, map_cons, List.cons_append, ← contents, contents_setFirstCount,
          ← contents_append, List.take_append_drop]
      · rw [← hT]
        exact trimmed_rightCounts_iff hi.target hi.room hi.counts ht
    · refine ⟨_, _, gFree_adds ht, ?_, by rw [if_neg ht], fun hc => absurd hc ht⟩
      simp [contents]
  · intro remote freshChunks hp hs
    obtain ⟨g', n, cells, up, added, hcall, -, -, -, hadded, hperm⟩ := gMalloc_moves hi hp hs
    exact ⟨g', n, cells, up, added, hcall, hadded, hperm⟩

/-- A list of one block. -/
def single (a : ℕ) : List AllocCell := [⟨a, 0⟩]

def frees (n : ℕ) : List Op := (List.range n).map (fun a => .gFree (single a) .DO_GO_UP)

theorem run_counts_frees :
    ∃ g' up, ((frees 3).foldl steadyCalls.step (init 1 2)).gFree (single 3) .DO_GO_UP =
        some (g', up) ∧ contents up = [single 1, single 0] ∧ RightCounts g'.freeLists := by
  have hadm : steadyCalls.Admits (init 1 2) (frees 3) := by decide
  obtain ⟨-, hfree, -⟩ := run_counts (by decide) (by decide) (by decide) hadm.run
  obtain ⟨g', up, hcall, -, hup, hcounts⟩ := hfree (single 3) .DO_GO_UP
  refine ⟨g', up, hcall, by rw [hup]; decide, (hcounts (by decide)).mpr rfl⟩

/-- With a target of three the sixth list freed leaves a count of four on the last of
three lists. -/
theorem trimming_leaves_count :
    ¬ ∀ (lSize nListsTarget : ℕ), 2 ≤ nListsTarget → nListsTarget < MAX_NUMANODES → 0 < lSize →
      ∀ (ops : List Op) (g : GMalloc), calls.Run (init lSize nListsTarget) ops g →
      ∀ pre p post, g.freeLists = pre ++ p :: post → p.count = (p :: post).length := by
  intro h
  have hadm : calls.Admits (init 1 3) (frees 6) := by decide
  have hcount := h 1 3 (by decide) (by decide) (by decide) _ _ hadm.run
    [⟨3, single 5⟩, ⟨2, single 4⟩] ⟨4, single 3⟩ [] (by decide)
  exact absurd hcount (by decide)

end GMalloc

end K42
