import K42.KFS.Directory

/-!
# A directory is a finite map

Every name that is bound has one live record, in one block. A search goes through
all blocks from wherever its hint says, so it finds that record; the calls that
change the directory change the records of one block.
-/

open Function (update)
open List (mem_cons mem_append map_cons map_append mem_map)

namespace K42

open Bytes

namespace LSOBasicDir

variable {buf : Buffer} {fname : List UInt8} {pre post rs : List Rec} {r : Rec} {otok : ℕ}

/-! ## Searching a directory -/

/-- The blocks of the directory hold `recs`; there are `n` of them. -/
structure Holds (dir : Dir) (n : ℕ) (recs : ℕ → List Rec) : Prop where
  size : dir.size = n * OS_BLOCK_SIZE
  chain : ∀ i, Chain (dir.blocks i) (recs i)
  beyond : ∀ i, n ≤ i → recs i = []

variable {dir : Dir} {n i : ℕ} {recs : ℕ → List Rec}

theorem Holds.blocksInFile (h : Holds dir n recs) : dir.blocksInFile = n := by
  unfold Dir.blocksInFile
  rw [h.size]
  simp only [OS_BLOCK_SIZE]
  omega

/-- The name is not in block `i`. -/
def Absent (recs : ℕ → List Rec) (fname : List UInt8) (i : ℕ) : Prop :=
  ∀ r ∈ recs i, ¬Names fname r

/-- The first record for the name in block `i` is `r`. -/
structure First (recs : ℕ → List Rec) (fname : List UInt8) (i : ℕ) (pre : List Rec) (r : Rec)
    (post : List Rec) : Prop where
  split : recs i = pre ++ r :: post
  before : ∀ q ∈ pre, ¬Names fname q
  names : Names fname r

variable {start fuel n i j : ℕ}

theorem Holds.matchFrom_found (h : Holds dir n recs) (hfirst : First recs fname i pre r post) :
    dir.matchFrom fname start (fuel + 1) i = .ok (some ⟨i, total pre, prevOf 0 none pre⟩) := by
  have hchain := h.chain i
  rw [hfirst.split] at hchain
  have hroom := ((seg_append.mp hchain.seg).2).room
  have hid : getOtokID (dir.blocks i) (total pre) = r.id := congrArg Rec.id hchain.recordAt_eq
  have hlen : getReclen (dir.blocks i) (total pre) = r.reclen :=
    congrArg Rec.reclen hchain.recordAt_eq
  rw [Dir.matchFrom, hchain.matchBlock_found hfirst.before hfirst.names]
  simp only
  rw [if_pos]
  rw [hid, hlen]
  exact ⟨hfirst.names.1, by omega⟩

theorem Holds.matchFrom_absent (h : Holds dir n recs) (habsent : Absent recs fname i) :
    dir.matchFrom fname start (fuel + 1) i =
      if Dir.nextBlock n i ≠ start then dir.matchFrom fname start fuel (Dir.nextBlock n i)
      else .ok none := by
  obtain ⟨prev, hmatch⟩ := (h.chain i).matchBlock_absent habsent
  rw [Dir.matchFrom, hmatch]
  simp only
  rw [if_neg (fun hboth => hboth.2 (h.chain i).tail), h.blocksInFile]

/-- How many blocks a search that is at block `i` has before it. -/
def toGo (n start i : ℕ) : ℕ := if start ≤ i then n - i + start else start - i

/-- Block `i` is ahead of a search that is at block `j`. -/
def Ahead (start i j : ℕ) : Prop := if start ≤ j then j ≤ i ∨ i < start else j ≤ i ∧ i < start

theorem nextBlock_lt : Dir.nextBlock n i < n ∨ Dir.nextBlock n i = 0 := by
  unfold Dir.nextBlock
  split <;> omega

theorem toGo_nextBlock (hstart : start < n ∨ start = 0) (hi : i < n ∨ i = 0)
    (hgo : Dir.nextBlock n i ≠ start) : toGo n start (Dir.nextBlock n i) < toGo n start i := by
  unfold toGo Dir.nextBlock at *
  split_ifs at * <;> omega

theorem Ahead.nextBlock (h : Ahead start i j) (hi : i < n) (hj : j < n)
    (hne : j ≠ i) : Dir.nextBlock n j ≠ start ∧ Ahead start i (Dir.nextBlock n j) := by
  unfold Ahead Dir.nextBlock at *
  split_ifs at * <;> omega

theorem Holds.matchFrom_none (h : Holds dir n recs)
    (habsent : ∀ j, Absent recs fname j) (hstart : start < n ∨ start = 0) (hi : i < n ∨ i = 0)
    (hfuel : toGo n start i < fuel) : dir.matchFrom fname start fuel i = .ok none := by
  induction fuel generalizing i with
  | zero => omega
  | succ fuel ih =>
    rw [h.matchFrom_absent (habsent i)]
    by_cases hgo : Dir.nextBlock n i = start
    · rw [if_neg (not_not.mpr hgo)]
    · have hless := toGo_nextBlock hstart hi hgo
      rw [if_pos hgo]
      exact ih nextBlock_lt (by omega)

theorem Holds.matchFrom_some (h : Holds dir n recs)
    (hfirst : First recs fname i pre r post) (hother : ∀ j, j ≠ i → Absent recs fname j)
    (hi : i < n) (hstart : start < n) (hj : j < n) (hahead : Ahead start i j)
    (hfuel : toGo n start j < fuel) :
    dir.matchFrom fname start fuel j = .ok (some ⟨i, total pre, prevOf 0 none pre⟩) := by
  induction fuel generalizing j with
  | zero => omega
  | succ fuel ih =>
    by_cases heq : j = i
    · subst heq
      exact h.matchFrom_found hfirst
    · obtain ⟨hgo, hahead'⟩ := hahead.nextBlock hi hj heq
      have hless := toGo_nextBlock (.inl hstart) (.inl hj) hgo
      have hlt : Dir.nextBlock n j < n := nextBlock_lt.elim id fun h0 => by omega
      rw [h.matchFrom_absent (hother j heq), if_pos hgo]
      exact ih hlt hahead' (by omega)

theorem Holds.matchEntry_some (h : Holds dir n recs) (hfirst : First recs fname i pre r post)
    (hother : ∀ j, j ≠ i → Absent recs fname j) :
    dir.matchEntry fname =
      .ok ({ dir with startLBlkno := i }, some ⟨i, total pre, prevOf 0 none pre⟩) := by
  have hi : i < n := by
    by_contra hge
    have hnil := h.beyond i (by omega)
    rw [hfirst.split] at hnil
    simp at hnil
  unfold Dir.matchEntry
  simp only
  rw [h.blocksInFile]
  have hstart : (if dir.startLBlkno ≥ n then 0 else dir.startLBlkno) < n := by
    split <;> omega
  rw [h.matchFrom_some hfirst hother hi hstart hstart]
  · unfold Ahead
    rw [if_pos le_rfl]
    omega
  · unfold toGo
    rw [if_pos le_rfl]
    omega

theorem Holds.matchEntry_none (h : Holds dir n recs) (habsent : ∀ j, Absent recs fname j) :
    ∃ start, dir.matchEntry fname = .ok ({ dir with startLBlkno := start }, none) := by
  unfold Dir.matchEntry
  simp only
  rw [h.blocksInFile]
  have hstart : (if dir.startLBlkno ≥ n then 0 else dir.startLBlkno) < n ∨
      (if dir.startLBlkno ≥ n then 0 else dir.startLBlkno) = 0 := by
    split <;> omega
  rw [h.matchFrom_none habsent hstart hstart]
  · exact ⟨_, rfl⟩
  · unfold toGo
    rw [if_pos le_rfl]
    omega

/-! ## The directory as a map -/

/-- A directory shows `names`: each name that is bound has one record, in the block
`home` gives. -/
structure Shows (dir : Dir) (n : ℕ) (recs : ℕ → List Rec) (home : List UInt8 → ℕ)
    (names : List UInt8 → Option ℕ) : Prop where
  holds : Holds dir n recs
  nodup : ∀ i, ((live (recs i)).map Prod.fst).Nodup
  mem : ∀ i fname otok,
    (fname, otok) ∈ live (recs i) ↔ names fname = some otok ∧ home fname = i

def Represents (dir : Dir) (names : List UInt8 → Option ℕ) : Prop :=
  ∃ n recs home, Shows dir n recs home names

variable {home : List UInt8 → ℕ} {names : List UInt8 → Option ℕ}

instance (fname : List UInt8) (r : Rec) : Decidable (Names fname r) :=
  inferInstanceAs (Decidable (_ ∧ _))

section

variable (h : Shows dir n recs home names)

include h

theorem Shows.absent (hnone : names fname = none) (j : ℕ) :
    Absent recs fname j := by
  intro r hr hnames
  have hbound := ((h.mem j fname r.id).mp (mem_live.mpr ⟨r, hr, hnames, rfl⟩)).1
  rw [hnone] at hbound
  cases hbound

theorem Shows.absent_elsewhere (hj : j ≠ home fname) :
    Absent recs fname j := by
  intro r hr hnames
  exact hj ((h.mem j fname r.id).mp (mem_live.mpr ⟨r, hr, hnames, rfl⟩)).2.symm

theorem Shows.first (hsome : names fname = some otok) :
    ∃ pre r post, First recs fname (home fname) pre r post ∧ r.id = otok := by
  obtain ⟨r₀, hr₀, hnames₀, -⟩ := mem_live.mp ((h.mem _ fname otok).mpr ⟨hsome, rfl⟩)
  have hfind : ((recs (home fname)).find? fun r => decide (Names fname r)) ≠ none := by
    intro hnone
    exact List.find?_eq_none.mp hnone r₀ hr₀ (decide_eq_true hnames₀)
  obtain ⟨r, hr⟩ := Option.ne_none_iff_exists'.mp hfind
  obtain ⟨hnames, pre, post, hsplit, hbefore⟩ := List.find?_eq_some_iff_append.mp hr
  have hnames := of_decide_eq_true hnames
  refine ⟨pre, r, post, ⟨hsplit, ?_, hnames⟩, ?_⟩
  · intro q hq hq'
    simpa [hq'] using hbefore q hq
  · have hin : (fname, r.id) ∈ live (recs (home fname)) :=
      mem_live.mpr ⟨r, by rw [hsplit]; simp, hnames, rfl⟩
    have hbound := ((h.mem _ fname r.id).mp hin).1
    rw [hsome] at hbound
    exact (Option.some.inj hbound).symm

theorem Shows.lt (hsome : names fname = some otok) :
    home fname < n := by
  by_contra hge
  have hmem := (h.mem _ fname otok).mpr ⟨hsome, rfl⟩
  rw [h.holds.beyond _ (Nat.le_of_not_lt hge)] at hmem
  exact absurd hmem List.not_mem_nil

end

theorem Holds.write (h : Holds dir n recs) (hi : i < n) (hchain : Chain buf rs) :
    Holds (dir.writeBlockCache i buf) n (update recs i rs) where
  size := h.size
  chain j := by
    by_cases heq : j = i
    · subst heq
      simpa [Dir.writeBlockCache] using hchain
    · simpa [Dir.writeBlockCache, heq] using h.chain j
  beyond j hj := by
    rw [Function.update_of_ne (by omega)]
    exact h.beyond j hj

theorem Holds.hint (h : Holds dir n recs) (startLBlkno : ℕ) :
    Holds { dir with startLBlkno } n recs := ⟨h.size, h.chain, h.beyond⟩

/-! In a list of pairs without repeated keys, one pair goes or gets another value. -/

theorem mem_erase_key {α β : Type*} {a c : List (α × β)} {k : α} {v : β}
    (hnodup : ((a ++ (k, v) :: c).map Prod.fst).Nodup) {x : α} {y : β} :
    (x, y) ∈ a ++ c ↔ (x, y) ∈ a ++ (k, v) :: c ∧ x ≠ k := by
  rw [map_append, map_cons, List.nodup_middle, List.nodup_cons] at hnodup
  constructor
  · intro hmem
    refine ⟨?_, ?_⟩
    · rw [mem_append, mem_cons]
      rw [mem_append] at hmem
      tauto
    · rintro rfl
      apply hnodup.1
      rw [← map_append]
      exact mem_map.mpr ⟨(x, y), hmem, rfl⟩
  · rintro ⟨hmem, hne⟩
    rw [mem_append, mem_cons] at hmem
    rw [mem_append]
    obtain hmem | heq | hmem := hmem
    · exact .inl hmem
    · exact absurd (congrArg Prod.fst heq) hne
    · exact .inr hmem

/-- One block gets other records. What they bind is what `names'` binds there, and
nothing else has changed. -/
theorem Shows.change {dir' : Dir} {n' : ℕ} {home' : List UInt8 → ℕ}
    {names' : List UInt8 → Option ℕ} (h : Shows dir n recs home names)
    (hholds : Holds dir' n' (update recs i rs)) (hnodup : ((live rs).map Prod.fst).Nodup)
    (hmem : ∀ fname otok, (fname, otok) ∈ live rs ↔ names' fname = some otok ∧ home' fname = i)
    (hframe : ∀ j, j ≠ i → ∀ fname otok,
      names fname = some otok ∧ home fname = j ↔ names' fname = some otok ∧ home' fname = j) :
    Shows dir' n' (update recs i rs) home' names' where
  holds := hholds
  nodup j := by
    by_cases heq : j = i
    · subst heq
      simpa using hnodup
    · simpa [heq] using h.nodup j
  mem j fname otok := by
    by_cases heq : j = i
    · subst heq
      rw [Function.update_self]
      exact hmem fname otok
    · rw [Function.update_of_ne heq, h.mem j]
      exact hframe j heq fname otok

theorem live_of_names (hnames : Names fname r) (pre post : List Rec) :
    live (pre ++ r :: post) = live pre ++ (fname, r.id) :: live post := by
  obtain ⟨hid, rfl⟩ := hnames
  rw [live_append, live_cons_of_ne hid]

theorem Represents.deleteEntry (h : Represents dir names) (fname : List UInt8) :
    ∃ dir', dir.deleteEntry fname = .ok dir' ∧
      Represents dir' (update names fname none) := by
  obtain ⟨n, recs, home, h⟩ := h
  unfold Dir.deleteEntry
  cases hbound : names fname with
  | none =>
    obtain ⟨start, hmatch⟩ := h.holds.matchEntry_none (h.absent hbound)
    rw [hmatch, ← hbound, Function.update_eq_self]
    exact ⟨_, rfl, n, recs, home, h.holds.hint start, h.nodup, h.mem⟩
  | some otok =>
    obtain ⟨pre, r, post, hfirst, hid⟩ := h.first hbound
    rw [h.holds.matchEntry_some hfirst fun j hj => h.absent_elsewhere hj]
    have hchain := h.holds.chain (home fname)
    rw [hfirst.split] at hchain
    obtain ⟨rs', hchain', hlive'⟩ := hchain.removeEntry
    have hlive : live (recs (home fname)) = live pre ++ (fname, otok) :: live post := by
      rw [hfirst.split, live_of_names hfirst.names, hid]
    have hnodup := h.nodup (home fname)
    rw [hlive] at hnodup
    refine ⟨_, rfl, n, update recs (home fname) rs', home, h.change ?_ ?_ ?_ ?_⟩
    · exact (h.holds.hint _).write (h.lt hbound) hchain'
    · rw [hlive']
      refine hnodup.sublist (List.Sublist.map _ ?_)
      exact List.Sublist.append_left (List.sublist_cons_self _ _) _
    · intro f o
      rw [hlive', mem_erase_key hnodup, ← hlive, h.mem]
      by_cases heq : f = fname
      · subst heq
        simp
      · simp [heq]
    · intro j hj f o
      by_cases heq : f = fname
      · subst heq
        simp [Ne.symm hj]
      · simp [heq]

theorem Represents.updateEntry (h : Represents dir names) (fname : List UInt8)
    (hotok : otok < 2 ^ 32) (hpos : otok ≠ 0) :
    ∃ dir', dir.updateEntry fname otok = .ok dir' ∧
      Represents dir' (if names fname = none then names
        else update names fname (some otok)) := by
  obtain ⟨n, recs, home, h⟩ := h
  unfold Dir.updateEntry
  cases hbound : names fname with
  | none =>
    obtain ⟨start, hmatch⟩ := h.holds.matchEntry_none (h.absent hbound)
    rw [hmatch, if_pos rfl]
    exact ⟨_, rfl, n, recs, home, h.holds.hint start, h.nodup, h.mem⟩
  | some old =>
    obtain ⟨pre, r, post, hfirst, hid⟩ := h.first hbound
    rw [h.holds.matchEntry_some hfirst fun j hj => h.absent_elsewhere hj,
      if_neg (Option.some_ne_none old)]
    have hchain := h.holds.chain (home fname)
    rw [hfirst.split] at hchain
    have hchain' := hchain.setOtokID hotok
    have hnames' : Names fname { r with id := otok } := ⟨hpos, hfirst.names.2⟩
    have hlive : live (recs (home fname)) = live pre ++ (fname, old) :: live post := by
      rw [hfirst.split, live_of_names hfirst.names, hid]
    have hlive' := live_of_names hnames' pre post
    have hnodup := h.nodup (home fname)
    rw [hlive] at hnodup
    refine ⟨_, rfl, n, update recs (home fname) (pre ++ { r with id := otok } :: post), home,
      h.change ?_ ?_ ?_ ?_⟩
    · exact (h.holds.hint _).write (h.lt hbound) hchain'
    · rw [hlive']
      simpa using hnodup
    · intro f o
      have hmem : (f, o) ∈ live pre ++ (fname, otok) :: live post ↔
          (f, o) = (fname, otok) ∨ (f, o) ∈ live pre ++ live post := by
        rw [mem_append, mem_cons, mem_append]
        tauto
      rw [hlive', hmem, mem_erase_key hnodup, ← hlive, h.mem]
      by_cases heq : f = fname
      · subst heq
        simp [eq_comm]
      · simp [heq]
    · intro j hj f o
      by_cases heq : f = fname
      · subst heq
        simp [Ne.symm hj]
      · simp [heq]

theorem Holds.grow (h : Holds dir n recs) (hchain : Chain buf rs) :
    Holds ({ dir with size := dir.size + OS_BLOCK_SIZE }.writeBlockCache n buf) (n + 1)
      (update recs n rs) where
  size := by
    show dir.size + OS_BLOCK_SIZE = (n + 1) * OS_BLOCK_SIZE
    rw [h.size, Nat.succ_mul]
  chain j := by
    by_cases heq : j = n
    · subst heq
      simpa [Dir.writeBlockCache] using hchain
    · simpa [Dir.writeBlockCache, heq] using h.chain j
  beyond j hj := by
    rw [Function.update_of_ne (by omega)]
    exact h.beyond j (by omega)

theorem Holds.createFrom {k : ℕ} (h : Holds dir n recs) (hname : fname.length < 256)
    (hotok : otok < 2 ^ 32) (hpos : otok ≠ 0) (hk : i + k = n) :
    ∃ dir' n' j rs', dir.createFrom fname otok k i = .ok dir' ∧
      Holds dir' n' (update recs j rs') ∧ Adds fname otok (recs j) rs' := by
  induction k generalizing i with
  | zero =>
    rw [Nat.add_zero] at hk
    subst hk
    refine ⟨_, i + 1, i, _, rfl, h.grow (chain_newBlock _ hname hotok), ?_⟩
    rw [h.beyond i le_rfl]
    exact adds_append_singleton hpos [] _
  | succ k ih =>
    rw [Dir.createFrom]
    obtain hfull | ⟨buf', entry, rs', hroom, hchain, hadds⟩ :=
      (h.chain i).findHole hname hotok hpos
    · rw [hfull]
      exact ih (by omega)
    · rw [hroom]
      exact ⟨_, n, i, rs', rfl, h.write (by omega) hchain, hadds⟩

theorem Represents.createEntry (h : Represents dir names) (hname : fname.length < 256)
    (hotok : otok < 2 ^ 32) (hpos : otok ≠ 0) (hfree : names fname = none) :
    ∃ dir', dir.createEntry fname otok = .ok dir' ∧
      Represents dir' (update names fname (some otok)) := by
  obtain ⟨n, recs, home, h⟩ := h
  unfold Dir.createEntry
  rw [h.holds.blocksInFile]
  obtain ⟨dir', n', i, rs', hok, hholds, a, c, hold, hnew⟩ :=
    h.holds.createFrom hname hotok hpos (Nat.zero_add n)
  have hkeys : fname ∉ (a ++ c).map Prod.fst := by
    rw [← hold]
    intro hin
    obtain ⟨⟨f, o⟩, hmem, rfl⟩ := mem_map.mp hin
    rw [h.mem, hfree] at hmem
    cases hmem.1
  refine ⟨dir', hok, n', _, update home fname i, h.change hholds ?_ ?_ ?_⟩
  · have hnodup := h.nodup i
    rw [hold] at hnodup
    rw [hnew, map_append, map_cons, List.nodup_middle, List.nodup_cons, ← map_append]
    exact ⟨hkeys, hnodup⟩
  · intro f o
    have hmem : (f, o) ∈ a ++ (fname, otok) :: c ↔ (f, o) = (fname, otok) ∨ (f, o) ∈ a ++ c := by
      rw [mem_append, mem_cons, mem_append]
      tauto
    rw [hnew, hmem, ← hold, h.mem]
    by_cases heq : f = fname
    · subst heq
      simp [hfree, eq_comm]
    · simp [heq]
  · intro j hj f o
    by_cases heq : f = fname
    · subst heq
      simp [hfree, Ne.symm hj]
    · simp [heq]

theorem Represents.matchEntry (h : Represents dir names) (fname : List UInt8) :
    ∃ start found, dir.matchEntry fname = .ok ({ dir with startLBlkno := start }, found) ∧
      found.map (fun e => getOtokID (dir.blocks e.blkno) e.entry) = names fname := by
  obtain ⟨n, recs, home, h⟩ := h
  cases hbound : names fname with
  | none =>
    obtain ⟨start, hmatch⟩ := h.holds.matchEntry_none (h.absent hbound)
    exact ⟨start, none, hmatch, rfl⟩
  | some otok =>
    obtain ⟨pre, r, post, hfirst, hid⟩ := h.first hbound
    refine ⟨_, _, h.holds.matchEntry_some hfirst fun j hj => h.absent_elsewhere hj, ?_⟩
    have hchain := h.holds.chain (home fname)
    rw [hfirst.split] at hchain
    show some (getOtokID _ (total pre)) = some otok
    rw [← hid]
    exact congrArg (fun q => some (Rec.id q)) hchain.recordAt_eq

theorem Represents.hint (h : Represents dir names) (startLBlkno : ℕ) :
    Represents { dir with startLBlkno } names := by
  obtain ⟨n, recs, home, h⟩ := h
  exact ⟨n, recs, home, h.holds.hint startLBlkno, h.nodup, h.mem⟩

/-! ## Runs -/

inductive Call
  | createEntry (fname : List UInt8) (otok : ℕ)
  | deleteEntry (fname : List UInt8)
  | updateEntry (fname : List UInt8) (otok : ℕ)
  | matchEntry (fname : List UInt8)

def exec (dir : Dir) : Call → Except Failure Dir
  | .createEntry fname otok => dir.createEntry fname otok
  | .deleteEntry fname => dir.deleteEntry fname
  | .updateEntry fname otok => dir.updateEntry fname otok
  | .matchEntry fname => (dir.matchEntry fname).map Prod.fst

/-- A finite map from names to objects, under the same calls. -/
def bind (names : List UInt8 → Option ℕ) : Call → List UInt8 → Option ℕ
  | .createEntry fname otok => update names fname (some otok)
  | .deleteEntry fname => update names fname none
  | .updateEntry fname otok =>
    if names fname = none then names else update names fname (some otok)
  | .matchEntry _ => names

/-- A directory next to the map it should be. -/
structure Session where
  dir : Except Failure Dir
  names : List UInt8 → Option ℕ

namespace Session

/-- A call, with the hint it starts from. -/
def step (s : Session) (call : ℕ × Call) : Session where
  dir := s.dir.bind fun dir => exec { dir with startLBlkno := call.1 } call.2
  names := bind s.names call.2

/-- Names have 1 to 255 bytes, ids are positive, and a name is created when absent. -/
def Checked (s : Session) : Call → Prop
  | .createEntry fname otok =>
    (0 < fname.length ∧ fname.length < 256) ∧ (0 < otok ∧ otok < 2 ^ 32) ∧ s.names fname = none
  | .updateEntry fname otok => (0 < fname.length ∧ fname.length < 256) ∧ 0 < otok ∧ otok < 2 ^ 32
  | .deleteEntry fname | .matchEntry fname => 0 < fname.length ∧ fname.length < 256

instance (s : Session) : ∀ call, Decidable (s.Checked call)
  | .createEntry .. | .updateEntry .. | .deleteEntry _ | .matchEntry _ =>
    inferInstanceAs (Decidable (_ ∧ _))

def calls : Machine Session (ℕ × Call) := ⟨step, fun s call => s.Checked call.2⟩

instance (s : Session) (call : ℕ × Call) : Decidable (calls.adm s call) :=
  inferInstanceAs (Decidable (s.Checked call.2))

/-- An empty directory. -/
def empty : Session := ⟨.ok ⟨0, fun _ _ => 0, 0⟩, fun _ => none⟩

theorem empty_represents : Represents ⟨0, fun _ _ => 0, 0⟩ fun _ => none := by
  have hzero : getReclen (fun _ => 0) 0 = 0 := by decide
  refine ⟨0, fun _ => [], fun _ => 0, ⟨rfl, ?_, fun _ _ => rfl⟩, fun _ => List.nodup_nil, ?_⟩
  · intro i
    exact ⟨trivial, hzero, by norm_num⟩
  · simp

/-- No call goes astray, and the directory shows the map. -/
def Inv (s : Session) : Prop := ∃ dir, s.dir = .ok dir ∧ Represents dir s.names

theorem step_inv {s : Session} {call : ℕ × Call} (h : s.Inv) (hadm : s.Checked call.2) :
    (s.step call).Inv := by
  obtain ⟨dir, hdir, hrep⟩ := h
  obtain ⟨hint, call⟩ := call
  have hhint := hrep.hint hint
  have hstep : (s.step (hint, call)).dir = exec { dir with startLBlkno := hint } call := by
    show s.dir.bind _ = _
    rw [hdir]
    rfl
  unfold Inv
  rw [hstep]
  cases call with
  | createEntry fname otok =>
    obtain ⟨⟨-, hname⟩, ⟨hpos, hotok⟩, hfree⟩ := hadm
    exact hhint.createEntry hname hotok (Nat.pos_iff_ne_zero.mp hpos) hfree
  | deleteEntry fname => exact hhint.deleteEntry fname
  | updateEntry fname otok =>
    obtain ⟨-, hpos, hotok⟩ := hadm
    exact hhint.updateEntry fname hotok (Nat.pos_iff_ne_zero.mp hpos)
  | matchEntry fname =>
    obtain ⟨start, found, hmatch, -⟩ := hhint.matchEntry fname
    refine ⟨_, ?_, hrep.hint start⟩
    show (Dir.matchEntry _ fname).map Prod.fst = _
    rw [hmatch]
    rfl

/-- What the directory is for. -/
structure Refines (dir : Dir) (names : List UInt8 → Option ℕ) : Prop where
  matchEntry : ∀ startLBlkno fname, ∃ dir' found,
    Dir.matchEntry { dir with startLBlkno } fname = .ok (dir', found) ∧
      found.map (fun e => getOtokID (dir.blocks e.blkno) e.entry) = names fname
  wellFormed : ∀ i < dir.blocksInFile, ∃ rs, Chain (dir.blocks i) rs

/-- In every run no call fails, and the directory refines the map. -/
theorem run_refines {ops : List (ℕ × Call)} {s : Session} (hrun : calls.Run empty ops s) :
    ∃ dir, s.dir = .ok dir ∧ Refines dir s.names := by
  have hinv : s.Inv := by
    refine hrun.invariant (I := Inv) ⟨_, rfl, empty_represents⟩ ?_
    intro s call h hadm
    exact step_inv h hadm
  obtain ⟨dir, hdir, hrep⟩ := hinv
  refine ⟨dir, hdir, ?_, ?_⟩
  · intro startLBlkno fname
    obtain ⟨start, found, hmatch, hfound⟩ := (hrep.hint startLBlkno).matchEntry fname
    exact ⟨_, found, hmatch, hfound⟩
  · intro i _
    obtain ⟨n, recs, home, h⟩ := hrep
    exact ⟨_, h.holds.chain i⟩

/-- `a` and `bc` are created, `a`, the first record of its block, is deleted, a
longer name goes behind, and `bc` is bound to another object. -/
def reuseFirst : List (ℕ × Call) :=
  [(0, .createEntry [97] 5), (3, .createEntry [98, 99] 6), (0, .deleteEntry [97]),
    (1, .createEntry [100, 101, 102, 103, 104] 7), (0, .updateEntry [98, 99] 8),
    (9, .matchEntry [97])]

theorem run_refines_reuseFirst :
    calls.Admits empty reuseFirst ∧
      ∃ dir, (reuseFirst.foldl step empty).dir = .ok dir ∧
        Refines dir (reuseFirst.foldl step empty).names := by
  have hadm : calls.Admits empty reuseFirst := by decide +kernel
  exact ⟨hadm, run_refines hadm.run⟩

end Session

end LSOBasicDir

end K42
