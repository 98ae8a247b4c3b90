import K42.Mem.PageSetsRefinement

/-!
# Pages in a hash table

`PageSet` hashes a page by its offset. The table grows with the number of pages, and all
entries are then put into the new table one by one. `firstIndexUsed` says where to start to
look for the first page.
-/

open Function (update update_of_ne update_self)

namespace K42

namespace PageSets

open Linked Buckets

structure PageSetTable where
  hashTable : ℕ → Option ℕ
  hashMask : ℕ
  firstIndexUsed : ℕ

namespace PageSet

/-- `InitialHashTableSize`. -/
def initialHashTableSize : ℕ := 4

def init (heap : PageHeap) : State PageSetTable where
  heap := heap
  freeList := ⟨none, none, 0⟩
  numPages := 0
  table := ⟨fun _ => none, initialHashTableSize - 1, initialHashTableSize - 1⟩

def hash (s : State PageSetTable) (fileOffset : ℕ) : ℕ := (fileOffset >>> 12) &&& s.table.hashMask

def find (s : State PageSetTable) (fileOffset : ℕ) : Option (Option ℕ) :=
  (walk s.heap.next (fun p => key s p == fileOffset) s.numPages none
    (s.table.hashTable (hash s fileOffset))).map (·.2)

/-- `enqueue` of an entry. -/
def enqueueEntry (s : State PageSetTable) (p : ℕ) : State PageSetTable :=
  let index := hash s (key s p)
  { s with
    heap := s.heap.setNext p (s.table.hashTable index)
    numPages := s.numPages + 1
    table :=
      { s.table with
        hashTable := update s.table.hashTable index (some p)
        firstIndexUsed := if index < s.table.firstIndexUsed then index
          else s.table.firstIndexUsed } }

/-- `while (2*numPages >= i) i = 2*i;` -/
def double (numPages : ℕ) : ℕ → ℕ → Option ℕ
  | fuel, i =>
    if 2 * numPages ≥ i then
      match fuel with
      | 0 => none
      | fuel + 1 => double numPages fuel (2 * i)
    else some i

/-- The entries of a bucket of the old table, from `e` on, are put into the table. -/
def rehash : ℕ → State PageSetTable → Option ℕ → Option (State PageSetTable)
  | _, s, none => some s
  | 0, _, some _ => none
  | fuel + 1, s, some e => rehash fuel (enqueueEntry s e) (s.heap.next e)

def extendHash (s : State PageSetTable) (tableAlloc : Bool) : Option (State PageSetTable) :=
  let i := 2 * (s.table.hashMask + 1)
  (double s.numPages (2 * s.numPages) (if i < 128 then 128 else i)).bind fun i =>
    if tableAlloc = true then
      let s₀ : State PageSetTable :=
        { s with
          numPages := 0
          table := { s.table with hashTable := fun _ => none, hashMask := i - 1 } }
      ((List.range (s.table.hashMask + 1)).foldlM
        (fun t index => rehash s.numPages t (s.table.hashTable index)) s₀).bind fun t =>
        if t.numPages = s.numPages then some t else none
    else some { s with table := { s.table with firstIndexUsed := 0 } }

def enqueue (s : State PageSetTable) (tableAlloc : Bool) (new : Option NewEntry)
    (fileOffset : ℕ) (paddr : Option ℕ) : Option (State PageSetTable × Option ℕ) :=
  (if 2 * s.numPages > s.table.hashMask then extendHash s tableAlloc else some s).bind fun s =>
    match new with
    | none => some (s, none)
    | some n =>
      let s := { s with heap := (s.heap.alloc n).initEntry n.addr fileOffset paddr }
      some (enqueueEntry s n.addr, some n.addr)

def takeOut (s : State PageSetTable) (fileOffset : ℕ) :
    Option (State PageSetTable × Option ℕ) :=
  let index := hash s fileOffset
  (walk s.heap.next (fun p => key s p == fileOffset) s.numPages none
    (s.table.hashTable index)).map fun
    | (_, none) => (s, none)
    | (none, some p) =>
      ({ s with
          heap := s.heap.setNext p none
          numPages := s.numPages - 1
          table := { s.table with
            hashTable := update s.table.hashTable index (s.heap.next p) } }, some p)
    | (some prev, some p) =>
      ({ s with
          heap := (s.heap.setNext prev (s.heap.next p)).setNext p none
          numPages := s.numPages - 1 }, some p)

def getFirst (s : State PageSetTable) : State PageSetTable × Option ℕ :=
  match firstUsed s.table.hashTable (s.table.hashMask + 1) s.table.firstIndexUsed with
  | none => (s, none)
  | some index =>
    ({ s with table := { s.table with firstIndexUsed := index } }, s.table.hashTable index)

/-- `getNext` of a page. -/
def getNextPage (s : State PageSetTable) (p : ℕ) : Option ℕ :=
  match s.heap.next p with
  | some e => some e
  | none => firstFrom s.table.hashTable (s.table.hashMask + 1) (hash s (key s p) + 1)

/-- `getNext` of an offset. For one that is not found it is the first page behind its bucket. -/
def getNext (s : State PageSetTable) (offset : ℕ) : Option (State PageSetTable × Option ℕ) :=
  if offset = noOffset then some (getFirst s)
  else
    (find s offset).map fun
      | none =>
        match firstFrom s.table.hashTable (s.table.hashMask + 1) (hash s offset + 1) with
        | some node => (s, some node)
        | none => getFirst s
      | some e => (s, getNextPage s e)

def methods : Methods PageSetTable where
  find := find
  enqueue := enqueue
  takeOut := takeOut
  getFirst := getFirst
  getNextPage s p := some (getNextPage s p)
  getNext := getNext

/-! ## The table -/

/-- No page is in a bucket below `firstIndexUsed`. -/
def NoneBelow (t : PageSetTable) : Prop :=
  ∀ i < t.firstIndexUsed, i ≤ t.hashMask → t.hashTable i = none

structure Inv (s : State PageSetTable) (all : List ℕ) : Prop where
  chains : ∃ chain, Chains s.heap.next s.table.hashTable (fun p => hash s (key s p))
    (s.table.hashMask + 1) chain ∧ all = Buckets.all chain (s.table.hashMask + 1)
  numPages : s.numPages = all.length
  noneBelow : NoneBelow s.table

variable {s t : State PageSetTable} {all l : List ℕ} {p off : ℕ}

theorem hash_lt (s : State PageSetTable) (off : ℕ) : hash s off < s.table.hashMask + 1 :=
  Nat.lt_succ_of_le Nat.and_le_right

theorem init_inv (heap : PageHeap) : Inv (init heap) [] where
  chains := ⟨fun _ => [], ⟨fun _ _ => rfl, fun _ _ _ h => nomatch h⟩, rfl⟩
  numPages := rfl
  noneBelow _ _ _ := rfl

theorem Inv.congr (h : Inv s all) {heap : PageHeap} {f : FreeList}
    (hnext : ∀ p ∈ all, heap.next p = s.heap.next p)
    (hkey : ∀ p ∈ all, (heap.entry p).fileOffset = key s p) :
    Inv { s with heap := heap, freeList := f } all := by
  obtain ⟨chain, hchains, rfl⟩ := h.chains
  refine ⟨⟨chain, hchains.congr hnext fun p hp => ?_, rfl⟩, h.numPages, h.noneBelow⟩
  show hash s (heap.entry p).fileOffset = _
  rw [hkey p hp]

theorem Inv.enqueueEntry (h : Inv s all) (hp : p ∉ all) :
    ∃ all', Inv (enqueueEntry s p) all' ∧ all'.Perm (p :: all) := by
  obtain ⟨chain, hchains, rfl⟩ := h.chains
  have hindex := hash_lt s (key s p)
  have hoff : ∀ j < s.table.hashMask + 1, p ∉ chain j := fun j hj hmem =>
    hp (Buckets.mem_all.mpr ⟨j, hj, hmem⟩)
  have hperm : (Buckets.all (update chain (hash s (key s p))
      (p :: chain (hash s (key s p)))) (s.table.hashMask + 1)).Perm
      (p :: Buckets.all chain (s.table.hashMask + 1)) := by
    refine all_perm hindex (fun j hj => update_of_ne hj ..) ?_
    rw [update_self]
  refine ⟨_, ⟨⟨_, hchains.setBucket (fun j hj => update_of_ne hj ..) ?_ ?_ ?_, rfl⟩, ?_, ?_⟩, hperm⟩
  · intro j hj _ b hb
    exact update_of_ne (fun heq : b = p => hoff j hj (heq ▸ hb)) ..
  · intro hi
    show Path (update s.heap.next p _) (update s.table.hashTable _ (some p) _) _
    rw [update_self]
    refine ⟨rfl, ?_⟩
    rw [update_self]
    exact (hchains.path _ hi).update (hoff _ hi) _
  · intro a ha
    rcases List.mem_cons.mp ha with rfl | ha
    · rfl
    · exact hchains.bucket_eq _ hindex a ha
  · refine Eq.trans ?_ hperm.length_eq.symm
    exact congrArg (· + 1) h.numPages
  · intro i hi hmask
    have hne : i ≠ hash s (key s p) ∧ i < s.table.firstIndexUsed := by
      change i < if hash s (key s p) < s.table.firstIndexUsed then hash s (key s p)
        else s.table.firstIndexUsed at hi
      split at hi <;> omega
    exact (update_of_ne hne.1 ..).trans (h.noneBelow i hne.2 hmask)

/-! ## The table grows -/

/-- All but the table and its links. -/
structure SamePages (s t : State PageSetTable) : Prop where
  entry : t.heap.entry = s.heap.entry
  freeLinks : t.heap.freeLinks = s.heap.freeLinks
  freeList : t.freeList = s.freeList

theorem SamePages.trans {r : State PageSetTable} (h : SamePages s t) (h' : SamePages t r) :
    SamePages s r :=
  ⟨h'.entry.trans h.entry, h'.freeLinks.trans h.freeLinks, h'.freeList.trans h.freeList⟩

/-- The entries of one bucket are put into the table, and those of the others are left as
they are. -/
theorem Inv.rehash (h : Inv s all) {q : Option ℕ} (hpath : Path s.heap.next q l)
    (hl : ∀ p ∈ l, p ∉ all) {fuel : ℕ} (hfuel : l.length ≤ fuel) :
    ∃ t all', rehash fuel s q = some t ∧ Inv t all' ∧ all'.Perm (l ++ all) ∧ SamePages s t ∧
      ∀ p, p ∉ l → t.heap.next p = s.heap.next p := by
  induction l generalizing s all q fuel with
  | nil =>
    obtain rfl : q = none := hpath
    refine ⟨s, all, ?_, h, .refl _, ⟨rfl, rfl, rfl⟩, fun _ _ => rfl⟩
    cases fuel <;> rfl
  | cons e l ih =>
    obtain ⟨rfl, hrest⟩ := hpath
    cases fuel with
    | zero => cases hfuel
    | succ fuel =>
      have hnodup : (e :: l).Nodup := Path.nodup ⟨rfl, hrest⟩
      have hel : e ∉ l := (List.nodup_cons.mp hnodup).1
      obtain ⟨all₁, hinv, hall₁⟩ := h.enqueueEntry (hl e List.mem_cons_self)
      have hrest' : Path (PageSet.enqueueEntry s e).heap.next (s.heap.next e) l :=
        hrest.update hel _
      have hl' : ∀ p ∈ l, p ∉ all₁ := by
        intro p hp hmem
        rcases List.mem_cons.mp (hall₁.mem_iff.mp hmem) with rfl | hmem
        · exact hel hp
        · exact hl p (List.mem_cons_of_mem e hp) hmem
      obtain ⟨t, all', hrehash, hinv', hall', hsame, hnext⟩ :=
        ih hinv hrest' hl' (Nat.le_of_succ_le_succ hfuel)
      have hfirst : SamePages s (PageSet.enqueueEntry s e) := ⟨rfl, rfl, rfl⟩
      refine ⟨t, all', hrehash, hinv', ?_, hfirst.trans hsame, ?_⟩
      · exact hall'.trans ((hall₁.append_left l).trans List.perm_middle)
      · intro p hp
        rw [List.mem_cons, not_or] at hp
        exact (hnext p hp.2).trans (update_of_ne hp.1 ..)

theorem Inv.rehashAll (h : Inv s all) {table : ℕ → Option ℕ} {chain : ℕ → List ℕ} {fuel : ℕ}
    {places : List ℕ} (hpath : ∀ i ∈ places, Path s.heap.next (table i) (chain i))
    (hnodup : (places.flatMap chain).Nodup) (hnot : ∀ p ∈ places.flatMap chain, p ∉ all)
    (hfuel : ∀ i ∈ places, (chain i).length ≤ fuel) :
    ∃ t all', places.foldlM (fun t index => PageSet.rehash fuel t (table index)) s = some t ∧
      Inv t all' ∧ all'.Perm (places.flatMap chain ++ all) ∧ SamePages s t := by
  induction places generalizing s all with
  | nil => exact ⟨s, all, rfl, h, .refl _, ⟨rfl, rfl, rfl⟩⟩
  | cons i places ih =>
    rw [List.flatMap_cons] at hnodup hnot
    obtain ⟨-, hnodup', hdisj⟩ := List.nodup_append.mp hnodup
    obtain ⟨t, all₁, hrehash, hinv, hall₁, hsame, hnext⟩ :=
      h.rehash (hpath i List.mem_cons_self) (fun p hp => hnot p (List.mem_append_left _ hp))
        (hfuel i List.mem_cons_self)
    have hothers : ∀ p ∈ places.flatMap chain, p ∉ chain i := fun p hp hmem =>
      hdisj p hmem p hp rfl
    obtain ⟨t', all', hfold, hinv', hall', hsame'⟩ := ih hinv
      (fun j hj => (hpath j (List.mem_cons_of_mem i hj)).congr fun p hp =>
        hnext p (hothers p (List.mem_flatMap.mpr ⟨j, hj, hp⟩)))
      hnodup'
      (fun p hp hmem => by
        rcases List.mem_append.mp (hall₁.mem_iff.mp hmem) with hmem | hmem
        · exact hothers p hp hmem
        · exact hnot p (List.mem_append_right _ hp) hmem)
      (fun j hj => hfuel j (List.mem_cons_of_mem i hj))
    refine ⟨t', all', ?_, hinv', ?_, hsame.trans hsame'⟩
    · rw [List.foldlM_cons, hrehash]
      exact hfold
    · refine hall'.trans ((hall₁.append_left _).trans ?_)
      rw [List.flatMap_cons, ← List.append_assoc]
      exact List.perm_append_comm.append_right _

theorem double_some {numPages fuel i : ℕ} (hi : 0 < i) (hfuel : 2 * numPages < i + fuel) :
    ∃ j, double numPages fuel i = some j := by
  induction fuel generalizing i with
  | zero => exact ⟨i, by rw [double, if_neg (by omega)]⟩
  | succ fuel ih =>
    rw [double]
    by_cases hle : 2 * numPages ≥ i
    · rw [if_pos hle]
      exact ih (by omega) (by omega)
    · rw [if_neg hle]
      exact ⟨i, rfl⟩

section

variable (h : Inv s all)

include h

/-- **No page is lost when the table grows**, and none is below `firstIndexUsed`. -/
theorem Inv.extendHash (tableAlloc : Bool) : ∃ t all',
    extendHash s tableAlloc = some t ∧ Inv t all' ∧ all'.Perm all ∧ SamePages s t := by
  obtain ⟨size, hsize⟩ : ∃ size, double s.numPages (2 * s.numPages)
      (if 2 * (s.table.hashMask + 1) < 128 then 128 else 2 * (s.table.hashMask + 1)) =
      some size := by
    apply double_some
    · split <;> omega
    · split <;> omega
  rw [PageSet.extendHash, hsize, Option.bind_some]
  cases tableAlloc with
  | false =>
    obtain ⟨chain, hchains, rfl⟩ := h.chains
    refine ⟨_, _, if_neg Bool.false_ne_true, ⟨⟨chain, hchains, rfl⟩, h.numPages, ?_⟩, .refl _,
      ⟨rfl, rfl, rfl⟩⟩
    exact fun i hi => absurd hi (Nat.not_lt_zero i)
  | true =>
    obtain ⟨chain, hchains, rfl⟩ := h.chains
    let s₀ : State PageSetTable :=
      { s with
        numPages := 0
        table := { s.table with hashTable := fun _ => none, hashMask := size - 1 } }
    have hs₀ : Inv s₀ [] :=
      ⟨⟨fun _ => [], ⟨fun _ _ => rfl, fun _ _ _ hmem => nomatch hmem⟩, by simp [Buckets.all]⟩, rfl,
        fun _ _ _ => rfl⟩
    obtain ⟨t, all', hfold, hinv, hall', hsame⟩ := hs₀.rehashAll
      (fun i hi => hchains.path i (List.mem_range.mp hi)) hchains.nodup
      (fun _ _ => List.not_mem_nil)
      (fun i hi => (hchains.length_le (List.mem_range.mp hi)).trans_eq h.numPages.symm)
    rw [List.append_nil] at hall'
    have hnum : t.numPages = s.numPages := by
      rw [hinv.numPages, hall'.length_eq, h.numPages]
      rfl
    refine ⟨t, all', ?_, hinv, hall', hsame.entry, hsame.freeLinks, hsame.freeList⟩
    rw [if_pos rfl]
    show Option.bind (List.foldlM _ s₀ _) _ = some t
    rw [hfold, Option.bind_some, if_pos hnum]

/-! ## The methods -/

theorem Inv.walk_bucket (off : ℕ) : ∃ pre post,
    Path s.heap.next (s.table.hashTable (hash s off)) (pre ++ post) ∧
      Finds (key s) all off post.head? ∧
      walk s.heap.next (fun p => key s p == off) s.numPages none
        (s.table.hashTable (hash s off)) = some (pre.getLast?, post.head?) ∧
      ∃ chain, Chains s.heap.next s.table.hashTable (fun p => hash s (key s p))
        (s.table.hashMask + 1) chain ∧ all = Buckets.all chain (s.table.hashMask + 1) ∧
        chain (hash s off) = pre ++ post := by
  have hnum := h.numPages
  obtain ⟨chain, hchains, rfl⟩ := h.chains
  have hi := hash_lt s off
  have hpath := hchains.path _ hi
  obtain ⟨pre, post, hsplit, hfinds, hwalk⟩ := finds_walk (key s) off hpath
    ((hchains.length_le hi).trans_eq hnum.symm)
  refine ⟨pre, post, hsplit ▸ hpath, hfinds.of_chain hchains hi ?_, hwalk, chain, hchains, rfl,
    hsplit⟩
  rintro p rfl
  rfl

theorem find_spec (off : ℕ) :
    ∃ p, find s off = some p ∧ Finds (key s) all off p := by
  obtain ⟨pre, post, -, hfinds, hwalk, -⟩ := h.walk_bucket off
  exact ⟨post.head?, by rw [find, hwalk, Option.map_some], hfinds⟩

theorem takeOut_spec (off : ℕ) : ∃ t p, takeOut s off = some (t, p) ∧
    Finds (key s) all off p ∧ (p = none → t = s) ∧ SamePages s t ∧
    ∀ q, p = some q → ∃ all', all.Perm (q :: all') ∧ Inv t all' := by
  have hnum := h.numPages
  have hbelow := h.noneBelow
  obtain ⟨pre, post, hpath, hfinds, hwalk, chain, hchains, rfl, hchain⟩ := h.walk_bucket off
  have hi := hash_lt s off
  rw [takeOut, hwalk]
  cases post with
  | nil => exact ⟨s, none, rfl, hfinds, fun _ => rfl, ⟨rfl, rfl, rfl⟩, nofun⟩
  | cons p post =>
    have hp : p ∈ chain (hash s off) := by simp [hchain]
    have hbucket : hash s (key s p) = hash s off := congrArg _ hfinds.2
    have hothers : ∀ j < s.table.hashMask + 1, j ≠ hash s off → ∀ b ∈ chain j, b ≠ p :=
      fun j hj hji b hb => hchains.ne hbucket hj hji hb
    -- the bucket without the page
    have hperm : (Buckets.all chain (s.table.hashMask + 1)).Perm
        (p :: Buckets.all (update chain (hash s off) (pre ++ post))
          (s.table.hashMask + 1)) := by
      refine all_perm hi (fun j hj => (update_of_ne hj ..).symm) ?_
      rw [update_self, hchain]
      exact List.perm_middle
    have hlength : s.numPages - 1 =
        (Buckets.all (update chain (hash s off) (pre ++ post))
          (s.table.hashMask + 1)).length := by
      rw [hnum, hperm.length_eq]
      rfl
    have hrest : ∀ a ∈ pre ++ post, hash s (key s a) = hash s off := by
      intro a ha
      refine hchains.bucket_eq _ hi a ?_
      rw [hchain]
      exact List.mem_append.mpr ((List.mem_append.mp ha).imp_right (List.mem_cons_of_mem p))
    rcases List.eq_nil_or_concat' pre with rfl | ⟨pre, b, rfl⟩
    · refine ⟨_, _, rfl, hfinds, nofun, ⟨rfl, rfl, rfl⟩, ?_⟩
      rintro q hq
      obtain rfl : p = q := Option.some.inj hq
      refine ⟨_, hperm, ⟨⟨_, hchains.setBucket (fun j hj => update_of_ne hj ..) ?_ ?_
        hrest, rfl⟩, hlength, ?_⟩⟩
      · exact fun j hj hji b hb => update_of_ne (hothers j hj hji b hb) ..
      · intro _
        show Path (update s.heap.next p none)
          (update s.table.hashTable _ (s.heap.next p) _) _
        rw [update_self]
        exact hpath.remove_head
      · intro j hj hmask
        have hne : j ≠ hash s off := by
          rintro rfl
          have hnone := hbelow _ hj hmask
          rw [hpath.head_eq] at hnone
          cases hnone
        exact (update_of_ne hne ..).trans (hbelow j hj hmask)
    · rw [List.getLast?_concat]
      refine ⟨_, _, rfl, hfinds, nofun, ⟨rfl, rfl, rfl⟩, ?_⟩
      rintro q hq
      obtain rfl : p = q := Option.some.inj hq
      have hb : b ∈ chain (hash s off) := by simp [hchain]
      have hbbucket := hchains.bucket_eq _ hi b hb
      rw [List.append_assoc] at hpath
      refine ⟨_, hperm, ⟨⟨_, hchains.setBucket (fun _ _ => rfl) ?_ ?_ hrest, rfl⟩, hlength, hbelow⟩⟩
      · intro j hj hji a ha
        exact (update_of_ne (hothers j hj hji a ha) ..).trans
          (update_of_ne (hchains.ne hbbucket hj hji ha) ..)
      · intro _
        rw [List.append_assoc]
        exact hpath.remove_after

theorem getFirst_spec : (getFirst s).2 = all.head? ∧
    ∃ t, (getFirst s).1 = { s with table := t } ∧ Inv { s with table := t } all := by
  have hbelow := h.noneBelow
  obtain ⟨chain, hchains, hall⟩ := h.chains
  have hfirst : firstFrom s.table.hashTable (s.table.hashMask + 1) s.table.firstIndexUsed =
      all.head? := by
    rw [firstFrom_eq fun j hj hn => hbelow j hj (Nat.le_of_lt_succ hn), hall]
    exact hchains.traversal.head_eq
  rw [getFirst]
  cases hused : firstUsed s.table.hashTable (s.table.hashMask + 1) s.table.firstIndexUsed with
  | none =>
    rw [firstFrom, hused] at hfirst
    exact ⟨hfirst, s.table, rfl, h⟩
  | some index =>
    rw [firstFrom, hused] at hfirst
    refine ⟨hfirst, _, rfl, ⟨⟨chain, hchains, hall⟩, h.numPages, ?_⟩⟩
    intro j hj hmask
    by_cases hold : j < s.table.firstIndexUsed
    · exact hbelow j hold hmask
    · exact firstUsed_some hused j (Nat.le_of_not_lt hold) hj

theorem getNext_spec (off : ℕ) :
    ∃ t p, getNext s off = some ({ s with table := t }, p) ∧ Inv { s with table := t } all := by
  obtain ⟨-, t, hfirst, hinv⟩ := getFirst_spec h
  have hgetFirst : getFirst s = ({ s with table := t }, (getFirst s).2) := Prod.ext hfirst rfl
  rw [getNext]
  split
  · exact ⟨t, _, congrArg some hgetFirst, hinv⟩
  · obtain ⟨p, hfind, -⟩ := find_spec h off
    rw [hfind, Option.map_some]
    cases p with
    | none =>
      cases hnode : firstFrom s.table.hashTable (s.table.hashMask + 1) (hash s off + 1) with
      | none => exact ⟨t, _, congrArg some hgetFirst, hinv⟩
      | some node => exact ⟨s.table, some node, rfl, h⟩
    | some e => exact ⟨s.table, _, rfl, h⟩

theorem getNextPage_spec : Path (getNextPage s) all.head? all := by
  obtain ⟨chain, hchains, rfl⟩ := h.chains
  have hsucc : getNextPage s = succ s.heap.next s.table.hashTable
      (fun p => hash s (key s p)) (s.table.hashMask + 1) := by
    funext p
    rw [getNextPage, succ]
    cases s.heap.next p <;> rfl
  rw [hsucc, ← hchains.traversal.head_eq]
  exact hchains.traversal

theorem grown (tableAlloc : Bool) : ∃ t all',
    (if 2 * s.numPages > s.table.hashMask then extendHash s tableAlloc else some s) = some t ∧
      Inv t all' ∧ all'.Perm all ∧ SamePages s t := by
  split
  · exact h.extendHash tableAlloc
  · exact ⟨s, all, rfl, h, .refl _, ⟨rfl, rfl, rfl⟩⟩

end

/-- Nothing is asserted of the offset, and `new` may fail. -/
def accepts : Accepts := ⟨fun _ => True, fun _ => True⟩

theorem lawful : Lawful methods accepts True Inv where
  find h _ := find_spec h _
  numPages h := h.numPages
  stable h hkey := h.congr (fun _ _ => rfl) fun p _ => hkey p
  getFirst := getFirst_spec
  getNext h _ := getNext_spec h _
  getNextPage h := ⟨getNextPage_spec h, fun _ _ => rfl⟩
  enqueue_none := by
    intro s all off paddr tableAlloc h _ _
    obtain ⟨t, all', hgrown, hinv, hall, hsame⟩ := grown h tableAlloc
    refine ⟨t, all', ?_, hall, hinv, hsame.freeList, hsame.entry, hsame.freeLinks⟩
    show Option.bind _ _ = _
    rw [hgrown, Option.bind_some]
  enqueue_some := by
    intro s all off n paddr tableAlloc h _ _ hn _
    obtain ⟨t, all', hgrown, hinv, hall, hsame⟩ := grown h tableAlloc
    have hn' : n.addr ∉ all' := fun hmem => hn (hall.mem_iff.mp hmem)
    have hne : ∀ p ∈ all', p ≠ n.addr := fun p hp heq => hn' (heq ▸ hp)
    let t' : State PageSetTable :=
      { t with heap := (t.heap.alloc n).initEntry n.addr off paddr }
    have hinv' : Inv t' all' := by
      refine hinv.congr (fun p hp => update_of_ne (hne p hp) ..) fun p hp => ?_
      exact congrArg PageEntry.fileOffset (update_of_ne (hne p hp) ..)
    obtain ⟨all'', hinv'', hall''⟩ := hinv'.enqueueEntry hn'
    refine ⟨PageSet.enqueueEntry t' n.addr, all'', ?_, hall''.trans (hall.cons _), hinv'',
      hsame.freeList, ?_, ?_, ?_⟩
    · show Option.bind _ _ = _
      rw [hgrown, Option.bind_some]
    · rw [← hsame.entry]
      rfl
    · intro p hp
      rw [← hsame.freeLinks]
      constructor
      · exact (update_of_ne hp ..).trans (update_of_ne hp ..)
      · exact (update_of_ne hp ..).trans (update_of_ne hp ..)
    · exact fun _ => ⟨update_self .., update_self ..⟩
  takeOut h _ := by
    obtain ⟨t, p, htake, hfinds, hsame, hpages, hrest⟩ := takeOut_spec h _
    exact ⟨t, p, htake, hfinds, hsame, hpages.freeList, hpages.entry, hpages.freeLinks, hrest⟩

end PageSet

end PageSets

end K42
