import K42.Misc.HashSimple

/-!
# Walking over simple hash tables

A walk is restarted from a key alone. `getNext` insists on its node. When the node has gone,
`getNextWithFF` goes on with the next chain, and `getNextWithRW` goes back to the start of the
chain, to an earlier one, or to the first node.
-/

namespace K42

namespace HashSimple

variable {keyshift : ℕ} {t t₀ : HashSimple} {m : AList fun _ : ℕ => ℕ} {key : ℕ}

inductive Fault
  | ENOENT
  /-- An index that is not one of the table. -/
  | outOfBounds
deriving DecidableEq

def getFirst (t : HashSimple) : Option (ℕ × ℕ) :=
  Chained.firstFrom t.chain (t.hashMask + 1) 0

section

variable (keyshift)

/-- The search along the chain of the key: the node after it, if the key is there. -/
def search (t : HashSimple) (key : ℕ) : Option (Option (ℕ × ℕ)) :=
  (Chained.after Prod.fst key (t.chain (t.hash keyshift key))).map fun r => r.2.head?

/-- The first node of the places after that of the key. -/
def nextChain (t : HashSimple) (key : ℕ) : Option (ℕ × ℕ) :=
  Chained.firstFrom t.chain (t.hashMask + 1) (t.hash keyshift key + 1)

def getNext (t : HashSimple) (key : ℕ) : Except Fault (Option (ℕ × ℕ)) :=
  match t.search keyshift key with
  | none => .error .ENOENT
  | some next => .ok (next.or (t.nextChain keyshift key))

def getNextWithFF (t : HashSimple) (key : ℕ) : Option (ℕ × ℕ) :=
  ((t.search keyshift key).getD none).or (t.nextChain keyshift key)

/-- `for (index--; index >= 0; index--)`: the index has no sign, so that the condition holds
always, and after 0 comes an index behind the table. -/
def scanBack (t : HashSimple) : ℕ → Except Fault (ℕ × ℕ)
  | 0 => .error .outOfBounds
  | index + 1 =>
    match t.chain index with
    | [] => scanBack t index
    | node :: _ => .ok node

def getNextWithRW (t : HashSimple) (key full : ℕ) : Except Fault (Option (ℕ × ℕ)) :=
  match t.search keyshift key with
  | some next => .ok (next.or (t.nextChain keyshift key))
  | none =>
    if full ≠ 1 then
      match t.chain (t.hash keyshift key) with
      | node :: _ => .ok (some node)
      | [] => (t.scanBack (t.hash keyshift key)).map some
    else .ok t.getFirst

/-! ## Whole walks -/

/-- `getNext` from a key until it returns 0. -/
def walkFrom (t : HashSimple) : (fuel key : ℕ) → Option (List (ℕ × ℕ))
  | 0, _ => none
  | fuel + 1, key =>
    match t.getNext keyshift key with
    | .error _ => none
    | .ok none => some []
    | .ok (some node) => (walkFrom t fuel node.1).map (node :: ·)

/-- `getFirst` and then `getNext`. -/
def walk (t : HashSimple) : Option (List (ℕ × ℕ)) :=
  match t.getFirst with
  | none => some []
  | some node => (t.walkFrom keyshift t.numNodes node.1).map (node :: ·)

/-- A sweep of `t₀`: the keys it has returned, the last one first, the key that it will be
restarted with, and the table now. It starts with the first node, or with any key. -/
inductive Sweep (t₀ : HashSimple) : List ℕ → ℕ → HashSimple → Prop
  | first {node : ℕ × ℕ} (h : t₀.getFirst = some node) : Sweep t₀ [node.1] node.1 t₀
  | start (key : ℕ) : Sweep t₀ [] key t₀
  | next {keys : List ℕ} {key : ℕ} {t : HashSimple} {node : ℕ × ℕ} (h : Sweep t₀ keys key t)
      (hnext : t.getNextWithFF keyshift key = some node) : Sweep t₀ (node.1 :: keys) node.1 t
  | remove {keys : List ℕ} {key : ℕ} {t : HashSimple} (h : Sweep t₀ keys key t) (gone : ℕ) :
      Sweep t₀ keys key (t.remove keyshift gone).1

end

/-- `removeNext` until it returns 0. -/
def removeAll : (fuel : ℕ) → (t : HashSimple) → (restart : ℕ) →
    Option (List (ℕ × ℕ) × HashSimple)
  | 0, _, _ => none
  | fuel + 1, t, restart =>
    match t.removeNext restart with
    | (t, none, _) => some ([], t)
    | (t, some node, restart) => (removeAll fuel t restart).map fun r => (node :: r.1, r.2)

/-! ## What follows a key -/

/-- The nodes after the one with the key, or else those of the later chains. -/
def rest (keyshift : ℕ) (t : HashSimple) (key : ℕ) : List (ℕ × ℕ) :=
  Chained.rest Prod.fst (t.hash keyshift) (t.hashMask + 1) t.chain key

theorem getFirst_eq (t : HashSimple) : t.getFirst = t.nodes.head? := by
  rw [getFirst, Chained.firstFrom_eq, Chained.allFrom_zero]
  rfl

theorem getNextWithFF_eq (t : HashSimple) (key : ℕ) :
    t.getNextWithFF keyshift key = (t.rest keyshift key).head? := by
  rw [rest, Chained.head?_rest, getNextWithFF, search, nextChain]
  cases Chained.after Prod.fst key (t.chain (t.hash keyshift key)) <;> rfl

theorem search_none (h : Inv keyshift t m) :
    t.search keyshift key = none ↔ m.lookup key = none := by
  rw [search, Option.map_eq_none_iff, ← h.placed.lookup h.lists, Option.map_eq_none_iff]

theorem getNext_eq (t : HashSimple) (key : ℕ) : t.getNext keyshift key =
    if (t.search keyshift key).isSome then .ok (t.rest keyshift key).head?
    else .error .ENOENT := by
  rw [← getNextWithFF_eq, getNext, getNextWithFF]
  cases t.search keyshift key <;> rfl

variable {node : ℕ × ℕ}

theorem Inv.getNext (h : Inv keyshift t m) {pre post : List (ℕ × ℕ)}
    (hsplit : t.nodes = pre ++ node :: post) :
    t.getNext keyshift node.1 = .ok post.head? := by
  have hmem : node ∈ t.nodes := by
    rw [hsplit]
    exact List.mem_append_right pre List.mem_cons_self
  have hsome : t.search keyshift node.1 ≠ none := by
    rw [Ne, search_none h, h.lists.lookup_of_mem hmem]
    nofun
  rw [getNext_eq, if_pos (Option.isSome_iff_ne_none.mpr hsome)]
  exact congrArg (fun l => Except.ok (List.head? l)) (h.placed.rest_eq hsplit)

theorem Inv.walkFrom (h : Inv keyshift t m) (post : List (ℕ × ℕ)) :
    ∀ (pre : List (ℕ × ℕ)) (node : ℕ × ℕ) (fuel : ℕ), t.nodes = pre ++ node :: post →
      post.length < fuel → t.walkFrom keyshift fuel node.1 = some post := by
  induction post with
  | nil =>
    intro pre node fuel hsplit hfuel
    cases fuel with
    | zero => cases hfuel
    | succ fuel => rw [HashSimple.walkFrom, h.getNext hsplit]; rfl
  | cons next post ih =>
    intro pre node fuel hsplit hfuel
    cases fuel with
    | zero => cases hfuel
    | succ fuel =>
      have hnext : t.nodes = (pre ++ [node]) ++ next :: post := by
        rw [hsplit]
        simp
      have hlast := ih (pre ++ [node]) next fuel hnext (Nat.lt_of_succ_lt_succ hfuel)
      rw [HashSimple.walkFrom, h.getNext hsplit]
      simp only [List.head?_cons, hlast, Option.map_some]

theorem Inv.walk (h : Inv keyshift t m) : t.walk keyshift = some t.nodes := by
  rw [HashSimple.walk, getFirst_eq]
  cases hnodes : t.nodes with
  | nil => rfl
  | cons node post =>
    have hlt : post.length < t.numNodes := by
      rw [h.counted, hnodes]
      exact Nat.lt_succ_self _
    have hrest := h.walkFrom post [] node t.numNodes hnodes hlt
    simp only [List.head?_cons, hrest, Option.map_some]

/-! ## Removing everything -/

theorem removeNext_none {restart : ℕ} (hnone : (t.removeNext restart).2.1 = none) :
    (t.removeNext restart).1 = t ∧ Chained.allFrom t.chain (t.hashMask + 1) restart = [] := by
  rw [HashSimple.removeNext] at hnone ⊢
  cases hfirst : Buckets.firstUsed (fun i => (t.chain i).head?) (t.hashMask + 1) restart with
  | none =>
    refine ⟨rfl, List.head?_eq_none_iff.mp ?_⟩
    rw [← Chained.firstFrom_eq, Chained.firstFrom, Buckets.firstFrom, hfirst]
    rfl
  | some i =>
    obtain ⟨hused, -, -⟩ := List.find?_range'_eq_some.mp hfirst
    rw [hfirst] at hnone
    have hnone : (t.chain i).head? = none := hnone
    simp [hnone] at hused

theorem removeNext_some {restart : ℕ} (hsome : (t.removeNext restart).2.1 = some node) :
    Chained.allFrom t.chain (t.hashMask + 1) restart =
        node :: Chained.allFrom (t.removeNext restart).1.chain
          ((t.removeNext restart).1.hashMask + 1) (t.removeNext restart).2.2 ∧
      (t.removeNext restart).2.2 ≤ (t.removeNext restart).1.hashMask ∧
      (t.removeNext restart).1.numNodes = t.numNodes - 1 := by
  rw [HashSimple.removeNext] at hsome ⊢
  cases hfirst : Buckets.firstUsed (fun i => (t.chain i).head?) (t.hashMask + 1) restart with
  | none =>
    rw [hfirst] at hsome
    cases hsome
  | some i =>
    obtain ⟨-, hrange, -⟩ := List.find?_range'_eq_some.mp hfirst
    have hempty : ∀ j, restart ≤ j → j < i → t.chain j = [] := fun j hle hlt =>
      List.head?_eq_none_iff.mp (Buckets.firstUsed_some hfirst j hle hlt)
    rw [List.mem_range'_1] at hrange
    rw [hfirst] at hsome
    obtain ⟨rest, hchain⟩ := List.head?_eq_some_iff.mp (show (t.chain i).head? = some node from hsome)
    rw [Chained.allFrom_skip hrange.1 hempty]
    simp only [hchain, List.tail_cons]
    exact ⟨Chained.allFrom_pop (by omega) hchain, by omega, trivial⟩

theorem Inv.removeAll {fuel : ℕ} : ∀ {t : HashSimple} {m : AList fun _ : ℕ => ℕ} {restart : ℕ},
    Inv keyshift t m → Chained.allFrom t.chain (t.hashMask + 1) restart = t.nodes →
    t.nodes.length < fuel → ∃ t', t.removeAll fuel restart = some (t.nodes, t') ∧
      t'.numNodes = 0 ∧ t'.nodes = [] := by
  induction fuel with
  | zero => exact fun _ _ hfuel => absurd hfuel (Nat.not_lt_zero _)
  | succ fuel ih =>
    intro t m restart h hall hfuel
    have hstep := h.removeNext restart
    rw [HashSimple.removeAll]
    rcases hnext : t.removeNext restart with ⟨t', node | node, restart'⟩
    · obtain ⟨hsame, hend⟩ := removeNext_none (congrArg (fun r => r.2.1) hnext)
      rw [hnext] at hsame
      obtain rfl : t' = t := hsame
      have hempty := hall.symm.trans hend
      exact ⟨t', by rw [hempty], by rw [h.counted, hempty]; rfl, hempty⟩
    · have hfirst := removeNext_some (congrArg (fun r => r.2.1) hnext)
      rw [hnext] at hstep hfirst
      obtain ⟨hfirst, hle, hcount⟩ := hfirst
      have hinv : Inv keyshift t' (m.erase node.1) := hstep.2
      simp only at hfirst hle hcount
      have hnodes := hall.symm.trans hfirst
      have hlength := congrArg List.length hnodes
      rw [List.length_cons] at hlength
      -- nothing is left before the place where the search goes on
      have hsplit := Chained.all_split t'.chain
        (show restart' ≤ t'.hashMask + 1 by omega)
      have hall' : Chained.allFrom t'.chain (t'.hashMask + 1) restart' = t'.nodes := by
        have hcounted := hinv.counted
        rw [nodes, hsplit, List.length_append] at hcounted
        have hzero : (Buckets.all t'.chain restart').length = 0 := by
          have := h.counted
          omega
        rw [nodes, hsplit, List.length_eq_zero_iff.mp hzero, List.nil_append]
      rw [hall'] at hnodes hlength
      obtain ⟨t'', heq, hdone⟩ := ih hinv hall' (by omega)
      refine ⟨t'', ?_, hdone⟩
      simp only [heq, Option.map_some, hnodes]

/-! ## Sweeps -/

/-- The nodes that a sweep has still to return can only become fewer. -/
structure Shrinks (keyshift : ℕ) (t₀ t : HashSimple) : Prop where
  hashMask : t.hashMask = t₀.hashMask
  chain : ∀ i, (t.chain i).Sublist (t₀.chain i)

theorem unlink_sublist {datum : ℕ} {l rest : List (ℕ × ℕ)}
    (h : unlink key l = some (datum, rest)) : rest.Sublist l := by
  obtain ⟨pre, post, rfl, rfl⟩ := (unlink_eq key l).2 datum rest h
  exact List.Sublist.append (List.Sublist.refl pre) (List.sublist_cons_self _ post)

theorem Shrinks.remove (h : Shrinks keyshift t₀ t) (key : ℕ) :
    Shrinks keyshift t₀ (t.remove keyshift key).1 := by
  rw [HashSimple.remove]
  cases hunlink : unlink key (t.chain (t.hash keyshift key)) with
  | none => exact h
  | some r =>
    refine ⟨h.hashMask, fun i => ?_⟩
    by_cases hi : i = t.hash keyshift key
    · subst hi
      simp only [Function.update_self]
      exact (unlink_sublist hunlink).trans (h.chain _)
    · simp only [Function.update_of_ne hi]
      exact h.chain i

theorem Shrinks.rest_subset (h : Shrinks keyshift t₀ t) (h₀ : Inv keyshift t₀ m) (key : ℕ) :
    t.rest keyshift key ⊆ t₀.rest keyshift key := by
  have hhash : t.hash keyshift = t₀.hash keyshift := by
    unfold hash
    rw [h.hashMask]
  rw [rest, rest, hhash, h.hashMask]
  exact h₀.placed.rest_subset (fun i _ => h.chain i) key

/-- What has been returned is not among the nodes that the sweep has still to return. -/
structure Swept (keyshift : ℕ) (t₀ : HashSimple) (keys : List ℕ) (key : ℕ) (t : HashSimple) :
    Prop where
  shrinks : Shrinks keyshift t₀ t
  nodup : keys.Nodup
  passed : ∀ node ∈ t₀.rest keyshift key, node.1 ∉ keys

theorem Swept.next (h₀ : Inv keyshift t₀ m) {keys : List ℕ} (h : Swept keyshift t₀ keys key t)
    (hnode : node ∈ t₀.rest keyshift key) :
    Swept keyshift t₀ (node.1 :: keys) node.1 t := by
  obtain ⟨pre, hsuffix⟩ := h₀.placed.rest_suffix key
  obtain ⟨pre', post, hrest⟩ := List.append_of_mem hnode
  have hnodes : t₀.nodes = (pre ++ pre') ++ node :: post := by
    rw [List.append_assoc, ← hrest]
    exact hsuffix
  have hlater : t₀.rest keyshift node.1 = post := h₀.placed.rest_eq hnodes
  refine ⟨h.shrinks, List.nodup_cons.mpr ⟨h.passed node hnode, h.nodup⟩, ?_⟩
  rw [hlater]
  intro later hmem hkeys
  rcases List.mem_cons.mp hkeys with heq | hkeys
  · have hnodup := h₀.lists.nodup
    rw [hnodes, List.map_append, List.map_cons] at hnodup
    have hnot := (List.nodup_cons.mp (List.nodup_append.mp hnodup).2.1).1
    exact hnot (heq ▸ List.mem_map_of_mem hmem)
  · refine h.passed later ?_ hkeys
    rw [hrest]
    exact List.mem_append_right pre' (List.mem_cons_of_mem node hmem)

theorem Sweep.swept (h₀ : Inv keyshift t₀ m) {keys : List ℕ} (h : Sweep keyshift t₀ keys key t) :
    Swept keyshift t₀ keys key t := by
  induction h with
  | @first node h =>
    rw [getFirst_eq] at h
    obtain ⟨post, hnodes⟩ := List.head?_eq_some_iff.mp h
    refine ⟨⟨rfl, fun i => List.Sublist.refl _⟩, List.nodup_singleton _, ?_⟩
    have hrest : t₀.rest keyshift node.1 = post :=
      h₀.placed.rest_eq (show t₀.nodes = [] ++ node :: post from hnodes)
    rw [hrest]
    intro later hmem hkeys
    have hnodup := h₀.lists.nodup
    rw [hnodes, List.map_cons, List.nodup_cons] at hnodup
    exact hnodup.1 (List.mem_singleton.mp hkeys ▸ List.mem_map_of_mem hmem)
  | start key =>
    exact ⟨⟨rfl, fun i => List.Sublist.refl _⟩, List.nodup_nil, fun _ _ => List.not_mem_nil⟩
  | @next keys key t node h hnext ih =>
    rw [getNextWithFF_eq] at hnext
    exact ih.next h₀ (ih.shrinks.rest_subset h₀ key (List.mem_of_mem_head? hnext))
  | remove h gone ih => exact ⟨ih.shrinks.remove gone, ih.nodup, ih.passed⟩

/-! ## Runs -/

inductive Op
  | add (key datum : ℕ) (alloc : Bool)
  | find (key : ℕ)
  | remove (key : ℕ)
  | removeNext (restart : ℕ)
  | extendHash (alloc : Bool)
deriving DecidableEq

/-- A table, and the map that its callers have in mind. -/
structure Client where
  table : HashSimple
  map : AList fun _ : ℕ => ℕ

def step (keyshift : ℕ) (s : Client) : Op → Client
  | .add key datum alloc =>
    ⟨s.table.add keyshift key datum alloc, s.map.insert key datum⟩
  | .find _ => s
  | .remove key => ⟨(s.table.remove keyshift key).1, s.map.erase key⟩
  | .removeNext restart =>
    match s.table.removeNext restart with
    | (t, none, _) => ⟨t, s.map⟩
    | (t, some node, _) => ⟨t, s.map.erase node.1⟩
  | .extendHash alloc => ⟨s.table.extendHash keyshift alloc, s.map⟩

/-- Only absent keys are added. -/
def adm (s : Client) : Op → Prop
  | .add key _ _ => s.map.lookup key = none
  | _ => True

instance (s : Client) : (op : Op) → Decidable (adm s op)
  | .add .. => inferInstanceAs (Decidable (_ = _))
  | .find _ | .remove _ | .removeNext _ | .extendHash _ => isTrue trivial

def tables (keyshift : ℕ) : Machine Client Op := ⟨step keyshift, adm⟩

instance (keyshift : ℕ) (s : Client) (op : Op) : Decidable ((tables keyshift).adm s op) :=
  inferInstanceAs (Decidable (adm s op))

def start : Client := ⟨init, ∅⟩

theorem step_inv {s : Client} (h : Inv keyshift s.table s.map) {op : Op} (hadm : adm s op) :
    Inv keyshift (step keyshift s op).table (step keyshift s op).map := by
  cases op with
  | add key datum alloc => exact h.add hadm datum alloc
  | find key => exact h
  | remove key => exact (h.remove key).2
  | removeNext restart =>
    have hstep := h.removeNext restart
    simp only [step]
    rcases hnext : s.table.removeNext restart with ⟨t, node | node, r⟩
    · rw [hnext] at hstep
      obtain rfl : t = s.table := hstep
      exact h
    · rw [hnext] at hstep
      exact hstep.2
  | extendHash alloc => exact h.extendHash alloc

theorem run_inv {s : Client} {ops : List Op} (hrun : (tables keyshift).Run start ops s) :
    Inv keyshift s.table s.map :=
  hrun.invariant (I := fun s => Inv keyshift s.table s.map) (init_inv keyshift)
    fun _ _ h hadm => step_inv h hadm

/-- The list has each pair of the map once. -/
def Enumerates (l : List (ℕ × ℕ)) (m : AList fun _ : ℕ => ℕ) : Prop :=
  (l.map Prod.fst).Nodup ∧ ∀ key datum, (key, datum) ∈ l ↔ m.lookup key = some datum

/-- What the operations on the table tell about the map. -/
structure Refines (keyshift : ℕ) (t : HashSimple) (m : AList fun _ : ℕ => ℕ) : Prop where
  find : ∀ key, t.find keyshift key = m.lookup key
  remove : ∀ key, (t.remove keyshift key).2 = m.lookup key
  removeNext : ∀ restart node, (t.removeNext restart).2.1 = some node →
    m.lookup node.1 = some node.2
  numNodes : t.numNodes = m.keys.length
  walk : ∃ l, t.walk keyshift = some l ∧ Enumerates l m
  removeAll : ∃ l t', t.removeAll (t.numNodes + 1) 0 = some (l, t') ∧ Enumerates l m ∧
    t'.numNodes = 0 ∧ ∀ i ≤ t'.hashMask, t'.chain i = []
  sweep : ∀ keys key t', Sweep keyshift t keys key t' → keys.Nodup

theorem Inv.enumerates (h : Inv keyshift t m) : Enumerates t.nodes m := by
  refine ⟨h.lists.nodup, fun key datum => ?_⟩
  rw [← h.lists.mem]
  constructor
  · exact fun hmem => ⟨_, hmem, rfl, rfl⟩
  · rintro ⟨node, hmem, rfl, rfl⟩
    exact hmem

theorem Inv.refines (h : Inv keyshift t m) : Refines keyshift t m where
  find := h.find
  remove := fun key => (h.remove key).1
  removeNext := by
    intro restart node hnode
    have hstep := h.removeNext restart
    rw [hnode] at hstep
    exact hstep.1
  numNodes := by
    rw [h.counted, h.lists.length_eq]
    exact (List.length_map _).symm
  walk := ⟨_, h.walk, h.enumerates⟩
  removeAll := by
    have hlt : t.nodes.length < t.numNodes + 1 := h.counted ▸ Nat.lt_succ_self _
    obtain ⟨t', heq, hzero, hempty⟩ := h.removeAll Chained.allFrom_zero hlt
    refine ⟨_, t', heq, h.enumerates, hzero, fun i hi => ?_⟩
    exact List.flatMap_eq_nil_iff.mp hempty i (List.mem_range.mpr (Nat.lt_succ_of_le hi))
  sweep := fun keys key t' hsweep => (hsweep.swept h).nodup

/-- **The table is a finite map.** -/
theorem run_refinesMap {s : Client} {ops : List Op} (hrun : (tables keyshift).Run start ops s) :
    Refines keyshift s.table s.map := (run_inv hrun).refines

theorem run_refinesMap_extended : ∃ s : Client, (tables 0).Run start
    [.add 1 10 true, .add 5 50 true, .add 9 90 true, .removeNext 0, .add 129 7 true] s ∧
    Refines 0 s.table s.map :=
  ⟨_, Machine.Admits.run (by decide +kernel), run_refinesMap (Machine.Admits.run (by decide +kernel))⟩

/-! ## Rewinding -/

/-- The first node of the nearest place before `i` that is used. -/
def nearest (t : HashSimple) (i : ℕ) : Option (ℕ × ℕ) :=
  (List.range i).reverse.findSome? fun j => (t.chain j).head?

/-- The answer when the key is absent. -/
def rewound (keyshift : ℕ) (t : HashSimple) (key full : ℕ) : Option (ℕ × ℕ) :=
  if full = 1 then t.nodes.head?
  else (t.nearest (t.hash keyshift key + 1)).or t.nodes.head?

/-- What the comment of `getNextWithRW` says: it comes to an end inside the table, with the node
after the one of the key, or if the key is absent with the one that it rewinds to. -/
def FollowsComment (keyshift : ℕ) (t : HashSimple) (key full : ℕ) : Prop :=
  ∃ r, t.getNextWithRW keyshift key full = .ok r ∧
    (∀ pre node post, t.nodes = pre ++ node :: post → node.1 = key → r = post.head?) ∧
    ((∀ node ∈ t.nodes, node.1 ≠ key) → r = t.rewound keyshift key full)

theorem nearest_succ (t : HashSimple) (i : ℕ) :
    t.nearest (i + 1) = (t.chain i).head?.or (t.nearest i) := by
  rw [nearest, List.range_succ, List.reverse_append, List.reverse_singleton,
    List.singleton_append, List.findSome?_cons]
  cases (t.chain i).head? <;> rfl

theorem nearest_none {i : ℕ} : t.nearest i = none ↔ ∀ j < i, t.chain j = [] := by
  simp [nearest]

theorem scanBack_eq (t : HashSimple) (i : ℕ) : t.scanBack i =
    match t.nearest i with
    | none => .error .outOfBounds
    | some node => .ok node := by
  induction i with
  | zero => rfl
  | succ i ih =>
    rw [scanBack, nearest_succ]
    cases t.chain i with
    | nil => exact ih
    | cons node rest => rfl

/-- The key is absent, no full rewind is asked for, and there is nothing in the place of the key
and in those before it. -/
def NothingBefore (keyshift : ℕ) (t : HashSimple) (key full : ℕ) : Prop :=
  (∀ node ∈ t.nodes, node.1 ≠ key) ∧ full ≠ 1 ∧ ∀ i ≤ t.hash keyshift key, t.chain i = []

theorem Inv.getNextWithRW_present (h : Inv keyshift t m) {pre post : List (ℕ × ℕ)}
    (hsplit : t.nodes = pre ++ node :: post) (full : ℕ) :
    t.getNextWithRW keyshift node.1 full = .ok post.head? := by
  have hnext := h.getNext hsplit
  rw [HashSimple.getNext] at hnext
  rw [getNextWithRW]
  cases hsearch : t.search keyshift node.1 with
  | none =>
    rw [hsearch] at hnext
    cases hnext
  | some next =>
    rw [hsearch] at hnext
    exact hnext

theorem Inv.getNextWithRW_absent (h : Inv keyshift t m) (hnone : m.lookup key = none)
    (full : ℕ) : t.getNextWithRW keyshift key full =
      if full ≠ 1 ∧ t.nearest (t.hash keyshift key + 1) = none then .error .outOfBounds
      else .ok (t.rewound keyshift key full) := by
  rw [getNextWithRW, (search_none h).mpr hnone, rewound]
  simp only
  by_cases hfull : full = 1
  · rw [if_neg (not_not.mpr hfull), if_neg fun hc => hc.1 hfull, if_pos hfull, getFirst_eq]
  · have hnear := nearest_succ t (t.hash keyshift key)
    rw [if_pos hfull, if_neg hfull]
    cases hchain : t.chain (t.hash keyshift key) with
    | nil =>
      rw [hchain, List.head?_nil, Option.none_or] at hnear
      simp only
      rw [hnear, scanBack_eq]
      cases hprev : t.nearest (t.hash keyshift key) with
      | none => rw [if_pos ⟨hfull, rfl⟩]; rfl
      | some node => rw [if_neg fun hc => Option.some_ne_none node hc.2]; rfl
    | cons node rest =>
      rw [hchain, List.head?_cons, Option.some_or] at hnear
      rw [hnear, if_neg fun hc => Option.some_ne_none node hc.2]
      rfl

/-- `getNextWithRW` does what its comment says, unless it scans backwards past the start. -/
theorem run_getNextWithRW_iff {s : Client} {ops : List Op}
    (hrun : (tables keyshift).Run start ops s) (key full : ℕ) :
    FollowsComment keyshift s.table key full ↔ ¬ NothingBefore keyshift s.table key full := by
  have h := run_inv hrun
  cases hlookup : s.map.lookup key with
  | some datum =>
    obtain ⟨node, hmem, rfl, -⟩ := (h.lists.mem key datum).mpr hlookup
    obtain ⟨pre, post, hsplit⟩ := List.append_of_mem hmem
    refine iff_of_true ⟨post.head?, h.getNextWithRW_present hsplit full, ?_, ?_⟩
      fun hc => hc.1 node hmem rfl
    · intro pre' node' post' hsplit' hkey
      have heq := h.getNextWithRW_present hsplit' full
      rw [hkey, h.getNextWithRW_present hsplit full] at heq
      exact Except.ok.inj heq
    · exact fun hc => absurd rfl (hc node hmem)
  | none =>
    have habsent := h.lists.lookup_none.mp hlookup
    have hresult := h.getNextWithRW_absent hlookup full
    have hbefore : NothingBefore keyshift s.table key full ↔
        full ≠ 1 ∧ s.table.nearest (s.table.hash keyshift key + 1) = none := by
      rw [NothingBefore, and_iff_right habsent, nearest_none]
      simp only [Nat.lt_succ_iff]
    rw [hbefore]
    by_cases hc : full ≠ 1 ∧ s.table.nearest (s.table.hash keyshift key + 1) = none
    · refine iff_of_false ?_ (not_not.mpr hc)
      rintro ⟨r, hr, -⟩
      rw [hresult, if_pos hc] at hr
      cases hr
    · refine iff_of_true ⟨_, by rw [hresult, if_neg hc], ?_, fun _ => rfl⟩ hc
      intro pre node post hsplit hkey
      refine absurd hkey (habsent node ?_)
      rw [hsplit]
      exact List.mem_append_right pre List.mem_cons_self

theorem run_getNextWithRW_iff_rewinds : ∃ s : Client,
    (tables 0).Run start [.add 1 10 true, .add 6 60 true, .remove 6] s ∧
    FollowsComment 0 s.table 6 0 := by
  refine ⟨_, Machine.Admits.run (by decide +kernel),
    (run_getNextWithRW_iff (Machine.Admits.run (by decide +kernel)) 6 0).mpr ?_⟩
  rintro ⟨-, -, hempty⟩
  have hchain := hempty 1 (by decide +kernel)
  revert hchain
  decide +kernel

/-- In an empty table a partial rewind leaves the table. -/
theorem not_followsComment : ¬ ∀ (s : Client) (ops : List Op) (key full : ℕ),
    (tables 0).Run start ops s → FollowsComment 0 s.table key full := by
  intro h
  obtain ⟨r, hr, -⟩ := h start [] 0 0 .nil
  have houtOfBounds : init.getNextWithRW 0 0 0 = .error .outOfBounds := by decide +kernel
  rw [show start.table = init from rfl, houtOfBounds] at hr
  cases hr

end HashSimple

end K42
