import K42.Lib.Chained
import K42.Lib.Run

/-!
# Simple hash tables

A table of chains that grows: before a node is added to a table with more than half as many
nodes as places, all nodes are put into a larger one. A place is found by shifting the key.

A chain is the list of its nodes, the head first. `enqueue` puts a node in front.
-/

namespace K42

/-- A node is a key and a datum. `hashMask` is the number of places less one. -/
structure HashSimple where
  chain : ℕ → List (ℕ × ℕ)
  hashMask : ℕ
  numNodes : ℕ

namespace HashSimple

def InitialHashTableSize : ℕ := 4

def init : HashSimple := ⟨fun _ => [], InitialHashTableSize - 1, 0⟩

/-- All nodes, in the order of the places. -/
def nodes (t : HashSimple) : List (ℕ × ℕ) := Buckets.all t.chain (t.hashMask + 1)

section

variable (keyshift : ℕ)

def hash (t : HashSimple) (key : ℕ) : ℕ := (key >>> keyshift) &&& t.hashMask

def enqueue (t : HashSimple) (node : ℕ × ℕ) : HashSimple :=
  { t with
    chain := Function.update t.chain (t.hash keyshift node.1)
      (node :: t.chain (t.hash keyshift node.1))
    numNodes := t.numNodes + 1 }

/-- `while (2*numNodes >= i) i = 2*i;` -/
def enlarge (numNodes : ℕ) : (fuel i : ℕ) → ℕ
  | 0, i => i
  | fuel + 1, i => if i ≤ 2 * numNodes then enlarge numNodes fuel (2 * i) else i

/-- The number of places of the next table: at least 128, and twice the number in use. -/
def newSize (t : HashSimple) : ℕ :=
  let i := 2 * (t.hashMask + 1)
  enlarge t.numNodes (2 * t.numNodes) (if i < 128 then 128 else i)

/-- The nodes of the old table are put into the new one, unless it cannot be allocated. -/
def extendHash (t : HashSimple) (alloc : Bool) : HashSimple :=
  if alloc then t.nodes.foldl (enqueue keyshift) ⟨fun _ => [], t.newSize - 1, 0⟩ else t

def add (t : HashSimple) (key datum : ℕ) (alloc : Bool) : HashSimple :=
  let t := if t.hashMask < 2 * t.numNodes then t.extendHash keyshift alloc else t
  t.enqueue keyshift (key, datum)

def find (t : HashSimple) (key : ℕ) : Option ℕ :=
  (Chained.after Prod.fst key (t.chain (t.hash keyshift key))).map fun r => r.1.2

/-- The walk of `remove` along a chain: the node that is found, and the chain without it. -/
def unlink (key : ℕ) : List (ℕ × ℕ) → Option (ℕ × List (ℕ × ℕ))
  | [] => none
  | node :: next =>
    if node.1 = key then some (node.2, next)
    else (unlink key next).map fun r => (r.1, node :: r.2)

def remove (t : HashSimple) (key : ℕ) : HashSimple × Option ℕ :=
  match unlink key (t.chain (t.hash keyshift key)) with
  | none => (t, none)
  | some (datum, l) =>
    ({ t with
        chain := Function.update t.chain (t.hash keyshift key) l
        numNodes := t.numNodes - 1 }, some datum)

end

/-- The table, the pair that is removed and the place where the search stopped. -/
def removeNext (t : HashSimple) (restart : ℕ) : HashSimple × Option (ℕ × ℕ) × ℕ :=
  match Buckets.firstUsed (fun i => (t.chain i).head?) (t.hashMask + 1) restart with
  | none => (t, none, max restart (t.hashMask + 1))
  | some i =>
    ({ t with
        chain := Function.update t.chain i (t.chain i).tail
        numNodes := t.numNodes - 1 }, (t.chain i).head?, i)

/-! ## The map -/

variable {keyshift : ℕ} {t : HashSimple} {m : AList fun _ : ℕ => ℕ} {key datum : ℕ}

theorem hash_lt (t : HashSimple) (key : ℕ) : t.hash keyshift key < t.hashMask + 1 :=
  Nat.lt_succ_of_le Nat.and_le_right

/-- The nodes are in their places and counted, and are the pairs of the map. -/
structure Inv (keyshift : ℕ) (t : HashSimple) (m : AList fun _ : ℕ => ℕ) : Prop where
  placed : Chained.Placed Prod.fst (t.hash keyshift) (t.hashMask + 1) t.chain
  counted : t.numNodes = t.nodes.length
  lists : Chained.Lists Prod.fst Prod.snd t.nodes m

theorem empty_placed (n : ℕ) (keyshift : ℕ) :
    Chained.Placed Prod.fst (hash keyshift ⟨fun _ => [], n, 0⟩) (n + 1)
      (fun _ => ([] : List (ℕ × ℕ))) :=
  ⟨hash_lt _, fun _ _ _ => nofun, fun _ _ => List.nodup_nil⟩

theorem empty_nodes (n : ℕ) : nodes ⟨fun _ => [], n, 0⟩ = [] := by
  simp [nodes, Buckets.all]

theorem empty_inv (keyshift n : ℕ) : Inv keyshift ⟨fun _ => [], n, 0⟩ ∅ where
  placed := empty_placed n keyshift
  counted := by rw [empty_nodes]; rfl
  lists := by rw [empty_nodes]; exact .nil

theorem init_inv (keyshift : ℕ) : Inv keyshift init ∅ := empty_inv keyshift _

theorem enqueue_perm (keyshift : ℕ) (t : HashSimple) (node : ℕ × ℕ) :
    (t.enqueue keyshift node).nodes.Perm (node :: t.nodes) :=
  Chained.push_perm (hash_lt t node.1)

theorem Inv.enqueue (h : Inv keyshift t m) {node : ℕ × ℕ} (hnew : ∀ b ∈ t.nodes, b.1 ≠ node.1) :
    Inv keyshift (t.enqueue keyshift node) (m.insert node.1 node.2) where
  placed := h.placed.push hnew
  counted := by
    rw [(enqueue_perm keyshift t node).length_eq]
    exact congrArg (· + 1) h.counted
  lists := (h.lists.insert hnew).perm (enqueue_perm keyshift t node).symm

theorem Inv.fresh (h : Inv keyshift t m) (hnew : m.lookup key = none) :
    ∀ b ∈ t.nodes, b.1 ≠ key := h.lists.lookup_none.mp hnew

theorem Inv.enqueueAll (nodes : List (ℕ × ℕ)) : ∀ {t : HashSimple} {m : AList fun _ : ℕ => ℕ},
    Inv keyshift t m → (nodes.map Prod.fst).Nodup → (∀ a ∈ nodes, ∀ b ∈ t.nodes, b.1 ≠ a.1) →
    ∃ m', Inv keyshift (nodes.foldl (HashSimple.enqueue keyshift) t) m' ∧
      (nodes.foldl (HashSimple.enqueue keyshift) t).nodes.Perm (nodes ++ t.nodes) := by
  induction nodes with
  | nil => exact fun h _ _ => ⟨_, h, List.Perm.refl _⟩
  | cons a nodes ih =>
    intro t m h hnodup hnew
    rw [List.map_cons, List.nodup_cons] at hnodup
    have hperm := enqueue_perm keyshift t a
    have hrest : ∀ b ∈ nodes, ∀ c ∈ (t.enqueue keyshift a).nodes, c.1 ≠ b.1 := by
      intro b hb c hc
      rcases List.mem_cons.mp (hperm.mem_iff.mp hc) with rfl | hc
      · intro heq
        refine hnodup.1 ?_
        rw [heq]
        exact List.mem_map_of_mem hb
      · exact hnew b (List.mem_cons_of_mem a hb) c hc
    obtain ⟨m', hinv, hall⟩ := ih (h.enqueue (hnew a List.mem_cons_self)) hnodup.2 hrest
    refine ⟨m', hinv, hall.trans ?_⟩
    exact (hperm.append_left nodes).trans List.perm_middle

theorem Inv.extendHash (h : Inv keyshift t m) (alloc : Bool) :
    Inv keyshift (t.extendHash keyshift alloc) m := by
  cases alloc with
  | false => exact h
  | true =>
    obtain ⟨m', hinv, hperm⟩ := Inv.enqueueAll t.nodes (empty_inv keyshift (t.newSize - 1))
      h.lists.nodup (by rw [empty_nodes]; nofun)
    rw [empty_nodes, List.append_nil] at hperm
    exact ⟨hinv.placed, hinv.counted, h.lists.perm hperm.symm⟩

theorem Inv.add (h : Inv keyshift t m) (hnew : m.lookup key = none) (datum : ℕ) (alloc : Bool) :
    Inv keyshift (t.add keyshift key datum alloc) (m.insert key datum) := by
  rw [HashSimple.add]
  split
  · exact (h.extendHash alloc).enqueue ((h.extendHash alloc).fresh hnew)
  · exact h.enqueue (h.fresh hnew)

theorem Inv.find (h : Inv keyshift t m) (key : ℕ) : t.find keyshift key = m.lookup key :=
  h.placed.lookup h.lists key

/-! ## Removing -/

theorem unlink_eq (key : ℕ) (l : List (ℕ × ℕ)) : (unlink key l = none ↔
    Chained.after Prod.fst key l = none) ∧ ∀ datum rest, unlink key l = some (datum, rest) →
      ∃ pre post, l = pre ++ (key, datum) :: post ∧ rest = pre ++ post := by
  induction l with
  | nil => exact ⟨iff_of_true rfl rfl, nofun⟩
  | cons node l ih =>
    rw [unlink, Chained.after]
    by_cases hkey : node.1 = key
    · rw [if_pos hkey, if_pos hkey]
      refine ⟨by simp, fun datum rest h => ?_⟩
      cases h
      exact ⟨[], l, by rw [← hkey]; rfl, rfl⟩
    · rw [if_neg hkey, if_neg hkey]
      refine ⟨by rw [Option.map_eq_none_iff]; exact ih.1, fun datum rest h => ?_⟩
      obtain ⟨r, hr, heq⟩ := Option.map_eq_some_iff.mp h
      obtain ⟨pre, post, hsplit, hrest⟩ := ih.2 r.1 r.2 hr
      cases heq
      exact ⟨node :: pre, post, by rw [hsplit]; rfl, by rw [hrest]; rfl⟩

theorem Inv.unlinked (h : Inv keyshift t m) {i : ℕ} {pre post : List (ℕ × ℕ)} {node : ℕ × ℕ}
    (hi : i < t.hashMask + 1) (hsplit : t.chain i = pre ++ node :: post) :
    m.lookup node.1 = some node.2 ∧ Inv keyshift
      { t with chain := Function.update t.chain i (pre ++ post), numNodes := t.numNodes - 1 }
      (m.erase node.1) := by
  have hperm := Chained.unlink_perm hi hsplit
  have hlists := h.lists.perm hperm
  refine ⟨hlists.lookup_of_mem List.mem_cons_self, h.placed.unlink hi hsplit, ?_, hlists.erase⟩
  have hlength := hperm.length_eq
  rw [List.length_cons] at hlength
  change t.numNodes - 1 = _
  rw [h.counted]
  exact (congrArg (· - 1) hlength).trans (Nat.add_sub_cancel _ 1)

theorem Inv.remove (h : Inv keyshift t m) (key : ℕ) : (t.remove keyshift key).2 = m.lookup key ∧
      Inv keyshift (t.remove keyshift key).1 (m.erase key) := by
  obtain ⟨hnone, hsome⟩ := unlink_eq key (t.chain (t.hash keyshift key))
  rw [HashSimple.remove]
  cases hunlink : unlink key (t.chain (t.hash keyshift key)) with
  | none =>
    have hlookup := h.placed.lookup h.lists key
    rw [hnone.mp hunlink] at hlookup
    refine ⟨hlookup, ?_⟩
    have herase : m.erase key = m :=
      AList.ext (List.kerase_of_notMem_keys (AList.lookup_eq_none.mp hlookup.symm))
    rw [herase]
    exact h
  | some r =>
    obtain ⟨datum, rest⟩ := r
    obtain ⟨pre, post, hsplit, rfl⟩ := hsome datum rest hunlink
    obtain ⟨hlookup, hinv⟩ := h.unlinked (hash_lt t key) hsplit
    exact ⟨hlookup.symm, hinv⟩

theorem Inv.removeNext (h : Inv keyshift t m) (restart : ℕ) :
    match (t.removeNext restart).2.1 with
    | none => (t.removeNext restart).1 = t
    | some (key, datum) => m.lookup key = some datum ∧
        Inv keyshift (t.removeNext restart).1 (m.erase key) := by
  rw [HashSimple.removeNext]
  cases hfirst : Buckets.firstUsed (fun i => (t.chain i).head?) (t.hashMask + 1) restart with
  | none => rfl
  | some i =>
    obtain ⟨hused, hrange, -⟩ := List.find?_range'_eq_some.mp hfirst
    simp only
    cases hchain : t.chain i with
    | nil =>
      simp [hchain] at hused
    | cons node rest =>
      have hi : i < t.hashMask + 1 := by
        simp only [List.mem_range'_1] at hrange
        omega
      exact h.unlinked hi (show t.chain i = [] ++ node :: rest from hchain)

end HashSimple

end K42
