import Mathlib.Data.List.Basic

/-!
# Trees of paths

Each node has a key, a value and a list of children. A path leads from a node to the first child
with its first key, and so on. `lookup` is the value at the end of a path, and `visits` are the
values that a path meets on its way, each with what remains of the path.
-/

open List (mem_cons mem_cons_self mem_cons_of_mem nodup_cons map_cons)

universe u v

inductive PathTree (K : Type u) (V : Type v)
  | node (key : K) (val : V) (children : List (PathTree K V))

namespace PathTree

variable {K : Type u} {V : Type v}

def key : PathTree K V → K
  | node k _ _ => k

def val : PathTree K V → V
  | node _ v _ => v

def children : PathTree K V → List (PathTree K V)
  | node _ _ cs => cs

/-- The value of the root becomes `v`. -/
def setVal (v : V) : PathTree K V → PathTree K V
  | node k _ cs => node k v cs

/-- A child is added at the front. -/
def addChild : PathTree K V → PathTree K V → PathTree K V
  | node k v cs, c => node k v (c :: cs)

variable [DecidableEq K]

/-- The first tree with the key `k`. -/
def first (k : K) : List (PathTree K V) → Option (PathTree K V)
  | [] => none
  | c :: cs => if c.key = k then some c else first k cs

/-- `c` stands in for the first tree with its key. -/
def replaceFirst (c : PathTree K V) : List (PathTree K V) → List (PathTree K V)
  | [] => []
  | d :: cs => if d.key = c.key then c :: cs else d :: replaceFirst c cs

def findChild (k : K) (t : PathTree K V) : Option (PathTree K V) := first k t.children

def replaceChild : PathTree K V → PathTree K V → PathTree K V
  | node k v cs, c => node k v (replaceFirst c cs)

/-- The value at the end of a path. -/
def lookup : PathTree K V → List K → Option V
  | t, [] => some t.val
  | t, k :: p =>
    match t.findChild k with
    | none => none
    | some c => lookup c p

/-- The values on a path, and what remains of it. -/
def visits : PathTree K V → List K → List (V × List K)
  | t, [] => [(t.val, [])]
  | t, k :: p =>
    (t.val, k :: p) ::
      match t.findChild k with
      | none => []
      | some c => visits c p

variable {t c d : PathTree K V} {k k' : K} {v : V} {p q r : List K} {cs : List (PathTree K V)}

@[simp] theorem lookup_nil (t : PathTree K V) : t.lookup [] = some t.val := rfl

theorem lookup_cons (t : PathTree K V) (k : K) (p : List K) :
    t.lookup (k :: p) = (t.findChild k).bind fun c => c.lookup p := by
  rw [lookup]
  cases t.findChild k <;> rfl

omit [DecidableEq K] in
@[simp] theorem val_setVal (t : PathTree K V) (v : V) : (t.setVal v).val = v := by
  cases t
  rfl

omit [DecidableEq K] in
@[simp] theorem val_addChild (t c : PathTree K V) : (t.addChild c).val = t.val := by
  cases t
  rfl

@[simp] theorem val_replaceChild (t c : PathTree K V) : (t.replaceChild c).val = t.val := by
  cases t
  rfl

omit [DecidableEq K] in
@[simp] theorem key_setVal (t : PathTree K V) (v : V) : (t.setVal v).key = t.key := by
  cases t
  rfl

omit [DecidableEq K] in
@[simp] theorem key_addChild (t c : PathTree K V) : (t.addChild c).key = t.key := by
  cases t
  rfl

@[simp] theorem key_replaceChild (t c : PathTree K V) : (t.replaceChild c).key = t.key := by
  cases t
  rfl

@[simp] theorem findChild_setVal (t : PathTree K V) (v : V) (k : K) :
    (t.setVal v).findChild k = t.findChild k := by
  cases t
  rfl

theorem key_of_first (h : first k cs = some c) : c.key = k := by
  induction cs with
  | nil => cases h
  | cons d cs ih =>
    unfold first at h
    split at h
    case isTrue hk =>
        cases h
        exact hk
    case isFalse => exact ih h

theorem key_of_findChild (h : t.findChild k = some c) : c.key = k := key_of_first h

theorem findChild_addChild (t c : PathTree K V) (k : K) :
    (t.addChild c).findChild k = if c.key = k then some c else t.findChild k := by
  cases t
  rfl

theorem first_replaceFirst_ne (hk : k ≠ c.key) : first k (replaceFirst c cs) = first k cs := by
  induction cs with
  | nil => rfl
  | cons d cs ih =>
    unfold replaceFirst
    by_cases hd : d.key = c.key
    · rw [if_pos hd, first, first, if_neg hk.symm, if_neg (hd ▸ hk.symm)]
    · rw [if_neg hd, first, first, ih]

theorem first_replaceFirst_self (h : first c.key cs = some d) :
    first c.key (replaceFirst c cs) = some c := by
  induction cs with
  | nil => cases h
  | cons e cs ih =>
    unfold replaceFirst
    by_cases he : e.key = c.key
    · rw [if_pos he, first, if_pos rfl]
    · rw [first, if_neg he] at h
      rw [if_neg he, first, if_neg he]
      exact ih h

theorem findChild_replaceChild (h : t.findChild c.key = some d) (k : K) :
    (t.replaceChild c).findChild k = if c.key = k then some c else t.findChild k := by
  cases t
  by_cases hk : c.key = k
  · rw [if_pos hk, ← hk]
    exact first_replaceFirst_self h
  · rw [if_neg hk]
    exact first_replaceFirst_ne (Ne.symm hk)

theorem lookup_setVal_cons (t : PathTree K V) (v : V) (k : K) (p : List K) :
    (t.setVal v).lookup (k :: p) = t.lookup (k :: p) := by
  rw [lookup_cons, lookup_cons, findChild_setVal]

theorem lookup_addChild (t c : PathTree K V) (k : K) (p : List K) :
    (t.addChild c).lookup (k :: p) = if c.key = k then c.lookup p else t.lookup (k :: p) := by
  rw [lookup_cons, lookup_cons, findChild_addChild]
  split <;> rfl

theorem lookup_replaceChild (h : t.findChild c.key = some d) (k : K) (p : List K) :
    (t.replaceChild c).lookup (k :: p) = if c.key = k then c.lookup p else t.lookup (k :: p) := by
  rw [lookup_cons, lookup_cons, findChild_replaceChild h]
  split <;> rfl

/-! ## The values on a path -/

theorem mem_visits {x : V × List K} :
    x ∈ t.visits p ↔ ∃ q, p = q ++ x.2 ∧ t.lookup q = some x.1 := by
  obtain ⟨v, r⟩ := x
  induction p generalizing t with
  | nil =>
    constructor
    · intro hmem
      cases List.mem_singleton.1 hmem
      exact ⟨[], rfl, rfl⟩
    · rintro ⟨q, hq, hlookup⟩
      obtain ⟨rfl, rfl⟩ := List.append_eq_nil_iff.1 hq.symm
      cases hlookup
      exact List.mem_singleton.2 rfl
  | cons k p ih =>
    unfold visits
    constructor
    · intro hmem
      rcases mem_cons.1 hmem with hroot | hmem
      · cases hroot
        exact ⟨[], rfl, rfl⟩
      · cases hc : t.findChild k with
        | none =>
          rw [hc] at hmem
          cases hmem
        | some c =>
          rw [hc] at hmem
          obtain ⟨q, hq, hlookup⟩ := ih.1 hmem
          refine ⟨k :: q, by rw [hq]; rfl, ?_⟩
          rw [lookup_cons, hc]
          exact hlookup
    · rintro ⟨q, hq, hlookup⟩
      cases q with
      | nil =>
        cases hq
        cases hlookup
        exact mem_cons_self
      | cons k' q =>
        rw [List.cons_append, List.cons.injEq] at hq
        obtain ⟨rfl, hp⟩ := hq
        apply mem_cons_of_mem
        rw [lookup_cons] at hlookup
        obtain ⟨c, hc, hc'⟩ := Option.bind_eq_some_iff.1 hlookup
        rw [hc]
        exact ih.2 ⟨q, hp, hc'⟩

/-- Less and less of the path remains. -/
theorem visits_sorted : (t.visits p).Pairwise fun x y => y.2.length < x.2.length := by
  induction p generalizing t with
  | nil => exact List.pairwise_singleton _ _
  | cons k p ih =>
    unfold visits
    rw [List.pairwise_cons]
    cases hc : t.findChild k with
    | none => exact ⟨nofun, List.Pairwise.nil⟩
    | some c =>
      refine ⟨?_, ih⟩
      intro y hy
      obtain ⟨q, hq, -⟩ := mem_visits.1 hy
      change y.2.length < p.length + 1
      rw [hq, List.length_append]
      omega

/-! ## Trees without repeated keys -/

/-- Siblings have different keys, and all keys below the root are in `P`. -/
inductive Proper (P : K → Prop) : PathTree K V → Prop
  | of {k : K} {v : V} {cs : List (PathTree K V)} :
      (cs.map key).Nodup → (∀ c ∈ cs, P c.key) → (∀ c ∈ cs, Proper P c) → Proper P (node k v cs)

variable {P : K → Prop}

section

omit [DecidableEq K]

theorem Proper.intro (hnodup : (cs.map key).Nodup) (hcs : ∀ c ∈ cs, P c.key ∧ Proper P c) :
    Proper P (PathTree.node k v cs) :=
  .of hnodup (fun c hc => (hcs c hc).1) fun c hc => (hcs c hc).2

theorem Proper.children (h : Proper P t) :
    (t.children.map key).Nodup ∧ ∀ c ∈ t.children, P c.key ∧ Proper P c := by
  cases h with
  | of hnodup hkeys hcs => exact ⟨hnodup, fun c hc => ⟨hkeys c hc, hcs c hc⟩⟩

theorem proper_leaf (k : K) (v : V) : Proper P (node k v []) :=
  .intro List.nodup_nil nofun

theorem Proper.setVal (h : Proper P t) (v : V) : Proper P (t.setVal v) := by
  cases t with
  | node k w cs => exact .intro h.children.1 h.children.2

end

theorem mem_of_first (h : first k cs = some c) : c ∈ cs := by
  induction cs with
  | nil => cases h
  | cons d cs ih =>
    unfold first at h
    split at h
    case isTrue =>
        cases h
        exact mem_cons_self
    case isFalse => exact mem_cons_of_mem _ (ih h)

theorem first_eq_none (h : first k cs = none) : ∀ c ∈ cs, c.key ≠ k := by
  induction cs with
  | nil => exact nofun
  | cons d cs ih =>
    unfold first at h
    split at h
    case isTrue => cases h
    case isFalse hd =>
        intro c hc
        rcases mem_cons.1 hc with rfl | hc
        · exact hd
        · exact ih h c hc

theorem first_of_mem (hnodup : (cs.map key).Nodup) (hc : c ∈ cs) : first c.key cs = some c := by
  induction cs with
  | nil => cases hc
  | cons d cs ih =>
    obtain ⟨hd, hnodup⟩ := nodup_cons.1 hnodup
    unfold first
    rcases mem_cons.1 hc with rfl | hc
    · rw [if_pos rfl]
    · rw [if_neg]
      · exact ih hnodup hc
      · intro heq
        rw [heq] at hd
        exact hd (List.mem_map_of_mem hc)

theorem Proper.addChild (h : Proper P t) (hc : Proper P c) (hkey : P c.key)
    (hnew : t.findChild c.key = none) : Proper P (t.addChild c) := by
  cases t with
  | node k v cs =>
    obtain ⟨hnodup, hcs⟩ := h.children
    refine .intro ?_ ?_
    · rw [map_cons, nodup_cons]
      refine ⟨?_, hnodup⟩
      intro hmem
      obtain ⟨d, hd, heq⟩ := List.mem_map.1 hmem
      exact first_eq_none hnew d hd heq
    · intro d hd
      rcases mem_cons.1 hd with rfl | hd
      · exact ⟨hkey, hc⟩
      · exact hcs d hd

theorem keys_replaceFirst : (replaceFirst c cs).map key = cs.map key := by
  induction cs with
  | nil => rfl
  | cons d cs ih =>
    unfold replaceFirst
    split
    case isTrue hd => rw [map_cons, map_cons, hd]
    case isFalse => rw [map_cons, map_cons, ih]

theorem mem_replaceFirst (h : d ∈ replaceFirst c cs) : d = c ∨ d ∈ cs := by
  induction cs with
  | nil => cases h
  | cons e cs ih =>
    unfold replaceFirst at h
    split at h
    case isTrue => exact (mem_cons.1 h).imp_right (mem_cons_of_mem _)
    case isFalse =>
        rcases mem_cons.1 h with rfl | h
        · exact .inr mem_cons_self
        · exact (ih h).imp_right (mem_cons_of_mem _)

theorem Proper.replaceChild (h : Proper P t) (hc : Proper P c) (hkey : P c.key) :
    Proper P (t.replaceChild c) := by
  cases t with
  | node k v cs =>
    obtain ⟨hnodup, hcs⟩ := h.children
    refine .intro ?_ ?_
    · rw [keys_replaceFirst]
      exact hnodup
    · intro d hd
      rcases mem_replaceFirst hd with rfl | hd
      · exact ⟨hkey, hc⟩
      · exact hcs d hd

theorem Proper.findChild (h : Proper P t) (hc : t.findChild k = some c) : P k ∧ Proper P c := by
  obtain ⟨hkey, hproper⟩ := h.children.2 c (mem_of_first hc)
  rw [key_of_findChild hc] at hkey
  exact ⟨hkey, hproper⟩

/-- The keys of a path on which there is a value. -/
theorem Proper.of_lookup (h : Proper P t) (hp : t.lookup p = some v) : ∀ k ∈ p, P k := by
  induction p generalizing t with
  | nil => exact nofun
  | cons k p ih =>
    rw [lookup_cons] at hp
    obtain ⟨c, hc, hp⟩ := Option.bind_eq_some_iff.1 hp
    obtain ⟨hkey, hproper⟩ := h.findChild hc
    intro k' hk'
    rcases mem_cons.1 hk' with rfl | hk'
    · exact hkey
    · exact ih hproper hp k' hk'

/-! ## All values, each with its path -/

mutual

/-- The values in a tree whose root has the path `p`, the root first. -/
def entries (p : List K) : PathTree K V → List (List K × V)
  | node _ v cs => (p, v) :: entriesList p cs

def entriesList (p : List K) : List (PathTree K V) → List (List K × V)
  | [] => []
  | c :: cs => entries (p ++ [c.key]) c ++ entriesList p cs

end

section

omit [DecidableEq K]

theorem entriesList_cons (p : List K) (c : PathTree K V) (cs : List (PathTree K V)) :
    entriesList p (c :: cs) = entries (p ++ [c.key]) c ++ entriesList p cs := rfl

theorem entries_eq (t : PathTree K V) (p : List K) :
    t.entries p = (p, t.val) :: entriesList p t.children := by
  cases t
  rfl

end

mutual

theorem mem_entries (p : List K) {t : PathTree K V} (h : Proper P t) {x : List K × V} :
    x ∈ t.entries p ↔ ∃ q, x.1 = p ++ q ∧ t.lookup q = some x.2 :=
  match t with
  | node k v cs => by
    obtain ⟨hnodup, hcs⟩ : (cs.map key).Nodup ∧ ∀ c ∈ cs, P c.key ∧ Proper P c := h.children
    obtain ⟨x, w⟩ := x
    unfold entries
    rw [mem_cons, mem_entriesList p hnodup fun c hc => (hcs c hc).2]
    constructor
    · rintro (heq | ⟨c, q, hc, hx, hlookup⟩)
      · cases heq
        exact ⟨[], (List.append_nil p).symm, rfl⟩
      · refine ⟨c.key :: q, hx, ?_⟩
        have hfind : (node k v cs).findChild c.key = some c := first_of_mem hnodup hc
        rw [lookup_cons, hfind]
        exact hlookup
    · rintro ⟨q, hx, hlookup⟩
      cases q with
      | nil =>
        left
        have hw : v = w := Option.some.inj hlookup
        rw [hw, Prod.mk.injEq]
        exact ⟨hx.trans (List.append_nil p), rfl⟩
      | cons k' q =>
        right
        rw [lookup_cons] at hlookup
        obtain ⟨c, hc, hlookup⟩ := Option.bind_eq_some_iff.1 hlookup
        have hkey := key_of_findChild hc
        exact ⟨c, q, mem_of_first hc, by rw [hkey]; exact hx, hlookup⟩

theorem mem_entriesList (p : List K) {cs : List (PathTree K V)} (hnodup : (cs.map key).Nodup)
    (hcs : ∀ c ∈ cs, Proper P c) {x : List K × V} :
    x ∈ entriesList p cs ↔ ∃ c q, c ∈ cs ∧ x.1 = p ++ c.key :: q ∧ c.lookup q = some x.2 :=
  match cs with
  | [] => ⟨nofun, fun ⟨_, _, hc, _⟩ => by cases hc⟩
  | c :: cs => by
    have hfirst := mem_entries (p ++ [c.key]) (hcs c mem_cons_self) (x := x)
    have hrest := mem_entriesList p (nodup_cons.1 hnodup).2
      (fun d hd => hcs d (mem_cons_of_mem _ hd)) (x := x)
    rw [entriesList_cons, List.mem_append, hfirst, hrest]
    constructor
    · rintro (⟨q, hx, hlookup⟩ | ⟨d, q, hd, hx, hlookup⟩)
      · rw [List.append_assoc] at hx
        exact ⟨c, q, mem_cons_self, hx, hlookup⟩
      · exact ⟨d, q, mem_cons_of_mem _ hd, hx, hlookup⟩
    · rintro ⟨d, q, hd, hx, hlookup⟩
      rcases mem_cons.1 hd with rfl | hd
      · left
        refine ⟨q, ?_, hlookup⟩
        rw [List.append_assoc]
        exact hx
      · exact .inr ⟨d, q, hd, hx, hlookup⟩

end

/-! ## Traversal with an explicit history -/

/-- A node on the way to the current one: its path, and its children that are left. -/
structure History (K : Type u) (V : Type v) where
  pth : List K
  children : List (PathTree K V)

section Traverse

variable {σ : Type*} (enter : σ → List K → V → σ)

/-- From a node with the path `p`, of which the children `cs` are left: down to the next child,
which is entered, or back to the last node of the history. -/
def traverse : ℕ → List (History K V) → List K → List (PathTree K V) → σ → Option σ
  | 0, _, _, _, _ => none
  | n + 1, prev, p, c :: cs, s =>
    traverse n (⟨p, cs⟩ :: prev) (p ++ [c.key]) c.children (enter s (p ++ [c.key]) c.val)
  | n + 1, sv :: prev, _, [], s => traverse n prev sv.pth sv.children s
  | _ + 1, [], _, [], s => some s

mutual

/-- The steps down to a node, through it and back. -/
def steps : PathTree K V → ℕ
  | node _ _ cs => stepsList cs + 2

def stepsList : List (PathTree K V) → ℕ
  | [] => 0
  | c :: cs => steps c + stepsList cs

end

section

omit [DecidableEq K]

theorem stepsList_cons (c : PathTree K V) (cs : List (PathTree K V)) :
    stepsList (c :: cs) = steps c + stepsList cs := rfl

theorem steps_eq (t : PathTree K V) : t.steps = stepsList t.children + 2 := by
  cases t
  rfl

end

def enterAll (s : σ) (l : List (List K × V)) : σ := l.foldl (fun s x => enter s x.1 x.2) s

omit [DecidableEq K] in
mutual

theorem traverse_child (c : PathTree K V) (n : ℕ) (prev : List (History K V)) (p : List K)
    (cs : List (PathTree K V)) (s : σ) :
    traverse enter (c.steps + n) prev p (c :: cs) s =
      traverse enter n prev p cs (enterAll enter s (c.entries (p ++ [c.key]))) :=
  match c with
  | node k v ds => by
    have hdown := traverse_children ds (1 + n) (⟨p, cs⟩ :: prev) (p ++ [k]) (enter s (p ++ [k]) v)
    have hsteps : (node k v ds).steps + n = stepsList ds + (1 + n) + 1 := by
      unfold steps
      omega
    have hback : 1 + n = n + 1 := Nat.add_comm 1 n
    rw [hsteps]
    change traverse enter (stepsList ds + (1 + n)) (⟨p, cs⟩ :: prev) (p ++ [k]) ds
      (enter s (p ++ [k]) v) = _
    rw [hdown, hback]
    rfl

theorem traverse_children (cs : List (PathTree K V)) (n : ℕ) (prev : List (History K V))
    (p : List K) (s : σ) :
    traverse enter (stepsList cs + n) prev p cs s =
      traverse enter n prev p [] (enterAll enter s (entriesList p cs)) :=
  match cs with
  | [] => by
    unfold stepsList
    rw [Nat.zero_add]
    rfl
  | c :: cs => by
    have hchild := traverse_child c (stepsList cs + n) prev p cs s
    have hsteps : stepsList (c :: cs) + n = c.steps + (stepsList cs + n) := by
      rw [stepsList_cons, Nat.add_assoc]
    rw [hsteps, hchild, traverse_children cs n prev p]
    rw [entriesList_cons]
    unfold enterAll
    rw [List.foldl_append]

end

omit [DecidableEq K] in
/-- The traversal from the root enters all nodes below it, and ends. -/
theorem traverse_eq (t : PathTree K V) (s : σ) :
    traverse enter t.steps [] [] t.children s =
      some (enterAll enter s (entriesList [] t.children)) := by
  rw [steps_eq, traverse_children enter t.children 2 [] [] s]
  rfl

end Traverse

end PathTree
