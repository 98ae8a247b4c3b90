import K42.Lib.Linked
import K42.Lib.Run
import K42.Lib.Update
import Mathlib.Data.Finset.Card

/-!
# Simple linked lists

A list has a pointer to its first node and one to its last. Callers hold on to nodes, to insert
behind them or to remove what is behind them. Several lists share the nodes, so that one can be
transferred to the end of another.

`insertNext` behind the last node and a `removeNext` that takes the last node leave `tail` as it
was.
-/

open Function (update update_cases update_of_ne update_self update_eq_self)
open List (mem_cons mem_cons_self mem_cons_of_mem nodup_cons mem_append_right map_cons append_assoc
  append_nil map_append mem_map_of_mem nodup_append concat_eq_append getLast?_append getLast?_cons
  map_eq_nil_iff map_nil mem_of_getLast? tail_nil)

namespace K42

/-- The nodes that have been allocated, and the lists. -/
structure ListSimple (ι : Type) where
  next : ℕ → Option ℕ
  datum : ℕ → ℕ
  nodes : Finset ℕ
  head : ι → Option ℕ
  tail : ι → Option ℕ

namespace ListSimple

variable {ι : Type} [DecidableEq ι]

def init : ListSimple ι := ⟨fun _ => none, fun _ => 0, ∅, fun _ => none, fun _ => none⟩

/-- A new node `n` with its datum. -/
def new (s : ListSimple ι) (n d : ℕ) : ListSimple ι :=
  { s with datum := update s.datum n d, nodes := insert n s.nodes }

def delete (s : ListSimple ι) (n : ℕ) : ListSimple ι := { s with nodes := s.nodes.erase n }

def setNext (s : ListSimple ι) (n : ℕ) (p : Option ℕ) : ListSimple ι :=
  { s with next := update s.next n p }

def setHead (s : ListSimple ι) (i : ι) (p : Option ℕ) : ListSimple ι :=
  { s with head := update s.head i p }

def setTail (s : ListSimple ι) (i : ι) (p : Option ℕ) : ListSimple ι :=
  { s with tail := update s.tail i p }

def add (s : ListSimple ι) (i : ι) (n d : ℕ) : ListSimple ι :=
  let s := ((s.new n d).setNext n (s.head i)).setHead i (some n)
  if s.tail i = none then s.setTail i (some n) else s

def addToEndOfList (s : ListSimple ι) (i : ι) (n d : ℕ) : ListSimple ι :=
  let s := (s.new n d).setNext n none
  let s := if s.head i = none then s.setHead i (some n) else s
  let s := match s.tail i with
    | none => s
    | some tail => s.setNext tail (some n)
  s.setTail i (some n)

def insertNext (s : ListSimple ι) (i : ι) (prev : Option ℕ) (n d : ℕ) : ListSimple ι :=
  match prev with
  | none => s.addToEndOfList i n d
  | some node => ((s.new n d).setNext n (s.next node)).setNext node (some n)

/-- The state, and what is returned; `none` if the loop does not end. -/
def remove (s : ListSimple ι) (i : ι) (d : ℕ) : ListSimple ι × Option Bool :=
  match Linked.walk s.next (fun node => s.datum node == d) s.nodes.card none (s.head i) with
  | none => (s, none)
  | some (_, none) => (s, some false)
  | some (none, some node) =>
    let s := s.setHead i (s.next node)
    let s := if s.tail i = some node then s.setTail i none else s
    (s.delete node, some true)
  | some (some prev, some node) =>
    let s := s.setNext prev (s.next node)
    let s := if s.tail i = some node then s.setTail i (some prev) else s
    (s.delete node, some true)

def removeNext (s : ListSimple ι) (i : ι) (prev : Option ℕ) : ListSimple ι × Bool :=
  match s.head i with
  | none => (s, false)
  | some head =>
    match prev with
    | some node =>
      match s.next node with
      | none => (s, false)
      | some tmp => ((s.setNext node (s.next tmp)).delete tmp, true)
    | none => ((s.setHead i (s.next head)).delete head, true)

def removeHead (s : ListSimple ι) (i : ι) : ListSimple ι × Option ℕ :=
  match s.head i with
  | none => (s, none)
  | some node =>
    let d := s.datum node
    let s := s.setHead i (s.next node)
    let s := if s.tail i = some node then s.setTail i none else s
    (s.delete node, some d)

/-- `next`: the node behind `curr`, or the first one, and its datum. -/
def nextNode (s : ListSimple ι) (i : ι) (curr : Option ℕ) : Option (ℕ × ℕ) :=
  (match curr with
    | none => s.head i
    | some node => s.next node).map fun node => (node, s.datum node)

def reinit (s : ListSimple ι) (i : ι) : ListSimple ι := (s.setHead i none).setTail i none

def transferTo (s : ListSimple ι) (i list : ι) : ListSimple ι :=
  match s.head i with
  | none => s
  | some head =>
    let s := match s.head list with
      | none => s.setHead list (some head)
      | some _ =>
        match s.tail list with
        | none => s
        | some tail => s.setNext tail (some head)
    (s.setTail list (s.tail i)).reinit i

/-! ## The sequences -/

/-- A node and its datum, behind the node `p`. -/
def insertAfter (p : ℕ) (e : ℕ × ℕ) : List (ℕ × ℕ) → List (ℕ × ℕ)
  | [] => []
  | x :: l => if x.1 = p then x :: e :: l else x :: insertAfter p e l

/-- The list without the node behind `p`. -/
def dropAfter (p : ℕ) : List (ℕ × ℕ) → List (ℕ × ℕ)
  | [] => []
  | x :: l => if x.1 = p then x :: l.tail else x :: dropAfter p l

inductive Op (ι : Type)
  | add (i : ι) (n d : ℕ)
  | addToEndOfList (i : ι) (n d : ℕ)
  | insertNext (i : ι) (prev : Option ℕ) (n d : ℕ)
  | remove (i : ι) (d : ℕ)
  | removeNext (i : ι) (prev : Option ℕ)
  | removeHead (i : ι)
  | next (i : ι) (curr : Option ℕ)
  | transferTo (i list : ι)

/-- What the operations are to do to the sequences. -/
def specStep (l : ι → List (ℕ × ℕ)) : Op ι → ι → List (ℕ × ℕ)
  | .add i n d => update l i ((n, d) :: l i)
  | .addToEndOfList i n d | .insertNext i none n d => update l i (l i ++ [(n, d)])
  | .insertNext i (some p) n d => update l i (insertAfter p (n, d) (l i))
  | .remove i d => update l i ((l i).eraseP fun e => e.2 == d)
  | .removeNext i none | .removeHead i => update l i (l i).tail
  | .removeNext i (some p) => update l i (dropAfter p (l i))
  | .next _ _ => l
  | .transferTo i list => update (update l list (l list ++ l i)) i []

def step (s : ListSimple ι) : Op ι → ListSimple ι
  | .add i n d => s.add i n d
  | .addToEndOfList i n d => s.addToEndOfList i n d
  | .insertNext i prev n d => s.insertNext i prev n d
  | .remove i d => (s.remove i d).1
  | .removeNext i prev => (s.removeNext i prev).1
  | .removeHead i => (s.removeHead i).1
  | .next _ _ => s
  | .transferTo i list => s.transferTo i list

/-- The lists and the sequences that the callers have in mind. -/
structure Client (ι : Type) where
  lists : ListSimple ι
  seq : ι → List (ℕ × ℕ)

namespace Client

/-- A node that a caller passes is null or one of the list. -/
def Holds (c : Client ι) (i : ι) (p : Option ℕ) : Prop :=
  ∀ node ∈ p, node ∈ (c.seq i).map Prod.fst

/-- What `new` returns is not in use, and a list is not transferred to itself. -/
def adm (c : Client ι) : Op ι → Prop
  | .add _ n _ | .addToEndOfList _ n _ => n ∉ c.lists.nodes
  | .insertNext i prev n _ => n ∉ c.lists.nodes ∧ c.Holds i prev
  | .remove _ _ | .removeHead _ => True
  | .removeNext i prev => c.Holds i prev
  | .next i curr => c.Holds i curr
  | .transferTo i list => i ≠ list

/-- The last node stays the last. -/
def KeepsLast (c : Client ι) : Op ι → Prop
  | .insertNext i (some p) _ _ => ((c.seq i).map Prod.fst).getLast? ≠ some p
  | .removeNext i none => (c.seq i).length ≠ 1
  | .removeNext i (some p) => ((c.seq i).map Prod.fst).dropLast.getLast? ≠ some p
  | _ => True

instance (c : Client ι) : ∀ op, Decidable (c.adm op)
  | .add _ n _ | .addToEndOfList _ n _ => inferInstanceAs (Decidable (n ∉ c.lists.nodes))
  | .insertNext i prev n _ => inferInstanceAs (Decidable (n ∉ c.lists.nodes ∧
      ∀ node ∈ prev, node ∈ (c.seq i).map Prod.fst))
  | .remove _ _ | .removeHead _ => isTrue trivial
  | .removeNext i prev | .next i prev =>
    inferInstanceAs (Decidable (∀ node ∈ prev, node ∈ (c.seq i).map Prod.fst))
  | .transferTo _ _ => inferInstanceAs (Decidable (_ ≠ _))

instance (c : Client ι) : ∀ op, Decidable (c.KeepsLast op)
  | .insertNext _ (some _) _ _ | .removeNext _ none | .removeNext _ (some _) =>
    inferInstanceAs (Decidable (_ ≠ _))
  | .add .. | .addToEndOfList .. | .insertNext _ none _ _ | .remove .. | .removeHead _
  | .next .. | .transferTo .. => isTrue trivial

end Client

/-- The lists that are reached from the heads are the sequences, the tails are their last nodes,
and each node that has been allocated is on one list, once. -/
structure Agrees (s : ListSimple ι) (l : ι → List (ℕ × ℕ)) : Prop where
  queue : ∀ i, Linked.Queue s.next (s.head i) (s.tail i) ((l i).map Prod.fst)
  datum : ∀ i, ∀ e ∈ l i, s.datum e.1 = e.2
  disjoint : ∀ i j, i ≠ j → ∀ n ∈ (l i).map Prod.fst, n ∉ (l j).map Prod.fst
  nodes : ∀ n, n ∈ s.nodes ↔ ∃ i, n ∈ (l i).map Prod.fst

omit [DecidableEq ι] in
theorem init_agrees : Agrees (init : ListSimple ι) fun _ => [] :=
  ⟨fun _ => .empty, fun _ => nofun, fun _ _ _ => nofun, fun n => by simp [init]⟩

/-! ## One list changes -/

section

variable {s s' : ListSimple ι} {l : ι → List (ℕ × ℕ)} {i : ι} {m : List (ℕ × ℕ)} {n d : ℕ}

omit [DecidableEq ι] in
theorem Agrees.fresh (h : Agrees s l) (hn : n ∉ s.nodes) (j : ι) : n ∉ (l j).map Prod.fst :=
  fun hmem => hn ((h.nodes n).mpr ⟨j, hmem⟩)

variable {next' : ℕ → Option ℕ} {datum' : ℕ → ℕ} {nodes' : Finset ℕ} {p q : Option ℕ}

theorem Agrees.change (h : Agrees s l) (hqueue : Linked.Queue next' p q (m.map Prod.fst))
    (hnext : ∀ j, j ≠ i → ∀ n ∈ (l j).map Prod.fst, next' n = s.next n)
    (hdatum : ∀ e ∈ m, datum' e.1 = e.2)
    (hother : ∀ j, j ≠ i → ∀ n ∈ (l j).map Prod.fst, datum' n = s.datum n)
    (hdisjoint : ∀ j, j ≠ i → ∀ n ∈ (l j).map Prod.fst, n ∉ m.map Prod.fst)
    (hnodes : ∀ n, n ∈ nodes' ↔ n ∈ m.map Prod.fst ∨ ∃ j, j ≠ i ∧ n ∈ (l j).map Prod.fst) :
    Agrees ⟨next', datum', nodes', update s.head i p, update s.tail i q⟩
      (update l i m) where
  queue := by
    intro j
    by_cases hj : j = i
    · subst hj
      simp only [update_self]
      exact hqueue
    · obtain ⟨hpath, hlast⟩ := h.queue j
      simp only [update_of_ne hj]
      exact ⟨hpath.congr (hnext j hj), hlast⟩
  datum := by
    refine update_cases hdatum (fun j hj e he => ?_)
    exact (hother j hj e.1 (mem_map_of_mem he)).trans (h.datum j e he)
  disjoint := by
    intro j k hjk n hn
    by_cases hj : j = i
    · subst hj
      rw [update_of_ne (Ne.symm hjk)]
      rw [update_self] at hn
      exact fun hk => hdisjoint k (Ne.symm hjk) n hk hn
    · rw [update_of_ne hj] at hn
      revert hjk
      exact update_cases (fun _ => hdisjoint j hj n hn) (fun k _ hjk => h.disjoint j k hjk n hn) k
  nodes := by
    intro n
    refine (hnodes n).trans ?_
    constructor
    · rintro (hm | ⟨j, hj, hmem⟩)
      · exact ⟨i, by rwa [update_self]⟩
      · exact ⟨j, by rwa [update_of_ne hj]⟩
    · rintro ⟨j, hmem⟩
      revert hmem
      exact update_cases .inl (fun j hj hmem => .inr ⟨j, hj, hmem⟩) j

theorem Agrees.inserted (h : Agrees s l) (hn : n ∉ s.nodes) (d : ℕ)
    (hnext : ∀ x, x ≠ n → x ∉ (l i).map Prod.fst → next' x = s.next x)
    (hqueue : Linked.Queue next' p q (m.map Prod.fst)) (hperm : m.Perm ((n, d) :: l i)) :
    Agrees ⟨next', update s.datum n d, insert n s.nodes, update s.head i p,
      update s.tail i q⟩ (update l i m) := by
  have hmem : ∀ x, x ∈ m.map Prod.fst ↔ x = n ∨ x ∈ (l i).map Prod.fst := by
    intro x
    rw [(hperm.map Prod.fst).mem_iff, map_cons, mem_cons]
  have hne : ∀ j, ∀ x ∈ (l j).map Prod.fst, x ≠ n := by
    rintro j x hx rfl
    exact h.fresh hn j hx
  refine h.change hqueue (fun j hj x hx => ?_) (fun e he => ?_) (fun j hj x hx => ?_)
    (fun j hj x hx => ?_) fun x => ?_
  · exact hnext x (hne j x hx) (h.disjoint j i hj x hx)
  · rcases mem_cons.mp (hperm.mem_iff.mp he) with rfl | he
    · exact update_self _ _ _
    · rw [update_of_ne (hne i e.1 (mem_map_of_mem he))]
      exact h.datum i e he
  · exact update_of_ne (hne j x hx) _ _
  · rw [hmem]
    rintro (hxn | hxi)
    · exact hne j x hx hxn
    · exact h.disjoint j i hj x hx hxi
  · rw [Finset.mem_insert, h.nodes, hmem, or_assoc]
    refine or_congr_right ⟨?_, ?_⟩
    · rintro ⟨j, hj⟩
      by_cases hji : j = i
      · exact .inl (hji ▸ hj)
      · exact .inr ⟨j, hji, hj⟩
    · rintro (hi | ⟨j, -, hj⟩)
      · exact ⟨i, hi⟩
      · exact ⟨j, hj⟩

theorem Agrees.removed (h : Agrees s l) (hnext : ∀ x, x ∉ (l i).map Prod.fst → next' x = s.next x)
    (hqueue : Linked.Queue next' p q (m.map Prod.fst)) (hperm : (l i).Perm ((n, d) :: m)) :
    Agrees ⟨next', s.datum, s.nodes.erase n, update s.head i p,
      update s.tail i q⟩ (update l i m) := by
  have hmem : ∀ x, x ∈ (l i).map Prod.fst ↔ x = n ∨ x ∈ m.map Prod.fst := by
    intro x
    rw [(hperm.map Prod.fst).mem_iff, map_cons, mem_cons]
  have hnot : n ∉ m.map Prod.fst := by
    have hnodup := (hperm.map Prod.fst).nodup_iff.mp (h.queue i).path.nodup
    exact (nodup_cons.mp hnodup).1
  refine h.change hqueue (fun j hj x hx => ?_) (fun e he => ?_) (fun j hj x hx => rfl)
    (fun j hj x hx => ?_) fun x => ?_
  · exact hnext x (h.disjoint j i hj x hx)
  · exact h.datum i e (hperm.mem_iff.mpr (mem_cons_of_mem _ he))
  · exact fun hm => h.disjoint j i hj x hx ((hmem x).mpr (.inr hm))
  · rw [Finset.mem_erase, h.nodes]
    constructor
    · rintro ⟨hne, j, hj⟩
      by_cases hji : j = i
      · subst hji
        exact .inl (((hmem x).mp hj).resolve_left hne)
      · exact .inr ⟨j, hji, hj⟩
    · rintro (hm | ⟨j, hji, hj⟩)
      · refine ⟨?_, i, (hmem x).mpr (.inr hm)⟩
        rintro rfl
        exact hnot hm
      · refine ⟨?_, j, hj⟩
        rintro rfl
        exact h.disjoint j i hji x hj ((hmem x).mpr (.inl rfl))

/-! ## The operations -/

omit [DecidableEq ι] in
theorem Agrees.tail_none (h : Agrees s l) : s.tail i = none ↔ l i = [] := by
  rw [(h.queue i).last_eq, List.getLast?_eq_none_iff, map_eq_nil_iff]

omit [DecidableEq ι] in
theorem Agrees.head_none (h : Agrees s l) : s.head i = none ↔ l i = [] := by
  rw [(h.queue i).path.head_eq, List.head?_eq_none_iff, map_eq_nil_iff]

theorem Agrees.add (h : Agrees s l) (hn : n ∉ s.nodes) (d : ℕ) :
    Agrees (s.add i n d) (update l i ((n, d) :: l i)) := by
  have hpath : Linked.Path (update s.next n (s.head i)) (some n)
      (n :: (l i).map Prod.fst) := by
    refine ⟨rfl, ?_⟩
    rw [update_self]
    exact (h.queue i).path.update (h.fresh hn i) _
  have hinserted : ∀ q, q = (n :: (l i).map Prod.fst).getLast? → Agrees
      ⟨update s.next n (s.head i), update s.datum n d, insert n s.nodes,
        update s.head i (some n), update s.tail i q⟩
      (update l i ((n, d) :: l i)) := fun q hq =>
    h.inserted hn d (fun x hx _ => update_of_ne hx _ _) ⟨hpath, hq⟩ (List.Perm.refl _)
  by_cases htail : s.tail i = none
  · have hadd : s.add i n d = _ := if_pos htail
    rw [hadd]
    refine hinserted _ ?_
    rw [h.tail_none.mp htail]
    rfl
  · have hadd : s.add i n d = _ := if_neg htail
    have hlast : s.tail i = (n :: (l i).map Prod.fst).getLast? := by
      rw [(h.queue i).last_eq] at htail ⊢
      rw [getLast?_cons]
      cases hl : ((l i).map Prod.fst).getLast? with
      | none => exact absurd hl htail
      | some x => rfl
    have hsame := hinserted _ hlast
    rw [update_eq_self] at hsame
    rw [hadd]
    exact hsame

theorem Agrees.addToEndOfList (h : Agrees s l) (hn : n ∉ s.nodes) (d : ℕ) :
    Agrees (s.addToEndOfList i n d) (update l i (l i ++ [(n, d)])) := by
  have hperm : (l i ++ [(n, d)]).Perm ((n, d) :: l i) := List.perm_append_comm
  have hids : (l i ++ [(n, d)]).map Prod.fst = (l i).map Prod.fst ++ [n] := by simp
  have hfree := h.fresh hn i
  cases htail : s.tail i with
  | none =>
    have hnil := h.tail_none.mp htail
    have hhead := h.head_none.mpr hnil
    have hqueue : Linked.Queue (update s.next n none) (some n) (some n)
        ((l i ++ [(n, d)]).map Prod.fst) := by
      rw [hnil]
      exact ⟨⟨rfl, update_self _ _ _⟩, rfl⟩
    have hadd : s.addToEndOfList i n d = ⟨update s.next n none,
        update s.datum n d, insert n s.nodes, update s.head i (some n),
        update s.tail i (some n)⟩ := by
      simp [ListSimple.addToEndOfList, new, setNext, setHead, setTail, hhead, htail]
    rw [hadd]
    exact h.inserted hn d (fun x hx _ => update_of_ne hx _ _) hqueue hperm
  | some tail =>
    have hhead : s.head i ≠ none := by
      rw [Ne, h.head_none, ← h.tail_none, htail]
      nofun
    have hlast := (h.queue i).last_eq
    rw [htail] at hlast
    have hmem : tail ∈ (l i).map Prod.fst := mem_of_getLast? hlast.symm
    have hqueue : Linked.Queue (update (update s.next n none) tail (some n))
        (s.head i) (some n) ((l i ++ [(n, d)]).map Prod.fst) := by
      rw [hids]
      refine Linked.Queue.add_last ⟨(h.queue i).path.update hfree none, hlast⟩ hfree ?_
      exact update_self _ _ _
    have hadd : s.addToEndOfList i n d =
        ⟨update (update s.next n none) tail (some n), update s.datum n d, insert n s.nodes, s.head,
          update s.tail i (some n)⟩ := by
      simp [ListSimple.addToEndOfList, new, setNext, setTail, hhead, htail]
    have hinserted := h.inserted hn d (fun x hx hxi => ?_) hqueue hperm
    · rw [update_eq_self] at hinserted
      rw [hadd]
      exact hinserted
    · have hne : x ≠ tail := by
        rintro rfl
        exact hxi hmem
      rw [update_of_ne hne, update_of_ne hx]

omit [DecidableEq ι] in
theorem Agrees.split (h : Agrees s l) {p : ℕ} (hp : p ∈ (l i).map Prod.fst) :
    ∃ pre x post, l i = pre ++ x :: post ∧ x.1 = p ∧ ∀ y ∈ pre, y.1 ≠ p := by
  obtain ⟨x, hx, rfl⟩ := List.mem_map.mp hp
  obtain ⟨pre, post, hsplit⟩ := List.append_of_mem hx
  refine ⟨pre, x, post, hsplit, rfl, fun y hy heq => ?_⟩
  have hnodup := (h.queue i).path.nodup
  rw [hsplit, map_append, map_cons] at hnodup
  have hnot := (nodup_append.mp hnodup).2.2 y.1 (mem_map_of_mem hy) x.1
    mem_cons_self
  exact hnot heq

variable {pre rest post : List (ℕ × ℕ)} {x e : ℕ × ℕ}

theorem insertAfter_eq (hpre : ∀ y ∈ pre, y.1 ≠ x.1) (post : List (ℕ × ℕ)) (e : ℕ × ℕ) :
    insertAfter x.1 e (pre ++ x :: post) = pre ++ x :: e :: post := by
  induction pre with
  | nil => exact if_pos rfl
  | cons y pre ih =>
    rw [List.cons_append, insertAfter, if_neg (hpre y mem_cons_self),
      ih fun z hz => hpre z (mem_cons_of_mem y hz)]
    rfl

theorem dropAfter_eq (hpre : ∀ y ∈ pre, y.1 ≠ x.1)
    (post : List (ℕ × ℕ)) : dropAfter x.1 (pre ++ x :: post) = pre ++ x :: post.tail := by
  induction pre with
  | nil => exact if_pos rfl
  | cons y pre ih =>
    rw [List.cons_append, dropAfter, if_neg (hpre y mem_cons_self),
      ih fun z hz => hpre z (mem_cons_of_mem y hz)]
    rfl

theorem Agrees.insertNext (h : Agrees s l) (hn : n ∉ s.nodes) (d : ℕ) {node : ℕ}
    (hp : node ∈ (l i).map Prod.fst) (hlast : ((l i).map Prod.fst).getLast? ≠ some node) :
    Agrees (s.insertNext i (some node) n d)
      (update l i (insertAfter node (n, d) (l i))) := by
  obtain ⟨pre, x, post, hsplit, rfl, hpre⟩ := h.split hp
  have hfree := h.fresh hn i
  obtain ⟨hpath, hend⟩ := h.queue i
  have hids : (l i).map Prod.fst = pre.map Prod.fst ++ x.1 :: post.map Prod.fst := by
    rw [hsplit, map_append, map_cons]
  have hids' : (pre ++ x :: (n, d) :: post).map Prod.fst =
      pre.map Prod.fst ++ x.1 :: n :: post.map Prod.fst := by
    rw [map_append, map_cons, map_cons]
  rw [hids] at hfree hpath hend hlast
  have hxn : x.1 ≠ n := by
    rintro heq
    exact hfree (mem_append_right _ (heq ▸ mem_cons_self))
  have hnodup := (nodup_append.mp hpath.nodup).2.1
  have hafter : Linked.Path (update s.next n (s.next x.1)) (some n)
      (n :: post.map Prod.fst) := by
    refine ⟨rfl, ?_⟩
    rw [update_self]
    exact hpath.drop.update
      (fun hmem => hfree (mem_append_right _ (mem_cons_of_mem _ hmem))) _
  have hspliced := (hpath.update hfree (s.next x.1)).splice hafter (by
    rw [mem_cons, not_or]
    exact ⟨hxn, (nodup_cons.mp hnodup).1⟩)
  have hend' : s.tail i = ((pre ++ x :: (n, d) :: post).map Prod.fst).getLast? := by
    rw [hend, hids']
    cases hpost : post.map Prod.fst with
    | nil =>
      rw [hpost] at hlast
      exact absurd List.getLast?_concat hlast
    | cons y rest => simp [getLast?_append, List.getLast?_cons_cons]
  have hperm : (pre ++ x :: (n, d) :: post).Perm ((n, d) :: l i) := by
    rw [hsplit]
    exact ((List.Perm.swap (n, d) x post).append_left pre).trans List.perm_middle
  rw [hsplit, insertAfter_eq hpre post (n, d)]
  have hinserted := h.inserted hn d (fun y hy hyi => ?_) ⟨hids' ▸ hspliced, hend'⟩ hperm
  · rw [update_eq_self, update_eq_self] at hinserted
    exact hinserted
  · have hyx : y ≠ x.1 := by
      rintro rfl
      exact hyi hp
    rw [update_of_ne hyx, update_of_ne hy]

theorem Agrees.popped (h : Agrees s l) (hl : l i = e :: rest)
    {q : Option ℕ} (hq : q = (rest.map Prod.fst).getLast?) :
    Agrees ⟨s.next, s.datum, s.nodes.erase e.1, update s.head i (s.next e.1),
      update s.tail i q⟩ (update l i rest) := by
  have hpath := (h.queue i).path
  rw [hl] at hpath
  refine h.removed (fun _ _ => rfl) ⟨hpath.2, hq⟩ (d := e.2) ?_
  rw [hl]

omit [DecidableEq ι] in
theorem Agrees.head_cons (h : Agrees s l) (hl : l i = e :: rest) : s.head i = some e.1 := by
  rw [(h.queue i).path.head_eq, hl]
  rfl

omit [DecidableEq ι] in
theorem Agrees.tail_cons (h : Agrees s l)
    (hl : l i = e :: rest) : (if s.tail i = some e.1 then none else s.tail i) =
      (rest.map Prod.fst).getLast? := by
  obtain ⟨hpath, hlast⟩ := h.queue i
  rw [hl, map_cons] at hpath hlast
  cases hrest : rest.map Prod.fst with
  | nil =>
    rw [hrest] at hlast
    rw [hlast]
    exact if_pos rfl
  | cons y m =>
    have hnot := (nodup_cons.mp hpath.nodup).1
    rw [hrest, List.getLast?_cons_cons] at hlast
    rw [if_neg, hlast]
    rw [hlast]
    intro heq
    rw [hrest] at hnot
    exact hnot (mem_of_getLast? heq)

theorem Agrees.takeFirst (h : Agrees s l) (hl : l i = e :: rest) :
    Agrees ((if (s.setHead i (s.next e.1)).tail i = some e.1
      then (s.setHead i (s.next e.1)).setTail i none else s.setHead i (s.next e.1)).delete e.1)
      (update l i rest) := by
  have hpopped := h.popped hl (h.tail_cons hl)
  by_cases hlast : s.tail i = some e.1
  · have hif : (s.setHead i (s.next e.1)).tail i = some e.1 := hlast
    rw [if_pos hlast] at hpopped
    rw [if_pos hif]
    exact hpopped
  · have hif : ¬ (s.setHead i (s.next e.1)).tail i = some e.1 := hlast
    rw [if_neg hlast, update_eq_self] at hpopped
    rw [if_neg hif]
    exact hpopped

theorem Agrees.removeHead (h : Agrees s l) :
    Agrees (s.removeHead i).1 (update l i (l i).tail) ∧
      (s.removeHead i).2 = (l i).head?.map Prod.snd := by
  rw [ListSimple.removeHead]
  cases hl : l i with
  | nil =>
    rw [h.head_none.mpr hl]
    refine ⟨?_, rfl⟩
    have hsame : update l i [] = l := by
      rw [← hl, update_eq_self]
    simp only [tail_nil, hsame]
    exact h
  | cons e rest =>
    rw [h.head_cons hl]
    exact ⟨h.takeFirst hl, congrArg some (h.datum i e (hl ▸ mem_cons_self))⟩

theorem Agrees.removeFirst (h : Agrees s l) (hlen : (l i).length ≠ 1) :
    Agrees (s.removeNext i none).1 (update l i (l i).tail) ∧
      (s.removeNext i none).2 = !(l i).isEmpty := by
  rw [ListSimple.removeNext]
  cases hl : l i with
  | nil =>
    rw [h.head_none.mpr hl]
    refine ⟨?_, rfl⟩
    have hsame : update l i [] = l := by
      rw [← hl, update_eq_self]
    simp only [tail_nil, hsame]
    exact h
  | cons e rest =>
    rw [h.head_cons hl]
    refine ⟨?_, rfl⟩
    have hrest : rest.map Prod.fst ≠ [] := by
      rintro hnil
      rw [hl, map_eq_nil_iff.mp hnil] at hlen
      exact hlen rfl
    have hlast : s.tail i = (rest.map Prod.fst).getLast? := by
      rw [(h.queue i).last_eq, hl]
      obtain ⟨y, m, hm⟩ := List.exists_cons_of_ne_nil hrest
      rw [map_cons, hm, List.getLast?_cons_cons]
    have hpopped := h.popped hl hlast
    rw [update_eq_self] at hpopped
    exact hpopped

omit [DecidableEq ι] in
theorem Agrees.tail_behind (h : Agrees s l) (hl : l i = pre ++ x :: e :: post) :
    s.tail i = some e.1 ↔ post = [] := by
  obtain ⟨hpath, hend⟩ := h.queue i
  have hids : (l i).map Prod.fst = pre.map Prod.fst ++ x.1 :: e.1 :: post.map Prod.fst := by
    rw [hl, map_append, map_cons, map_cons]
  rw [hids] at hpath hend
  rw [hend]
  have hnodup := (nodup_cons.mp (nodup_append.mp hpath.nodup).2.1).2
  constructor
  · intro hlast
    cases post with
    | nil => rfl
    | cons y post =>
      have hmem : e.1 ∈ (y :: post).map Prod.fst := by
        refine mem_of_getLast? (Eq.trans ?_ hlast)
        simp [getLast?_append, getLast?_cons]
      exact absurd hmem (nodup_cons.mp hnodup).1
  · rintro rfl
    simp

theorem Agrees.takeBehind (h : Agrees s l) (hl : l i = pre ++ x :: e :: post) :
    Agrees ((if (s.setNext x.1 (s.next e.1)).tail i = some e.1
      then (s.setNext x.1 (s.next e.1)).setTail i (some x.1)
      else s.setNext x.1 (s.next e.1)).delete e.1) (update l i (pre ++ x :: post)) := by
  obtain ⟨hpath, hend⟩ := h.queue i
  have hids : (l i).map Prod.fst = pre.map Prod.fst ++ x.1 :: e.1 :: post.map Prod.fst := by
    rw [hl, map_append, map_cons, map_cons]
  have hids' : (pre ++ x :: post).map Prod.fst =
      pre.map Prod.fst ++ x.1 :: post.map Prod.fst := by
    rw [map_append, map_cons]
  rw [hids] at hpath hend
  have hnodup := (nodup_append.mp hpath.nodup).2.1
  have hnot : x.1 ∉ post.map Prod.fst := fun hmem =>
    (nodup_cons.mp hnodup).1 (mem_cons_of_mem _ hmem)
  have hbehind : Linked.Path s.next (s.next x.1) (e.1 :: post.map Prod.fst) := hpath.drop
  have hspliced := hpath.splice hbehind.2 hnot
  have hperm : (l i).Perm ((e.1, e.2) :: (pre ++ x :: post)) := by
    rw [hl]
    exact ((List.Perm.swap e x post).append_left pre).trans List.perm_middle
  have hremoved : ∀ q, q = ((pre ++ x :: post).map Prod.fst).getLast? → Agrees
      ⟨update s.next x.1 (s.next e.1), s.datum, s.nodes.erase e.1,
        update s.head i (s.head i), update s.tail i q⟩
      (update l i (pre ++ x :: post)) := by
    intro q hq
    refine h.removed (fun y hy => ?_) ⟨hids' ▸ hspliced, hq⟩ hperm
    refine update_of_ne ?_ _ _
    rintro rfl
    refine hy ?_
    rw [hids]
    exact mem_append_right _ mem_cons_self
  by_cases hlast : s.tail i = some e.1
  · have hif : (s.setNext x.1 (s.next e.1)).tail i = some e.1 := hlast
    have hremoved := hremoved (some x.1) (by
      rw [hids', (h.tail_behind hl).mp hlast]
      simp)
    rw [update_eq_self] at hremoved
    rw [if_pos hif]
    exact hremoved
  · have hif : ¬ (s.setNext x.1 (s.next e.1)).tail i = some e.1 := hlast
    have hremoved := hremoved (s.tail i) (by
      cases post with
      | nil => exact absurd ((h.tail_behind hl).mpr rfl) hlast
      | cons y post =>
        rw [hids', hend]
        simp [getLast?_append, getLast?_cons])
    rw [update_eq_self, update_eq_self] at hremoved
    rw [if_neg hif]
    exact hremoved

theorem Agrees.removeBehind (h : Agrees s l) {node : ℕ} (hp : node ∈ (l i).map Prod.fst)
    (hlast : ((l i).map Prod.fst).dropLast.getLast? ≠ some node) :
    Agrees (s.removeNext i (some node)).1 (update l i (dropAfter node (l i))) ∧
      (s.removeNext i (some node)).2 = (((l i).map Prod.fst).getLast? != some node) := by
  obtain ⟨pre, x, post, hsplit, rfl, hpre⟩ := h.split hp
  have hids : (l i).map Prod.fst = pre.map Prod.fst ++ x.1 :: post.map Prod.fst := by
    rw [hsplit, map_append, map_cons]
  have hpath := (h.queue i).path
  rw [hids] at hpath
  have hnext := hpath.drop.head_eq
  have hne : l i ≠ [] := by
    rw [hsplit]
    simp
  obtain ⟨e, rest, hl⟩ := List.exists_cons_of_ne_nil hne
  rw [ListSimple.removeNext, h.head_cons hl]
  simp only [hnext]
  cases post with
  | nil =>
    have hdrop : dropAfter x.1 (l i) = l i := by
      rw [hsplit, dropAfter_eq hpre]
      rfl
    rw [hdrop, update_eq_self, hids]
    refine ⟨h, ?_⟩
    simp
  | cons y post =>
    have hmore : post ≠ [] := by
      rintro rfl
      refine hlast ?_
      rw [hids]
      simp
    have hif : ¬ (s.setNext x.1 (s.next y.1)).tail i = some y.1 := fun heq =>
      hmore ((h.tail_behind hsplit).mp heq)
    have htake := h.takeBehind hsplit
    rw [if_neg hif] at htake
    rw [hsplit, dropAfter_eq hpre]
    refine ⟨htake, (bne_iff_ne.mpr fun heq => ?_).symm⟩
    have hnot := (nodup_cons.mp (nodup_append.mp hpath.nodup).2.1).1
    refine hnot (mem_of_getLast? (Eq.trans ?_ heq))
    simp [getLast?_append, getLast?_cons]

omit [DecidableEq ι] in
theorem Agrees.walk (h : Agrees s l) (d : ℕ) :
    ∃ pre post, l i = pre ++ post ∧ (∀ e ∈ pre, e.2 ≠ d) ∧ (∀ e ∈ post.head?, e.2 = d) ∧
      Linked.walk s.next (fun node => s.datum node == d) s.nodes.card none (s.head i) =
        some ((pre.map Prod.fst).getLast?, (post.map Prod.fst).head?) := by
  have hpath := (h.queue i).path
  have hlen : ((l i).map Prod.fst).length ≤ s.nodes.card := by
    rw [← List.toFinset_card_of_nodup hpath.nodup]
    refine Finset.card_le_card fun n hn => ?_
    exact (h.nodes n).mpr ⟨i, List.mem_toFinset.mp hn⟩
  obtain ⟨pre, post, hsplit, hpre, hpost, hwalk⟩ :=
    hpath.walk_eq (fun node => s.datum node == d) hlen none
  obtain ⟨pre', post', hsplit', rfl, rfl⟩ := List.map_eq_append_iff.mp hsplit
  refine ⟨pre', post', hsplit', fun e he => ?_, fun e he => ?_, ?_⟩
  · have hne := hpre e.1 (mem_map_of_mem he)
    rw [h.datum i e (hsplit' ▸ List.mem_append_left _ he)] at hne
    exact ne_of_beq_false hne
  · have hmem : e.1 ∈ (post'.map Prod.fst).head? := by
      rw [List.head?_map, Option.mem_def.mp he]
      rfl
    have heq := hpost e.1 hmem
    have hin : e ∈ l i := hsplit' ▸ mem_append_right _ (List.mem_of_mem_head? he)
    rw [h.datum i e hin] at heq
    exact beq_iff_eq.mp heq
  · rw [hwalk, Option.or_none]

theorem Agrees.remove (h : Agrees s l) (d : ℕ) :
    Agrees (s.remove i d).1 (update l i ((l i).eraseP fun e => e.2 == d)) ∧
      (s.remove i d).2 = some ((l i).any fun e => e.2 == d) := by
  obtain ⟨pre, post, hsplit, hpre, hpost, hwalk⟩ := h.walk (i := i) d
  have hmiss : ∀ e ∈ pre, ¬ (e.2 == d) = true := fun e he => by simpa using hpre e he
  have herase : (l i).eraseP (fun e => e.2 == d) = pre ++ post.tail := by
    rw [hsplit, List.eraseP_append_right _ hmiss]
    cases post with
    | nil => rfl
    | cons e post =>
      have heq : (e.2 == d) = true := beq_iff_eq.mpr (hpost e rfl)
      simp only [List.eraseP_cons, heq]
      rfl
  have hany : (l i).any (fun e => e.2 == d) = !post.isEmpty := by
    rw [hsplit, List.any_append]
    have hnone : pre.any (fun e => e.2 == d) = false := by
      rw [List.any_eq_false]
      exact hmiss
    rw [hnone, Bool.false_or]
    cases post with
    | nil => rfl
    | cons e post =>
      have heq : (e.2 == d) = true := beq_iff_eq.mpr (hpost e rfl)
      rw [List.any_cons, heq]
      rfl
  rw [ListSimple.remove, hwalk, herase, hany]
  cases hp : post with
  | nil =>
    rw [hp, append_nil] at hsplit
    refine ⟨?_, rfl⟩
    rw [tail_nil, append_nil, ← hsplit, update_eq_self]
    exact h
  | cons e rest =>
    rw [hp] at hsplit
    rcases List.eq_nil_or_concat pre with rfl | ⟨pre, x, rfl⟩
    · exact ⟨h.takeFirst hsplit, rfl⟩
    · rw [concat_eq_append, append_assoc] at hsplit ⊢
      rw [map_append, map_cons, map_nil, List.getLast?_concat]
      exact ⟨h.takeBehind hsplit, rfl⟩

variable {j : ι}

theorem Agrees.moved (h : Agrees s l) (hij : i ≠ j)
    (hnext : ∀ x, x ∉ (l j).map Prod.fst → next' x = s.next x)
    (hqueue : Linked.Queue next' p q ((l j ++ l i).map Prod.fst)) :
    Agrees ⟨next', s.datum, s.nodes, update (update s.head j p) i none,
      update (update s.tail j q) i none⟩
      (update (update l j (l j ++ l i)) i []) := by
  have hself : ∀ (m : List (ℕ × ℕ)), update (update l j m) i [] i = [] :=
    fun m => update_self _ _ _
  have hto : ∀ (m : List (ℕ × ℕ)), update (update l j m) i [] j = m := by
    intro m
    rw [update_of_ne (Ne.symm hij), update_self]
  have hother : ∀ (m : List (ℕ × ℕ)) k, k ≠ i → k ≠ j →
      update (update l j m) i [] k = l k := by
    intro m k hki hkj
    rw [update_of_ne hki, update_of_ne hkj]
  -- where a node was before
  have hfrom : ∀ k x, x ∈ (update (update l j (l j ++ l i)) i [] k).map
      Prod.fst → k ≠ i ∧ ∃ k', x ∈ (l k').map Prod.fst ∧ (k' = k ∨ k = j ∧ k' = i) := by
    intro k x hx
    by_cases hki : k = i
    · rw [hki, hself] at hx
      exact absurd hx List.not_mem_nil
    · refine ⟨hki, ?_⟩
      by_cases hkj : k = j
      · rw [hkj, hto, map_append, List.mem_append] at hx
        rcases hx with hx | hx
        · exact ⟨j, hx, .inl hkj.symm⟩
        · exact ⟨i, hx, .inr ⟨hkj, rfl⟩⟩
      · rw [hother _ k hki hkj] at hx
        exact ⟨k, hx, .inl rfl⟩
  refine ⟨fun k => ?_, fun k e he => ?_, fun k k' hkk' x hx hx' => ?_, fun x => ?_⟩
  · by_cases hki : k = i
    · rw [hki, hself]
      simp only [update_self]
      exact .empty
    · by_cases hkj : k = j
      · rw [hkj, hto]
        simp only [update_of_ne (Ne.symm hij), update_self]
        exact hqueue
      · rw [hother _ k hki hkj]
        simp only [update_of_ne hki, update_of_ne hkj]
        obtain ⟨hpath, hlast⟩ := h.queue k
        exact ⟨hpath.congr fun x hx => hnext x (h.disjoint k j hkj x hx), hlast⟩
  · by_cases hki : k = i
    · rw [hki, hself] at he
      exact absurd he List.not_mem_nil
    · by_cases hkj : k = j
      · rw [hkj, hto, List.mem_append] at he
        rcases he with he | he
        · exact h.datum j e he
        · exact h.datum i e he
      · rw [hother _ k hki hkj] at he
        exact h.datum k e he
  · obtain ⟨hk, a, ha, hak⟩ := hfrom k x hx
    obtain ⟨hk', b, hb, hbk⟩ := hfrom k' x hx'
    obtain rfl : a = b := by
      by_contra hab
      exact h.disjoint a b hab x ha hb
    rcases hak with rfl | ⟨rfl, rfl⟩
    · rcases hbk with rfl | ⟨-, rfl⟩
      · exact hkk' rfl
      · exact hk rfl
    · rcases hbk with rfl | ⟨rfl, -⟩
      · exact hk' rfl
      · exact hkk' rfl
  · rw [h.nodes]
    constructor
    · rintro ⟨k, hk⟩
      by_cases hki : k = i
      · refine ⟨j, ?_⟩
        rw [hto, map_append]
        exact mem_append_right _ (hki ▸ hk)
      · by_cases hkj : k = j
        · refine ⟨j, ?_⟩
          rw [hto, map_append]
          exact List.mem_append_left _ (hkj ▸ hk)
        · exact ⟨k, by rwa [hother _ k hki hkj]⟩
    · rintro ⟨k, hk⟩
      obtain ⟨-, a, ha, -⟩ := hfrom k x hk
      exact ⟨a, ha⟩

theorem Agrees.transferTo (h : Agrees s l) (hij : i ≠ j) :
    Agrees (s.transferTo i j) (update (update l j (l j ++ l i)) i []) := by
  rw [ListSimple.transferTo]
  cases hi : l i with
  | nil =>
    rw [h.head_none.mpr hi, append_nil, update_eq_self, ← hi, update_eq_self]
    exact h
  | cons e rest =>
    obtain ⟨hpath, hlast⟩ := h.queue i
    rw [hi] at hpath hlast
    rw [h.head_cons hi]
    cases hj : l j with
    | nil =>
      rw [h.head_none.mpr hj]
      have hmoved := h.moved (p := some e.1) (q := s.tail i) hij (fun x _ => rfl) (by
        rw [hi, hj]
        exact ⟨⟨rfl, hpath.2⟩, hlast⟩)
      rw [hi, hj] at hmoved
      exact hmoved
    | cons a m =>
      obtain ⟨hpathj, hlastj⟩ := h.queue j
      obtain ⟨pre, x, hx⟩ : ∃ pre x, (l j).map Prod.fst = pre ++ [x] := by
        rcases List.eq_nil_or_concat ((l j).map Prod.fst) with hnil | ⟨pre, x, hx⟩
        · rw [map_eq_nil_iff.mp hnil] at hj
          exact nomatch hj
        · exact ⟨pre, x, hx.trans concat_eq_append⟩
      have htail : s.tail j = some x := by
        rw [hlastj, hx, List.getLast?_concat]
      have hnot : x ∉ (l i).map Prod.fst := by
        refine h.disjoint j i (Ne.symm hij) x ?_
        rw [hx]
        exact mem_append_right _ mem_cons_self
      rw [hx] at hpathj
      rw [hi] at hnot
      have hqueue : Linked.Queue (update s.next x (some e.1)) (s.head j) (s.tail i)
          ((l j ++ l i).map Prod.fst) := by
        rw [map_append, hx, hi, append_assoc]
        refine ⟨hpathj.splice ⟨rfl, hpath.2⟩ hnot, ?_⟩
        rw [hlast, map_cons]
        simp [getLast?_append, getLast?_cons]
      have hmoved := h.moved hij (fun y hy => ?_) hqueue
      · rw [update_eq_self, hi, hj] at hmoved
        rw [h.head_cons hj]
        simp only [htail]
        exact hmoved
      · refine update_of_ne ?_ _ _
        rintro rfl
        refine hy ?_
        rw [hx]
        exact mem_append_right _ mem_cons_self

omit [DecidableEq ι] in
theorem Agrees.next_first (h : Agrees s l) : s.nextNode i none = (l i).head? := by
  rw [nextNode, (h.queue i).path.head_eq]
  cases hl : l i with
  | nil => rfl
  | cons e rest => exact congrArg (fun d => some (e.1, d)) (h.datum i e (hl ▸ mem_cons_self))

omit [DecidableEq ι] in
theorem Agrees.next_behind (h : Agrees s l)
    (hl : l i = pre ++ x :: post) : s.nextNode i (some x.1) = post.head? := by
  have hpath := (h.queue i).path
  rw [hl, map_append, map_cons] at hpath
  rw [nextNode]
  simp only [hpath.drop.head_eq]
  cases hpost : post with
  | nil => rfl
  | cons e rest =>
    have hmem : e ∈ l i := by
      rw [hl, hpost]
      exact mem_append_right _ (mem_cons_of_mem _ mem_cons_self)
    exact congrArg (fun d => some (e.1, d)) (h.datum i e hmem)

end

/-! ## Runs -/

variable (ι)

/-- The operations on the lists as callers may issue them. -/
def machine : Machine (Client ι) (Op ι) where
  step c op := ⟨c.lists.step op, specStep c.seq op⟩
  adm c op := c.adm op

/-- The last node is never outdated. -/
def carefulMachine : Machine (Client ι) (Op ι) where
  step c op := ⟨c.lists.step op, specStep c.seq op⟩
  adm c op := c.adm op ∧ c.KeepsLast op

instance : ∀ c op, Decidable ((machine ι).adm c op) :=
  fun c op => inferInstanceAs (Decidable (c.adm op))

instance : ∀ c op, Decidable ((carefulMachine ι).adm c op) :=
  fun c op => inferInstanceAs (Decidable (c.adm op ∧ c.KeepsLast op))

variable {ι}

def Client.init : Client ι := ⟨ListSimple.init, fun _ => []⟩

theorem Agrees.step {c : Client ι} (h : Agrees c.lists c.seq) {op : Op ι} (hadm : c.adm op)
    (hkeeps : c.KeepsLast op) : Agrees (c.lists.step op) (specStep c.seq op) := by
  cases op with
  | add i n d => exact h.add hadm d
  | addToEndOfList i n d => exact h.addToEndOfList hadm d
  | insertNext i prev n d =>
    cases prev with
    | none => exact h.addToEndOfList hadm.1 d
    | some p => exact h.insertNext hadm.1 d (hadm.2 p rfl) hkeeps
  | remove i d => exact (h.remove d).1
  | removeNext i prev =>
    cases prev with
    | none => exact (h.removeFirst hkeeps).1
    | some p => exact (h.removeBehind (hadm p rfl) hkeeps).1
  | removeHead i => exact h.removeHead.1
  | next i curr => exact h
  | transferTo i list => exact h.transferTo hadm

theorem Agrees.outdated {c : Client ι} (h : Agrees c.lists c.seq) {op : Op ι} (hadm : c.adm op)
    (hstep : Agrees (c.lists.step op) (specStep c.seq op)) : c.KeepsLast op := by
  cases op with
  | insertNext i prev n d =>
    cases prev with
    | none => trivial
    | some p =>
      intro hlast
      obtain ⟨pre, x, post, hsplit, rfl, hpre⟩ := h.split (hadm.2 p rfl)
      have htail := (hstep.queue i).last_eq
      have hsame : (c.lists.step (.insertNext i (some x.1) n d)).tail i = c.lists.tail i := rfl
      have hseq : (specStep c.seq (.insertNext i (some x.1) n d)) i =
          pre ++ x :: (n, d) :: post := by
        rw [specStep, update_self, hsplit, insertAfter_eq hpre]
      rw [hsame, (h.queue i).last_eq, hlast, hseq] at htail
      -- the new node is behind the old last one
      have hmem : x.1 ∈ ((n, d) :: post).map Prod.fst := by
        refine mem_of_getLast? (Eq.trans ?_ htail.symm)
        simp [getLast?_append, getLast?_cons]
      rcases mem_cons.mp hmem with heq | hmem
      · have hxn : x.1 = n := heq
        exact h.fresh hadm.1 i (hxn ▸ hadm.2 x.1 rfl)
      · have hnodup := (h.queue i).path.nodup
        rw [hsplit, map_append, map_cons] at hnodup
        exact (nodup_cons.mp (nodup_append.mp hnodup).2.1).1 hmem
  | removeNext i prev =>
    cases prev with
    | none =>
      intro hlen
      obtain ⟨e, he⟩ := List.length_eq_one_iff.mp hlen
      have hnone : (specStep c.seq (.removeNext i none)) i = [] := by
        rw [specStep, update_self, he]
        rfl
      have hsame : (c.lists.step (.removeNext i none)).tail i = c.lists.tail i := by
        rw [ListSimple.step, removeNext, h.head_cons he]
        rfl
      have htail := hstep.tail_none.mpr hnone
      rw [hsame, h.tail_none, he] at htail
      exact nomatch htail
    | some p =>
      intro hbefore
      obtain ⟨pre, hpre⟩ := List.getLast?_eq_some_iff.mp hbefore
      obtain ⟨y, hids⟩ : ∃ y, (c.seq i).map Prod.fst = pre ++ [p, y] := by
        rcases List.eq_nil_or_concat ((c.seq i).map Prod.fst) with hnil | ⟨m, y, hm⟩
        · rw [hnil] at hpre
          simp at hpre
        · rw [hm, concat_eq_append, List.dropLast_concat] at hpre
          refine ⟨y, ?_⟩
          rw [hm, hpre, concat_eq_append, append_assoc]
          rfl
      obtain ⟨pre', x, post, hsplit, rfl, hpre⟩ := h.split (hadm p rfl)
      obtain ⟨hpath, hlast⟩ := h.queue i
      have hdrop := hpath
      rw [hsplit, map_append, map_cons] at hdrop
      rw [hids] at hpath hlast
      obtain ⟨e, rfl, rfl⟩ := List.map_eq_singleton_iff.mp (hdrop.drop.unique hpath.drop)
      have hne : x.1 ≠ e.1 := by
        have hnodup := (nodup_append.mp hdrop.nodup).2.1
        exact fun heq => (nodup_cons.mp hnodup).1 (heq ▸ mem_cons_self)
      have hseq : (specStep c.seq (.removeNext i (some x.1))) i = pre' ++ [x] := by
        rw [specStep, update_self, hsplit, dropAfter_eq hpre]
        rfl
      have hhead : c.lists.head i ≠ none := by
        rw [Ne, h.head_none, hsplit]
        simp
      obtain ⟨head, hhead⟩ := Option.ne_none_iff_exists'.mp hhead
      have hsame : (c.lists.step (.removeNext i (some x.1))).tail i = c.lists.tail i := by
        rw [ListSimple.step, removeNext, hhead]
        simp only [hdrop.drop.head_eq]
        rfl
      have htail := (hstep.queue i).last_eq
      rw [hsame, hlast, hseq] at htail
      simp only [map_append, map_cons, map_nil, getLast?_append,
        getLast?_cons] at htail
      exact hne (Option.some.inj htail).symm
  | _ => trivial

/-- **The list is the sequence.** As long as no node is inserted behind the last one and the last
one is not taken by `removeNext`, the list reached from the head is the sequence that the
operations describe, `tail` is its last node, and each node is on one list, once; what is returned
fits the sequence. The first operation of the other kind leaves `tail` outdated. -/
theorem run_linksSequence {ops : List (Op ι)} {c : Client ι} (h : (carefulMachine ι).Run .init ops c) :
    Agrees c.lists c.seq ∧ (∀ i, c.lists.tail i = none ↔ c.seq i = []) ∧
      (∀ i d, (c.lists.remove i d).2 = some ((c.seq i).any fun e => e.2 == d)) ∧
      (∀ i, (c.lists.removeHead i).2 = (c.seq i).head?.map Prod.snd) ∧
      (∀ i, c.lists.nextNode i none = (c.seq i).head?) ∧
      (∀ i pre x post, c.seq i = pre ++ x :: post →
        c.lists.nextNode i (some x.1) = post.head?) ∧
      ∀ op, c.adm op → (Agrees (c.lists.step op) (specStep c.seq op) ↔ c.KeepsLast op) := by
  have hagrees : Agrees c.lists c.seq :=
    h.invariant (I := fun c => Agrees c.lists c.seq) init_agrees
      fun (c : Client ι) op (hc : Agrees c.lists c.seq) (hadm : c.adm op ∧ c.KeepsLast op) =>
        hc.step hadm.1 hadm.2
  refine ⟨hagrees, fun _ => hagrees.tail_none, fun _ d => (hagrees.remove d).2,
    fun _ => hagrees.removeHead.2, fun _ => hagrees.next_first,
    fun _ _ _ _ hsplit => hagrees.next_behind hsplit, fun op hadm => ?_⟩
  exact ⟨hagrees.outdated hadm, hagrees.step hadm⟩

/-- Two lists, where nodes come and go in the middle and one list is moved. -/
def transferOps : List (Op Bool) :=
  [.addToEndOfList true 1 10, .add true 2 20, .insertNext true (some 2) 3 30, .add false 4 40,
    .addToEndOfList false 5 50, .remove false 50, .transferTo false true,
    .removeNext true (some 3), .removeHead true]

theorem run_linksSequence_transferred : ∃ c : Client Bool, Agrees c.lists c.seq ∧
    c.seq true = [(3, 30), (4, 40)] ∧ c.lists.tail true = some 4 ∧ c.lists.tail false = none := by
  have hrun : (carefulMachine Bool).Run .init transferOps
      (transferOps.foldl (carefulMachine Bool).step .init) :=
    Machine.Admits.run (by decide +kernel)
  exact ⟨_, (run_linksSequence hrun).1, by decide +kernel, by decide +kernel, by decide +kernel⟩

/-- With a node behind the last one, `tail` is still at the old last node. -/
theorem run_outdated : ¬ ∀ (ops : List (Op Bool)) (c : Client Bool),
    (machine Bool).Run .init ops c → Agrees c.lists c.seq := by
  intro hall
  have hrun : (machine Bool).Run .init
      [.addToEndOfList true 1 10, .insertNext true (some 1) 2 20] _ :=
    Machine.Admits.run (by decide +kernel)
  have htail := ((hall _ _ hrun).queue true).last_eq
  revert htail
  decide +kernel

end ListSimple

end K42
