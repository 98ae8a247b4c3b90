import K42.Lib.Linked
import Mathlib.Data.List.Rotate

/-!
# Circular lists with one link

Nodes carry their own successor pointer, and a pointer to any of the nodes stands for the whole
list. The list is written from that node on; moving the pointer rotates it. A search for the node
in front of another one goes round from the pointer.
-/

open Function (update update_of_ne update_self)
open List (mem_cons mem_cons_self mem_cons_of_mem nodup_cons nodup_append)

universe u

namespace Circle

open Linked

variable {α : Type u} {next next' : α → Option α} {cur : Option α} {a b x y : α} {l m : List α}

/-- Following `next` from `cur` goes round the nodes of `l`, all different. -/
def Round (next : α → Option α) : Option α → List α → Prop
  | none, l => l = []
  | some x, l => l.Nodup ∧ ∃ m, l = x :: m ∧ Leads next (next x) m (some x)

theorem Round.cons (h : Round next (some x) l) :
    ∃ m, l = x :: m ∧ (x :: m).Nodup ∧ Leads next (next x) m (some x) := by
  obtain ⟨hnodup, m, rfl, hleads⟩ := h
  exact ⟨m, rfl, hnodup, hleads⟩

theorem Round.eq_nil_iff (h : Round next cur l) : l = [] ↔ cur = none := by
  cases cur with
  | none => exact ⟨fun _ => rfl, fun _ => h⟩
  | some x =>
    obtain ⟨m, rfl, -, -⟩ := h.cons
    exact ⟨nofun, nofun⟩

theorem Round.head_eq (h : Round next cur l) : cur = l.head? := by
  cases cur with
  | none =>
    obtain rfl : l = [] := h
    rfl
  | some x =>
    obtain ⟨m, rfl, -, -⟩ := h.cons
    rfl

theorem Round.nodup (h : Round next cur l) : l.Nodup := by
  cases cur with
  | none =>
    obtain rfl : l = [] := h
    exact List.nodup_nil
  | some x => exact h.1

/-- Only the pointers of the nodes matter. -/
theorem Round.congr (h : Round next cur l) (heq : ∀ a ∈ l, next' a = next a) :
    Round next' cur l := by
  cases cur with
  | none => exact h
  | some x =>
    obtain ⟨m, rfl, hnodup, hleads⟩ := h.cons
    refine ⟨hnodup, m, rfl, ?_⟩
    rw [heq x mem_cons_self]
    exact hleads.congr fun b hb => heq b (mem_cons_of_mem _ hb)

/-- A part of the way from `cur` and the rest of it. -/
theorem leads_append {p q : Option α} :
    Leads next p (l ++ m) q ↔ ∃ r, Leads next p l r ∧ Leads next r m q := by
  induction l generalizing p with
  | nil =>
    constructor
    · exact fun h => ⟨p, rfl, h⟩
    · rintro ⟨r, rfl, h⟩
      exact h
  | cons b l ih =>
    constructor
    · rintro ⟨hb, hrest⟩
      obtain ⟨r, hl, hm⟩ := ih.1 hrest
      exact ⟨r, ⟨hb, hl⟩, hm⟩
    · rintro ⟨r, ⟨hb, hl⟩, hm⟩
      exact ⟨hb, ih.2 ⟨r, hl, hm⟩⟩

/-- From any of its nodes on the list is a rotation. -/
theorem Round.rotate (h : Round next cur (l ++ x :: m)) : Round next (some x) (x :: m ++ l) := by
  cases cur with
  | none =>
    have hnil : l ++ x :: m = [] := h
    simp at hnil
  | some y =>
    obtain ⟨hnodup, m', heq, hleads⟩ := h
    have hnodup' : (x :: m ++ l).Nodup := (List.perm_append_comm.nodup_iff).1 hnodup
    cases l with
    | nil =>
      cases heq
      exact ⟨hnodup', m, by simp, hleads⟩
    | cons b l =>
      cases heq
      obtain ⟨r, hl, hx, hm⟩ := leads_append.1 hleads
      subst r
      exact ⟨hnodup', m ++ y :: l, rfl, leads_append.2 ⟨some y, hm, rfl, hl⟩⟩

theorem Round.next_eq (h : Round next (some x) (x :: y :: m)) : next x = some y := by
  obtain ⟨-, m', heq, hleads⟩ := h
  cases heq
  exact hleads.1

theorem Round.next_single (h : Round next (some x) [x]) : next x = some x := by
  obtain ⟨-, m', heq, hleads⟩ := h
  cases heq
  exact hleads

/-- The node in front of a node. -/
theorem Round.next_append (h : Round next cur (l ++ x :: y :: m)) : next x = some y := by
  exact h.rotate.next_eq

/-- One step round. -/
theorem Round.forward (h : Round next (some x) (x :: m)) : Round next (next x) (m ++ [x]) := by
  cases m with
  | nil =>
    rw [h.next_single]
    exact h
  | cons b m =>
    have hround : Round next (some x) ([x] ++ b :: m) := h
    rw [h.next_eq]
    exact hround.rotate

theorem Round.next_ne_none (h : Round next cur l) (hx : x ∈ l) : next x ≠ none := by
  obtain ⟨l₁, l₂, rfl⟩ := List.append_of_mem hx
  have hround := h.rotate
  cases hrest : l₂ ++ l₁ with
  | nil =>
    have hround' : Round next (some x) [x] := by
      rw [← hrest]
      exact hround
    rw [hround'.next_single]
    exact Option.some_ne_none x
  | cons b rest =>
    have hround' : Round next (some x) (x :: b :: rest) := by
      rw [← hrest]
      exact hround
    rw [hround'.next_eq]
    exact Option.some_ne_none b

/-- A node that is its own successor is alone. -/
theorem Round.eq_single (h : Round next cur l) (ha : a ∈ l) (hself : next a = some a) :
    l = [a] := by
  obtain ⟨l₁, l₂, rfl⟩ := List.append_of_mem ha
  have hround := h.rotate
  cases hrest : l₂ ++ l₁ with
  | nil =>
    obtain ⟨rfl, rfl⟩ := List.append_eq_nil_iff.1 hrest
    rfl
  | cons c rest =>
    have hround' : Round next (some a) (a :: c :: rest) := by
      rw [← hrest]
      exact hround
    have hca : c = a := by
      have hnext := hround'.next_eq
      rw [hself] at hnext
      exact (Option.some.inj hnext).symm
    have hnot := (nodup_cons.1 hround'.nodup).1
    rw [hca] at hnot
    exact absurd mem_cons_self hnot

/-! ## Changes -/

variable [DecidableEq α]

theorem round_single (next : α → Option α) (a : α) :
    Round (update next a (some a)) (some a) [a] :=
  ⟨List.nodup_singleton a, [], rfl, update_self ..⟩

/-- A node is added behind the pointer's. -/
theorem Round.insert (h : Round next (some x) (x :: m)) (ha : a ∉ x :: m) :
    Round (update (update next a (next x)) x (some a)) (some x)
      (x :: a :: m) := by
  obtain ⟨hnodup, m', heq, hleads⟩ := h
  cases heq
  obtain ⟨hxm, hm⟩ := nodup_cons.1 hnodup
  have hax : a ≠ x := by
    rintro rfl
    exact ha mem_cons_self
  have ham : a ∉ m := fun hmem => ha (mem_cons_of_mem _ hmem)
  refine ⟨?_, a :: m, rfl, ?_, ?_⟩
  · refine nodup_cons.2 ⟨?_, nodup_cons.2 ⟨ham, hm⟩⟩
    intro hmem
    rcases mem_cons.1 hmem with heq | hmem
    · exact hax heq.symm
    · exact hxm hmem
  · exact update_self ..
  · rw [update_of_ne hax, update_self]
    refine hleads.congr fun b hb => ?_
    have hbx : b ≠ x := by
      rintro rfl
      exact hxm hb
    have hba : b ≠ a := by
      rintro rfl
      exact ham hb
    rw [update_of_ne hbx, update_of_ne hba]

/-- The nodes `l` behind the pointer's are passed over. -/
theorem Round.skip (h : Round next (some x) (x :: (l ++ m))) {q : Option α}
    (hq : Leads next q m (some x)) : Round (update next x q) (some x) (x :: m) := by
  obtain ⟨hnodup, m', heq, -⟩ := h
  have hnodup' : (x :: m).Nodup := hnodup.sublist ((List.sublist_append_right l m).cons_cons x)
  refine ⟨hnodup', m, rfl, ?_⟩
  rw [update_self]
  refine hq.congr fun b hb => ?_
  have hbx : b ≠ x := by
    rintro rfl
    exact (nodup_cons.1 hnodup').1 hb
  exact update_of_ne hbx ..

/-- `while (prev->next != a) prev = prev->next;` from `x`, which fails if it comes back to it. -/
def findPrev (next : α → Option α) (x a : α) : ℕ → α → Option α
  | 0, _ => none
  | fuel + 1, prev =>
    if next prev = some a then some prev
    else
      match next prev with
      | none => none
      | some p => if p = x then none else findPrev next x a fuel p

theorem findPrev_leads {fuel : ℕ} {prev : α} (h : Leads next (next prev) (l ++ [a]) (next a))
    (hx : x ∉ l) (ha : a ∉ l) (hfuel : l.length < fuel) :
    ∃ b, findPrev next x a fuel prev = some b ∧ next b = some a ∧ (b = prev ∨ b ∈ l) := by
  induction l generalizing fuel prev with
  | nil =>
    obtain ⟨fuel, rfl⟩ := Nat.exists_eq_add_one_of_ne_zero (Nat.ne_of_gt hfuel)
    exact ⟨prev, if_pos h.1, h.1, .inl rfl⟩
  | cons b l ih =>
    obtain ⟨fuel, rfl⟩ := Nat.exists_eq_add_one_of_ne_zero (Nat.ne_of_gt (Nat.zero_lt_of_lt hfuel))
    obtain ⟨hb, hrest⟩ := h
    have hba : b ≠ a := by
      rintro rfl
      exact ha mem_cons_self
    have hbx : b ≠ x := by
      rintro rfl
      exact hx mem_cons_self
    obtain ⟨c, hc, hca, hmem⟩ := ih hrest (fun hmem => hx (mem_cons_of_mem _ hmem))
      (fun hmem => ha (mem_cons_of_mem _ hmem)) (Nat.lt_of_succ_lt_succ hfuel)
    refine ⟨c, ?_, hca, .inr ?_⟩
    · rw [findPrev, hb, if_neg fun heq => hba (Option.some.inj heq)]
      simp only
      rw [if_neg hbx]
      exact hc
    · rcases hmem with rfl | hmem
      · exact mem_cons_self
      · exact mem_cons_of_mem _ hmem

/-- The search finds the node in front of any node of the list. -/
theorem Round.findPrev (h : Round next (some x) l) (ha : a ∈ l) {fuel : ℕ}
    (hfuel : l.length ≤ fuel) :
    ∃ b ∈ l, findPrev next x a fuel x = some b ∧ next b = some a := by
  obtain ⟨m, rfl, hnodup, hleads⟩ := h.cons
  obtain ⟨hxm, hm⟩ := nodup_cons.1 hnodup
  -- the way from the pointer to `a`, which for its own node is all the way round
  have hway : ∃ l₁, Leads next (next x) (l₁ ++ [a]) (next a) ∧ x ∉ l₁ ∧ a ∉ l₁ ∧
      l₁.length ≤ m.length ∧ ∀ b ∈ l₁, b ∈ m := by
    rcases mem_cons.1 ha with rfl | ha
    · refine ⟨m, leads_append.2 ⟨some a, hleads, rfl, rfl⟩, hxm, hxm, le_rfl, fun _ hb => hb⟩
    · obtain ⟨l₁, l₂, rfl⟩ := List.append_of_mem ha
      obtain ⟨r, hl₁, hr, -⟩ := leads_append.1 hleads
      subst r
      refine ⟨l₁, leads_append.2 ⟨some a, hl₁, rfl, rfl⟩, ?_, ?_, ?_, ?_⟩
      · exact fun hmem => hxm (List.mem_append_left _ hmem)
      · exact fun hmem => (nodup_append.1 hm).2.2 a hmem a mem_cons_self rfl
      · rw [List.length_append]
        exact Nat.le_add_right _ _
      · exact fun b hb => List.mem_append_left _ hb
  obtain ⟨l₁, hl₁, hx, ha₁, hlength, hsub⟩ := hway
  rw [List.length_cons] at hfuel
  have hfuel' : l₁.length < fuel := by omega
  obtain ⟨b, hb, hba, hmem⟩ := findPrev_leads hl₁ hx ha₁ hfuel'
  refine ⟨b, ?_, hb, hba⟩
  rcases hmem with rfl | hmem
  · exact mem_cons_self
  · exact mem_cons_of_mem _ (hsub b hmem)

/-- The node behind `b` is passed over. -/
theorem Round.erase (h : Round next (some b) (b :: a :: m)) :
    Round (update next b (next a)) (some b) (b :: m) := by
  have hround : Round next (some b) (b :: ([a] ++ m)) := h
  obtain ⟨-, m', heq, hleads⟩ := h
  cases heq
  exact hround.skip hleads.2

/-- A node that is not alone is passed over by the one in front of it; a pointer to it goes on to
the next one. -/
theorem Round.remove (h : Round next (some x) l) (hb : b ∈ l) (hba : next b = some a)
    (hne : b ≠ a) :
    Round (update next b (next a)) (if x = a then next a else some x) (l.erase a) := by
  obtain ⟨l₁, l₂, rfl⟩ := List.append_of_mem hb
  have hround := h.rotate
  have hnodup := h.nodup
  have hb₁ : b ∉ l₁ := fun hmem => (nodup_append.1 hnodup).2.2 b hmem b mem_cons_self rfl
  cases l₂ with
  | nil =>
    -- `b` is the last node, so the pointer is to `a`
    cases l₁ with
    | nil =>
      have hself : next b = some b := hround.next_single
      rw [hba] at hself
      exact absurd (Option.some.inj hself).symm hne
    | cons c l₁ =>
      have hxc : x = c := Option.some.inj h.head_eq
      have hround' : Round next (some b) (b :: c :: l₁) := hround
      have hac : a = c := by
        have hnext := hround'.next_eq
        rw [hba] at hnext
        exact Option.some.inj hnext
      subst x
      subst a
      have herase := hround'.erase.forward
      rw [update_self] at herase
      rw [if_pos rfl, List.cons_append, List.erase_cons_head]
      exact herase
  | cons c l₂ =>
    have hac : a = c := by
      have hnext := h.next_append
      rw [hba] at hnext
      exact Option.some.inj hnext
    subst c
    have ha₁ : a ∉ l₁ := fun hmem => (nodup_append.1 hnodup).2.2 a hmem a
      (mem_cons_of_mem _ mem_cons_self) rfl
    have hround' : Round next (some b) (b :: a :: (l₂ ++ l₁)) := hround
    have herase := hround'.erase
    rw [List.erase_append_right _ ha₁, List.erase_cons_tail (by simpa using hne),
      List.erase_cons_head]
    cases l₁ with
    | nil =>
      have hxb : x = b := Option.some.inj h.head_eq
      subst x
      rw [if_neg hne]
      simpa using herase
    | cons c l₁ =>
      have hxc : x = c := Option.some.inj h.head_eq
      have hca : c ≠ a := by
        rintro rfl
        exact ha₁ mem_cons_self
      subst x
      rw [if_neg hca]
      have hback : Round (update next b (next a)) (some b) ((b :: l₂) ++ c :: l₁) :=
        herase
      exact hback.rotate

end Circle
