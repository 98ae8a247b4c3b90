import Mathlib.Data.List.Nodup

/-!
# Doubly linked lists between two pointers

A node has a pointer to the node after it and one to the node before it, and a list is a
pointer to its first node and a pointer to its last. `Segment` is a stretch of such a list
between two neighbours, so that lists can be taken apart and put together in any place;
whatever is written to a node off the stretch does not matter to it.
-/

open Function (update_of_ne update_self)
open List (mem_cons_self nodup_cons nodup_append nodup_append_comm)

universe u

/-- The two links of every node. -/
structure Links (α : Type u) where
  next : α → Option α
  prev : α → Option α

namespace Links

variable {α : Type u} {L M : Links α} {before after p q last : Option α} {a b : α} {l m : List α}

/-- From `p`, whose predecessor is `before`, the nodes `l` lead to `after`; the last node
passed is `last`. -/
def Segment (L : Links α) : (before p : Option α) → List α → (after last : Option α) → Prop
  | before, p, [], after, last => p = after ∧ last = before
  | before, p, a :: l, after, last =>
    p = some a ∧ L.prev a = before ∧ L.Segment (some a) (L.next a) l after last

theorem Segment.append_iff : L.Segment before p (l ++ m) after last ↔
    ∃ q mid, L.Segment before p l q mid ∧ L.Segment mid q m after last := by
  induction l generalizing before p with
  | nil =>
    constructor
    · intro h
      exact ⟨p, before, ⟨rfl, rfl⟩, h⟩
    · rintro ⟨q, mid, ⟨rfl, rfl⟩, h⟩
      exact h
  | cons a l ih =>
    constructor
    · rintro ⟨hp, hprev, h⟩
      obtain ⟨q, mid, hl, hm⟩ := ih.1 h
      exact ⟨q, mid, ⟨hp, hprev, hl⟩, hm⟩
    · rintro ⟨q, mid, ⟨hp, hprev, hl⟩, hm⟩
      exact ⟨hp, hprev, ih.2 ⟨q, mid, hl, hm⟩⟩

/-- Only the links of the nodes of the stretch matter. -/
theorem Segment.congr (h : L.Segment before p l after last)
    (hnext : ∀ a ∈ l, M.next a = L.next a) (hprev : ∀ a ∈ l, M.prev a = L.prev a) :
    M.Segment before p l after last := by
  induction l generalizing before p with
  | nil => exact h
  | cons a l ih =>
    obtain ⟨hp, hb, h⟩ := h
    refine ⟨hp, (hprev a mem_cons_self).trans hb, ?_⟩
    rw [hnext a mem_cons_self]
    exact ih h (fun b hb => hnext b (List.mem_cons_of_mem a hb))
      fun b hb => hprev b (List.mem_cons_of_mem a hb)

theorem Segment.last_append (h : L.Segment before p (l ++ [a]) after last) :
    last = some a ∧ L.next a = after := by
  obtain ⟨q, mid, -, -, -, hafter, hlast⟩ := Segment.append_iff.1 h
  exact ⟨hlast, hafter⟩

/-! ## Whole lists -/

/-- The nodes `l` form a list with the given ends. -/
def Deque (L : Links α) (head tail : Option α) (l : List α) : Prop :=
  L.Segment none head l none tail

variable {head tail head' tail' : Option α}

theorem deque_nil : L.Deque none none ([] : List α) := ⟨rfl, rfl⟩

theorem Deque.congr (h : L.Deque head tail l) (hnext : ∀ a ∈ l, M.next a = L.next a)
    (hprev : ∀ a ∈ l, M.prev a = L.prev a) : M.Deque head tail l :=
  Segment.congr h hnext hprev

theorem Deque.head_cons (h : L.Deque head tail (a :: l)) : head = some a := h.1

theorem Deque.next_nil (h : L.Deque head tail [a]) : L.next a = none := h.2.2.1

theorem Deque.eq_nil (h : L.Deque none tail l) : l = [] := by
  cases l with
  | nil => rfl
  | cons a l => cases h.1

theorem Deque.nil (h : L.Deque head tail ([] : List α)) : head = none ∧ tail = none := h

theorem Deque.tail_append (h : L.Deque head tail (l ++ [a])) : tail = some a := h.last_append.1

/-! ## Writing links -/

variable [DecidableEq α]

def setNext (L : Links α) (a : α) (p : Option α) : Links α :=
  { L with next := Function.update L.next a p }

def setPrev (L : Links α) (a : α) (p : Option α) : Links α :=
  { L with prev := Function.update L.prev a p }

theorem Segment.setNext (h : L.Segment before p l after last) (ha : a ∉ l) (v : Option α) :
    (L.setNext a v).Segment before p l after last := by
  refine h.congr (fun b hb => ?_) fun _ _ => rfl
  exact update_of_ne (fun h : b = a => ha (h ▸ hb)) ..

theorem Segment.setPrev (h : L.Segment before p l after last) (ha : a ∉ l) (v : Option α) :
    (L.setPrev a v).Segment before p l after last := by
  refine h.congr (fun _ _ => rfl) fun b hb => ?_
  exact update_of_ne (fun h : b = a => ha (h ▸ hb)) ..

/-- A stretch that starts with `a` gets another predecessor. -/
theorem Segment.setPrev_head (h : L.Segment before p (a :: l) after last) (ha : a ∉ l)
    (v : Option α) : (L.setPrev a v).Segment v p (a :: l) after last := by
  obtain ⟨hp, -, h⟩ := h
  exact ⟨hp, update_self .., h.setPrev ha v⟩

/-- A stretch that ends with `a` gets another successor. -/
theorem Segment.setNext_last (h : L.Segment before p (l ++ [a]) after last) (ha : a ∉ l)
    (v : Option α) : (L.setNext a v).Segment before p (l ++ [a]) v (some a) := by
  obtain ⟨q, mid, hl, hq, hprev, -, -⟩ := Segment.append_iff.1 h
  refine Segment.append_iff.2 ⟨q, mid, hl.setNext ha v, hq, hprev, ?_, rfl⟩
  exact update_self ..

/-- The first node is taken off: its successor is the first now. -/
theorem Deque.popFront (h : L.Deque head tail (a :: b :: l)) (hnodup : (a :: b :: l).Nodup) :
    L.next a = some b ∧ (L.setPrev b none).Deque (some b) tail (b :: l) := by
  obtain ⟨-, -, hb, hprev, h⟩ := h
  have hbl : b ∉ l := (nodup_cons.1 (nodup_cons.1 hnodup).2).1
  have hseg : L.Segment (some a) (some b) (b :: l) none tail := ⟨rfl, hprev, h⟩
  exact ⟨hb, hseg.setPrev_head hbl none⟩

/-- A node is put in front. -/
theorem Deque.pushFront (h : L.Deque head tail (b :: l)) (ha : a ∉ b :: l)
    (hnodup : (b :: l).Nodup) :
    (((L.setNext a (some b)).setPrev b (some a)).setPrev a none).Deque (some a) tail
      (a :: b :: l) := by
  have hab : a ≠ b := fun h => ha (h ▸ mem_cons_self)
  have hbl : b ∉ l := (nodup_cons.1 hnodup).1
  refine ⟨rfl, update_self .., ?_⟩
  have hnext : (((L.setNext a (some b)).setPrev b (some a)).setPrev a none).next a = some b :=
    update_self ..
  rw [hnext]
  have hhead : head = some b := h.head_cons
  subst hhead
  exact ((Segment.setNext h ha _).setPrev_head hbl (some a)).setPrev ha none

/-- The only node of a list. -/
theorem deque_singleton : ((L.setNext a none).setPrev a none).Deque (some a) (some a) [a] :=
  ⟨rfl, update_self .., update_self .., rfl⟩

/-- The last node is taken off: its predecessor is the last now. -/
theorem Deque.popBack (h : L.Deque head tail (l ++ [a, b])) (hnodup : (l ++ [a, b]).Nodup) :
    L.prev b = some a ∧ (L.setNext a none).Deque head (some a) (l ++ [a]) := by
  have happ : l ++ [a, b] = l ++ [a] ++ [b] := by simp
  rw [happ] at h hnodup
  obtain ⟨q, mid, hl, -, hprev, -, -⟩ := Segment.append_iff.1 h
  have hal : a ∉ l := by
    have := (nodup_append.1 hnodup).1
    rw [nodup_append_comm] at this
    exact (nodup_cons.1 this).1
  exact ⟨hprev.trans hl.last_append.1, hl.setNext_last hal none⟩

/-- One list is put in front of another. -/
theorem Deque.append (hl : L.Deque head tail (l ++ [a])) (hm : L.Deque head' tail' (b :: m))
    (hnodup : (l ++ [a] ++ b :: m).Nodup) :
    ((L.setNext a (some b)).setPrev b (some a)).Deque head tail' (l ++ [a] ++ b :: m) := by
  obtain ⟨hla, hbm, hdisj⟩ := nodup_append.1 hnodup
  have hal : a ∉ l := by
    rw [nodup_append_comm] at hla
    exact (nodup_cons.1 hla).1
  have habm : a ∉ b :: m := fun h => hdisj a (by simp) a h rfl
  have hbla : b ∉ l ++ [a] := fun h => hdisj b h b mem_cons_self rfl
  have hbm : b ∉ m := (nodup_cons.1 hbm).1
  have hhead : head' = some b := hm.head_cons
  subst hhead
  refine Segment.append_iff.2 ⟨some b, some a, ?_, ?_⟩
  · exact (Segment.setNext_last hl hal (some b)).setPrev hbla (some a)
  · exact (Segment.setNext hm habm (some b)).setPrev_head hbm (some a)

/-- A node is linked behind the last one. -/
def linkBack (L : Links α) (tail : Option α) (a : α) : Links α :=
  match tail with
  | none => L.setPrev a none
  | some t => (L.setPrev a (some t)).setNext t (some a)

/-- A node is put at the end. -/
theorem Deque.pushBack (h : L.Deque head tail l) (ha : a ∉ l) (hnodup : l.Nodup)
    (hnext : L.next a = none) :
    (L.linkBack tail a).Deque (if tail = none then some a else head) (some a) (l ++ [a]) := by
  rcases List.eq_nil_or_concat' l with rfl | ⟨l, t, rfl⟩
  · obtain ⟨-, rfl⟩ := h.nil
    exact ⟨rfl, update_self .., hnext, rfl⟩
  · obtain rfl := h.tail_append
    have htl : t ∉ l := by
      rw [nodup_append_comm] at hnodup
      exact (nodup_cons.1 hnodup).1
    have hat : a ≠ t := fun heq => ha (by simp [heq])
    refine Segment.append_iff.2 ⟨some a, some t, ?_, rfl, ?_, ?_, rfl⟩
    · exact Segment.setNext_last (Segment.setPrev h ha _) htl (some a)
    · exact update_self ..
    · exact (update_of_ne hat ..).trans hnext

/-- A node is taken out: its neighbours are linked with each other. -/
def unlink (L : Links α) (a : α) : Links α :=
  let M := match L.prev a with
    | none => L
    | some b => L.setNext b (L.next a)
  let M := match L.next a with
    | none => M
    | some c => M.setPrev c (L.prev a)
  (M.setPrev a none).setNext a none

theorem Deque.unlink (h : L.Deque head tail (l ++ a :: m)) (hnodup : (l ++ a :: m).Nodup) :
    (L.unlink a).Deque (if L.prev a = none then L.next a else head)
      (if L.next a = none then L.prev a else tail) (l ++ m) := by
  obtain ⟨q, mid, hl, -, hprev, hm⟩ := Segment.append_iff.1 h
  obtain ⟨hlnodup, hamnodup, hdisj⟩ := nodup_append.1 hnodup
  obtain ⟨ham, hmnodup⟩ := nodup_cons.1 hamnodup
  have hal : a ∉ l := fun hmem => hdisj a hmem a mem_cons_self rfl
  subst hprev
  -- the stretch before the node, and the one behind it
  have hbefore : (L.unlink a).Segment none (if L.prev a = none then L.next a else head) l
      (L.next a) (L.prev a) := by
    rcases List.eq_nil_or_concat' l with rfl | ⟨l, b, rfl⟩
    · obtain ⟨-, hnone⟩ := hl
      rw [if_pos hnone]
      exact ⟨rfl, hnone⟩
    · have hb : L.prev a = some b := hl.last_append.1
      have hbl : b ∉ l := by
        rw [nodup_append_comm] at hlnodup
        exact (nodup_cons.1 hlnodup).1
      rw [if_neg (by rw [hb]; exact nofun), hb]
      simp only [Links.unlink, hb]
      refine Segment.setNext (Segment.setPrev ?_ hal none) hal none
      have hset := hl.setNext_last hbl (L.next a)
      cases hc : L.next a with
      | none =>
        rw [hc] at hset
        exact hset
      | some c =>
        rw [hc] at hset
        refine hset.setPrev ?_ _
        cases m with
        | nil =>
          rw [hc] at hm
          exact nomatch hm.1
        | cons d m =>
          have hcd : c = d := Option.some.inj (hc.symm.trans hm.1)
          rw [hcd]
          exact fun hmem => hdisj d hmem d (by simp) rfl
  have hafter : (L.unlink a).Segment (L.prev a) (L.next a) m none
      (if L.next a = none then L.prev a else tail) := by
    cases m with
    | nil =>
      obtain ⟨hnone, -⟩ := hm
      rw [if_pos hnone]
      exact ⟨hnone, rfl⟩
    | cons c m =>
      have hc : L.next a = some c := hm.1
      have hcm : c ∉ m := (nodup_cons.1 hmnodup).1
      rw [if_neg (by rw [hc]; exact nofun)]
      simp only [Links.unlink, hc]
      refine Segment.setNext (Segment.setPrev ?_ ham none) ham none
      rw [hc] at hm
      cases hb : L.prev a with
      | none => exact hm.setPrev_head hcm none
      | some b =>
        have hbm : b ∉ c :: m := by
          rcases List.eq_nil_or_concat' l with rfl | ⟨l, d, rfl⟩
          · rw [hl.2] at hb
            cases hb
          · have hbd : b = d := Option.some.inj (hb.symm.trans hl.last_append.1)
            rw [hbd]
            exact fun hmem => hdisj d (by simp) d (List.mem_cons_of_mem a hmem) rfl
        exact (Segment.setNext hm hbm _).setPrev_head hcm (some b)
  exact Segment.append_iff.2 ⟨L.next a, L.prev a, hbefore, hafter⟩

theorem unlink_self (L : Links α) (a : α) :
    (L.unlink a).next a = none ∧ (L.unlink a).prev a = none :=
  ⟨update_self .., update_self ..⟩

theorem unlink_other {L : Links α} {c : α} (hc : c ≠ a) (hprev : L.prev a ≠ some c)
    (hnext : L.next a ≠ some c) :
    (L.unlink a).next c = L.next c ∧ (L.unlink a).prev c = L.prev c := by
  have hother : ∀ {b v}, some b ≠ some c → (L.setNext b v).next c = L.next c :=
    fun hb => update_of_ne (fun heq => hb (congrArg some heq.symm)) ..
  simp only [Links.unlink]
  constructor
  · refine (update_of_ne hc ..).trans ?_
    cases hb : L.prev a with
    | none => cases L.next a <;> rfl
    | some b =>
      rw [hb] at hprev
      cases L.next a <;> exact hother hprev
  · refine (update_of_ne hc ..).trans ?_
    cases hd : L.next a with
    | none => cases L.prev a <;> rfl
    | some d =>
      rw [hd] at hnext
      have hdc : c ≠ d := fun heq => hnext (congrArg some heq.symm)
      cases L.prev a <;> exact update_of_ne hdc ..

omit [DecidableEq α] in
/-- The neighbours of a node, and when it is the first or the last. -/
theorem Deque.neighbours (h : L.Deque head tail (l ++ a :: m)) :
    L.prev a = l.getLast? ∧ L.next a = m.head? ∧ head = (l ++ [a]).head? ∧
      (m = [] → tail = some a) := by
  obtain ⟨q, mid, hl, hq, hprev, hm⟩ := Segment.append_iff.1 h
  refine ⟨?_, ?_, ?_, ?_⟩
  · rcases List.eq_nil_or_concat' l with rfl | ⟨l, b, rfl⟩
    · exact hprev.trans hl.2
    · rw [hprev, hl.last_append.1, List.getLast?_concat]
  · cases m with
    | nil => exact hm.1
    | cons c m => exact hm.1
  · cases l with
    | nil => exact hl.1.trans hq
    | cons b l => exact hl.1
  · rintro rfl
    exact hm.2

end Links
