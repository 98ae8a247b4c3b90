import K42.Lib.Buckets
import K42.Lib.Update
import Mathlib.Data.List.AList

/-!
# Hash chains as lists

A table with `n` places has in each place the list of the nodes whose keys hash to it. Each key
is there once. The nodes are visited place by place; the one after a node is the next one in
its list, or the first of the next place that is used.
-/

open Function (update update_cases update_of_ne update_self)
open List (mem_cons mem_cons_self nodup_cons mem_append_right map_cons cons_append mem_map
  mem_range)

universe u v

namespace Chained

open Buckets (all)

variable {α : Type u} {κ : Type v} {key : α → κ} {hash : κ → ℕ} {n i : ℕ}
  {chain chain' : ℕ → List α} {a b : α} {k : κ} {l l' pre post : List α}

/-- The nodes are in their places, and no key occurs twice in a list. -/
structure Placed (key : α → κ) (hash : κ → ℕ) (n : ℕ) (chain : ℕ → List α) : Prop where
  bound : ∀ k, hash k < n
  place : ∀ i < n, ∀ a ∈ chain i, hash (key a) = i
  nodup : ∀ i < n, ((chain i).map key).Nodup

section

variable (h : Placed key hash n chain)

include h

theorem Placed.mem_all :
    a ∈ all chain n ↔ a ∈ chain (hash (key a)) := by
  rw [Buckets.mem_all]
  constructor
  · rintro ⟨i, hi, ha⟩
    rwa [h.place i hi a ha]
  · intro ha
    exact ⟨hash (key a), h.bound _, ha⟩

theorem Placed.nodup_all : ((all chain n).map key).Nodup := by
  rw [all, List.map_flatMap]
  refine List.nodup_flatMap.mpr ⟨fun i hi => h.nodup i (mem_range.mp hi), ?_⟩
  refine List.Pairwise.imp_of_mem ?_ List.nodup_range
  intro i j hi hj hij k hki hkj
  obtain ⟨a, ha, rfl⟩ := mem_map.mp hki
  obtain ⟨b, hb, hab⟩ := mem_map.mp hkj
  have hai := h.place i (mem_range.mp hi) a ha
  have hbj := h.place j (mem_range.mp hj) b hb
  exact hij (hai.symm.trans (hab ▸ hbj))

/-- What is done to one list. -/
theorem Placed.setBucket (hplace : ∀ a ∈ l, hash (key a) = i)
    (hnodup : (l.map key).Nodup) : Placed key hash n (update chain i l) where
  bound := h.bound
  place := update_cases (fun _ => hplace) (fun j _ => h.place j)
  nodup := update_cases (fun _ => hnodup) (fun j _ => h.nodup j)

/-- A node with a new key is put in front of its list. -/
theorem Placed.push (hnew : ∀ b ∈ all chain n, key b ≠ key a) :
    Placed key hash n (update chain (hash (key a)) (a :: chain (hash (key a)))) := by
  refine h.setBucket ?_ ?_
  · rintro b hb
    rcases mem_cons.mp hb with rfl | hb
    · rfl
    · exact h.place _ (h.bound _) b hb
  · rw [map_cons, nodup_cons]
    refine ⟨fun hmem => ?_, h.nodup _ (h.bound _)⟩
    obtain ⟨b, hb, hkey⟩ := mem_map.mp hmem
    exact hnew b (Buckets.mem_all.mpr ⟨_, h.bound _, hb⟩) hkey

end

theorem push_perm (hi : i < n) : (all (update chain i (a :: chain i)) n).Perm
    (a :: all chain n) := by
  refine Buckets.all_perm hi (fun j hj => update_of_ne hj _ _) ?_
  rw [update_self]

/-- A node is taken out of its list. -/
theorem Placed.unlink (h : Placed key hash n chain) (hi : i < n)
    (hsplit : chain i = pre ++ a :: post) :
    Placed key hash n (update chain i (pre ++ post)) := by
  have hsub : (pre ++ post).Sublist (chain i) := by
    rw [hsplit]
    exact List.Sublist.append (List.Sublist.refl pre) (List.sublist_cons_self a post)
  exact h.setBucket (fun b hb => h.place i hi b (hsub.subset hb))
    ((h.nodup i hi).sublist (hsub.map key))

theorem unlink_perm (hi : i < n) (hsplit : chain i = pre ++ a :: post) :
    (all chain n).Perm (a :: all (update chain i (pre ++ post)) n) := by
  refine Buckets.all_perm hi (fun j hj => (update_of_ne hj _ _).symm) ?_
  rw [hsplit, update_self]
  exact List.perm_middle

section

variable [DecidableEq κ]

/-! ## Searching a list -/

/-- The node with the key, and what follows it in the list. -/
def after (key : α → κ) (k : κ) : List α → Option (α × List α)
  | [] => none
  | a :: l => if key a = k then some (a, l) else after key k l

theorem after_none : after key k l = none ↔ ∀ a ∈ l, key a ≠ k := by
  induction l with
  | nil => simp [after]
  | cons b l ih =>
    rw [after]
    by_cases hb : key b = k
    · simp [hb]
    · simp [hb, ih]

theorem after_some (h : after key k l = some (a, post)) :
    key a = k ∧ ∃ pre, l = pre ++ a :: post := by
  induction l with
  | nil => cases h
  | cons b l ih =>
    rw [after] at h
    split at h
    · next hb =>
      cases h
      exact ⟨hb, [], rfl⟩
    · obtain ⟨hkey, pre, rfl⟩ := ih h
      exact ⟨hkey, b :: pre, rfl⟩

theorem after_of_nodup (hnodup : (l.map key).Nodup) (hsplit : l = pre ++ a :: post) :
    after key (key a) l = some (a, post) := by
  subst hsplit
  induction pre with
  | nil => exact if_pos rfl
  | cons b pre ih =>
    rw [cons_append, map_cons, nodup_cons] at hnodup
    have hne : key b ≠ key a := by
      intro heq
      refine hnodup.1 ?_
      rw [heq]
      exact List.mem_map_of_mem (mem_append_right pre mem_cons_self)
    rw [cons_append, after, if_neg hne]
    exact ih hnodup.2

/-- The node with the key is the one with the key in a longer list. -/
theorem after_sublist (h : l.Sublist l') (hnodup : (l'.map key).Nodup)
    (hafter : after key k l = some (a, post)) :
    ∃ post', after key k l' = some (a, post') ∧ post.Sublist post' := by
  induction h with
  | slnil => cases hafter
  | cons b hsub ih =>
    rw [map_cons, nodup_cons] at hnodup
    have hne : key b ≠ k := by
      obtain ⟨hkey, pre, hsplit⟩ := after_some hafter
      intro heq
      refine hnodup.1 (mem_map.mpr ⟨a, hsub.subset ?_, hkey.trans heq.symm⟩)
      rw [hsplit]
      exact mem_append_right pre mem_cons_self
    rw [after, if_neg hne]
    exact ih hnodup.2 hafter
  | cons_cons b hsub ih =>
    rw [map_cons, nodup_cons] at hnodup
    rw [after] at hafter ⊢
    split at hafter
    · next hkey =>
      cases hafter
      rw [if_pos hkey]
      exact ⟨_, rfl, hsub⟩
    · next hkey =>
      rw [if_neg hkey]
      exact ih hnodup.2 hafter

end

/-! ## The order of the nodes -/

/-- The first node in a place from `i` on. -/
def firstFrom (chain : ℕ → List α) (n i : ℕ) : Option α :=
  Buckets.firstFrom (fun i => (chain i).head?) n i

/-- The nodes from the place `i` on. -/
def allFrom (chain : ℕ → List α) (n i : ℕ) : List α := (List.range' i (n - i)).flatMap chain

theorem allFrom_zero : allFrom chain n 0 = all chain n := by
  rw [allFrom, all, Nat.sub_zero, List.range_eq_range']

theorem allFrom_of_le (h : n ≤ i) : allFrom chain n i = [] := by
  rw [allFrom, Nat.sub_eq_zero_of_le h]
  rfl

theorem allFrom_of_lt (h : i < n) : allFrom chain n i = chain i ++ allFrom chain n (i + 1) := by
  obtain ⟨d, hd⟩ := Nat.exists_eq_add_of_lt h
  have hsub : n - i = d + 1 := by omega
  have hsub' : n - (i + 1) = d := by omega
  rw [allFrom, allFrom, hsub, hsub', List.range'_succ, List.flatMap_cons]

/-- Empty places may be left out. -/
theorem allFrom_skip {j : ℕ} (hij : i ≤ j) (hempty : ∀ k, i ≤ k → k < j → chain k = []) :
    allFrom chain n i = allFrom chain n j := by
  induction j, hij using Nat.le_induction with
  | base => rfl
  | succ j hij ih =>
    rw [ih fun k hik hkj => hempty k hik (Nat.lt_succ_of_lt hkj)]
    by_cases hj : j < n
    · rw [allFrom_of_lt hj, hempty j hij (Nat.lt_succ_self j), List.nil_append]
    · rw [allFrom_of_le (Nat.le_of_not_lt hj), allFrom_of_le (by omega)]

/-- The first node is taken away. -/
theorem allFrom_pop (hi : i < n) (hchain : chain i = a :: l) :
    allFrom chain n i = a :: allFrom (update chain i l) n i := by
  have hlater : allFrom (update chain i l) n (i + 1) = allFrom chain n (i + 1) := by
    refine List.flatMap_congr fun j hj => update_of_ne ?_ _ _
    rw [List.mem_range'_1] at hj
    omega
  rw [allFrom_of_lt hi, allFrom_of_lt hi, hlater, hchain, update_self, cons_append]

theorem all_split (chain : ℕ → List α) (h : i ≤ n) :
    all chain n = all chain i ++ allFrom chain n i := by
  rw [all, all, allFrom, List.range_eq_range', List.range_eq_range', ← List.flatMap_append]
  have hrange : List.range' 0 i ++ List.range' i (n - i) = List.range' 0 n := by
    have happend := List.range'_append_1 (s := 0) (m := i) (n := n - i)
    rwa [Nat.zero_add, Nat.add_sub_cancel' h] at happend
  rw [hrange]

theorem firstFrom_eq (chain : ℕ → List α) (n i : ℕ) :
    firstFrom chain n i = (allFrom chain n i).head? := by
  induction hd : n - i generalizing i with
  | zero =>
    have hle := Nat.le_of_sub_eq_zero hd
    rw [firstFrom, Buckets.firstFrom_of_le hle, allFrom_of_le hle]
    rfl
  | succ d ih =>
    have hlt : i < n := by omega
    have hrest := ih (i + 1) (by omega)
    rw [firstFrom] at hrest ⊢
    rw [Buckets.firstFrom_of_lt hlt, allFrom_of_lt hlt, hrest]
    cases chain i <;> rfl

/-- The nodes before and after one. -/
theorem all_eq (hi : i < n) (hsplit : chain i = pre ++ a :: post) :
    all chain n = (all chain i ++ pre) ++ a :: (post ++ allFrom chain n (i + 1)) := by
  rw [all_split chain (Nat.le_of_lt hi), allFrom_of_lt hi, hsplit]
  simp

section

variable [DecidableEq κ]

/-- The nodes after the one with the key, or else those after its place. -/
def rest (key : α → κ) (hash : κ → ℕ) (n : ℕ) (chain : ℕ → List α) (k : κ) : List α :=
  ((after key k (chain (hash k))).map Prod.snd).getD [] ++ allFrom chain n (hash k + 1)

theorem head?_rest : (rest key hash n chain k).head? =
    (((after key k (chain (hash k))).map Prod.snd).getD []).head?.or
      (firstFrom chain n (hash k + 1)) := by
  rw [rest, firstFrom_eq, List.head?_append]

/-- These are the last nodes of the table. -/
theorem Placed.rest_suffix (h : Placed key hash n chain) (k : κ) :
    ∃ pre, all chain n = pre ++ rest key hash n chain k := by
  have hi := h.bound k
  rw [rest]
  cases hafter : after key k (chain (hash k)) with
  | none =>
    refine ⟨all chain (hash k) ++ chain (hash k), ?_⟩
    rw [all_split chain (Nat.le_of_lt hi), allFrom_of_lt hi]
    simp
  | some r =>
    obtain ⟨a, post⟩ := r
    obtain ⟨-, pre, hsplit⟩ := after_some hafter
    refine ⟨all chain (hash k) ++ pre ++ [a], ?_⟩
    rw [all_eq hi hsplit]
    simp

theorem Placed.rest_eq (h : Placed key hash n chain) (hsplit : all chain n = pre ++ a :: post) :
    rest key hash n chain (key a) = post := by
  have hmem : a ∈ chain (hash (key a)) := by
    rw [← h.mem_all, hsplit]
    exact mem_append_right pre mem_cons_self
  obtain ⟨pre', post', hchain⟩ := List.append_of_mem hmem
  have hi := h.bound (key a)
  have hafter := after_of_nodup h.nodup_all hsplit
  rw [after_of_nodup h.nodup_all (all_eq hi hchain)] at hafter
  rw [rest, after_of_nodup (h.nodup _ hi) hchain]
  exact (Prod.mk.inj (Option.some.inj hafter)).2

/-- Where lists have become shorter, fewer nodes are still to come. -/
theorem Placed.rest_subset (h : Placed key hash n chain)
    (hsub : ∀ i < n, (chain' i).Sublist (chain i)) (k : κ) :
    rest key hash n chain' k ⊆ rest key hash n chain k := by
  have hi := h.bound k
  have hlater : allFrom chain' n (hash k + 1) ⊆ allFrom chain n (hash k + 1) := by
    intro a ha
    obtain ⟨i, hrange, hmem⟩ := List.mem_flatMap.mp ha
    have hlt : i < n := by
      rw [List.mem_range'_1] at hrange
      omega
    exact List.mem_flatMap.mpr ⟨i, hrange, (hsub i hlt).subset hmem⟩
  intro a ha
  rw [rest, List.mem_append] at ha ⊢
  rcases ha with ha | ha
  · refine .inl ?_
    cases hafter : after key k (chain' (hash k)) with
    | none =>
      rw [hafter] at ha
      cases ha
    | some r =>
      obtain ⟨b, post⟩ := r
      obtain ⟨post', hafter', hpost⟩ := after_sublist (hsub _ hi) (h.nodup _ hi) hafter
      rw [hafter] at ha
      rw [hafter']
      exact hpost.subset ha
  · exact .inr (hlater ha)

end

/-! ## The map that the nodes stand for -/

section

variable {β : Type v} [DecidableEq κ] {val : α → β} {m : AList fun _ : κ => β}

/-- The nodes are the pairs of the map, each once. -/
structure Lists (key : α → κ) (val : α → β) (l : List α) (m : AList fun _ : κ => β) : Prop where
  nodup : (l.map key).Nodup
  mem : ∀ k d, (∃ a ∈ l, key a = k ∧ val a = d) ↔ m.lookup k = some d

theorem Lists.nil : Lists key val [] (∅ : AList fun _ : κ => β) :=
  ⟨List.nodup_nil, fun k d => by simp⟩

theorem Lists.perm (h : Lists key val l m) (hperm : l.Perm l') : Lists key val l' m where
  nodup := (hperm.map key).nodup_iff.mp h.nodup
  mem := by
    intro k d
    rw [← h.mem]
    simp only [hperm.mem_iff]

theorem Lists.lookup_of_mem (h : Lists key val l m) (ha : a ∈ l) :
    m.lookup (key a) = some (val a) := (h.mem _ _).mp ⟨a, ha, rfl, rfl⟩

theorem Lists.lookup_none (h : Lists key val l m) : m.lookup k = none ↔ ∀ a ∈ l, key a ≠ k := by
  constructor
  · rintro hnone a ha rfl
    rw [h.lookup_of_mem ha] at hnone
    cases hnone
  · intro hno
    rw [Option.eq_none_iff_forall_not_mem]
    intro d hd
    obtain ⟨a, ha, hkey, -⟩ := (h.mem k d).mpr hd
    exact hno a ha hkey

theorem Lists.insert (h : Lists key val l m) (hnew : ∀ b ∈ l, key b ≠ key a) :
    Lists key val (a :: l) (m.insert (key a) (val a)) where
  nodup := by
    rw [map_cons, nodup_cons]
    refine ⟨fun hmem => ?_, h.nodup⟩
    obtain ⟨b, hb, hkey⟩ := mem_map.mp hmem
    exact hnew b hb hkey
  mem := by
    intro k d
    by_cases hk : k = key a
    · subst hk
      rw [AList.lookup_insert]
      constructor
      · rintro ⟨b, hb, hkey, rfl⟩
        rcases mem_cons.mp hb with rfl | hb
        · rfl
        · exact absurd hkey (hnew b hb)
      · intro hd
        exact ⟨a, mem_cons_self, rfl, Option.some.inj hd⟩
    · rw [AList.lookup_insert_ne hk, ← h.mem]
      constructor
      · rintro ⟨b, hb, hkey, hval⟩
        rcases mem_cons.mp hb with rfl | hb
        · exact absurd hkey.symm hk
        · exact ⟨b, hb, hkey, hval⟩
      · rintro ⟨b, hb, hkey, hval⟩
        exact ⟨b, List.mem_cons_of_mem a hb, hkey, hval⟩

theorem Lists.erase (h : Lists key val (a :: l) m) : Lists key val l (m.erase (key a)) where
  nodup := (nodup_cons.mp h.nodup).2
  mem := by
    have hnew : ∀ b ∈ l, key b ≠ key a := by
      intro b hb heq
      refine (nodup_cons.mp h.nodup).1 ?_
      rw [← heq]
      exact List.mem_map_of_mem hb
    intro k d
    by_cases hk : k = key a
    · subst hk
      rw [AList.lookup_erase]
      refine iff_of_false ?_ nofun
      rintro ⟨b, hb, hkey, -⟩
      exact hnew b hb hkey
    · rw [AList.lookup_erase_ne hk, ← h.mem]
      constructor
      · rintro ⟨b, hb, hkey, hval⟩
        exact ⟨b, List.mem_cons_of_mem a hb, hkey, hval⟩
      · rintro ⟨b, hb, hkey, hval⟩
        rcases mem_cons.mp hb with rfl | hb
        · exact absurd hkey.symm hk
        · exact ⟨b, hb, hkey, hval⟩

/-- A search in the place of the key finds what the map has. -/
theorem Placed.lookup (h : Placed key hash n chain) (hl : Lists key val (all chain n) m) (k : κ) :
    (after key k (chain (hash k))).map (fun r => val r.1) = m.lookup k := by
  cases hafter : after key k (chain (hash k)) with
  | none =>
    symm
    refine hl.lookup_none.mpr ?_
    rintro a ha rfl
    exact after_none.mp hafter a (h.mem_all.mp ha) rfl
  | some r =>
    obtain ⟨a, post⟩ := r
    obtain ⟨rfl, pre, hsplit⟩ := after_some hafter
    refine (hl.lookup_of_mem (h.mem_all.mpr ?_)).symm
    rw [hsplit]
    exact mem_append_right pre mem_cons_self

/-- There are as many nodes as keys. -/
theorem Lists.length_eq (h : Lists key val l m) : l.length = m.entries.length := by
  have hnodup : (l.map fun a => (⟨key a, val a⟩ : Sigma fun _ : κ => β)).Nodup := by
    refine List.Nodup.of_map Sigma.fst ?_
    rw [List.map_map]
    exact h.nodup
  have hperm := (List.perm_ext_iff_of_nodup hnodup (List.NodupKeys.nodup m.nodupKeys)).mpr ?_
  · rw [← hperm.length_eq, List.length_map]
  · rintro ⟨k, d⟩
    rw [← AList.mem_lookup_iff, Option.mem_def, ← h.mem]
    simp only [mem_map, Sigma.mk.injEq, heq_eq_eq]

end

end Chained
