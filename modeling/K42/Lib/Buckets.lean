import K42.Lib.Linked
import K42.Lib.Update
import Mathlib.Data.List.Flatten
import Mathlib.Data.List.Perm.Subperm

/-!
# Tables of chains

A table has `n` places, and each place is a pointer to the first node of a linked list. The
node `a` belongs in the place `bucket a`. `Chains` says that the list in each place is the
expected one, and `all` puts them behind each other. A node with no successor in its list is
followed by the first node of the next place that is used, and in this way every node is
visited.
-/

universe u

namespace Buckets

open Linked

variable {α : Type u} {next next' : α → Option α} {table table' : ℕ → Option α} {bucket : α → ℕ}
  {n i : ℕ} {chain chain' : ℕ → List α} {a b : α} {l m : List α} {p q : Option α}

/-- The nodes in the order of the places. -/
def all (chain : ℕ → List α) (n : ℕ) : List α := (List.range n).flatMap chain

structure Chains (next : α → Option α) (table : ℕ → Option α) (bucket : α → ℕ) (n : ℕ)
    (chain : ℕ → List α) : Prop where
  path : ∀ i < n, Path next (table i) (chain i)
  bucket_eq : ∀ i < n, ∀ a ∈ chain i, bucket a = i

theorem mem_all : a ∈ all chain n ↔ ∃ i < n, a ∈ chain i := by
  simp [all]

theorem Chains.mem_all (h : Chains next table bucket n chain) :
    a ∈ all chain n ↔ bucket a < n ∧ a ∈ chain (bucket a) := by
  rw [Buckets.mem_all]
  constructor
  · rintro ⟨i, hi, ha⟩
    obtain rfl := h.bucket_eq i hi a ha
    exact ⟨hi, ha⟩
  · rintro ⟨hi, ha⟩
    exact ⟨bucket a, hi, ha⟩

theorem Chains.nodup (h : Chains next table bucket n chain) : (all chain n).Nodup := by
  refine List.nodup_flatMap.mpr ⟨fun i hi => ?_, ?_⟩
  · exact (h.path i (List.mem_range.mp hi)).nodup
  · refine List.Pairwise.imp_of_mem ?_ List.nodup_range
    intro i j hi hj hij a hai haj
    have hai := h.bucket_eq i (List.mem_range.mp hi) a hai
    have haj := h.bucket_eq j (List.mem_range.mp hj) a haj
    exact hij (hai.symm.trans haj)

theorem Chains.length_le (h : Chains next table bucket n chain) (hi : i < n) :
    (chain i).length ≤ (all chain n).length :=
  (List.subperm_of_subset (h.path i hi).nodup fun _ ha =>
    Buckets.mem_all.mpr ⟨i, hi, ha⟩).length_le

/-- One place has one node more. -/
theorem all_perm (hi : i < n) (hne : ∀ j, j ≠ i → chain' j = chain j)
    (hperm : (chain' i).Perm (a :: chain i)) : (all chain' n).Perm (a :: all chain n) := by
  obtain ⟨l, m, hsplit⟩ := List.append_of_mem (List.mem_range.mpr hi)
  have hnodup : (l ++ i :: m).Nodup := hsplit ▸ List.nodup_range
  have hlm : (l ++ m).flatMap chain' = (l ++ m).flatMap chain := by
    refine List.flatMap_congr fun j hj => hne j ?_
    rintro rfl
    exact (List.nodup_cons.mp (List.nodup_middle.mp hnodup)).1 hj
  -- the place is brought to the front
  have hfront : ∀ c : ℕ → List α, (all c n).Perm (c i ++ (l ++ m).flatMap c) := by
    intro c
    rw [all, hsplit]
    exact (List.perm_middle.flatMap_right c)
  refine (hfront chain').trans ?_
  rw [hlm]
  exact (hperm.append_right _).trans ((hfront chain).symm.cons a)

/-- What is done to one place leaves the others alone. -/
theorem Chains.setBucket (h : Chains next table bucket n chain)
    (htable : ∀ j, j ≠ i → table' j = table j)
    (hnext : ∀ j < n, j ≠ i → ∀ b ∈ chain j, next' b = next b)
    (hpath : i < n → Path next' (table' i) l) (hl : ∀ a ∈ l, bucket a = i) :
    Chains next' table' bucket n (Function.update chain i l) := by
  constructor
  · refine Function.update_cases hpath fun j hji hj => ?_
    rw [htable j hji]
    exact (h.path j hj).congr (hnext j hj hji)
  · intro j hj b hb
    revert hj hb
    exact Function.update_cases (fun _ => hl b) (fun j _ hj => h.bucket_eq j hj b) j

/-- Only what the nodes hold matters. -/
theorem Chains.congr {bucket' : α → ℕ} (h : Chains next table bucket n chain)
    (hnext : ∀ a ∈ all chain n, next' a = next a)
    (hbucket : ∀ a ∈ all chain n, bucket' a = bucket a) :
    Chains next' table bucket' n chain := by
  constructor
  · intro i hi
    exact (h.path i hi).congr fun a ha => hnext a (Buckets.mem_all.mpr ⟨i, hi, ha⟩)
  · intro i hi a ha
    exact (hbucket a (Buckets.mem_all.mpr ⟨i, hi, ha⟩)).trans (h.bucket_eq i hi a ha)

/-- Nodes of different places are different. -/
theorem Chains.ne (h : Chains next table bucket n chain) (ha : bucket a = i) {j : ℕ} (hj : j < n)
    (hji : j ≠ i) (hb : b ∈ chain j) : b ≠ a := by
  rintro rfl
  exact hji ((h.bucket_eq j hj b hb).symm.trans ha)

/-! ## Walking over all places -/

/-- `for (; i < n; i++) if (table[i]) break;` -/
def firstUsed (table : ℕ → Option α) (n i : ℕ) : Option ℕ :=
  (List.range' i (n - i)).find? fun i => (table i).isSome

/-- The first node from the place `i` on. -/
def firstFrom (table : ℕ → Option α) (n i : ℕ) : Option α := (firstUsed table n i).bind table

theorem firstFrom_of_le (h : n ≤ i) : firstFrom table n i = none := by
  rw [firstFrom, firstUsed, Nat.sub_eq_zero_of_le h]
  rfl

theorem firstFrom_of_lt (h : i < n) :
    firstFrom table n i = (table i).or (firstFrom table n (i + 1)) := by
  have hrange : List.range' i (n - i) = i :: List.range' (i + 1) (n - (i + 1)) := by
    obtain ⟨d, hd⟩ := Nat.exists_eq_add_of_lt h
    have hsub : n - i = d + 1 := by omega
    have hsub' : n - (i + 1) = d := by omega
    rw [hsub, hsub', List.range'_succ]
  rw [firstFrom, firstFrom, firstUsed, firstUsed, hrange]
  cases htable : table i with
  | none => rw [List.find?_cons_of_neg (by simp [htable]), Option.none_or]
  | some a =>
    rw [List.find?_cons_of_pos (by simp [htable]), Option.bind_some, htable]
    rfl

theorem firstUsed_some {k : ℕ} (h : firstUsed table n i = some k) :
    ∀ j, i ≤ j → j < k → table j = none := by
  obtain ⟨-, -, hbelow⟩ := List.find?_range'_eq_some.mp h
  intro j hij hjk
  simpa using hbelow j hij hjk

/-- The successor of a node. -/
def succ (next : α → Option α) (table : ℕ → Option α) (bucket : α → ℕ) (n : ℕ) (a : α) : Option α :=
  (next a).or (firstFrom table n (bucket a + 1))

/-- Where a list ends, the walk goes on with the next place. -/
theorem path_append (hpath : Path next p l) (hl : l ≠ []) (hbucket : ∀ a ∈ l, bucket a = i)
    (hrest : Path (succ next table bucket n) (firstFrom table n (i + 1)) m) :
    Path (succ next table bucket n) p (l ++ m) := by
  induction l generalizing p with
  | nil => exact absurd rfl hl
  | cons a l ih =>
    refine ⟨hpath.1, ?_⟩
    have hstep : Buckets.succ next table bucket n a =
        (next a).or (firstFrom table n (i + 1)) := by
      rw [Buckets.succ, hbucket a List.mem_cons_self]
    rw [hstep]
    cases l with
    | nil =>
      have hend : next a = none := hpath.2
      rw [hend]
      exact hrest
    | cons b l =>
      have hb : next a = some b := hpath.2.1
      have hrestpath : Path next (some b) (b :: l) := hb ▸ hpath.2
      rw [hb, Option.some_or]
      exact ih hrestpath (List.cons_ne_nil b l)
        fun c hc => hbucket c (List.mem_cons_of_mem a hc)

theorem Chains.traversal_from (h : Chains next table bucket n chain) (i : ℕ) :
    Path (succ next table bucket n) (firstFrom table n i)
      ((List.range' i (n - i)).flatMap chain) := by
  induction hd : n - i generalizing i with
  | zero => exact firstFrom_of_le (Nat.le_of_sub_eq_zero hd)
  | succ d ih =>
    have hi : i < n := by omega
    have hrest := ih (i + 1) (by omega)
    rw [List.range'_succ, List.flatMap_cons, firstFrom_of_lt hi]
    have hpath := h.path i hi
    cases hl : chain i with
    | nil =>
      rw [hl] at hpath
      have hnone : table i = none := hpath
      rw [hnone]
      exact hrest
    | cons a l =>
      rw [hl] at hpath
      have hsome : table i = some a := hpath.1
      rw [hsome, Option.some_or, ← hsome]
      refine path_append (hsome ▸ hpath) (List.cons_ne_nil a l) ?_ hrest
      exact hl ▸ h.bucket_eq i hi

/-- **Every node is visited.** -/
theorem Chains.traversal (h : Chains next table bucket n chain) :
    Path (succ next table bucket n) (firstFrom table n 0) (all chain n) := by
  have hfrom := h.traversal_from 0
  rw [Nat.sub_zero, ← List.range_eq_range'] at hfrom
  exact hfrom

/-- Places that are not used may be left out at the start. -/
theorem firstFrom_eq (hempty : ∀ j < i, j < n → table j = none) :
    firstFrom table n i = firstFrom table n 0 := by
  induction i with
  | zero => rfl
  | succ i ih =>
    rw [← ih fun j hj => hempty j (Nat.lt_succ_of_lt hj)]
    by_cases hi : i < n
    · rw [firstFrom_of_lt hi, hempty i (Nat.lt_succ_self i) hi, Option.none_or]
    · rw [firstFrom_of_le (Nat.le_of_not_lt hi), firstFrom_of_le (by omega)]

/-! ## Finding a node -/

/-- What a search for the key `k` is to give. -/
def Finds (key : α → ℕ) (all : List α) (k : ℕ) : Option α → Prop
  | none => ∀ a ∈ all, key a ≠ k
  | some a => a ∈ all ∧ key a = k

/-- A walk along a list, for the key. -/
theorem finds_walk (key : α → ℕ) (k : ℕ) {fuel : ℕ} (h : Path next p l) (hfuel : l.length ≤ fuel) :
    ∃ pre post, l = pre ++ post ∧ Finds key l k post.head? ∧
      walk next (fun a => key a == k) fuel none p = some (pre.getLast?, post.head?) := by
  obtain ⟨pre, post, hsplit, hpre, hpost, hwalk⟩ := h.walk_eq (fun a => key a == k) hfuel none
  refine ⟨pre, post, hsplit, ?_, by rw [hwalk, Option.or_none]⟩
  cases post with
  | nil =>
    intro a ha
    rw [hsplit, List.append_nil] at ha
    simpa using hpre a ha
  | cons a post =>
    refine ⟨by simp [hsplit], ?_⟩
    simpa using hpost a rfl

/-- A node with the key can only be in its own place. -/
theorem Finds.of_chain {key : α → ℕ} {k : ℕ} (h : Chains next table bucket n chain) (hi : i < n)
    (hbucket : ∀ a, key a = k → bucket a = i) (hfinds : Finds key (chain i) k p) :
    Finds key (all chain n) k p := by
  cases p with
  | none =>
    intro a ha hkey
    have hmem := (h.mem_all.mp ha).2
    rw [hbucket a hkey] at hmem
    exact hfinds a hmem hkey
  | some a => exact ⟨Buckets.mem_all.mpr ⟨i, hi, hfinds.1⟩, hfinds.2⟩

end Buckets
