import Mathlib.Order.Basic
import Mathlib.Tactic.Common

/-!
# Forests linked in both directions

The nodes that are `live` are linked to their children by `child` and to their parent by
`parent`, and the two agree. Four changes keep that: a leaf is added, a node is pushed
between a leaf and its parent, a node without children is removed, and a node is collapsed
into its parent, whose only child it is.

A rank that grows from a node to its children says that there are no cycles.
-/

open Function (update update_of_ne update_self)

universe u

namespace Forest

variable {α : Type u}

structure Linked (live : α → Prop) (child : α → α → Prop) (parent : α → Option α) : Prop where
  down : ∀ {n c}, live n → child n c → live c ∧ parent c = some n
  up : ∀ {c n}, live c → parent c = some n → live n ∧ child n c

/-- Parents have a smaller rank. -/
def Ranked (live : α → Prop) (parent : α → Option α) (rank : α → ℕ) : Prop :=
  ∀ n p, live n → parent n = some p → rank p < rank n

variable {live live' : α → Prop} {child child' : α → α → Prop} {parent parent' : α → Option α}
  {rank : α → ℕ}

/-! ## A new leaf -/

theorem Linked.add (h : Linked live child parent) {p x : α} (hp : live p) (hx : ¬ live x)
    (hlive : ∀ n, live' n ↔ live n ∨ n = x)
    (hchild : ∀ n c, live' n → (child' n c ↔ (n ≠ x ∧ child n c) ∨ n = p ∧ c = x))
    (hparent : ∀ n, parent' n = parent n ∨ n = x) (hself : parent' x = some p) :
    Linked live' child' parent' where
  down {n c} hn hc := by
    rw [hchild n c hn] at hc
    rcases hc with ⟨hne, hc⟩ | ⟨rfl, rfl⟩
    · have hn : live n := ((hlive n).mp hn).resolve_right hne
      obtain ⟨hlc, hpc⟩ := h.down hn hc
      refine ⟨(hlive c).mpr (.inl hlc), ?_⟩
      rcases hparent c with he | rfl
      · rw [he, hpc]
      · exact absurd hlc hx
    · exact ⟨(hlive c).mpr (.inr rfl), hself⟩
  up {c n} hc hpc := by
    by_cases hcx : c = x
    · subst hcx
      rw [hself] at hpc
      cases hpc
      have hn' : live' p := (hlive p).mpr (.inl hp)
      exact ⟨hn', (hchild p c hn').mpr (.inr ⟨rfl, rfl⟩)⟩
    · have hlc : live c := ((hlive c).mp hc).resolve_right hcx
      rw [(hparent c).resolve_right hcx] at hpc
      obtain ⟨hln, hch⟩ := h.up hlc hpc
      have hn' : live' n := (hlive n).mpr (.inl hln)
      have hnx : n ≠ x := by
        rintro rfl
        exact hx hln
      exact ⟨hn', (hchild n c hn').mpr (.inl ⟨hnx, hch⟩)⟩

theorem Ranked.add [DecidableEq α] (h : Ranked live parent rank) {p x : α} (hp : live p)
    (hx : ¬ live x) (hl : Linked live child parent) (hlive : ∀ n, live' n ↔ live n ∨ n = x)
    (hparent : ∀ n, parent' n = parent n ∨ n = x) (hself : parent' x = some p) :
    Ranked live' parent' (update rank x (rank p + 1)) := by
  intro n q hn hq
  have hpx : p ≠ x := by
    rintro rfl
    exact hx hp
  by_cases hnx : n = x
  · subst hnx
    rw [hself] at hq
    cases hq
    rw [update_self, update_of_ne hpx]
    exact Nat.lt_succ_self _
  · have hln : live n := ((hlive n).mp hn).resolve_right hnx
    rw [(hparent n).resolve_right hnx] at hq
    have hqx : q ≠ x := by
      rintro rfl
      exact hx (hl.up hln hq).1
    rw [update_of_ne hnx, update_of_ne hqx]
    exact h n q hln hq

/-! ## A new node above a leaf -/

section Push

variable {x y z : α} (hx : live x) (hy : ¬ live y) (hz : ¬ live z) (hyz : y ≠ z)
  (hleaf : ∀ c, ¬ child x c)
  (hlive : ∀ n, live' n ↔ live n ∨ n = y ∨ n = z)
  (hparent : ∀ n, parent' n = parent n ∨ n = x ∨ n = y ∨ n = z)
  (hpx : parent' x = some z) (hpy : parent' y = some z) (hpz : parent' z = parent x)

include hx hy hz hyz hlive hparent hpx hpy hpz

/-- `z` takes the place of the leaf `x`, with `x` and the new `y` as its children. -/
theorem Linked.push (h : Linked live child parent)
    (hchild : ∀ n c, live' n → (child' n c ↔ n = z ∧ (c = x ∨ c = y) ∨
      n ≠ y ∧ n ≠ z ∧ (child n c ∧ c ≠ x ∨ c = z ∧ child n x))) :
    Linked live' child' parent' := by
  have hxy : x ≠ y := by
    rintro rfl
    exact hy hx
  have hxz : x ≠ z := by
    rintro rfl
    exact hz hx
  have hold : ∀ n, live' n → n ≠ y → n ≠ z → live n := fun n hn hny hnz =>
    ((hlive n).mp hn).resolve_right fun h => h.elim hny hnz
  refine ⟨fun {n c} hn hc => ?_, fun {c n} hc hpc => ?_⟩
  · rw [hchild n c hn] at hc
    rcases hc with ⟨rfl, rfl | rfl⟩ | ⟨hny, hnz, ⟨hc, hcx⟩ | ⟨rfl, hc⟩⟩
    · exact ⟨(hlive c).mpr (.inl hx), hpx⟩
    · exact ⟨(hlive c).mpr (.inr (.inl rfl)), hpy⟩
    · obtain ⟨hlc, hpc⟩ := h.down (hold n hn hny hnz) hc
      refine ⟨(hlive c).mpr (.inl hlc), ?_⟩
      rcases hparent c with he | rfl | rfl | rfl
      · rw [he, hpc]
      · exact absurd rfl hcx
      · exact absurd hlc hy
      · exact absurd hlc hz
    · refine ⟨(hlive c).mpr (.inr (.inr rfl)), ?_⟩
      rw [hpz]
      exact (h.down (hold n hn hny hnz) hc).2
  · have hz' : live' z := (hlive z).mpr (.inr (.inr rfl))
    by_cases hcx : c = x
    · subst hcx
      rw [hpx] at hpc
      cases hpc
      exact ⟨hz', (hchild z c hz').mpr (.inl ⟨rfl, .inl rfl⟩)⟩
    · by_cases hcy : c = y
      · subst hcy
        rw [hpy] at hpc
        cases hpc
        exact ⟨hz', (hchild z c hz').mpr (.inl ⟨rfl, .inr rfl⟩)⟩
      · by_cases hcz : c = z
        · subst hcz
          rw [hpz] at hpc
          obtain ⟨hln, hch⟩ := h.up hx hpc
          have hn' : live' n := (hlive n).mpr (.inl hln)
          refine ⟨hn', (hchild n c hn').mpr (.inr ⟨?_, ?_, .inr ⟨rfl, hch⟩⟩)⟩
          · rintro rfl
            exact hy hln
          · rintro rfl
            exact hz hln
        · have hpc' : parent c = some n := by
            rcases hparent c with he | he | he | he
            · rw [← he, hpc]
            · exact absurd he hcx
            · exact absurd he hcy
            · exact absurd he hcz
          obtain ⟨hln, hch⟩ := h.up (hold c hc hcy hcz) hpc'
          have hn' : live' n := (hlive n).mpr (.inl hln)
          refine ⟨hn', (hchild n c hn').mpr (.inr ⟨?_, ?_, .inl ⟨hch, hcx⟩⟩)⟩
          · rintro rfl
            exact hy hln
          · rintro rfl
            exact hz hln

include hleaf

theorem Ranked.push [DecidableEq α] (h : Ranked live parent rank) (hl : Linked live child parent) :
    Ranked live' parent' (update (update (update rank x (rank x + 1))
      y (rank x + 1)) z (rank x)) := by
  have hxy : x ≠ y := by
    rintro rfl
    exact hy hx
  have hxz : x ≠ z := by
    rintro rfl
    exact hz hx
  have hold : ∀ n, live n → n ≠ x → update (update (update rank x
      (rank x + 1)) y (rank x + 1)) z (rank x) n = rank n := by
    intro n hn hnx
    have hny : n ≠ y := by
      rintro rfl
      exact hy hn
    have hnz : n ≠ z := by
      rintro rfl
      exact hz hn
    rw [update_of_ne hnz, update_of_ne hny, update_of_ne hnx]
  intro n p hn hp
  by_cases hnx : n = x
  · subst hnx
    rw [hpx] at hp
    cases hp
    rw [update_self, update_of_ne hxz, update_of_ne hxy, update_self]
    exact Nat.lt_succ_self _
  · by_cases hny : n = y
    · subst hny
      rw [hpy] at hp
      cases hp
      rw [update_self, update_of_ne hyz, update_self]
      exact Nat.lt_succ_self _
    · by_cases hnz : n = z
      · subst hnz
        rw [hpz] at hp
        obtain ⟨hlp, hch⟩ := hl.up hx hp
        have hpne : p ≠ x := by
          rintro rfl
          exact hleaf _ hch
        rw [update_self, hold p hlp hpne]
        exact h x p hx hp
      · have hln : live n := ((hlive n).mp hn).resolve_right fun h => h.elim hny hnz
        have hpn : parent n = some p := by
          rcases hparent n with he | he | he | he
          · rw [← he, hp]
          · exact absurd he hnx
          · exact absurd he hny
          · exact absurd he hnz
        obtain ⟨hlp, hch⟩ := hl.up hln hpn
        have hpne : p ≠ x := by
          rintro rfl
          exact hleaf _ hch
        rw [hold n hln hnx, hold p hlp hpne]
        exact h n p hln hpn

end Push

/-! ## A node is removed, or collapsed into its parent -/

/-- The node has no children, and its parent forgets it. -/
theorem Linked.remove (h : Linked live child parent) {x : α} (hleaf : ∀ c, ¬ child x c)
    (hlive : ∀ n, live' n ↔ live n ∧ n ≠ x)
    (hchild : ∀ n c, live' n → (child' n c ↔ child n c ∧ c ≠ x))
    (hparent : ∀ n, live' n → parent' n = parent n) : Linked live' child' parent' where
  down {n c} hn hc := by
    obtain ⟨hc, hcx⟩ := (hchild n c hn).mp hc
    obtain ⟨hlc, hpc⟩ := h.down ((hlive n).mp hn).1 hc
    have hc' : live' c := (hlive c).mpr ⟨hlc, hcx⟩
    exact ⟨hc', (hparent c hc').trans hpc⟩
  up {c n} hc hpc := by
    rw [hparent c hc] at hpc
    obtain ⟨hlc, hcx⟩ := (hlive c).mp hc
    obtain ⟨hln, hch⟩ := h.up hlc hpc
    have hn' : live' n := by
      refine (hlive n).mpr ⟨hln, ?_⟩
      rintro rfl
      exact hleaf c hch
    exact ⟨hn', (hchild n c hn').mpr ⟨hch, hcx⟩⟩

theorem Ranked.remove (h : Ranked live parent rank) (hlive : ∀ n, live' n → live n)
    (hparent : ∀ n, live' n → parent' n = parent n) : Ranked live' parent' rank :=
  fun n p hn hp => h n p (hlive n hn) (hparent n hn ▸ hp)

/-- `x` is the only child of `p`, which takes the children of `x`. -/
theorem Linked.collapse [DecidableEq α] (h : Linked live child parent) {x p : α} (hx : live x)
    (hpx : parent x = some p) (hxp : x ≠ p) (honly : ∀ c, child p c → c = x)
    (hlive : ∀ n, live' n ↔ live n ∧ n ≠ x)
    (hchild : ∀ n c, live' n → (child' n c ↔ if n = p then child x c else child n c))
    (hparent : ∀ n, live' n → parent' n = if parent n = some x then some p else parent n) :
    Linked live' child' parent' where
  down {n c} hn hc := by
    obtain ⟨hln, hnx⟩ := (hlive n).mp hn
    rw [hchild n c hn] at hc
    by_cases hnp : n = p
    · subst hnp
      rw [if_pos rfl] at hc
      obtain ⟨hlc, hpc⟩ := h.down hx hc
      have hcx : c ≠ x := by
        rintro rfl
        rw [hpx] at hpc
        exact hxp (Option.some.inj hpc).symm
      have hc' : live' c := (hlive c).mpr ⟨hlc, hcx⟩
      exact ⟨hc', by rw [hparent c hc', if_pos hpc]⟩
    · rw [if_neg hnp] at hc
      obtain ⟨hlc, hpc⟩ := h.down hln hc
      have hcx : c ≠ x := by
        rintro rfl
        rw [hpx] at hpc
        exact hnp (Option.some.inj hpc).symm
      have hc' : live' c := (hlive c).mpr ⟨hlc, hcx⟩
      refine ⟨hc', ?_⟩
      rw [hparent c hc', if_neg, hpc]
      rw [hpc]
      exact fun he => hnx (Option.some.inj he)
  up {c n} hc hpc := by
    obtain ⟨hlc, hcx⟩ := (hlive c).mp hc
    have hlp : live' p := (hlive p).mpr ⟨(h.up hx hpx).1, hxp.symm⟩
    rw [hparent c hc] at hpc
    by_cases he : parent c = some x
    · rw [if_pos he] at hpc
      cases hpc
      refine ⟨hlp, (hchild p c hlp).mpr ?_⟩
      rw [if_pos rfl]
      exact (h.up hlc he).2
    · rw [if_neg he] at hpc
      obtain ⟨hln, hch⟩ := h.up hlc hpc
      have hnx : n ≠ x := by
        rintro rfl
        exact he hpc
      have hnp : n ≠ p := by
        rintro rfl
        exact hcx (honly c hch)
      have hn' : live' n := (hlive n).mpr ⟨hln, hnx⟩
      refine ⟨hn', (hchild n c hn').mpr ?_⟩
      rw [if_neg hnp]
      exact hch

theorem Ranked.collapse [DecidableEq α] (h : Ranked live parent rank) {x p : α} (hx : live x)
    (hpx : parent x = some p) (hlive : ∀ n, live' n → live n)
    (hparent : ∀ n, live' n → parent' n = if parent n = some x then some p else parent n) :
    Ranked live' parent' rank := by
  intro n q hn hq
  rw [hparent n hn] at hq
  by_cases he : parent n = some x
  · rw [if_pos he] at hq
    cases hq
    exact Nat.lt_trans (h x p hx hpx) (h n x (hlive n hn) he)
  · rw [if_neg he] at hq
    exact h n q (hlive n hn) hq

end Forest
