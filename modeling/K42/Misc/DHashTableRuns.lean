import K42.Lib.Run
import K42.Lib.Update
import K42.Misc.DHashTable

/-!
# Resizing keeps the table

The entries of a table are those in its chains and, while it is being resized, those
that have not been moved yet. A request that has looked along a chain knows that the
entries it has passed do not have its key, and this stays so, since an entry never gets
another key and is never filled again. So a new entry is pushed only if no other has
its key. All of this rests on nobody being in the table while it is resized.
-/

open Function (update update_of_ne update_self)

namespace K42.DHash

variable {δ : Type} [DHashData δ]

open DHashData DHashTable
open Option (ite_none_left_eq_some some)

/-! ## The table -/

/-- An entry of the table: in a chain, or among those still to be moved. -/
def Linked (t : DHashTable δ) (rest : List ℕ) (e : ℕ) : Prop := (∃ b, e ∈ t.buckets b) ∨ e ∈ rest

/-- A non-empty entry of the table. -/
def Holds (t : DHashTable δ) (rest : List ℕ) (e : ℕ) : Prop :=
  Linked t rest e ∧ isEmpty (t.data e) = false

structure Ok (t : DHashTable δ) (rest : List ℕ) : Prop where
  bounded : ∀ b, 2 ^ t.log2numBuckets ≤ b → t.buckets b = []
  nodup : ∀ b, (t.buckets b).Nodup
  disjoint : ∀ b b' e, e ∈ t.buckets b → e ∈ t.buckets b' → b = b'
  rest_nodup : rest.Nodup
  rest_disjoint : ∀ b, ∀ e ∈ rest, e ∉ t.buckets b
  live : ∀ e, Linked t rest e → e ∈ t.live
  home : ∀ b, ∀ e ∈ t.buckets b, isEmpty (t.data e) = false → t.hash (getKey (t.data e)) = b
  unique : ∀ e e', Holds t rest e → Holds t rest e' →
    getKey (t.data e) = getKey (t.data e') → e = e'

variable {t t' : DHashTable δ} {rest : List ℕ} {b e key : ℕ}

theorem matchKey_iff (t : DHashTable δ) (e key : ℕ) :
    t.matchKey e key = true ↔ isEmpty (t.data e) = false ∧ key = getKey (t.data e) := by
  simp [matchKey]

theorem hash_lt (t : DHashTable δ) (key : ℕ) : t.hash key < 2 ^ t.log2numBuckets := by
  rw [DHashTable.hash, Nat.and_comm, Nat.and_two_pow_sub_one_eq_mod]
  exact Nat.mod_lt _ (Nat.two_pow_pos _)

variable {d : δ} {pc : Pc} {cur : Option ℕ} {c : RequestCountWithStop} {resizer : Resizer}
  {t : DHashTable δ} {pending : Bool}

theorem data_setData
    (hd : isEmpty d = false → isEmpty (t.data e) = false ∧ getKey d = getKey (t.data e)) (x : ℕ)
    (hx : isEmpty ((t.setData e d).data x) = false) :
    isEmpty (t.data x) = false ∧ getKey ((t.setData e d).data x) = getKey (t.data x) := by
  by_cases hxe : x = e
  · subst hxe
    rw [show (t.setData x d).data x = d from update_self _ _ _] at hx ⊢
    exact hd hx
  · rw [show (t.setData e d).data x = t.data x from update_of_ne hxe _ _] at hx ⊢
    exact ⟨hx, rfl⟩

theorem Ok.setData (h : Ok t rest)
    (hd : isEmpty d = false → isEmpty (t.data e) = false ∧ getKey d = getKey (t.data e)) :
    Ok (t.setData e d) rest := by
  have hold := data_setData hd
  refine ⟨h.bounded, h.nodup, h.disjoint, h.rest_nodup, h.rest_disjoint, h.live, ?_, ?_⟩
  · intro b x hx hempty
    rw [(hold x hempty).2]
    exact h.home b x hx (hold x hempty).1
  · intro x x' hx hx' hkey
    rw [(hold x hx.2).2, (hold x' hx'.2).2] at hkey
    exact h.unique x x' ⟨hx.1, (hold x hx.2).1⟩ ⟨hx'.1, (hold x' hx'.2).1⟩ hkey

theorem Ok.congr (h : Ok t rest) (hlog : t'.log2numBuckets = t.log2numBuckets)
    (hbuckets : t'.buckets = t.buckets) (hdata : t'.data = t.data) (hlive : t.live ⊆ t'.live) :
    Ok t' rest := by
  have hhash : t'.hash = t.hash := by
    funext key
    rw [DHashTable.hash, DHashTable.hash, hlog]
  refine ⟨?_, ?_, ?_, h.rest_nodup, ?_, ?_, ?_, ?_⟩
  · rw [hlog, hbuckets]
    exact h.bounded
  · rw [hbuckets]
    exact h.nodup
  · rw [hbuckets]
    exact h.disjoint
  · rw [hbuckets]
    exact h.rest_disjoint
  · intro x hx
    rw [Linked, hbuckets] at hx
    exact hlive (h.live x hx)
  · rw [hbuckets, hdata, hhash]
    exact h.home
  · intro x x' hx hx'
    rw [Holds, Linked, hbuckets, hdata] at hx hx'
    rw [hdata]
    exact h.unique x x' hx hx'

omit [DHashData δ] in
theorem mem_push (t : DHashTable δ) (b e b' x : ℕ) :
    x ∈ (t.push b e).buckets b' ↔ b' = b ∧ x = e ∨ x ∈ t.buckets b' := by
  by_cases hb : b' = b
  · subst hb
    simp [push]
  · simp [push, hb]

theorem Ok.push (h : Ok t rest) (hnew : ¬ Linked t rest e) (hlive : e ∈ t.live)
    (hbound : b < 2 ^ t.log2numBuckets)
    (hhome : isEmpty (t.data e) = false → t.hash (getKey (t.data e)) = b)
    (hunique : isEmpty (t.data e) = false →
      ∀ x, Holds t rest x → getKey (t.data x) ≠ getKey (t.data e)) : Ok (t.push b e) rest := by
  have hlinked : ∀ x, Linked (t.push b e) rest x → x = e ∨ Linked t rest x := by
    rintro x (⟨b', hx⟩ | hx)
    · rcases (mem_push t b e b' x).mp hx with ⟨-, rfl⟩ | hx
      · exact .inl rfl
      · exact .inr (.inl ⟨b', hx⟩)
    · exact .inr (.inr hx)
  refine ⟨?_, ?_, ?_, h.rest_nodup, ?_, ?_, ?_, ?_⟩
  · intro b' hb'
    have hne : b' ≠ b := by
      rintro rfl
      exact absurd hbound (Nat.not_lt_of_le hb')
    show update t.buckets b _ b' = []
    rw [update_of_ne hne]
    exact h.bounded b' hb'
  · intro b'
    by_cases hb : b' = b
    · subst hb
      show (update t.buckets b' _ b').Nodup
      rw [update_self]
      exact List.nodup_cons.mpr ⟨fun hmem => hnew (.inl ⟨b', hmem⟩), h.nodup b'⟩
    · show (update t.buckets b _ b').Nodup
      rw [update_of_ne hb]
      exact h.nodup b'
  · intro b₁ b₂ x h₁ h₂
    rcases (mem_push t b e b₁ x).mp h₁ with ⟨hb₁, hx⟩ | hold₁
    · rcases (mem_push t b e b₂ x).mp h₂ with ⟨hb₂, -⟩ | hold₂
      · rw [hb₁, hb₂]
      · exact absurd (.inl ⟨b₂, hx ▸ hold₂⟩) hnew
    · rcases (mem_push t b e b₂ x).mp h₂ with ⟨-, hx⟩ | hold₂
      · exact absurd (.inl ⟨b₁, hx ▸ hold₁⟩) hnew
      · exact h.disjoint b₁ b₂ x hold₁ hold₂
  · intro b' x hx hmem
    rcases (mem_push t b e b' x).mp hmem with ⟨-, rfl⟩ | hmem
    · exact hnew (.inr hx)
    · exact h.rest_disjoint b' x hx hmem
  · intro x hx
    rcases hlinked x hx with rfl | hx
    · exact hlive
    · exact h.live x hx
  · intro b' x hx hempty
    rcases (mem_push t b e b' x).mp hx with ⟨rfl, rfl⟩ | hx
    · exact hhome hempty
    · exact h.home b' x hx hempty
  · rintro x x' ⟨hx, hempty⟩ ⟨hx', hempty'⟩ hkey
    rcases hlinked x hx with heq | hold
    · rcases hlinked x' hx' with heq' | hold'
      · rw [heq, heq']
      · subst heq
        exact absurd hkey.symm (hunique hempty x' ⟨hold', hempty'⟩)
    · rcases hlinked x' hx' with heq' | hold'
      · subst heq'
        exact absurd hkey (hunique hempty' x ⟨hold, hempty⟩)
      · exact h.unique x x' ⟨hold, hempty⟩ ⟨hold', hempty'⟩ hkey

/-! ## Resizing -/

theorem mem_chains (h : Ok t rest) : e ∈ t.chains ↔ ∃ b, e ∈ t.buckets b := by
  rw [chains, List.mem_flatMap]
  constructor
  · rintro ⟨b, -, hb⟩
    exact ⟨b, hb⟩
  · rintro ⟨b, hb⟩
    refine ⟨b, ?_, hb⟩
    rw [List.mem_range]
    by_contra hlt
    rw [h.bounded b (Nat.le_of_not_lt hlt)] at hb
    cases hb

theorem chains_nodup (h : Ok t rest) : t.chains.Nodup := by
  rw [chains, List.nodup_flatMap]
  refine ⟨fun b _ => h.nodup b, List.nodup_range.imp ?_⟩
  intro b b' hne e he he'
  exact hne (h.disjoint b b' e he he')

theorem Ok.newBuckets (h : Ok t []) (log2 : ℕ) :
    Ok (t.newBuckets log2) t.chains ∧ ∀ e, Holds (t.newBuckets log2) t.chains e ↔ Holds t [] e := by
  have hlinked : ∀ e, Linked (t.newBuckets log2) t.chains e ↔ Linked t [] e := by
    intro e
    rw [Linked, mem_chains h]
    simp [Linked, DHashTable.newBuckets]
  have hholds : ∀ e, Holds (t.newBuckets log2) t.chains e ↔ Holds t [] e := by
    intro e
    rw [Holds, hlinked]
    rfl
  refine ⟨⟨fun _ _ => rfl, fun _ => List.nodup_nil, ?_, chains_nodup h, ?_, ?_, ?_, ?_⟩, hholds⟩
  · intro b b' e he
    cases he
  · intro b e _ he
    cases he
  · intro e he
    exact h.live e ((hlinked e).mp he)
  · intro b e he
    cases he
  · intro e e' he he'
    exact h.unique e e' ((hholds e).mp he) ((hholds e').mp he')

theorem Ok.rehash (h : Ok t (e :: rest)) :
    Ok (t.rehash e) rest ∧ (∀ x, Holds (t.rehash e) rest x ↔ Holds t (e :: rest) x) ∧
      (t.rehash e).data = t.data := by
  have hnodup := List.nodup_cons.mp h.rest_nodup
  have hfree : ∀ b, e ∉ t.buckets b := fun b => h.rest_disjoint b e List.mem_cons_self
  have hrest : Ok t rest := by
    refine ⟨h.bounded, h.nodup, h.disjoint, hnodup.2, ?_, ?_, h.home, ?_⟩
    · exact fun b x hx => h.rest_disjoint b x (List.mem_cons_of_mem e hx)
    · exact fun x hx => h.live x (hx.imp_right (List.mem_cons_of_mem e))
    · rintro x x' ⟨hx, hempty⟩ ⟨hx', hempty'⟩
      exact h.unique x x' ⟨hx.imp_right (List.mem_cons_of_mem e), hempty⟩
        ⟨hx'.imp_right (List.mem_cons_of_mem e), hempty'⟩
  have hnot : ¬ Linked t rest e := by
    rintro (⟨b, hb⟩ | hin)
    · exact hfree b hb
    · exact hnodup.1 hin
  rw [DHashTable.rehash]
  split
  · rename_i hempty
    refine ⟨⟨hrest.bounded, hrest.nodup, hrest.disjoint, hrest.rest_nodup, hrest.rest_disjoint, ?_,
      hrest.home, hrest.unique⟩, ?_, rfl⟩
    · intro x hx
      refine Finset.mem_erase.mpr ⟨?_, hrest.live x hx⟩
      rintro rfl
      exact hnot hx
    · intro x
      constructor
      · rintro ⟨hx, hx'⟩
        exact ⟨hx.imp_right (List.mem_cons_of_mem e), hx'⟩
      · rintro ⟨hx, hx'⟩
        refine ⟨hx.imp_right fun hmem => ?_, hx'⟩
        rcases List.mem_cons.mp hmem with rfl | hmem
        · rw [hempty] at hx'
          cases hx'
        · exact hmem
  · rename_i hempty
    rw [Bool.not_eq_true] at hempty
    refine ⟨hrest.push hnot (h.live e (.inr List.mem_cons_self)) (hash_lt t _) (fun _ => rfl) ?_,
      ?_, rfl⟩
    · rintro - x ⟨hx, hx'⟩ hkey
      have heq := h.unique x e ⟨hx.imp_right (List.mem_cons_of_mem e), hx'⟩
        ⟨.inr List.mem_cons_self, hempty⟩ hkey
      exact hnot (heq ▸ hx)
    · intro x
      have hiff : Linked (t.push (t.hash (getKey (t.data e))) e) rest x ↔ Linked t (e :: rest) x := by
        constructor
        · rintro (⟨b, hb⟩ | hx)
          · rcases (mem_push t _ e b x).mp hb with ⟨-, rfl⟩ | hb
            · exact .inr List.mem_cons_self
            · exact .inl ⟨b, hb⟩
          · exact .inr (List.mem_cons_of_mem e hx)
        · rintro (⟨b, hb⟩ | hx)
          · exact .inl ⟨b, (mem_push t _ e b x).mpr (.inr hb)⟩
          · rcases List.mem_cons.mp hx with rfl | hx
            · exact .inl ⟨_, (mem_push t _ x _ x).mpr (.inl ⟨rfl, rfl⟩)⟩
            · exact .inr hx
      rw [Holds, hiff]
      rfl

/-! ## What requests know -/

/-- The chain of the key has been read when its head was `cur`, and the entries passed
since then do not have the key; `rest` is what is left. -/
def Scanned (t : DHashTable δ) (key b : ℕ) (cur : Option ℕ) (rest : List ℕ) : Prop :=
  b = t.hash key ∧ ∃ newer seen, t.buckets b = newer ++ (seen ++ rest) ∧
    (seen ++ rest).head? = cur ∧ ∀ e ∈ seen, t.matchKey e key = false

/-- The request is counted. -/
def Pc.inside : Pc → Bool
  | .enter _ | .backOut _ | .wake _ | .waitLock _ | .count _ _ | .held _ => false
  | _ => true

/-- The new entry that a request is about to push. -/
def Pc.fresh : Pc → Option ℕ
  | .compareAndStore _ _ _ _ ne => some ne
  | _ => none

def Knows (t : DHashTable δ) (moving : List ℕ) : Pc → Prop
  | .read _ key b => b = t.hash key
  | .scan _ key b cur rest => Scanned t key b cur rest
  | .lock _ key b _ => b = t.hash key
  | .check _ key b _ => b = t.hash key
  | .allocate _ key b cur => Scanned t key b cur []
  | .compareAndStore _ key b cur ne =>
    Scanned t key b cur [] ∧ ne ∈ t.live ∧ ¬ Linked t moving ne ∧
      (isEmpty (t.data ne) = false → getKey (t.data ne) = key)
  | _ => True

theorem Knows.of_outside {moving : List ℕ} (h : pc.inside = false) :
    Knows t moving pc := by
  cases pc <;> trivial

/-- How the table changes while requests are inside: chains grow at their heads, and an
entry that does not have a key does not get it. -/
structure Grows (t t' : DHashTable δ) : Prop where
  log2 : t'.log2numBuckets = t.log2numBuckets
  buckets : ∀ b, ∃ newer, t'.buckets b = newer ++ t.buckets b
  matchKey : ∀ b, ∀ e ∈ t.buckets b, ∀ key, t.matchKey e key = false → t'.matchKey e key = false

theorem Grows.hash (h : Grows t t') (key : ℕ) : t'.hash key = t.hash key := by
  rw [DHashTable.hash, DHashTable.hash, h.log2]

theorem Scanned.grows (h : Scanned t key b cur rest) (hgrows : Grows t t') :
    Scanned t' key b cur rest := by
  obtain ⟨hb, newer, seen, hchain, hcur, hseen⟩ := h
  obtain ⟨more, hmore⟩ := hgrows.buckets b
  refine ⟨hb.trans (hgrows.hash key).symm, more ++ newer, seen, ?_, hcur, ?_⟩
  · rw [hmore, hchain, List.append_assoc]
  · intro e he
    refine hgrows.matchKey b e ?_ key (hseen e he)
    rw [hchain]
    exact List.mem_append_right _ (List.mem_append_left _ he)

/-- What happens to an entry that another request is about to push. -/
structure Spares (t t' : DHashTable δ) (moving : List ℕ) (x : ℕ) : Prop where
  live : x ∈ t.live → x ∈ t'.live
  linked : Linked t' moving x → Linked t moving x
  data : isEmpty (t'.data x) = false →
    isEmpty (t.data x) = false ∧ getKey (t'.data x) = getKey (t.data x)

theorem Knows.grows {moving : List ℕ} (h : Knows t moving pc) (hgrows : Grows t t')
    (hspares : ∀ x, pc.fresh = some x → Spares t t' moving x) : Knows t' moving pc := by
  cases pc with
  | read l key b => exact h.trans (hgrows.hash key).symm
  | scan l key b cur rest => exact Scanned.grows h hgrows
  | lock l key b e => exact h.trans (hgrows.hash key).symm
  | check l key b e => exact h.trans (hgrows.hash key).symm
  | allocate noResize key b cur => exact Scanned.grows h hgrows
  | compareAndStore noResize key b cur ne =>
    obtain ⟨hscanned, hlive, hnot, hkey⟩ := h
    have hne := hspares ne rfl
    refine ⟨hscanned.grows hgrows, hne.live hlive, fun hl => hnot (hne.linked hl), ?_⟩
    intro hempty
    obtain ⟨hold, heq⟩ := hne.data hempty
    exact heq.trans (hkey hold)
  | _ => trivial

/-! ## The invariant -/

/-- While the table is resized nobody is inside, if the thread in `stop` has not been
woken up too early. -/
def Sync (c : RequestCountWithStop) : Resizer → Prop
  | .idle | .locked | .unlock => c.stopped = false
  | .marked => c.stopped = false ∧ c.waiting = true
  | .alone | .stopped | .moving _ => c.stopped = true ∧ c.inside = ∅
  | .blocked => c.stopped = true ∧ (c.waiting = false → c.inside = ∅)
  | .restart => True

structure Inv (s : System δ) : Prop where
  ok : Ok s.table s.resizer.rest
  sync : Sync s.requestCount s.resizer
  inside : ∀ r pc, s.requests r = some pc → pc.inside = true → r ∈ s.requestCount.inside
  knows : ∀ r pc, s.requests r = some pc → Knows s.table s.resizer.rest pc
  apart : ∀ r r' pc pc' x, s.requests r = some pc → s.requests r' = some pc' →
    pc.fresh = some x → pc'.fresh = some x → r = r'

variable {s s' : System δ} {r : ℕ}

theorem Sync.rest_eq_nil (h : Sync c resizer) (hr : r ∈ c.inside) : resizer.rest = [] := by
  cases resizer with
  | moving rest =>
    rw [h.2] at hr
    cases hr
  | _ => rfl

theorem Inv.advance (h : Inv s) {next : Option Pc}
    (hok : Ok t s.resizer.rest) (hsync : Sync c s.resizer)
    (hcount : ∀ r', r' ≠ r → r' ∈ s.requestCount.inside → r' ∈ c.inside) (hgrows : Grows s.table t)
    (hspares : ∀ r', r' ≠ r → ∀ pc x, s.requests r' = some pc → pc.fresh = some x →
      Spares s.table t s.resizer.rest x)
    (hself : ∀ pc, next = some pc → (pc.inside = true → r ∈ c.inside) ∧
      Knows t s.resizer.rest pc ∧ ∀ x, pc.fresh = some x → ∀ r', r' ≠ r → ∀ pc',
        s.requests r' = some pc' → pc'.fresh ≠ some x) :
    Inv { s with
      table := t, requestCount := c, pending := pending
      requests := update s.requests r next } := by
  have hcases : ∀ r' pc, update s.requests r next r' = some pc →
      r' = r ∧ next = some pc ∨ r' ≠ r ∧ s.requests r' = some pc := by
    intro r' pc hpc
    revert hpc
    exact Function.update_cases (fun hpc => .inl ⟨rfl, hpc⟩) (fun _ hr hpc => .inr ⟨hr, hpc⟩) r'
  refine ⟨hok, hsync, ?_, ?_, ?_⟩
  · intro r' pc hpc hin
    rcases hcases r' pc hpc with ⟨rfl, hnext⟩ | ⟨hne, hold⟩
    · exact (hself pc hnext).1 hin
    · exact hcount r' hne (h.inside r' pc hold hin)
  · intro r' pc hpc
    rcases hcases r' pc hpc with ⟨rfl, hnext⟩ | ⟨hne, hold⟩
    · exact (hself pc hnext).2.1
    · exact (h.knows r' pc hold).grows hgrows (hspares r' hne pc · hold)
  · intro r₁ r₂ pc₁ pc₂ x h₁ h₂ hx₁ hx₂
    rcases hcases r₁ pc₁ h₁ with ⟨rfl, hnext₁⟩ | ⟨hne₁, hold₁⟩
    · rcases hcases r₂ pc₂ h₂ with ⟨rfl, -⟩ | ⟨hne₂, hold₂⟩
      · rfl
      · exact absurd hx₂ ((hself pc₁ hnext₁).2.2 x hx₁ r₂ hne₂ pc₂ hold₂)
    · rcases hcases r₂ pc₂ h₂ with ⟨rfl, hnext₂⟩ | ⟨hne₂, hold₂⟩
      · exact absurd hx₁ ((hself pc₂ hnext₂).2.2 x hx₂ r₁ hne₁ pc₁ hold₁)
      · exact h.apart r₁ r₂ pc₁ pc₂ x hold₁ hold₂ hx₁ hx₂

/-- The table stays as it is but for locks and counters. -/
structure Same (t t' : DHashTable δ) : Prop where
  log2 : t'.log2numBuckets = t.log2numBuckets
  buckets : t'.buckets = t.buckets
  data : t'.data = t.data
  live : t'.live = t.live

theorem Same.grows (h : Same t t') : Grows t t' := by
  refine ⟨h.log2, fun b => ⟨[], ?_⟩, fun b e _ key hmatch => ?_⟩
  · rw [h.buckets]
    rfl
  · rw [matchKey, h.data]
    exact hmatch

theorem Same.spares (h : Same t t') (moving : List ℕ) (x : ℕ) : Spares t t' moving x := by
  refine ⟨?_, ?_, ?_⟩
  · rw [h.live]
    exact id
  · rw [Linked, h.buckets]
    exact id
  · rw [h.data]
    exact fun hempty => ⟨hempty, rfl⟩

theorem Inv.goto (h : Inv s) {next : Option Pc} (hsame : Same s.table t) (hsync : Sync c s.resizer)
    (hcount : ∀ r', r' ≠ r → r' ∈ s.requestCount.inside → r' ∈ c.inside)
    (hself : ∀ pc, next = some pc → (pc.inside = true → r ∈ c.inside) ∧
      Knows s.table s.resizer.rest pc ∧ pc.fresh = none) :
    Inv { s with
      table := t, requestCount := c, pending := pending
      requests := update s.requests r next } := by
  refine h.advance (h.ok.congr hsame.log2 hsame.buckets hsame.data hsame.live.ge) hsync hcount
    hsame.grows (fun _ _ _ x _ _ => hsame.spares _ x) ?_
  intro pc hnext
  obtain ⟨hin, hknows, hfresh⟩ := hself pc hnext
  refine ⟨hin, hknows.grows hsame.grows fun x _ => hsame.spares _ x, ?_⟩
  intro x hx
  rw [hfresh] at hx
  cases hx

/-! ## The request count -/

theorem Sync.enter (h : Sync c resizer) (r : ℕ) :
    Sync (c.enter r) resizer := by
  rw [RequestCountWithStop.enter]
  split
  · exact h
  · -- nobody gets inside once the count is stopped
    rename_i hstopped
    rw [Bool.not_eq_true] at hstopped
    cases resizer <;> simp_all [Sync]

theorem Sync.leave (h : Sync c resizer) (r : ℕ) :
    Sync (c.leave r) resizer := by
  have herase : c.inside = ∅ → c.inside.erase r = ∅ := by
    intro hempty
    rw [hempty]
    rfl
  cases resizer with
  | alone => exact ⟨h.1, herase h.2⟩
  | stopped => exact ⟨h.1, herase h.2⟩
  | moving rest => exact ⟨h.1, herase h.2⟩
  | blocked => exact ⟨h.1, fun hwaiting => herase (h.2 hwaiting)⟩
  | _ => exact h

/-- A thread in `stop` is woken up only after it has stopped the count, and when nobody is
inside. -/
def Timely (c : RequestCountWithStop) : Prop :=
  c.waiting = true → c.stopped = true ∧ c.inside = ∅

instance (c : RequestCountWithStop) : Decidable (Timely c) :=
  inferInstanceAs (Decidable (_ → _))

theorem Sync.wake (h : Sync c resizer)
    (htimely : Timely c) : Sync { c with waiting := false } resizer := by
  cases resizer with
  | marked =>
    have hstopped := (htimely h.2).1
    rw [h.1] at hstopped
    cases hstopped
  | blocked =>
    refine ⟨h.1, fun _ => ?_⟩
    cases hwaiting : c.waiting with
    | true => exact (htimely hwaiting).2
    | false => exact h.2 hwaiting
  | _ => exact h

theorem mem_enter {r' : ℕ} (h : r' ∈ c.inside) :
    r' ∈ (c.enter r).inside := by
  rw [RequestCountWithStop.enter]
  split
  · exact h
  · exact Finset.mem_insert_of_mem h

theorem mem_leave {r' : ℕ} (hne : r' ≠ r) (h : r' ∈ c.inside) :
    r' ∈ (c.leave r).inside :=
  Finset.mem_erase.mpr ⟨hne, h⟩

/-! ## Steps of requests -/

omit [DHashData δ] in
theorem Same.refl (t : DHashTable δ) : Same t t := ⟨rfl, rfl, rfl, rfl⟩

theorem Inv.moveTo (h : Inv s) {pc : Pc} (hin : pc.inside = true → r ∈ s.requestCount.inside)
    (hknows : Knows s.table s.resizer.rest pc) (hfresh : pc.fresh = none) :
    Inv { s with requests := update s.requests r (some pc) } := by
  refine h.goto (Same.refl _) h.sync (fun _ _ hr => hr) ?_
  rintro pc ⟨⟩
  exact ⟨hin, hknows, hfresh⟩

theorem Inv.leave (h : Inv s) (r : ℕ) (after : After) : Inv (s.leave r after) := by
  refine h.goto (Same.refl _) (h.sync.leave r) (fun r' => mem_leave) ?_
  intro pc hnext
  have hpc : pc.inside = false ∧ pc.fresh = none := by
    split at hnext
    · cases hnext
      exact ⟨rfl, rfl⟩
    · cases after <;> cases hnext <;> exact ⟨rfl, rfl⟩
  refine ⟨?_, Knows.of_outside hpc.1, hpc.2⟩
  rw [hpc.1]
  exact fun hfalse => by cases hfalse

theorem Inv.proceed (h : Inv s) {next : Pc} (hpc : s.requests r = some pc)
    (hin : pc.inside = true) (hsame : Same s.table t)
    (hknows : Knows s.table s.resizer.rest next) (hfresh : next.fresh = none) :
    Inv ((s.setTable t).goto r (some next)) := by
  refine h.goto hsame h.sync (fun _ _ hr => hr) ?_
  intro pc' hnext
  cases hnext
  exact ⟨fun _ => h.inside r pc hpc hin, hknows, hfresh⟩

theorem Scanned.eq_of_head (h : Scanned t key b cur []) (hnodup : (t.buckets b).Nodup)
    (hhead : (t.buckets b).head? = cur) : ∀ e ∈ t.buckets b, t.matchKey e key = false := by
  obtain ⟨-, newer, seen, hchain, hcur, hseen⟩ := h
  rw [List.append_nil] at hchain hcur
  cases newer with
  | nil =>
    rw [hchain]
    exact hseen
  | cons y newer =>
    rw [hchain] at hhead hnodup
    rw [← hcur] at hhead
    have hmem : y ∈ seen := List.mem_of_mem_head? hhead.symm
    have hnot := (List.nodup_cons.mp hnodup).1
    exact absurd (List.mem_append_right newer hmem) hnot

theorem setData_grows
    (hd : isEmpty d = false → isEmpty (t.data e) = false ∧ getKey d = getKey (t.data e)) :
    Grows t (t.setData e d) ∧ ∀ moving x, Spares t (t.setData e d) moving x := by
  have hdata := data_setData hd
  refine ⟨⟨rfl, fun _ => ⟨[], rfl⟩, ?_⟩, fun moving x => ⟨id, id, hdata x⟩⟩
  intro b x _ key hmatch
  rw [← Bool.not_eq_true, matchKey_iff] at hmatch ⊢
  rintro ⟨hempty, hkey⟩
  obtain ⟨hold, heq⟩ := hdata x hempty
  exact hmatch ⟨hold, hkey.trans heq⟩

theorem Inv.allocate (h : Inv s) {noResize : Bool} {a : ℕ}
    (hpc : s.requests r = some (.allocate noResize key b cur)) (ha : a ∉ s.table.live) :
    Inv ((s.setTable (s.table.newEntry a key)).goto r
      (some (.compareAndStore noResize key b cur a))) := by
  have hscanned : Scanned s.table key b cur [] := h.knows r _ hpc
  have hother : ∀ x, x ∈ s.table.live → (s.table.newEntry a key).data x = s.table.data x := by
    intro x hx
    refine update_of_ne ?_ _ _
    rintro rfl
    exact ha hx
  have hlinked : ∀ x, Linked s.table s.resizer.rest x →
      (s.table.newEntry a key).data x = s.table.data x := fun x hx => hother x (h.ok.live x hx)
  have hok : Ok (s.table.newEntry a key) s.resizer.rest := by
    refine ⟨h.ok.bounded, h.ok.nodup, h.ok.disjoint, h.ok.rest_nodup, h.ok.rest_disjoint, ?_, ?_, ?_⟩
    · exact fun x hx => Finset.mem_insert_of_mem (h.ok.live x hx)
    · intro b' x hx
      rw [hlinked x (.inl ⟨b', hx⟩)]
      exact h.ok.home b' x hx
    · rintro x x' ⟨hx, hempty⟩ ⟨hx', hempty'⟩
      rw [hlinked x hx] at hempty ⊢
      rw [hlinked x' hx'] at hempty' ⊢
      exact h.ok.unique x x' ⟨hx, hempty⟩ ⟨hx', hempty'⟩
  have hgrows : Grows s.table (s.table.newEntry a key) := by
    refine ⟨rfl, fun _ => ⟨[], rfl⟩, fun b' x hx key' hmatch => ?_⟩
    rw [matchKey, hlinked x (.inl ⟨b', hx⟩)]
    exact hmatch
  -- the entries that others are about to push are in use
  have hothers : ∀ r' pc x, s.requests r' = some pc → pc.fresh = some x → x ∈ s.table.live := by
    intro r' pc x hr' hx
    have hknows := h.knows r' pc hr'
    cases pc <;> cases hx
    exact hknows.2.1
  refine h.advance hok h.sync (fun _ _ hr => hr) hgrows ?_ ?_
  · intro r' _ pc x hr' hx
    refine ⟨fun hlive => Finset.mem_insert_of_mem hlive, id, ?_⟩
    have hdata : (s.setTable (s.table.newEntry a key)).table.data x = s.table.data x :=
      hother x (hothers r' pc x hr' hx)
    rw [hdata]
    exact fun hempty => ⟨hempty, rfl⟩
  · intro pc hnext
    cases hnext
    refine ⟨fun _ => h.inside r _ hpc rfl,
      ⟨hscanned.grows hgrows, Finset.mem_insert_self _ _, fun hl => ha (h.ok.live a hl), ?_⟩, ?_⟩
    · have hdata : (s.setTable (s.table.newEntry a key)).table.data a = create key :=
        update_self _ _ _
      rw [hdata]
      exact getKey_create key
    · intro x hx r' _ pc' hr' hx'
      cases hx
      exact ha (hothers r' pc' a hr' hx')

theorem Inv.compareAndStore (h : Inv s) {noResize : Bool} {ne : ℕ}
    (hpc : s.requests r = some (.compareAndStore noResize key b cur ne)) :
    Inv (if (s.table.buckets b).head? = cur then
      (s.setTable (s.table.push b ne)).goto r (some (.leave (.count ne noResize)))
    else
      (s.setTable (s.table.delete ne)).goto r (some (.read (.findOrAllocate noResize) key b))) := by
  obtain ⟨hscanned, hlive, hnot, hkey⟩ :
      Scanned s.table key b cur [] ∧ ne ∈ s.table.live ∧ ¬ Linked s.table s.resizer.rest ne ∧
        (isEmpty (s.table.data ne) = false → getKey (s.table.data ne) = key) := h.knows r _ hpc
  have hinside := h.inside r _ hpc rfl
  have hothers : ∀ r', r' ≠ r → ∀ pc x, s.requests r' = some pc → pc.fresh = some x → x ≠ ne := by
    rintro r' hr' pc x hpc' hx rfl
    exact hr' (h.apart r' r pc _ x hpc' hpc hx rfl)
  split
  · rename_i hhead
    have hnone := hscanned.eq_of_head (h.ok.nodup b) hhead
    have hrest := h.sync.rest_eq_nil hinside
    have hok : Ok (s.table.push b ne) s.resizer.rest := by
      refine h.ok.push hnot hlive ?_ ?_ ?_
      · rw [hscanned.1]
        exact hash_lt _ _
      · intro hempty
        rw [hkey hempty]
        exact hscanned.1.symm
      · -- another entry with the key would be in the chain that has been looked along
        rintro hempty x ⟨hlinked, hx⟩ hsame
        rw [hrest] at hlinked
        obtain ⟨b', hb'⟩ := hlinked.resolve_right List.not_mem_nil
        have hb := h.ok.home b' x hb' hx
        rw [hsame, hkey hempty, ← hscanned.1] at hb
        subst hb
        have hmatch := hnone x hb'
        rw [← Bool.not_eq_true, matchKey_iff] at hmatch
        exact hmatch ⟨hx, (hkey hempty).symm.trans hsame.symm⟩
    have hgrows : Grows s.table (s.table.push b ne) := by
      refine ⟨rfl, fun b' => ?_, fun _ _ _ _ hmatch => hmatch⟩
      by_cases hb : b' = b
      · subst hb
        exact ⟨[ne], update_self _ _ _⟩
      · exact ⟨[], update_of_ne hb _ _⟩
    refine h.advance hok h.sync (fun _ _ hr => hr) hgrows ?_ ?_
    · intro r' hr' pc x hpc' hx
      refine ⟨id, ?_, fun hempty => ⟨hempty, rfl⟩⟩
      rintro (⟨b', hb'⟩ | hmem)
      · rcases (mem_push s.table b ne b' x).mp hb' with ⟨-, heq⟩ | hb'
        · exact absurd heq (hothers r' hr' pc x hpc' hx)
        · exact .inl ⟨b', hb'⟩
      · exact .inr hmem
    · intro pc hnext
      cases hnext
      exact ⟨fun _ => hinside, trivial, fun x hx => by cases hx⟩
  · have hok : Ok (s.table.delete ne) s.resizer.rest := by
      refine ⟨h.ok.bounded, h.ok.nodup, h.ok.disjoint, h.ok.rest_nodup, h.ok.rest_disjoint, ?_,
        h.ok.home, h.ok.unique⟩
      intro x hx
      refine Finset.mem_erase.mpr ⟨?_, h.ok.live x hx⟩
      rintro rfl
      exact hnot hx
    refine h.advance hok h.sync (fun _ _ hr => hr) ⟨rfl, fun _ => ⟨[], rfl⟩, fun _ _ _ _ hm => hm⟩
      ?_ ?_
    · intro r' hr' pc x hpc' hx
      refine ⟨fun hl => Finset.mem_erase.mpr ⟨hothers r' hr' pc x hpc' hx, hl⟩, id,
        fun hempty => ⟨hempty, rfl⟩⟩
    · intro pc hnext
      cases hnext
      exact ⟨fun _ => hinside, hscanned.1, fun x hx => by cases hx⟩

theorem Inv.step (h : Inv s) {a : ℕ} (hstep : s.step r a = some s')
    (htimely : ∀ after, s.requests r = some (.wake after) → Timely s.requestCount) : Inv s' := by
  cases hpc : s.requests r with
  | none =>
    simp only [System.step, hpc] at hstep
    cases hstep
  | some pc =>
    cases pc with
    | enter op =>
      simp only [System.step, hpc, some.injEq] at hstep
      subst hstep
      refine h.goto (Same.refl _) (h.sync.enter r) (fun _ _ hr => mem_enter hr) ?_
      intro pc hnext
      split at hnext
      · cases hnext
        exact ⟨nofun, trivial, rfl⟩
      · rename_i hstopped
        have hmem : r ∈ (s.requestCount.enter r).inside := by
          rw [RequestCountWithStop.enter, if_neg hstopped]
          exact Finset.mem_insert_self _ _
        cases op <;> cases hnext <;> exact ⟨fun _ => hmem, trivial, rfl⟩
    | backOut op =>
      simp only [System.step, hpc, some.injEq] at hstep
      subst hstep
      exact h.leave r (.retry op)
    | wake after =>
      simp only [System.step, hpc, some.injEq] at hstep
      subst hstep
      refine h.goto (Same.refl _) (h.sync.wake (htimely after hpc)) (fun _ _ hr => hr) ?_
      intro pc hnext
      cases after <;> cases hnext <;> exact ⟨nofun, trivial, rfl⟩
    | waitLock op =>
      simp only [System.step, hpc, ite_none_left_eq_some, some.injEq] at hstep
      obtain ⟨-, rfl⟩ := hstep
      exact h.moveTo nofun trivial rfl
    | findBucket l key =>
      simp only [System.step, hpc, some.injEq] at hstep
      subst hstep
      exact h.proceed hpc rfl (Same.refl _) rfl rfl
    | read l key b =>
      simp only [System.step, hpc, some.injEq] at hstep
      subst hstep
      refine h.proceed hpc rfl (Same.refl _) ?_ rfl
      exact ⟨h.knows r _ hpc, [], [], rfl, rfl, fun e he => by cases he⟩
    | scan l key b cur rest =>
      obtain ⟨hb, newer, seen, hchain, hcur, hseen⟩ :
        Scanned s.table key b cur rest := h.knows r _ hpc
      cases rest with
      | cons e rest =>
        simp only [System.step, hpc, some.injEq] at hstep
        subst hstep
        refine h.proceed hpc rfl (Same.refl _) ?_ ?_
        · split
          · exact hb
          · rename_i hmatch
            refine ⟨hb, newer, seen ++ [e], ?_, ?_, ?_⟩
            · rw [hchain, List.append_assoc, List.singleton_append]
            · rw [List.append_assoc, List.singleton_append]
              exact hcur
            · intro x hx
              rcases List.mem_append.mp hx with hx | hx
              · exact hseen x hx
              · rw [List.mem_singleton.mp hx]
                exact Bool.not_eq_true _ ▸ hmatch
        · split <;> rfl
      | nil =>
        cases l with
        | findOrAllocate noResize =>
          simp only [System.step, hpc, some.injEq] at hstep
          subst hstep
          exact h.proceed hpc rfl (Same.refl _) ⟨hb, newer, seen, hchain, hcur, hseen⟩ rfl
        | empty =>
          simp only [System.step, hpc, some.injEq] at hstep
          subst hstep
          exact h.proceed hpc rfl (Same.refl _) trivial rfl
    | lock l key b e =>
      simp only [System.step, hpc, ite_none_left_eq_some, some.injEq] at hstep
      obtain ⟨-, rfl⟩ := hstep
      have hb : b = s.table.hash key := h.knows r _ hpc
      exact h.proceed hpc rfl ⟨rfl, rfl, rfl, rfl⟩ hb rfl
    | check l key b e =>
      have hb : b = s.table.hash key := h.knows r _ hpc
      cases hmatch : s.table.matchKey e key with
      | true =>
        cases l
        all_goals
          simp only [System.step, hpc, hmatch, some.injEq] at hstep
          subst hstep
          exact h.proceed hpc rfl (Same.refl _) trivial rfl
      | false =>
        cases l
        all_goals
          simp only [System.step, hpc, hmatch, some.injEq] at hstep
          subst hstep
        · exact h.proceed hpc rfl ⟨rfl, rfl, rfl, rfl⟩ hb rfl
        · exact h.proceed hpc rfl ⟨rfl, rfl, rfl, rfl⟩ trivial rfl
    | allocate noResize key b cur =>
      simp only [System.step, hpc, ite_none_left_eq_some, some.injEq] at hstep
      obtain ⟨ha, rfl⟩ := hstep
      exact h.allocate hpc ha
    | compareAndStore noResize key b cur ne =>
      have hcas := h.compareAndStore hpc
      simp only [System.step, hpc] at hstep
      split at hstep
      · rw [if_pos ‹_›] at hcas
        cases hstep
        exact hcas
      · rw [if_neg ‹_›] at hcas
        cases hstep
        exact hcas
    | empty e =>
      simp only [System.step, hpc] at hstep
      split at hstep
      · cases hstep
        exact h.proceed hpc rfl (Same.refl _) trivial rfl
      · cases hstep
        have hempty : ∀ d : δ, isEmpty (setEmpty d) = false → False := by
          intro d hd
          rw [isEmpty_setEmpty] at hd
          cases hd
        obtain ⟨hgrows, hspares⟩ := setData_grows (t := s.table) (e := e)
          (d := setEmpty (s.table.data e)) fun hd => (hempty _ hd).elim
        have hok := h.ok.setData (e := e) (d := setEmpty (s.table.data e)) fun hd =>
          (hempty _ hd).elim
        refine h.advance (hok.congr rfl rfl rfl (Finset.Subset.refl _)) h.sync
          (fun _ _ hr => hr) ⟨hgrows.log2, hgrows.buckets, hgrows.matchKey⟩ ?_ ?_
        · intro _ _ _ x _ _
          have hx := hspares s.resizer.rest x
          exact ⟨hx.live, hx.linked, hx.data⟩
        · intro pc hnext
          cases hnext
          exact ⟨fun _ => h.inside r _ hpc rfl, trivial, fun x hx => by cases hx⟩
    | unlock e =>
      simp only [System.step, hpc, some.injEq] at hstep
      subst hstep
      exact h.proceed hpc rfl ⟨rfl, rfl, rfl, rfl⟩ trivial rfl
    | leave after =>
      simp only [System.step, hpc, some.injEq] at hstep
      subst hstep
      exact h.leave r after
    | count e noResize =>
      simp only [System.step, hpc, some.injEq] at hstep
      subst hstep
      simp only [System.checkResize]
      split
      · refine h.goto ⟨rfl, rfl, rfl, rfl⟩ h.sync (fun _ _ hr => hr) ?_
        intro pc hnext
        cases hnext
        exact ⟨nofun, trivial, rfl⟩
      · refine h.goto ⟨rfl, rfl, rfl, rfl⟩ h.sync (fun _ _ hr => hr) ?_
        intro pc hnext
        cases hnext
        exact ⟨nofun, trivial, rfl⟩
    | held e =>
      simp only [System.step, hpc] at hstep
      cases hstep

/-! ## Resizing, step by step -/

theorem Inv.synchronize (h : Inv s) {next : Resizer}
    (hsame : Same s.table t) (hinside : c.inside = s.requestCount.inside)
    (hsync : Sync c next) (hrest : s.resizer.rest = next.rest) :
    Inv { s with table := t, requestCount := c, pending := pending, resizer := next } := by
  refine ⟨?_, hsync, ?_, ?_, h.apart⟩
  · show Ok t next.rest
    rw [← hrest]
    exact h.ok.congr hsame.log2 hsame.buckets hsame.data hsame.live.ge
  · intro r pc hpc hin
    show r ∈ c.inside
    rw [hinside]
    exact h.inside r pc hpc hin
  · intro r pc hpc
    show Knows t next.rest pc
    rw [← hrest]
    exact (h.knows r pc hpc).grows hsame.grows fun x _ => hsame.spares _ x

theorem Inv.rebuild (h : Inv s) {next : Resizer}
    (hquiet : s.requestCount.inside = ∅) (hok : Ok t next.rest) (hsync : Sync s.requestCount next) :
    Inv { s with table := t, resizer := next } := by
  refine ⟨hok, hsync, h.inside, ?_, h.apart⟩
  intro r pc hpc
  refine Knows.of_outside ?_
  by_contra hin
  have hmem := h.inside r pc hpc (Bool.not_eq_false _ ▸ hin)
  rw [hquiet] at hmem
  cases hmem

theorem Inv.resize (h : Inv s) (hstep : s.resize = some s') :
    Inv s' ∧ (∀ e, Holds s'.table s'.resizer.rest e ↔ Holds s.table s.resizer.rest e) ∧
      s'.table.data = s.table.data := by
  have hsync := h.sync
  have hok := h.ok
  cases hresizer : s.resizer with
  | idle =>
    rw [hresizer] at hsync hok
    simp only [System.resize, hresizer, Option.ite_none_right_eq_some, some.injEq] at hstep
    obtain ⟨-, rfl⟩ := hstep
    exact ⟨h.synchronize (Same.refl _) rfl hsync (by rw [hresizer]; rfl), fun _ => Iff.rfl, rfl⟩
  | locked =>
    rw [hresizer] at hsync
    simp only [System.resize, hresizer] at hstep
    split at hstep
    · cases hstep
      exact ⟨h.synchronize (Same.refl _) rfl hsync (by rw [hresizer]; rfl), fun _ => Iff.rfl, rfl⟩
    · cases hstep
      exact ⟨h.synchronize (Same.refl _) rfl ⟨hsync, rfl⟩ (by rw [hresizer]; rfl),
        fun _ => Iff.rfl, rfl⟩
  | marked =>
    rw [hresizer] at hsync
    simp only [System.resize, hresizer, some.injEq] at hstep
    subst hstep
    split
    · rename_i hnone
      have hempty : s.requestCount.inside = ∅ :=
        Finset.card_eq_zero.mp (Nat.eq_zero_of_add_eq_zero_right hnone)
      exact ⟨h.synchronize (Same.refl _) rfl ⟨rfl, hempty⟩ (by rw [hresizer]; rfl),
        fun _ => Iff.rfl, rfl⟩
    · refine ⟨h.synchronize (Same.refl _) rfl ⟨rfl, fun hwaiting => ?_⟩ (by rw [hresizer]; rfl),
        fun _ => Iff.rfl, rfl⟩
      have hset := hsync.2
      rw [show s.requestCount.waiting = false from hwaiting] at hset
      cases hset
  | alone =>
    rw [hresizer] at hsync
    simp only [System.resize, hresizer, some.injEq] at hstep
    subst hstep
    exact ⟨h.synchronize (Same.refl _) rfl hsync (by rw [hresizer]; rfl), fun _ => Iff.rfl, rfl⟩
  | blocked =>
    rw [hresizer] at hsync
    simp only [System.resize, hresizer, ite_none_left_eq_some, some.injEq] at hstep
    obtain ⟨hwaiting, rfl⟩ := hstep
    rw [Bool.not_eq_true] at hwaiting
    exact ⟨h.synchronize (Same.refl _) rfl ⟨hsync.1, hsync.2 hwaiting⟩ (by rw [hresizer]; rfl),
      fun _ => Iff.rfl, rfl⟩
  | stopped =>
    rw [hresizer] at hsync hok
    simp only [System.resize, hresizer] at hstep
    split at hstep
    · cases hstep
      exact ⟨h.synchronize ⟨rfl, rfl, rfl, rfl⟩ rfl trivial (by rw [hresizer]; rfl),
        fun _ => Iff.rfl, rfl⟩
    · cases hstep
      obtain ⟨hnew, hholds⟩ := hok.newBuckets (calcLog2Buckets s.table.log2numBuckets
        s.table.minlog2numBuckets s.table.numValues)
      exact ⟨h.rebuild hsync.2 hnew hsync, hholds, rfl⟩
  | moving rest =>
    rw [hresizer] at hsync hok
    cases rest with
    | cons e rest =>
      simp only [System.resize, hresizer, some.injEq] at hstep
      subst hstep
      obtain ⟨hmoved, hholds, hdata⟩ := hok.rehash
      exact ⟨h.rebuild hsync.2 hmoved hsync, hholds, hdata⟩
    | nil =>
      simp only [System.resize, hresizer, some.injEq] at hstep
      subst hstep
      exact ⟨h.synchronize ⟨rfl, rfl, rfl, rfl⟩ rfl trivial (by rw [hresizer]; rfl),
        fun _ => Iff.rfl, rfl⟩
  | restart =>
    simp only [System.resize, hresizer, some.injEq] at hstep
    subst hstep
    refine ⟨h.synchronize (Same.refl _) rfl ?_ (by rw [hresizer]; rfl), fun _ => Iff.rfl, rfl⟩
    exact (rfl : false = false)
  | unlock =>
    rw [hresizer] at hsync
    simp only [System.resize, hresizer, some.injEq] at hstep
    subst hstep
    exact ⟨h.synchronize (Same.refl _) rfl hsync (by rw [hresizer]; rfl), fun _ => Iff.rfl, rfl⟩

/-- The steps of the thread that resizes, `n` in a row. -/
def resizeSteps : ℕ → System δ → Option (System δ)
  | 0, s => some s
  | n + 1, s => s.resize.bind (resizeSteps n)

theorem Inv.moveAll (h : Inv s) {rest : List ℕ} (hresizer : s.resizer = .moving rest) :
    ∃ s', resizeSteps (rest.length + 1) s = some s' ∧ Inv s' ∧ s'.resizer = .restart ∧
      (∀ e, Holds s'.table [] e ↔ Holds s.table rest e) ∧ s'.table.data = s.table.data := by
  induction rest generalizing s with
  | nil =>
    have hstep : s.resize = some { s with
        table := { s.table with reSizing := false }, resizer := .restart } := by
      simp only [System.resize, hresizer]
    obtain ⟨hinv, hholds, hdata⟩ := h.resize hstep
    rw [hresizer] at hholds
    refine ⟨_, ?_, hinv, rfl, hholds, hdata⟩
    rw [List.length_nil, Nat.zero_add, resizeSteps, hstep]
    rfl
  | cons e rest ih =>
    have hstep : s.resize = some { s with
        table := s.table.rehash e, resizer := .moving rest } := by
      simp only [System.resize, hresizer]
    obtain ⟨hinv, hholds, hdata⟩ := h.resize hstep
    rw [hresizer] at hholds
    obtain ⟨s', hsteps, hinv', hend, hholds', hdata'⟩ := ih hinv rfl
    refine ⟨s', ?_, hinv', hend, fun x => (hholds' x).trans (hholds x), hdata'.trans hdata⟩
    rw [List.length_cons, resizeSteps, hstep]
    exact hsteps

theorem Inv.doResize (h : Inv s) (hresizer : s.resizer = .stopped) :
    ∃ n s', resizeSteps n s = some s' ∧ Inv s' ∧ s'.resizer = .restart ∧
      (∀ e, Holds s'.table [] e ↔ Holds s.table [] e) ∧ s'.table.data = s.table.data ∧
      ∀ e, Holds s'.table [] e → e ∈ s'.table.buckets (s'.table.hash (getKey (s'.table.data e))) := by
  have hplaced : ∀ s' : System δ, Inv s' → s'.resizer = .restart → ∀ e, Holds s'.table [] e →
      e ∈ s'.table.buckets (s'.table.hash (getKey (s'.table.data e))) := by
    intro s' hinv hend e he
    obtain ⟨b, hb⟩ := he.1.resolve_right List.not_mem_nil
    rw [hinv.ok.home b e hb he.2]
    exact hb
  cases hstep : s.resize with
  | none =>
    simp only [System.resize, hresizer] at hstep
    split at hstep <;> cases hstep
  | some s₁ =>
    obtain ⟨hinv, hholds, hdata⟩ := h.resize hstep
    rw [hresizer] at hholds
    simp only [System.resize, hresizer] at hstep
    split at hstep
    · rename_i hequal
      cases hstep
      refine ⟨1, _, ?_, hinv, rfl, hholds, hdata, hplaced _ hinv rfl⟩
      simp only [resizeSteps, System.resize, hresizer]
      rw [if_pos hequal]
      rfl
    · rename_i hequal
      cases hstep
      obtain ⟨s', hsteps, hinv', hend, hholds', hdata'⟩ := hinv.moveAll rfl
      refine ⟨s.table.chains.length + 1 + 1, s', ?_, hinv', hend,
        fun e => (hholds' e).trans (hholds e), hdata'.trans hdata, hplaced s' hinv' hend⟩
      rw [resizeSteps, System.resize, hresizer]
      simp only
      rw [if_neg hequal]
      exact hsteps

/-! ## Runs -/

theorem Inv.act (h : Inv s) {action : System.Action δ} (hact : s.act action = some s')
    (htimely : ∀ r a after, action = .step r a → s.requests r = some (.wake after) →
      Timely s.requestCount) : Inv s' := by
  cases action with
  | call r op =>
    simp only [System.act] at hact
    split at hact
    · cases hact
      exact h.moveTo nofun trivial rfl
    · cases hact
      exact h.moveTo nofun trivial rfl
    · cases hact
  | step r a => exact h.step hact fun after => htimely r a after rfl
  | write r d =>
    simp only [System.act] at hact
    split at hact
    · rename_i e hpc
      rw [Option.ite_none_right_eq_some, some.injEq] at hact
      obtain ⟨⟨hkey, hempty⟩, rfl⟩ := hact
      have hd : isEmpty d = false →
          isEmpty (s.table.data e) = false ∧ getKey d = getKey (s.table.data e) :=
        fun hd => ⟨hempty ▸ hd, hkey⟩
      obtain ⟨hgrows, hspares⟩ := setData_grows hd
      refine ⟨h.ok.setData hd, h.sync, h.inside, ?_, h.apart⟩
      exact fun r' pc hpc' => (h.knows r' pc hpc').grows hgrows fun x _ => hspares _ x
    · cases hact
  | doEmpty r =>
    simp only [System.act] at hact
    split at hact
    · cases hact
      exact h.moveTo nofun trivial rfl
    · cases hact
  | release r =>
    simp only [System.act] at hact
    split at hact
    · cases hact
      refine h.goto ⟨rfl, rfl, rfl, rfl⟩ h.sync (fun _ _ hr => hr) ?_
      intro pc hnext
      cases hnext
    · cases hact
  | resize => exact (h.resize hact).1

def Pc.wakes : Pc → Bool
  | .wake _ => true
  | _ => false

/-- Nobody is woken up in `stop` who has only begun to wait: when a request that has left
the count takes `shutdownThread`, that thread has stopped the count and nobody is inside. -/
def Prompt (s : System δ) : System.Action δ → Prop
  | .step r _ => (s.requests r).any Pc.wakes = true → Timely s.requestCount
  | _ => True

instance (s : System δ) : (action : System.Action δ) → Decidable (Prompt s action)
  | .step _ _ => inferInstanceAs (Decidable (_ → _))
  | .call _ _ | .write _ _ | .doEmpty _ | .release _ | .resize => .isTrue trivial

/-- All interleavings. -/
def interleavings : Machine (System δ) (System.Action δ) :=
  ⟨fun s action => (s.act action).getD s, fun s action => (s.act action).isSome = true⟩

def promptly : Machine (System δ) (System.Action δ) :=
  ⟨fun s action => (s.act action).getD s,
    fun s action => (s.act action).isSome = true ∧ Prompt s action⟩

instance (s : System δ) (action : System.Action δ) : Decidable (interleavings.adm s action) :=
  inferInstanceAs (Decidable (_ = true))

instance (s : System δ) (action : System.Action δ) : Decidable (promptly.adm s action) :=
  inferInstanceAs (Decidable (_ ∧ _))

theorem init_inv (numEntries minEntries : ℕ) (skip : Bool) (d : δ) :
    Inv (System.init numEntries minEntries skip d) := by
  refine ⟨⟨fun _ _ => rfl, fun _ => List.nodup_nil, ?_, List.nodup_nil, ?_, ?_, ?_, ?_⟩, rfl, ?_, ?_,
    ?_⟩
  · intro b b' e he
    cases he
  · intro b e he
    cases he
  · rintro e (⟨b, hb⟩ | he)
    · cases hb
    · cases he
  · intro b e he
    cases he
  · rintro e e' ⟨⟨b, hb⟩ | he, -⟩
    · cases hb
    · cases he
  · intro r pc hpc
    cases hpc
  · intro r pc hpc
    cases hpc
  · intro r r' pc pc' x hpc
    cases hpc

/-- In every interleaving the entries are in the buckets of their keys and no key has two
of them, and `doResize` keeps exactly the non-empty entries with their data and puts
each into its bucket. -/
theorem run_resize {numEntries minEntries : ℕ} {skip : Bool} {d : δ}
    {actions : List (System.Action δ)}
    (hrun : promptly.Run (System.init numEntries minEntries skip d) actions s) :
    (∀ b, ∀ e ∈ s.table.buckets b, isEmpty (s.table.data e) = false →
        s.table.hash (getKey (s.table.data e)) = b) ∧
      (∀ e e', Holds s.table s.resizer.rest e → Holds s.table s.resizer.rest e' →
        getKey (s.table.data e) = getKey (s.table.data e') → e = e') ∧
      (∀ s', s.resize = some s' →
        (∀ e, Holds s'.table s'.resizer.rest e ↔ Holds s.table s.resizer.rest e) ∧
          s'.table.data = s.table.data) ∧
      (s.resizer = .stopped → ∃ n s', resizeSteps n s = some s' ∧ s'.resizer = .restart ∧
        (∀ e, Holds s'.table [] e ↔ Holds s.table [] e) ∧ s'.table.data = s.table.data ∧
        ∀ e, Holds s'.table [] e →
          e ∈ s'.table.buckets (s'.table.hash (getKey (s'.table.data e)))) := by
  have h : Inv s := by
    refine hrun.invariant (I := Inv) (init_inv _ _ _ _) ?_
    rintro s action h ⟨hsome, hprompt⟩
    obtain ⟨s', hact⟩ := Option.isSome_iff_exists.mp hsome
    show Inv ((s.act action).getD s)
    rw [hact]
    refine h.act hact ?_
    rintro r a after rfl hpc
    refine hprompt ?_
    rw [hpc]
    rfl
  refine ⟨h.ok.home, h.ok.unique, fun s' hstep => (h.resize hstep).2, fun hresizer => ?_⟩
  obtain ⟨n, s', hsteps, -, hend, hholds, hdata, hplaced⟩ := h.doResize hresizer
  exact ⟨n, s', hsteps, hend, hholds, hdata, hplaced⟩

/-- A call that finds nothing in a chain of `n` entries and makes a new entry at `a`. -/
def allocates (r key n a : ℕ) : List (System.Action TestHashData) :=
  .call r (.findOrAllocateAndLock key false) :: List.replicate (n + 8) (.step r a) ++ [.release r]

/-- Two keys fill the smallest table, which is resized then. -/
def fillAndStop : List (System.Action TestHashData) :=
  allocates 0 0 0 100 ++ allocates 1 2 1 101 ++ List.replicate 3 .resize

def start : System TestHashData := System.init 1 1 false ⟨0, 0⟩

def fillAndResize : List (System.Action TestHashData) :=
  fillAndStop ++ List.replicate 5 .resize

theorem run_resize_fillAndResize :
    promptly.Run start fillAndResize (fillAndResize.foldl promptly.step start) ∧
      (fillAndResize.foldl promptly.step start).table.buckets 2 = [101] ∧
      ∀ e e', Holds (fillAndResize.foldl promptly.step start).table
          (fillAndResize.foldl promptly.step start).resizer.rest e →
        Holds (fillAndResize.foldl promptly.step start).table
          (fillAndResize.foldl promptly.step start).resizer.rest e' →
        getKey ((fillAndResize.foldl promptly.step start).table.data e) =
          getKey ((fillAndResize.foldl promptly.step start).table.data e') → e = e' := by
  have hadmits : promptly.Admits start fillAndResize := by decide +kernel
  exact ⟨hadmits.run, by decide +kernel, (run_resize hadmits.run).2.1⟩

open System.Action in
/-- While the table is resized, request 2 finds the count stopped and takes itself out
again. Before it wakes up the thread that waits, the resizing is over, request 4 is
inside, and another thread has begun to wait. -/
def lateWakeUp : List (System.Action TestHashData) :=
  fillAndStop ++ [call 2 (.findOrAllocateAndLock 0 false), step 2 0, step 2 0] ++
    List.replicate 7 resize ++ allocates 3 5 0 102 ++
    [call 4 (.findOrAllocateAndLock 2 false), step 4 0] ++ List.replicate 3 resize ++
    [step 2 0] ++ List.replicate 2 resize ++ List.replicate 5 (step 4 103) ++
    List.replicate 3 resize

theorem two_entries_for_one_key :
    interleavings.Run start lateWakeUp (lateWakeUp.foldl interleavings.step start) ∧
      (lateWakeUp.foldl interleavings.step start).table.buckets 2 = [101, 103] ∧
      (lateWakeUp.foldl interleavings.step start).table.data 101 = ⟨2, 0⟩ ∧
      (lateWakeUp.foldl interleavings.step start).table.data 103 = ⟨2, 0⟩ := by
  have hadmits : interleavings.Admits start lateWakeUp := by decide +kernel
  exact ⟨hadmits.run, by decide +kernel, by decide +kernel, by decide +kernel⟩

end K42.DHash
