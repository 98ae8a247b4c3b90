import K42.Lib.Update
import K42.Misc.MasterDHashTableRuns

/-!
# The calls one after the other

The calls allocate entries and replicas, empty them, resize the tables and operate on the
entries. After each of them every replica in the set of a master entry is in the local
table of its processor, and no two are in the same one.
-/

open Function (update_cases update_of_ne update_self)

namespace K42

open DHashData MasterDHashData DHash

namespace MasterDHashTable

open Option (bind_eq_some_iff ite_none_left_eq_some map_eq_some_iff some)
open DHashTable (alike_setLock allocate doResize_spec find_eq_some inc newEntry pointer_firstFrom
  push setData setLock walk_nodup)

variable {μ ℓ : Type} [DHashData μ] [DHashData ℓ] [MasterDHashData μ ℓ]
  {s s' : MasterDHashTable μ ℓ} {key vp l me a b : ℕ} {le : ℕ × ℕ}

/-! ## Where the replicas are -/

structure Placed (s : MasterDHashTable μ ℓ) : Prop where
  ok : Ok s.master []
  okLocal : ∀ l, Ok (s.locals l) []
  replica : ∀ e, Holds s.master [] e → ∀ vp ∈ s.replicas e, ∃ l x,
    s.localTables vp = some l ∧ (s.locals l).find (getKey (s.master.data e)) = some x
  apart : ∀ e, Holds s.master [] e → ∀ vp ∈ s.replicas e, ∀ vp' ∈ s.replicas e,
    s.localTables vp = s.localTables vp' → vp = vp'

/-- The non-empty entries of the master table have the replicas they had, and these are
found. -/
theorem Placed.of_same (h : Placed s) (hok : Ok s'.master []) (hokLocal : ∀ l, Ok (s'.locals l) [])
    (htables : s'.localTables = s.localTables)
    (hkeep : ∀ e, Holds s'.master [] e → Holds s.master [] e ∧
      getKey (s'.master.data e) = getKey (s.master.data e) ∧ s'.replicas e = s.replicas e ∧
      ∀ l, (s'.locals l).find (getKey (s.master.data e)) =
        (s.locals l).find (getKey (s.master.data e))) : Placed s' := by
  refine ⟨hok, hokLocal, ?_, ?_⟩
  · intro e he vp hvp
    obtain ⟨hold, hkey, hvps, hfind⟩ := hkeep e he
    rw [hvps] at hvp
    obtain ⟨l, x, hl, hx⟩ := h.replica e hold vp hvp
    rw [htables]
    exact ⟨l, x, hl, by rw [hkey, hfind, hx]⟩
  · intro e he
    obtain ⟨hold, -, hvps, -⟩ := hkeep e he
    rw [hvps, htables]
    exact h.apart e hold

theorem Placed.alike (h : Placed s) (halike : Alike s s') : Placed s' := by
  refine h.of_same (halike.master.ok h.ok) (fun l => (halike.locals.locals l).ok (h.okLocal l))
    halike.locals.localTables fun e he => ?_
  exact ⟨(halike.master.holds e).mp he, halike.master.key e, halike.replicas e,
    fun l => (halike.locals.locals l).find _⟩

theorem alike_lockMaster (h : s.lockMaster me = some s') : Alike s s' := by
  simp only [lockMaster, ite_none_left_eq_some, some.injEq] at h
  obtain ⟨-, rfl⟩ := h
  exact ⟨⟨rfl, fun _ => DHashTable.Alike.refl _⟩, alike_setLock _ _ _, fun _ => rfl⟩

theorem alike_unlockMaster (s : MasterDHashTable μ ℓ) (me : ℕ) : Alike s (s.unlockMaster me) :=
  ⟨⟨rfl, fun _ => DHashTable.Alike.refl _⟩, alike_setLock _ _ _, fun _ => rfl⟩

theorem alike_lock (h : s.lock le = some s') : Alike s s' :=
  (localsAlike_lock h).alike (by rw [(lock_eq_some h).2]; rfl)

theorem alike_unlock (s : MasterDHashTable μ ℓ) (le : ℕ × ℕ) : Alike s (s.unlock le) :=
  (localsAlike_unlock s le).alike rfl

theorem alike_release (h : s.release le = some s') : Alike s s' := by
  rw [release, Option.ite_none_right_eq_some] at h
  obtain ⟨-, h⟩ := h
  cases h
  exact alike_unlock s le

/-! ## Resizing -/

theorem Placed.resizeMaster (h : Placed s) (log2 : ℕ) :
    Placed { s with master := s.master.doResize log2 } := by
  obtain ⟨hok, hholds, hdata, -⟩ := doResize_spec h.ok log2
  refine h.of_same hok h.okLocal rfl fun e he => ⟨(hholds e).mp he, ?_, ?_, fun _ => rfl⟩
  · show getKey ((s.master.doResize log2).data e) = _
    rw [hdata]
  · show ((replicaVPs ((s.master.doResize log2).data e)).members _ : List ℕ) = _
    rw [hdata]
    rfl

theorem Placed.resizeLocal (h : Placed s) (l log2 : ℕ) :
    Placed (s.setLocal l ((s.locals l).doResize log2)) := by
  obtain ⟨hok, -, -, hfind⟩ := doResize_spec (h.okLocal l) log2
  refine h.of_same h.ok (fun l' => ?_) rfl fun e he => ⟨he, rfl, rfl, fun l' => ?_⟩
  · show Ok (Function.update s.locals l _ l') []
    exact update_cases hok (fun l' _ => h.okLocal l') l'
  · show (Function.update s.locals l _ l').find _ = _
    exact update_cases (hfind _) (fun _ _ => rfl) l'

/-! ## Allocating -/

variable {δ : Type} {mo : Option (MOP μ)} {lo : LOP ℓ} {od : OpDirective} {fuel : ℕ}

theorem data_setData_self (t : DHashTable δ) (e : ℕ) (d : δ) : (t.setData e d).data e = d :=
  update_self _ _ _

theorem log2_allocate [DHashData δ] (t : DHashTable δ) :
    (t.allocate a key).log2numBuckets = t.log2numBuckets := by
  rw [allocate, inc, push, newEntry, setLock, setData]

theorem inserts_allocate [DHashData δ] {t : DHashTable δ}
    (hempty : isEmpty (create key : δ) = false) : t.Inserts (t.allocate a key) a key := by
  have hdata : (t.allocate a key).data a = create key := update_self _ _ _
  refine ⟨log2_allocate t, rfl, rfl, fun x hx => update_of_ne hx _ _, ?_, ?_⟩
  · rw [hdata]
    exact getKey_create key hempty
  · rw [hdata]
    exact hempty

theorem Placed.findOrAllocateAndLock (h : Placed s) {r : ℕ × MasterDHashTable μ ℓ}
    (hfind : s.findOrAllocateAndLock key a = some r) :
    Placed r.2 ∧ Holds r.2.master [] r.1 ∧ getKey (r.2.master.data r.1) = key ∧
      r.2.locals = s.locals ∧ r.2.localTables = s.localTables := by
  rw [MasterDHashTable.findOrAllocateAndLock] at hfind
  split at hfind
  · rename_i me hme
    obtain ⟨s₁, hlock, rfl⟩ := map_eq_some_iff.mp hfind
    have halike := alike_lockMaster hlock
    obtain ⟨hholds, hkey⟩ := (find_eq_some h.ok).mp hme
    refine ⟨h.alike halike, (halike.master.holds me).mpr hholds,
      (halike.master.key me).trans hkey, ?_⟩
    simp only [lockMaster, ite_none_left_eq_some, some.injEq] at hlock
    obtain ⟨-, rfl⟩ := hlock
    exact ⟨rfl, rfl⟩
  · rename_i hnone
    simp only [ite_none_left_eq_some, Option.ite_none_right_eq_some,
      some.injEq] at hfind
    obtain ⟨hfree, hmatch, rfl⟩ := hfind
    have hdata : (s.master.allocate a key).data a = create key := update_self _ _ _
    have hempty : isEmpty (create key : μ) = false := by
      rw [← hdata]
      exact ((matchKey_iff _ _ _).mp hmatch).1
    have hinserts := inserts_allocate (t := s.master) (a := a) hempty
    obtain ⟨hok, hholds, -, -⟩ := hinserts.spec h.ok hfree hnone
    -- the new entry has no replicas yet
    have hvps : replicaVPs ((s.master.allocate a key).data a) = VPSet.init := by
      rw [hdata]
      exact replicaVPs_create key
    have hnew : ({ s with master := s.master.allocate a key }).replicas a = [] := by
      rw [replicas, hvps]
      rfl
    have hold : ∀ e, e ≠ a → (s.master.allocate a key).data e = s.master.data e := hinserts.data
    refine ⟨⟨hok, h.okLocal, ?_, ?_⟩, (hholds a).mpr (.inr rfl), hinserts.key, rfl, rfl⟩
    · intro e he vp hvp
      by_cases hea : e = a
      · rw [hea, hnew] at hvp
        cases hvp
      · have hreplica := h.replica e (((hholds e).mp he).resolve_right hea)
        rw [replicas, ← hold e hea] at hreplica
        exact hreplica vp hvp
    · intro e he vp hvp
      by_cases hea : e = a
      · rw [hea, hnew] at hvp
        cases hvp
      · have hapart := h.apart e (((hholds e).mp he).resolve_right hea)
        rw [replicas, ← hold e hea] at hapart
        exact hapart vp hvp

theorem mem_replicas_replicate {vp' : ℕ} (hvp : vp < VPLimit) :
    vp' ∈ (s.replicate vp l key me b).replicas me ↔ vp' ∈ s.replicas me ∨ vp' = vp := by
  have hdata : replicaVPs ((s.replicate vp l key me b).master.data me) =
      (replicaVPs (s.master.data me)).addVP vp := by
    rw [show (s.replicate vp l key me b).master.data me = _ from update_self _ _ _]
    exact replicaVPs_replicate _ _ _
  have hbits : vp < 64 := Nat.lt_of_lt_of_le hvp (by decide)
  rw [replicas, hdata, VPSet.mem_members, VPSet.isSet_addVP hbits, replicas, VPSet.mem_members]
  constructor
  · rintro ⟨hlt, hset | rfl⟩
    · exact .inl ⟨hlt, hset⟩
    · exact .inr rfl
  · rintro (⟨hlt, hset⟩ | rfl)
    · exact ⟨hlt, .inl hset⟩
    · exact ⟨hvp, .inr rfl⟩

theorem Placed.replicate (h : Placed s) (hl : s.localTables vp = some l)
    (hnone : (s.locals l).find key = none) (hme : Holds s.master [] me)
    (hkey : getKey (s.master.data me) = key) (hfree : b ∉ (s.locals l).live) (hvp : vp < VPLimit) :
    Placed (s.replicate vp l key me b) := by
  have hmaster : s.master.Alike (s.replicate vp l key me b).master :=
    DHashTable.alike_setData (getKey_replicate _ _ _).1 (isEmpty_replicate _ _ _).1
  have hlocal : (s.replicate vp l key me b).locals l = ((s.locals l).allocate b key).setData b
      (replicateToLocal vp (s.master.data me) (((s.locals l).allocate b key).data b)).2 :=
    update_self _ _ _
  have hother : ∀ l', l' ≠ l → (s.replicate vp l key me b).locals l' = s.locals l' :=
    fun l' hne => update_of_ne hne _ _
  have hinserts : (s.locals l).Inserts ((s.replicate vp l key me b).locals l) b key := by
    rw [hlocal]
    refine ⟨?_, rfl, rfl, fun x hx => ?_, ?_, ?_⟩
    · dsimp only [setData]
      exact log2_allocate _
    · exact (update_of_ne hx _ _).trans (update_of_ne hx _ _)
    · rw [data_setData_self]
      exact ((getKey_replicate _ _ _).2).trans hkey
    · rw [data_setData_self]
      exact ((isEmpty_replicate _ _ _).2).trans hme.2
  obtain ⟨hok, -, hfound, hfind⟩ := hinserts.spec (h.okLocal l) hfree hnone
  have hvps : ∀ e, e ≠ me → (s.replicate vp l key me b).replicas e = s.replicas e := by
    intro e he
    rw [replicas, show (s.replicate vp l key me b).master.data e = s.master.data e from
      update_of_ne he _ _]
    rfl
  -- a replica of the entry in this local table would have been found
  have habsent : ∀ vp' ∈ s.replicas me, s.localTables vp' ≠ some l := by
    intro vp' hvp' hl'
    obtain ⟨l', x, htable, hx⟩ := h.replica me hme vp' hvp'
    rw [hl', some.injEq] at htable
    rw [hkey, ← htable, hnone] at hx
    cases hx
  refine ⟨hmaster.ok h.ok, fun l' => ?_, fun e he vp' hvp' => ?_, fun e he vp₁ h₁ vp₂ h₂ heq => ?_⟩
  · by_cases hll : l' = l
    · rw [hll]
      exact hok
    · rw [hother l' hll]
      exact h.okLocal l'
  · rw [hmaster.key e]
    have hkept : vp' ∈ s.replicas e → ∃ l₁ x, s.localTables vp' = some l₁ ∧
        ((s.replicate vp l key me b).locals l₁).find (getKey (s.master.data e)) = some x := by
      intro hold
      obtain ⟨l₁, x, htable, hx⟩ := h.replica e ((hmaster.holds e).mp he) vp' hold
      refine ⟨l₁, x, htable, ?_⟩
      by_cases hll : l₁ = l
      · subst hll
        have hne : getKey (s.master.data e) ≠ key := by
          intro heq
          rw [heq, hnone] at hx
          cases hx
        rw [hfind _ hne, hx]
      · rw [hother l₁ hll, hx]
    by_cases hem : e = me
    · subst hem
      rcases (mem_replicas_replicate hvp).mp hvp' with hold | rfl
      · exact hkept hold
      · exact ⟨l, b, hl, by rw [hkey]; exact hfound⟩
    · rw [hvps e hem] at hvp'
      exact hkept hvp'
  · by_cases hem : e = me
    · subst hem
      have heq' : s.localTables vp₁ = s.localTables vp₂ := heq
      rcases (mem_replicas_replicate hvp).mp h₁ with hold₁ | rfl
      · rcases (mem_replicas_replicate hvp).mp h₂ with hold₂ | rfl
        · exact h.apart e hme vp₁ hold₁ vp₂ hold₂ heq'
        · exact absurd (heq'.trans hl) (habsent vp₁ hold₁)
      · rcases (mem_replicas_replicate hvp).mp h₂ with hold₂ | rfl
        · exact absurd (heq'.symm.trans hl) (habsent vp₂ hold₂)
        · rfl
    · rw [hvps e hem] at h₁ h₂
      exact h.apart e ((hmaster.holds e).mp he) vp₁ h₁ vp₂ h₂ heq

theorem Placed.localFindOrAllocateAndLock (h : Placed s)
    (hcall : s.localFindOrAllocateAndLock vp key a b = some s') : Placed s' := by
  obtain ⟨l, hl, hcall⟩ := bind_eq_some_iff.mp hcall
  split at hcall
  · exact h.alike (alike_lock hcall)
  · rename_i hnone
    obtain ⟨r, hfind, hcall⟩ := bind_eq_some_iff.mp hcall
    rw [ite_none_left_eq_some, some.injEq, not_or, Nat.not_le] at hcall
    obtain ⟨⟨hfree, hvp⟩, rfl⟩ := hcall
    obtain ⟨hplaced, hholds, hkey, hlocals, htables⟩ := h.findOrAllocateAndLock hfind
    refine Placed.alike ?_ (alike_unlockMaster _ _)
    refine hplaced.replicate ?_ ?_ hholds hkey ?_ hvp
    · rw [htables, hl]
    · rw [hlocals, hnone]
    · rw [hlocals]
      exact hfree

/-! ## Emptying -/

omit [DHashData μ] [MasterDHashData μ ℓ] in
theorem emptied_foldl {lst : List (ℕ × ℕ)} {s₀ : MasterDHashTable μ ℓ}
    (hlst : ∀ le ∈ lst, getKey ((s₀.locals le.1).data le.2) = key)
    (h : ∀ l, (s₀.locals l).Emptied key (s.locals l)) :
    (∀ l, (s₀.locals l).Emptied key ((lst.foldl emptyLocal s).locals l)) ∧
      (lst.foldl emptyLocal s).master = s.master ∧
      (lst.foldl emptyLocal s).localTables = s.localTables := by
  induction lst generalizing s with
  | nil => exact ⟨h, rfl, rfl⟩
  | cons le lst ih =>
    have hkey := hlst le List.mem_cons_self
    refine ih (s := s.emptyLocal le) (fun x hx => hlst x (List.mem_cons_of_mem _ hx)) fun l => ?_
    show (s₀.locals l).Emptied key (Function.update s.locals le.1 _ l)
    by_cases hl : l = le.1
    · subst hl
      rw [update_self]
      refine ⟨(h _).log2, (h _).buckets, (h _).live, fun e => ?_⟩
      by_cases he : e = le.2
      · subst he
        have hdata : ((s.locals le.1).setData le.2
            (setEmpty ((s.locals le.1).data le.2))).dec.data le.2 =
              setEmpty ((s.locals le.1).data le.2) := update_self _ _ _
        rw [hdata]
        exact .inr ⟨isEmpty_setEmpty _, hkey⟩
      · have hdata : ((s.locals le.1).setData le.2
            (setEmpty ((s.locals le.1).data le.2))).dec.data e = (s.locals le.1).data e :=
          update_of_ne he _ _
        rw [hdata]
        exact (h _).data e
    · rw [update_of_ne hl]
      exact h l

omit [MasterDHashData μ ℓ] [DHashData μ] [DHashData ℓ] in
theorem foldl_unlock_spec (lst : List (ℕ × ℕ)) (s : MasterDHashTable μ ℓ) :
    (∀ l, ∃ locked, (lst.foldl unlock s).locals l = { s.locals l with locked := locked }) ∧
      (lst.foldl unlock s).master = s.master ∧
      (lst.foldl unlock s).localTables = s.localTables := by
  induction lst generalizing s with
  | nil => exact ⟨fun l => ⟨_, rfl⟩, rfl, rfl⟩
  | cons le lst ih =>
    obtain ⟨hlocals, hmaster, htables⟩ := ih (s.unlock le)
    refine ⟨fun l => ?_, hmaster, htables⟩
    obtain ⟨locked, heq⟩ := hlocals l
    have hone : ∃ locked, (s.unlock le).locals l = { s.locals l with locked := locked } := by
      simp only [unlock, setLocal]
      by_cases hl : l = le.1
      · rw [hl, update_self]
        exact ⟨_, rfl⟩
      · rw [update_of_ne hl]
        exact ⟨_, rfl⟩
    obtain ⟨locked', heq'⟩ := hone
    rw [heq'] at heq
    exact ⟨locked, heq⟩

omit [DHashData ℓ] [MasterDHashData μ ℓ] in
theorem isEmpty_emptyMaster (s : MasterDHashTable μ ℓ) (me : ℕ) :
    isEmpty ((s.emptyMaster me).master.data me) = true := by
  have hdata : (s.emptyMaster me).master.data me = setEmpty (s.master.data me) :=
    update_self _ _ _
  rw [hdata]
  exact isEmpty_setEmpty _

theorem Placed.emptyMaster (h : Placed s) (hme : Holds s.master [] me)
    (hkey : getKey (s.master.data me) = key) (htables : s'.localTables = s.localTables)
    (hmaster : s'.master = s.master) (hlocals : ∀ l, (s.locals l).Emptied key (s'.locals l)) :
    Placed (s'.emptyMaster me) := by
  have hemptied : s.master.Emptied key (s'.emptyMaster me).master := by
    rw [← hmaster]
    refine ⟨rfl, rfl, rfl, fun e => ?_⟩
    by_cases he : e = me
    · subst he
      rw [hmaster]
      exact .inr ⟨isEmpty_emptyMaster s' e, hkey⟩
    · exact .inl (update_of_ne he _ _)
  refine h.of_same (hemptied.ok h.ok) (fun l => (hlocals l).ok (h.okLocal l)) htables fun e he => ?_
  have hdata : (s'.emptyMaster me).master.data e = s.master.data e := by
    rcases hemptied.data e with hdata | ⟨hempty, -⟩
    · exact hdata
    · rw [he.2] at hempty
      cases hempty
  have hold : Holds s.master [] e := by
    refine ⟨?_, hdata ▸ he.2⟩
    have hlinked := he.1
    rw [Linked, hemptied.buckets] at hlinked
    exact hlinked
  refine ⟨hold, ?_, ?_, fun l => (hlocals l).find fun heq => ?_⟩
  · rw [hdata]
  · rw [replicas, hdata]
    rfl
  · -- the emptied entry was the only one with the key
    have hem := h.ok.unique e me hold hme (heq.trans hkey.symm)
    have hgone := isEmpty_emptyMaster s' me
    rw [hem] at he
    rw [he.2] at hgone
    cases hgone

theorem Placed.doEmpty (h : Placed s) (hcall : s.doEmpty key = some s') : Placed s' := by
  rw [MasterDHashTable.doEmpty] at hcall
  split at hcall
  · cases hcall
    exact h
  · rename_i me hfind
    obtain ⟨s₁, hlock, hcall⟩ := bind_eq_some_iff.mp hcall
    obtain ⟨s₂, hreplicas, rfl⟩ := map_eq_some_iff.mp hcall
    have halike := (alike_lockMaster hlock).trans (lockAllReplicas_spec hreplicas).1.alike
    have hplaced := h.alike halike
    obtain ⟨hholds, hkey⟩ := (find_eq_some h.ok).mp hfind
    have hlst : ∀ le ∈ (s₂.replicas me).filterMap (s₂.replica key),
        getKey ((s₂.locals le.1).data le.2) = key := by
      intro le hle
      obtain ⟨vp, -, hvp⟩ := List.mem_filterMap.mp hle
      obtain ⟨l, -, hl⟩ := bind_eq_some_iff.mp hvp
      obtain ⟨x, hx, rfl⟩ := map_eq_some_iff.mp hl
      exact ((find_eq_some (hplaced.okLocal l)).mp hx).2
    obtain ⟨hemptied, hmaster, htables⟩ := emptied_foldl hlst
      fun l => DHashTable.Emptied.refl key (s₂.locals l)
    obtain ⟨hunlocked, hmaster', htables'⟩ := foldl_unlock_spec
      ((s₂.replicas me).filterMap (s₂.replica key))
      (((s₂.replicas me).filterMap (s₂.replica key)).foldl emptyLocal s₂)
    refine Placed.alike ?_ (alike_unlockMaster _ _)
    refine hplaced.emptyMaster ((halike.master.holds me).mpr hholds)
      ((halike.master.key me).trans hkey) ?_ ?_ fun l => ?_
    · exact htables'.trans htables
    · exact hmaster'.trans hmaster
    · obtain ⟨locked, heq⟩ := hunlocked l
      rw [heq]
      exact ⟨(hemptied l).log2, (hemptied l).buckets, (hemptied l).live, (hemptied l).data⟩

/-! ## Runs -/

/-- The calls. `release` and `releaseMaster` unlock what `findOrAllocateAndLock` has locked
for its caller. -/
inductive Call (μ ℓ : Type) [DHashData μ] [DHashData ℓ] [MasterDHashData μ ℓ]
  | findOrAllocateAndLock (vp key a b : ℕ)
  | release (le : ℕ × ℕ)
  | masterFindOrAllocateAndLock (key a : ℕ)
  | releaseMaster (me : ℕ)
  | doEmpty (key : ℕ)
  | resizeMaster (log2 : ℕ)
  | resizeLocal (l log2 : ℕ)
  | doOp (key : ℕ) (mo : Option (MOP μ)) (lo : LOP ℓ) (keepThisLeLocked : Option (ℕ × ℕ))
      (od : OpDirective)
  | doOpData (me : ℕ) (lo : LOP ℓ) (od : OpDirective)
  | doOPAll (fuel : ℕ) (mo : Option (MOP μ)) (lo : LOP ℓ)

def exec (s : MasterDHashTable μ ℓ) : Call μ ℓ → Option (MasterDHashTable μ ℓ)
  | .findOrAllocateAndLock vp key a b => s.localFindOrAllocateAndLock vp key a b
  | .release le => s.release le
  | .masterFindOrAllocateAndLock key a => (s.findOrAllocateAndLock key a).map Prod.snd
  | .releaseMaster me => if s.master.locked me then some (s.unlockMaster me) else none
  | .doEmpty key => s.doEmpty key
  | .resizeMaster log2 => some { s with master := s.master.doResize log2 }
  | .resizeLocal l log2 => some (s.setLocal l ((s.locals l).doResize log2))
  | .doOp key mo lo keep od => (s.doOp key mo lo keep od).map Prod.snd
  | .doOpData me lo od => (s.doOpData me lo od).map Prod.snd
  | .doOPAll fuel mo lo => doOPAll fuel s mo lo

/-- The data given to a call are those of an entry of the table. -/
def Valid (s : MasterDHashTable μ ℓ) : Call μ ℓ → Prop
  | .doOpData me _ _ => s.master.find (getKey (s.master.data me)) = some me
  | _ => True

instance (s : MasterDHashTable μ ℓ) : (call : Call μ ℓ) → Decidable (Valid s call)
  | .doOpData me _ _ => inferInstanceAs (Decidable (_ = some me))
  | .findOrAllocateAndLock .. | .release .. | .masterFindOrAllocateAndLock .. | .releaseMaster ..
  | .doEmpty .. | .resizeMaster .. | .resizeLocal .. | .doOp .. | .doOPAll .. => .isTrue trivial

/-- Calls that return. -/
def calls : Machine (MasterDHashTable μ ℓ) (Call μ ℓ) :=
  ⟨fun s call => (s.exec call).getD s, fun s call => (s.exec call).isSome = true ∧ Valid s call⟩

instance (s : MasterDHashTable μ ℓ) (call : Call μ ℓ) : Decidable (calls.adm s call) :=
  inferInstanceAs (Decidable (_ ∧ _))

/-- The tables that have just been made, with the local table of each processor. -/
def init (numEntries minEntries : ℕ) (localTables : ℕ → Option ℕ) (md : μ) (ld : ℓ) :
    MasterDHashTable μ ℓ :=
  ⟨DHashTable.init numEntries minEntries false md,
    fun _ => DHashTable.init numEntries minEntries false ld, localTables, []⟩

theorem init_placed (numEntries minEntries : ℕ) (localTables : ℕ → Option ℕ) (md : μ) (ld : ℓ) :
    Placed (init numEntries minEntries localTables md ld) := by
  have hnone : ∀ e, ¬ Holds (DHashTable.init numEntries minEntries false md) [] e := by
    rintro e ⟨⟨b, hb⟩ | he, -⟩
    · cases hb
    · cases he
  exact ⟨(init_inv numEntries minEntries false md).ok,
    fun _ => (init_inv numEntries minEntries false ld).ok,
    fun e he => absurd he (hnone e), fun e he => absurd he (hnone e)⟩

theorem alike_doOp {r : OpStatus × MasterDHashTable μ ℓ}
    {keep : Option (ℕ × ℕ)} (h : s.doOp key mo lo keep od = some r) :
    Alike s r.2 := by
  obtain ⟨-, rfl⟩ | ⟨me, -, -, new, -, heffect⟩ := doOp_spec h
  · exact Alike.refl _
  · exact heffect.alike

theorem Placed.exec (h : Placed s) {call : Call μ ℓ} (hexec : s.exec call = some s') :
    Placed s' := by
  cases call with
  | findOrAllocateAndLock vp key a b => exact h.localFindOrAllocateAndLock hexec
  | release le => exact h.alike (alike_release hexec)
  | masterFindOrAllocateAndLock key a =>
    obtain ⟨r, hfind, rfl⟩ := map_eq_some_iff.mp hexec
    exact (h.findOrAllocateAndLock hfind).1
  | releaseMaster me =>
    simp only [MasterDHashTable.exec, Option.ite_none_right_eq_some, some.injEq] at hexec
    obtain ⟨-, rfl⟩ := hexec
    exact h.alike (alike_unlockMaster s me)
  | doEmpty key => exact h.doEmpty hexec
  | resizeMaster log2 =>
    cases hexec
    exact h.resizeMaster log2
  | resizeLocal l log2 =>
    cases hexec
    exact h.resizeLocal l log2
  | doOp key mo lo keep od =>
    obtain ⟨r, hop, rfl⟩ := map_eq_some_iff.mp hexec
    exact h.alike (alike_doOp hop)
  | doOpData me lo od =>
    obtain ⟨r, hop, rfl⟩ := map_eq_some_iff.mp hexec
    obtain ⟨-, new, -, heffect⟩ := doOpData_spec hop
    exact h.alike heffect.alike
  | doOPAll fuel mo lo =>
    obtain ⟨v, hv⟩ := walk_of_opAll hexec
    have hnodup := walk_nodup h.ok (pointer_firstFrom _ _) hv
    exact h.alike (opAll_spec hv hnodup hexec).1

/-! ## The locks and the operations of a call -/

/-- Every entry and every replica that the call has locked is unlocked again. -/
def UnlocksAll (s s' : MasterDHashTable μ ℓ) : Prop :=
  s'.master.locked = s.master.locked ∧ ∀ x, s'.isLocked x = s.isLocked x

/-- No replica has been operated on twice. -/
def AtMostOnce (s s' : MasterDHashTable μ ℓ) : Prop :=
  ∃ new, s'.applied = s.applied ++ new ∧ new.Nodup

/-- `doOp` is not asked to keep a replica locked, and the operation of `doOPAll` does not fail
on an entry with replicas. -/
def Releases (s : MasterDHashTable μ ℓ) : Call μ ℓ → Prop
  | .doOp key _ _ keep .LOCKALL => ∀ me, s.master.find key = some me →
      ∀ le ∈ s.entryReplicas me, some le ≠ keep
  | .doOPAll fuel mo _ => ∀ v, s.master.walk fuel s.master.getFirst = some v → ∀ e ∈ v,
      isEmpty (s.master.data e) = false → fails mo (s.master.data e) = true → s.replicas e = []
  | _ => True

def Call.operates : Call μ ℓ → Bool
  | .doOp .. | .doOpData .. | .doOPAll .. => true
  | _ => false

omit [DHashData μ] [MasterDHashData μ ℓ] in
theorem replica_eq_some (h : s.replica key vp = some le) :
    s.localTables vp = some le.1 ∧ (s.locals le.1).find key = some le.2 := by
  obtain ⟨l, hl, h⟩ := bind_eq_some_iff.mp h
  obtain ⟨x, hx, rfl⟩ := map_eq_some_iff.mp h
  exact ⟨hl, hx⟩

theorem Placed.entryReplicas_nodup (h : Placed s) (hme : Holds s.master [] me) :
    (s.entryReplicas me).Nodup := by
  rw [entryReplicas, targets, List.Nodup, List.pairwise_filterMap]
  refine (VPSet.members_nodup _ _ : (s.replicas me).Nodup).pairwise_of_forall_ne ?_
  intro vp hvp vp' hvp' hne le hle le' hle' heq
  subst heq
  refine hne (h.apart me hme vp hvp vp' hvp' ?_)
  rw [(replica_eq_some hle).1, (replica_eq_some hle').1]

theorem Placed.entryReplicas_disjoint (h : Placed s) {me' : ℕ} (hme : Holds s.master [] me)
    (hme' : Holds s.master [] me') (hne : me ≠ me') :
    (s.entryReplicas me).Disjoint (s.entryReplicas me') := by
  intro le hle hle'
  obtain ⟨vp, -, hvp⟩ := List.mem_filterMap.mp hle
  obtain ⟨vp', -, hvp'⟩ := List.mem_filterMap.mp hle'
  have hkey := ((find_eq_some (h.okLocal _)).mp (replica_eq_some hvp).2).2
  have hkey' := ((find_eq_some (h.okLocal _)).mp (replica_eq_some hvp').2).2
  exact hne (h.ok.unique me me' hme hme' (hkey.symm.trans hkey'))

theorem linked_of_mem_walk [DHashData δ] {t : DHashTable δ} {e : ℕ}
    {p v : List ℕ} (hp : t.Pointer p) (hwalk : t.walk fuel p = some v) (he : e ∈ v) :
    Linked t [] e := by
  obtain ⟨a, b, rfl⟩ := List.append_of_mem he
  obtain ⟨n, q, hq, -⟩ := DHashTable.walk_suffix hp hwalk
  obtain hq | ⟨b', hb'⟩ := hq
  · cases hq
  · exact .inl ⟨b', hb'.subset List.mem_cons_self⟩

theorem Placed.operated_nodup (h : Placed s) {v : List ℕ}
    (hwalk : s.master.walk fuel s.master.getFirst = some v) :
    (v.flatMap (operated mo s)).Nodup := by
  have hpointer : s.master.Pointer s.master.getFirst := pointer_firstFrom _ _
  have hholds : ∀ e ∈ v, ∀ x ∈ operated mo s e, Holds s.master [] e ∧ x ∈ s.entryReplicas e := by
    intro e he x hx
    rw [operated] at hx
    split at hx
    · cases hx
    · rename_i hcond
      rw [Bool.or_eq_true, not_or, Bool.not_eq_true] at hcond
      exact ⟨⟨linked_of_mem_walk hpointer hwalk he, hcond.1⟩, hx⟩
  refine List.nodup_flatMap.mpr ⟨fun e he => ?_, ?_⟩
  · rw [operated]
    split
    · exact List.nodup_nil
    · rename_i hcond
      rw [Bool.or_eq_true, not_or, Bool.not_eq_true] at hcond
      exact h.entryReplicas_nodup ⟨linked_of_mem_walk hpointer hwalk he, hcond.1⟩
  · refine (walk_nodup h.ok hpointer hwalk).pairwise_of_forall_ne ?_
    intro e he e' he' hne x hx hx'
    obtain ⟨hold, hin⟩ := hholds e he x hx
    obtain ⟨hold', hin'⟩ := hholds e' he' x hx'
    exact h.entryReplicas_disjoint hold hold' hne hin hin'

/-- After `doOPAll` the replicas of the entries on which the operation has failed are locked. -/
theorem unlocksAll_doOPAll (h : Placed s) (hexec : s.exec (.doOPAll fuel mo lo) = some s') :
    AtMostOnce s s' ∧ (UnlocksAll s s' ↔ Releases s (.doOPAll fuel mo lo)) := by
  obtain ⟨v, hwalk⟩ := walk_of_opAll hexec
  have hpointer : s.master.Pointer s.master.getFirst := pointer_firstFrom _ _
  obtain ⟨-, hmaster, hlocks, hfree, happlied⟩ :=
    opAll_spec hwalk (walk_nodup h.ok hpointer hwalk) hexec
  refine ⟨⟨_, happlied, h.operated_nodup hwalk⟩, ?_⟩
  -- an entry with processors has a replica
  have hnone : ∀ e, Holds s.master [] e → (s.entryReplicas e = [] ↔ s.replicas e = []) := by
    intro e he
    constructor
    · intro hempty
      refine List.eq_nil_iff_forall_not_mem.mpr fun vp hvp => ?_
      obtain ⟨l, x, htable, hx⟩ := h.replica e he vp hvp
      have hreplica : s.replica (getKey (s.master.data e)) vp = some (l, x) := by
        rw [MasterDHashTable.replica, htable]
        simp [hx]
      have hmem : (l, x) ∈ s.entryReplicas e := List.mem_filterMap.mpr ⟨vp, hvp, hreplica⟩
      rw [hempty] at hmem
      cases hmem
    · intro hempty
      rw [entryReplicas, hempty]
      rfl
  constructor
  · rintro ⟨-, hunlocked⟩ v' hv' e he hempty hfails
    have hvv : v' = v := some.inj (hv'.symm.trans hwalk)
    rw [hvv] at he
    have hholds : Holds s.master [] e := ⟨linked_of_mem_walk hpointer hwalk he, hempty⟩
    refine (hnone e hholds).mp (List.eq_nil_iff_forall_not_mem.mpr fun x hx => ?_)
    have hleft : x ∈ v.flatMap (leftLocked mo s) := by
      refine List.mem_flatMap.mpr ⟨e, he, ?_⟩
      rw [leftLocked, if_pos ⟨hempty, hfails⟩]
      exact hx
    have hlocked := hlocks x
    rw [hunlocked x, hfree x hleft] at hlocked
    simp [hleft] at hlocked
  · intro hreleases
    refine ⟨hmaster, fun x => ?_⟩
    have hnotleft : x ∉ v.flatMap (leftLocked mo s) := by
      intro hx
      obtain ⟨e, he, hx⟩ := List.mem_flatMap.mp hx
      rw [leftLocked] at hx
      split at hx
      · rename_i hcond
        have hvps := hreleases v hwalk e he hcond.1 hcond.2
        have hholds : Holds s.master [] e := ⟨linked_of_mem_walk hpointer hwalk he, hcond.1⟩
        rw [(hnone e hholds).mpr hvps] at hx
        cases hx
      · cases hx
    rw [hlocks x]
    simp [hnotleft]

theorem unlocksAll_doOp {keep : Option (ℕ × ℕ)}
    (h : Placed s) (hexec : s.exec (.doOp key mo lo keep od) = some s') :
    AtMostOnce s s' ∧ (UnlocksAll s s' ↔ Releases s (.doOp key mo lo keep od)) := by
  obtain ⟨r, hop, rfl⟩ := map_eq_some_iff.mp hexec
  obtain ⟨hfind, hsame⟩ | ⟨me, hfind, hfree, new, hnew, heffect⟩ := doOp_spec hop
  · rw [hsame]
    refine ⟨⟨[], (List.append_nil _).symm, List.nodup_nil⟩, fun _ => ?_,
      fun _ => ⟨rfl, fun _ => rfl⟩⟩
    cases od with
    | LOCKALL =>
      intro me hme
      rw [hfind] at hme
      cases hme
    | LOCKONEATATIME => trivial
    | LOCKNONE => trivial
  · have hholds := ((find_eq_some h.ok).mp hfind).1
    refine ⟨⟨new, heffect.applied, ?_⟩, ?_⟩
    · rcases hnew with rfl | rfl
      · exact List.nodup_nil
      · exact h.entryReplicas_nodup hholds
    · cases od with
      | LOCKALL =>
        constructor
        · rintro ⟨-, hunlocked⟩ me' hme' le hle hkeep
          have heq : me' = me := some.inj (hme'.symm.trans hfind)
          rw [heq] at hle
          have hlocked := heffect.locks le
          rw [hunlocked, hfree rfl le hle, if_pos ⟨rfl, hle⟩, hkeep] at hlocked
          simp at hlocked
        · intro hreleases
          refine ⟨heffect.masterLocks, fun x => ?_⟩
          rw [heffect.locks]
          split
          · rename_i hin
            rw [hfree rfl x hin.2]
            exact decide_eq_false (hreleases me hfind x hin.2)
          · rfl
      | LOCKONEATATIME =>
        refine ⟨fun _ => trivial, fun _ => ⟨heffect.masterLocks, fun x => ?_⟩⟩
        rw [heffect.locks, if_neg (by simp)]
      | LOCKNONE =>
        refine ⟨fun _ => trivial, fun _ => ⟨heffect.masterLocks, fun x => ?_⟩⟩
        rw [heffect.locks, if_neg (by simp)]

theorem unlocksAll_doOpData (h : Placed s)
    (hvalid : Valid s (.doOpData me lo od)) (hexec : s.exec (.doOpData me lo od) = some s') :
    AtMostOnce s s' ∧ UnlocksAll s s' := by
  obtain ⟨r, hop, rfl⟩ := map_eq_some_iff.mp hexec
  obtain ⟨hfree, new, hnew, heffect⟩ := doOpData_spec hop
  have hholds := ((find_eq_some h.ok).mp hvalid).1
  refine ⟨⟨new, heffect.applied, ?_⟩, heffect.masterLocks, fun x => ?_⟩
  · rcases hnew with rfl | rfl
    · exact List.nodup_nil
    · exact h.entryReplicas_nodup hholds
  · rw [heffect.locks]
    split
    · rename_i hin
      exact (hfree hin.1 x hin.2).symm
    · rfl

/-- In every table that calls have led to, a call of `doOp` or `doOPAll` that returns has
operated on every replica at most once, and it has unlocked all that it has locked if and
only if it was not asked to keep a replica locked and, in `doOPAll`, the operation on the
master entry has failed on no entry with replicas. -/
theorem run_unlocksAll_iff {numEntries minEntries : ℕ} {localTables : ℕ → Option ℕ} {md : μ}
    {ld : ℓ} {ops : List (Call μ ℓ)} {call : Call μ ℓ}
    (hrun : calls.Run (init numEntries minEntries localTables md ld) ops s)
    (hvalid : Valid s call) (hoperates : call.operates = true) (hexec : s.exec call = some s') :
    AtMostOnce s s' ∧ (UnlocksAll s s' ↔ Releases s call) := by
  have h : Placed s := by
    refine hrun.invariant (I := Placed) (init_placed _ _ _ _ _) ?_
    rintro s call h ⟨hsome, -⟩
    obtain ⟨s', hexec⟩ := Option.isSome_iff_exists.mp hsome
    show Placed ((s.exec call).getD s)
    rw [hexec]
    exact h.exec hexec
  cases call with
  | doOp key mo lo keep od => exact unlocksAll_doOp h hexec
  | doOpData me lo od =>
    obtain ⟨honce, hunlocks⟩ := unlocksAll_doOpData h hvalid hexec
    exact ⟨honce, fun _ => trivial, fun _ => hunlocks⟩
  | doOPAll fuel mo lo => exact unlocksAll_doOPAll h hexec
  | _ => cases hoperates

/-! ## Pages that are dirtied twice -/

section

abbrev PageCall := Call MasterPageDescData LocalPageDescData

/-- One local table for all processors. -/
def startPages : MasterDHashTable MasterPageDescData LocalPageDescData :=
  init 1 1 (fun _ => some 0) ⟨⟨0, true, false⟩, VPSet.init⟩ ⟨0, true, false⟩

/-- A page gets a replica on processor 3, and is made dirty. -/
def dirtied : List PageCall :=
  [.findOrAllocateAndLock 3 4096 100 200, .release (0, 200),
    .doOp 4096 (some .doDirty) .doSetDirty none .LOCKALL]

theorem run_unlocksAll_iff_dirtied : ∃ s s' : MasterDHashTable MasterPageDescData LocalPageDescData,
    calls.Run startPages dirtied s ∧
      s.exec (.doOPAll 2 none .doSetDirty) = some s' ∧ s'.applied = [(0, 200), (0, 200)] ∧
      AtMostOnce s s' ∧ (UnlocksAll s s' ↔ Releases s (.doOPAll 2 none .doSetDirty)) := by
  have hadmits : calls.Admits startPages dirtied := by decide +kernel
  have happlied : ((dirtied.foldl calls.step startPages).exec
      (.doOPAll 2 none .doSetDirty)).map (·.applied) = some [(0, 200), (0, 200)] := by
    decide +kernel
  obtain ⟨s', hexec, hs'⟩ := Option.map_eq_some_iff.mp happlied
  exact ⟨_, s', hadmits.run, hexec, hs', run_unlocksAll_iff hadmits.run trivial rfl hexec⟩

/-- The page is dirty already when `doOPAll` makes all pages dirty, and its replica stays
locked. -/
theorem not_doOPAll_unlocksAll :
    ¬ ∀ (ops : List PageCall) (s s' : MasterDHashTable MasterPageDescData LocalPageDescData)
      (fuel : ℕ) (mo : Option (MOP MasterPageDescData)) (lo : LOP LocalPageDescData),
      calls.Run startPages ops s → s.exec (.doOPAll fuel mo lo) = some s' → UnlocksAll s s' := by
  intro h
  have hadmits : calls.Admits startPages dirtied := by decide +kernel
  have hlocked : ((dirtied.foldl calls.step startPages).exec
      (.doOPAll 2 (some .doDirty) .doSetDirty)).map (·.isLocked (0, 200)) = some true := by
    decide +kernel
  obtain ⟨s', hexec, hs'⟩ := Option.map_eq_some_iff.mp hlocked
  have hunlocked := (h dirtied _ s' 2 (some .doDirty) .doSetDirty hadmits.run hexec).2 (0, 200)
  have hbefore : (dirtied.foldl calls.step startPages).isLocked (0, 200) = false := by
    decide +kernel
  rw [hs', hbefore] at hunlocked
  cases hunlocked

end

end MasterDHashTable

end K42
