import K42.Misc.MasterDHashTable

/-!
# What the calls lock and unlock

Neither locks nor operations change where an entry is found, so the three loops over the
replicas of an entry meet the same ones. What a loop does to the locks is a matter of which
replicas these are.
-/

open Function (update_of_ne update_self)

namespace K42

open DHashData MasterDHashData

/-! ## Tables that differ in locks and in what operations change -/

namespace DHashTable

variable {δ : Type} [DHashData δ]

/-- Every entry is found where it was. -/
structure Alike (t t' : DHashTable δ) : Prop where
  log2 : t'.log2numBuckets = t.log2numBuckets
  buckets : t'.buckets = t.buckets
  live : t'.live = t.live
  key : ∀ e, getKey (t'.data e) = getKey (t.data e)
  empty : ∀ e, isEmpty (t'.data e) = isEmpty (t.data e)

variable {t t' t'' : DHashTable δ}

theorem Alike.refl (t : DHashTable δ) : Alike t t := ⟨rfl, rfl, rfl, fun _ => rfl, fun _ => rfl⟩

section

variable (h : Alike t t')

include h

theorem Alike.trans (h' : Alike t' t'') : Alike t t'' :=
  ⟨h'.log2.trans h.log2, h'.buckets.trans h.buckets, h'.live.trans h.live,
    fun e => (h'.key e).trans (h.key e), fun e => (h'.empty e).trans (h.empty e)⟩

theorem Alike.hash : t'.hash = t.hash := by
  funext key
  rw [DHashTable.hash, DHashTable.hash, h.log2]

theorem Alike.find (key : ℕ) : t'.find key = t.find key := by
  have hmatch : (t'.matchKey · key) = (t.matchKey · key) := by
    funext e
    rw [matchKey, matchKey, h.key, h.empty]
  rw [DHashTable.find, DHashTable.find, h.hash, h.buckets, hmatch]

theorem Alike.firstFrom (left i : ℕ) :
    t'.firstFrom left i = t.firstFrom left i := by
  induction left generalizing i with
  | zero => rfl
  | succ left ih => rw [DHashTable.firstFrom, DHashTable.firstFrom, h.buckets, ih]

theorem Alike.getNext (p : List ℕ) : t'.getNext p = t.getNext p := by
  match p with
  | [] => rfl
  | [e] =>
    simp only [DHashTable.getNext]
    rw [h.hash, h.key, h.log2, h.firstFrom]
  | _ :: _ :: _ => rfl

theorem Alike.walk (fuel : ℕ) (p : List ℕ) : t'.walk fuel p = t.walk fuel p := by
  induction fuel generalizing p with
  | zero => cases p <;> rfl
  | succ fuel ih =>
    cases p with
    | nil => rfl
    | cons e rest => rw [DHashTable.walk, DHashTable.walk, h.getNext, ih]

end

theorem alike_setLock (t : DHashTable δ) (e : ℕ) (b : Bool) : Alike t (t.setLock e b) :=
  ⟨rfl, rfl, rfl, fun _ => rfl, fun _ => rfl⟩

theorem alike_setData {e : ℕ} {d : δ} (hkey : getKey d = getKey (t.data e))
    (hempty : isEmpty d = isEmpty (t.data e)) : Alike t (t.setData e d) := by
  refine ⟨rfl, rfl, rfl, fun x => ?_, fun x => ?_⟩
  · by_cases hx : x = e
    · rw [hx, show (t.setData e d).data e = d from update_self _ _ _, hkey]
    · rw [show (t.setData e d).data x = t.data x from update_of_ne hx _ _]
  · by_cases hx : x = e
    · rw [hx, show (t.setData e d).data e = d from update_self _ _ _, hempty]
    · rw [show (t.setData e d).data x = t.data x from update_of_ne hx _ _]

end DHashTable

namespace MasterDHashTable

variable {μ ℓ : Type} [DHashData ℓ] {s s' s'' : MasterDHashTable μ ℓ}
  {key vp l me : ℕ} {le x : ℕ × ℕ} {vps : List ℕ} {keep : Option (ℕ × ℕ)} {od : OpDirective}
  {lo : LOP ℓ} {stat : OpStatus}

/-- Every replica is found where it was. -/
structure LocalsAlike (s s' : MasterDHashTable μ ℓ) : Prop where
  localTables : s'.localTables = s.localTables
  locals : ∀ l, (s.locals l).Alike (s'.locals l)

theorem LocalsAlike.refl (s : MasterDHashTable μ ℓ) : LocalsAlike s s :=
  ⟨rfl, fun _ => DHashTable.Alike.refl _⟩

theorem LocalsAlike.trans (h : LocalsAlike s s') (h' : LocalsAlike s' s'') : LocalsAlike s s'' :=
  ⟨h'.localTables.trans h.localTables, fun l => (h.locals l).trans (h'.locals l)⟩

theorem LocalsAlike.replica (h : LocalsAlike s s') (key vp : ℕ) :
    s'.replica key vp = s.replica key vp := by
  rw [MasterDHashTable.replica, MasterDHashTable.replica, h.localTables]
  refine congrArg (Option.bind _) (funext fun l => ?_)
  rw [(h.locals l).find]

/-- The replicas of a key on a list of processors. -/
def targets (s : MasterDHashTable μ ℓ) (key : ℕ) (vps : List ℕ) : List (ℕ × ℕ) :=
  vps.filterMap (s.replica key)

theorem LocalsAlike.targets (h : LocalsAlike s s') (key : ℕ) (vps : List ℕ) :
    s'.targets key vps = s.targets key vps := by
  refine congrArg (List.filterMap · vps) (funext fun vp => ?_)
  exact h.replica key vp

theorem targets_cons (hle : s.replica key vp = some le) :
    s.targets key (vp :: vps) = le :: s.targets key vps := by
  rw [targets, List.filterMap_cons_some hle]
  rfl

/-! ## One lock -/

theorem localsAlike_setLocal {t : DHashTable ℓ} (h : (s.locals l).Alike t) :
    LocalsAlike s (s.setLocal l t) := by
  refine ⟨rfl, fun l' => ?_⟩
  by_cases hl : l' = l
  · rw [hl, show (s.setLocal l t).locals l = t from update_self _ _ _]
    exact h
  · rw [show (s.setLocal l t).locals l' = s.locals l' from update_of_ne hl _ _]
    exact DHashTable.Alike.refl _

omit [DHashData ℓ] in
theorem isLocked_setLock (b : Bool) :
    (s.setLocal le.1 ((s.locals le.1).setLock le.2 b)).isLocked x =
      if x = le then b else s.isLocked x := by
  obtain ⟨l, e⟩ := le
  obtain ⟨l', e'⟩ := x
  simp only [isLocked, setLocal, DHashTable.setLock, Prod.mk.injEq]
  by_cases hl : l' = l
  · subst hl
    by_cases he : e' = e
    · simp [he]
    · simp [he]
  · simp [hl]

theorem isLocked_apply (lo : LOP ℓ) (le x : ℕ × ℕ) :
    (s.apply lo le).2.isLocked x = s.isLocked x := by
  simp only [apply, isLocked, setLocal]
  by_cases hl : x.1 = le.1
  · rw [hl, update_self]
    rfl
  · rw [update_of_ne hl]

omit [DHashData ℓ] in
theorem lock_eq_some (h : s.lock le = some s') : s.isLocked le = false ∧
    s' = s.setLocal le.1 ((s.locals le.1).setLock le.2 true) := by
  simp only [lock, Option.ite_none_left_eq_some, Option.some.injEq, Bool.not_eq_true] at h
  exact ⟨h.1, h.2.symm⟩

theorem localsAlike_lock (h : s.lock le = some s') : LocalsAlike s s' := by
  rw [(lock_eq_some h).2]
  exact localsAlike_setLocal (DHashTable.alike_setLock _ _ _)

theorem localsAlike_unlock (s : MasterDHashTable μ ℓ) (le : ℕ × ℕ) : LocalsAlike s (s.unlock le) :=
  localsAlike_setLocal (DHashTable.alike_setLock _ _ _)

theorem localsAlike_apply (s : MasterDHashTable μ ℓ) (lo : LOP ℓ) (le : ℕ × ℕ) :
    LocalsAlike s (s.apply lo le).2 := by
  have h := localsAlike_setLocal (s := s) (DHashTable.alike_setData (t := s.locals le.1) (e := le.2)
    (lo.getKey_run _) (lo.isEmpty_run _))
  exact ⟨h.localTables, h.locals⟩

/-! ## The loops over the replicas -/

/-- What a part of a call does: the locks of the replicas afterwards, and which operations
have been applied. -/
structure Effect (s s' : MasterDHashTable μ ℓ) (locked : ℕ × ℕ → Bool) (new : List (ℕ × ℕ)) :
    Prop where
  alike : LocalsAlike s s'
  locks : ∀ x, s'.isLocked x = locked x
  applied : s'.applied = s.applied ++ new

theorem Effect.refl (s : MasterDHashTable μ ℓ) : Effect s s s.isLocked [] :=
  ⟨LocalsAlike.refl s, fun _ => rfl, (List.append_nil _).symm⟩

theorem lockReplicas_spec (h : lockReplicas key vps s = some s') :
    Effect s s' (fun x => s.isLocked x || decide (x ∈ s.targets key vps)) [] ∧
      (∀ x ∈ s.targets key vps, s.isLocked x = false) ∧
      (s.targets key vps).length = vps.length ∧ s'.master = s.master := by
  induction vps generalizing s with
  | nil =>
    have hs := Option.some.inj h
    subst s'
    refine ⟨⟨LocalsAlike.refl s, fun x => ?_, (List.append_nil _).symm⟩, ?_, rfl, rfl⟩
    · simp [targets]
    · exact fun x hx => by cases hx
  | cons vp vps ih =>
    rw [lockReplicas] at h
    split at h
    · cases h
    · rename_i le hle
      obtain ⟨s₁, hlock, hrest⟩ := Option.bind_eq_some_iff.mp h
      obtain ⟨heffect, hfree, hlength, hmaster⟩ := ih hrest
      have halike := localsAlike_lock hlock
      obtain ⟨hunlocked, rfl⟩ := lock_eq_some hlock
      rw [halike.targets] at heffect hfree hlength
      rw [targets_cons hle]
      have hlocks : ∀ x, (s.setLocal le.1 ((s.locals le.1).setLock le.2 true)).isLocked x =
          if x = le then true else s.isLocked x := fun _ => isLocked_setLock true
      refine ⟨⟨halike.trans heffect.alike, fun x => ?_, heffect.applied⟩, fun x hx => ?_, ?_,
        hmaster⟩
      · rw [heffect.locks, hlocks]
        by_cases hx : x = le
        · simp [hx]
        · simp [hx]
      · rcases List.mem_cons.mp hx with rfl | hx
        · exact hunlocked
        · have hx' := hfree x hx
          rw [hlocks] at hx'
          split at hx'
          · cases hx'
          · exact hx'
      · rw [List.length_cons, hlength, List.length_cons]

theorem unlockReplicas_spec (h : unlockReplicas key keep vps s = some s') :
    Effect s s'
        (fun x => if x ∈ s.targets key vps ∧ some x ≠ keep then false else s.isLocked x) [] ∧
      s'.master = s.master := by
  induction vps generalizing s with
  | nil =>
    have hs := Option.some.inj h
    subst s'
    exact ⟨⟨LocalsAlike.refl s, fun x => by simp [targets], (List.append_nil _).symm⟩, rfl⟩
  | cons vp vps ih =>
    rw [unlockReplicas] at h
    split at h
    · cases h
    · rename_i le hle
      rw [Option.ite_none_right_eq_some] at h
      rw [targets_cons hle]
      by_cases hkeep : some le = keep
      · rw [if_pos hkeep] at h
        obtain ⟨heffect, hmaster⟩ := ih h.2
        refine ⟨⟨heffect.alike, fun x => ?_, heffect.applied⟩, hmaster⟩
        rw [heffect.locks]
        by_cases hx : x = le
        · simp [hx, hkeep]
        · simp [hx]
      · rw [if_neg hkeep] at h
        obtain ⟨heffect, hmaster⟩ := ih h.2
        have halike := localsAlike_unlock s le
        rw [halike.targets] at heffect
        refine ⟨⟨halike.trans heffect.alike, fun x => ?_, heffect.applied⟩, hmaster⟩
        rw [heffect.locks, unlock, isLocked_setLock]
        by_cases hx : x = le
        · simp [hx, hkeep]
        · simp [hx]

variable {r : OpStatus × MasterDHashTable μ ℓ} {new : List (ℕ × ℕ)}

theorem localDoOp_spec (h : s.localDoOp key lo od vp = some r) :
    ∃ le, s.replica key vp = some le ∧ Effect s r.2 s.isLocked [le] ∧ r.2.master = s.master := by
  rw [localDoOp] at h
  split at h
  · cases h
  · rename_i le hle
    refine ⟨le, hle, ?_⟩
    split at h
    · obtain ⟨s₁, hlock, hr⟩ := Option.map_eq_some_iff.mp h
      subst hr
      have halike := localsAlike_lock hlock
      obtain ⟨hunlocked, rfl⟩ := lock_eq_some hlock
      refine ⟨⟨(halike.trans (localsAlike_apply _ lo le)).trans (localsAlike_unlock _ le),
        fun x => ?_, rfl⟩, rfl⟩
      show (unlock _ le).isLocked x = _
      rw [unlock, isLocked_setLock, isLocked_apply, isLocked_setLock]
      by_cases hx : x = le
      · rw [if_pos hx, hx, hunlocked]
      · rw [if_neg hx, if_neg hx]
    · cases h
      exact ⟨⟨localsAlike_apply s lo le, isLocked_apply lo le, rfl⟩, rfl⟩

theorem lockedDoLocalOPs_spec (h : lockedDoLocalOPs key lo od vps stat s = some r) :
    Effect s r.2 s.isLocked (s.targets key vps) ∧ r.2.master = s.master := by
  induction vps generalizing s stat with
  | nil =>
    cases h
    exact ⟨Effect.refl s, rfl⟩
  | cons vp vps ih =>
    obtain ⟨r₁, hop, hrest⟩ := Option.bind_eq_some_iff.mp h
    obtain ⟨le, hle, hone, hmaster₁⟩ := localDoOp_spec hop
    obtain ⟨hall, hmaster⟩ := ih hrest
    rw [hone.alike.targets] at hall
    rw [targets_cons hle]
    refine ⟨⟨hone.alike.trans hall.alike, fun x => ?_, ?_⟩, hmaster.trans hmaster₁⟩
    · rw [hall.locks, hone.locks]
    · rw [hall.applied, hone.applied, List.append_assoc]
      rfl

/-! ## Operations on an entry -/

variable [DHashData μ] [MasterDHashData μ ℓ] {mo : Option (MOP μ)} {rest : List ℕ}

/-- The replicas of a master entry. -/
def entryReplicas (s : MasterDHashTable μ ℓ) (me : ℕ) : List (ℕ × ℕ) :=
  s.targets (getKey (s.master.data me)) (s.replicas me)

/-- The operation on the master entry fails. -/
def fails : Option (MOP μ) → μ → Bool
  | none, _ => false
  | some mo, d => (mo.run d).1 = .FAILURE

/-- Every entry and every replica is found where it was. -/
structure Alike (s s' : MasterDHashTable μ ℓ) : Prop where
  locals : LocalsAlike s s'
  master : s.master.Alike s'.master
  replicaVPs : ∀ e, replicaVPs (s'.master.data e) = replicaVPs (s.master.data e)

theorem Alike.refl (s : MasterDHashTable μ ℓ) : Alike s s :=
  ⟨LocalsAlike.refl s, DHashTable.Alike.refl _, fun _ => rfl⟩

theorem Alike.trans (h : Alike s s') (h' : Alike s' s'') : Alike s s'' :=
  ⟨h.locals.trans h'.locals, h.master.trans h'.master,
    fun e => (h'.replicaVPs e).trans (h.replicaVPs e)⟩

theorem LocalsAlike.alike (h : LocalsAlike s s') (hmaster : s'.master = s.master) : Alike s s' := by
  refine ⟨h, ?_, fun e => ?_⟩
  · rw [hmaster]
    exact DHashTable.Alike.refl _
  · rw [hmaster]

theorem Alike.replicas (h : Alike s s') (me : ℕ) : s'.replicas me = s.replicas me := by
  rw [MasterDHashTable.replicas, MasterDHashTable.replicas, h.replicaVPs]

theorem Alike.entryReplicas (h : Alike s s') (me : ℕ) :
    s'.entryReplicas me = s.entryReplicas me := by
  rw [MasterDHashTable.entryReplicas, MasterDHashTable.entryReplicas, h.master.key, h.replicas,
    h.locals.targets]

/-- What a call does that leaves the locks of the master table alone, and the data of all
master entries but `me`. -/
structure EntryEffect (me : ℕ) (s s' : MasterDHashTable μ ℓ) (locked : ℕ × ℕ → Bool)
    (new : List (ℕ × ℕ)) : Prop where
  alike : Alike s s'
  masterLocks : s'.master.locked = s.master.locked
  data : ∀ e, e ≠ me → s'.master.data e = s.master.data e
  locks : ∀ x, s'.isLocked x = locked x
  applied : s'.applied = s.applied ++ new

theorem Effect.entry {locked : ℕ × ℕ → Bool} (h : Effect s s' locked new)
    (hmaster : s'.master = s.master) : EntryEffect me s s' locked new := by
  refine ⟨h.alike.alike hmaster, ?_, fun e _ => ?_, h.locks, h.applied⟩
  · rw [hmaster]
  · rw [hmaster]

theorem EntryEffect.trans {locked locked' : ℕ × ℕ → Bool} {new' : List (ℕ × ℕ)}
    (h : EntryEffect me s s' locked new) (h' : EntryEffect me s' s'' locked' new') :
    EntryEffect me s s'' locked' (new ++ new') := by
  refine ⟨h.alike.trans h'.alike, h'.masterLocks.trans h.masterLocks, fun e he => ?_, h'.locks, ?_⟩
  · rw [h'.data e he, h.data e he]
  · rw [h'.applied, h.applied, List.append_assoc]

theorem EntryEffect.congr {locked locked' : ℕ × ℕ → Bool}
    (h : EntryEffect me s s' locked new) (hlocked : ∀ x, locked x = locked' x) :
    EntryEffect me s s' locked' new :=
  { h with locks := fun x => (h.locks x).trans (hlocked x) }

theorem applyMaster_spec (s : MasterDHashTable μ ℓ) (mo : Option (MOP μ)) (me : ℕ) :
    EntryEffect me s (s.applyMaster mo me).2 s.isLocked [] ∧
      ((s.applyMaster mo me).1 = .FAILURE ↔ fails mo (s.master.data me) = true) := by
  cases mo with
  | none =>
    refine ⟨(Effect.refl s).entry rfl, ?_⟩
    simp [applyMaster, fails]
  | some mo =>
    refine ⟨⟨⟨⟨rfl, fun _ => DHashTable.Alike.refl _⟩, ?_, fun e => ?_⟩, rfl, fun e he => ?_,
      fun _ => rfl, (List.append_nil _).symm⟩, ?_⟩
    · exact DHashTable.alike_setData (mo.getKey_run _) (mo.isEmpty_run _)
    · show replicaVPs (Function.update s.master.data me _ e) = _
      by_cases he : e = me
      · rw [he, update_self]
        exact mo.replicaVPs_run _
      · rw [update_of_ne he]
    · exact update_of_ne he _ _
    · simp [applyMaster, fails]

theorem localOps_spec (h : s.localOps key me lo od = some r) :
    EntryEffect me s r.2 s.isLocked (s.targets key (s.replicas me)) := by
  obtain ⟨r₁, hops, rfl⟩ := Option.map_eq_some_iff.mp h
  obtain ⟨heffect, hmaster⟩ := lockedDoLocalOPs_spec hops
  exact heffect.entry hmaster

theorem lockAllReplicas_spec (h : s.lockAllReplicas me = some s') :
    EntryEffect me s s' (fun x => s.isLocked x || decide (x ∈ s.entryReplicas me)) [] ∧
      (∀ x ∈ s.entryReplicas me, s.isLocked x = false) ∧
      (s.entryReplicas me).length = (s.replicas me).length ∧ s'.master = s.master := by
  obtain ⟨heffect, hfree, hlength, hmaster⟩ := lockReplicas_spec h
  exact ⟨heffect.entry hmaster, hfree, hlength, hmaster⟩

theorem unlockAllReplicas_spec (h : s.unlockAllReplicas me keep = some s') :
    EntryEffect me s s'
      (fun x => if x ∈ s.entryReplicas me ∧ some x ≠ keep then false else s.isLocked x) [] := by
  obtain ⟨heffect, hmaster⟩ := unlockReplicas_spec h
  exact heffect.entry hmaster

/-- Between locking the master entry and unlocking it, `doOp` locks and unlocks the replicas,
and operates on all of them or on none. -/
theorem doOpLocked_spec (hkey : key = getKey (s.master.data me))
    (h : s.doOpLocked key mo lo keep od me = some r) :
    (od = .LOCKALL → ∀ x ∈ s.entryReplicas me, s.isLocked x = false) ∧
      ∃ new, (new = [] ∨ new = s.entryReplicas me) ∧ EntryEffect me s r.2
        (fun x => if od = .LOCKALL ∧ x ∈ s.entryReplicas me then decide (some x = keep)
          else s.isLocked x) new := by
  obtain ⟨s₁, hlock, h⟩ := Option.bind_eq_some_iff.mp h
  obtain ⟨r₂, hops, h⟩ := Option.bind_eq_some_iff.mp h
  obtain ⟨s₃, hunlock, rfl⟩ := Option.map_eq_some_iff.mp h
  -- the operations, on the entry and then on its replicas
  have hmiddle : ∃ new, (new = [] ∨ new = s₁.entryReplicas me) ∧
      EntryEffect me s₁ r₂.2 s₁.isLocked new := by
    obtain ⟨hmaster, -⟩ := applyMaster_spec s₁ mo me
    split at hops
    · cases hops
      exact ⟨[], .inl rfl, hmaster⟩
    · have hlocal := localOps_spec hops
      refine ⟨_, .inr ?_, (hmaster.trans hlocal).congr hmaster.locks⟩
      have hkey₁ : key = getKey ((s₁.applyMaster mo me).2.master.data me) := by
        rw [hmaster.alike.master.key]
        split at hlock
        · rw [(lockAllReplicas_spec hlock).2.2.2, hkey]
        · cases hlock
          exact hkey
      rw [hkey₁]
      exact hmaster.alike.entryReplicas me
  obtain ⟨new, hnew, hops⟩ := hmiddle
  by_cases hod : od = .LOCKALL
  · rw [if_pos hod] at hlock hunlock
    obtain ⟨hbefore, hfree, -, -⟩ := lockAllReplicas_spec hlock
    have hafter := unlockAllReplicas_spec hunlock
    rw [hops.alike.entryReplicas, hbefore.alike.entryReplicas] at hafter
    rw [hbefore.alike.entryReplicas] at hnew
    refine ⟨fun _ => hfree, new, hnew, ?_⟩
    have hall := (hbefore.trans hops).trans hafter
    rw [List.nil_append, List.append_nil] at hall
    refine hall.congr fun x => ?_
    rw [hops.locks, hbefore.locks]
    by_cases hx : x ∈ s.entryReplicas me
    · simp only [hx, hod, hfree x hx]
      by_cases hkeep : some x = keep <;> simp [hkeep]
    · simp [hx]
  · rw [if_neg hod] at hlock hunlock
    cases hlock
    cases hunlock
    refine ⟨fun h => absurd h hod, new, hnew, hops.congr fun x => ?_⟩
    rw [if_neg fun h => hod h.1]

theorem EntryEffect.locked {s₁ s₂ : MasterDHashTable μ ℓ} {locked : ℕ × ℕ → Bool}
    (hlock : s.lockMaster me = some s₁) (h : EntryEffect me s₁ s₂ locked new) :
    EntryEffect me s (s₂.unlockMaster me) locked new := by
  simp only [lockMaster, Option.ite_none_left_eq_some, Option.some.injEq, Bool.not_eq_true] at hlock
  obtain ⟨hfree, rfl⟩ := hlock
  refine ⟨⟨⟨h.alike.locals.localTables, h.alike.locals.locals⟩, ?_, h.alike.replicaVPs⟩, ?_, h.data,
    h.locks, h.applied⟩
  · exact ((DHashTable.alike_setLock _ _ _).trans h.alike.master).trans
      (DHashTable.alike_setLock _ _ _)
  · show Function.update s₂.master.locked me false = _
    rw [h.masterLocks]
    funext x
    by_cases hx : x = me
    · rw [hx, update_self, hfree]
    · rw [update_of_ne hx]
      exact update_of_ne hx _ _

/-- What `doOPAll` does with one entry: if the operation on it fails its replicas stay locked. -/
theorem opEntry_spec (h : s.opEntry mo lo me = some s') :
    (isEmpty (s.master.data me) = false → (∀ x ∈ s.entryReplicas me, s.isLocked x = false) ∧
      (s.entryReplicas me).length = (s.replicas me).length) ∧
    EntryEffect me s s'
      (fun x => s.isLocked x || (decide (x ∈ s.entryReplicas me) &&
        (!isEmpty (s.master.data me) && fails mo (s.master.data me))))
      (if isEmpty (s.master.data me) || fails mo (s.master.data me) then []
        else s.entryReplicas me) := by
  obtain ⟨s₁, hlock, h⟩ := Option.bind_eq_some_iff.mp h
  have hsame : s₁.isLocked = s.isLocked ∧ s₁.entryReplicas me = s.entryReplicas me ∧
      s₁.replicas me = s.replicas me ∧ s₁.master.data = s.master.data := by
    simp only [lockMaster, Option.ite_none_left_eq_some, Option.some.injEq] at hlock
    obtain ⟨-, rfl⟩ := hlock
    exact ⟨rfl, rfl, rfl, rfl⟩
  obtain ⟨hlocks, htargets, hvps, hdata⟩ := hsame
  rw [hdata] at h
  rw [← hlocks, ← htargets, ← hvps]
  cases hempty : isEmpty (s.master.data me) with
  | true =>
    rw [if_pos hempty] at h
    cases h
    refine ⟨nofun, ?_⟩
    refine (((Effect.refl s₁).entry rfl).locked hlock).congr fun x => ?_
    simp
  | false =>
    rw [if_neg (by rw [hempty]; exact Bool.false_ne_true)] at h
    obtain ⟨s₂, hreplicas, h⟩ := Option.bind_eq_some_iff.mp h
    obtain ⟨hbefore, hfree, hlength, hmaster₂⟩ := lockAllReplicas_spec hreplicas
    refine ⟨fun _ => ⟨hfree, hlength⟩, ?_⟩
    obtain ⟨hmaster, hfails⟩ := applyMaster_spec s₂ mo me
    rw [hmaster₂, hdata] at hfails
    cases hfail : fails mo (s.master.data me) with
    | true =>
      rw [if_pos (hfails.mpr hfail)] at h
      cases h
      have hall := (hbefore.trans hmaster).locked hlock
      refine hall.congr fun x => ?_
      rw [hbefore.locks]
      simp
    | false =>
      rw [if_neg (by rw [hfails, hfail]; exact Bool.false_ne_true)] at h
      obtain ⟨r, hops, h⟩ := Option.bind_eq_some_iff.mp h
      obtain ⟨s₃, hunlock, rfl⟩ := Option.map_eq_some_iff.mp h
      have hlocal := localOps_spec hops
      have hafter := unlockAllReplicas_spec hunlock
      rw [hlocal.alike.entryReplicas, hmaster.alike.entryReplicas,
        hbefore.alike.entryReplicas] at hafter
      have hnew : (s₂.applyMaster mo me).2.targets
          (getKey ((s₂.applyMaster mo me).2.master.data me))
          ((s₂.applyMaster mo me).2.replicas me) = s₁.entryReplicas me := by
        rw [← hbefore.alike.entryReplicas, ← hmaster.alike.entryReplicas]
        rfl
      rw [hnew] at hlocal
      have hall := (((hbefore.trans hmaster).trans hlocal).trans hafter).locked hlock
      rw [List.nil_append, List.nil_append, List.append_nil] at hall
      refine hall.congr fun x => ?_
      rw [hlocal.locks, hmaster.locks, hbefore.locks]
      by_cases hx : x ∈ s₁.entryReplicas me
      · simp [hx, hfree x hx]
      · simp [hx]

end MasterDHashTable

end K42
