import K42.Misc.MasterDHashTableLocks

/-!
# Every lock is released, except by `doOPAll` after a failure

Where the replicas of the entries are placed is an invariant of all calls. The loop of
`doOPAll` goes through a table whose chains do not change, so it meets no entry twice if it
ends. Its replicas are therefore operated on at most once. When the operation on the
master entry fails, `doOp` unlocks the replicas, and `doOPAll` does not.
-/

namespace K42

open DHashData MasterDHashData DHash

/-! ## Going through a table -/

namespace DHashTable

variable {δ : Type} [DHashData δ] {t : DHashTable δ} {e key fuel fuel' : ℕ} {p p' : List ℕ}

/-- A pointer to an entry, or null. -/
def Pointer (t : DHashTable δ) (p : List ℕ) : Prop := p = [] ∨ ∃ b, p <:+ t.buckets b

omit [DHashData δ] in
theorem pointer_firstFrom (left i : ℕ) : t.Pointer (t.firstFrom left i) := by
  induction left generalizing i with
  | zero => exact .inl rfl
  | succ left ih =>
    rw [firstFrom]
    split
    · exact ih (i + 1)
    · exact .inr ⟨i, List.suffix_rfl⟩

omit [DHashData δ] in
theorem Pointer.tail (h : t.Pointer (e :: p)) : t.Pointer p := by
  obtain h | ⟨b, hb⟩ := h
  · cases h
  · exact .inr ⟨b, (List.suffix_cons e p).trans hb⟩

theorem Pointer.getNext (h : t.Pointer p) : t.Pointer (t.getNext p) := by
  match p, h with
  | [], h => exact h
  | [e], _ => exact pointer_firstFrom _ _
  | _ :: _ :: _, h => exact h.tail

theorem Pointer.eq_of_head (hok : Ok t []) (h : t.Pointer (e :: p)) (h' : t.Pointer (e :: p')) :
    p = p' := by
  obtain h | ⟨b, hb⟩ := h
  · cases h
  · obtain h' | ⟨b', hb'⟩ := h'
    · cases h'
    · have hbb : b = b' :=
        hok.disjoint b b' e (hb.subset List.mem_cons_self) (hb'.subset List.mem_cons_self)
      subst hbb
      have hnodup : (e :: p).Nodup := (hok.nodup b).sublist hb.sublist
      have hnodup' : (e :: p').Nodup := (hok.nodup b).sublist hb'.sublist
      rcases List.suffix_or_suffix_of_suffix hb hb' with hsuffix | hsuffix
      · rcases List.suffix_cons_iff.mp hsuffix with heq | hin
        · exact (List.cons.inj heq).2
        · exact absurd (hin.subset List.mem_cons_self) (List.nodup_cons.mp hnodup').1
      · rcases List.suffix_cons_iff.mp hsuffix with heq | hin
        · exact (List.cons.inj heq).2.symm
        · exact absurd (hin.subset List.mem_cons_self) (List.nodup_cons.mp hnodup).1

theorem walk_cons {v : List ℕ} (h : t.walk fuel (e :: p) = some v) : ∃ n v', fuel = n + 1 ∧
    v = e :: v' ∧ t.walk n (t.getNext (e :: p)) = some v' := by
  cases fuel with
  | zero => cases h
  | succ n =>
    obtain ⟨v', hv', rfl⟩ := Option.map_eq_some_iff.mp h
    exact ⟨n, v', rfl, rfl, hv'⟩

theorem walk_unique {v v' : List ℕ} (h : t.walk fuel p = some v) (h' : t.walk fuel' p = some v') :
    v = v' := by
  induction fuel generalizing p v fuel' v' with
  | zero =>
    cases p with
    | nil =>
      cases h
      cases fuel' <;> cases h' <;> rfl
    | cons e p => cases h
  | succ fuel ih =>
    cases p with
    | nil =>
      cases h
      cases fuel' <;> cases h' <;> rfl
    | cons e p =>
      obtain ⟨n, w, hn, rfl, hw⟩ := walk_cons h
      obtain ⟨n', w', -, rfl, hw'⟩ := walk_cons h'
      cases hn
      rw [ih hw hw']

theorem walk_suffix {a b : List ℕ} (hp : t.Pointer p) (h : t.walk fuel p = some (a ++ e :: b)) :
    ∃ n q, t.Pointer (e :: q) ∧ t.walk n (e :: q) = some (e :: b) := by
  induction a generalizing fuel p with
  | nil =>
    cases p with
    | nil => cases fuel <;> cases h
    | cons x p =>
      obtain ⟨n, v', rfl, hv, -⟩ := walk_cons h
      obtain ⟨rfl, rfl⟩ := List.cons.inj hv
      exact ⟨n + 1, p, hp, h⟩
  | cons x a ih =>
    cases p with
    | nil => cases fuel <;> cases h
    | cons y p =>
      obtain ⟨n, v', rfl, hv, hrest⟩ := walk_cons h
      obtain ⟨rfl, rfl⟩ := List.cons.inj hv
      exact ih hp.getNext hrest

/-- A loop that ends meets no entry twice: from the second time on it would go on as from the
first. -/
theorem walk_nodup (hok : Ok t []) {v : List ℕ} (hp : t.Pointer p) (h : t.walk fuel p = some v) :
    v.Nodup := by
  induction fuel generalizing p v with
  | zero =>
    cases p with
    | nil =>
      cases h
      exact List.nodup_nil
    | cons e p => cases h
  | succ fuel ih =>
    cases p with
    | nil =>
      cases h
      exact List.nodup_nil
    | cons e p =>
      obtain ⟨n, v', hn, rfl, hrest⟩ := walk_cons h
      cases hn
      refine List.nodup_cons.mpr ⟨fun hmem => ?_, ih hp.getNext hrest⟩
      obtain ⟨a, b, rfl⟩ := List.append_of_mem hmem
      obtain ⟨m, q, hq, hwalk⟩ := walk_suffix hp.getNext hrest
      rw [← hp.eq_of_head hok hq] at hwalk
      have hlength := congrArg List.length (walk_unique h hwalk)
      simp only [List.length_cons, List.length_append] at hlength
      omega

theorem find_eq_some (hok : Ok t []) :
    t.find key = some e ↔ Holds t [] e ∧ getKey (t.data e) = key := by
  constructor
  · intro h
    have hmatch : t.matchKey e key = true := List.find?_some (p := (t.matchKey · key)) h
    obtain ⟨hempty, hkey⟩ := (matchKey_iff t e key).mp hmatch
    exact ⟨⟨.inl ⟨_, List.mem_of_find?_eq_some h⟩, hempty⟩, hkey.symm⟩
  · rintro ⟨hholds, hkey⟩
    obtain ⟨b, hb⟩ := hholds.1.resolve_right List.not_mem_nil
    have hhome := hok.home b e hb hholds.2
    rw [hkey] at hhome
    subst hhome
    cases hfind : t.find key with
    | none =>
      have hnone := List.find?_eq_none.mp hfind e hb
      exact absurd ((matchKey_iff t e key).mpr ⟨hholds.2, hkey.symm⟩) hnone
    | some x =>
      have hmatch : t.matchKey x key = true := List.find?_some (p := (t.matchKey · key)) hfind
      obtain ⟨hempty, hkey'⟩ := (matchKey_iff t x key).mp hmatch
      have hx : Holds t [] x := ⟨.inl ⟨_, List.mem_of_find?_eq_some hfind⟩, hempty⟩
      rw [hok.unique x e hx hholds (hkey'.symm.trans hkey.symm)]

/-! ## Tables in which every entry is found where it was -/

variable {t' : DHashTable δ} {a : ℕ}

theorem Alike.holds (h : t.Alike t') (e : ℕ) : Holds t' [] e ↔ Holds t [] e := by
  rw [Holds, Holds, Linked, Linked, h.buckets, h.empty]

theorem ok_of_data (hok : Ok t []) (hlog2 : t'.log2numBuckets = t.log2numBuckets)
    (hbuckets : t'.buckets = t.buckets) (hlive : t'.live = t.live)
    (hdata : ∀ e, isEmpty (t'.data e) = false →
      isEmpty (t.data e) = false ∧ getKey (t'.data e) = getKey (t.data e)) : Ok t' [] := by
  have hholds : ∀ e, Holds t' [] e → Holds t [] e := by
    intro e he
    rw [Holds, Linked, hbuckets] at he
    exact ⟨he.1, (hdata e he.2).1⟩
  refine ⟨?_, ?_, ?_, List.nodup_nil, fun _ _ hx => (List.not_mem_nil hx).elim, ?_, ?_, ?_⟩
  · rw [hlog2, hbuckets]
    exact hok.bounded
  · rw [hbuckets]
    exact hok.nodup
  · rw [hbuckets]
    exact hok.disjoint
  · intro e he
    rw [hlive]
    rw [Linked, hbuckets] at he
    exact hok.live e he
  · intro b e he hempty
    rw [hbuckets] at he
    rw [(hdata e hempty).2, DHashTable.hash, hlog2]
    exact hok.home b e he (hdata e hempty).1
  · intro e e' he he' hkey
    rw [(hdata e he.2).2, (hdata e' he'.2).2] at hkey
    exact hok.unique e e' (hholds e he) (hholds e' he') hkey

theorem Alike.ok (h : t.Alike t') (hok : Ok t []) : Ok t' [] :=
  ok_of_data hok h.log2 h.buckets h.live fun e hempty => ⟨h.empty e ▸ hempty, h.key e⟩

theorem find_congr (hok : Ok t []) (hok' : Ok t' []) (hholds : ∀ e, Holds t' [] e ↔ Holds t [] e)
    (hdata : t'.data = t.data) (key : ℕ) : t'.find key = t.find key := by
  ext e
  rw [find_eq_some hok, find_eq_some hok', hholds, hdata]

theorem foldl_rehash_spec {rest : List ℕ} (hok : Ok t rest) :
    Ok (rest.foldl rehash t) [] ∧ (∀ e, Holds (rest.foldl rehash t) [] e ↔ Holds t rest e) ∧
      (rest.foldl rehash t).data = t.data := by
  induction rest generalizing t with
  | nil => exact ⟨hok, fun _ => Iff.rfl, rfl⟩
  | cons e rest ih =>
    obtain ⟨hmoved, hholds, hdata⟩ := hok.rehash
    obtain ⟨hok', hholds', hdata'⟩ := ih hmoved
    exact ⟨hok', fun x => (hholds' x).trans (hholds x), hdata'.trans hdata⟩

theorem doResize_spec (hok : Ok t []) (log2 : ℕ) :
    Ok (t.doResize log2) [] ∧ (∀ e, Holds (t.doResize log2) [] e ↔ Holds t [] e) ∧
      (t.doResize log2).data = t.data ∧ ∀ key, (t.doResize log2).find key = t.find key := by
  obtain ⟨hnew, hholds⟩ := hok.newBuckets log2
  obtain ⟨hok', hholds', hdata⟩ := foldl_rehash_spec hnew
  have hall := fun e => (hholds' e).trans (hholds e)
  exact ⟨hok', hall, hdata, find_congr hok hok' hall hdata⟩

/-- A new entry with a key that no other has. -/
structure Inserts (t t' : DHashTable δ) (e key : ℕ) : Prop where
  log2 : t'.log2numBuckets = t.log2numBuckets
  buckets : t'.buckets = Function.update t.buckets (t.hash key) (e :: t.buckets (t.hash key))
  live : t'.live = insert e t.live
  data : ∀ x, x ≠ e → t'.data x = t.data x
  key : getKey (t'.data e) = key
  empty : isEmpty (t'.data e) = false

theorem Inserts.spec (h : t.Inserts t' e key) (hok : Ok t []) (hfree : e ∉ t.live)
    (hnone : t.find key = none) :
    Ok t' [] ∧ (∀ x, Holds t' [] x ↔ Holds t [] x ∨ x = e) ∧ t'.find key = some e ∧
      ∀ key', key' ≠ key → t'.find key' = t.find key' := by
  have hhash : t'.hash = t.hash := by
    funext key
    rw [DHashTable.hash, DHashTable.hash, h.log2]
  have hnew : ¬ Linked t [] e := fun hl => hfree (hok.live e hl)
  -- first the data of the new entry, then its place in the chain
  let u : DHashTable δ := { t with data := t'.data, live := insert e t.live }
  have hdata : ∀ x, Linked t [] x → u.data x = t.data x := by
    intro x hx
    refine h.data x ?_
    rintro rfl
    exact hnew hx
  have hholds : ∀ x, Holds u [] x ↔ Holds t [] x := by
    intro x
    refine and_congr_right fun hx => ?_
    rw [hdata x hx]
  have hu : Ok u [] := by
    refine ⟨hok.bounded, hok.nodup, hok.disjoint, List.nodup_nil, hok.rest_disjoint, ?_, ?_, ?_⟩
    · exact fun x hx => Finset.mem_insert_of_mem (hok.live x hx)
    · intro b x hx hempty
      rw [hdata x (.inl ⟨b, hx⟩)] at hempty ⊢
      exact hok.home b x hx hempty
    · intro x x' hx hx' hkey
      rw [hdata x hx.1, hdata x' hx'.1] at hkey
      exact hok.unique x x' ((hholds x).mp hx) ((hholds x').mp hx') hkey
  have hpush : Ok (u.push (u.hash key) e) [] := by
    refine hu.push hnew (Finset.mem_insert_self _ _) (hash_lt u key) (fun _ => ?_)
      fun _ x hx hkey => ?_
    · rw [show u.data e = t'.data e from rfl, h.key]
    · rw [show u.data e = t'.data e from rfl, h.key, hdata x hx.1] at hkey
      rw [(find_eq_some hok).mpr ⟨(hholds x).mp hx, hkey⟩] at hnone
      cases hnone
  have hok' : Ok t' [] := hpush.congr h.log2 h.buckets rfl h.live.ge
  have hholds' : ∀ x, Holds t' [] x ↔ Holds t [] x ∨ x = e := by
    intro x
    have hlinked : Linked t' [] x ↔ x = e ∨ Linked t [] x := by
      constructor
      · rintro (⟨b, hb⟩ | hx)
        · rw [h.buckets] at hb
          rcases (mem_push t _ e b x).mp hb with ⟨-, rfl⟩ | hb
          · exact .inl rfl
          · exact .inr (.inl ⟨b, hb⟩)
        · cases hx
      · rintro (rfl | ⟨b, hb⟩ | hx)
        · exact .inl ⟨_, by rw [h.buckets]; exact (mem_push t _ x _ x).mpr (.inl ⟨rfl, rfl⟩)⟩
        · exact .inl ⟨b, by rw [h.buckets]; exact (mem_push t _ e b x).mpr (.inr hb)⟩
        · cases hx
    rw [Holds, hlinked]
    constructor
    · rintro ⟨rfl | hx, hempty⟩
      · exact .inr rfl
      · exact .inl ⟨hx, by rw [← hdata x hx]; exact hempty⟩
    · rintro (⟨hx, hempty⟩ | rfl)
      · exact ⟨.inr hx, by rw [← hdata x hx] at hempty; exact hempty⟩
      · exact ⟨.inl rfl, h.empty⟩
  refine ⟨hok', hholds', ?_, fun key' hne => ?_⟩
  · exact (find_eq_some hok').mpr ⟨(hholds' e).mpr (.inr rfl), h.key⟩
  · ext x
    rw [find_eq_some hok', find_eq_some hok, hholds']
    constructor
    · rintro ⟨hx | rfl, hkey⟩
      · exact ⟨hx, by rw [← hdata x hx.1]; exact hkey⟩
      · exact absurd (hkey.symm.trans h.key) hne
    · rintro ⟨hx, hkey⟩
      exact ⟨.inl hx, by rw [← hdata x hx.1] at hkey; exact hkey⟩

/-- Some entries with a key have been emptied. -/
structure Emptied (key : ℕ) (t t' : DHashTable δ) : Prop where
  log2 : t'.log2numBuckets = t.log2numBuckets
  buckets : t'.buckets = t.buckets
  live : t'.live = t.live
  data : ∀ e, t'.data e = t.data e ∨ isEmpty (t'.data e) = true ∧ getKey (t.data e) = key

theorem Emptied.refl (key : ℕ) (t : DHashTable δ) : Emptied key t t :=
  ⟨rfl, rfl, rfl, fun _ => .inl rfl⟩

theorem Emptied.ok (h : Emptied key t t') (hok : Ok t []) : Ok t' [] := by
  refine ok_of_data hok h.log2 h.buckets h.live fun e hempty => ?_
  rcases h.data e with hdata | ⟨hempty', -⟩
  · rw [hdata] at hempty ⊢
    exact ⟨hempty, rfl⟩
  · rw [hempty] at hempty'
    cases hempty'

theorem Emptied.find (h : Emptied key t t') {key' : ℕ} (hne : key' ≠ key) :
    t'.find key' = t.find key' := by
  have hmatch : (t'.matchKey · key') = (t.matchKey · key') := by
    funext e
    rw [matchKey, matchKey]
    rcases h.data e with hdata | ⟨hempty, hkey⟩
    · rw [hdata]
    · simp [hempty, hkey, hne]
  rw [DHashTable.find, DHashTable.find, DHashTable.hash, DHashTable.hash, h.log2, h.buckets, hmatch]

end DHashTable

namespace MasterDHashTable

variable {μ ℓ : Type} [DHashData μ] [DHashData ℓ] [MasterDHashData μ ℓ]
  {s s' : MasterDHashTable μ ℓ} {key vp me fuel : ℕ} {p v : List ℕ} {keep : Option (ℕ × ℕ)}
  {od : OpDirective} {mo : Option (MOP μ)} {lo : LOP ℓ} {r : OpStatus × MasterDHashTable μ ℓ}

/-! ## What the calls do -/

theorem doOp_spec (h : s.doOp key mo lo keep od = some r) :
    (s.master.find key = none ∧ r.2 = s) ∨ ∃ me, s.master.find key = some me ∧
      (od = .LOCKALL → ∀ x ∈ s.entryReplicas me, s.isLocked x = false) ∧
      ∃ new, (new = [] ∨ new = s.entryReplicas me) ∧ EntryEffect me s r.2
        (fun x => if od = .LOCKALL ∧ x ∈ s.entryReplicas me then decide (some x = keep)
          else s.isLocked x) new := by
  rw [doOp] at h
  split at h
  · rename_i hfind
    cases h
    exact .inl ⟨hfind, rfl⟩
  · rename_i me hfind
    obtain ⟨s₁, hlock, h⟩ := Option.bind_eq_some_iff.mp h
    obtain ⟨r₁, hop, rfl⟩ := Option.map_eq_some_iff.mp h
    have hmatch : s.master.matchKey me key = true :=
      List.find?_some (p := (s.master.matchKey · key)) hfind
    have hkey : key = getKey (s.master.data me) := ((matchKey_iff _ _ _).mp hmatch).2
    have hsame : s₁.isLocked = s.isLocked ∧ s₁.entryReplicas me = s.entryReplicas me ∧
        s₁.master.data = s.master.data := by
      simp only [lockMaster, Option.ite_none_left_eq_some, Option.some.injEq] at hlock
      obtain ⟨-, rfl⟩ := hlock
      exact ⟨rfl, rfl, rfl⟩
    obtain ⟨hlocks, htargets, hdata⟩ := hsame
    obtain ⟨hfree, new, hnew, heffect⟩ := doOpLocked_spec (hdata ▸ hkey) hop
    rw [hlocks, htargets] at hfree heffect
    rw [htargets] at hnew
    exact .inr ⟨me, hfind, hfree, new, hnew, heffect.locked hlock⟩

theorem doOpData_spec (h : s.doOpData me lo od = some r) :
    (od = .LOCKALL → ∀ x ∈ s.entryReplicas me, s.isLocked x = false) ∧
      ∃ new, (new = [] ∨ new = s.entryReplicas me) ∧ EntryEffect me s r.2
        (fun x => if od = .LOCKALL ∧ x ∈ s.entryReplicas me then false else s.isLocked x) new := by
  have hop : s.doOpLocked (getKey (s.master.data me)) none lo none od me = some r := by
    obtain ⟨s₁, hlock, hrest⟩ := Option.bind_eq_some_iff.mp h
    refine Option.bind_eq_some_iff.mpr ⟨s₁, hlock, ?_⟩
    have hkey : getKey (s₁.master.data me) = getKey (s.master.data me) := by
      split at hlock
      · rw [(lockAllReplicas_spec hlock).2.2.2]
      · cases hlock
        rfl
    rw [hkey] at hrest
    exact hrest
  obtain ⟨hfree, new, hnew, heffect⟩ := doOpLocked_spec rfl hop
  refine ⟨hfree, new, hnew, heffect.congr fun x => ?_⟩
  simp

/-- The replicas of an entry that `doOPAll` leaves locked. -/
def leftLocked (mo : Option (MOP μ)) (s : MasterDHashTable μ ℓ) (e : ℕ) : List (ℕ × ℕ) :=
  if isEmpty (s.master.data e) = false ∧ fails mo (s.master.data e) = true then s.entryReplicas e
  else []

/-- The replicas of an entry that it operates on. -/
def operated (mo : Option (MOP μ)) (s : MasterDHashTable μ ℓ) (e : ℕ) : List (ℕ × ℕ) :=
  if isEmpty (s.master.data e) || fails mo (s.master.data e) then [] else s.entryReplicas e

/-- The replicas of the entries met whose operation fails are locked afterwards, and were
not before. -/
theorem opAll_spec (hwalk : s.master.walk fuel p = some v) (hnodup : v.Nodup)
    (h : opAll mo lo fuel p s = some s') :
    Alike s s' ∧ s'.master.locked = s.master.locked ∧
      (∀ x, s'.isLocked x = (s.isLocked x || decide (x ∈ v.flatMap (leftLocked mo s)))) ∧
      (∀ x ∈ v.flatMap (leftLocked mo s), s.isLocked x = false) ∧
      s'.applied = s.applied ++ v.flatMap (operated mo s) := by
  -- a loop that is at its end
  have hnone : ∀ {s : MasterDHashTable μ ℓ},
      (∀ x, s.isLocked x = (s.isLocked x || decide (x ∈ [].flatMap (leftLocked mo s)))) ∧
        (∀ x ∈ [].flatMap (leftLocked mo s), s.isLocked x = false) ∧
        s.applied = s.applied ++ [].flatMap (operated mo s) := by
    intro s
    refine ⟨fun x => ?_, fun x hx => ?_, ?_⟩
    · simp
    · cases hx
    · exact (List.append_nil _).symm
  induction fuel generalizing s p v with
  | zero =>
    cases p with
    | nil =>
      cases hwalk
      have hs := Option.some.inj h
      subst s'
      exact ⟨Alike.refl s, rfl, hnone⟩
    | cons e p => cases h
  | succ fuel ih =>
    cases p with
    | nil =>
      cases hwalk
      have hs := Option.some.inj h
      subst s'
      exact ⟨Alike.refl s, rfl, hnone⟩
    | cons e p =>
      obtain ⟨n, v', hn, rfl, hrest⟩ := DHashTable.walk_cons hwalk
      cases hn
      obtain ⟨s₁, hentry, h⟩ := Option.bind_eq_some_iff.mp h
      obtain ⟨hfree, heffect⟩ := opEntry_spec hentry
      obtain ⟨hnew, hnodup'⟩ := List.nodup_cons.mp hnodup
      have hwalk' : s₁.master.walk fuel (s₁.master.getNext (e :: p)) = some v' := by
        rw [heffect.alike.master.walk, heffect.alike.master.getNext]
        exact hrest
      obtain ⟨halike, hmaster, hlocks, hfree', happlied⟩ := ih hwalk' hnodup' h
      -- the entries still to come have not been changed
      have hsame : ∀ x ∈ v', leftLocked mo s₁ x = leftLocked mo s x ∧
          operated mo s₁ x = operated mo s x := by
        intro x hx
        have hdata := heffect.data x fun hxe => hnew (hxe ▸ hx)
        rw [leftLocked, leftLocked, operated, operated, hdata, heffect.alike.entryReplicas]
        exact ⟨rfl, rfl⟩
      have hleft := List.flatMap_congr fun x hx => (hsame x hx).1
      have hdone := List.flatMap_congr fun x hx => (hsame x hx).2
      rw [hleft] at hlocks hfree'
      rw [hdone] at happlied
      have hlocks₁ : ∀ x, s₁.isLocked x = (s.isLocked x || decide (x ∈ leftLocked mo s e)) := by
        intro x
        rw [heffect.locks, leftLocked]
        cases isEmpty (s.master.data e) <;> cases fails mo (s.master.data e) <;> simp
      refine ⟨heffect.alike.trans halike, hmaster.trans heffect.masterLocks, fun x => ?_,
        fun x hx => ?_, ?_⟩
      · rw [hlocks, hlocks₁, List.flatMap_cons]
        simp [Bool.or_assoc]
      · rw [List.flatMap_cons, List.mem_append] at hx
        rcases hx with hx | hx
        · rw [leftLocked] at hx
          split at hx
          · rename_i hcond
            exact (hfree hcond.1).1 x hx
          · cases hx
        · have hx' := hfree' x hx
          rw [hlocks₁, Bool.or_eq_false_iff] at hx'
          exact hx'.1
      · rw [happlied, heffect.applied, List.flatMap_cons, List.append_assoc]
        rfl

theorem walk_of_opAll (h : opAll mo lo fuel p s = some s') :
    ∃ v, s.master.walk fuel p = some v := by
  induction fuel generalizing s p with
  | zero =>
    cases p with
    | nil => exact ⟨[], rfl⟩
    | cons e p => cases h
  | succ fuel ih =>
    cases p with
    | nil => exact ⟨[], rfl⟩
    | cons e p =>
      obtain ⟨s₁, hentry, h⟩ := Option.bind_eq_some_iff.mp h
      obtain ⟨v, hv⟩ := ih h
      obtain ⟨-, heffect⟩ := opEntry_spec hentry
      rw [heffect.alike.master.walk, heffect.alike.master.getNext] at hv
      exact ⟨e :: v, by rw [DHashTable.walk, hv]; rfl⟩

end MasterDHashTable

end K42
