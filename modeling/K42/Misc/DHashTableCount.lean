import K42.Misc.DHashTableRuns

/-!
# The count that decides when to resize

`numValues` is meant to be the number of non-empty entries. It is written without a lock,
after the entry has been pushed, and by `dec` as if it were `inc`. As long as no entry is
emptied it is behind by the requests that have pushed an entry and not yet counted it,
and resizing, which moves all entries, does not change it. Every entry that is emptied
puts it off by two.
-/

open Function (update update_of_ne update_self)

namespace K42.DHash

variable {δ : Type} [DHashData δ]

open DHashData DHashTable
open Option (ite_none_left_eq_some some)

/-! ## What is counted -/

/-- The entries of the table, in the chains and still to be moved. -/
def System.entries (s : System δ) : List ℕ := s.table.chains ++ s.resizer.rest

/-- The number of non-empty entries. -/
def System.nonEmpty (s : System δ) : ℕ := s.entries.countP fun e => !isEmpty (s.table.data e)

/-- The request has pushed an entry that it has not yet counted. -/
def Pc.counting : Pc → Bool
  | .leave (.count _ _) | .wake (.count _ _) | .count _ _ => true
  | _ => false

/-- No request is between pushing an entry and counting it. -/
def Counted (s : System δ) : Prop := ∀ r, (s.requests r).any Pc.counting = false

/-- The step empties no entry that is not empty. A new entry is not empty either, as the
assertion after each allocation says. -/
def EmptiesNone (s : System δ) : System.Action δ → Bool
  | .step r _ =>
    match s.requests r with
    | some (.empty e) => isEmpty (s.table.data e)
    | some (.allocate _ key _ _) => !isEmpty (create key : δ)
    | _ => true
  | _ => true

/-- The runs in which no entry is emptied. -/
def filling : Machine (System δ) (System.Action δ) :=
  ⟨fun s action => (s.act action).getD s,
    fun s action => (s.act action).isSome = true ∧ Prompt s action ∧ EmptiesNone s action = true⟩

instance (s : System δ) (action : System.Action δ) : Decidable (filling.adm s action) :=
  inferInstanceAs (Decidable (_ ∧ _ ∧ _))

variable {s s' : System δ} {t : DHashTable δ} {r b e : ℕ}

/-! ## The entries of the table -/

theorem length_flatMap_update {f : ℕ → List ℕ} {l : List ℕ} (hnodup : l.Nodup) (hb : b ∈ l) :
    (l.flatMap (update f b (e :: f b))).length = (l.flatMap f).length + 1 := by
  induction l with
  | nil => cases hb
  | cons x l ih =>
    obtain ⟨hx, hnodup⟩ := List.nodup_cons.mp hnodup
    simp only [List.flatMap_cons, List.length_append]
    by_cases hxb : x = b
    · subst hxb
      have hrest : l.flatMap (update f x (e :: f x)) = l.flatMap f := by
        refine List.flatMap_congr fun y hy => update_of_ne ?_ _ _
        rintro rfl
        exact hx hy
      rw [update_self, hrest, List.length_cons]
      omega
    · rw [update_of_ne hxb, ih hnodup ((List.mem_cons.mp hb).resolve_left (Ne.symm hxb))]
      omega

omit [DHashData δ] in
theorem length_chains_push (hb : b < 2 ^ t.log2numBuckets) :
    (t.push b e).chains.length = t.chains.length + 1 :=
  length_flatMap_update List.nodup_range (List.mem_range.mpr hb)

omit [DHashData δ] in
@[simp] theorem chains_newBuckets (log2 : ℕ) : (t.newBuckets log2).chains = [] := by
  simp [chains, DHashTable.newBuckets]

theorem linked_of_mem_entries (hok : Ok s.table s.resizer.rest) (he : e ∈ s.entries) :
    Linked s.table s.resizer.rest e := by
  rcases List.mem_append.mp he with he | he
  · exact .inl ((mem_chains hok).mp he)
  · exact .inr he

/-! ## The invariant -/

/-- The entries in use are not empty, and the count lacks those that are being counted. -/
structure Tallied (s : System δ) : Prop where
  skip : s.table.skip = false
  filled : ∀ e ∈ s.table.live, isEmpty (s.table.data e) = false
  count : ∃ pend : Finset ℕ, (∀ r, r ∈ pend ↔ (s.requests r).any Pc.counting = true) ∧
    s.table.numValues + pend.card = s.entries.length

theorem Tallied.nonEmpty_eq (h : Tallied s) (hok : Ok s.table s.resizer.rest) :
    s.nonEmpty = s.entries.length := by
  rw [System.nonEmpty, List.countP_eq_length]
  intro e he
  rw [h.filled e (hok.live e (linked_of_mem_entries hok he))]
  rfl

/-- One for a request that has to count its entry. -/
def debt (next : Option Pc) : ℕ := if next.any Pc.counting = true then 1 else 0

theorem card_update_pend {requests : ℕ → Option Pc} {pend : Finset ℕ} (next : Option Pc)
    (hpend : ∀ r, r ∈ pend ↔ (requests r).any Pc.counting = true) :
    ∃ pend' : Finset ℕ,
      (∀ r', r' ∈ pend' ↔ (update requests r next r').any Pc.counting = true) ∧
        pend'.card + debt (requests r) = pend.card + debt next := by
  have hold : (pend.erase r).card + debt (requests r) = pend.card := by
    rw [debt]
    split
    · rename_i hr
      exact Finset.card_erase_add_one ((hpend r).mpr hr)
    · rename_i hr
      rw [Finset.erase_eq_of_notMem fun hmem => hr ((hpend r).mp hmem), Nat.add_zero]
  have hother : ∀ r', r' ≠ r →
      (r' ∈ pend.erase r ↔ (update requests r next r').any Pc.counting = true) := by
    intro r' hr
    rw [update_of_ne hr, ← hpend r', Finset.mem_erase]
    exact and_iff_right hr
  cases hnext : next.any Pc.counting with
  | true =>
    refine ⟨insert r (pend.erase r), fun r' => ?_, ?_⟩
    · by_cases hr : r' = r
      · subst hr
        simp [hnext]
      · rw [Finset.mem_insert, ← hother r' hr]
        exact or_iff_right hr
    · rw [Finset.card_insert_of_notMem (Finset.notMem_erase r pend), debt, debt, if_pos hnext]
      rw [debt] at hold
      omega
  | false =>
    refine ⟨pend.erase r, fun r' => ?_, ?_⟩
    · by_cases hr : r' = r
      · subst hr
        simp [hnext]
      · exact hother r' hr
    · rw [hold, debt, hnext]
      rfl

variable {c : RequestCountWithStop} {pending : Bool}

theorem Tallied.advance (h : Tallied s) {next : Option Pc} (hskip : t.skip = s.table.skip)
    (hfilled : ∀ e ∈ t.live, isEmpty (t.data e) = false)
    (hlength : t.numValues + debt next + s.table.chains.length =
      s.table.numValues + debt (s.requests r) + t.chains.length) :
    Tallied { s with
      table := t, requestCount := c, pending := pending
      requests := update s.requests r next } := by
  obtain ⟨pend, hpend, hcount⟩ := h.count
  obtain ⟨pend', hpend', hcard⟩ := card_update_pend (r := r) next hpend
  refine ⟨hskip.trans h.skip, hfilled, pend', hpend', ?_⟩
  simp only [System.entries, List.length_append] at hcount ⊢
  omega

theorem Tallied.goto (h : Tallied s) {next : Option Pc}
    (hskip : t.skip = s.table.skip) (hsame : Same s.table t)
    (hvalues : t.numValues = s.table.numValues) (hdebt : debt next = debt (s.requests r)) :
    Tallied { s with
      table := t, requestCount := c, pending := pending
      requests := update s.requests r next } := by
  refine h.advance hskip ?_ ?_
  · rw [hsame.live, hsame.data]
    exact h.filled
  · rw [hvalues, hdebt, chains, chains, hsame.log2, hsame.buckets]

theorem debt_after (after : After) : debt (some (.wake after)) = debt (some (.leave after)) ∧
    debt after.pc = debt (some (.leave after)) := by
  cases after <;> exact ⟨rfl, rfl⟩

theorem Tallied.leave (h : Tallied s) {after : After}
    (hdebt : debt (s.requests r) = debt (some (.leave after))) : Tallied (s.leave r after) := by
  refine h.goto rfl (Same.refl _) rfl ?_
  obtain ⟨hwake, hpc⟩ := debt_after after
  split
  · exact hwake.trans hdebt.symm
  · exact hpc.trans hdebt.symm

/-! ## Steps -/

theorem isEmpty_setData {d : δ} {x : ℕ} (hd : x = e → isEmpty d = false)
    (hx : x ≠ e → isEmpty (t.data x) = false) : isEmpty ((t.setData e d).data x) = false := by
  by_cases hxe : x = e
  · rw [hxe, show (t.setData e d).data e = d from update_self _ _ _]
    exact hd hxe
  · rw [show (t.setData e d).data x = t.data x from update_of_ne hxe _ _]
    exact hx hxe

theorem Tallied.step (h : Tallied s) (hinv : Inv s) {a : ℕ} (hstep : s.step r a = some s')
    (hfill : EmptiesNone s (.step r a) = true) : Tallied s' := by
  cases hpc : s.requests r with
  | none =>
    simp only [System.step, hpc] at hstep
    cases hstep
  | some pc =>
    have hdebt : debt (s.requests r) = debt (some pc) := by rw [hpc]
    cases pc with
    | enter op =>
      simp only [System.step, hpc, some.injEq] at hstep
      subst hstep
      refine h.goto rfl (Same.refl _) rfl ?_
      rw [hdebt]
      cases op <;> split <;> rfl
    | backOut op =>
      simp only [System.step, hpc, some.injEq] at hstep
      subst hstep
      exact (h.leave hdebt : Tallied (s.leave r (.retry op)))
    | wake after =>
      simp only [System.step, hpc, some.injEq] at hstep
      subst hstep
      obtain ⟨hwake, hafter⟩ := debt_after after
      exact h.goto rfl (Same.refl _) rfl (hafter.trans (hwake.symm.trans hdebt.symm))
    | waitLock op =>
      simp only [System.step, hpc, ite_none_left_eq_some, some.injEq] at hstep
      obtain ⟨-, rfl⟩ := hstep
      exact h.goto rfl (Same.refl _) rfl hdebt.symm
    | findBucket l key =>
      simp only [System.step, hpc, some.injEq] at hstep
      subst hstep
      exact h.goto rfl (Same.refl _) rfl hdebt.symm
    | read l key b =>
      simp only [System.step, hpc, some.injEq] at hstep
      subst hstep
      exact h.goto rfl (Same.refl _) rfl hdebt.symm
    | scan l key b cur rest =>
      cases rest with
      | cons e rest =>
        simp only [System.step, hpc, some.injEq] at hstep
        subst hstep
        refine h.goto rfl (Same.refl _) rfl ?_
        rw [hdebt]
        split <;> rfl
      | nil =>
        cases l with
        | findOrAllocate noResize =>
          simp only [System.step, hpc, some.injEq] at hstep
          subst hstep
          exact h.goto rfl (Same.refl _) rfl hdebt.symm
        | empty =>
          simp only [System.step, hpc, some.injEq] at hstep
          subst hstep
          exact h.goto rfl (Same.refl _) rfl hdebt.symm
    | lock l key b e =>
      simp only [System.step, hpc, ite_none_left_eq_some, some.injEq] at hstep
      obtain ⟨-, rfl⟩ := hstep
      exact h.goto rfl ⟨rfl, rfl, rfl, rfl⟩ rfl hdebt.symm
    | check l key b e =>
      simp only [System.step, hpc] at hstep
      split at hstep <;> cases hstep <;> exact h.goto rfl ⟨rfl, rfl, rfl, rfl⟩ rfl hdebt.symm
    | allocate noResize key b cur =>
      simp only [System.step, hpc, ite_none_left_eq_some, some.injEq] at hstep
      obtain ⟨-, rfl⟩ := hstep
      simp only [EmptiesNone, hpc, Bool.not_eq_true'] at hfill
      refine h.advance rfl ?_ ?_
      · -- the new entry is the only one whose data changes
        intro x hx
        refine isEmpty_setData (t := s.table) (fun _ => hfill) fun hxa => ?_
        exact h.filled x ((Finset.mem_insert.mp hx).resolve_left hxa)
      · rw [hdebt]
        rfl
    | compareAndStore noResize key b cur ne =>
      have hscanned := (hinv.knows r _ hpc).1
      simp only [System.step, hpc] at hstep
      split at hstep
      · cases hstep
        refine h.advance rfl h.filled ?_
        have hb : b < 2 ^ s.table.log2numBuckets := by
          rw [hscanned.1]
          exact hash_lt _ _
        -- the request owes the count one entry from now on
        have hchains : (s.table.push b ne).chains.length = s.table.chains.length + 1 :=
          length_chains_push hb
        have howes : debt (some (.leave (.count ne noResize))) = 1 := rfl
        have hnone : debt (s.requests r) = 0 := by
          rw [hdebt]
          rfl
        show s.table.numValues + _ + _ = _ + (s.table.push b ne).chains.length
        rw [howes, hnone, hchains]
        omega
      · cases hstep
        refine h.advance rfl ?_ ?_
        · exact fun x hx => h.filled x (Finset.mem_of_mem_erase hx)
        · rw [hdebt]
          rfl
    | empty e =>
      simp only [EmptiesNone, hpc] at hfill
      simp only [System.step, hpc, hfill, if_true, some.injEq] at hstep
      subst hstep
      exact h.goto rfl (Same.refl _) rfl hdebt.symm
    | unlock e =>
      simp only [System.step, hpc, some.injEq] at hstep
      subst hstep
      exact h.goto rfl ⟨rfl, rfl, rfl, rfl⟩ rfl hdebt.symm
    | leave after =>
      simp only [System.step, hpc, some.injEq] at hstep
      subst hstep
      exact h.leave hdebt
    | count e noResize =>
      simp only [System.step, hpc, some.injEq] at hstep
      subst hstep
      have hvalues : s.table.inc.numValues = s.table.numValues + 1 := by
        rw [inc, h.skip]
        rfl
      have howed : debt (s.requests r) = 1 := by
        rw [hdebt]
        rfl
      -- what the request owed is in the count now
      have hlength : s.table.inc.numValues + debt (some (.held e)) + s.table.chains.length =
          s.table.numValues + debt (s.requests r) + s.table.chains.length := by
        rw [hvalues, howed]
        rfl
      simp only [System.checkResize]
      split
      · exact h.advance rfl h.filled hlength
      · exact h.advance rfl h.filled hlength
    | held e =>
      simp only [System.step, hpc] at hstep
      cases hstep

theorem Tallied.rebuild (h : Tallied s) {next : Resizer}
    (hskip : t.skip = s.table.skip) (hlive : t.live = s.table.live)
    (hdata : t.data = s.table.data) (hvalues : t.numValues = s.table.numValues)
    (hlength : t.chains.length + next.rest.length =
      s.table.chains.length + s.resizer.rest.length) :
    Tallied { s with table := t, requestCount := c, pending := pending, resizer := next } := by
  obtain ⟨pend, hpend, hcount⟩ := h.count
  refine ⟨hskip.trans h.skip, ?_, pend, hpend, ?_⟩
  · rw [hlive, hdata]
    exact h.filled
  · simp only [System.entries, List.length_append] at hcount ⊢
    rw [hvalues, hcount, hlength]

theorem Tallied.resize (h : Tallied s) (hinv : Inv s) (hstep : s.resize = some s') :
    Tallied s' := by
  cases hresizer : s.resizer with
  | idle =>
    simp only [System.resize, hresizer, Option.ite_none_right_eq_some, some.injEq] at hstep
    obtain ⟨-, rfl⟩ := hstep
    exact h.rebuild rfl rfl rfl rfl (by rw [hresizer]; rfl)
  | locked =>
    simp only [System.resize, hresizer] at hstep
    split at hstep <;> cases hstep <;> exact h.rebuild rfl rfl rfl rfl (by rw [hresizer]; rfl)
  | marked =>
    simp only [System.resize, hresizer, some.injEq] at hstep
    subst hstep
    refine h.rebuild rfl rfl rfl rfl ?_
    rw [hresizer]
    split <;> rfl
  | alone =>
    simp only [System.resize, hresizer, some.injEq] at hstep
    subst hstep
    exact h.rebuild rfl rfl rfl rfl (by rw [hresizer]; rfl)
  | blocked =>
    simp only [System.resize, hresizer, ite_none_left_eq_some, some.injEq] at hstep
    obtain ⟨-, rfl⟩ := hstep
    exact h.rebuild rfl rfl rfl rfl (by rw [hresizer]; rfl)
  | stopped =>
    simp only [System.resize, hresizer] at hstep
    split at hstep
    · cases hstep
      exact h.rebuild rfl rfl rfl rfl (by rw [hresizer]; rfl)
    · cases hstep
      refine h.rebuild rfl rfl rfl rfl ?_
      rw [hresizer, chains_newBuckets]
      exact Nat.add_comm _ _
  | moving rest =>
    cases rest with
    | cons e rest =>
      simp only [System.resize, hresizer, some.injEq] at hstep
      subst hstep
      -- an entry of the table is not empty, so it is moved and not deleted
      have he : isEmpty (s.table.data e) = false := by
        refine h.filled e (hinv.ok.live e (.inr ?_))
        rw [hresizer]
        exact List.mem_cons_self
      have hmove : s.table.rehash e = s.table.push (s.table.hash (getKey (s.table.data e))) e := by
        rw [rehash, he]
        rfl
      rw [hmove]
      refine h.rebuild rfl rfl rfl rfl ?_
      rw [length_chains_push (hash_lt _ _), hresizer]
      simp only [Resizer.rest, List.length_cons]
      omega
    | nil =>
      simp only [System.resize, hresizer, some.injEq] at hstep
      subst hstep
      exact h.rebuild rfl rfl rfl rfl (by rw [hresizer]; rfl)
  | restart =>
    simp only [System.resize, hresizer, some.injEq] at hstep
    subst hstep
    exact h.rebuild rfl rfl rfl rfl (by rw [hresizer]; rfl)
  | unlock =>
    simp only [System.resize, hresizer, some.injEq] at hstep
    subst hstep
    exact h.rebuild rfl rfl rfl rfl (by rw [hresizer]; rfl)

theorem Tallied.act (h : Tallied s) (hinv : Inv s) {action : System.Action δ}
    (hact : s.act action = some s') (hfill : EmptiesNone s action = true) : Tallied s' := by
  cases action with
  | call r op =>
    simp only [System.act] at hact
    split at hact
    · rename_i hpc
      cases hact
      exact h.goto rfl (Same.refl _) rfl (by rw [hpc]; rfl)
    · rename_i hpc
      cases hact
      exact h.goto rfl (Same.refl _) rfl (by rw [hpc]; rfl)
    · cases hact
  | step r a => exact h.step hinv hact hfill
  | write r d =>
    simp only [System.act] at hact
    split at hact
    · rename_i e hpc
      rw [Option.ite_none_right_eq_some, some.injEq] at hact
      obtain ⟨⟨-, hempty⟩, rfl⟩ := hact
      obtain ⟨pend, hpend, hcount⟩ := h.count
      refine ⟨h.skip, ?_, pend, hpend, hcount⟩
      -- the caller may hold an entry that has been deleted meanwhile
      intro x hx
      refine isEmpty_setData (t := s.table) (fun hxe => ?_) fun _ => h.filled x hx
      rw [hempty, ← hxe]
      exact h.filled x hx
    · cases hact
  | doEmpty r =>
    simp only [System.act] at hact
    split at hact
    · rename_i e hpc
      cases hact
      exact h.goto rfl (Same.refl _) rfl (by rw [hpc]; rfl)
    · cases hact
  | release r =>
    simp only [System.act] at hact
    split at hact
    · rename_i e hpc
      cases hact
      exact h.goto rfl ⟨rfl, rfl, rfl, rfl⟩ rfl (by rw [hpc]; rfl)
    · cases hact
  | resize => exact h.resize hinv hact

/-! ## Runs -/

theorem init_tallied (numEntries minEntries : ℕ) (d : δ) :
    Tallied (System.init numEntries minEntries false d) := by
  refine ⟨rfl, (nofun : ∀ e ∈ (∅ : Finset ℕ), _), ∅, fun r => ?_, ?_⟩
  · simp [System.init]
  · simp [System.init, System.entries, DHashTable.init, chains, Resizer.rest]

/-- As long as no entry is emptied, the count is at most the number of non-empty entries,
and equal to it when no request is about to count one. -/
theorem run_numValues {numEntries minEntries : ℕ} {d : δ} {actions : List (System.Action δ)}
    (hrun : filling.Run (System.init numEntries minEntries false d) actions s) :
    s.table.numValues ≤ s.nonEmpty ∧ (Counted s → s.table.numValues = s.nonEmpty) := by
  have h : Inv s ∧ Tallied s := by
    refine hrun.invariant (I := fun s => Inv s ∧ Tallied s)
      ⟨init_inv _ _ _ _, init_tallied _ _ _⟩ ?_
    rintro s action ⟨hinv, htallied⟩ ⟨hsome, hprompt, hfill⟩
    obtain ⟨s', hact⟩ := Option.isSome_iff_exists.mp hsome
    show Inv ((s.act action).getD s) ∧ Tallied ((s.act action).getD s)
    rw [hact]
    refine ⟨hinv.act hact ?_, htallied.act hinv hact hfill⟩
    rintro r a after rfl hpc
    refine hprompt ?_
    rw [hpc]
    rfl
  obtain ⟨hinv, htallied⟩ := h
  obtain ⟨pend, hpend, hcount⟩ := htallied.count
  rw [htallied.nonEmpty_eq hinv.ok, ← hcount]
  refine ⟨Nat.le_add_right _ _, fun hcounted => ?_⟩
  have hnone : pend = ∅ := by
    refine Finset.eq_empty_of_forall_notMem fun r hr => ?_
    rw [hpend r, hcounted r] at hr
    cases hr
  rw [hnone]
  rfl

/-! ## An entry that is inserted and emptied -/

/-- The request that takes a step. -/
def System.Action.request : System.Action δ → Option ℕ
  | .call r _ | .step r _ | .write r _ | .doEmpty r | .release r => some r
  | .resize => none

theorem requests_step {a r' : ℕ} (hstep : s.step r a = some s') (hr : r' ≠ r) :
    s'.requests r' = s.requests r' := by
  rw [System.step] at hstep
  split at hstep
  case h_18 =>
    cases hstep
    refine (update_of_ne hr _ _).trans ?_
    simp only [System.checkResize]
    split <;> rfl
  all_goals try split at hstep
  all_goals cases hstep
  all_goals exact update_of_ne hr _ _

theorem requests_resize (hstep : s.resize = some s') : s'.requests = s.requests := by
  rw [System.resize] at hstep
  split at hstep
  all_goals try simp only at hstep
  all_goals try split at hstep
  all_goals cases hstep
  all_goals rfl

theorem requests_act {action : System.Action δ} (hact : s.act action = some s')
    (hr : action.request ≠ some r) : s'.requests r = s.requests r := by
  cases action with
  | resize => rw [requests_resize hact]
  | step r' a => exact requests_step hact fun h => hr (congrArg some h.symm)
  | _ r' =>
    have hne : r ≠ r' := fun h => hr (congrArg some h.symm)
    simp only [System.act] at hact
    split at hact
    all_goals try split at hact
    all_goals cases hact
    all_goals first | rfl | exact update_of_ne hne _ _

theorem requests_foldl {actions : List (System.Action δ)}
    (hr : ∀ action ∈ actions, action.request ≠ some r) :
    (actions.foldl promptly.step s).requests r = s.requests r := by
  induction actions generalizing s with
  | nil => rfl
  | cons action actions ih =>
    refine (ih fun a ha => hr a (List.mem_cons_of_mem _ ha)).trans ?_
    show ((s.act action).getD s).requests r = s.requests r
    cases hact : s.act action with
    | none => rfl
    | some s' => exact requests_act hact (hr action List.mem_cons_self)

/-- A call that finds a key in a chain of one entry and empties the entry. -/
def empties (r key : ℕ) : List (System.Action TestHashData) :=
  .call r (.startEmpty key) :: List.replicate 9 (.step r 0)

theorem run_numValues_fillAndResize :
    filling.Run start fillAndResize (fillAndResize.foldl filling.step start) ∧
      (fillAndResize.foldl filling.step start).table.numValues = 2 ∧
      (fillAndResize.foldl filling.step start).table.numValues ≤
        (fillAndResize.foldl filling.step start).nonEmpty := by
  have hadmits : filling.Admits start fillAndResize := by decide +kernel
  exact ⟨hadmits.run, by decide +kernel, (run_numValues hadmits.run).1⟩

def fillAndEmpty : List (System.Action TestHashData) := allocates 0 0 0 100 ++ empties 0 0

/-- After one insertion and one removal the count is two. -/
theorem not_numValues_eq_nonEmpty :
    ¬ ∀ (actions : List (System.Action TestHashData)) (s : System TestHashData),
      promptly.Run start actions s → Counted s → s.table.numValues = s.nonEmpty := by
  intro h
  have hadmits : promptly.Admits start fillAndEmpty := by decide +kernel
  have hcounted : Counted (fillAndEmpty.foldl promptly.step start) := by
    intro r
    by_cases hr : r = 0
    · rw [hr]
      decide +kernel
    · rw [requests_foldl]
      · rfl
      · intro action haction
        have hzero : ∀ action ∈ fillAndEmpty, action.request = some 0 := by decide +kernel
        rw [hzero action haction]
        exact fun heq => hr (Option.some.inj heq).symm
  have hequal := h _ _ hadmits.run hcounted
  have hvalues : (fillAndEmpty.foldl promptly.step start).table.numValues = 2 := by decide +kernel
  have hnone : (fillAndEmpty.foldl promptly.step start).nonEmpty = 0 := by decide +kernel
  rw [hvalues, hnone] at hequal
  cases hequal

end K42.DHash
