import K42.Mem.FCMDefault

/-!
# Writing the dirty pages of the free list

A call of `writeFreeFreeList` is a sequence of sections under the lock. Each takes pages off
the free list until it has started a write, and the next one meets whatever state other
threads have left by the time the lock is held again. The call is meant to write at most as
many pages as it is asked for and to return how many. It never counts them.
-/

namespace K42

namespace FCMDefault

variable {τ : Type}

open PageList (Listed)

/-- What a section does: the states in which the lock is taken and released, and the page
whose write it starts. -/
structure Section (τ : Type) where
  before : State τ
  after : State τ
  put : Option ℕ

namespace State

def writeFreeSection (s : State τ) (numPages : ℕ) : Section τ :=
  let r := writeFreeLoop numPages (s.pageList.freeList.length + 1) s
  ⟨s, r.1, r.2⟩

/-- A call, and what it returns. For each write that is started, `answers` has the state in
which the lock is held again and whether `startPutPage` has succeeded. -/
def writeFreeCall (numPages totalReturned : ℕ) :
    List (State τ × Bool) → State τ → Option (List (Section τ) × ℕ)
  | [], s =>
    let sec := s.writeFreeSection numPages
    if sec.put = none then some ([sec], totalReturned) else none
  | (s₁, ok) :: answers, s =>
    let sec := s.writeFreeSection numPages
    if sec.put = none then none
    else if ok ∧ totalReturned < numPages then
      (writeFreeCall numPages totalReturned answers (s₁.clearPending true)).map fun r =>
        (sec :: r.1, r.2)
    else if answers = [] then some ([sec], totalReturned) else none

end State

/-! ## What the call is meant to do -/

/-- A page that was on the free list is still there as it was, or is off it and will be freed
when its IO is done. -/
def Taken (sec : Section τ) (off : ℕ) : Prop :=
  ∃ pg, sec.after.pageList.find off = some pg ∧
    (off ∈ sec.after.pageList.freeList ∧ pg.free = true ∨
      off ∉ sec.after.pageList.freeList ∧ pg.free = false ∧ pg.doingIO = true ∧
        pg.freeAfterIO = true)

/-- A section starts a write only if none is pending, and leaves the pages that were not on
the free list alone. -/
structure Section.Ok (sec : Section τ) : Prop where
  guarded : sec.put.isSome = true → sec.before.pendingWrite = none
  pending : sec.after.pendingWrite = if sec.put.isSome then sec.put else sec.before.pendingWrite
  taken : ∀ off ∈ sec.before.pageList.freeList, Taken sec off
  others : ∀ off, off ∉ sec.before.pageList.freeList →
    sec.after.pageList.find off = sec.before.pageList.find off

/-- The pages whose write the call has started. -/
def started (secs : List (Section τ)) : List ℕ := secs.filterMap Section.put

/-- The call has started at most as many writes as it was asked for, has returned how many,
and every section was as it should be. -/
structure Meets (numPages : ℕ) (r : List (Section τ) × ℕ) : Prop where
  bounded : (started r.1).length ≤ max numPages 1
  counted : r.2 = (started r.1).length
  sections : ∀ sec ∈ r.1, sec.Ok

/-- No write is to be started: one is pending, or every page that the call would look at is
clean or doing IO. Asked for no pages the call looks at one. -/
def NoWrite (s : State τ) (numPages : ℕ) : Prop :=
  s.pendingWrite.isSome = true ∨
    if numPages = 0 then
      ∀ off ∈ s.pageList.firstFree .DQ_DIRTY, ∀ pg ∈ s.pageList.find off, pg.doingIO = true
    else
      ∀ off ∈ s.pageList.freeList, ∀ pg ∈ s.pageList.find off,
        pg.dirty = true → pg.doingIO = true

/-! ## One section -/

variable {s s' : State τ} {off : ℕ} {pg : PageDesc} {numPages fuel : ℕ} {put : Option ℕ}

theorem listed_freeLater (h : s.pageList.Listed) : (s.freeLater off pg).pageList.Listed :=
  h.dequeueFreeList

theorem mem_dequeue (hnodup : s.pageList.freeList.Nodup) {o : ℕ} (pg : PageDesc) :
    o ∈ (s.pageList.dequeueFreeList off pg).freeList ↔ o ≠ off ∧ o ∈ s.pageList.freeList :=
  hnodup.mem_erase_iff

theorem find_dequeue_ne {o : ℕ} (ho : o ≠ off) (pg : PageDesc) :
    (s.pageList.dequeueFreeList off pg).find o = s.pageList.find o :=
  PageList.find_insert_ne _ _ _ _ ho

theorem find_dequeue (pg : PageDesc) :
    (s.pageList.dequeueFreeList off pg).find off = some { pg with free := false } :=
  PageList.find_insert _ _ _ _

theorem ok_dequeue (h : s.pageList.Listed) (hmem : off ∈ s.pageList.freeList)
    (hlist : s'.pageList = s.pageList.dequeueFreeList off pg) (hio : pg.doingIO = true)
    (hfree : pg.freeAfterIO = true) : (∀ o ∈ s.pageList.freeList, Taken ⟨s, s', put⟩ o) ∧
      ∀ o, o ∉ s.pageList.freeList → s'.pageList.find o = s.pageList.find o := by
  constructor
  · intro o ho
    by_cases hoff : o = off
    · subst hoff
      refine ⟨{ pg with free := false }, ?_, .inr ⟨?_, rfl, hio, hfree⟩⟩
      · rw [hlist]
        exact find_dequeue pg
      · rw [hlist, mem_dequeue h.nodup]
        exact fun hin => hin.1 rfl
    · obtain ⟨pg', hpg', hset⟩ := (h.flagged o).mp ho
      refine ⟨pg', ?_, .inl ⟨?_, hset⟩⟩
      · rw [hlist]
        exact (find_dequeue_ne hoff pg).trans hpg'
      · rw [hlist, mem_dequeue h.nodup]
        exact ⟨hoff, ho⟩
  · intro o ho
    rw [hlist]
    refine find_dequeue_ne ?_ pg
    rintro rfl
    exact ho hmem

theorem ok_freeLater (h : s.pageList.Listed) (hmem : off ∈ s.pageList.freeList)
    (hio : pg.doingIO = true) : Section.Ok ⟨s, s.freeLater off pg, none⟩ := by
  have htaken : (∀ o ∈ s.pageList.freeList, Taken ⟨s, s.freeLater off pg, none⟩ o) ∧
      ∀ o, o ∉ s.pageList.freeList → (s.freeLater off pg).pageList.find o = s.pageList.find o :=
    ok_dequeue h hmem rfl hio rfl
  exact ⟨nofun, rfl, htaken.1, htaken.2⟩

theorem ok_startPut (h : s.pageList.Listed) (hmem : off ∈ s.pageList.freeList)
    (hpending : s.pendingWrite = none) : Section.Ok ⟨s, s.startPut off pg, some off⟩ := by
  have htaken : (∀ o ∈ s.pageList.freeList, Taken ⟨s, s.startPut off pg, some off⟩ o) ∧
      ∀ o, o ∉ s.pageList.freeList → (s.startPut off pg).pageList.find o = s.pageList.find o :=
    ok_dequeue h hmem rfl rfl rfl
  exact ⟨fun _ => hpending, rfl, htaken.1, htaken.2⟩

theorem ok_refl (h : s.pageList.Listed) : Section.Ok ⟨s, s, none⟩ := by
  refine ⟨nofun, rfl, fun o ho => ?_, fun _ _ => rfl⟩
  obtain ⟨pg, hpg, hfree⟩ := (h.flagged o).mp ho
  exact ⟨pg, hpg, .inl ⟨ho, hfree⟩⟩

theorem Section.Ok.trans {s₁ : State τ} (h : Section.Ok ⟨s, s₁, none⟩)
    (h' : Section.Ok ⟨s₁, s', put⟩) (hold : s.pageList.Listed) (hlisted : s₁.pageList.Listed)
    (hlisted' : s'.pageList.Listed) : Section.Ok ⟨s, s', put⟩ := by
  have hpending : s₁.pendingWrite = s.pendingWrite := h.pending
  refine ⟨fun hput => ?_, ?_, fun o ho => ?_, fun o ho => ?_⟩
  · rw [← h'.guarded hput]
    exact hpending.symm
  · rw [h'.pending, ← hpending]
  · obtain ⟨pg, hpg, ⟨hin, -⟩ | ⟨hout, hclear, hio, hafter⟩⟩ := h.taken o ho
    · exact h'.taken o hin
    · -- the page stays off the list
      have hsame : s'.pageList.find o = some pg := (h'.others o hout).trans hpg
      refine ⟨pg, hsame, .inr ⟨fun hin => ?_, hclear, hio, hafter⟩⟩
      rw [hlisted'.mem_iff hsame, hclear] at hin
      cases hin
  · have hout : o ∉ s₁.pageList.freeList := by
      intro hin
      obtain ⟨pg, hpg, hset⟩ := (hlisted.flagged o).mp hin
      have hsame : s₁.pageList.find o = s.pageList.find o := h.others o ho
      rw [hsame] at hpg
      exact ho ((hold.mem_iff hpg).mpr hset)
    rw [show s'.pageList.find o = s₁.pageList.find o from h'.others o hout]
    exact h.others o ho

theorem firstFree_find {type : PageDesc.DqType}
    (hnone : s.pageList.firstFree type = none) (hmem : off ∈ s.pageList.freeList)
    (hpg : s.pageList.find off = some pg) : type.takes pg = false := by
  have hfirst := List.find?_eq_none.mp hnone off hmem
  rw [hpg] at hfirst
  exact Bool.not_eq_true _ ▸ hfirst

theorem noWrite_freeLater (h : s.pageList.Listed) (hn : numPages ≠ 0)
    (hpg : s.pageList.find off = some pg) (hio : pg.doingIO = true) :
    NoWrite (s.freeLater off pg) numPages ↔ NoWrite s numPages := by
  refine or_congr Iff.rfl ?_
  rw [if_neg hn, if_neg hn]
  constructor
  · intro hquiet o ho pg' hpg'
    by_cases hoff : o = off
    · subst hoff
      rw [hpg] at hpg'
      cases hpg'
      exact fun _ => hio
    · refine hquiet o ((mem_dequeue h.nodup _).mpr ⟨hoff, ho⟩) pg' ?_
      exact (find_dequeue_ne hoff _).trans hpg'
  · intro hquiet o ho pg' hpg'
    obtain ⟨hoff, hmem⟩ := (mem_dequeue h.nodup _).mp ho
    refine hquiet o hmem pg' ?_
    exact (find_dequeue_ne hoff _).symm.trans hpg'

theorem writeFreeLoop_spec (numPages : ℕ) (h : s.pageList.Listed)
    (hfuel : s.pageList.freeList.length < fuel) :
    Section.Ok
        ⟨s, (State.writeFreeLoop numPages fuel s).1, (State.writeFreeLoop numPages fuel s).2⟩ ∧
      (State.writeFreeLoop numPages fuel s).1.pageList.Listed ∧
      ((State.writeFreeLoop numPages fuel s).2 = none ↔ NoWrite s numPages) := by
  induction fuel generalizing s with
  | zero => exact absurd hfuel (Nat.not_lt_zero _)
  | succ fuel ih =>
    rw [State.writeFreeLoop]
    by_cases hpending : s.pendingWrite.isSome = true
    · rw [if_pos hpending]
      exact ⟨ok_refl h, h, fun _ => .inl hpending, fun _ => rfl⟩
    · rw [if_neg hpending]
      have hnone : s.pendingWrite = none := by
        rw [Bool.not_eq_true] at hpending
        exact Option.isSome_eq_false_iff.mp hpending |> Option.isNone_iff_eq_none.mp
      cases hfirst : s.pageList.firstFree .DQ_DIRTY with
      | none =>
        refine ⟨ok_refl h, h, fun _ => .inr ?_, fun _ => rfl⟩
        split
        · rw [hfirst]
          exact fun o ho => by cases ho
        · intro o ho pg hpg hdirty
          have htakes := firstFree_find hfirst ho hpg
          simp [PageDesc.DqType.takes, hdirty] at htakes
      | some off =>
        obtain ⟨hmem, pg, hpg, htakes⟩ := PageList.firstFree_some hfirst
        simp only [hpg]
        by_cases hio : pg.doingIO = true
        · rw [if_pos hio]
          have hok := ok_freeLater h hmem hio
          have hlisted : (s.freeLater off pg).pageList.Listed := listed_freeLater h
          by_cases hn : numPages = 0
          · rw [if_pos hn]
            refine ⟨hok, hlisted, fun _ => .inr ?_, fun _ => rfl⟩
            rw [if_pos hn, hfirst]
            intro o ho pg' hpg'
            cases ho
            rw [hpg] at hpg'
            cases hpg'
            exact hio
          · rw [if_neg hn]
            have hlength : (s.freeLater off pg).pageList.freeList.length < fuel := by
              have hshorter := List.length_erase_of_mem hmem
              have hpos := List.length_pos_of_mem hmem
              show (s.pageList.freeList.erase off).length < fuel
              omega
            obtain ⟨hok', hlisted', hquiet⟩ := ih hlisted hlength
            refine ⟨hok.trans hok' h hlisted hlisted', hlisted', hquiet.trans ?_⟩
            exact noWrite_freeLater h hn hpg hio
        · rw [if_neg hio]
          refine ⟨ok_startPut h hmem hnone, h.dequeueFreeList, nofun, fun hquiet => ?_⟩
          -- the page is dirty, and its write is started
          have hdirty : pg.dirty = true := by
            simpa [PageDesc.DqType.takes, hio] using htakes
          rcases hquiet with hsome | hquiet
          · exact absurd hsome hpending
          · split at hquiet
            · exact absurd (hquiet off hfirst pg hpg) hio
            · exact absurd (hquiet off hmem pg hpg hdirty) hio

theorem writeFreeSection_spec (h : s.pageList.Listed) (numPages : ℕ) :
    (s.writeFreeSection numPages).Ok ∧
      ((s.writeFreeSection numPages).put = none ↔ NoWrite s numPages) := by
  obtain ⟨hok, -, hquiet⟩ := writeFreeLoop_spec numPages h (Nat.lt_succ_self _)
  exact ⟨hok, hquiet⟩

/-! ## The call -/

/-- Every section of a call is as it should be, the first one is the one of the state in which
it is called, and what it returns is what the counter was set to. -/
theorem writeFreeCall_spec {total : ℕ} {answers : List (State τ × Bool)}
    {r : List (Section τ) × ℕ} (h : s.pageList.Listed)
    (hanswers : ∀ a ∈ answers, a.1.pageList.Listed)
    (hcall : s.writeFreeCall numPages total answers = some r) :
    r.2 = total ∧ (∀ sec ∈ r.1, sec.Ok) ∧
      ∃ secs, r.1 = s.writeFreeSection numPages :: secs ∧
        ((s.writeFreeSection numPages).put = none → secs = []) := by
  induction answers generalizing s r with
  | nil =>
    rw [State.writeFreeCall] at hcall
    split at hcall
    · cases hcall
      refine ⟨rfl, ?_, [], rfl, fun _ => rfl⟩
      intro sec hsec
      rw [List.mem_singleton.mp hsec]
      exact (writeFreeSection_spec h numPages).1
    · cases hcall
  | cons a answers ih =>
    obtain ⟨s₁, ok⟩ := a
    rw [State.writeFreeCall] at hcall
    split at hcall
    · cases hcall
    · rename_i hput
      split at hcall
      · obtain ⟨r₁, hrest, rfl⟩ := Option.map_eq_some_iff.mp hcall
        have hlisted : (s₁.clearPending true).pageList.Listed :=
          hanswers _ List.mem_cons_self
        obtain ⟨htotal, hoks, -⟩ := ih hlisted
          (fun a ha => hanswers a (List.mem_cons_of_mem _ ha)) hrest
        refine ⟨htotal, ?_, r₁.1, rfl, fun hnone => absurd hnone hput⟩
        intro sec hsec
        rcases List.mem_cons.mp hsec with rfl | hsec
        · exact (writeFreeSection_spec h numPages).1
        · exact hoks sec hsec
      · split at hcall
        · cases hcall
          refine ⟨rfl, ?_, [], rfl, fun _ => rfl⟩
          intro sec hsec
          rw [List.mem_singleton.mp hsec]
          exact (writeFreeSection_spec h numPages).1
        · cases hcall

/-- Every section starts a write only if none is pending, and takes pages off the free list
only to free them after their IO. The call does not count the writes, so it returns how many
it has started, and bounds them, if and only if it starts none. -/
theorem writeFreeCall_meets_iff {answers : List (State τ × Bool)} {r : List (Section τ) × ℕ}
    (h : s.pageList.Listed) (hanswers : ∀ a ∈ answers, a.1.pageList.Listed)
    (hcall : s.writeFreeCall numPages 0 answers = some r) :
    (∀ sec ∈ r.1, sec.Ok) ∧ (Meets numPages r ↔ NoWrite s numPages) := by
  obtain ⟨htotal, hoks, secs, hsecs, hlast⟩ := writeFreeCall_spec h hanswers hcall
  have hquiet := (writeFreeSection_spec h numPages).2
  refine ⟨hoks, fun hmeets => ?_, fun hq => ?_⟩
  · rw [← hquiet]
    have hcounted := hmeets.counted
    rw [htotal, eq_comm, List.length_eq_zero_iff, hsecs, started] at hcounted
    by_contra hput
    obtain ⟨off, hoff⟩ := Option.ne_none_iff_exists'.mp hput
    rw [List.filterMap_cons_some hoff] at hcounted
    cases hcounted
  · have hput := hquiet.mpr hq
    have hnone : started r.1 = [] := by
      rw [hsecs, hlast hput, started, List.filterMap_cons_none hput]
      rfl
    refine ⟨?_, ?_, hoks⟩
    · rw [hnone]
      exact Nat.zero_le _
    · rw [hnone, htotal]
      rfl

/-- A manager with two dirty pages on its free list. -/
def twoDirty : State Unit where
  pageList := (PageList.empty.enqueueFreeList 0 { PageDesc.init (some 0) with dirty := true }
    ).enqueueFreeList 4096 { PageDesc.init (some 1) with dirty := true }
  pendingWrite := none
  pinnedCount := 0
  pageable := true
  maxNumPages := 16
  framesPerPage := 1
  io _ := .idle
  frames := {0, 1}
  holds _ := []
  threads _ := .idle

theorem twoDirty_listed : twoDirty.pageList.Listed := by
  have hone : (PageList.empty.enqueueFreeList 0
      { PageDesc.init (some 0) with dirty := true }).Listed :=
    PageList.empty_listed.enqueueFreeList List.not_mem_nil
  exact hone.enqueueFreeList (by decide)

/-- The states that the call meets if nothing else happens and both writes succeed. -/
def bothWritten : List (State Unit × Bool) :=
  let s₁ := (twoDirty.writeFreeSection 1).after
  [(s₁, true), (((s₁.clearPending true).writeFreeSection 1).after, true)]

theorem bothWritten_listed : ∀ a ∈ bothWritten, a.1.pageList.Listed := by
  have h₁ := (writeFreeLoop_spec 1 twoDirty_listed (Nat.lt_succ_self _)).2.1
  have h₂ := (writeFreeLoop_spec (s := (twoDirty.writeFreeSection 1).after.clearPending true)
    1 h₁ (Nat.lt_succ_self _)).2.1
  intro a ha
  rcases List.mem_cons.mp ha with rfl | ha
  · exact h₁
  · rw [List.mem_singleton.mp ha]
    exact h₂

theorem writeFreeCall_bothWritten : (twoDirty.writeFreeCall 1 0 bothWritten).map
    (fun r => (started r.1, r.2)) = some ([0, 4096], 0) := by
  decide +kernel

theorem writeFreeCall_meets_iff_twoDirty : ∃ r,
    twoDirty.writeFreeCall 1 0 bothWritten = some r ∧ (∀ sec ∈ r.1, sec.Ok) ∧
      (Meets 1 r ↔ NoWrite twoDirty 1) := by
  obtain ⟨r, hcall, -⟩ := Option.map_eq_some_iff.mp writeFreeCall_bothWritten
  exact ⟨r, hcall, writeFreeCall_meets_iff twoDirty_listed bothWritten_listed hcall⟩

/-- Asked for one page the call writes both, and returns 0. -/
theorem not_writeFreeCall_meets :
    ¬ ∀ (s : State Unit) (numPages : ℕ) (answers : List (State Unit × Bool))
      (r : List (Section Unit) × ℕ), s.pageList.Listed →
      (∀ a ∈ answers, a.1.pageList.Listed) → s.writeFreeCall numPages 0 answers = some r →
      Meets numPages r := by
  intro h
  obtain ⟨r, hcall, hr⟩ := Option.map_eq_some_iff.mp writeFreeCall_bothWritten
  have hmeets := h twoDirty 1 bothWritten r twoDirty_listed bothWritten_listed hcall
  have hstarted : started r.1 = [0, 4096] := congrArg Prod.fst hr
  have hbounded := hmeets.bounded
  rw [hstarted] at hbounded
  exact absurd hbounded (by decide)

end FCMDefault

end K42
