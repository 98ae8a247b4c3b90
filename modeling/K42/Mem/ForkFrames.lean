import K42.Mem.ForkCopy

/-!
# The frames that a fork copies to

`forkCopy` reserves frames before its loop over the pages: one for each pinned page, or one
for each page when it copies mapped pages too. The loop takes a frame for each copy. When the
parent has two children, and so cannot adopt the new child, mapped pages are copied as in the
last fork, but the number of pages has not been counted then.
-/

namespace K42

namespace ForkCopy

open FCMDefault

variable {τ : Type} [DecidableEq τ]

/-- What `forkCopy` finds above the leaf: no parent, one that has two children, or one that
adopts the new child. -/
inductive Above
  | none
  | full
  | adopts (parentCopies childUnmapped : ℕ)
deriving DecidableEq

/-- Without a parent nothing is remembered. `parentCopies` is not set but by a parent that
adopts. -/
def Above.adoption (lastForkUsedCopy : Bool) (unset : ℕ) : Above → Adoption
  | .none => ⟨false, unset, unset, false⟩
  | .full => ⟨false, unset, unset, lastForkUsedCopy⟩
  | .adopts parentCopies childUnmapped => ⟨true, parentCopies, childUnmapped, lastForkUsedCopy⟩

/-! ## The loop with the frames that it takes -/

namespace State

/-- A page is copied and counted. -/
def copyAndCount (s : State τ) (off : ℕ) (pg : PageDesc) (c : Counts) : State τ × Counts :=
  let (s, c) := (s.offFreeList off pg).copyPage off c
  (s, { c with
    pinCopyCount := if pg.pinCount ≠ 0 then decrement c.pinCopyCount else c.pinCopyCount })

/-- `pageLoop` with its counters at the end, and what each call of `getFrame` returns. -/
def frameLoop (copyOnFork : Bool) :
    List ℕ → Counts → State τ → State τ × Counts × List (Option ℕ)
  | [], c, s => (s, c, [])
  | off :: rest, c, s =>
    match s.leaf.pageList.find off with
    | none => frameLoop copyOnFork rest c s
    | some pg =>
      if pg.established then frameLoop copyOnFork rest c s
      else if pg.pinCount ≠ 0 ∨
          copyOnFork ∧ pg.mapped ∧ c.pinCopyCount < c.copyCount then
        let next := s.copyAndCount off pg c
        let r := frameLoop copyOnFork rest next.2 next.1
        (r.1, r.2.1, c.ffl.head? :: r.2.2)
      else
        frameLoop copyOnFork rest c ((s.offFreeList off pg).givePage off
          { pg with free := false, mapped := if copyOnFork then false else pg.mapped })

end State

/-- A run of the page loop. -/
structure LoopCall (τ : Type) where
  state : State τ
  copyOnFork : Bool
  counts : Counts
  walk : List ℕ

/-- The loop that runs in a step. -/
def loopCall (s : State τ) : Op τ → Option (LoopCall τ)
  | .forkCopy a walk =>
    if s.leaf.pageList.entries.entries.any (fun e => PageDesc.doingIO e.2) then none
    else if s.copyCount a = 0 then
      let l := if s.copyOnFork a then s.leaf.pageList else walk.foldl unmap s.leaf.pageList
      some ⟨s.setPages l, s.copyOnFork a, ⟨0, s.leaf.pinnedCount, a.parentCopies, []⟩, walk⟩
    else none
  | .framesReady ffl walk =>
    match s.phase with
    | .allocating copyOnFork copyCount pinCopyCount parentCopies =>
      some ⟨s, copyOnFork, ⟨copyCount, pinCopyCount, parentCopies, ffl⟩, walk⟩
    | _ => none
  | .pager _ => none

namespace LoopCall

def run (k : LoopCall τ) : State τ × Counts × List (Option ℕ) :=
  k.state.frameLoop k.copyOnFork k.walk k.counts

/-- What the calls of `getFrame` return. -/
def frames (k : LoopCall τ) : List (Option ℕ) := k.run.2.2

/-- What `deallocListOfPages` is given. -/
def returned (k : LoopCall τ) : List ℕ := k.run.2.1.ffl

end LoopCall

/-- Every call of `getFrame` in the step returns a frame, and the frames that were reserved
and not used are returned. -/
def FramesSuffice (s : State τ) (op : Op τ) : Prop :=
  ∀ k ∈ loopCall s op, (∀ r ∈ k.frames, r.isSome = true) ∧
    k.frames.filterMap id ++ k.returned = k.counts.ffl

/-- A page that must be copied. -/
def mustCopy (pg : PageDesc) : Bool := !pg.established && decide (pg.pinCount ≠ 0)

/-- When the parent is full and the last fork copied, no page must be copied. -/
def Reserves (s : State τ) : Op τ → Prop
  | .forkCopy a _ => a.adopted = false → a.lastForkUsedCopy = true →
      (∀ off pg, s.leaf.pageList.find off = some pg → pg.doingIO = false) →
      ∀ off pg, s.leaf.pageList.find off = some pg → mustCopy pg = false
  | .framesReady _ _ => True
  | .pager _ => True

/-- `allocListOfPages` succeeds with the number of frames that was asked for. -/
def Granted (s : State τ) : Op τ → Prop
  | .framesReady ffl _ => ∀ copyOnFork copyCount pinCopyCount parentCopies,
      s.phase = .allocating copyOnFork copyCount pinCopyCount parentCopies →
      ffl.length = copyCount
  | .forkCopy _ _ => True
  | .pager _ => True

/-- One `forkCopy` and the pager, with a page manager that has the frames. -/
def reserving : Machine (State τ) (Op τ) := ⟨step, fun s op => adm s op ∧ Granted s op⟩

/-! ## What the loop does -/

variable {s : State τ} {c : Counts} {copyOnFork : Bool} {walk : List ℕ} {off : ℕ} {pg : PageDesc}

/-- What a copy does to the counters. -/
structure Counted (c c' : Counts) (pg : PageDesc) : Prop where
  copyCount : c'.copyCount = decrement c.copyCount
  pinCopyCount : c'.pinCopyCount =
    if pg.pinCount ≠ 0 then decrement c.pinCopyCount else c.pinCopyCount
  ffl : c'.ffl = c.ffl.tail

section

omit [DecidableEq τ]

theorem copyAndCount_counted (s : State τ) (off : ℕ) (pg : PageDesc) (c : Counts) :
    Counted c (s.copyAndCount off pg c).2 pg := by
  unfold State.copyAndCount State.copyPage
  exact ⟨rfl, rfl, rfl⟩

theorem copyAndCount_pageList (s : State τ) (off : ℕ) (pg : PageDesc) (c : Counts) :
    (s.copyAndCount off pg c).1.leaf.pageList = (s.offFreeList off pg).leaf.pageList := by
  unfold State.copyAndCount State.copyPage
  rfl

theorem frameLoop_returned (copyOnFork : Bool) (walk : List ℕ) : ∀ (c : Counts) (s : State τ),
    (s.frameLoop copyOnFork walk c).2.2.filterMap id ++ (s.frameLoop copyOnFork walk c).2.1.ffl =
      c.ffl := by
  induction walk with
  | nil => exact fun _ _ => rfl
  | cons off rest ih =>
    intro c s
    rw [State.frameLoop]
    cases s.leaf.pageList.find off with
    | none => exact ih c s
    | some pg =>
      simp only
      split
      · exact ih c s
      · split
        · obtain ⟨copyCount, pinCopyCount, parentCopies, ffl⟩ := c
          cases ffl with
          | nil => exact ih _ _
          | cons f ffl => exact congrArg (f :: ·) (ih _ _)
        · exact ih c _

theorem frameLoop_state (copyOnFork : Bool) (walk : List ℕ) : ∀ (c : Counts) (s : State τ),
    (s.frameLoop copyOnFork walk c).1 = State.pageLoop copyOnFork walk c s := by
  induction walk with
  | nil => exact fun _ _ => rfl
  | cons off rest ih =>
    intro c s
    rw [State.frameLoop, State.pageLoop]
    cases s.leaf.pageList.find off with
    | none => exact ih c s
    | some pg =>
      simp only
      split
      · exact ih c s
      · split
        · exact ih _ _
        · exact ih c _

end

/-- The loop that runs in a step leads to the state after it. -/
theorem step_of_loopCall {op : Op τ} {k : LoopCall τ} (h : loopCall s op = some k) :
    step s op = { k.run.1 with phase := .done } := by
  unfold LoopCall.run
  rw [frameLoop_state]
  unfold step loopCall at *
  cases op with
  | forkCopy a walk =>
    simp only [State.forkCopy] at h ⊢
    split at h
    · cases h
    · split at h
      · rename_i hidle hzero
        cases h
        rw [if_neg hidle, if_pos hzero]
        rfl
      · cases h
  | framesReady ffl walk =>
    cases hphase : s.phase with
    | allocating copyOnFork copyCount pinCopyCount parentCopies =>
      rw [hphase] at h
      cases h
      unfold State.framesReady
      rw [hphase]
      rfl
    | start | finishing | done =>
      rw [hphase] at h
      cases h
  | pager _ => cases h

/-- The page at the offset must be copied. -/
def mustCopyAt (l : PageList) (off : ℕ) : Bool := (l.find off).any mustCopy

/-- The number of pages that must be copied. -/
def needed (l : PageList) : ℕ := Assoc.count mustCopy l.entries

variable {l : PageList} {o pinned pages : ℕ} {walk : List ℕ} {s : State τ}

theorem countP_mustCopyAt (hwalk : walk.Perm l.entries.keys) :
    walk.countP (mustCopyAt l) = needed l := by
  rw [hwalk.countP_eq, AList.keys, List.keys, List.countP_map, needed, Assoc.count]
  refine List.countP_congr fun e he => ?_
  have hfind : l.find e.1 = some e.2 := AList.mem_lookup_iff.mpr he
  rw [Function.comp_apply, mustCopyAt, hfind, Option.any_some]

theorem needed_le_numPages (l : PageList) : needed l ≤ l.getNumPages := List.countP_le_length

theorem needed_le_numPinned (l : PageList) : needed l ≤ l.numPinned := by
  refine List.countP_mono_left fun e _ he => ?_
  rw [mustCopy, Bool.and_eq_true, decide_eq_true_eq] at he
  exact decide_eq_true (Nat.pos_of_ne_zero he.2)

theorem find_remove_ne (l : PageList) (ho : o ≠ off) : (l.remove off).find o = l.find o := by
  rw [PageList.remove]
  cases l.find off with
  | none => rfl
  | some pg => exact PageList.find_erase_ne _ _ _ ho

section

omit [DecidableEq τ]

theorem find_offFreeList_ne (s : State τ) (pg : PageDesc) (ho : o ≠ off) :
    (s.offFreeList off pg).leaf.pageList.find o = s.leaf.pageList.find o := by
  rw [State.offFreeList]
  split
  · exact PageList.find_insert_ne _ _ _ _ ho
  · rfl

theorem find_givePage_ne (s : State τ) (pg : PageDesc) (ho : o ≠ off) :
    (s.givePage off pg).leaf.pageList.find o = s.leaf.pageList.find o :=
  find_remove_ne s.leaf.pageList ho

end

theorem countP_congr {l' : PageList} {rest : List ℕ} (hoff : off ∉ rest)
    (hfind : ∀ o, o ≠ off → l'.find o = l.find o) :
    rest.countP (mustCopyAt l') = rest.countP (mustCopyAt l) := by
  refine List.countP_congr fun o ho => ?_
  rw [mustCopyAt, mustCopyAt, hfind o fun heq => hoff (heq ▸ ho)]

theorem decrement_eq {n : ℕ} (hpos : 0 < n) (hn : n < 2 ^ 64) : decrement n = n - 1 := by
  rw [decrement]
  omega

theorem decrement_lt (n : ℕ) : decrement n < 2 ^ 64 := by
  rw [decrement]
  exact Nat.mod_lt _ (Nat.two_pow_pos 64)

section

omit [DecidableEq τ]

/-- **The frames suffice**, when there is one for each page that must be copied, and the others
are copied only while more frames are left than that. -/
theorem frameLoop_isSome (copyOnFork : Bool) (hnodup : walk.Nodup) {c : Counts}
    (hffl : c.ffl.length = c.copyCount) (hcopy : c.copyCount < 2 ^ 64)
    (hpin : c.pinCopyCount < 2 ^ 64)
    (hneed : walk.countP (mustCopyAt s.leaf.pageList) ≤ c.copyCount)
    (hneed' : walk.countP (mustCopyAt s.leaf.pageList) ≤ c.pinCopyCount) :
    ∀ r ∈ (s.frameLoop copyOnFork walk c).2.2, r.isSome = true := by
  induction walk generalizing c s with
  | nil => exact fun r hr => nomatch hr
  | cons off rest ih =>
    obtain ⟨hoff, hnodup⟩ := List.nodup_cons.mp hnodup
    rw [List.countP_cons] at hneed hneed'
    rw [State.frameLoop]
    cases hpg : s.leaf.pageList.find off with
    | none =>
      simp only [mustCopyAt, hpg, Option.any_none] at hneed hneed'
      exact ih hnodup hffl hcopy hpin hneed hneed'
    | some pg =>
      have hmust : mustCopyAt s.leaf.pageList off = mustCopy pg := by
        rw [mustCopyAt, hpg, Option.any_some]
      rw [hmust] at hneed hneed'
      simp only
      by_cases hest : pg.established = true
      · rw [if_pos hest]
        exact ih hnodup hffl hcopy hpin (Nat.le_of_add_right_le hneed)
          (Nat.le_of_add_right_le hneed')
      · rw [if_neg hest]
        have hrest : rest.countP (mustCopyAt (s.copyAndCount off pg c).1.leaf.pageList) =
            rest.countP (mustCopyAt s.leaf.pageList) := by
          rw [copyAndCount_pageList]
          exact countP_congr hoff fun o ho => find_offFreeList_ne s pg ho
        split
        · rename_i hcopies
          -- a pinned page has its own frame, another one is copied while one is left over
          have hone : mustCopy pg = decide (pg.pinCount ≠ 0) := by
            rw [mustCopy, Bool.eq_false_of_not_eq_true hest]
            rfl
          rw [hone] at hneed hneed'
          have hpos : 0 < c.copyCount := by
            rcases hcopies with hpinned | ⟨-, -, hmore⟩
            · rw [if_pos (decide_eq_true hpinned)] at hneed
              exact Nat.lt_of_lt_of_le (Nat.succ_pos _) hneed
            · exact Nat.zero_lt_of_lt hmore
          obtain ⟨f, ffl, hcons⟩ : ∃ f ffl, c.ffl = f :: ffl :=
            List.exists_cons_of_length_pos (hffl ▸ hpos)
          intro r hr
          rcases List.mem_cons.mp hr with rfl | hr
          · rw [hcons]
            rfl
          · have hcounted := copyAndCount_counted s off pg c
            have hdec := decrement_eq hpos hcopy
            refine ih hnodup ?_ ?_ ?_ ?_ ?_ r hr
            · rw [hcounted.ffl, hcounted.copyCount, List.length_tail, hffl, hdec]
            · rw [hcounted.copyCount]
              exact decrement_lt _
            · rw [hcounted.pinCopyCount]
              split
              · exact decrement_lt _
              · exact hpin
            · rw [hrest, hcounted.copyCount, hdec]
              by_cases hpinned : pg.pinCount ≠ 0
              · rw [if_pos (decide_eq_true hpinned)] at hneed
                exact Nat.le_sub_one_of_lt hneed
              · obtain ⟨-, -, hmore⟩ := hcopies.resolve_left hpinned
                exact (Nat.le_of_add_right_le hneed').trans (Nat.le_sub_one_of_lt hmore)
            · rw [hrest, hcounted.pinCopyCount]
              by_cases hpinned : pg.pinCount ≠ 0
              · rw [if_pos (decide_eq_true hpinned)] at hneed'
                rw [if_pos hpinned, decrement_eq (Nat.zero_lt_of_lt hneed') hpin]
                exact Nat.le_sub_one_of_lt hneed'
              · rw [if_neg hpinned]
                exact Nat.le_of_add_right_le hneed'
        · refine ih hnodup hffl hcopy hpin ?_ ?_
          · rw [countP_congr hoff fun o ho => (find_givePage_ne _ _ ho).trans
              (find_offFreeList_ne s pg ho)]
            exact Nat.le_of_add_right_le hneed
          · rw [countP_congr hoff fun o ho => (find_givePage_ne _ _ ho).trans
              (find_offFreeList_ne s pg ho)]
            exact Nat.le_of_add_right_le hneed'

theorem frameLoop_none (hnodup : walk.Nodup) {pinCopyCount parentCopies : ℕ}
    (hsome : ∃ off ∈ walk, mustCopyAt s.leaf.pageList off = true) :
    none ∈ (s.frameLoop copyOnFork walk ⟨0, pinCopyCount, parentCopies, []⟩).2.2 := by
  induction walk generalizing s with
  | nil => exact absurd hsome (by simp)
  | cons off rest ih =>
    obtain ⟨hoff, hnodup⟩ := List.nodup_cons.mp hnodup
    rw [State.frameLoop]
    have hlater : ∀ {l : PageList}, (∀ o, o ≠ off → l.find o = s.leaf.pageList.find o) →
        mustCopyAt s.leaf.pageList off = false → ∃ o ∈ rest, mustCopyAt l o = true := by
      intro l hfind hnot
      obtain ⟨o, ho, hmust⟩ := hsome
      rcases List.mem_cons.mp ho with rfl | ho
      · rw [hnot] at hmust
        cases hmust
      · refine ⟨o, ho, ?_⟩
        rw [mustCopyAt, hfind o fun heq => hoff (heq ▸ ho)]
        exact hmust
    cases hpg : s.leaf.pageList.find off with
    | none => exact ih hnodup (hlater (fun _ _ => rfl) (by rw [mustCopyAt, hpg]; rfl))
    | some pg =>
      have hmust : mustCopyAt s.leaf.pageList off = mustCopy pg := by
        rw [mustCopyAt, hpg, Option.any_some]
      simp only
      split
      · rename_i hest
        refine ih hnodup (hlater (fun _ _ => rfl) ?_)
        rw [hmust, mustCopy, hest]
        rfl
      · split
        · exact List.mem_cons_self
        · rename_i hnot
          refine ih hnodup (hlater (fun o ho => (find_givePage_ne _ _ ho).trans
            (find_offFreeList_ne s pg ho)) ?_)
          rw [not_or, not_not] at hnot
          rw [hmust, mustCopy, hnot.1]
          exact Bool.and_false _

end

/-! ## What the pager leaves alone -/

/-- The pages that must be copied, and all pages, are no more than so many. -/
structure Bounded (pinned must pages : ℕ) (s : FCMDefault.State τ) : Prop where
  listed : s.pageList.Listed
  pinnedCount : s.pinnedCount = pinned
  needed : needed s.pageList ≤ must
  numPages : s.pageList.getNumPages ≤ pages

namespace Bounded

variable {pinned must pages : ℕ} {s s' : FCMDefault.State τ} {pg' : PageDesc}

theorem numPages_eq (l : PageList) : l.getNumPages = Assoc.count (fun _ => true) l.entries := by
  rw [Assoc.count, List.countP_true]
  rfl

section

omit [DecidableEq τ]

theorem store (h : Bounded pinned must pages s) (hpg : s.pageList.find off = some pg)
    (hentries : s'.pageList.entries = s.pageList.entries.insert off pg')
    (hmust : mustCopy pg' = mustCopy pg) (hlisted : s'.pageList.Listed)
    (hcount : s'.pinnedCount = s.pinnedCount) : Bounded pinned must pages s' := by
  have hlookup : s.pageList.entries.lookup off = some pg := hpg
  have hweight : ∀ p : PageDesc → Bool, p pg' = p pg →
      Assoc.count p s'.pageList.entries = Assoc.count p s.pageList.entries := by
    intro p hp
    rw [hentries]
    refine Assoc.count_insert_of_weight_eq p ?_
    rw [hlookup, Assoc.weight, Assoc.weight, hp]
  refine ⟨hlisted, hcount.trans h.pinnedCount, ?_, ?_⟩
  · exact (hweight mustCopy hmust).trans_le h.needed
  · rw [numPages_eq, hweight _ rfl, ← numPages_eq]
    exact h.numPages

theorem drop (h : Bounded pinned must pages s) (off : ℕ)
    (hremove : s'.pageList = s.pageList.remove off) (hcount : s'.pinnedCount = s.pinnedCount) :
    Bounded pinned must pages s' := by
  have hle : ∀ p : PageDesc → Bool,
      Assoc.count p s'.pageList.entries ≤ Assoc.count p s.pageList.entries := by
    intro p
    rw [hremove, h.listed.remove_eq, ← Assoc.count_erase p s.pageList.entries off]
    exact Nat.le_add_right _ _
  refine ⟨hremove ▸ h.listed.remove off, hcount.trans h.pinnedCount, ?_, ?_⟩
  · exact (hle mustCopy).trans h.needed
  · have hpages := hle fun _ => true
    rw [← numPages_eq, ← numPages_eq] at hpages
    exact hpages.trans h.numPages

end

theorem kept (walk : List ℕ) : Kept (Bounded (τ := τ) pinned must pages) walk where
  freeLater hs hpg _ _ := hs.store hpg rfl rfl hs.listed.dequeueFreeList rfl
  startPut hs hpg _ _ := hs.store hpg rfl rfl hs.listed.dequeueFreeList rfl
  drop {_ off _} hs _ _ _ := hs.drop off rfl rfl
  enqueue {s off pg} hs _ hpg _ _ hfree := by
    refine hs.store hpg rfl rfl (hs.listed.enqueueFreeList ?_) rfl
    rw [hs.listed.mem_iff hpg, hfree]
    exact Bool.false_ne_true
  unmap {s off pg} hs hpg _ _ := by
    refine hs.store hpg rfl rfl (hs.listed.set ?_) rfl
    rw [hs.listed.mem_iff hpg]
  thread _ _ hs := ⟨hs.listed, hs.pinnedCount, hs.needed, hs.numPages⟩
  pending hs := ⟨hs.listed, hs.pinnedCount, hs.needed, hs.numPages⟩

omit [DecidableEq τ] in
theorem ioComplete (h : Bounded pinned must pages s) :
    Bounded pinned must pages (s.ioComplete off) := by
  unfold FCMDefault.State.ioComplete
  split
  · exact h
  · rename_i pg hpg
    unfold FCMDefault.State.ioCompleteInternal
    split
    · exact h.drop off rfl rfl
    · refine h.store hpg rfl rfl (h.listed.set ?_) rfl
      rw [h.listed.mem_iff hpg]

theorem pager (h : Bounded pinned must pages s) {op : FCMDefault.Op τ}
    (hp : isPager s op = true) : Bounded pinned must pages (FCMDefault.step s op) := by
  cases op with
  | giveBack t level walk walk' =>
    exact Kept.giveBack t level (fun _ _ => kept _) (fun _ => kept _) h
  | writeFreeFreeList t numPages => exact (kept []).writeFreeFreeList t numPages h
  | resumeIO t => exact Kept.resumeIO (kept []) t h
  | resume t ok walk =>
    refine (kept []).resume t ok (fun _ _ _ _ _ => kept _) (fun off write hc => ?_) h
    rw [isPager, hc] at hp
    cases hp
  | accept t off => exact ⟨h.listed, h.pinnedCount, h.needed, h.numPages⟩
  | ioComplete off => exact h.ioComplete
  | getPage off => cases hp
  | preFetch off => cases hp
  | mapPage t off write walk => cases hp
  | releasePage off dirty => cases hp
  | gotFrame off frame => cases hp
  | fillAnswer off notFound => cases hp

end Bounded

/-! ## Runs -/

/-- `forkCopy` has not been called. `pinnedCount` has counted the pinned pages. -/
structure StartCounted (s : State τ) : Prop where
  phase : s.phase = .start
  listed : s.leaf.pageList.Listed
  pinned : s.leaf.pageList.numPinned ≤ s.leaf.pinnedCount
  small : s.leaf.pinnedCount < 2 ^ 64
  few : s.leaf.pageList.getNumPages < 2 ^ 64

/-- Up to the loop, as many frames are reserved or counted as pages must be copied. -/
def InvFrames (s : State τ) : Prop :=
  match s.phase with
  | .start | .finishing => ∃ pinned pages, pinned < 2 ^ 64 ∧ pages < 2 ^ 64 ∧
      Bounded pinned pinned pages s.leaf
  | .allocating _ copyCount pinCopyCount _ => copyCount < 2 ^ 64 ∧ pinCopyCount < 2 ^ 64 ∧
      ∃ pinned must pages, must ≤ copyCount ∧ must ≤ pinCopyCount ∧
        Bounded pinned must pages s.leaf
  | .done => True

section

omit [DecidableEq τ]

theorem StartCounted.inv (h : StartCounted s) : InvFrames s := by
  rw [InvFrames, h.phase]
  exact ⟨_, _, h.small, h.few, h.listed, rfl, (needed_le_numPinned _).trans h.pinned, le_rfl⟩

theorem bounded_unmap {must : ℕ} (walk : List ℕ) (h : Bounded pinned must pages s.leaf) :
    Bounded pinned must pages (s.setPages (walk.foldl unmap s.leaf.pageList)).leaf := by
  induction walk generalizing s with
  | nil => exact h
  | cons off rest ih =>
    have hone : Bounded pinned must pages (s.setPages (unmap s.leaf.pageList off)).leaf := by
      rw [unmap]
      cases hpg : s.leaf.pageList.find off with
      | none => exact h
      | some pg =>
        refine h.store hpg rfl rfl (h.listed.set ?_) rfl
        rw [h.listed.mem_iff hpg]
    exact ih hone

end

theorem mustCopyAt_unmap (walk : List ℕ) (off : ℕ) : ∀ l : PageList,
    mustCopyAt (walk.foldl unmap l) off = mustCopyAt l off := by
  induction walk with
  | nil => exact fun _ => rfl
  | cons o rest ih =>
    intro l
    rw [List.foldl_cons, ih, unmap]
    cases hpg : l.find o with
    | none => rfl
    | some pg =>
      have hset : ∀ o', (l.set o { pg with mapped := false }).find o' =
          if o' = o then some { pg with mapped := false } else l.find o' := by
        intro o'
        split
        · subst o'
          exact PageList.find_insert _ _ _ _
        · rename_i ho
          exact PageList.find_insert_ne _ _ _ _ ho
      rw [mustCopyAt, mustCopyAt, hset]
      split
      · subst off
        rw [hpg]
        rfl
      · rfl

theorem nodup_of_perm (hwalk : walk.Perm l.entries.keys) : walk.Nodup :=
  hwalk.nodup_iff.mpr l.entries.keys_nodup

section

omit [DecidableEq τ]

theorem InvFrames.calls (h : InvFrames s) (hcalls : s.phase.calls = true) :
    ∃ pinned pages, pinned < 2 ^ 64 ∧ pages < 2 ^ 64 ∧ Bounded pinned pinned pages s.leaf := by
  rw [InvFrames] at h
  cases hphase : s.phase with
  | start =>
    rw [hphase] at h
    exact h
  | finishing =>
    rw [hphase] at h
    exact h
  | allocating copyOnFork copyCount pinCopyCount parentCopies =>
    rw [hphase] at hcalls
    cases hcalls
  | done =>
    rw [hphase] at hcalls
    cases hcalls

theorem needed_le_copyCount (h : Bounded pinned pinned pages s.leaf)
    (a : Adoption) (hcount : s.copyOnFork a = true → a.adopted = true) :
    needed s.leaf.pageList ≤ s.copyCount a := by
  rw [State.copyCount]
  split
  · rename_i hcopy
    rw [if_pos (hcount hcopy)]
    exact needed_le_numPages _
  · exact h.needed.trans_eq h.pinnedCount.symm

theorem copyCount_lt (h : Bounded pinned pinned pages s.leaf)
    (hpinned : pinned < 2 ^ 64) (hpages : pages < 2 ^ 64) (a : Adoption) :
    s.copyCount a < 2 ^ 64 := by
  rw [State.copyCount]
  split
  · split
    · exact h.numPages.trans_lt hpages
    · exact Nat.two_pow_pos 64
  · exact h.pinnedCount.trans_lt hpinned

theorem InvFrames.forkCopy (h : InvFrames s) (hcalls : s.phase.calls = true) (a : Adoption)
    (walk : List ℕ) : InvFrames (s.forkCopy a walk) := by
  obtain ⟨pinned, pages, hpinned, hpages, hbounded⟩ := h.calls hcalls
  rw [State.forkCopy]
  split
  · exact ⟨pinned, pages, hpinned, hpages, hbounded⟩
  · simp only
    split
    · exact trivial
    · rename_i hcount
      have hadopted : s.copyOnFork a = true → a.adopted = true := by
        intro hcopy
        by_contra hnot
        rw [State.copyCount, if_pos hcopy, if_neg hnot] at hcount
        exact hcount rfl
      have hset : Bounded pinned (needed s.leaf.pageList) pages s.leaf :=
        ⟨hbounded.listed, hbounded.pinnedCount, le_rfl, hbounded.numPages⟩
      refine ⟨copyCount_lt hbounded hpinned hpages a, hbounded.pinnedCount.trans_lt hpinned,
        pinned, needed s.leaf.pageList, pages, needed_le_copyCount hbounded a hadopted,
        hbounded.needed.trans_eq hbounded.pinnedCount.symm, ?_⟩
      split
      · exact hset
      · exact bounded_unmap walk hset

end

theorem InvFrames.step (h : InvFrames s) {op : Op τ} (hadm : adm s op) :
    InvFrames (step s op) := by
  cases op with
  | forkCopy a walk => exact h.forkCopy hadm.1 a walk
  | framesReady ffl walk =>
    rw [ForkCopy.step, State.framesReady]
    cases hphase : s.phase with
    | allocating copyOnFork copyCount pinCopyCount parentCopies => exact trivial
    | start => exact h
    | finishing => exact h
    | done => exact h
  | pager op =>
    rw [InvFrames] at h
    rw [InvFrames]
    show match s.phase with
      | .start | .finishing => _
      | .allocating _ _ _ _ => _
      | .done => True
    cases hphase : s.phase with
    | start =>
      rw [hphase] at h
      obtain ⟨pinned, pages, hpinned, hpages, hbounded⟩ := h
      exact ⟨pinned, pages, hpinned, hpages, hbounded.pager hadm.1⟩
    | finishing =>
      rw [hphase] at h
      obtain ⟨pinned, pages, hpinned, hpages, hbounded⟩ := h
      exact ⟨pinned, pages, hpinned, hpages, hbounded.pager hadm.1⟩
    | allocating copyOnFork copyCount pinCopyCount parentCopies =>
      rw [hphase] at h
      obtain ⟨hcopy, hpin, pinned, must, pages, hmust, hmust', hbounded⟩ := h
      exact ⟨hcopy, hpin, pinned, must, pages, hmust, hmust', hbounded.pager hadm.1⟩
    | done => exact trivial

section

omit [DecidableEq τ]

/-- The loop that runs at once, because nothing is reserved. -/
theorem unreserved_isSome_iff
    (hwalk : walk.Perm s.leaf.pageList.entries.keys) (b : Bool) (parentCopies : ℕ)
    (hpinned : pinned < 2 ^ 64) (hl : ∀ off, mustCopyAt l off = mustCopyAt s.leaf.pageList off) :
    (∀ r ∈ ((s.setPages l).frameLoop b walk ⟨0, pinned, parentCopies, []⟩).2.2, r.isSome = true) ↔
      ∀ off pg, s.leaf.pageList.find off = some pg → mustCopy pg = false := by
  have hnodup := nodup_of_perm hwalk
  constructor
  · intro hsome off pg hpg
    by_contra hmust
    have hin : off ∈ walk := by
      refine hwalk.mem_iff.mpr (AList.lookup_isSome.mp ?_)
      rw [show s.leaf.pageList.entries.lookup off = some pg from hpg]
      rfl
    have hat : mustCopyAt l off = true := by
      rw [hl, mustCopyAt, hpg, Option.any_some]
      exact Bool.not_eq_false _ ▸ hmust
    have hnone := hsome none (frameLoop_none (s := s.setPages l) hnodup ⟨off, hin, hat⟩)
    cases hnone
  · intro hall
    have hzero : walk.countP (mustCopyAt l) = 0 := by
      refine List.countP_eq_zero.mpr fun off _ => ?_
      rw [hl, mustCopyAt]
      cases hpg : s.leaf.pageList.find off with
      | none => exact Bool.false_ne_true
      | some pg =>
        rw [Option.any_some, hall off pg hpg]
        exact Bool.false_ne_true
    refine frameLoop_isSome b hnodup rfl (Nat.two_pow_pos 64) hpinned ?_ ?_
    · exact hzero.le
    · exact hzero.trans_le (Nat.zero_le pinned)

theorem forkCopy_suffices_iff (h : InvFrames s) (a : Adoption) (walk : List ℕ)
    (hadm : adm s (.forkCopy a walk)) :
    FramesSuffice s (.forkCopy a walk) ↔ Reserves s (.forkCopy a walk) := by
  obtain ⟨pinned, pages, hpinned, hpages, hbounded⟩ := h.calls hadm.1
  have hidle : s.leaf.pageList.entries.entries.any (fun e => PageDesc.doingIO e.2) = false ↔
      ∀ off pg, s.leaf.pageList.find off = some pg → pg.doingIO = false := by
    rw [List.any_eq_false]
    constructor
    · exact fun hall off pg hpg =>
        Bool.not_eq_true _ ▸ hall ⟨off, pg⟩ (AList.mem_lookup_iff.mp hpg)
    · exact fun hall e he => (Bool.not_eq_true _).mpr
        (hall e.1 e.2 (AList.mem_lookup_iff.mpr he))
  have hfull : a.adopted = false → a.lastForkUsedCopy = true → s.copyCount a = 0 := by
    intro hadopted hlast
    have hcopy : s.copyOnFork a = true := by
      rw [State.copyOnFork, hadopted]
      exact hlast
    rw [State.copyCount, if_pos hcopy, hadopted]
    rfl
  by_cases hany : s.leaf.pageList.entries.entries.any (fun e => PageDesc.doingIO e.2) = true
  · -- blocked in `finishAllIO`
    have hcall : loopCall s (.forkCopy a walk) = none := by
      rw [loopCall, if_pos hany]
    refine iff_of_true (fun k hk => ?_) fun _ _ hall => ?_
    · rw [hcall] at hk
      cases hk
    · rw [hidle.mpr hall] at hany
      cases hany
  · by_cases hcount : s.copyCount a = 0
    · let l := if s.copyOnFork a then s.leaf.pageList else walk.foldl unmap s.leaf.pageList
      have hcall : loopCall s (.forkCopy a walk) = some ⟨s.setPages l, s.copyOnFork a,
          ⟨0, s.leaf.pinnedCount, a.parentCopies, []⟩, walk⟩ := by
        rw [loopCall, if_neg hany, if_pos hcount]
      have hl : ∀ off, mustCopyAt l off = mustCopyAt s.leaf.pageList off := by
        intro off
        show mustCopyAt (if s.copyOnFork a then _ else _) off = _
        split
        · rfl
        · exact mustCopyAt_unmap walk off _
      have hiff := unreserved_isSome_iff hadm.2 (s.copyOnFork a) a.parentCopies
        (hbounded.pinnedCount.trans_lt hpinned) hl
      have hsuffice : FramesSuffice s (.forkCopy a walk) ↔
          ∀ off pg, s.leaf.pageList.find off = some pg → mustCopy pg = false := by
        rw [← hiff]
        constructor
        · exact fun hall => (hall _ hcall).1
        · intro hall k hk
          obtain rfl := Option.some.inj (hcall.symm.trans hk)
          exact ⟨hall, frameLoop_returned _ _ _ _⟩
      rw [hsuffice]
      constructor
      · exact fun hall _ _ _ => hall
      · intro hreserves
        by_cases hcase : a.adopted = false ∧ a.lastForkUsedCopy = true
        · exact hreserves hcase.1 hcase.2 (hidle.mp (Bool.eq_false_of_not_eq_true hany))
        · -- then nothing had to be reserved
          have hadopted : s.copyOnFork a = true → a.adopted = true := by
            intro hcopy
            by_contra hnot
            rw [State.copyOnFork, if_neg hnot] at hcopy
            exact hcase ⟨Bool.eq_false_of_not_eq_true hnot, hcopy⟩
          have hneed := needed_le_copyCount hbounded a hadopted
          rw [hcount, Nat.le_zero] at hneed
          intro off pg hpg
          have hnot := List.countP_eq_zero.mp hneed ⟨off, pg⟩ (AList.mem_lookup_iff.mp hpg)
          exact Bool.eq_false_of_not_eq_true hnot
    · have hcall : loopCall s (.forkCopy a walk) = none := by
        rw [loopCall, if_neg hany, if_neg hcount]
      refine iff_of_true (fun k hk => ?_) fun hadopted hlast _ => ?_
      · rw [hcall] at hk
        cases hk
      · exact absurd (hfull hadopted hlast) hcount

theorem framesReady_suffices (h : InvFrames s) (ffl walk : List ℕ)
    (hadm : adm s (.framesReady ffl walk)) (hgranted : Granted s (.framesReady ffl walk)) :
    FramesSuffice s (.framesReady ffl walk) := by
  intro k hk
  rw [loopCall] at hk
  rw [InvFrames] at h
  split at hk
  · rename_i copyOnFork copyCount pinCopyCount parentCopies hphase
    rw [hphase] at h
    obtain ⟨hcopy, hpin, pinned, must, pages, hmust, hmust', hbounded⟩ := h
    have hneed := (countP_mustCopyAt hadm.2).trans_le hbounded.needed
    obtain rfl := Option.some.inj hk
    refine ⟨?_, frameLoop_returned _ _ _ _⟩
    exact frameLoop_isSome copyOnFork (nodup_of_perm hadm.2) (hgranted _ _ _ _ hphase) hcopy hpin
      (hneed.trans hmust) (hneed.trans hmust')
  · cases hk

end

/-- **When the frames suffice.** In every run they do in each step but in a `forkCopy` below a
full parent that copies as the last fork did and has a page that must be copied. -/
theorem run_framesSuffice_iff {s₀ s : State τ} {ops : List (Op τ)} {op : Op τ}
    (h₀ : StartCounted s₀) (hrun : reserving.Run s₀ ops s) (hop : reserving.adm s op) :
    FramesSuffice s op ↔ Reserves s op := by
  have hinv : InvFrames s := by
    refine hrun.invariant (I := InvFrames) h₀.inv ?_
    intro s op hs hop
    exact hs.step hop.1
  cases op with
  | forkCopy a walk => exact forkCopy_suffices_iff hinv a walk hop.1
  | framesReady ffl walk =>
    exact iff_of_true (framesReady_suffices hinv ffl walk hop.1 hop.2) trivial
  | pager op => exact iff_of_true nofun trivial

theorem pinnedAndDirty_startCounted : StartCounted pinnedAndDirty where
  phase := rfl
  listed := pinnedAndDirty_start.listed
  pinned := by decide
  small := by decide
  few := by decide

/-- A frame is allocated for the pinned page, and the loop uses it. -/
theorem run_framesSuffice_iff_reserved : FramesSuffice
    (step pinnedAndDirty (.forkCopy (Above.none.adoption true 7) [0, 1]))
    (.framesReady [11] [0, 1]) := by
  have hadmits : (interleavings (τ := ℕ)).Admits pinnedAndDirty
      [.forkCopy (Above.none.adoption true 7) [0, 1], .framesReady [11] [0, 1]] := by
    decide +kernel
  have hfork : adm pinnedAndDirty (.forkCopy (Above.none.adoption true 7) [0, 1]) := hadmits.1
  have hready : adm (step pinnedAndDirty (.forkCopy (Above.none.adoption true 7) [0, 1]))
      (.framesReady [11] [0, 1]) := hadmits.2.1
  have hgranted : Granted (step pinnedAndDirty (.forkCopy (Above.none.adoption true 7) [0, 1]))
      (.framesReady [11] [0, 1]) := by
    intro copyOnFork copyCount pinCopyCount parentCopies hphase
    have hone : (step pinnedAndDirty (.forkCopy (Above.none.adoption true 7) [0, 1])).phase =
        .allocating false 1 1 7 := by
      decide +kernel
    cases hone.symm.trans hphase
    rfl
  have hrun : (reserving (τ := ℕ)).Run pinnedAndDirty
      ([] ++ [.forkCopy (Above.none.adoption true 7) [0, 1]])
      (step pinnedAndDirty (.forkCopy (Above.none.adoption true 7) [0, 1])) :=
    .snoc .nil ⟨hfork, trivial⟩
  exact (run_framesSuffice_iff pinnedAndDirty_startCounted hrun ⟨hready, hgranted⟩).mpr trivial

/-- Below a full parent, after a fork that copied, the pinned page gets no frame. -/
theorem not_framesSuffice : ¬ ∀ (s₀ s : State ℕ) (ops : List (Op ℕ)) (op : Op ℕ),
    StartCounted s₀ → reserving.Run s₀ ops s → reserving.adm s op → FramesSuffice s op := by
  intro hall
  have hadm : adm pinnedAndDirty (.forkCopy (Above.full.adoption true 0) [0, 1]) := by
    decide +kernel
  have hsuffice := hall pinnedAndDirty pinnedAndDirty [] (.forkCopy (Above.full.adoption true 0)
    [0, 1]) pinnedAndDirty_startCounted .nil ⟨hadm, trivial⟩
  have hreserves := (forkCopy_suffices_iff pinnedAndDirty_startCounted.inv _ _ hadm).mp hsuffice
  have hidle : ∀ off pg, pinnedAndDirty.leaf.pageList.find off = some pg →
      pg.doingIO = false := by
    intro off pg hpg
    have hmem : (⟨off, pg⟩ : Sigma fun _ : ℕ => PageDesc) ∈
        pinnedAndDirty.leaf.pageList.entries.entries := AList.mem_lookup_iff.mp hpg
    revert hmem
    have hall' : ∀ e ∈ pinnedAndDirty.leaf.pageList.entries.entries,
        PageDesc.doingIO e.2 = false := by
      decide
    exact fun hmem => hall' _ hmem
  have hpage : pinnedAndDirty.leaf.pageList.find 0 =
      some { PageDesc.init (some 3) with pinCount := 1 } := by
    decide
  exact absurd (hreserves rfl rfl hidle 0 _ hpage) (by decide)

end ForkCopy

end K42
