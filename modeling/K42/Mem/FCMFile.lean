import Mathlib.Data.List.TakeWhile

/-!
# Writing a file back

`fsync` sweeps over the pages and collects up to `listSize` dirty ones, writes these, and begins
again if there are more. A page is unmapped before it is written. Without `force` a page that was
mapped is not written, only unmapped: if the sweep is not the last one, the next one takes it for a
page that nobody has mapped.
-/

namespace K42.FCMFile

structure PageDesc where
  paddr : ℕ
  fileOffset : ℕ
  dirty : Bool
  mapped : Bool
  doingIO : Bool
deriving DecidableEq

def listSize : ℕ := 32

/-- Dirty, and not already being written back. -/
def PageDesc.due (pg : PageDesc) : Bool := pg.dirty && !pg.doingIO

def PageDesc.unmap (pg : PageDesc) : PageDesc := { pg with mapped := false }

/-- Its entry in `paddrList` and `offsetList`. -/
def PageDesc.entry (pg : PageDesc) : ℕ × ℕ := (pg.paddr, pg.fileOffset)

/-- The loop over the pages: the pages afterwards, what it has collected, and whether it has stopped
at a page for which there is no room. -/
def sweep (force : Bool) : ℕ → List PageDesc → List PageDesc × List (ℕ × ℕ) × Bool
  | _, [] => ([], [], false)
  | numCollected, pg :: rest =>
    if pg.due then
      if numCollected ≥ listSize then (pg :: rest, [], true)
      else if !pg.mapped || force then
        let (pages, collected, more) := sweep force (numCollected + 1) rest
        ({ pg.unmap with doingIO := true, dirty := false } :: pages, pg.entry :: collected, more)
      else
        let (pages, collected, more) := sweep force numCollected rest
        (pg.unmap :: pages, collected, more)
    else
      let (pages, collected, more) := sweep force numCollected rest
      (pg :: pages, collected, more)

/-- The outer loop. It writes what has been collected. -/
def fsyncLoop (force : Bool) : ℕ → List PageDesc → Option (List PageDesc × List (ℕ × ℕ))
  | 0, _ => none
  | fuel + 1, pages =>
    let (pages, collected, more) := sweep force 0 pages
    if more then (fsyncLoop force fuel pages).map fun r => (r.1, collected ++ r.2)
    else some (pages, collected)

/-- The pages and the calls of `startPutPage`. -/
def fsync (backedBySwap force : Bool) (pages : List PageDesc) :
    Option (List PageDesc × List (ℕ × ℕ)) :=
  if backedBySwap then some (pages, []) else fsyncLoop force (pages.length + 1) pages

/-! ## What is to be written -/

def duePages (pages : List PageDesc) : List PageDesc := pages.filter (·.due)

/-- A page that is due is to be written now. -/
def wanted (force : Bool) (pg : PageDesc) : Bool := !pg.mapped || force

/-- One write for each page that is due, without `force` for those that are not mapped; with
`force` none is left. -/
def Right (force : Bool) (pages : List PageDesc) (r : List PageDesc × List (ℕ × ℕ)) : Prop :=
  r.2.Perm (((duePages pages).filter (wanted force)).map (·.entry)) ∧
    (force = true → duePages r.1 = [])

/-- The sweep that meets the first unwanted page is the last one: up to the last page that is due
there are not enough of the wanted ones to fill another list. -/
def OneSweep (force : Bool) (due : List PageDesc) : Prop :=
  due.dropLast.countP (wanted force) <
    listSize * ((due.takeWhile (wanted force)).length / listSize + 1)

variable {force : Bool} {pages : List PageDesc} {r : List PageDesc × List (ℕ × ℕ)}

/-- What one sweep does: `pre` are the pages that it has come to. -/
structure Sweeps (force : Bool) (n : ℕ) (due pre post due' : List PageDesc)
    (collected : List (ℕ × ℕ)) (more : Bool) : Prop where
  split : due = pre ++ post
  collected : collected = (pre.filter (wanted force)).map (·.entry)
  left : due' = (pre.filter (!wanted force ·)).map (·.unmap) ++ post
  more : more = true ↔ post ≠ []
  full : post ≠ [] → n + pre.countP (wanted force) = listSize
  room : pre ≠ [] → n + pre.dropLast.countP (wanted force) < listSize

theorem sweep_sweeps (force : Bool) : ∀ (pages : List PageDesc) (n : ℕ), n ≤ listSize →
    ∃ pre post, Sweeps force n (duePages pages) pre post (duePages (sweep force n pages).1)
      (sweep force n pages).2.1 (sweep force n pages).2.2
  | [], n, _ => ⟨[], [], rfl, rfl, rfl, by simp [sweep], by simp, by simp⟩
  | pg :: rest, n, hn => by
    unfold sweep
    split_ifs with hdue hfull hwant
    · have hd : duePages (pg :: rest) = pg :: duePages rest := by simp [duePages, hdue]
      rw [hd]
      exact ⟨[], pg :: duePages rest, rfl, rfl, rfl, by simp, fun _ => by simp; omega, by simp⟩
    · obtain ⟨pre, post, h⟩ := sweep_sweeps force rest (n + 1) (by omega)
      have hw : wanted force pg = true := hwant
      refine ⟨pg :: pre, post, ?_, ?_, ?_, h.more, fun hp => ?_, fun _ => ?_⟩
      · simpa [duePages, hdue] using h.split
      · simp [hw, h.collected]
      · simpa [duePages, hw, PageDesc.due, PageDesc.unmap] using h.left
      · have := h.full hp
        simp only [List.countP_cons, hw, if_true]
        omega
      · cases hpre : pre with
        | nil => simpa using by omega
        | cons pg' pre' =>
          have := h.room (by simp [hpre])
          rw [hpre] at this
          simp only [List.dropLast_cons_cons, List.countP_cons, hw, if_true]
          omega
    · obtain ⟨pre, post, h⟩ := sweep_sweeps force rest n hn
      have hw : wanted force pg = false := Bool.not_eq_true _ ▸ hwant
      refine ⟨pg :: pre, post, ?_, ?_, ?_, h.more, fun hp => ?_, fun _ => ?_⟩
      · simpa [duePages, hdue] using h.split
      · simp [hw, h.collected]
      · have hdue' : pg.unmap.due = true := hdue
        simpa [duePages, hw, hdue'] using h.left
      · simpa [List.countP_cons, hw] using h.full hp
      · cases hpre : pre with
        | nil => simpa using by omega
        | cons pg' pre' =>
          have := h.room (by simp [hpre])
          rw [hpre] at this
          simpa [List.dropLast_cons_cons, List.countP_cons, hw] using this
    · obtain ⟨pre, post, h⟩ := sweep_sweeps force rest n hn
      have hd : ∀ l, duePages (pg :: l) = duePages l := fun l => by simp [duePages, hdue]
      refine ⟨pre, post, ?_⟩
      rw [hd]
      simpa only [hd] using h

theorem Sweeps.more_iff {due pre post due' : List PageDesc} {collected : List (ℕ × ℕ)} {more : Bool}
    (h : Sweeps force 0 due pre post due' collected more) :
    more = true ↔ listSize ≤ due.dropLast.countP (wanted force) := by
  rw [h.more, h.split]
  constructor
  · intro hp
    have := h.full hp
    rw [List.dropLast_append_of_ne_nil hp, List.countP_append]
    omega
  · rintro hle rfl
    rw [List.append_nil] at hle
    by_cases hpre : pre = []
    · simp [hpre, listSize] at hle
    · have := h.room hpre
      omega

/-- Each sweep but the last one takes away what it writes. -/
theorem fsyncLoop_ends (force : Bool) : ∀ (fuel : ℕ) (pages : List PageDesc),
    (duePages pages).length < fuel → ∃ r, fsyncLoop force fuel pages = some r
  | 0, _, h => absurd h (Nat.not_lt_zero _)
  | fuel + 1, pages, h => by
    obtain ⟨pre, post, hs⟩ := sweep_sweeps force pages 0 (Nat.zero_le _)
    unfold fsyncLoop
    cases hmore : (sweep force 0 pages).2.2 with
    | false =>
      simp only [hmore]
      exact ⟨_, rfl⟩
    | true =>
      have hfull := hs.full (hs.more.mp hmore)
      have hlen : pre.length = pre.countP (wanted force) + pre.countP (!wanted force ·) := by
        simpa using List.length_eq_countP_add_countP (wanted force) (l := pre)
      have hlt : (duePages (sweep force 0 pages).1).length < fuel := by
        rw [hs.left]
        rw [hs.split] at h
        simp only [List.length_append, List.length_map, ← List.countP_eq_length_filter] at h ⊢
        unfold listSize at hfull
        omega
      obtain ⟨r, hr⟩ := fsyncLoop_ends force fuel _ hlt
      simp only [hmore, if_true, hr]
      exact ⟨_, rfl⟩

/-- All pages that are wanted are written. -/
theorem fsyncLoop_length : ∀ {fuel : ℕ} {pages : List PageDesc} {r : List PageDesc × List (ℕ × ℕ)},
    fsyncLoop force fuel pages = some r → (duePages pages).countP (wanted force) ≤ r.2.length
  | fuel + 1, pages, r, h => by
    obtain ⟨pre, post, hs⟩ := sweep_sweeps force pages 0 (Nat.zero_le _)
    have hlen : (sweep force 0 pages).2.1.length = pre.countP (wanted force) := by
      rw [hs.collected, List.length_map, List.countP_eq_length_filter]
    unfold fsyncLoop at h
    rw [hs.split, List.countP_append]
    cases hmore : (sweep force 0 pages).2.2 with
    | false =>
      have hpost : post = [] := by
        by_contra hp
        rw [hs.more.mpr hp] at hmore
        cases hmore
      simp only [hmore, Bool.false_eq_true, if_false, Option.some.injEq] at h
      simp [← h, hlen, hpost]
    | true =>
      simp only [hmore, if_true, Option.map_eq_some_iff] at h
      obtain ⟨r', hr', rfl⟩ := h
      have := fsyncLoop_length hr'
      rw [hs.left, List.countP_append] at this
      simp only [List.length_append, hlen]
      omega

/-- A list with an unwanted page begins with fewer wanted ones than come before its last page. -/
theorem takeWhile_length_le (p : PageDesc → Bool) : ∀ l : List PageDesc, (∃ pg ∈ l, p pg = false) →
    (l.takeWhile p).length ≤ l.dropLast.countP p
  | [], h => by simp at h
  | pg :: rest, h => by
    cases hpg : p pg with
    | false => simp [hpg]
    | true =>
      have hrest : ∃ pg ∈ rest, p pg = false := by simpa [hpg] using h
      cases rest with
      | nil => simp at hrest
      | cons pg' rest =>
        have := takeWhile_length_le p (pg' :: rest) hrest
        simpa [List.takeWhile_cons, hpg] using this

/-- A sweep over pages that are all wanted takes one list of them. -/
theorem Sweeps.oneSweep_iff {due pre post due' : List PageDesc} {collected : List (ℕ × ℕ)}
    {more : Bool} (h : Sweeps force 0 due pre post due' collected more) (hpost : post ≠ [])
    (hpre : ∀ pg ∈ pre, wanted force pg = true) : OneSweep force due ↔ OneSweep force post := by
  have hfull := h.full hpost
  have hlen : pre.countP (wanted force) = pre.length := List.countP_eq_length.mpr hpre
  rw [h.split, OneSweep, OneSweep, List.dropLast_append_of_ne_nil hpost, List.countP_append,
    List.takeWhile_append_of_pos hpre, List.length_append]
  unfold listSize at *
  omega

/-- A sweep that unmaps a page and is not the last one. -/
theorem Sweeps.not_oneSweep {due pre post due' : List PageDesc} {collected : List (ℕ × ℕ)}
    {more : Bool} (h : Sweeps force 0 due pre post due' collected more) (hpost : post ≠ [])
    (hpre : ∃ pg ∈ pre, wanted force pg = false) : ¬ OneSweep force due := by
  have hfull := h.full hpost
  have hroom := h.room (List.ne_nil_of_mem hpre.choose_spec.1)
  have hwhile := takeWhile_length_le _ _ hpre
  have hle := List.countP_le_length (p := wanted force) (l := pre)
  have htake : (due.takeWhile (wanted force)) = pre.takeWhile (wanted force) := by
    rw [h.split, List.takeWhile_append, if_neg (by omega)]
  rw [OneSweep, htake, h.split, List.dropLast_append_of_ne_nil hpost, List.countP_append]
  unfold listSize at *
  omega

theorem fsyncLoop_right_iff : ∀ {fuel : ℕ} {pages : List PageDesc}
    {r : List PageDesc × List (ℕ × ℕ)}, fsyncLoop force fuel pages = some r →
    (Right force pages r ↔ OneSweep force (duePages pages))
  | fuel + 1, pages, r, h => by
    obtain ⟨pre, post, hs⟩ := sweep_sweeps force pages 0 (Nat.zero_le _)
    unfold fsyncLoop at h
    cases hmore : (sweep force 0 pages).2.2 with
    | false =>
      have hpost : post = [] := by
        by_contra hp
        rw [hs.more.mpr hp] at hmore
        cases hmore
      have hcount : ¬ listSize ≤ (duePages pages).dropLast.countP (wanted force) := by
        rw [← hs.more_iff, hmore]
        exact Bool.false_ne_true
      simp only [hmore, Bool.false_eq_true, if_false, Option.some.injEq] at h
      subst h
      refine iff_of_true ⟨?_, ?_⟩ ?_
      · simp [hs.collected, hs.split, hpost]
      · rintro rfl
        simp [hs.left, hpost, wanted]
      · have hlt := Nat.lt_of_not_le hcount
        exact hlt.trans_le (Nat.le_mul_of_pos_right _ (Nat.succ_pos _))
    | true =>
      have hpost := hs.more.mp hmore
      simp only [hmore, if_true, Option.map_eq_some_iff] at h
      obtain ⟨r', hr', rfl⟩ := h
      have ih := fsyncLoop_right_iff hr'
      by_cases hpre : ∀ pg ∈ pre, wanted force pg = true
      · have hfilter : pre.filter (wanted force) = pre := List.filter_eq_self.mpr hpre
        have hnone : pre.filter (!wanted force ·) = [] := by simpa using hpre
        have hleft : duePages (sweep force 0 pages).1 = post := by simpa [hnone] using hs.left
        rw [hs.oneSweep_iff hpost hpre, ← hleft, ← ih, Right, Right, hleft, hs.collected, hs.split,
          List.filter_append, List.map_append, List.perm_append_left_iff]
      · have hpre' : ∃ pg ∈ pre, wanted force pg = false := by simpa using hpre
        refine iff_of_false (fun hright => ?_) (hs.not_oneSweep hpost hpre')
        -- the unmapped pages are written too
        have hlen := hright.1.length_eq
        have hge := fsyncLoop_length hr'
        have hunmap : ((pre.filter (!wanted force ·)).map (·.unmap)).countP (wanted force) =
            pre.countP (!wanted force ·) := by
          rw [List.countP_map, List.countP_filter]
          exact List.countP_congr fun pg _ => by simp [wanted, PageDesc.unmap]
        have hpos : 0 < pre.countP (!wanted force ·) := by
          simpa [List.countP_pos_iff] using hpre'
        rw [hs.left, List.countP_append, hunmap] at hge
        rw [hs.split] at hlen
        simp only [hs.collected, List.length_append, List.length_map, List.filter_append,
          ← List.countP_eq_length_filter] at hlen
        omega

theorem oneSweep_force (due : List PageDesc) : OneSweep true due := by
  have hall : ∀ pg ∈ due, wanted true pg = true := by simp [wanted]
  have hle : due.dropLast.countP (wanted true) ≤ due.length - 1 := by
    simpa using List.countP_le_length (p := wanted true) (l := due.dropLast)
  rw [OneSweep, List.takeWhile_eq_self_iff.mpr hall]
  unfold listSize
  omega

/-- What a file without space on a swap device needs; the others write nothing. -/
def Keeps (backedBySwap force : Bool) (pages : List PageDesc) : Prop :=
  if backedBySwap then (duePages pages).filter (wanted force) = []
  else force = true ∨ OneSweep false (duePages pages)

/-- **Writing back** ends, and it writes what it should just if it is forced or only its last sweep
meets a mapped page. -/
theorem fsync_right_iff (backedBySwap force : Bool) (pages : List PageDesc) :
    ∃ r, fsync backedBySwap force pages = some r ∧
      (Right force pages r ↔ Keeps backedBySwap force pages) := by
  cases backedBySwap with
  | true =>
    refine ⟨_, rfl, ?_⟩
    rw [Right, List.nil_perm, List.map_eq_nil_iff]
    refine and_iff_left_of_imp fun hnone hforce => ?_
    rwa [List.filter_eq_self.mpr (by simp [wanted, hforce])] at hnone
  | false =>
    obtain ⟨r, hr⟩ := fsyncLoop_ends force (pages.length + 1) pages
      (Nat.lt_succ_of_le (List.length_filter_le _ _))
    refine ⟨r, hr, (fsyncLoop_right_iff hr).trans ?_⟩
    cases force with
    | true => exact iff_of_true (oneSweep_force _) (Or.inl rfl)
    | false => simp [Keeps]

/-- A mapped page, 32 that are not mapped, and one more: without `force` the mapped page is written
by the second sweep. -/
theorem not_fsync_right : ¬ ∀ (force : Bool) (pages : List PageDesc),
    ∃ r, fsync false force pages = some r ∧ Right force pages r := by
  intro h
  let page (n : ℕ) : PageDesc := ⟨n, n, true, n = 0, false⟩
  obtain ⟨r, hr, hright⟩ := h false ((List.range 34).map page)
  have hloop : fsyncLoop false 35 ((List.range 34).map page) = some r := hr
  exact absurd ((fsyncLoop_right_iff hloop).mp hright) (by unfold OneSweep; decide +kernel)

end K42.FCMFile
