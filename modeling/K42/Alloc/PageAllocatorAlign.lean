import K42.Alloc.PageAllocatorAt

/-!
# The block that allocPagesAligned chooses

`allocPagesAligned` goes down the tree, to the low child where there is one, and keeps the last
block it passes that the request fits in. While there is none, it turns back at a leaf and takes up
the high subtree of the last node on its stack; once there is one, it ends at the next leaf.
-/

namespace K42.PageAllocatorDefault

open BinTree (Path Heap SearchTree numNodes_eq_zero)
open BinTree (first?_eq_none first?_node get_high get_low get_root mem_of_first? node numNodes)

/-! ## The search on values -/

/-- The child that the search goes down to. -/
def child (low high : Tree) : Tree := if low.numNodes ≠ 0 then low else high

/-- The block that the rest of the descent ends with, after the block `f`. -/
def descend (fits : FreePages → Bool) : Tree → FreePages → FreePages
  | .nil, f => f
  | .node low cur high, f =>
    let f := if fits cur then cur else f
    if low.numNodes ≠ 0 then descend fits low f else descend fits high f

/-- The block that the search of a subtree ends with, if no block was found before and the stack
has `room` more entries. -/
def reach (fits : FreePages → Bool) : ℕ → Tree → Option FreePages
  | _, .nil => none
  | room, .node low cur high =>
    if fits cur then some (descend fits (child low high) cur)
    else if low.numNodes ≠ 0 then
      (reach fits (if high.numNodes ≠ 0 then room - 1 else room) low).or
        (if 0 < room then reach fits room high else none)
    else reach fits room high

/-- The same for what is on the stack. -/
def reachStack (fits : FreePages → Bool) : List (Tree × Path) → Option FreePages
  | [] => none
  | e :: stack => (reach fits (STACK_SIZE - stack.length) e.1).or (reachStack fits stack)

section Search

variable {fits : FreePages → Bool} {size room : ℕ} {t low high : Tree} {cur f : FreePages}

theorem mem_child {c : FreePages} (h : c ∈ (child low high).toList) :
    c ∈ (node low cur high).toList := by
  rw [child] at h
  split at h <;> simp [h]

theorem descend_node : descend fits (.node low cur high) f =
    descend fits (child low high) (if fits cur then cur else f) := by
  rw [descend, child]
  split <;> rfl

theorem descend_mem (t : Tree) (f : FreePages) :
    descend fits t f = f ∨ descend fits t f ∈ t.toList ∧ fits (descend fits t f) = true := by
  induction t generalizing f with
  | nil => exact .inl rfl
  | node low cur high ihl ihh =>
    have hchild : ∀ f, descend fits (child low high) f = f ∨
        descend fits (child low high) f ∈ (child low high).toList ∧
          fits (descend fits (child low high) f) = true := by
      rw [child]
      split
      · exact ihl
      · exact ihh
    rw [descend_node]
    rcases hchild (if fits cur then cur else f) with heq | ⟨hmem, hfit⟩
    · rw [heq]
      by_cases hc : fits cur = true
      · rw [if_pos hc]
        exact .inr ⟨by simp, hc⟩
      · exact .inl (if_neg hc)
    · exact .inr ⟨mem_child hmem, hfit⟩

theorem descend_of_none (h : ∀ c ∈ t.toList, fits c = false) (f : FreePages) :
    descend fits t f = f := by
  rcases descend_mem t f with heq | ⟨hmem, hfit⟩
  · exact heq
  · rw [h _ hmem] at hfit
    cases hfit

theorem mem_of_reach {c : FreePages} (h : reach fits room t = some c) :
    c ∈ t.toList ∧ fits c = true := by
  induction t generalizing room with
  | nil => cases h
  | node low cur high ihl ihh =>
    have hhigh : ∀ room, reach fits room high = some c →
        c ∈ (node low cur high).toList ∧ fits c = true :=
      fun room hr => ⟨by simp [(ihh hr).1], (ihh hr).2⟩
    rw [reach] at h
    by_cases hc : fits cur = true
    · rw [if_pos hc] at h
      obtain rfl := Option.some.inj h
      have hdescend : descend fits (child low high) cur = cur ∨ _ := descend_mem _ _
      rcases hdescend with heq | ⟨hmem, hfit⟩
      · rw [heq]
        exact ⟨by simp, hc⟩
      · exact ⟨mem_child hmem, hfit⟩
    · rw [if_neg hc] at h
      split at h
      · rcases Option.or_eq_some_iff.mp h with hr | ⟨-, hr⟩
        · exact ⟨by simp [(ihl hr).1], (ihl hr).2⟩
        · split at hr
          · exact hhigh _ hr
          · cases hr
      · exact hhigh _ h

theorem reach_of_none (h : ∀ c ∈ t.toList, fits c = false) : reach fits room t = none := by
  cases hr : reach fits room t with
  | none => rfl
  | some c =>
    obtain ⟨hmem, hfit⟩ := mem_of_reach hr
    rw [h c hmem] at hfit
    cases hfit

/-! ## The search follows its links to these values -/

theorem Heap.none_fits (hh : (node low cur high).Heap FreePages.size)
    (hs : ∀ c ∈ (node low cur high).toList, fits c = true → size ≤ c.size)
    (hsmall : cur.size < size) : ∀ c ∈ (node low cur high).toList, fits c = false := by
  intro c hc
  have hle := hh.le_of_mem (n := cur.size) (by simp) c hc
  by_contra hfit
  have hroom := hs c hc (by simpa using hfit)
  omega

theorem searchAligned_found {root : Tree} {top p : Path} (stack : List (Tree × Path))
    (hh : t.Heap FreePages.size) (hs : ∀ c ∈ t.toList, fits c = true → size ≤ c.size)
    (hne : t ≠ .nil) (hg : root.get top = t) (hp : (root.get p).root? = some f) :
    ∃ q, searchAligned fits size t top stack (some p) = some q ∧
      (root.get q).root? = some (descend fits t f) := by
  induction t generalizing top p stack f with
  | nil => exact absurd rfl hne
  | node low cur high ihl ihh =>
    -- the visit of the node
    obtain ⟨p', hfound, hp'⟩ : ∃ p', (if fits cur then some top else some p) = some p' ∧
        (root.get p').root? = some (if fits cur then cur else f) := by
      by_cases hc : fits cur = true
      · refine ⟨top, if_pos hc, ?_⟩
        rw [hg, if_pos hc]
        rfl
      · refine ⟨p, if_neg hc, ?_⟩
        rw [hp, if_neg hc]
    rw [searchAligned.eq_def, descend_node]
    simp only [hfound]
    by_cases hstop : cur.size < size ∨ low.numNodes = 0 ∧ high.numNodes = 0
    · rw [if_pos hstop]
      refine ⟨p', rfl, ?_⟩
      rw [hp']
      have hnone : ∀ c ∈ (child low high).toList, fits c = false := by
        rcases hstop with hsmall | ⟨hl, hr⟩
        · exact fun c hc => Heap.none_fits hh hs hsmall c (mem_child hc)
        · rw [numNodes_eq_zero] at hl hr
          rw [child, hl, hr]
          simp
      rw [descend_of_none hnone]
    · rw [if_neg hstop, child]
      split
      · rename_i hlow
        refine ihl _ hh.2.2.1 (fun c hc => hs c (by simp [hc])) ?_ (get_low hg) hp'
        rwa [ne_eq, numNodes_eq_zero] at hlow
      · rename_i hlow
        refine ihh _ hh.2.2.2 (fun c hc => hs c (by simp [hc])) ?_ (get_high hg) hp'
        rintro rfl
        exact hstop (.inr ⟨not_not.mp hlow, rfl⟩)

/-- A stack entry is a subtree that exists, with the link to it. -/
def Entry (root : Tree) (e : Tree × Path) : Prop := e.1 ≠ .nil ∧ root.get e.2 = e.1

/-- What the search of the low subtree leaves to be done in the high one: it is on the stack, if
there is one and there was room. -/
theorem reachStack_pushHigh {stack : List (Tree × Path)} (hlen : stack.length ≤ STACK_SIZE)
    (top : Path) : (reach fits (STACK_SIZE - (pushHigh high top stack).length) low).or
        (reachStack fits (pushHigh high top stack)) =
      ((reach fits (if high.numNodes ≠ 0 then STACK_SIZE - stack.length - 1 else
          STACK_SIZE - stack.length) low).or
        (if 0 < STACK_SIZE - stack.length then
          reach fits (STACK_SIZE - stack.length) high else none)).or (reachStack fits stack) := by
  rw [pushHigh, Option.or_assoc]
  by_cases hhigh : high.numNodes ≠ 0
  · by_cases hroom : stack.length < STACK_SIZE
    · rw [if_pos ⟨hhigh, hroom⟩, if_pos hhigh, if_pos (Nat.sub_pos_of_lt hroom)]
      rfl
    · have hfull : STACK_SIZE - stack.length = 0 := by omega
      rw [if_neg fun h => hroom h.2, if_pos hhigh, hfull]
      rfl
  · rw [if_neg fun h => hhigh h.1, if_neg hhigh]
    rw [not_not, numNodes_eq_zero] at hhigh
    rw [hhigh, reach, ite_self]
    rfl

/-- **The search** ends with the block that `reach` says, or that `reachStack` says if there is
none in the subtree. -/
theorem searchAligned_reach {root : Tree} (hh : root.Heap FreePages.size)
    (hs : ∀ c ∈ root.toList, fits c = true → size ≤ c.size) (t : Tree) {top : Path}
    {stack : List (Tree × Path)} (he : Entry root (t, top)) (hst : ∀ e ∈ stack, Entry root e)
    (hlen : stack.length ≤ STACK_SIZE) :
    (searchAligned fits size t top stack none).bind (fun q => (root.get q).root?) =
      (reach fits (STACK_SIZE - stack.length) t).or (reachStack fits stack) := by
  induction hn : t.numNodes + pending stack using Nat.strong_induction_on
    generalizing t top stack with
  | _ n ih =>
  obtain ⟨hne, hg⟩ := he
  change root.get top = t at hg
  have hhere : t.Heap FreePages.size := hg ▸ hh.get
  have hfits : ∀ c ∈ t.toList, fits c = true → size ≤ c.size :=
    fun c hc => hs c (BinTree.mem_of_mem_get (hg.symm ▸ hc))
  cases t with
  | nil => exact absurd rfl hne
  | node low cur high =>
  by_cases hc : fits cur = true
  · -- from here on there is a block
    have hsame : searchAligned fits size (.node low cur high) top stack none =
        searchAligned fits size (.node low cur high) top stack (some top) := by
      rw [searchAligned.eq_def, searchAligned.eq_def]
      simp only [if_pos hc]
    have hroot : (root.get top).root? = some cur := by
      rw [hg]
      rfl
    obtain ⟨q, hq, hres⟩ := searchAligned_found stack hhere hfits nofun hg hroot
    rw [hsame, hq, reach, if_pos hc, Option.bind_some, hres, descend_node, if_pos hc]
    rfl
  · by_cases hstop : cur.size < size ∨ low.numNodes = 0 ∧ high.numNodes = 0
    · -- the search turns back
      have hnone : reach fits (STACK_SIZE - stack.length) (.node low cur high) = none := by
        apply reach_of_none
        rcases hstop with hsmall | ⟨hl, hr⟩
        · exact Heap.none_fits hhere hfits hsmall
        · rw [numNodes_eq_zero] at hl hr
          rw [hl, hr]
          simpa using hc
      rw [hnone, searchAligned.eq_def]
      simp only [if_neg hc, if_pos hstop]
      cases stack with
      | nil => rfl
      | cons e stack =>
        have hlast := hst e List.mem_cons_self
        rw [List.length_cons] at hlen
        refine ih (e.1.numNodes + pending stack) ?_ e.1 hlast
          (fun e he => hst e (List.mem_cons_of_mem _ he)) (by omega) rfl
        rw [← hn]
        simp only [pending, numNodes, List.map_cons, List.sum_cons]
        omega
    · rw [searchAligned.eq_def, reach]
      simp only [if_neg hc, if_neg hstop]
      split
      · rename_i hlow
        rw [← reachStack_pushHigh hlen (top ++ [.high])]
        have hpending := pending_pushHigh_le high (top ++ [.high]) stack
        refine ih _ ?_ low ⟨?_, get_low hg⟩ ?_ ?_ rfl
        · rw [← hn, numNodes]
          omega
        · rwa [ne_eq, numNodes_eq_zero] at hlow
        · intro e he
          unfold pushHigh at he
          split_ifs at he with hpush
          · rcases List.mem_cons.mp he with rfl | he
            · refine ⟨?_, get_high hg⟩
              rw [ne_eq, ← numNodes_eq_zero]
              exact hpush.1
            · exact hst e he
          · exact hst e he
        · unfold pushHigh
          split_ifs with hpush
          · exact hpush.2
          · exact hlen
      · rename_i hlow
        refine ih _ ?_ high ⟨?_, get_high hg⟩ hst hlen rfl
        · rw [← hn, numNodes]
          omega
        · rintro rfl
          exact hstop (.inr ⟨not_not.mp hlow, rfl⟩)

end Search

/-! ## Where the search settles -/

/-- Some block of the tree fits. -/
def anyFits (fits : FreePages → Bool) (t : Tree) : Bool := t.toList.any fits

/-- No block fits that a descent passes. -/
def clearDescent (fits : FreePages → Bool) : Tree → Bool
  | .nil => true
  | .node low cur high =>
    !fits cur && if low.numNodes ≠ 0 then clearDescent fits low else clearDescent fits high

/-- A descent that comes with a block found above ends with the first block that fits. -/
def settlesBelow (fits : FreePages → Bool) : Tree → Bool
  | .nil => true
  | .node low cur high =>
    if anyFits fits low then settlesBelow fits low
    else if fits cur then decide (low.numNodes ≠ 0) || clearDescent fits high
    else if low.numNodes ≠ 0 then !anyFits fits high
    else settlesBelow fits high

/-- A search with nothing found ends with the first block that fits. -/
def settlesAligned (fits : FreePages → Bool) : ℕ → Tree → Bool
  | _, .nil => true
  | room, .node low cur high =>
    if anyFits fits low then
      if fits cur then settlesBelow fits low
      else settlesAligned fits (if high.numNodes ≠ 0 then room - 1 else room) low
    else if fits cur then decide (low.numNodes ≠ 0) || clearDescent fits high
    else if low.numNodes ≠ 0 ∧ room = 0 then !anyFits fits high
    else settlesAligned fits room high

/-- The search gets to a block that fits: a high subtree is left out only if the stack is full at
its parent. -/
def reaches (fits : FreePages → Bool) : ℕ → Tree → Bool
  | _, .nil => false
  | room, .node low cur high =>
    fits cur || reaches fits (if high.numNodes ≠ 0 then room - 1 else room) low ||
      (decide (low.numNodes = 0 ∨ 0 < room) && reaches fits room high)

section Settles

variable {fits : FreePages → Bool} {room : ℕ} {t low high : Tree} {cur f c : FreePages}

theorem anyFits_iff : anyFits fits t = true ↔ ∃ c ∈ t.toList, fits c = true := by
  simp [anyFits]

theorem not_anyFits : ¬ anyFits fits t = true ↔ ∀ c ∈ t.toList, fits c = false := by
  simp [anyFits]

theorem first?_of_anyFits (h : anyFits fits t = true) : ∃ c, t.first? fits = some c := by
  obtain ⟨c, hc, hfit⟩ := anyFits_iff.mp h
  cases hf : t.first? fits with
  | none =>
    rw [first?_eq_none.mp hf c hc] at hfit
    cases hfit
  | some c => exact ⟨c, rfl⟩

theorem reach_isSome : (reach fits room t).isSome = reaches fits room t := by
  induction t generalizing room with
  | nil => rfl
  | node low cur high ihl ihh =>
    rw [reach, reaches]
    by_cases hc : fits cur = true
    · simp [hc]
    · rw [if_neg hc, ← ihl, ← ihh]
      by_cases hlow : low.numNodes ≠ 0
      · rw [if_pos hlow, Option.isSome_or]
        by_cases hroom : 0 < room
        · simp [hc, hroom]
        · simp [hc, hroom, numNodes_eq_zero.not.mp hlow]
      · rw [if_neg hlow]
        rw [not_not, numNodes_eq_zero] at hlow
        simp [hc, hlow, reach]

theorem reaches_iff (hroom : t.branching ≤ room) :
    reaches fits room t = true ↔ ∃ c ∈ t.toList, fits c = true := by
  induction t generalizing room with
  | nil => simp [reaches]
  | node low cur high ihl ihh =>
    rw [BinTree.branching_node] at hroom
    have hlow : low.branching ≤ if high.numNodes ≠ 0 then room - 1 else room := by
      by_cases hl : low.numNodes = 0
      · rw [numNodes_eq_zero.mp hl]
        exact Nat.zero_le _
      · rw [if_neg hl] at hroom
        split_ifs at hroom ⊢ <;> omega
    rw [reaches, Bool.or_eq_true, Bool.or_eq_true, Bool.and_eq_true, ihl hlow, decide_eq_true_iff]
    have hhigh : ((low.numNodes = 0 ∨ 0 < room) ∧ reaches fits room high = true) ↔
        ∃ c ∈ high.toList, fits c = true := by
      by_cases hh : high.numNodes = 0
      · rw [numNodes_eq_zero.mp hh]
        simp [reaches]
      · rw [if_neg hh] at hroom
        have hle : high.branching ≤ room := by
          split_ifs at hroom <;> omega
        rw [← ihh hle]
        refine and_iff_right ?_
        by_cases hl : low.numNodes = 0
        · exact .inl hl
        · rw [if_neg hl] at hroom
          exact .inr (by omega)
    rw [hhigh]
    simp only [BinTree.toList_node, List.mem_append, List.mem_cons]
    constructor
    · rintro ((hc | ⟨c, hc, hfit⟩) | ⟨c, hc, hfit⟩)
      · exact ⟨cur, .inr (.inl rfl), hc⟩
      · exact ⟨c, .inl hc, hfit⟩
      · exact ⟨c, .inr (.inr hc), hfit⟩
    · rintro ⟨c, hc | rfl | hc, hfit⟩
      · exact .inl (.inr ⟨c, hc, hfit⟩)
      · exact .inl (.inl hfit)
      · exact .inr ⟨c, hc, hfit⟩

theorem clearDescent_node : clearDescent fits (.node low cur high) =
    (!fits cur && clearDescent fits (child low high)) := by
  rw [clearDescent, child]
  split <;> rfl

theorem descend_eq_iff (hf : f ∉ t.toList) :
    descend fits t f = f ↔ clearDescent fits t = true := by
  induction t with
  | nil => exact iff_of_true rfl rfl
  | node low cur high ihl ihh =>
    rw [descend_node, clearDescent_node]
    by_cases hc : fits cur = true
    · rw [if_pos hc, hc]
      refine iff_of_false (fun heq => hf ?_) nofun
      have hdescend : descend fits (child low high) cur = cur ∨ _ := descend_mem _ _
      rcases hdescend with hcur | ⟨hmem, -⟩
      · rw [← heq, hcur]
        simp
      · rw [← heq]
        exact mem_child hmem
    · have hchild : f ∉ (child low high).toList := fun h => hf (mem_child h)
      rw [if_neg hc, Bool.eq_false_iff.mpr hc, Bool.not_false, Bool.true_and]
      rw [child] at hchild ⊢
      split at hchild
      · rename_i hlow
        rw [if_pos hlow]
        exact ihl hchild
      · rename_i hlow
        rw [if_neg hlow]
        exact ihh hchild

theorem SearchTree.apart (hsort : (node low cur high).SearchTree FreePages.start) :
    cur ∉ low.toList ∧ cur ∉ high.toList ∧ ∀ c ∈ low.toList, c ∉ high.toList := by
  obtain ⟨hl, hh, -, -⟩ := hsort
  refine ⟨fun h => Nat.lt_irrefl _ (hl cur h), fun h => Nat.lt_irrefl _ (hh cur h), ?_⟩
  intro c hcl hch
  exact Nat.lt_irrefl _ (Nat.lt_trans (hl c hcl) (hh c hch))

theorem ne_zero_of_anyFits (h : anyFits fits t = true) : t.numNodes ≠ 0 := by
  intro hzero
  rw [numNodes_eq_zero.mp hzero] at h
  cases h

theorem first?_of_not_anyFits (h : ¬ anyFits fits low = true) :
    (node low cur high).first? fits =
      if fits cur then some cur else high.first? fits := by
  rw [first?_node, first?_eq_none.mpr (not_anyFits.mp h)]
  rfl

/-- Where only the root and the high subtree are left, the descent ends with the root if there is
a low child, or if it passes no block that fits. -/
theorem descend_child_eq_iff (hsort : (node low cur high).SearchTree FreePages.start)
    (h : ¬ anyFits fits low = true) : descend fits (child low high) cur = cur ↔
      (decide (low.numNodes ≠ 0) || clearDescent fits high) = true := by
  rw [child]
  by_cases hlow : low.numNodes ≠ 0
  · rw [if_pos hlow, descend_of_none (not_anyFits.mp h), decide_eq_true hlow]
    exact iff_of_true rfl rfl
  · rw [if_neg hlow, decide_eq_false hlow, Bool.false_or]
    exact descend_eq_iff (SearchTree.apart hsort).2.1

theorem descend_first (hsort : t.SearchTree FreePages.start) (hf : f ∉ t.toList)
    (hfirst : t.first? fits = some c) : descend fits t f = c ↔ settlesBelow fits t = true := by
  induction t generalizing f with
  | nil => cases hfirst
  | node low cur high ihl ihh =>
    obtain ⟨hcurl, hcurh, -⟩ := SearchTree.apart hsort
    rw [descend_node, settlesBelow]
    by_cases hl : anyFits fits low = true
    · obtain ⟨d, hd⟩ := first?_of_anyFits hl
      rw [first?_node, hd] at hfirst
      obtain rfl : d = c := Option.some.inj hfirst
      rw [child, if_pos (ne_zero_of_anyFits hl), if_pos hl]
      refine ihl hsort.2.2.1 ?_ hd
      split
      · exact hcurl
      · exact fun h => hf (by simp [h])
    · rw [first?_of_not_anyFits hl] at hfirst
      rw [if_neg hl]
      by_cases hc : fits cur = true
      · rw [if_pos hc] at hfirst
        obtain rfl : cur = c := Option.some.inj hfirst
        rw [if_pos hc, if_pos hc]
        exact descend_child_eq_iff hsort hl
      · rw [if_neg hc] at hfirst
        rw [if_neg hc, if_neg hc, child]
        obtain ⟨hmem, hfit⟩ := mem_of_first? hfirst
        by_cases hlow : low.numNodes ≠ 0
        · -- the descent does not come to the high subtree
          rw [if_pos hlow, if_pos hlow, descend_of_none (not_anyFits.mp hl)]
          refine iff_of_false ?_ ?_
          · rintro rfl
            exact hf (by simp [hmem])
          · rw [anyFits_iff.mpr ⟨c, hmem, hfit⟩]
            exact nofun
        · rw [if_neg hlow, if_neg hlow]
          exact ihh hsort.2.2.2 (fun h => hf (by simp [h])) hfirst

theorem reach_first (hsort : t.SearchTree FreePages.start) :
    reach fits room t = t.first? fits ↔ settlesAligned fits room t = true := by
  induction t generalizing room with
  | nil => exact iff_of_true rfl rfl
  | node low cur high ihl ihh =>
    obtain ⟨hcurl, hcurh, hapart⟩ := SearchTree.apart hsort
    rw [reach, settlesAligned]
    by_cases hl : anyFits fits low = true
    · obtain ⟨c, hfirst⟩ := first?_of_anyFits hl
      have hlow := ne_zero_of_anyFits hl
      rw [if_pos hl, first?_node, hfirst, Option.some_or]
      by_cases hc : fits cur = true
      · rw [if_pos hc, if_pos hc, Option.some_inj, child, if_pos hlow]
        exact descend_first hsort.2.2.1 hcurl hfirst
      · rw [if_neg hc, if_neg hc, if_pos hlow, ← ihl hsort.2.2.1, hfirst]
        generalize hroom : (if high.numNodes ≠ 0 then room - 1 else room) = room'
        cases hr : reach fits room' low with
        | some d => rfl
        | none =>
          -- the block found then is in the high subtree
          refine iff_of_false (fun heq => ?_) nofun
          rw [Option.none_or] at heq
          split at heq
          · exact hapart c (mem_of_first? hfirst).1 (mem_of_reach heq).1
          · cases heq
    · rw [if_neg hl, first?_of_not_anyFits hl]
      by_cases hc : fits cur = true
      · rw [if_pos hc, if_pos hc, if_pos hc, Option.some_inj]
        exact descend_child_eq_iff hsort hl
      · rw [if_neg hc, if_neg hc, if_neg hc, reach_of_none (not_anyFits.mp hl), Option.none_or]
        by_cases hlow : low.numNodes ≠ 0
        · rw [if_pos hlow]
          by_cases hroom : room = 0
          · rw [if_neg (by omega), if_pos ⟨hlow, hroom⟩, eq_comm, first?_eq_none,
              ← not_anyFits, Bool.not_eq_true, Bool.not_eq_true']
          · rw [if_pos (Nat.pos_of_ne_zero hroom), if_neg fun h => hroom h.2]
            exact ihh hsort.2.2.2
        · rw [if_neg hlow, if_neg fun h => hlow h.1]
          exact ihh hsort.2.2.2

end Settles

/-! ## The block chosen -/

/-- The block holds an aligned range of the size. -/
def Feasible (size align offset : ℕ) (c : FreePages) : Prop :=
  ∃ v, v % align = offset ∧ c.start ≤ v ∧ v + size ≤ c.stop

/-- A call that succeeds returns an aligned address in the lowest block that has room for it. It
fails for want of memory only, and if no path has more nodes with two children than the stack has
entries, then only if no block has room. -/
def TakesAligned (pa : PageAllocatorDefault) (size align offset : ℕ) : Prop :=
  (∀ pa' v, pa.allocPagesAligned size align offset = .ok (pa', v) →
      v % align = offset ∧ ∃ c ∈ pa.anchor.toList, c.start ≤ v ∧ v + rounded size ≤ c.stop ∧
        ∀ b ∈ pa.anchor.toList, Feasible size align offset b → c.start ≤ b.start) ∧
    ∀ e, pa.allocPagesAligned size align offset = .error e →
      e = .serror 1476 0 .ENOMEM ∧ (pa.anchor.branching ≤ STACK_SIZE →
        ∀ b ∈ pa.anchor.toList, ¬ Feasible size align offset b)

section Aligned

variable {pa : PageAllocatorDefault} {size align offset : ℕ} {c : FreePages}

theorem roundedAddr_mod (start : ℕ) (h : offset < align) :
    roundedAddr start align offset % align = offset := by
  rw [roundedAddr, Nat.mul_add_mod_self_right, Nat.mod_eq_of_lt h]

theorem roundedAddr_le {start v : ℕ} (h : offset < align) (hv : v % align = offset)
    (hle : start ≤ v) : roundedAddr start align offset ≤ v := by
  have hdm := Nat.div_add_mod v align
  rw [hv] at hdm
  have hdiv : (start + align - offset - 1) / align ≤ v / align := by
    apply Nat.le_of_lt_succ
    rw [Nat.div_lt_iff_lt_mul (by omega), Nat.succ_mul, Nat.mul_comm]
    omega
  have hmul := Nat.mul_le_mul_right align hdiv
  rw [Nat.mul_comm (v / align)] at hmul
  unfold roundedAddr
  omega

theorem fitsAligned_iff (hi : Inv pa) (ha : AlignedArg pa (rounded size) align offset)
    (hc : c ∈ pa.anchor.toList) : fitsAligned (rounded size) align offset c = true ↔
      roundedAddr c.start align offset + rounded size ≤ c.stop := by
  obtain ⟨hw1, hw2⟩ := ha.no_wrap c hc
  rw [fitsAligned, alignedAddr_eq ha.offset_lt ha.align_lt hw1 hw2, MachineWord.add_of_lt hw2,
    (hi.tree.page c hc).bound_eq, decide_eq_true_iff]

theorem feasible_iff (hi : Inv pa) (ha : AlignedArg pa (rounded size) align offset)
    (hc : c ∈ pa.anchor.toList) :
    Feasible size align offset c ↔ fitsAligned (rounded size) align offset c = true := by
  rw [fitsAligned_iff hi ha hc]
  have hb := hi.tree.page c hc
  constructor
  · rintro ⟨v, hv, hstart, hstop⟩
    have hle := roundedAddr_le ha.offset_lt hv hstart
    obtain ⟨k, hk⟩ : PAGE_SIZE ∣ roundedAddr c.start align offset :=
      page_dvd_roundedAddr ha.align_page ha.offset_page
    obtain ⟨m, hm⟩ : PAGE_SIZE ∣ c.stop := (Nat.dvd_add_right hb.start_page).mpr hb.size_page
    unfold rounded
    unfold PAGE_SIZE at *
    omega
  · intro hfit
    have hround := le_rounded size
    exact ⟨_, roundedAddr_mod c.start ha.offset_lt, le_roundedAddr c.start ha.offset_lt, by omega⟩

theorem Inv.searchAligned_eq (hi : Inv pa) (ha : AlignedArg pa (rounded size) align offset) :
    (searchAligned (fitsAligned (rounded size) align offset) (rounded size) pa.anchor [] []
      none).bind (fun q => (pa.anchor.get q).root?) =
      reach (fitsAligned (rounded size) align offset) STACK_SIZE pa.anchor := by
  by_cases hnil : pa.anchor = .nil
  · rw [hnil, searchAligned.eq_def]
    rfl
  · have hsize : ∀ c ∈ pa.anchor.toList,
        fitsAligned (rounded size) align offset c = true → rounded size ≤ c.size := by
      intro c hc hfit
      have hend := (fitsAligned_iff hi ha hc).mp hfit
      have hle := le_roundedAddr c.start ha.offset_lt
      have hstop : c.stop = c.start + c.size := rfl
      omega
    rw [searchAligned_reach hi.tree.heap hsize pa.anchor
      ⟨hnil, get_root pa.anchor⟩ (by simp) (Nat.zero_le _), reachStack, Option.or_none]
    rfl

theorem Inv.allocPagesAligned_none (hi : Inv pa) (hpos : 0 < size)
    (ha : AlignedArg pa (rounded size) align offset)
    (h : reach (fitsAligned (rounded size) align offset) STACK_SIZE pa.anchor = none) :
    pa.allocPagesAligned size align offset = .error (.serror 1476 0 .ENOMEM) := by
  have hsearch := hi.searchAligned_eq ha
  rw [h] at hsearch
  rw [allocPagesAligned, (pageRoundUp_rounded hpos ha.lt).1]
  cases hq : searchAligned (fitsAligned (rounded size) align offset) (rounded size) pa.anchor [] []
      none with
  | none => rfl
  | some q =>
    -- a link that the search returns leads to a block
    obtain ⟨low, cur, high, hg, -⟩ :=
      searchAligned_spec (get_root pa.anchor) (by simp) (by simp) hq
    rw [hq, Option.bind_some, hg] at hsearch
    cases hsearch

theorem Inv.allocPagesAligned_some (hi : Inv pa) (hpos : 0 < size)
    (ha : AlignedArg pa (rounded size) align offset)
    (h : reach (fitsAligned (rounded size) align offset) STACK_SIZE pa.anchor = some c) :
    ∃ pa', pa.allocPagesAligned size align offset =
      .ok (pa', roundedAddr c.start align offset) := by
  have hsearch := hi.searchAligned_eq ha
  rw [h] at hsearch
  obtain ⟨q, hq, hroot⟩ := Option.bind_eq_some_iff.mp hsearch
  obtain ⟨hmem, hfit⟩ := mem_of_reach h
  obtain ⟨hw1, hw2⟩ := ha.no_wrap c hmem
  have haddr := alignedAddr_eq ha.offset_lt ha.align_lt hw1 hw2
  cases hg : pa.anchor.get q with
  | nil =>
    rw [hg] at hroot
    cases hroot
  | node low cur high =>
    rw [hg] at hroot
    obtain rfl : cur = c := Option.some.inj hroot
    obtain ⟨pa', D, hal, -⟩ := allocFromBlock_spec hi.tree hi.freeList hg
      (le_roundedAddr cur.start ha.offset_lt) ((fitsAligned_iff hi ha hmem).mp hfit) ha.pos
      (page_dvd_roundedAddr ha.align_page ha.offset_page) ha.page
    rw [allocPagesAligned, (pageRoundUp_rounded hpos ha.lt).1]
    simp only [hq, hg, haddr, hal]
    exact ⟨_, rfl⟩

theorem Inv.first?_aligned_iff (hi : Inv pa) (ha : AlignedArg pa (rounded size) align offset) :
    pa.anchor.first? (fitsAligned (rounded size) align offset) = some c ↔
      c ∈ pa.anchor.toList ∧ fitsAligned (rounded size) align offset c = true ∧
        ∀ b ∈ pa.anchor.toList, Feasible size align offset b → c.start ≤ b.start := by
  rw [BinTree.first?_eq_some_iff hi.searchTree]
  refine and_congr_right fun _ => and_congr_right fun _ => ?_
  exact forall₂_congr fun b hb => by rw [feasible_iff hi ha hb]

end Aligned

/-- In every state reached, `allocPagesAligned` takes the lowest block that has room exactly if the
search settles at the first block that the request fits in, or gets to none of these. -/
theorem allocPagesAligned_takesAligned_iff {pa : PageAllocatorDefault} (h : Reachable pa)
    {size align offset : ℕ} (hpos : 0 < size) (ha : AlignedArg pa (rounded size) align offset) :
    TakesAligned pa size align offset ↔
      (reaches (fitsAligned (rounded size) align offset) STACK_SIZE pa.anchor = true →
        settlesAligned (fitsAligned (rounded size) align offset) STACK_SIZE pa.anchor = true) := by
  have hi := h.inv
  rw [← reach_first hi.searchTree, ← reach_isSome]
  cases hr : reach (fitsAligned (rounded size) align offset) STACK_SIZE pa.anchor with
  | none =>
    have herr := hi.allocPagesAligned_none hpos ha hr
    refine iff_of_true ⟨?_, ?_⟩ nofun
    · intro pa' v hok
      rw [herr] at hok
      cases hok
    · intro e he
      rw [herr] at he
      cases he
      refine ⟨rfl, fun hroom b hb hfeas => ?_⟩
      have hsome : (reach (fitsAligned (rounded size) align offset) STACK_SIZE
          pa.anchor).isSome = _ := reach_isSome
      rw [(reaches_iff hroom).mpr ⟨b, hb, (feasible_iff hi ha hb).mp hfeas⟩, hr] at hsome
      cases hsome
  | some c =>
    obtain ⟨pa', hok⟩ := hi.allocPagesAligned_some hpos ha hr
    obtain ⟨hmem, hfit⟩ := mem_of_reach hr
    have hend := (fitsAligned_iff hi ha hmem).mp hfit
    have hle := le_roundedAddr c.start ha.offset_lt
    rw [Option.isSome_some, imp_iff_right rfl, eq_comm, hi.first?_aligned_iff ha]
    constructor
    · rintro ⟨htake, -⟩
      obtain ⟨-, d, hd, hstart, hstop, hleast⟩ := htake _ _ hok
      -- the address lies in one block only
      have hround := ha.pos
      have hvd : Holds (roundedAddr c.start align offset) d := ⟨hstart, by omega⟩
      have hvc : Holds (roundedAddr c.start align offset) c := ⟨hle, by omega⟩
      obtain rfl := hi.tree.spaced.eq_of_mem hd hmem hvd hvc
      exact ⟨hmem, hfit, hleast⟩
    · rintro ⟨-, -, hleast⟩
      refine ⟨fun pa'' v heq => ?_, fun e he => ?_⟩
      · rw [hok] at heq
        cases heq
        exact ⟨roundedAddr_mod c.start ha.offset_lt, c, hmem, hle, hend, hleast⟩
      · rw [hok] at he
        cases he

example : anyFits (fitsAligned 0x3000 0x1000 0) fiveAndTwo.anchor = true := by decide +kernel

theorem alignedArg_fiveAndTwo {size : ℕ} (hsize : size = 0x1000 ∨ size = 0x3000) :
    AlignedArg fiveAndTwo (rounded size) 0x1000 0 := by
  have harg : SizeArg (rounded size) := by
    rcases hsize with rfl | rfl <;> exact ⟨by decide, by decide, by decide⟩
  refine ⟨harg, by decide, by decide, by decide, by decide, ?_⟩
  rcases hsize with rfl | rfl <;> decide +kernel

/-- Three pages are only in the lower block, which the search ends with. -/
theorem allocPagesAligned_takesAligned_iff_fiveAndTwo :
    TakesAligned fiveAndTwo 0x3000 0x1000 0 ↔
      (reaches (fitsAligned (rounded 0x3000) 0x1000 0) STACK_SIZE fiveAndTwo.anchor = true →
        settlesAligned (fitsAligned (rounded 0x3000) 0x1000 0) STACK_SIZE
          fiveAndTwo.anchor = true) :=
  allocPagesAligned_takesAligned_iff fiveAndTwo_reachable (by decide)
    (alignedArg_fiveAndTwo (.inr rfl))

/-- A page is found in the lower block, and the search goes on to the upper one. -/
theorem not_takesAligned_fiveAndTwo :
    ¬ ∀ (pa : PageAllocatorDefault) (size align offset : ℕ), Reachable pa → 0 < size →
      AlignedArg pa (rounded size) align offset → TakesAligned pa size align offset := by
  intro h
  have ha := alignedArg_fiveAndTwo (.inl rfl)
  obtain ⟨htake, -⟩ := h fiveAndTwo 0x1000 0x1000 0 fiveAndTwo_reachable (by decide) ha
  have hmem : ⟨0x10020, 0x11000, 0x5000⟩ ∈ fiveAndTwo.anchor.toList := by decide +kernel
  have hfeas : Feasible 0x1000 0x1000 0 ⟨0x10020, 0x11000, 0x5000⟩ :=
    ⟨0x11000, by decide, by decide, by decide⟩
  have hv : (fiveAndTwo.allocPagesAligned 0x1000 0x1000 0).map Prod.snd = .ok 0x17000 := by
    decide +kernel
  cases hok : fiveAndTwo.allocPagesAligned 0x1000 0x1000 0 with
  | error e =>
    rw [hok] at hv
    cases hv
  | ok r =>
    rw [hok] at hv
    obtain ⟨pa', v⟩ := r
    obtain rfl : v = 0x17000 := Except.ok.inj hv
    obtain ⟨-, c, hc, -, hstop, hleast⟩ := htake pa' _ hok
    have hround : rounded 0x1000 = 0x1000 := by decide
    have hle : c.start ≤ 0x11000 := hleast _ hmem hfeas
    -- no free block goes from the lower one to the upper one
    have hshort : ∀ c ∈ fiveAndTwo.anchor.toList, c.start ≤ 0x11000 → c.stop ≤ 0x16000 := by
      decide +kernel
    have hend := hshort c hc hle
    omega

end K42.PageAllocatorDefault
