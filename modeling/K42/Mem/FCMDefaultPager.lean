import K42.Mem.FCMDefault

/-!
# What the pager keeps

The loops of the pager work on one page at a time. A property of the manager that each of
these changes keeps is kept by `giveBack`, `writeFreeFreeList` and the restart of a blocked
write, up to where they release the lock: the inductions over the loops are here.
-/

namespace K42

namespace FCMDefault

variable {τ : Type} [DecidableEq τ]

/-- What the pager does with one page keeps `P`; the scan meets pages of `walk` only. -/
structure Kept (P : State τ → Prop) (walk : List ℕ) : Prop where
  freeLater : ∀ {s off pg}, P s → s.pageList.find off = some pg → off ∈ s.pageList.freeList →
    pg.doingIO = true → P (s.freeLater off pg)
  startPut : ∀ {s off pg}, P s → s.pageList.find off = some pg → off ∈ s.pageList.freeList →
    pg.doingIO = false → P (s.startPut off pg)
  drop : ∀ {s off pg}, P s → s.pageList.find off = some pg → off ∈ s.pageList.freeList →
    pg.doingIO = false → P (s.drop off pg)
  enqueue : ∀ {s off pg}, P s → off ∈ walk → s.pageList.find off = some pg →
    pg.doingIO = false → pg.established = false → pg.free = false →
    P { s with pageList := s.pageList.enqueueFreeList off { pg with mapped := false } }
  unmap : ∀ {s off pg}, P s → s.pageList.find off = some pg → pg.doingIO = false →
    pg.free = true → P (s.setPage off { pg with mapped := false })
  thread : ∀ {s} (t : τ) (c : Cont), P s → P (s.setThread t c)
  pending : ∀ {s}, P s → P { s with pendingWrite := none }

namespace Kept

variable {P : State τ → Prop} {W : List ℕ} {s : State τ}

section

variable (h : Kept P W)

include h

theorem scanLoop (target : ℕ) : ∀ (walk : List ℕ) (numFree : ℕ) (s : State τ),
    (∀ o ∈ walk, o ∈ W) → P s → P (State.scanLoop target numFree walk s) := by
  intro walk
  induction walk with
  | nil => exact fun _ _ _ hs => hs
  | cons off rest ih =>
    intro numFree s hw hs
    have hrest : ∀ o ∈ rest, o ∈ W := fun o ho => hw o (List.mem_cons_of_mem _ ho)
    rw [State.scanLoop]
    cases hpg : s.pageList.find off with
    | none => exact ih numFree s hrest hs
    | some pg =>
      by_cases hbusy : (pg.doingIO || pg.established) = true
      · simp only [hbusy, if_true]
        exact ih numFree s hrest hs
      · simp only [hbusy, Bool.false_eq_true, if_false]
        rw [Bool.or_eq_true, not_or, Bool.not_eq_true, Bool.not_eq_true] at hbusy
        by_cases hfree : pg.free = true
        · rw [if_pos hfree]
          exact ih numFree _ hrest (h.unmap hs hpg hbusy.1 hfree)
        · rw [if_neg hfree]
          rw [Bool.not_eq_true] at hfree
          have henq := h.enqueue hs (hw off List.mem_cons_self) hpg hbusy.1 hbusy.2 hfree
          split
          · exact henq
          · exact ih _ _ hrest henq

theorem pageScan (level : MemLevelState) (hs : P s) :
    P (s.locked_pageScan level W) := by
  unfold State.locked_pageScan
  simp only
  split
  · exact hs
  · exact h.scanLoop _ _ _ s (fun _ ho => List.mem_of_mem_take ho) hs

theorem giveBackLoop (numPages : ℕ) : ∀ (fuel total : ℕ) (s : State τ),
    P s → P (State.giveBackLoop numPages fuel total s).1 := by
  intro fuel
  induction fuel with
  | zero => exact fun _ _ hs => hs
  | succ fuel ih =>
    intro total s hs
    rw [State.giveBackLoop]
    split
    · split
      · exact hs
      · rename_i off hf
        have hmem := (PageList.firstFree_some hf).1
        split
        · exact hs
        · rename_i pg hpg
          by_cases hio : pg.doingIO = true
          · rw [if_pos hio]
            exact ih _ _ (h.freeLater hs hpg hmem hio)
          · rw [if_neg hio]
            rw [Bool.not_eq_true] at hio
            split
            · exact h.startPut hs hpg hmem hio
            · exact h.drop hs hpg hmem hio
    · exact hs

theorem finish (t : τ) (c : Caller) (hs : P s) : P (s.finish t c W) := by
  cases c with
  | giveBack level => exact h.thread t _ (h.pageScan level hs)
  | mapPage off write => exact h.thread t _ (h.pageScan .HIGH hs)

theorem locked_giveBack (t : τ) (numPages total : ℕ) (c : Caller) (hs : P s) :
    P (s.locked_giveBack t numPages total c W) := by
  have hloop := h.giveBackLoop numPages (s.pageList.freeList.length + 1) total s hs
  unfold State.locked_giveBack
  split
  · rename_i s₁ heq
    rw [heq] at hloop
    exact h.finish t c hloop
  · rename_i s₁ off total' heq
    rw [heq] at hloop
    exact h.thread t _ hloop
  · rename_i s₁ total' heq
    rw [heq] at hloop
    exact h.thread t _ hloop

theorem writeFreeLoop (numPages : ℕ) : ∀ (fuel : ℕ) (s : State τ),
    P s → P (State.writeFreeLoop numPages fuel s).1 := by
  intro fuel
  induction fuel with
  | zero => exact fun _ hs => hs
  | succ fuel ih =>
    intro s hs
    rw [State.writeFreeLoop]
    split
    · exact hs
    · split
      · exact hs
      · rename_i off hf
        have hmem := (PageList.firstFree_some hf).1
        split
        · exact hs
        · rename_i pg hpg
          by_cases hio : pg.doingIO = true
          · rw [if_pos hio]
            split
            · exact h.freeLater hs hpg hmem hio
            · exact ih _ (h.freeLater hs hpg hmem hio)
          · rw [if_neg hio]
            exact h.startPut hs hpg hmem (Bool.not_eq_true _ ▸ hio)

theorem writeFreeFreeList (t : τ) (numPages : ℕ) (hs : P s) :
    P (s.writeFreeFreeList t numPages) := by
  have hloop := h.writeFreeLoop numPages (s.pageList.freeList.length + 1) s hs
  unfold State.writeFreeFreeList
  split
  · rename_i s₁ heq
    rw [heq] at hloop
    exact h.thread t _ hloop
  · rename_i s₁ off heq
    rw [heq] at hloop
    exact h.thread t _ hloop

end

theorem giveBack (t : τ) (level : MemLevelState) {walk walk' : List ℕ}
    (h : s.pageable = true → level = .CRITICAL → Kept P walk)
    (h' : s.pageable = true → Kept P walk') (hs : P s) : P (s.giveBack t level walk walk') := by
  unfold State.giveBack
  by_cases hp : s.pageable = true
  · simp only [hp, if_true]
    cases level with
    | HIGH => exact (h' hp).finish t _ hs
    | MID => exact (h' hp).locked_giveBack t _ _ _ hs
    | LOW => exact (h' hp).locked_giveBack t _ _ _ hs
    | CRITICAL => exact (h' hp).locked_giveBack t _ _ _ ((h hp rfl).pageScan _ hs)
  · simp only [hp, Bool.false_eq_true, if_false]
    exact hs

theorem clearPending (h : Kept P W) (ok : Bool) (hs : P s) : P (s.clearPending ok) := by
  cases ok with
  | false => exact hs
  | true => exact h.pending hs

theorem resumeIO (h : Kept P W) (t : τ) (hs : P s) : P (s.resumeIO t) := by
  unfold State.resumeIO
  split
  · exact hs
  · exact h.thread t _ hs

theorem resume (h : Kept P []) (t : τ) (ok : Bool) {walk : List ℕ}
    (hw : ∀ numPages total put c, s.threads t = .giveBack numPages total put c → Kept P walk)
    (hmap : ∀ off write, s.threads t ≠ .mapPage off write) (hs : P s) : P (s.resume t ok walk) := by
  have hs' : P (s.clearPending ok) := h.clearPending ok hs
  unfold State.resume
  split
  · exact hs
  · rename_i numPages total c hc
    exact (hw _ _ _ _ hc).locked_giveBack t _ _ _ hs
  · rename_i numPages total off c hc
    exact (hw _ _ _ _ hc).locked_giveBack t _ _ _ hs'
  · rename_i off write hc
    exact absurd hc (hmap off write)
  · split
    · exact h.writeFreeFreeList t _ hs'
    · exact h.thread t _ hs'
  · exact h.thread t _ hs'
  · exact h.writeFreeFreeList t _ hs

end Kept

end FCMDefault

end K42
