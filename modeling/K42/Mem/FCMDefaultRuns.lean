import K42.Mem.FCMDefaultPager

/-!
# Pinned pages of the default file cache manager

A page that is pinned is not on the free list and is not doing IO, so that neither
`locked_giveBack` nor the completion of an IO gives its frame back. `getPage` sees to that
when it pins the page. `locked_pageScan` does not look at `pinCount`: it puts a pinned page
that is not established on the free list, and the page is given back from there.
-/

open Function (update update_of_ne update_self update_eq_self)

namespace K42

namespace FCMDefault

open State (wanted)
open PageList (find find_erase find_erase_ne find_insert find_insert_ne numPinned)

variable {τ : Type} [DecidableEq τ]

/-- A page, the stage of its IO and the frames that its holders have. -/
structure PageOk (st : Stage) (hs : List (Option ℕ)) (pg : PageDesc) : Prop where
  busy : st ≠ .idle → pg.doingIO = true
  pinned : 0 < pg.pinCount → pg.free = false ∧ pg.doingIO = false
  framed : pg.paddr = none → st.allocates = true
  held : ∀ f ∈ hs, f = pg.paddr
  count : hs.length = pg.pinCount
  small : pg.pinCount < 256
  unlisted : pg.doingIO = true → pg.free = false

structure Inv (s : State τ) : Prop where
  listed : s.pageList.Listed
  page : ∀ off pg, s.pageList.find off = some pg → PageOk (s.io off) (s.holds off) pg
  gone : ∀ off, s.pageList.find off = none → s.io off = .idle ∧ s.holds off = []
  owned : ∀ off pg f, s.pageList.find off = some pg → pg.paddr = some f → f ∈ s.frames
  apart : ∀ o o' pg pg' f, s.pageList.find o = some pg → s.pageList.find o' = some pg' →
    pg.paddr = some f → pg'.paddr = some f → o = o'
  count : s.pinnedCount = s.pageList.numPinned

/-- What a page adds to the number of pinned pages. -/
def weight (pg : PageDesc) : ℕ := if 0 < pg.pinCount then 1 else 0

theorem weight_eq (pg : PageDesc) :
    Assoc.weight (fun pg => decide (0 < pg.pinCount)) (some pg) = weight pg := by
  simp [Assoc.weight, weight]

section

variable {s s' : State τ} {off : ℕ} {pg pg' : PageDesc}

variable {st : Stage} {hs : List (Option ℕ)} {l : PageList}

theorem PageOk.unpinned (h : PageOk st hs pg)
    (hb : pg.free = true ∨ pg.doingIO = true) : pg.pinCount = 0 := by
  rcases Nat.eq_zero_or_pos pg.pinCount with h0 | hpos
  · exact h0
  · have hno := h.pinned hpos
    rcases hb with hb | hb
    · rw [hno.1] at hb
      cases hb
    · rw [hno.2] at hb
      cases hb

theorem PageOk.unheld (h : PageOk st hs pg) (h0 : pg.pinCount = 0) : hs = [] := by
  have hlen := h.count
  rw [h0] at hlen
  exact List.length_eq_zero_iff.mp hlen

theorem PageOk.idle (h : PageOk st hs pg) (hio : pg.doingIO = false) : st = .idle := by
  by_contra hne
  rw [h.busy hne] at hio
  cases hio

/-! ## Storing and dropping a page -/

section

omit [DecidableEq τ]

theorem Inv.write (h : Inv s) (he : s'.pageList.entries = s.pageList.entries.insert off pg')
    (hl : s'.pageList.Listed)
    (hio : ∀ o, o ≠ off → s'.io o = s.io o) (hh : ∀ o, o ≠ off → s'.holds o = s.holds o)
    (hfr : s.frames ⊆ s'.frames) (hok : PageOk (s'.io off) (s'.holds off) pg')
    (hown : ∀ f, pg'.paddr = some f → f ∈ s'.frames ∧
      ∀ o pg, o ≠ off → s.pageList.find o = some pg → pg.paddr ≠ some f)
    (hc : s'.pinnedCount = s'.pageList.numPinned) : Inv s' := by
  have hoff : s'.pageList.find off = some pg' := by
    rw [find, he]
    exact AList.lookup_insert _
  have hne : ∀ o, o ≠ off → s'.pageList.find o = s.pageList.find o := by
    intro o ho
    rw [find, he]
    exact AList.lookup_insert_ne ho
  refine ⟨hl, ?_, ?_, ?_, ?_, hc⟩
  · intro o pg hpg
    by_cases ho : o = off
    · subst ho
      rw [hoff] at hpg
      cases hpg
      exact hok
    · rw [hne o ho] at hpg
      rw [hio o ho, hh o ho]
      exact h.page o pg hpg
  · intro o hnone
    by_cases ho : o = off
    · rw [ho, hoff] at hnone
      cases hnone
    · rw [hne o ho] at hnone
      rw [hio o ho, hh o ho]
      exact h.gone o hnone
  · intro o pg f hpg hf
    by_cases ho : o = off
    · rw [ho, hoff] at hpg
      cases hpg
      exact (hown f hf).1
    · rw [hne o ho] at hpg
      exact hfr (h.owned o pg f hpg hf)
  · intro o o' pg pg'' f hpg hpg' hf hf'
    by_cases ho : o = off <;> by_cases ho' : o' = off
    · rw [ho, ho']
    · rw [ho, hoff] at hpg
      cases hpg
      rw [hne o' ho'] at hpg'
      exact absurd hf' ((hown f hf).2 o' pg'' ho' hpg')
    · rw [ho', hoff] at hpg'
      cases hpg'
      rw [hne o ho] at hpg
      exact absurd hf ((hown f hf').2 o pg ho hpg)
    · rw [hne o ho] at hpg
      rw [hne o' ho'] at hpg'
      exact h.apart o o' pg pg'' f hpg hpg' hf hf'

theorem Inv.store (h : Inv s) (hpg : s.pageList.find off = some pg)
    (he : s'.pageList.entries = s.pageList.entries.insert off pg') (hl : s'.pageList.Listed)
    (hio : ∀ o, o ≠ off → s'.io o = s.io o) (hh : ∀ o, o ≠ off → s'.holds o = s.holds o)
    (hfr : s'.frames = s.frames) (hpa : pg'.paddr = pg.paddr)
    (hok : PageOk (s'.io off) (s'.holds off) pg')
    (hc : s'.pinnedCount + weight pg = s.pinnedCount + weight pg') : Inv s' := by
  refine h.write he hl hio hh (hfr ▸ Finset.Subset.refl _) hok ?_ ?_
  · intro f hf
    rw [hpa] at hf
    refine ⟨hfr ▸ h.owned off pg f hpg hf, fun o pg₁ ho hpg₁ hf₁ => ho ?_⟩
    exact h.apart o off pg₁ pg f hpg₁ hpg hf₁ hf
  · have hcount := Assoc.count_insert (fun pg => decide (0 < pg.pinCount))
      s.pageList.entries off pg'
    have hold : s.pageList.entries.lookup off = some pg := hpg
    rw [hold, weight_eq, weight_eq, ← he] at hcount
    have hs : s.pinnedCount = Assoc.count (fun pg => decide (0 < pg.pinCount))
      s.pageList.entries := h.count
    rw [← hs, ← hc] at hcount
    exact (Nat.add_right_cancel hcount).symm

theorem Inv.drop (h : Inv s) (hpg : s.pageList.find off = some pg) (h0 : pg.pinCount = 0) :
    Inv (s.drop off pg) := by
  have hok := h.page off pg hpg
  have hre : (s.drop off pg).pageList =
      ⟨s.pageList.entries.erase off, s.pageList.freeList.erase off⟩ := h.listed.remove_eq off
  have hoff : (s.drop off pg).pageList.find off = none := by
    rw [hre]
    exact find_erase _ _ _
  have hne : ∀ o, o ≠ off → (s.drop off pg).pageList.find o = s.pageList.find o := by
    intro o ho
    rw [hre]
    exact find_erase_ne _ _ _ ho
  have hio : ∀ o, o ≠ off → (s.drop off pg).io o = s.io o := fun o ho =>
    update_of_ne ho _ _
  -- the frame that goes back is the frame of no other page
  have hfr : ∀ o pg₁ f, o ≠ off → s.pageList.find o = some pg₁ → pg₁.paddr = some f →
      f ∈ (s.drop off pg).frames := by
    intro o pg₁ f ho hpg₁ hf
    have hmem := h.owned o pg₁ f hpg₁ hf
    change f ∈ State.deallocPages s.frames pg.paddr
    cases hpa : pg.paddr with
    | none => exact hmem
    | some g =>
      refine Finset.mem_erase.mpr ⟨fun hfg => ho ?_, hmem⟩
      subst hfg
      exact h.apart o off pg₁ pg f hpg₁ hpg hf hpa
  refine ⟨h.listed.remove off, ?_, ?_, ?_, ?_, ?_⟩
  · intro o pg₁ hpg₁
    by_cases ho : o = off
    · rw [ho, hoff] at hpg₁
      cases hpg₁
    · rw [hne o ho] at hpg₁
      rw [hio o ho]
      exact h.page o pg₁ hpg₁
  · intro o hnone
    by_cases ho : o = off
    · subst ho
      exact ⟨update_self _ _ _, hok.unheld h0⟩
    · rw [hne o ho] at hnone
      rw [hio o ho]
      exact h.gone o hnone
  · intro o pg₁ f hpg₁ hf
    by_cases ho : o = off
    · rw [ho, hoff] at hpg₁
      cases hpg₁
    · rw [hne o ho] at hpg₁
      exact hfr o pg₁ f ho hpg₁ hf
  · intro o o' pg₁ pg₂ f hpg₁ hpg₂ hf hf'
    by_cases ho : o = off
    · rw [ho, hoff] at hpg₁
      cases hpg₁
    · by_cases ho' : o' = off
      · rw [ho', hoff] at hpg₂
        cases hpg₂
      · rw [hne o ho] at hpg₁
        rw [hne o' ho'] at hpg₂
        exact h.apart o o' pg₁ pg₂ f hpg₁ hpg₂ hf hf'
  · have hcount := Assoc.count_erase (fun pg => decide (0 < pg.pinCount))
      s.pageList.entries off
    have hold : s.pageList.entries.lookup off = some pg := hpg
    have hw : weight pg = 0 := by simp [weight, h0]
    rw [hold, weight_eq, hw, Nat.add_zero] at hcount
    rw [numPinned, hre, hcount]
    exact h.count

end

/-- Flags that the invariant does not speak of. -/
theorem PageOk.congr (h : PageOk st hs pg)
    (hpa : pg'.paddr = pg.paddr) (hio : pg'.doingIO = pg.doingIO) (hfree : pg'.free = pg.free)
    (hpin : pg'.pinCount = pg.pinCount) : PageOk st hs pg' where
  busy := by
    rw [hio]
    exact h.busy
  pinned := by
    rw [hpin, hfree, hio]
    exact h.pinned
  framed := by
    rw [hpa]
    exact h.framed
  held := by
    rw [hpa]
    exact h.held
  count := by
    rw [hpin]
    exact h.count
  small := by
    rw [hpin]
    exact h.small
  unlisted := by
    rw [hio, hfree]
    exact h.unlisted

section

variable (h : Inv s) (hpg : s.pageList.find off = some pg)

include h hpg

section

omit [DecidableEq τ]

theorem Inv.setPage (hpa : pg'.paddr = pg.paddr) (hfree : pg'.free = pg.free)
    (hpin : pg'.pinCount = pg.pinCount) (hok : PageOk (s.io off) (s.holds off) pg') :
    Inv (s.setPage off pg') := by
  refine h.store hpg rfl (h.listed.set ?_) (fun _ _ => rfl) (fun _ _ => rfl) rfl hpa hok ?_
  · rw [h.listed.mem_iff hpg, hfree]
  · simp only [weight, hpin]
    rfl

theorem Inv.setFlags (hpa : pg'.paddr = pg.paddr) (hio : pg'.doingIO = pg.doingIO)
    (hfree : pg'.free = pg.free) (hpin : pg'.pinCount = pg.pinCount) :
    Inv (s.setPage off pg') :=
  h.setPage hpg hpa hfree hpin ((h.page off pg hpg).congr hpa hio hfree hpin)

theorem Inv.dequeue (hfree : pg.free = true)
    (pg' : PageDesc) (st : Stage) (pw : Option ℕ) (hpa : pg'.paddr = pg.paddr)
    (hpin : pg'.pinCount = pg.pinCount) (hst : st ≠ .idle → pg'.doingIO = true)
    (hal : st.allocates = (s.io off).allocates) :
    Inv { s with
      pageList := s.pageList.dequeueFreeList off pg'
      pendingWrite := pw
      io := update s.io off st } := by
  have hok := h.page off pg hpg
  have h0 : pg.pinCount = 0 := hok.unpinned (.inl hfree)
  refine h.store hpg rfl h.listed.dequeueFreeList
    (fun o ho => update_of_ne ho _ _) (fun _ _ => rfl) rfl hpa ?_ ?_
  · change PageOk (update s.io off st off) (s.holds off) { pg' with free := false }
    rw [update_self]
    refine ⟨hst, fun hpos => ?_, fun hnone => ?_, fun f hf => ?_, ?_, hpin ▸ hok.small,
      fun _ => rfl⟩
    · change 0 < pg'.pinCount at hpos
      omega
    · rw [hal]
      exact hok.framed (hpa ▸ hnone)
    · rw [hok.held f hf]
      exact hpa.symm
    · rw [hok.count]
      exact hpin.symm
  · simp only [weight, hpin]

theorem Inv.freeLater (hfree : pg.free = true) (hio : pg.doingIO = true) :
    Inv (s.freeLater off pg) := by
  have hd := h.dequeue hpg hfree { pg with freeAfterIO := true } (s.io off) s.pendingWrite
    rfl rfl (fun _ => hio) rfl
  rw [update_eq_self] at hd
  exact hd

theorem Inv.startPut (hfree : pg.free = true) (hio : pg.doingIO = false) : Inv (s.startPut off pg) := by
  refine h.dequeue hpg hfree { pg with doingIO := true, dirty := false, freeAfterIO := true }
    .putting (some off) rfl rfl (fun _ => rfl) ?_
  rw [(h.page off pg hpg).idle hio]
  rfl

end

end

theorem Inv.setThread (h : Inv s) (t : τ) (c : Cont) : Inv (s.setThread t c) :=
  ⟨h.listed, h.page, h.gone, h.owned, h.apart, h.count⟩

/-! ## The pager -/

/-- The scan puts no pinned page on the free list. -/
def Skips (l : PageList) (walk : List ℕ) : Prop :=
  ∀ off ∈ walk, ∀ pg ∈ l.find off, 0 < pg.pinCount →
    pg.established = true ∨ pg.doingIO = true ∨ pg.free = true

/-- What the sections under the lock do to pinned pages before they scan: nothing. -/
def SamePins (l l' : PageList) : Prop :=
  ∀ off pg, l'.find off = some pg → 0 < pg.pinCount → l.find off = some pg

theorem SamePins.refl (l : PageList) : SamePins l l := fun _ _ h _ => h

theorem SamePins.trans {l' l'' : PageList} (h : SamePins l l') (h' : SamePins l' l'') :
    SamePins l l'' := fun off pg hpg hpos => h off pg (h' off pg hpg hpos) hpos

theorem SamePins.insert {fl : List ℕ} (h0 : pg'.pinCount = 0) :
    SamePins l ⟨l.entries.insert off pg', fl⟩ := by
  intro o pg₁ hpg₁ hpos
  by_cases ho : o = off
  · subst ho
    rw [find_insert] at hpg₁
    cases hpg₁
    omega
  · rwa [find_insert_ne l off pg' fl ho] at hpg₁

theorem SamePins.remove (hl : l.Listed) : SamePins l (l.remove off) := by
  intro o pg₁ hpg₁ _
  rw [hl.remove_eq] at hpg₁
  by_cases ho : o = off
  · subst ho
    rw [find_erase] at hpg₁
    cases hpg₁
  · rwa [find_erase_ne l off _ ho] at hpg₁

omit [DecidableEq τ] in
theorem Inv.enqueue (h : Inv s) (hpg : s.pageList.find off = some pg) (h0 : pg.pinCount = 0)
    (hio : pg.doingIO = false) (hfree : pg.free = false) :
    Inv { s with pageList := s.pageList.enqueueFreeList off { pg with mapped := false } } := by
  have hok := h.page off pg hpg
  refine h.store hpg rfl (h.listed.enqueueFreeList ?_) (fun _ _ => rfl) (fun _ _ => rfl) rfl
    rfl ?_ rfl
  · rw [h.listed.mem_iff hpg, hfree]
    exact Bool.false_ne_true
  · refine ⟨hok.busy, fun hpos => ?_, hok.framed, hok.held, hok.count, hok.small, fun hb => ?_⟩
    · change 0 < pg.pinCount at hpos
      omega
    · change pg.doingIO = true at hb
      rw [hio] at hb
      cases hb

/-- The pager keeps the invariant, and it leaves the pinned pages of `l` alone. -/
theorem Inv.kept {walk : List ℕ} (hskip : Skips l walk) :
    Kept (fun s : State τ => Inv s ∧ SamePins l s.pageList) walk where
  freeLater {s off pg} hs hpg hmem hio := by
    have hfree : pg.free = true := (hs.1.listed.mem_iff hpg).mp hmem
    have h0 := (hs.1.page off pg hpg).unpinned (.inl hfree)
    exact ⟨hs.1.freeLater hpg hfree hio, hs.2.trans (SamePins.insert h0)⟩
  startPut {s off pg} hs hpg hmem hio := by
    have hfree : pg.free = true := (hs.1.listed.mem_iff hpg).mp hmem
    have h0 := (hs.1.page off pg hpg).unpinned (.inl hfree)
    exact ⟨hs.1.startPut hpg hfree hio, hs.2.trans (SamePins.insert h0)⟩
  drop {s off pg} hs hpg hmem _ := by
    have hfree : pg.free = true := (hs.1.listed.mem_iff hpg).mp hmem
    have h0 := (hs.1.page off pg hpg).unpinned (.inl hfree)
    exact ⟨hs.1.drop hpg h0, hs.2.trans (SamePins.remove hs.1.listed)⟩
  enqueue {s off pg} hs hmem hpg hio hest hfree := by
    -- the page is put on the free list, so it must not be pinned
    have h0 : pg.pinCount = 0 := by
      by_contra hne
      have hpos := Nat.pos_of_ne_zero hne
      rcases hskip off hmem pg (hs.2 off pg hpg hpos) hpos with he | hb | hf
      · rw [hest] at he
        cases he
      · rw [hio] at hb
        cases hb
      · rw [hfree] at hf
        cases hf
    exact ⟨hs.1.enqueue hpg h0 hio hfree, hs.2.trans (SamePins.insert h0)⟩
  unmap {s off pg} hs hpg _ hfree := by
    have h0 := (hs.1.page off pg hpg).unpinned (.inl hfree)
    exact ⟨hs.1.setFlags hpg rfl rfl rfl rfl, hs.2.trans (SamePins.insert h0)⟩
  thread t c hs := ⟨hs.1.setThread t c, hs.2⟩
  pending hs := ⟨⟨hs.1.listed, hs.1.page, hs.1.gone, hs.1.owned, hs.1.apart, hs.1.count⟩, hs.2⟩

theorem Skips.nil (l : PageList) : Skips l [] := fun _ ho => absurd ho List.not_mem_nil

/-! ## Getting and releasing a page -/

section

omit [DecidableEq τ]

theorem Inv.pin (h : Inv s) (hpg : s.pageList.find off = some pg) (hfree : pg.free = false)
    (hio : pg.doingIO = false) (hlt : pg.pinCount < 255) : Inv (s.pin off pg) := by
  have hok := h.page off pg hpg
  have hmod : (pg.pinCount + 1) % 256 = pg.pinCount + 1 := Nat.mod_eq_of_lt (by omega)
  refine h.store hpg rfl (h.listed.set ?_) (fun _ _ => rfl)
    (fun o ho => update_of_ne ho _ _) rfl rfl ?_ ?_
  · rw [h.listed.mem_iff hpg]
  · change PageOk (s.io off) (update s.holds off (pg.paddr :: s.holds off) off)
      { pg with pinCount := (pg.pinCount + 1) % 256 }
    rw [update_self, hmod]
    refine ⟨hok.busy, fun _ => ⟨hfree, hio⟩, hok.framed, ?_, ?_, Nat.succ_lt_succ hlt,
      fun _ => hfree⟩
    · intro f hf
      rcases List.mem_cons.mp hf with rfl | hf
      · rfl
      · exact hok.held f hf
    · rw [List.length_cons, hok.count]
  · simp only [State.pin, weight, hmod]
    by_cases h0 : pg.pinCount = 0
    · simp [h0]
    · simp [h0, Nat.pos_of_ne_zero h0]

theorem Inv.deliver (h : Inv s) (hpg : s.pageList.find off = some pg) (hfree : pg.free = false)
    (hio : pg.doingIO = false) {w : Want} (hw : w = .pin → pg.pinCount < 255) :
    Inv (s.deliver w off pg) := by
  cases w with
  | pin => exact h.pin hpg hfree hio (hw rfl)
  | map write => exact h.setFlags hpg rfl rfl rfl rfl
  | preFetch => exact h

theorem Inv.newPage (h : Inv s) (hpg : s.pageList.find off = none) (w : Want) :
    Inv ((s.setPage off { PageDesc.init none with doingIO := true }).setStage off
      (.allocating w)) := by
  have hgone := h.gone off hpg
  refine h.write rfl (h.listed.set ?_) (fun o ho => update_of_ne ho _ _)
    (fun _ _ => rfl) (Finset.Subset.refl _) ?_ (fun f hf => ?_) ?_
  · exact iff_of_false (h.listed.not_mem hpg) Bool.false_ne_true
  · change PageOk (update s.io off (.allocating w) off) (s.holds off) _
    rw [update_self, hgone.2]
    refine ⟨fun _ => rfl, ?_, fun _ => rfl, ?_, rfl, Nat.zero_lt_succ _, fun _ => rfl⟩
    · exact fun hpos => absurd hpos (Nat.lt_irrefl 0)
    · exact fun f hf => absurd hf List.not_mem_nil
  · cases hf
  · have hcount := Assoc.count_insert (fun pg => decide (0 < pg.pinCount)) s.pageList.entries off
      { PageDesc.init none with doingIO := true }
    have hold : s.pageList.entries.lookup off = none := hpg
    rw [hold] at hcount
    exact h.count.trans hcount.symm

end

theorem wanted_free (pg : PageDesc) : (wanted pg).free = pg.free := by
  unfold wanted
  split <;> rfl

section

omit [DecidableEq τ]

theorem Inv.offFreeList (h : Inv s) (hpg : s.pageList.find off = some pg) :
    Inv { s with pageList := if pg.free then s.pageList.dequeueFreeList off (wanted pg)
                             else s.pageList.set off (wanted pg) } := by
  have hpa : (wanted pg).paddr = pg.paddr := by unfold wanted; split <;> rfl
  have hio : PageDesc.doingIO (wanted pg) = pg.doingIO := by unfold wanted; split <;> rfl
  have hpin : (wanted pg).pinCount = pg.pinCount := by unfold wanted; split <;> rfl
  have hok := h.page off pg hpg
  by_cases hfree : pg.free = true
  · simp only [hfree, if_true]
    have hd := h.dequeue hpg hfree (wanted pg) (s.io off) s.pendingWrite hpa hpin
      (fun hne => hio ▸ hok.busy hne) rfl
    rw [update_eq_self] at hd
    exact hd
  · simp only [hfree, Bool.false_eq_true, if_false]
    exact h.setFlags hpg hpa hio (wanted_free pg) hpin

theorem Inv.getPageInternal (h : Inv s) {w : Want}
    (hw : w = .pin → ∀ pg ∈ s.pageList.find off, pg.pinCount < 255) :
    Inv (s.getPageInternal off w) := by
  unfold State.getPageInternal
  cases hpg : s.pageList.find off with
  | none => exact h.newPage hpg w
  | some pg =>
    have hoff := h.offFreeList hpg
    simp only
    split
    · exact hoff
    · rename_i hio
      have hidle : pg.doingIO = false := by simpa using hio
      have hwant : wanted pg = pg := by simp [wanted, hidle]
      have hfind : find (if pg.free = true then
          s.pageList.dequeueFreeList off (wanted pg)
          else s.pageList.set off (wanted pg)) off = some { pg with free := false } := by
        rw [hwant]
        split
        · exact find_insert _ _ _ _
        · rename_i hfree
          have hsame : { pg with free := false } = pg := by
            rw [Bool.not_eq_true] at hfree
            cases pg
            simp_all
          rw [hsame]
          exact find_insert _ _ _ _
      exact hoff.deliver hfind rfl hidle fun hp => hw hp pg hpg

theorem numPinned_pos (hpg : s.pageList.find off = some pg) (hpos : 0 < pg.pinCount) :
    0 < s.pageList.numPinned := by
  have hcount := Assoc.count_erase (fun pg => decide (0 < pg.pinCount)) s.pageList.entries off
  have hold : s.pageList.entries.lookup off = some pg := hpg
  rw [hold, weight_eq, weight, if_pos hpos] at hcount
  rw [numPinned, ← hcount]
  exact Nat.succ_pos _

theorem Inv.releasePage (h : Inv s) (dirty : Bool) (hhold : s.holds off ≠ []) :
    Inv (s.releasePage off dirty) := by
  unfold State.releasePage
  cases hpg : s.pageList.find off with
  | none => exact absurd (h.gone off hpg).2 hhold
  | some pg =>
    have hok := h.page off pg hpg
    obtain ⟨f, fs, hfs⟩ := List.exists_cons_of_ne_nil hhold
    have hlen : pg.pinCount = fs.length + 1 := by
      rw [← hok.count, hfs]
      rfl
    have hsmall := hok.small
    have hmod : (pg.pinCount + 255) % 256 = fs.length := by omega
    have hpin := hok.pinned (by omega)
    refine h.store hpg rfl (h.listed.set ?_) (fun _ _ => rfl)
      (fun o ho => update_of_ne ho _ _) rfl rfl ?_ ?_
    · rw [h.listed.mem_iff hpg]
    · change PageOk (s.io off) (update s.holds off (s.holds off).tail off)
        { pg with dirty := pg.dirty || dirty, pinCount := (pg.pinCount + 255) % 256 }
      rw [update_self, hmod, hfs]
      refine ⟨hok.busy, fun _ => hpin, hok.framed, fun g hg => hok.held g ?_, rfl, ?_,
        fun _ => hpin.1⟩
      · rw [hfs]
        exact List.mem_cons_of_mem _ hg
      · change fs.length < 256
        omega
    · have hcount : 0 < s.pinnedCount := by
        rw [h.count]
        exact numPinned_pos hpg (by omega)
      simp only [weight, hmod]
      by_cases h0 : fs.length = 0
      · simp only [h0, hlen, Nat.lt_irrefl, Nat.zero_lt_one, Nat.zero_add, if_true, if_false]
        omega
      · simp only [h0, hlen, if_false]
        rw [if_pos (Nat.succ_pos _), if_pos (Nat.pos_of_ne_zero h0)]

end

/-! ## Answers -/

section

omit [DecidableEq τ]

theorem Inv.gotFrame (h : Inv s) {frame : Option ℕ} (hnew : ∀ f ∈ frame, f ∉ s.frames) :
    Inv (s.gotFrame off frame) := by
  unfold State.gotFrame
  split
  · rename_i pg w hpg hst
    have hok := h.page off pg hpg
    have hio : pg.doingIO = true := hok.busy (by rw [hst]; exact nofun)
    have h0 := hok.unpinned (.inr hio)
    cases frame with
    | none => exact h.drop hpg h0
    | some f =>
      have hf : f ∉ s.frames := hnew f rfl
      refine h.write rfl (h.listed.set ?_) (fun o ho => update_of_ne ho _ _)
        (fun _ _ => rfl) (Finset.subset_insert f s.frames) ?_ ?_ ?_
      · rw [h.listed.mem_iff hpg]
      · change PageOk (update s.io off (.filling w) off) (s.holds off) _
        rw [update_self, hok.unheld h0]
        refine ⟨fun _ => hio, hok.pinned, nofun, ?_, h0.symm, hok.small, hok.unlisted⟩
        exact fun g hg => absurd hg List.not_mem_nil
      · intro g hg
        cases hg
        refine ⟨Finset.mem_insert_self f s.frames, fun o pg₁ _ hpg₁ hpa => hf ?_⟩
        exact h.owned o pg₁ f hpg₁ hpa
      · have hcount := Assoc.count_insert_of_weight_eq (fun pg => decide (0 < pg.pinCount))
          (s := s.pageList.entries) (a := off) (b := { pg with paddr := some f })
          (by rw [show s.pageList.entries.lookup off = some pg from hpg]; rfl)
        exact h.count.trans hcount.symm
  · exact h

theorem Inv.ioCompleteInternal (h : Inv s) (hpg : s.pageList.find off = some pg)
    (hio : pg.doingIO = true) (hal : (s.io off).allocates = false) :
    Inv (s.ioCompleteInternal off pg) := by
  have hok := h.page off pg hpg
  have h0 := hok.unpinned (.inr hio)
  unfold State.ioCompleteInternal
  split
  · exact h.drop hpg h0
  · refine h.store hpg rfl (h.listed.set ?_) (fun o ho => update_of_ne ho _ _)
      (fun _ _ => rfl) rfl rfl ?_ rfl
    · rw [h.listed.mem_iff hpg]
    · change PageOk (update s.io off .idle off) (s.holds off) _
      rw [update_self]
      refine ⟨fun hne => absurd rfl hne, fun hpos => ?_, fun hnone => ?_, hok.held, hok.count,
        hok.small, nofun⟩
      · exact absurd h0 (Nat.pos_iff_ne_zero.mp hpos)
      · rw [hok.framed hnone] at hal
        cases hal

theorem ioCompleteInternal_find (hfree : pg.freeAfterIO = false) :
    (s.ioCompleteInternal off pg).pageList.find off =
      some { pg with dirty := false, doingIO := false } := by
  simp only [State.ioCompleteInternal, hfree, Bool.false_eq_true, if_false]
  exact find_insert _ _ _ _

theorem Inv.inFlight (h : Inv s) (hpg : s.pageList.find off = some pg)
    (hio : pg.doingIO = true) (hal : (s.io off).allocates = false) :
    Inv (s.setStage off .inFlight) := by
  have hne : ∀ o, o ≠ off → (s.setStage off .inFlight).io o = s.io o := fun o ho =>
    update_of_ne ho _ _
  refine ⟨h.listed, ?_, ?_, h.owned, h.apart, h.count⟩
  · intro o pg₁ hpg₁
    have hok := h.page o pg₁ hpg₁
    by_cases ho : o = off
    · subst ho
      rw [show pg₁ = pg from Option.some.inj (hpg₁.symm.trans hpg)] at hok ⊢
      refine ⟨fun _ => hio, hok.pinned, fun hnone => ?_, hok.held, hok.count, hok.small,
        hok.unlisted⟩
      rw [hok.framed hnone] at hal
      cases hal
    · rw [hne o ho]
      exact hok
  · intro o hnone
    have ho : o ≠ off := by
      rintro rfl
      rw [show s.pageList.find o = none from hnone] at hpg
      cases hpg
    rw [hne o ho]
    exact h.gone o hnone

theorem Inv.fillAnswer (h : Inv s) (notFound : Bool) : Inv (s.fillAnswer off notFound) := by
  unfold State.fillAnswer
  split
  · rename_i pg w hpg hst
    have hok := h.page off pg hpg
    have hio : pg.doingIO = true := hok.busy (by rw [hst]; exact nofun)
    have h0 := hok.unpinned (.inr hio)
    cases notFound with
    | true =>
      have hdone := h.ioCompleteInternal hpg hio (by rw [hst]; rfl)
      simp only [if_true]
      split
      · exact hdone
      · rename_i hfree
        -- nobody can have pinned the page while it was doing IO
        refine hdone.deliver (ioCompleteInternal_find (Bool.not_eq_true _ ▸ hfree))
          (hok.unlisted hio) rfl fun _ => ?_
        change pg.pinCount < 255
        omega
    | false =>
      simp only [Bool.false_eq_true, if_false]
      exact h.inFlight hpg hio (by rw [hst]; rfl)
  · exact h

theorem Inv.busyPage (h : Inv s) (hne : s.io off ≠ .idle) :
    ∃ pg, s.pageList.find off = some pg ∧ pg.doingIO = true := by
  cases hpg : s.pageList.find off with
  | none => exact absurd (h.gone off hpg).1 hne
  | some pg => exact ⟨pg, rfl, (h.page off pg hpg).busy hne⟩

end

/-! ## Steps and runs -/

theorem Inv.mapPage (h : Inv s) (t : τ) (write : Bool) {walk : List ℕ}
    (hw : (s.pageable && decide (s.maxNumPages < s.pageList.getNumPages)) = true →
      Skips s.pageList walk) : Inv (s.mapPage t off write walk) := by
  unfold State.mapPage
  split
  · rename_i hover
    exact ((Inv.kept (hw hover)).locked_giveBack t _ _ _ ⟨h, SamePins.refl _⟩).1
  · exact h.getPageInternal nofun

theorem step_keeps (h : Inv s) {op : Op τ} (hadm : adm s op) (hsp : Spares s op) :
    Inv (step s op) := by
  have hs : Inv s ∧ SamePins s.pageList s.pageList := ⟨h, SamePins.refl _⟩
  cases op with
  | getPage off => exact h.getPageInternal fun _ => hsp.2
  | preFetch off => exact h.getPageInternal nofun
  | mapPage t off write walk =>
    refine h.mapPage t write fun hover o ho => hsp.1 o ?_
    simpa only [visits, hover, if_true] using ho
  | releasePage off dirty => exact h.releasePage dirty hadm
  | giveBack t level walk walk' =>
    refine (Kept.giveBack t level (fun hp hl => Inv.kept fun o ho => hsp.1 o ?_)
      (fun hp => Inv.kept fun o ho => hsp.1 o ?_) hs).1
    · simp only [visits, hp, hl, if_true]
      exact List.mem_append_left _ ho
    · simp only [visits, hp, if_true]
      exact List.mem_append_right _ ho
  | writeFreeFreeList t numPages =>
    exact ((Inv.kept (Skips.nil s.pageList)).writeFreeFreeList t numPages hs).1
  | resumeIO t => exact (Kept.resumeIO (Inv.kept (Skips.nil s.pageList)) t hs).1
  | resume t ok walk =>
    by_cases hmap : ∃ off write, s.threads t = .mapPage off write
    · obtain ⟨off, write, hc⟩ := hmap
      change Inv (s.resume t ok walk)
      simp only [State.resume, hc]
      exact (h.setThread t .idle).getPageInternal nofun
    · refine ((Inv.kept (Skips.nil s.pageList)).resume t ok
        (fun numPages total put c hc => Inv.kept fun o ho => hsp.1 o ?_)
        (fun off write hc => hmap ⟨off, write, hc⟩) hs).1
      simpa only [visits, hc] using ho
  | gotFrame off frame => exact h.gotFrame hadm.2
  | fillAnswer off notFound => exact h.fillAnswer notFound
  | accept t off =>
    obtain ⟨pg, hpg, hio⟩ := h.busyPage (by rw [hadm.2]; exact nofun)
    exact h.inFlight hpg hio (by rw [hadm.2]; rfl)
  | ioComplete off =>
    have hst : s.io off = .inFlight := hadm
    obtain ⟨pg, hpg, hio⟩ := h.busyPage (by rw [hst]; exact nofun)
    change Inv (s.ioComplete off)
    simp only [State.ioComplete, hpg]
    exact h.ioCompleteInternal hpg hio (by rw [hst]; rfl)

end

/-- A manager none of whose pages is pinned, doing IO or on the free list. -/
structure Quiet (s : State τ) : Prop where
  page : ∀ off pg, s.pageList.find off = some pg →
    pg.doingIO = false ∧ pg.free = false ∧ pg.pinCount = 0 ∧ ∃ f ∈ s.frames, pg.paddr = some f
  apart : ∀ o o' pg pg' f, s.pageList.find o = some pg → s.pageList.find o' = some pg' →
    pg.paddr = some f → pg'.paddr = some f → o = o'
  freeList : s.pageList.freeList = []
  io : ∀ off, s.io off = .idle
  holds : ∀ off, s.holds off = []
  pinnedCount : s.pinnedCount = 0

omit [DecidableEq τ] in
theorem Quiet.inv {s : State τ} (h : Quiet s) : Inv s where
  listed := by
    refine ⟨h.freeList ▸ List.nodup_nil, fun off => ?_⟩
    rw [h.freeList]
    constructor
    · exact fun hmem => absurd hmem List.not_mem_nil
    · rintro ⟨pg, hpg, hfree⟩
      rw [(h.page off pg hpg).2.1] at hfree
      cases hfree
  page off pg hpg := by
    obtain ⟨hio, hfree, h0, f, -, hpa⟩ := h.page off pg hpg
    rw [h.io off, h.holds off]
    refine ⟨fun hne => absurd rfl hne, fun _ => ⟨hfree, hio⟩, fun hnone => ?_, ?_, h0.symm, ?_,
      fun _ => hfree⟩
    · rw [hpa] at hnone
      cases hnone
    · exact fun f hf => absurd hf List.not_mem_nil
    · omega
  gone off _ := ⟨h.io off, h.holds off⟩
  owned off pg f hpg hf := by
    obtain ⟨-, -, -, g, hg, hpa⟩ := h.page off pg hpg
    rw [hpa] at hf
    cases hf
    exact hg
  apart := h.apart
  count := by
    rw [h.pinnedCount, numPinned, Assoc.count, eq_comm, List.countP_eq_zero]
    intro e he
    have hfind : s.pageList.find e.1 = some e.2 := AList.mem_lookup_iff.mpr he
    simp [(h.page e.1 e.2 hfind).2.2.1]

/-- Every page that somebody has pinned and not released is there with the frame that
`getPage` returned, the frame is the manager's, and `pinnedCount` is right. -/
def Resident (s : State τ) : Prop :=
  (∀ off, ∀ f ∈ s.holds off, ∃ pg, s.pageList.find off = some pg ∧ 0 < pg.pinCount ∧
    pg.paddr = f ∧ ∃ a ∈ s.frames, f = some a) ∧
  (∀ off pg, s.pageList.find off = some pg → pg.pinCount = (s.holds off).length) ∧
  s.pinnedCount = s.pageList.numPinned

omit [DecidableEq τ] in
theorem Inv.resident {s : State τ} (h : Inv s) : Resident s := by
  refine ⟨fun off f hf => ?_, fun off pg hpg => (h.page off pg hpg).count.symm, h.count⟩
  cases hpg : s.pageList.find off with
  | none =>
    rw [(h.gone off hpg).2] at hf
    exact absurd hf List.not_mem_nil
  | some pg =>
    have hok := h.page off pg hpg
    have hpos : 0 < pg.pinCount := hok.count ▸ List.length_pos_of_mem hf
    -- a pinned page is not doing IO, so its frame has been allocated
    have hidle := hok.idle (hok.pinned hpos).2
    cases hpa : pg.paddr with
    | none =>
      have hal := hok.framed hpa
      rw [hidle] at hal
      cases hal
    | some a =>
      have hfa := hok.held f hf
      rw [hpa] at hfa
      exact ⟨pg, rfl, hpos, hpa.trans hfa.symm, a, h.owned off pg a hpg hpa, hfa⟩

/-- While the scans spare the pinned pages, these stay. -/
theorem run_resident {s₀ s : State τ} {ops : List (Op τ)} (h₀ : Quiet s₀)
    (h : sparing.Run s₀ ops s) : Resident s := by
  have hinv : Inv s := by
    refine h.invariant (I := Inv) h₀.inv ?_
    intro s op hs hop
    exact step_keeps hs hop.1 hop.2
  exact hinv.resident

/-- A manager with an established page, and no other. -/
def onePage : State ℕ where
  pageList := PageList.empty.set 0 { PageDesc.init (some 3) with established := true, dirty := true }
  pendingWrite := none
  pinnedCount := 0
  pageable := true
  maxNumPages := 100
  framesPerPage := 1
  io := fun _ => .idle
  frames := {3}
  holds := fun _ => []
  threads := fun _ => .idle

theorem onePage_quiet : Quiet onePage := by
  have hfind : ∀ off pg, onePage.pageList.find off = some pg →
      off = 0 ∧ pg = { PageDesc.init (some 3) with established := true, dirty := true } := by
    intro off pg hpg
    by_cases ho : off = 0
    · subst ho
      rw [show onePage.pageList.find 0 = _ from find_insert _ _ _ _] at hpg
      exact ⟨rfl, (Option.some.inj hpg).symm⟩
    · rw [show onePage.pageList.find off = _ from find_insert_ne _ _ _ _ ho] at hpg
      rw [PageList.find_empty] at hpg
      cases hpg
  refine ⟨fun off pg hpg => ?_, fun o o' pg pg' _ hpg hpg' _ _ => ?_, rfl, fun _ => rfl,
    fun _ => rfl, rfl⟩
  · rw [(hfind off pg hpg).2]
    exact ⟨rfl, rfl, rfl, 3, Finset.mem_singleton_self 3, rfl⟩
  · rw [(hfind o pg hpg).1, (hfind o' pg' hpg').1]

/-- The established page is pinned; another page is mapped, put on the free list and given
back. -/
theorem run_resident_established :
    Resident ([.getPage 0, .mapPage 0 1 false [], .gotFrame 1 (some 7), .fillAnswer 1 true,
      .giveBack 0 .MID [] [0, 1], .giveBack 0 .MID [] [0], .resume 0 true [0],
      .releasePage 0 true, .getPage 0].foldl step onePage) := by
  have hadmits : (sparing (τ := ℕ)).Admits onePage [.getPage 0, .mapPage 0 1 false [],
      .gotFrame 1 (some 7), .fillAnswer 1 true, .giveBack 0 .MID [] [0, 1],
      .giveBack 0 .MID [] [0], .resume 0 true [0], .releasePage 0 true, .getPage 0] := by
    decide +kernel
  exact run_resident onePage_quiet hadmits.run

/-- A pinned page is scanned, put on the free list and given back: its frame is returned,
and its descriptor is gone, before it is released. -/
theorem pinned_page_given_back : ∃ (s₀ s : State ℕ) (ops : List (Op ℕ)), Quiet s₀ ∧
    interleavings.Run s₀ ops s ∧ ¬ Resident s := by
  refine ⟨onePage, [.getPage 1, .gotFrame 1 (some 7), .fillAnswer 1 true,
    .giveBack 0 .MID [] [0, 1], .giveBack 0 .MID [] []].foldl step onePage, _, onePage_quiet,
    Machine.Admits.run ?_, ?_⟩
  · decide +kernel
  · rintro ⟨hheld, -, -⟩
    obtain ⟨pg, hpg, -⟩ := hheld 1 (some 7) (by decide +kernel)
    revert hpg
    rw [show ([.getPage 1, .gotFrame 1 (some 7), .fillAnswer 1 true,
      .giveBack 0 .MID [] [0, 1], .giveBack 0 .MID [] []].foldl step onePage).pageList.find 1 =
      none by decide +kernel]
    exact nofun

end FCMDefault

end K42
