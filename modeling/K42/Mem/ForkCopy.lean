import K42.Mem.FCMDefaultPager
import Mathlib.Algebra.Group.Nat.Defs

/-!
# Copying a manager at a fork

`forkCopy` moves the pages of a leaf to its fork parent. It waits until no page of the leaf
is doing IO, and then it keeps the lock of the leaf, but for one place: when it needs frames
for copies it releases the lock to allocate them. The pager may run there, and it may start
to write a page that is then moved to the parent while the file representative still works
for the leaf.

A step is a section of `forkCopy` under the lock of the leaf, or one of the pager. The parent
and the new child are locked by `forkCopy` or not known to anyone else. Disk blocks are left
out.
-/

open Function (update_of_ne update_self update)

namespace K42

namespace ForkCopy

open FCMDefault

/-- Where `forkCopy` is: not called, blocked in `finishAllIO`, with the lock released to
allocate frames, or done. -/
inductive Phase
  | start
  | finishing
  | allocating (copyOnFork : Bool) (copyCount pinCopyCount parentCopies : ℕ)
  | done
deriving DecidableEq

/-- The answer of `adoptChildAndLock`, and what is remembered from the last fork. When there
is no parent or it cannot adopt, `parentCopies` and `childUnmapped` are not set. -/
structure Adoption where
  adopted : Bool
  parentCopies : ℕ
  childUnmapped : ℕ
  lastForkUsedCopy : Bool
deriving DecidableEq

/-- The leaf, its fork parent and the new child; `given` are the descriptors that
`locked_givePage` was called with. -/
structure State (τ : Type) where
  leaf : FCMDefault.State τ
  parent : PageList
  child : PageList
  phase : Phase
  given : List PageDesc

def CopyOnForkFactor : ℕ := 5

def CopyOnForkAlways : ℕ := 5

/-- `PageDesc::setFlags`. -/
def setFlags (newpg pg : PageDesc) : PageDesc :=
  { newpg with
    dirty := pg.dirty
    doingIO := pg.doingIO
    freeAfterIO := pg.freeAfterIO
    mapped := pg.mapped
    free := pg.free
    established := pg.established
    forkCopied1 := pg.forkCopied1
    forkCopied2 := pg.forkCopied2 }

/-- The parent takes the frame and the flags of the page. A page that it has is taken off
the free list, and its frame is replaced. -/
def locked_givePage (parent : PageList) (off : ℕ) (pg : PageDesc) : PageList :=
  match parent.find off with
  | none => parent.set off (setFlags (PageDesc.init pg.paddr) pg)
  | some newpg =>
    let l := if newpg.free then parent.dequeueFreeList off newpg else parent
    l.set off (setFlags { newpg with paddr := pg.paddr } pg)

/-- `givePageCopy`: the child has the page in a frame of its own. -/
def givePageCopy (child : PageList) (off : ℕ) (frame : Option ℕ) : PageList :=
  child.set off { PageDesc.init frame with dirty := true }

/-- The counters of the page loop, and the frames that have been allocated. -/
structure Counts where
  copyCount : ℕ
  pinCopyCount : ℕ
  parentCopies : ℕ
  ffl : List ℕ

/-- The counters have 64 bits. -/
def decrement (n : ℕ) : ℕ := (n + (2 ^ 64 - 1)) % 2 ^ 64

variable {τ : Type} [DecidableEq τ]

def unmap (l : PageList) (off : ℕ) : PageList :=
  match l.find off with
  | none => l
  | some pg => l.set off { pg with mapped := false }

namespace State

def setPages (s : State τ) (l : PageList) : State τ :=
  { s with leaf := { s.leaf with pageList := l } }

/-- A page is taken off the free list before it is copied or moved. -/
def offFreeList (s : State τ) (off : ℕ) (pg : PageDesc) : State τ :=
  if pg.free then s.setPages (s.leaf.pageList.dequeueFreeList off pg) else s

/-- A pinned page stays and the child gets a copy. A stale page of the parent is dropped. -/
def copyPage (s : State τ) (off : ℕ) (c : Counts) : State τ × Counts :=
  let drops := decide (c.parentCopies ≠ 0) && (s.parent.find off).isSome
  ({ s with
      child := givePageCopy s.child off c.ffl.head?
      parent := if drops then s.parent.remove off else s.parent },
    { c with
      copyCount := decrement c.copyCount
      parentCopies := if drops then decrement c.parentCopies else c.parentCopies
      ffl := c.ffl.tail })

def givePage (s : State τ) (off : ℕ) (pg : PageDesc) : State τ :=
  { s.setPages (s.leaf.pageList.remove off) with
    parent := locked_givePage s.parent off pg
    given := pg :: s.given }

/-- The loop of `forkCopy` over the pages. -/
def pageLoop (copyOnFork : Bool) : List ℕ → Counts → State τ → State τ
  | [], _, s => s
  | off :: rest, c, s =>
    match s.leaf.pageList.find off with
    | none => pageLoop copyOnFork rest c s
    | some pg =>
      if pg.established then pageLoop copyOnFork rest c s
      else if pg.pinCount ≠ 0 ∨
          copyOnFork ∧ pg.mapped ∧ c.pinCopyCount < c.copyCount then
        let (s, c) := (s.offFreeList off pg).copyPage off c
        let pinCopyCount :=
          if pg.pinCount ≠ 0 then decrement c.pinCopyCount else c.pinCopyCount
        pageLoop copyOnFork rest { c with pinCopyCount := pinCopyCount } s
      else
        pageLoop copyOnFork rest c ((s.offFreeList off pg).givePage off
          { pg with free := false, mapped := if copyOnFork then false else pg.mapped })

/-- The last section: the pages are moved. -/
def movePages (s : State τ) (copyOnFork : Bool) (c : Counts) (walk : List ℕ) : State τ :=
  { pageLoop copyOnFork walk c s with phase := .done }

/-- Whether mapped pages are copied, and how many frames that may take. -/
def copyOnFork (s : State τ) (a : Adoption) : Bool :=
  if a.adopted then
    let copyCount := s.leaf.pageList.getNumPages
    decide ((copyCount < CopyOnForkAlways ∨
      CopyOnForkFactor * (a.parentCopies + a.childUnmapped) < copyCount) ∧
      s.leaf.framesPerPage = 1)
  else a.lastForkUsedCopy

def copyCount (s : State τ) (a : Adoption) : ℕ :=
  if s.copyOnFork a then if a.adopted then s.leaf.pageList.getNumPages else 0
  else s.leaf.pinnedCount

/-- `forkCopy` up to where it releases the lock: in `finishAllIO` if a page is doing IO, else
to allocate frames, else at its end. -/
def forkCopy (s : State τ) (a : Adoption) (walk : List ℕ) : State τ :=
  if s.leaf.pageList.entries.entries.any (fun e => PageDesc.doingIO e.2) then
    { s with phase := .finishing }
  else
    let l := if s.copyOnFork a then s.leaf.pageList else walk.foldl unmap s.leaf.pageList
    if s.copyCount a = 0 then
      (s.setPages l).movePages (s.copyOnFork a) ⟨0, s.leaf.pinnedCount, a.parentCopies, []⟩ walk
    else
      { s.setPages l with
        phase := .allocating (s.copyOnFork a) (s.copyCount a) s.leaf.pinnedCount
          a.parentCopies }

/-- `allocListOfPages` returns. -/
def framesReady (s : State τ) (ffl walk : List ℕ) : State τ :=
  match s.phase with
  | .allocating copyOnFork copyCount pinCopyCount parentCopies =>
    s.movePages copyOnFork ⟨copyCount, pinCopyCount, parentCopies, ffl⟩ walk
  | _ => s

end State

/-! ## Steps -/

inductive Op (τ : Type)
  /-- A call, or the retry of one that was blocked in `finishAllIO`. -/
  | forkCopy (a : Adoption) (walk : List ℕ)
  | framesReady (ffl walk : List ℕ)
  | pager (op : FCMDefault.Op τ)

def step (s : State τ) : Op τ → State τ
  | .forkCopy a walk => s.forkCopy a walk
  | .framesReady ffl walk => s.framesReady ffl walk
  | .pager op => { s with leaf := FCMDefault.step s.leaf op }

def Phase.calls : Phase → Bool
  | .start | .finishing => true
  | .allocating _ _ _ _ | .done => false

def Phase.allocates : Phase → Bool
  | .allocating _ _ _ _ => true
  | .start | .finishing | .done => false

/-- A thread that `mapPage` has put into the pager, or that goes on with `mapPage`. -/
def maps : Cont → Bool
  | .mapPage _ _ | .giveBack _ _ _ (.mapPage _ _) => true
  | _ => false

/-- What the pager and the file representative do. -/
def isPager (s : FCMDefault.State τ) : FCMDefault.Op τ → Bool
  | .giveBack _ _ _ _ | .writeFreeFreeList _ _ | .accept _ _ => true
  | .resume t _ _ => !maps (s.threads t)
  | FCMDefault.Op.resumeIO _ | FCMDefault.Op.ioComplete _ => true
  | _ => false

/-- There is one `forkCopy`. It goes through all pages. -/
def adm (s : State τ) : Op τ → Prop
  | .forkCopy _ walk => s.phase.calls = true ∧ walk.Perm s.leaf.pageList.entries.keys
  | .framesReady _ walk => s.phase.allocates = true ∧ walk.Perm s.leaf.pageList.entries.keys
  | .pager op => isPager s.leaf op = true ∧ FCMDefault.adm s.leaf op

/-- When `forkCopy` has its frames, the writes that were started meanwhile are done. -/
def Settled (s : State τ) : Op τ → Prop
  | .framesReady _ walk => ∀ off ∈ walk, s.leaf.io off = .idle
  | _ => True

/-! ## The IO of the leaf -/

/-- A request that the file representative works on, or is being given, is for a page of the
leaf that is doing IO. With `strict` these are the only pages that are. -/
structure Tracks (strict : Prop) (s : FCMDefault.State τ) : Prop where
  listed : s.pageList.Listed
  busy : ∀ off, s.io off ≠ .idle → ∃ pg, s.pageList.find off = some pg ∧ pg.doingIO = true
  honest : strict → ∀ off pg, s.pageList.find off = some pg → pg.doingIO = true →
    s.io off ≠ .idle

namespace Tracks

variable {strict : Prop} {s s' : FCMDefault.State τ} {off : ℕ} {pg pg' : PageDesc}

section

omit [DecidableEq τ]

theorem idle (h : Tracks strict s) (hpg : s.pageList.find off = some pg)
    (hio : pg.doingIO = false) : s.io off = .idle := by
  by_contra hne
  obtain ⟨pg₁, hpg₁, hio₁⟩ := h.busy off hne
  rw [hpg] at hpg₁
  cases hpg₁
  rw [hio] at hio₁
  cases hio₁

theorem store (h : Tracks strict s) (he : s'.pageList.entries = s.pageList.entries.insert off pg')
    (hl : s'.pageList.Listed) (hne : ∀ o, o ≠ off → s'.io o = s.io o)
    (hb : s'.io off ≠ .idle → pg'.doingIO = true)
    (hh : strict → pg'.doingIO = true → s'.io off ≠ .idle) : Tracks strict s' := by
  have hoff : s'.pageList.find off = some pg' := by
    rw [PageList.find, he]
    exact AList.lookup_insert _
  have hfind : ∀ o, o ≠ off → s'.pageList.find o = s.pageList.find o := by
    intro o ho
    rw [PageList.find, he]
    exact AList.lookup_insert_ne ho
  refine ⟨hl, fun o hio => ?_, fun hstrict o pg₁ hpg₁ hio => ?_⟩
  · by_cases ho : o = off
    · subst ho
      exact ⟨pg', hoff, hb hio⟩
    · rw [hfind o ho]
      exact h.busy o (hne o ho ▸ hio)
  · by_cases ho : o = off
    · subst ho
      rw [hoff] at hpg₁
      cases hpg₁
      exact hh hstrict hio
    · rw [hfind o ho] at hpg₁
      rw [hne o ho]
      exact h.honest hstrict o pg₁ hpg₁ hio

theorem setFlags (h : Tracks strict s) (hpg : s.pageList.find off = some pg) {l : PageList}
    (he : l.entries = s.pageList.entries.insert off pg') (hio : pg'.doingIO = pg.doingIO)
    (hl : l.Listed) :
    Tracks strict { s with pageList := l } := by
  refine h.store he hl (fun _ _ => rfl) (fun hne => ?_) fun hstrict hb => ?_
  · by_contra hb
    rw [hio, Bool.not_eq_true] at hb
    exact hne (h.idle hpg hb)
  · exact h.honest hstrict off pg hpg (hio ▸ hb)

theorem drop (h : Tracks strict s) (off : ℕ) (hre : s'.pageList = s.pageList.remove off)
    (hoff : s'.io off = .idle) (hne : ∀ o, o ≠ off → s'.io o = s.io o) :
    Tracks strict s' := by
  have hgone : s'.pageList.find off = none := by
    rw [hre, h.listed.remove_eq]
    exact PageList.find_erase _ _ _
  have hfind : ∀ o, o ≠ off → s'.pageList.find o = s.pageList.find o := by
    intro o ho
    rw [hre, h.listed.remove_eq]
    exact PageList.find_erase_ne _ _ _ ho
  refine ⟨hre ▸ h.listed.remove off, fun o hio => ?_, fun hstrict o pg₁ hpg₁ hio => ?_⟩
  · have ho : o ≠ off := by
      rintro rfl
      exact hio hoff
    rw [hfind o ho]
    exact h.busy o (hne o ho ▸ hio)
  · have ho : o ≠ off := by
      rintro rfl
      rw [hgone] at hpg₁
      cases hpg₁
    rw [hfind o ho] at hpg₁
    rw [hne o ho]
    exact h.honest hstrict o pg₁ hpg₁ hio

end

theorem kept (walk : List ℕ) : Kept (Tracks (τ := τ) strict) walk where
  freeLater hs hpg _ _ := hs.setFlags hpg rfl rfl hs.listed.dequeueFreeList
  startPut {s off pg} hs _ _ _ := by
    refine hs.store rfl hs.listed.dequeueFreeList (fun o ho => update_of_ne ho _ _)
      (fun _ => rfl) fun _ _ => ?_
    change update s.io off Stage.putting off ≠ .idle
    rw [update_self]
    exact nofun
  drop {s off pg} hs _ _ _ :=
    hs.drop off rfl (update_self _ _ _) fun o ho => update_of_ne ho _ _
  enqueue {s off pg} hs _ hpg _ _ hfree := by
    refine hs.setFlags hpg rfl rfl (hs.listed.enqueueFreeList ?_)
    rw [hs.listed.mem_iff hpg, hfree]
    exact Bool.false_ne_true
  unmap {s off pg} hs hpg _ _ := by
    refine hs.setFlags hpg rfl rfl (hs.listed.set ?_)
    rw [hs.listed.mem_iff hpg]
  thread _ _ hs := ⟨hs.listed, hs.busy, hs.honest⟩
  pending hs := ⟨hs.listed, hs.busy, hs.honest⟩

section

omit [DecidableEq τ]

theorem accept (h : Tracks strict s) (hst : s.io off = .putting) :
    Tracks strict (s.setStage off .inFlight) := by
  have hio : ∀ o, (s.setStage off .inFlight).io o ≠ .idle ↔ s.io o ≠ .idle := by
    intro o
    by_cases ho : o = off
    · subst ho
      change update s.io o Stage.inFlight o ≠ .idle ↔ _
      rw [update_self, hst]
      exact iff_of_true nofun nofun
    · rw [show (s.setStage off .inFlight).io o = s.io o from update_of_ne ho _ _]
  refine ⟨h.listed, fun o hne => h.busy o ((hio o).mp hne), fun hstrict o pg₁ hpg₁ hb => ?_⟩
  exact (hio o).mpr (h.honest hstrict o pg₁ hpg₁ hb)

theorem ioComplete (h : Tracks strict s) : Tracks strict (s.ioComplete off) := by
  unfold FCMDefault.State.ioComplete
  split
  · exact h
  · rename_i pg hpg
    unfold FCMDefault.State.ioCompleteInternal
    split
    · exact h.drop off rfl (update_self _ _ _) fun o ho => update_of_ne ho _ _
    · refine h.store rfl (h.listed.set ?_) (fun o ho => update_of_ne ho _ _)
        (fun hne => absurd (update_self _ _ _) hne) nofun
      rw [h.listed.mem_iff hpg]

end

theorem pager (h : Tracks strict s) {op : FCMDefault.Op τ} (hp : isPager s op = true)
    (hadm : FCMDefault.adm s op) : Tracks strict (FCMDefault.step s op) := by
  cases op with
  | giveBack t level walk walk' => exact Kept.giveBack t level (fun _ _ => kept _) (fun _ => kept _) h
  | writeFreeFreeList t numPages => exact (kept []).writeFreeFreeList t numPages h
  | resumeIO t => exact Kept.resumeIO (kept []) t h
  | resume t ok walk =>
    refine (kept []).resume t ok (fun _ _ _ _ _ => kept _) (fun off write hc => ?_) h
    rw [isPager, hc] at hp
    cases hp
  | accept t off => exact h.accept hadm.2
  | ioComplete off => exact h.ioComplete
  | getPage off => cases hp
  | preFetch off => cases hp
  | mapPage t off write walk => cases hp
  | releasePage off dirty => cases hp
  | gotFrame off frame => cases hp
  | fillAnswer off notFound => cases hp

end Tracks

/-! ## Moving the pages -/

/-- No page of the leaf is doing IO. -/
structure Still (s : FCMDefault.State τ) : Prop where
  listed : s.pageList.Listed
  io : ∀ off, s.io off = .idle
  page : ∀ off pg, s.pageList.find off = some pg → pg.doingIO = false

section

omit [DecidableEq τ]

theorem Still.tracks {s : FCMDefault.State τ} (h : Still s) (strict : Prop) :
    Tracks strict s where
  listed := h.listed
  busy off hne := absurd (h.io off) hne
  honest _ off pg hpg hb := by
    rw [h.page off pg hpg] at hb
    cases hb

theorem Tracks.still {strict : Prop} {s : FCMDefault.State τ} (h : Tracks strict s)
    (hpage : ∀ off pg, s.pageList.find off = some pg → pg.doingIO = false) : Still s where
  listed := h.listed
  io off := by
    by_contra hne
    obtain ⟨pg, hpg, hb⟩ := h.busy off hne
    rw [hpage off pg hpg] at hb
    cases hb
  page := hpage

theorem Still.setPages {s : FCMDefault.State τ} (h : Still s) {l : PageList} (hl : l.Listed)
    (hpage : ∀ off pg, l.find off = some pg → pg.doingIO = true →
      ∃ pg', s.pageList.find off = some pg' ∧ pg'.doingIO = true) :
    Still { s with pageList := l } where
  listed := hl
  io := h.io
  page off pg hpg := by
    by_contra hb
    obtain ⟨pg', hpg', hb'⟩ := hpage off pg hpg (Bool.not_eq_false _ ▸ hb)
    rw [h.page off pg' hpg'] at hb'
    cases hb'

end

/-- The leaf is quiet and no page in IO has been given away. -/
def Calm (s : State τ) : Prop := Still s.leaf ∧ ∀ pg ∈ s.given, pg.doingIO = false

variable {s : State τ} {off : ℕ}

section

omit [DecidableEq τ]

theorem Calm.offFreeList {pg : PageDesc} (h : Calm s)
    (hpg : s.leaf.pageList.find off = some pg) : Calm (s.offFreeList off pg) := by
  unfold State.offFreeList
  split
  · refine ⟨h.1.setPages h.1.listed.dequeueFreeList fun o pg₁ hpg₁ hb => ?_, h.2⟩
    by_cases ho : o = off
    · subst ho
      rw [show (s.leaf.pageList.dequeueFreeList o pg).find o = _ from
        PageList.find_insert _ _ _ _] at hpg₁
      cases hpg₁
      exact ⟨pg, hpg, hb⟩
    · rw [show (s.leaf.pageList.dequeueFreeList off pg).find o = _ from
        PageList.find_insert_ne _ _ _ _ ho] at hpg₁
      exact ⟨pg₁, hpg₁, hb⟩
  · exact h

theorem Calm.copyPage (h : Calm s) (c : Counts) :
    Calm (s.copyPage off c).1 := h

theorem Calm.givePage {pg : PageDesc} (h : Calm s)
    (hio : pg.doingIO = false) : Calm (s.givePage off pg) := by
  refine ⟨h.1.setPages (h.1.listed.remove off) fun o pg₁ hpg₁ hb => ⟨pg₁, ?_, hb⟩, ?_⟩
  · rw [h.1.listed.remove_eq] at hpg₁
    by_cases ho : o = off
    · subst ho
      rw [PageList.find_erase] at hpg₁
      cases hpg₁
    · rwa [PageList.find_erase_ne _ _ _ ho] at hpg₁
  · intro pg₁ hpg₁
    rcases List.mem_cons.mp hpg₁ with rfl | hpg₁
    · exact hio
    · exact h.2 pg₁ hpg₁

theorem pageLoop_calm (copyOnFork : Bool) (walk : List ℕ) : ∀ (c : Counts) (s : State τ),
    Calm s → Calm (State.pageLoop copyOnFork walk c s) := by
  induction walk with
  | nil => exact fun _ _ h => h
  | cons off rest ih =>
    intro c s h
    rw [State.pageLoop]
    cases hpg : s.leaf.pageList.find off with
    | none => exact ih c s h
    | some pg =>
      have hoff := h.offFreeList hpg
      simp only
      split
      · exact ih c s h
      · split
        · exact ih _ _ (hoff.copyPage c)
        · exact ih c _ (hoff.givePage (h.1.page off pg hpg))

end

theorem unmapAll_find (walk : List ℕ) : ∀ (l : PageList) (off : ℕ) (pg : PageDesc),
    (walk.foldl unmap l).find off = some pg →
      ∃ pg', l.find off = some pg' ∧ pg.doingIO = pg'.doingIO := by
  induction walk with
  | nil => exact fun l off pg hpg => ⟨pg, hpg, rfl⟩
  | cons o rest ih =>
    intro l off pg hpg
    obtain ⟨pg₁, hpg₁, hio⟩ := ih (unmap l o) off pg hpg
    unfold unmap at hpg₁
    cases hf : l.find o with
    | none =>
      rw [hf] at hpg₁
      exact ⟨pg₁, hpg₁, hio⟩
    | some pg₂ =>
      rw [hf] at hpg₁
      simp only at hpg₁
      by_cases ho : off = o
      · subst ho
        rw [show (l.set off { pg₂ with mapped := false }).find off = _ from
          PageList.find_insert _ _ _ _] at hpg₁
        cases hpg₁
        exact ⟨pg₂, hf, hio⟩
      · rw [show (l.set o { pg₂ with mapped := false }).find off = _ from
          PageList.find_insert_ne _ _ _ _ ho] at hpg₁
        exact ⟨pg₁, hpg₁, hio⟩

theorem unmapAll_listed (walk : List ℕ) : ∀ l : PageList, l.Listed →
    (walk.foldl unmap l).Listed := by
  induction walk with
  | nil => exact fun _ h => h
  | cons o rest ih =>
    intro l h
    refine ih _ ?_
    unfold unmap
    split
    · exact h
    · rename_i pg hpg
      refine h.set ?_
      rw [h.mem_iff hpg]

/-! ## Runs -/

structure Inv (s : State τ) : Prop where
  tracks : Tracks (s.phase.allocates = true) s.leaf
  given : ∀ pg ∈ s.given, pg.doingIO = false

section

omit [DecidableEq τ]

theorem Calm.inv (h : Calm s) : Inv s := ⟨h.1.tracks _, h.2⟩

theorem Calm.movePages (h : Calm s) (copyOnFork : Bool) (c : Counts)
    (walk : List ℕ) : Inv (s.movePages copyOnFork c walk) := by
  apply Calm.inv
  exact pageLoop_calm copyOnFork walk c s h

theorem Inv.forkCopy (h : Inv s) (a : Adoption) (walk : List ℕ) :
    Inv (s.forkCopy a walk) := by
  unfold State.forkCopy
  split
  · exact ⟨⟨h.tracks.listed, h.tracks.busy, nofun⟩, h.given⟩
  · rename_i hany
    -- no page is doing IO: what follows runs under the lock
    have hpage : ∀ off pg, s.leaf.pageList.find off = some pg → pg.doingIO = false := by
      intro off pg hpg
      rw [Bool.not_eq_true, List.any_eq_false] at hany
      have hmem : (⟨off, pg⟩ : Sigma fun _ : ℕ => PageDesc) ∈ s.leaf.pageList.entries.entries :=
        AList.mem_lookup_iff.mp hpg
      exact Bool.not_eq_true _ ▸ hany _ hmem
    have hcalm : Calm s := ⟨h.tracks.still hpage, h.given⟩
    have hset : Calm (s.setPages (if s.copyOnFork a then s.leaf.pageList
        else walk.foldl unmap s.leaf.pageList)) := by
      split
      · exact hcalm
      · refine ⟨hcalm.1.setPages (unmapAll_listed walk _ hcalm.1.listed) ?_, h.given⟩
        intro off pg hpg hb
        obtain ⟨pg', hpg', hio⟩ := unmapAll_find walk _ off pg hpg
        exact ⟨pg', hpg', hio ▸ hb⟩
    simp only
    split
    · exact hset.movePages _ _ walk
    · apply Calm.inv
      exact hset

theorem Inv.framesReady (h : Inv s) (ffl : List ℕ) {walk : List ℕ}
    (hph : s.phase.allocates = true) (hwalk : walk.Perm s.leaf.pageList.entries.keys)
    (hidle : ∀ off ∈ walk, s.leaf.io off = .idle) : Inv (s.framesReady ffl walk) := by
  have hpage : ∀ off pg, s.leaf.pageList.find off = some pg → pg.doingIO = false := by
    intro off pg hpg
    by_contra hb
    have hmem : off ∈ s.leaf.pageList.entries.keys := by
      rw [← AList.mem_keys, ← AList.lookup_isSome]
      exact Option.isSome_of_eq_some hpg
    exact h.tracks.honest hph off pg hpg (Bool.not_eq_false _ ▸ hb)
      (hidle off (hwalk.mem_iff.mpr hmem))
  have hcalm : Calm s := ⟨h.tracks.still hpage, h.given⟩
  unfold State.framesReady
  split
  · exact hcalm.movePages _ _ walk
  · exact h

end

theorem step_keeps (h : Inv s) {op : Op τ} (hadm : adm s op)
    (hset : Settled s op) : Inv (step s op) := by
  cases op with
  | forkCopy a walk => exact h.forkCopy a walk
  | framesReady ffl walk => exact h.framesReady ffl hadm.1 hadm.2 hset
  | pager op => exact ⟨h.tracks.pager hadm.1 hadm.2, h.given⟩

instance adm.decidable (s : State τ) : ∀ op : Op τ, Decidable (adm s op)
  | .forkCopy .. | .framesReady .. | .pager _ => inferInstanceAs (Decidable (_ ∧ _))

instance Settled.decidable (s : State τ) : ∀ op : Op τ, Decidable (Settled s op)
  | .framesReady .. => inferInstanceAs (Decidable (∀ _, _ → _))
  | .forkCopy .. | .pager _ => isTrue trivial

/-- One `forkCopy` and the pager of the leaf, in any order. -/
def interleavings : Machine (State τ) (Op τ) := ⟨step, adm⟩

/-- The writes that are started while `forkCopy` allocates frames are done when it has them. -/
def settling : Machine (State τ) (Op τ) := ⟨step, fun s op => adm s op ∧ Settled s op⟩

instance (s : State τ) (op : Op τ) : Decidable ((interleavings (τ := τ)).adm s op) :=
  adm.decidable s op

instance (s : State τ) (op : Op τ) : Decidable ((settling (τ := τ)).adm s op) :=
  inferInstanceAs (Decidable (adm s op ∧ Settled s op))

/-- `forkCopy` has not been called, and every request of the leaf is for a page of it that is
doing IO. -/
structure Start (s : State τ) : Prop where
  phase : s.phase = .start
  given : s.given = []
  listed : s.leaf.pageList.Listed
  busy : ∀ off, s.leaf.io off ≠ .idle →
    ∃ pg, s.leaf.pageList.find off = some pg ∧ pg.doingIO = true

omit [DecidableEq τ] in
theorem Start.inv (h : Start s) : Inv s where
  tracks := ⟨h.listed, h.busy, fun hal => by rw [h.phase] at hal; cases hal⟩
  given pg hpg := by
    rw [h.given] at hpg
    exact absurd hpg List.not_mem_nil

/-- No page was given to the parent in IO, and the completion of a request finds its page in
the leaf. -/
def MovesIdlePages (s : State τ) : Prop :=
  (∀ pg ∈ s.given, pg.doingIO = false) ∧
  ∀ off, s.leaf.io off = .inFlight →
    ∃ pg, s.leaf.pageList.find off = some pg ∧ pg.doingIO = true

theorem run_movesIdlePages {s₀ s : State τ} {ops : List (Op τ)} (h₀ : Start s₀)
    (h : settling.Run s₀ ops s) : MovesIdlePages s := by
  have hinv : Inv s := by
    refine h.invariant (I := Inv) h₀.inv ?_
    intro s op hs hop
    exact step_keeps hs hop.1 hop.2
  refine ⟨hinv.given, fun off hio => hinv.tracks.busy off ?_⟩
  rw [hio]
  exact nofun

/-- A leaf with a pinned page and a dirty page on the free list. -/
def pinnedAndDirty : State ℕ where
  leaf :=
    { pageList :=
        (PageList.empty.enqueueFreeList 1 { PageDesc.init (some 7) with dirty := true }).set 0
          { PageDesc.init (some 3) with pinCount := 1 }
      pendingWrite := none
      pinnedCount := 1
      pageable := true
      maxNumPages := 100
      framesPerPage := 1
      io := fun _ => .idle
      frames := {3, 7}
      holds := fun off => if off = 0 then [some 3] else []
      threads := fun _ => .idle }
  parent := .empty
  child := .empty
  phase := .start
  given := []

theorem pinnedAndDirty_start : Start pinnedAndDirty := by
  refine ⟨rfl, rfl, ?_, fun off hne => absurd rfl hne⟩
  refine (PageList.empty_listed.enqueueFreeList List.not_mem_nil).set ?_
  exact iff_of_false (by decide) Bool.false_ne_true

/-- The dirty page is written while `forkCopy` allocates a frame, and the write is done
before it has it. -/
theorem run_movesIdlePages_written :
    MovesIdlePages ([.forkCopy ⟨false, 0, 0, false⟩ [0, 1], .pager (.giveBack 5 .MID [] []),
      .pager (.accept 5 1), .pager (.ioComplete 1), .pager (.resume 5 true [0]),
      .framesReady [11] [0]].foldl step pinnedAndDirty) := by
  have hadmits : (settling (τ := ℕ)).Admits pinnedAndDirty
      [.forkCopy ⟨false, 0, 0, false⟩ [0, 1], .pager (.giveBack 5 .MID [] []),
      .pager (.accept 5 1), .pager (.ioComplete 1), .pager (.resume 5 true [0]),
      .framesReady [11] [0]] := by
    decide +kernel
  exact run_movesIdlePages pinnedAndDirty_start hadmits.run

/-- The write of the dirty page is under way when the page is moved to the parent, and its
completion does not find the page. -/
theorem page_in_write_moved : ∃ (s₀ s : State ℕ) (ops : List (Op ℕ)), Start s₀ ∧
    interleavings.Run s₀ ops s ∧ (∃ pg ∈ s.given, pg.doingIO = true) ∧
    s.leaf.io 1 = .inFlight ∧ s.leaf.pageList.find 1 = none ∧ ¬ MovesIdlePages s := by
  refine ⟨pinnedAndDirty, [.forkCopy ⟨false, 0, 0, false⟩ [0, 1],
    .pager (.giveBack 5 .MID [] []), .pager (.accept 5 1),
    .framesReady [11] [0, 1]].foldl step pinnedAndDirty, _, pinnedAndDirty_start,
    Machine.Admits.run ?_, ?_, ?_, ?_, ?_⟩
  · decide +kernel
  · decide +kernel
  · decide +kernel
  · decide +kernel
  · rintro ⟨hgiven, -⟩
    revert hgiven
    decide +kernel

end ForkCopy

end K42
