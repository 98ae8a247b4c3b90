import K42.Lib.Places
import K42.Lib.Run
import K42.Mem.FreeFrameList

/-!
# The root of the page managers

Free frames are kept at three levels: a list for each representative, a list of the root
object, and the pinned page allocator. A representative that has too many frames gives the
last header of its list to the root, and one that has none fetches a header from there;
when memory is low all lists go back to the allocator.

A step is one section under the lock of a representative or of the root, or a call of the
pinned page allocator. `setMemLevel` of the root holds the lock of the root while it goes
through the representatives.
-/

open Function (update update_of_ne update_self)

namespace K42

inductive MemLevelState
  | CRITICAL | LOW | MID | HIGH
deriving DecidableEq

def MemLevelState.IsLow : MemLevelState → Bool
  | .CRITICAL | .LOW => true
  | .MID | .HIGH => false

namespace PMRoot

/-- The lists of frames: of a representative, of the root, the one a caller passes, and the
one on the stack of a thread. -/
inductive ListOf (ρ τ : Type)
  | rep (r : ρ)
  | root
  | caller (t : τ)
  | stack (t : τ)
deriving DecidableEq

/-- Frames that are on no list: in the pinned page allocator, or in the hands of a thread. -/
inductive Bag (τ : Type)
  | pinned
  | hands (t : τ)
deriving DecidableEq

inductive Place (ρ τ : Type)
  | list (L : ListOf ρ τ)
  | bag (B : Bag τ)
deriving DecidableEq

/-- Where the frames are. A null link has been followed if `faulted`, and
`FreeFrameList::freeList` has been called with an empty list if `emptyFreed`. -/
structure Store (ρ τ α : Type) where
  frames : Frames α
  lists : ListOf ρ τ → FreeFrameList α
  bags : Bag τ → List α
  faulted : Bool
  emptyFreed : Bool

variable {ρ τ α : Type} [DecidableEq ρ] [DecidableEq τ] [DecidableEq α]

namespace Store

variable (σ : Store ρ τ α) (L M : ListOf ρ τ) (B C : Bag τ)

/-- `L.freeFrame(x)` for a frame in hand. -/
def put (x : α) : Store ρ τ α :=
  let r := FreeFrameList.freeFrame σ.frames (σ.lists L) x
  { σ with
    frames := r.1
    lists := update σ.lists L r.2
    bags := update σ.bags B ((σ.bags B).erase x) }

/-- `L.getFrame()`; the frame is in hand then. -/
def take : Store ρ τ α × Option α :=
  match FreeFrameList.getFrame σ.frames (σ.lists L) with
  | none => ({ σ with faulted := true }, none)
  | some (_, _, none) => (σ, none)
  | some (F, l, some x) =>
    ({ σ with
        frames := F
        lists := update σ.lists L l
        bags := update σ.bags B (x :: σ.bags B) }, some x)

/-- A frame that is on no list changes hands. -/
def pass (x : α) : Store ρ τ α :=
  let bags := update σ.bags B ((σ.bags B).erase x)
  { σ with bags := update bags C (x :: bags C) }

def setTwo (r : Frames α × FreeFrameList α × FreeFrameList α) : Store ρ τ α :=
  { σ with frames := r.1, lists := update (update σ.lists L r.2.1) M r.2.2 }

/-- `L.getList(&M)`. -/
def moveHead : Store ρ τ α :=
  σ.setTwo L M (FreeFrameList.getListHead σ.frames (σ.lists L) (σ.lists M))

/-- `L.getListTail(&M)`. -/
def moveTail : Store ρ τ α :=
  σ.setTwo L M (FreeFrameList.getListTail σ.frames (σ.lists L) (σ.lists M))

/-- `L.getList(count, &M)`; the number of frames still missing. -/
def getList (count : ℕ) : Store ρ τ α × ℕ :=
  match FreeFrameList.getList σ.frames (σ.lists L) (σ.lists M) count with
  | none => ({ σ with faulted := true }, count)
  | some r => (σ.setTwo L M (r.1, r.2.1, r.2.2.1), r.2.2.2)

/-- `L.freeList(&M)`. -/
def freeList : Store ρ τ α :=
  let σ := { σ with emptyFreed := σ.emptyFreed || decide ((σ.lists M).count = 0) }
  match FreeFrameList.freeList σ.frames (σ.lists L) (σ.lists M) with
  | none => { σ with faulted := true }
  | some r => σ.setTwo L M r

/-- The loop of `deallocListOfPages(&L)`, for at most `n` frames. -/
def deallocLoop (L : ListOf ρ τ) : ℕ → Store ρ τ α → Store ρ τ α
  | 0, σ => σ
  | n + 1, σ =>
    match σ.take L .pinned with
    | (σ, none) => σ
    | (σ, some _) => deallocLoop L n σ

def deallocListOfPages : Store ρ τ α := deallocLoop L (σ.lists L).count σ

end Store

/-- Where `freeFreeFrameList` returns to: to the end of `freeFrame`, or into the loop of
`freeList`, with what it is to return. -/
inductive After (ρ : Type)
  | done
  | trim (r : ρ) (err : Bool)
deriving DecidableEq

/-- Where a thread is. What is wanted of `getFrame` is a frame for its caller, or one for
`getFreeFrameList`, which needs so many more. `err` is for a `freeList` whose caller is a
`getFreeFrameList` that fails. -/
inductive Pc (ρ α : Type)
  | idle
  | failed
  | freeing (r : ρ) (x : α)
  | pushing (k : After ρ)
  | getting (r : ρ) (w : Option ℕ)
  | fetching (r : ρ) (w : Option ℕ)
  | refilling (r : ρ) (w : Option ℕ)
  | taking (r : ρ) (count : ℕ)
  | looping (r : ρ) (count : ℕ)
  | allocating (r : ρ) (count : ℕ)
  | testing (r : ρ) (err : Bool)
  | draining (err : Bool)
  | splicing (r : ρ) (err : Bool)
  | trimming (r : ρ) (err : Bool)
  | setting (k : Option Bool)
  | levelling (rs : List ρ) (newLevel : MemLevelState) (k : Option Bool)
deriving DecidableEq

end PMRoot

open PMRoot in
/-- The page manager root: its setup, the levels, who holds the lock of the root while it
sets the levels of the representatives, and the threads. -/
structure PMRoot (ρ τ α : Type) extends Store ρ τ α where
  exploitMultiRep : Bool
  firstRep : ρ
  repArray : List ρ
  currMemLevel : ρ → MemLevelState
  rootMemLevel : MemLevelState
  lock : Option τ
  pc : τ → Pc ρ α

namespace PMRoot

variable {ρ τ α : Type} [DecidableEq ρ] [DecidableEq τ] [DecidableEq α]

def ELEM_IN_FREE_FRAME_LIST : ℕ := FreeFrameList.NATURAL_ALLOC * 4

/-- All frames are in the pinned page allocator. -/
def init (exploitMultiRep : Bool) (firstRep : ρ) (repArray : List ρ) (pinned : List α) :
    PMRoot ρ τ α where
  frames := ⟨⟨fun _ => none, fun _ => none⟩, fun _ => []⟩
  lists := fun _ => .init
  bags := fun B => if B = .pinned then pinned else []
  faulted := false
  emptyFreed := false
  exploitMultiRep := exploitMultiRep
  firstRep := firstRep
  repArray := repArray
  currMemLevel := fun _ => .HIGH
  rootMemLevel := .HIGH
  lock := none
  pc := fun _ => .idle

/-- The representative that serves a call. -/
def target (s : PMRoot ρ τ α) (r : ρ) : ρ := if s.exploitMultiRep then r else s.firstRep

/-- A thread goes on, with the frames where they are now. -/
def goto (s : PMRoot ρ τ α) (t : τ) (p : Pc ρ α) (σ : Store ρ τ α) : PMRoot ρ τ α :=
  { s with toStore := σ, pc := update s.pc t p }

/-- `freeList` returns, by itself or in a `getFreeFrameList` that fails. -/
def endOf : Option Bool → Pc ρ α
  | some true => .failed
  | _ => .idle

/-! ## The sections -/

/-- `freeFrame`. -/
def freeFrame (s : PMRoot ρ τ α) (t : τ) (r : ρ) (x : α) : PMRoot ρ τ α :=
  if (s.currMemLevel r).IsLow then
    s.goto t (.setting none) ((s.toStore.deallocListOfPages (.rep r)).pass (.hands t) .pinned x)
  else
    let σ := s.toStore.put (.rep r) (.hands t) x
    if (σ.lists (.rep r)).count < ELEM_IN_FREE_FRAME_LIST then s.goto t .idle σ
    else s.goto t (.pushing .done) (σ.moveTail (.rep r) (.stack t))

/-- `freeFreeFrameList` of the root. -/
def freeFreeFrameList (s : PMRoot ρ τ α) (t : τ) (k : After ρ) : PMRoot ρ τ α :=
  let σ := s.toStore.freeList .root (.stack t)
  match k with
  | .done => s.goto t .idle σ
  | .trim r err => s.goto t (.trimming r err) σ

/-- `getFrame` has a frame: it returns, or `getFreeFrameList` puts it on its list. -/
def got (s : PMRoot ρ τ α) (t : τ) (r : ρ) (w : Option ℕ) (x : α) (σ : Store ρ τ α) :
    PMRoot ρ τ α :=
  match w with
  | none => s.goto t .idle σ
  | some count => s.goto t (.looping r count) (σ.put (.caller t) (.hands t) x)

def getFrame (s : PMRoot ρ τ α) (t : τ) (r : ρ) (w : Option ℕ) : PMRoot ρ τ α :=
  match s.toStore.take (.rep r) (.hands t) with
  | (σ, some x) => s.got t r w x σ
  | (σ, none) => s.goto t (.fetching r w) σ

/-- `getList` of the root; `getFreeFrameList` goes to the pinned allocator if there is
none. -/
def fetch (s : PMRoot ρ τ α) (t : τ) (r : ρ) (w : Option ℕ) : PMRoot ρ τ α :=
  let σ := s.toStore.moveHead .root (.stack t)
  if (σ.lists (.stack t)).count = 0 then
    match w with
    | none => s.goto t .idle σ
    | some count => s.goto t (.allocating r count) σ
  else s.goto t (.refilling r w) σ

/-- The second section of `getFrame`, which asserts that it has a frame. -/
def refill (s : PMRoot ρ τ α) (t : τ) (r : ρ) (w : Option ℕ) : PMRoot ρ τ α :=
  match (s.toStore.freeList (.rep r) (.stack t)).take (.rep r) (.hands t) with
  | (σ, some x) => s.got t r w x σ
  | (σ, none) => s.goto t .idle σ

/-- The first section of `getFreeFrameList`. -/
def takeList (s : PMRoot ρ τ α) (t : τ) (r : ρ) (count : ℕ) : PMRoot ρ τ α :=
  let (σ, count) := s.toStore.getList (.rep r) (.caller t) count
  s.goto t (.looping r count) σ

/-- `allocPages` of the pinned allocator, which may fail. -/
def allocPages (s : PMRoot ρ τ α) (t : τ) (r : ρ) (count : ℕ) (page : Option α) : PMRoot ρ τ α :=
  match page with
  | some x =>
    if x ∈ s.bags .pinned then s.got t r (some count) x (s.toStore.pass .pinned (.hands t) x)
    else s.goto t (.testing r true) s.toStore
  | none => s.goto t (.testing r true) s.toStore

/-- One turn of `deallocListOfPages` on the list of the caller. -/
def drain (s : PMRoot ρ τ α) (t : τ) (err : Bool) : PMRoot ρ τ α :=
  match s.toStore.take (.caller t) .pinned with
  | (σ, some _) => s.goto t (.draining err) σ
  | (σ, none) => s.goto t (.setting (some err)) σ

/-- The loop of `freeList`, with the lock of the representative held. -/
def trim (s : PMRoot ρ τ α) (t : τ) (r : ρ) (err : Bool) (σ : Store ρ τ α) : PMRoot ρ τ α :=
  if ELEM_IN_FREE_FRAME_LIST < (σ.lists (.rep r)).count then
    s.goto t (.pushing (.trim r err)) (σ.moveTail (.rep r) (.stack t))
  else s.goto t (endOf (some err)) σ

/-- `setMemLevel` of the root, up to its loop; `newLevel` comes from the allocator. -/
def setMemLevel (s : PMRoot ρ τ α) (t : τ) (k : Option Bool) (newLevel : MemLevelState) :
    PMRoot ρ τ α :=
  if newLevel = s.rootMemLevel then s.goto t (endOf k) s.toStore
  else
    let σ :=
      if newLevel.IsLow then
        let σ := if 0 < (s.lists .root).count then s.toStore.freeList (.stack t) .root else s.toStore
        σ.deallocListOfPages (.stack t)
      else s.toStore
    { s.goto t (.levelling s.repArray newLevel k) σ with rootMemLevel := newLevel, lock := some t }

/-- The loop of `setMemLevel`: one representative at a time. -/
def setRepLevel (s : PMRoot ρ τ α) (t : τ) (rs : List ρ) (newLevel : MemLevelState)
    (k : Option Bool) : PMRoot ρ τ α :=
  match rs with
  | [] => { s.goto t (endOf k) s.toStore with lock := none }
  | r :: rs =>
    let σ := if newLevel.IsLow then s.toStore.deallocListOfPages (.rep r) else s.toStore
    { s.goto t (.levelling rs newLevel k) σ with
      currMemLevel := update s.currMemLevel r newLevel }

/-- The next section of a thread. The pinned allocator answers with a page or none, and with
the level of memory. -/
def run (s : PMRoot ρ τ α) (t : τ) (page : Option α) (newLevel : MemLevelState) : PMRoot ρ τ α :=
  match s.pc t with
  | .idle => s
  | .failed => s.goto t .idle s.toStore
  | .freeing r x => s.freeFrame t r x
  | .pushing k => s.freeFreeFrameList t k
  | .getting r w => s.getFrame t r w
  | .fetching r w => s.fetch t r w
  | .refilling r w => s.refill t r w
  | .taking r count => s.takeList t r count
  | .looping _ 0 => s.goto t .idle s.toStore
  | .looping r (count + 1) => s.goto t (.getting r (some count)) s.toStore
  | .allocating r count => s.allocPages t r count page
  | .testing r err =>
    if (s.currMemLevel r).IsLow then s.goto t (.draining err) s.toStore
    else s.goto t (.splicing (s.target r) err) s.toStore
  | .draining err => s.drain t err
  | .splicing r err => s.trim t r err (s.toStore.freeList (.rep r) (.caller t))
  | .trimming r err => s.trim t r err s.toStore
  | .setting k => s.setMemLevel t k newLevel
  | .levelling rs level k => s.setRepLevel t rs level k

inductive Call (ρ α : Type)
  | freeFrame (r : ρ) (x : α)
  | getFrame (r : ρ)
  | freeList (r : ρ)
  | getFreeFrameList (r : ρ) (count : ℕ)
  | setMemLevel
deriving DecidableEq

def enter (s : PMRoot ρ τ α) : Call ρ α → Pc ρ α
  | .freeFrame r x => .freeing (s.target r) x
  | .getFrame r => .getting (s.target r) none
  | .freeList r => .testing r false
  | .getFreeFrameList r count => .taking (s.target r) count
  | .setMemLevel => .setting none

/-- A thread calls, or goes on; or a caller takes a frame from its list or puts one there,
gets one from the pinned allocator or gives it back, or writes to a frame it has. -/
inductive Op (ρ τ α : Type)
  | call (t : τ) (c : Call ρ α)
  | run (t : τ) (page : Option α) (newLevel : MemLevelState)
  | takeOwn (t : τ)
  | putOwn (t : τ) (x : α)
  | allocPinned (t : τ) (x : α)
  | freePinned (t : τ) (x : α)
  | write (t : τ) (x : α) (next prev : Option α) (pages : List α)

def step (s : PMRoot ρ τ α) : Op ρ τ α → PMRoot ρ τ α
  | .call t c => s.goto t (s.enter c) s.toStore
  | .run t page newLevel => s.run t page newLevel
  | .takeOwn t => { s with toStore := (s.toStore.take (.caller t) (.hands t)).1 }
  | .putOwn t x => { s with toStore := s.toStore.put (.caller t) (.hands t) x }
  | .allocPinned t x => { s with toStore := s.toStore.pass .pinned (.hands t) x }
  | .freePinned t x => { s with toStore := s.toStore.pass (.hands t) .pinned x }
  | .write _ x next prev pages =>
    { s with frames := FreeFrameList.setPages (FreeFrameList.withLinks s.frames
        ((s.frames.setNext x next).setPrev x prev)) x pages }

/-- The lock of the root is free, or not needed. -/
def lockFree (s : PMRoot ρ τ α) : Pc ρ α → Prop
  | .pushing _ | .fetching _ _ | .setting _ => s.lock = none
  | _ => True

/-- A thread makes one call at a time, callers have the frames they use, and the lock of the
root excludes. -/
def adm (s : PMRoot ρ τ α) : Op ρ τ α → Prop
  | .call t (.freeFrame _ x) => s.pc t = .idle ∧ x ∈ s.bags (.hands t)
  | .call t _ => s.pc t = .idle
  | .run t _ _ => s.lockFree (s.pc t)
  | .takeOwn t => s.pc t = .idle
  | .putOwn t x => s.pc t = .idle ∧ x ∈ s.bags (.hands t)
  | .allocPinned t x => s.pc t = .idle ∧ x ∈ s.bags .pinned
  | .freePinned t x => s.pc t = .idle ∧ x ∈ s.bags (.hands t)
  | .write t x _ _ _ => s.pc t = .idle ∧ x ∈ s.bags (.hands t)

def interleavings : Machine (PMRoot ρ τ α) (Op ρ τ α) := ⟨step, adm⟩

/-- The representative whose `freeList` a thread enters. -/
def testedRep : Pc ρ α → Option ρ
  | .testing r _ => some r
  | _ => none

/-- `PMRoot::freeList` is entered with frames on the list, unless memory is low. -/
def hasFrames (s : PMRoot ρ τ α) : Op ρ τ α → Prop
  | .run t _ _ => ∀ r ∈ testedRep (s.pc t),
      (s.currMemLevel r).IsLow = true ∨ (s.lists (.caller t)).count ≠ 0
  | _ => True

/-- The interleavings in which no empty list is freed. -/
def nonEmptyInterleavings : Machine (PMRoot ρ τ α) (Op ρ τ α) :=
  ⟨step, fun s op => adm s op ∧ hasFrames s op⟩

/-! ## Where the frames are -/

namespace Store

/-- What is in a place, for the headers and arrays `chunks` of the lists. -/
def contents (σ : Store ρ τ α) (chunks : ListOf ρ τ → List (α × List α)) : Place ρ τ → List α
  | .list L => FreeFrameList.frames (chunks L)
  | .bag B => σ.bags B

/-- The lists are well linked, and every frame is in one place. -/
structure KeptAs (σ : Store ρ τ α) (chunks : ListOf ρ τ → List (α × List α)) : Prop where
  holds : ∀ L, FreeFrameList.Holds σ.frames (σ.lists L) (chunks L)
  conserved : Places.Conserved (σ.contents chunks)

def Kept (σ : Store ρ τ α) : Prop := ∃ chunks, σ.KeptAs chunks

variable {σ σ' : Store ρ τ α} {chunks : ListOf ρ τ → List (α × List α)} {L M K : ListOf ρ τ}
  {B C : Bag τ} {x : α}

namespace KeptAs

section

variable (h : σ.KeptAs chunks)

include h

section

omit [DecidableEq ρ] [DecidableEq τ] [DecidableEq α]

theorem nodup (L : ListOf ρ τ) : (FreeFrameList.frames (chunks L)).Nodup :=
  h.conserved.nodup (.list L)

theorem nodup_append (hne : L ≠ M) :
    (FreeFrameList.frames (chunks L) ++ FreeFrameList.frames (chunks M)).Nodup := by
  refine h.conserved.nodup_append (i := .list L) (j := .list M) ?_
  intro heq
  cases heq
  exact hne rfl

theorem disjoint (hne : K ≠ L) :
    ∀ a ∈ FreeFrameList.frames (chunks K), a ∉ FreeFrameList.frames (chunks L) := by
  intro a hK hL
  have := h.conserved.once (i := .list K) (j := .list L) hK hL
  cases this
  exact hne rfl

theorem bag_disjoint (hx : x ∈ σ.bags B) :
    x ∉ FreeFrameList.frames (chunks L) := by
  intro hL
  have := h.conserved.once (i := .bag B) (j := .list L) hx hL
  cases this

end

omit [DecidableEq ρ] [DecidableEq τ] [DecidableEq α] in
theorem count_eq_zero : (σ.lists L).count = 0 ↔ chunks L = [] := by
  constructor
  · exact (h.holds L).eq_nil
  · intro hnil
    have := (h.holds L).count
    rwa [hnil] at this

end

end KeptAs

/-- What a section does: the frames stay conserved, and only some lists and bags change. -/
structure Within (σ σ' : Store ρ τ α) (Ls : List (ListOf ρ τ)) (Bs : List (Bag τ)) : Prop where
  kept : σ'.Kept
  lists : ∀ K ∉ Ls, σ'.lists K = σ.lists K
  bags : ∀ C ∉ Bs, σ'.bags C = σ.bags C
  faulted : σ'.faulted = σ.faulted
  emptyFreed : σ'.emptyFreed = σ.emptyFreed

namespace Within

variable {σ'' : Store ρ τ α} {Ls Ls' : List (ListOf ρ τ)} {Bs Bs' : List (Bag τ)}

section

omit [DecidableEq ρ] [DecidableEq τ] [DecidableEq α]

theorem refl (h : σ.Kept) : Within σ σ Ls Bs :=
  ⟨h, fun _ _ => rfl, fun _ _ => rfl, rfl, rfl⟩

theorem trans (h : Within σ σ' Ls Bs) (h' : Within σ' σ'' Ls' Bs') :
    Within σ σ'' (Ls ++ Ls') (Bs ++ Bs') where
  kept := h'.kept
  lists := by
    intro K hK
    rw [List.mem_append, not_or] at hK
    rw [h'.lists K hK.2, h.lists K hK.1]
  bags := by
    intro C hC
    rw [List.mem_append, not_or] at hC
    rw [h'.bags C hC.2, h.bags C hC.1]
  faulted := h'.faulted.trans h.faulted
  emptyFreed := h'.emptyFreed.trans h.emptyFreed

end

end Within

/-! ## The operations on the store -/

theorem put_within (h : σ.Kept) (hx : x ∈ σ.bags B) : Within σ (σ.put L B x) [L] [B] ∧
    ((σ.put L B x).lists L).count = (σ.lists L).count + 1 := by
  obtain ⟨chunks, h⟩ := h
  obtain ⟨cs, hadds⟩ :=
    FreeFrameList.freeFrame_adds (h.holds L) (h.nodup L) (h.bag_disjoint hx)
  have hself : (σ.put L B x).lists L = (FreeFrameList.freeFrame σ.frames (σ.lists L) x).2 :=
    update_self ..
  refine ⟨⟨⟨update chunks L cs, ?_, ?_⟩, ?_, ?_, rfl, rfl⟩, ?_⟩
  · intro K
    by_cases hK : K = L
    · subst K
      rw [hself, update_self]
      exact hadds.holds
    · have hlist : (σ.put L B x).lists K = σ.lists K := update_of_ne hK ..
      rw [hlist, update_of_ne hK]
      refine (h.holds K).congr hadds.same ?_
      intro a ha hmem
      rcases List.mem_cons.1 hmem with rfl | hmem
      · exact h.bag_disjoint hx ha
      · exact h.disjoint hK a ha hmem
  · have hlist : (σ.put L B x).contents (update chunks L cs) (.list L) =
        FreeFrameList.frames cs := congrArg FreeFrameList.frames (update_self ..)
    have hbag : (σ.put L B x).contents (update chunks L cs) (.bag B) =
        (σ.bags B).erase x := update_self ..
    refine h.conserved.transfer (i := .list L) (j := .bag B) nofun ?_ ?_
    · rw [hlist, hbag]
      refine (hadds.perm.append_right _).trans ?_
      exact List.perm_middle.symm.trans ((List.perm_cons_erase hx).symm.append_left _)
    · rintro (K | C) hK hC
      · refine congrArg FreeFrameList.frames (update_of_ne ?_ ..)
        exact fun heq => hK (heq ▸ rfl)
      · exact update_of_ne (fun heq : C = B => hC (congrArg Place.bag heq)) ..
  · intro K hK
    exact update_of_ne (List.ne_of_not_mem_cons hK) ..
  · intro C hC
    exact update_of_ne (List.ne_of_not_mem_cons hC) ..
  · rw [hself, hadds.holds.count, hadds.perm.length_eq, (h.holds L).count]
    rfl

theorem take_within (h : σ.Kept) (L : ListOf ρ τ) (B : Bag τ) :
    (σ.lists L).count = 0 ∧ σ.take L B = (σ, none) ∨
      ∃ σ' x, σ.take L B = (σ', some x) ∧ Within σ σ' [L] [B] ∧ x ∈ σ'.bags B ∧
        (σ'.lists L).count + 1 = (σ.lists L).count := by
  obtain ⟨chunks, h⟩ := h
  have htakes := FreeFrameList.getFrame_takes (h.holds L) (h.nodup L)
  unfold take
  generalize FreeFrameList.getFrame σ.frames (σ.lists L) = result at htakes
  cases htakes with
  | empty hnil =>
    refine .inl ⟨?_, rfl⟩
    rw [(h.holds L).count, hnil]
    rfl
  | @frame F l x cs hholds hperm hsame =>
    refine .inr ⟨_, x, rfl, ⟨⟨update chunks L cs, ?_, ?_⟩, ?_, ?_, rfl, rfl⟩, ?_, ?_⟩
    · intro K
      by_cases hK : K = L
      · subst K
        simp only [update_self]
        exact hholds
      · simp only [update_of_ne hK]
        exact (h.holds K).congr hsame (h.disjoint hK)
    · refine h.conserved.transfer (i := .list L) (j := .bag B) nofun ?_ ?_
      · simp only [contents, update_self]
        exact List.perm_middle.trans (hperm.append_right _)
      · rintro (K | C) hK hC
        · refine congrArg FreeFrameList.frames (update_of_ne ?_ ..)
          exact fun heq => hK (heq ▸ rfl)
        · exact update_of_ne (fun heq : C = B => hC (congrArg Place.bag heq)) ..
    · intro K hK
      exact update_of_ne (List.ne_of_not_mem_cons hK) ..
    · intro C hC
      exact update_of_ne (List.ne_of_not_mem_cons hC) ..
    · simp only [update_self]
      exact List.mem_cons_self
    · simp only [update_self]
      rw [hholds.count, (h.holds L).count, ← hperm.length_eq]
      rfl

omit [DecidableEq ρ] in
theorem pass_within (h : σ.Kept) (hx : x ∈ σ.bags B) (hne : B ≠ C) :
    Within σ (σ.pass B C x) [] [B, C] ∧ x ∈ (σ.pass B C x).bags C := by
  obtain ⟨chunks, h⟩ := h
  have hB : (σ.pass B C x).bags B = (σ.bags B).erase x := by
    simp [pass, update_of_ne hne]
  have hC : (σ.pass B C x).bags C = x :: σ.bags C := by
    simp [pass, update_of_ne hne.symm]
  have hother : ∀ D, D ≠ B → D ≠ C → (σ.pass B C x).bags D = σ.bags D := by
    intro D hDB hDC
    simp [pass, update_of_ne hDB, update_of_ne hDC]
  refine ⟨⟨⟨chunks, h.holds, ?_⟩, fun _ _ => rfl, ?_, rfl, rfl⟩, ?_⟩
  · refine h.conserved.transfer (i := .bag B) (j := .bag C) ?_ ?_ ?_
    · intro heq
      cases heq
      exact hne rfl
    · show ((σ.pass B C x).bags B ++ (σ.pass B C x).bags C).Perm (σ.bags B ++ σ.bags C)
      rw [hB, hC]
      exact List.perm_middle.trans ((List.perm_cons_erase hx).symm.append_right _)
    · rintro (K | D) hK hD
      · rfl
      · exact hother D (fun heq => hK (heq ▸ rfl)) fun heq => hD (heq ▸ rfl)
  · intro D hD
    rw [List.mem_cons, List.mem_singleton, not_or] at hD
    exact hother D hD.1 hD.2
  · rw [hC]
    exact List.mem_cons_self

section

omit [DecidableEq α]

theorem setTwo_within {r : Frames α × FreeFrameList α × FreeFrameList α}
    {cs ds : List (α × List α)} (h : σ.KeptAs chunks) (hne : L ≠ M)
    (hex : FreeFrameList.Exchanged σ.frames (FreeFrameList.frames (chunks L))
      (FreeFrameList.frames (chunks M)) r.1 r.2.1 r.2.2 cs ds) :
    Within σ (σ.setTwo L M r) [L, M] [] := by
  have hL : (σ.setTwo L M r).lists L = r.2.1 := by
    simp [setTwo, update_of_ne hne]
  have hM : (σ.setTwo L M r).lists M = r.2.2 := by
    simp [setTwo]
  have hother : ∀ K, K ≠ L → K ≠ M → (σ.setTwo L M r).lists K = σ.lists K := by
    intro K hKL hKM
    simp [setTwo, update_of_ne hKL, update_of_ne hKM]
  refine ⟨⟨update (update chunks L cs) M ds, ?_, ?_⟩, ?_, fun _ _ => rfl, rfl, rfl⟩
  · intro K
    by_cases hKM : K = M
    · subst K
      rw [hM, update_self]
      exact hex.holds_ffl
    · by_cases hKL : K = L
      · subst K
        rw [hL, update_of_ne hne, update_self]
        exact hex.holds
      · rw [hother K hKL hKM, update_of_ne hKM, update_of_ne hKL]
        refine (h.holds K).congr hex.same ?_
        intro a ha hmem
        rcases List.mem_append.1 hmem with hmem | hmem
        · exact h.disjoint hKL a ha hmem
        · exact h.disjoint hKM a ha hmem
  · refine h.conserved.transfer (i := .list L) (j := .list M) ?_ ?_ ?_
    · intro heq
      cases heq
      exact hne rfl
    · simp only [contents, update_self, update_of_ne hne]
      exact hex.perm
    · rintro (K | C) hKL hKM
      · have hKL : K ≠ L := fun heq => hKL (congrArg Place.list heq)
        have hKM : K ≠ M := fun heq => hKM (congrArg Place.list heq)
        simp only [contents, update_of_ne hKL, update_of_ne hKM]
      · rfl
  · intro K hK
    rw [List.mem_cons, List.mem_singleton, not_or] at hK
    exact hother K hK.1 hK.2

theorem move_within {r : Frames α × FreeFrameList α × FreeFrameList α} (h : σ.KeptAs chunks)
    (hne : L ≠ M) (hM : (σ.lists M).count = 0)
    (hex : ∃ cs ds, FreeFrameList.Exchanged σ.frames (FreeFrameList.frames (chunks L)) []
      r.1 r.2.1 r.2.2 cs ds ∧ (ds = [] ↔ chunks L = [])) :
    Within σ (σ.setTwo L M r) [L, M] [] ∧
      (((σ.setTwo L M r).lists M).count = 0 ↔ (σ.lists L).count = 0) := by
  obtain ⟨cs, ds, hex, hiff⟩ := hex
  have hnil : chunks M = [] := h.count_eq_zero.1 hM
  have hself : (σ.setTwo L M r).lists M = r.2.2 := by
    simp [setTwo]
  have hex' : FreeFrameList.Exchanged σ.frames (FreeFrameList.frames (chunks L))
      (FreeFrameList.frames (chunks M)) r.1 r.2.1 r.2.2 cs ds := by
    rw [hnil]
    exact hex
  refine ⟨setTwo_within h hne hex', ?_⟩
  rw [hself, h.count_eq_zero, ← hiff]
  constructor
  · exact hex.holds_ffl.eq_nil
  · rintro rfl
    exact hex.holds_ffl.count_eq_zero

end

section

variable (h : σ.Kept)

include h

theorem moveHead_within (hne : L ≠ M) (hM : (σ.lists M).count = 0) :
    Within σ (σ.moveHead L M) [L, M] [] ∧
      (((σ.moveHead L M).lists M).count = 0 ↔ (σ.lists L).count = 0) := by
  obtain ⟨chunks, h⟩ := h
  have hffl := h.holds M
  rw [h.count_eq_zero.1 hM] at hffl
  exact move_within h hne hM
    (FreeFrameList.getListHead_exchanged (h.holds L) hffl (h.nodup L))

theorem moveTail_within (hne : L ≠ M) (hM : (σ.lists M).count = 0) :
    Within σ (σ.moveTail L M) [L, M] [] ∧
      (((σ.moveTail L M).lists M).count = 0 ↔ (σ.lists L).count = 0) := by
  obtain ⟨chunks, h⟩ := h
  have hffl := h.holds M
  rw [h.count_eq_zero.1 hM] at hffl
  exact move_within h hne hM
    (FreeFrameList.getListTail_exchanged (h.holds L) hffl (h.nodup L))

theorem getList_within (hne : L ≠ M) (count : ℕ) :
    Within σ (σ.getList L M count).1 [L, M] [] := by
  obtain ⟨chunks, h⟩ := h
  obtain ⟨r, cs, ds, hr, hex⟩ := FreeFrameList.getList_exchanged count (h.holds L) (h.holds M)
    (h.nodup_append hne)
  unfold getList
  rw [hr]
  exact setTwo_within (r := (r.1, r.2.1, r.2.2.1)) h hne hex

theorem freeList_within (hne : L ≠ M) (hM : (σ.lists M).count ≠ 0) :
    Within σ (σ.freeList L M) [L, M] [] ∧ ((σ.freeList L M).lists M).count = 0 ∧
      ((σ.freeList L M).lists L).count ≠ 0 := by
  obtain ⟨chunks, h⟩ := h
  have hds : chunks M ≠ [] := fun hnil => hM (h.count_eq_zero.2 hnil)
  obtain ⟨r, hr, hinit, hex⟩ := FreeFrameList.freeList_exchanged (h.holds L) (h.holds M)
    (h.nodup_append hne) (.inr hds)
  have hflag : { σ with emptyFreed := σ.emptyFreed || decide ((σ.lists M).count = 0) } = σ := by
    rw [decide_eq_false hM, Bool.or_false]
  have heq : σ.freeList L M = σ.setTwo L M r := by
    unfold freeList
    simp only
    rw [hr, hflag]
  have hL : (σ.setTwo L M r).lists L = r.2.1 := by
    simp [setTwo, update_of_ne hne]
  have hself : (σ.setTwo L M r).lists M = r.2.2 := by
    simp [setTwo]
  rw [heq, hself, hL, hinit]
  refine ⟨setTwo_within h hne hex, rfl, fun hzero => ?_⟩
  have := hex.holds.eq_nil hzero
  exact hds (List.append_eq_nil_iff.1 this).1

theorem deallocLoop_within (L : ListOf ρ τ) (n : ℕ) (hn : (σ.lists L).count ≤ n) :
    Within σ (deallocLoop L n σ) [L] [.pinned] ∧ ((deallocLoop L n σ).lists L).count = 0 := by
  induction n generalizing σ with
  | zero => exact ⟨Within.refl h, Nat.le_zero.1 hn⟩
  | succ n ih =>
    rw [deallocLoop]
    rcases take_within h L .pinned with ⟨hzero, htake⟩ | ⟨σ', x, htake, hwithin, -, hcount⟩
    · rw [htake]
      exact ⟨Within.refl h, hzero⟩
    · rw [htake]
      obtain ⟨hwithin', hzero⟩ := ih hwithin.kept (by omega)
      refine ⟨⟨hwithin'.kept, ?_, ?_, ?_, ?_⟩, hzero⟩
      · intro K hK
        exact (hwithin'.lists K hK).trans (hwithin.lists K hK)
      · intro C hC
        exact (hwithin'.bags C hC).trans (hwithin.bags C hC)
      · exact hwithin'.faulted.trans hwithin.faulted
      · exact hwithin'.emptyFreed.trans hwithin.emptyFreed

theorem dealloc_within (L : ListOf ρ τ) :
    Within σ (σ.deallocListOfPages L) [L] [.pinned] ∧
      ((σ.deallocListOfPages L).lists L).count = 0 :=
  deallocLoop_within h L _ (Nat.le_refl _)

omit [DecidableEq ρ] [DecidableEq τ] in
theorem write_within (hx : x ∈ σ.bags B) (next prev : Option α) (pages : List α) :
    Within σ { σ with frames := FreeFrameList.setPages (FreeFrameList.withLinks σ.frames
      ((σ.frames.setNext x next).setPrev x prev)) x pages } [] [] := by
  obtain ⟨chunks, h⟩ := h
  have hsame : FreeFrameList.SameOff σ.frames (FreeFrameList.setPages
      (FreeFrameList.withLinks σ.frames ((σ.frames.setNext x next).setPrev x prev)) x pages) [x] :=
    ((FreeFrameList.sameOff_setNext _ next).trans (FreeFrameList.sameOff_setPrev _ prev)).trans
      (FreeFrameList.sameOff_setPages _ pages)
  refine ⟨⟨chunks, fun L => (h.holds L).congr hsame ?_, h.conserved⟩, fun _ _ => rfl,
    fun _ _ => rfl, rfl, rfl⟩
  intro a ha hmem
  rw [List.mem_singleton.1 hmem] at ha
  exact h.bag_disjoint hx ha

end

end Store

end PMRoot

end K42
