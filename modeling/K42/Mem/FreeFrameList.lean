import K42.Lib.Deque
import Mathlib.Data.List.Perm.Basic

/-!
# Lists of free page frames

The lists are kept in the free frames themselves: some frames are list headers, with a
pointer to the next and the previous header and an array of the addresses of up to
`PER_FRAME_ELEM` other free frames. A list is a pointer to its first header, one to its
last, and the number of all its frames.

An operation that follows a null link has no result.
-/

open Function (update_of_ne update_self)
open List (mem_cons mem_cons_self mem_cons_of_mem nodup_cons mem_singleton mem_append_right
  append_assoc length_append length_cons append_nil cons_append nodup_append perm_middle)

namespace K42

/-- What the frames hold while they are list headers; `frameCount` is the length of
`pages`. -/
structure Frames (α : Type) extends Links α where
  pages : α → List α

structure FreeFrameList (α : Type) where
  head : Option α
  tail : Option α
  count : ℕ
deriving DecidableEq

namespace FreeFrameList

open Prod (fst)

def PER_FRAME_ELEM : ℕ := 509

def NATURAL_ALLOC : ℕ := PER_FRAME_ELEM + 1

variable {α : Type} [DecidableEq α]

def init : FreeFrameList α := ⟨none, none, 0⟩

/-- Write the links of the frames. -/
def withLinks (F : Frames α) (L : Links α) : Frames α := { L with pages := F.pages }

def setPages (F : Frames α) (a : α) (l : List α) : Frames α :=
  { F with pages := Function.update F.pages a l }

/-- A frame is put on the list: into the array of the first header, or as a new header. -/
def freeFrame (F : Frames α) (this : FreeFrameList α) (addr : α) : Frames α × FreeFrameList α :=
  match this.head with
  | some head =>
    if (F.pages head).length < PER_FRAME_ELEM then
      (setPages F head (F.pages head ++ [addr]), { this with count := this.count + 1 })
    else
      let L := ((F.setNext addr (some head)).setPrev head (some addr)).setPrev addr none
      (setPages (withLinks F L) addr [], ⟨some addr, this.tail, this.count + 1⟩)
  | none =>
    let L := (F.setNext addr none).setPrev addr none
    (setPages (withLinks F L) addr [], ⟨some addr, some addr, this.count + 1⟩)

/-- The first header leaves the list: `head = head->next`, and so on. -/
def unlinkHead (F : Frames α) (this : FreeFrameList α) (fi : α) (amountMoved : ℕ) :
    Frames α × FreeFrameList α :=
  match F.next fi with
  | some next =>
    (withLinks F (F.setPrev next none), ⟨some next, this.tail, this.count - amountMoved⟩)
  | none => (F, ⟨none, none, this.count - amountMoved⟩)

/-- A frame of the list, or none if it is empty. -/
def getFrame (F : Frames α) (this : FreeFrameList α) :
    Option (Frames α × FreeFrameList α × Option α) :=
  if this.count = 0 then some (F, this, none)
  else
    match this.head with
    | none => none
    | some head =>
      match (F.pages head).getLast? with
      | some addr =>
        some (setPages F head (F.pages head).dropLast,
          { this with count := this.count - 1 }, some addr)
      | none =>
        let (F, this) := unlinkHead F this head 1
        some (F, this, some head)

/-- `getList` with one argument: the first header with its array becomes the list `ffl`. -/
def getListHead (F : Frames α) (this ffl : FreeFrameList α) :
    Frames α × FreeFrameList α × FreeFrameList α :=
  match this.head with
  | none => (F, this, ffl)
  | some tmp =>
    let amountMoved := (F.pages tmp).length + 1
    let (F, this) := unlinkHead F this tmp amountMoved
    (withLinks F (F.setNext tmp none), this, ⟨some tmp, some tmp, amountMoved⟩)

/-- The last header with its array becomes the list `ffl`. -/
def getListTail (F : Frames α) (this ffl : FreeFrameList α) :
    Frames α × FreeFrameList α × FreeFrameList α :=
  match this.tail with
  | none => (F, this, ffl)
  | some tmp =>
    let amountMoved := (F.pages tmp).length + 1
    let ffl' : FreeFrameList α := ⟨some tmp, some tmp, amountMoved⟩
    match F.prev tmp with
    | some prev =>
      (withLinks F ((F.setNext prev none).setPrev tmp none),
        ⟨this.head, some prev, this.count - amountMoved⟩, ffl')
    | none =>
      (withLinks F (F.setPrev tmp none), ⟨none, none, this.count - amountMoved⟩, ffl')

/-- A header that has left another list is put in front. -/
def linkHead (F : Frames α) (ffl : FreeFrameList α) (tmp : α) (amountMoved : ℕ) :
    Frames α × FreeFrameList α :=
  match ffl.head with
  | some head =>
    (withLinks F ((F.setNext tmp (some head)).setPrev head (some tmp)),
      ⟨some tmp, ffl.tail, ffl.count + amountMoved⟩)
  | none => (withLinks F (F.setNext tmp none), ⟨some tmp, some tmp, ffl.count + amountMoved⟩)

/-- The loop of `getUpTo`, for at most `n` turns; each moves a header and its array. -/
def getUpToLoop (F : Frames α) (this ffl : FreeFrameList α) :
    (n reqCount : ℕ) → Frames α × FreeFrameList α × FreeFrameList α × ℕ
  | 0, reqCount => (F, this, ffl, reqCount)
  | n + 1, reqCount =>
    match this.head with
    | none => (F, this, ffl, reqCount)
    | some tmp =>
      let amountMoved := (F.pages tmp).length + 1
      if (F.pages tmp).length < reqCount then
        let (F, this) := unlinkHead F this tmp amountMoved
        let (F, ffl) := linkHead F ffl tmp amountMoved
        getUpToLoop F this ffl n (reqCount - amountMoved)
      else (F, this, ffl, reqCount)

/-- Moves whole headers; the result is the number of frames still missing. -/
def getUpTo (F : Frames α) (this ffl : FreeFrameList α) (reqCount : ℕ) :
    Frames α × FreeFrameList α × FreeFrameList α × ℕ :=
  if this.count = 0 then (F, this, ffl, reqCount) else getUpToLoop F this ffl reqCount reqCount

/-- The loop of `getList`, which moves single frames. -/
def getListLoop (F : Frames α) (this ffl : FreeFrameList α) :
    (reqCount : ℕ) → Option (Frames α × FreeFrameList α × FreeFrameList α × ℕ)
  | 0 => some (F, this, ffl, 0)
  | reqCount + 1 =>
    if this.count = 0 then some (F, this, ffl, reqCount + 1)
    else
      match getFrame F this with
      | some (F, this, some addr) =>
        let (F, ffl) := freeFrame F ffl addr
        getListLoop F this ffl reqCount
      | _ => none

def getList (F : Frames α) (this ffl : FreeFrameList α) (reqCount : ℕ) :
    Option (Frames α × FreeFrameList α × FreeFrameList α × ℕ) :=
  let (F, this, ffl, reqCount) := getUpTo F this ffl reqCount
  getListLoop F this ffl reqCount

/-- All of `ffl` is put in front of the list. That `ffl` is not empty is only asserted. -/
def freeList (F : Frames α) (this ffl : FreeFrameList α) :
    Option (Frames α × FreeFrameList α × FreeFrameList α) :=
  if this.count = 0 then some (F, ffl, init)
  else
    match ffl.tail, this.head with
    | some tail, some head =>
      some (withLinks F ((F.setNext tail this.head).setPrev head ffl.tail),
        ⟨ffl.head, this.tail, this.count + ffl.count⟩, init)
    | _, _ => none

/-! ## What a list holds -/

/-- All frames of a list: each header and what is in its array. -/
def frames (cs : List (α × List α)) : List α := cs.flatMap fun c => c.1 :: c.2

/-- The list has the headers and arrays `cs`. -/
structure Holds (F : Frames α) (this : FreeFrameList α) (cs : List (α × List α)) : Prop where
  links : F.Deque this.head this.tail (cs.map Prod.fst)
  pages : ∀ c ∈ cs, F.pages c.1 = c.2
  count : this.count = (frames cs).length

/-- Nothing is written but to the frames `l`. -/
def SameOff (F F' : Frames α) (l : List α) : Prop :=
  ∀ a, a ∉ l → F'.next a = F.next a ∧ F'.prev a = F.prev a ∧ F'.pages a = F.pages a

variable {F F' F'' : Frames α} {this this' ffl ffl' : FreeFrameList α} {a : α} {l m : List α}
  {c : α × List α} {cs ds : List (α × List α)}

section

omit [DecidableEq α]

theorem SameOff.refl (F : Frames α) (l : List α) : SameOff F F l := fun _ _ => ⟨rfl, rfl, rfl⟩

theorem SameOff.trans (h : SameOff F F' l) (h' : SameOff F' F'' l) : SameOff F F'' l := by
  intro a ha
  obtain ⟨h₁, h₂, h₃⟩ := h a ha
  obtain ⟨h₁', h₂', h₃'⟩ := h' a ha
  exact ⟨h₁'.trans h₁, h₂'.trans h₂, h₃'.trans h₃⟩

theorem SameOff.mono (h : SameOff F F' l) (hsub : l ⊆ m) : SameOff F F' m :=
  fun a ha => h a fun hal => ha (hsub hal)

theorem frames_cons : frames (c :: cs) = c.1 :: c.2 ++ frames cs := rfl

theorem frames_append : frames (cs ++ ds) = frames cs ++ frames ds := List.flatMap_append ..

theorem mem_frames_of_mem (h : c ∈ cs) : c.1 ∈ frames cs :=
  List.mem_flatMap.2 ⟨c, h, mem_cons_self⟩

theorem fst_mem_frames (h : a ∈ cs.map fst) : a ∈ frames cs := by
  obtain ⟨c, hc, rfl⟩ := List.mem_map.1 h
  exact mem_frames_of_mem hc

theorem nodup_fst (h : (frames cs).Nodup) : (cs.map fst).Nodup := by
  induction cs with
  | nil => exact List.nodup_nil
  | cons c cs ih =>
    rw [frames_cons, cons_append] at h
    obtain ⟨hc, h⟩ := nodup_cons.1 h
    refine nodup_cons.2 ⟨?_, ih (nodup_append.1 h).2.1⟩
    exact fun hmem => hc (mem_append_right _ (fst_mem_frames hmem))

theorem Holds.congr (h : Holds F this cs) (hsame : SameOff F F' l)
    (hdisj : ∀ a ∈ frames cs, a ∉ l) : Holds F' this cs where
  links := h.links.congr (fun a ha => (hsame a (hdisj a (fst_mem_frames ha))).1)
    fun a ha => (hsame a (hdisj a (fst_mem_frames ha))).2.1
  pages := by
    intro c hc
    rw [(hsame c.1 (hdisj c.1 (mem_frames_of_mem hc))).2.2]
    exact h.pages c hc
  count := h.count

theorem Holds.init : Holds F (FreeFrameList.init : FreeFrameList α) [] where
  links := Links.deque_nil
  pages := by simp
  count := rfl

theorem Holds.eq_nil (h : Holds F this cs) (hcount : this.count = 0) : cs = [] := by
  cases cs with
  | nil => rfl
  | cons c cs =>
    have := h.count
    rw [frames_cons, hcount] at this
    cases this

theorem Holds.count_eq_zero (h : Holds F this []) : this.count = 0 := h.count

theorem Holds.eq_init (h : Holds F this []) : this = FreeFrameList.init := by
  obtain ⟨hhead, htail⟩ := h.links.nil
  have hcount := h.count_eq_zero
  cases this
  simp only at hhead htail hcount
  subst hhead htail hcount
  rfl

end

/-! ## The operations -/

theorem sameOff_setPages (F : Frames α) (l : List α) : SameOff F (setPages F a l) [a] := by
  intro b hb
  exact ⟨rfl, rfl, update_of_ne (fun h : b = a => hb (h ▸ List.mem_singleton_self _)) ..⟩

theorem sameOff_setNext (F : Frames α) (p : Option α) :
    SameOff F (withLinks F (F.setNext a p)) [a] := by
  intro b hb
  exact ⟨update_of_ne (fun h : b = a => hb (h ▸ List.mem_singleton_self _)) .., rfl, rfl⟩

theorem sameOff_setPrev (F : Frames α) (p : Option α) :
    SameOff F (withLinks F (F.setPrev a p)) [a] := by
  intro b hb
  exact ⟨rfl, update_of_ne (fun h : b = a => hb (h ▸ List.mem_singleton_self _)) .., rfl⟩

/-- The result of an operation that puts a frame on a list. -/
structure Adds (F : Frames α) (l : List α) (x : α) (F' : Frames α) (this' : FreeFrameList α)
    (cs' : List (α × List α)) : Prop where
  holds : Holds F' this' cs'
  perm : (frames cs').Perm (x :: l)
  same : SameOff F F' (x :: l)

theorem freeFrame_adds (h : Holds F this cs) (hnodup : (frames cs).Nodup) (ha : a ∉ frames cs) :
    ∃ cs', Adds F (frames cs) a (freeFrame F this a).1 (freeFrame F this a).2 cs' := by
  unfold freeFrame
  cases cs with
  | nil =>
    -- the frame becomes the only header
    obtain rfl := h.eq_init
    refine ⟨[(a, [])], ?_, List.Perm.refl _, ?_⟩
    · exact {
        links := Links.deque_singleton
        pages := by
          intro c hc
          rw [mem_singleton.1 hc]
          exact update_self ..
        count := rfl }
    · refine ((sameOff_setNext F none).trans (sameOff_setPrev _ none)).trans ?_
      exact sameOff_setPages _ _
  | cons c cs =>
    have hhead : this.head = some c.1 := h.links.head_cons
    have hpages : F.pages c.1 = c.2 := h.pages c mem_cons_self
    have hcount := h.count
    rw [hhead]
    simp only
    split
    · -- it goes into the array of the first header
      refine ⟨(c.1, c.2 ++ [a]) :: cs, ?_, ?_, ?_⟩
      · exact {
          links := hhead ▸ h.links
          pages := by
            intro c' hc'
            rcases mem_cons.1 hc' with rfl | hc'
            · rw [hpages]
              exact update_self ..
            · have hne : c'.1 ≠ c.1 := by
                intro heq
                have := (nodup_cons.1 (nodup_fst hnodup)).1
                exact this (heq ▸ List.mem_map_of_mem hc')
              refine (update_of_ne hne ..).trans ?_
              exact h.pages c' (mem_cons_of_mem _ hc')
          count := by
            rw [frames_cons] at hcount ⊢
            simp only [length_append, length_cons, List.length_nil] at hcount ⊢
            omega }
      · rw [frames_cons, frames_cons]
        simp only [cons_append, append_assoc]
        exact ((perm_middle).cons c.1).trans (List.Perm.swap a c.1 _)
      · exact (sameOff_setPages F _).mono (by simp [frames_cons])
    · -- the header is full: the frame becomes the first header
      have hfst := nodup_fst hnodup
      have hafst : a ∉ (c :: cs).map fst := fun hmem => ha (fst_mem_frames hmem)
      refine ⟨(a, []) :: c :: cs, ?_, List.Perm.refl _, ?_⟩
      · exact {
          links := Links.Deque.pushFront h.links hafst hfst
          pages := by
            intro c' hc'
            rcases mem_cons.1 hc' with rfl | hc'
            · exact update_self ..
            · have hne : c'.1 ≠ a := fun heq => hafst (heq ▸ List.mem_map_of_mem hc')
              exact (update_of_ne hne ..).trans (h.pages c' hc')
          count := by
            rw [frames_cons]
            simpa using hcount }
      · have hsub : ∀ b, b ∈ [a] ∨ b ∈ [c.1] → b ∈ a :: frames (c :: cs) := by
          simp [frames_cons]
        refine ((((sameOff_setNext F (some c.1)).mono ?_).trans
          ((sameOff_setPrev _ (some a)).mono ?_)).trans
          ((sameOff_setPrev _ none).mono ?_)).trans ((sameOff_setPages _ []).mono ?_)
        · exact fun b hb => hsub b (.inl hb)
        · exact fun b hb => hsub b (.inr hb)
        · exact fun b hb => hsub b (.inl hb)
        · exact fun b hb => hsub b (.inl hb)

/-- The first header with its array has left a list. -/
structure Unlinked (F : Frames α) (this : FreeFrameList α) (c : α × List α)
    (cs : List (α × List α)) (F' : Frames α) (this' : FreeFrameList α) : Prop where
  holds : Holds F' this' cs
  same : SameOff F F' (frames cs)

theorem unlinkHead_unlinked (h : Holds F this (c :: cs)) (hnodup : (frames (c :: cs)).Nodup) :
    Unlinked F this c cs (unlinkHead F this c.1 (c.2.length + 1)).1
      (unlinkHead F this c.1 (c.2.length + 1)).2 := by
  have hcount : this.count - (c.2.length + 1) = (frames cs).length := by
    rw [h.count, frames_cons]
    simp only [length_append, length_cons]
    omega
  have hpages : ∀ c' ∈ cs, F.pages c'.1 = c'.2 :=
    fun c' hc' => h.pages c' (mem_cons_of_mem _ hc')
  unfold unlinkHead
  cases cs with
  | nil =>
    have hnext : F.next c.1 = none := h.links.next_nil
    rw [hnext]
    exact ⟨⟨Links.deque_nil, hpages, hcount⟩, SameOff.refl _ _⟩
  | cons d cs =>
    obtain ⟨hnext, hlinks⟩ := Links.Deque.popFront h.links (nodup_fst hnodup)
    rw [hnext]
    refine ⟨⟨hlinks, hpages, hcount⟩, (sameOff_setPrev F none).mono ?_⟩
    simp [frames_cons]

/-- The result of taking a frame off a list. -/
inductive Takes (F : Frames α) (this : FreeFrameList α) (l : List α) :
    Option (Frames α × FreeFrameList α × Option α) → Prop
  | empty : l = [] → Takes F this l (some (F, this, none))
  | frame {F' : Frames α} {this' : FreeFrameList α} {x : α} {cs' : List (α × List α)} :
      Holds F' this' cs' → (x :: frames cs').Perm l → SameOff F F' l →
        Takes F this l (some (F', this', some x))

theorem getFrame_takes (h : Holds F this cs) (hnodup : (frames cs).Nodup) :
    Takes F this (frames cs) (getFrame F this) := by
  unfold getFrame
  cases cs with
  | nil =>
    rw [if_pos h.count_eq_zero]
    exact .empty rfl
  | cons c cs =>
    have hcount := h.count
    rw [frames_cons] at hcount
    have hpos : this.count ≠ 0 := by
      rw [hcount]
      simp
    have hhead : this.head = some c.1 := h.links.head_cons
    have hpages : F.pages c.1 = c.2 := h.pages c mem_cons_self
    rw [if_neg hpos, hhead]
    simp only
    rw [hpages]
    rcases List.eq_nil_or_concat c.2 with hnil | ⟨l, x, hl⟩
    · -- the header itself is the frame
      rw [hnil]
      simp only [List.getLast?_nil]
      have hun := unlinkHead_unlinked h hnodup
      rw [hnil] at hun
      refine .frame hun.holds ?_ (hun.same.mono ?_)
      · rw [frames_cons, hnil]
        exact List.Perm.refl _
      · rw [frames_cons]
        exact List.subset_append_right _ _
    · rw [List.concat_eq_append] at hl
      rw [hl, List.getLast?_concat, List.dropLast_concat]
      simp only
      have hfst := nodup_fst hnodup
      have hholds : Holds (setPages F c.1 l) { this with count := this.count - 1 }
          ((c.1, l) :: cs) := {
        links := h.links
        pages := by
          intro c' hc'
          rcases mem_cons.1 hc' with rfl | hc'
          · exact update_self ..
          · have hne : c'.1 ≠ c.1 :=
              fun heq => (nodup_cons.1 hfst).1 (heq ▸ List.mem_map_of_mem hc')
            refine (update_of_ne hne ..).trans ?_
            exact h.pages c' (mem_cons_of_mem _ hc')
        count := by
          rw [hl] at hcount
          rw [frames_cons]
          simp only [length_append, length_cons, List.length_nil] at hcount ⊢
          omega }
      rw [hhead] at hholds
      refine .frame hholds ?_ ((sameOff_setPages F _).mono ?_)
      · rw [frames_cons, frames_cons, hl]
        simp only [cons_append, append_assoc, List.nil_append]
        exact (List.Perm.swap c.1 x _).trans (perm_middle.symm.cons c.1)
      · simp [frames_cons]

/-! ## Two lists -/

/-- Two lists have exchanged frames. -/
structure Exchanged (F : Frames α) (l m : List α) (F' : Frames α) (this' ffl' : FreeFrameList α)
    (cs' ds' : List (α × List α)) : Prop where
  holds : Holds F' this' cs'
  holds_ffl : Holds F' ffl' ds'
  perm : (frames cs' ++ frames ds').Perm (l ++ m)
  same : SameOff F F' (l ++ m)

section

omit [DecidableEq α]

theorem Exchanged.refl (h : Holds F this cs) (hffl : Holds F ffl ds) :
    Exchanged F (frames cs) (frames ds) F this ffl cs ds :=
  ⟨h, hffl, List.Perm.refl _, SameOff.refl _ _⟩

theorem SameOff.perm (h : SameOff F F' l) (hperm : m.Perm l) : SameOff F F' m :=
  h.mono fun _ ha => hperm.mem_iff.2 ha

theorem Exchanged.trans {cs' ds' cs'' ds'' : List (α × List α)} {this'' ffl'' : FreeFrameList α}
    (h : Exchanged F l m F' this' ffl' cs' ds')
    (h' : Exchanged F' (frames cs') (frames ds') F'' this'' ffl'' cs'' ds'') :
    Exchanged F l m F'' this'' ffl'' cs'' ds'' where
  holds := h'.holds
  holds_ffl := h'.holds_ffl
  perm := h'.perm.trans h.perm
  same := h.same.trans (h'.same.perm h.perm.symm)

end

theorem linkHead_exchanged (h : Holds F this (c :: cs)) (hffl : Holds F ffl ds)
    (hnodup : (frames (c :: cs) ++ frames ds).Nodup) :
    let r := unlinkHead F this c.1 (c.2.length + 1)
    let r' := linkHead r.1 ffl c.1 (c.2.length + 1)
    Exchanged F (frames (c :: cs)) (frames ds) r'.1 r.2 r'.2 cs (c :: ds) := by
  intro r r'
  obtain ⟨hnd, hndd, hdisj⟩ := nodup_append.1 hnodup
  obtain ⟨hun, hsame⟩ : Unlinked F this c cs r.1 r.2 := unlinkHead_unlinked h hnd
  rw [frames_cons, cons_append] at hnd
  obtain ⟨hc, hnd⟩ := nodup_cons.1 hnd
  obtain ⟨-, hndc, hdisjc⟩ := nodup_append.1 hnd
  have hccs : c.1 ∉ frames cs := fun hmem => hc (mem_append_right _ hmem)
  have hcds : c.1 ∉ frames ds := fun hmem => hdisj c.1 (by simp [frames_cons]) c.1 hmem rfl
  have hdscs : ∀ a ∈ frames ds, a ∉ frames cs := by
    intro a ha hmem
    exact hdisj a (by simp [frames_cons, hmem]) a ha rfl
  have hffl := hffl.congr hsame hdscs
  obtain ⟨-, hprev, hpages⟩ := hsame c.1 hccs
  rw [h.pages c mem_cons_self] at hpages
  have hprev : r.1.prev c.1 = none := hprev.trans h.links.2.1
  have hcount : (frames (c :: ds)).length = (frames ds).length + (c.2.length + 1) := by
    rw [frames_cons]
    simp only [length_append, length_cons]
    omega
  have hperm : (frames cs ++ frames (c :: ds)).Perm (frames (c :: cs) ++ frames ds) := by
    rw [frames_cons, frames_cons, ← append_assoc, append_assoc (c.1 :: c.2)]
    rw [append_assoc, ← append_assoc]
    exact (List.perm_append_comm.append_right _).trans (by rw [append_assoc])
  -- the links that are written belong to the header and to the first header behind it
  suffices hlinked : Holds r'.1 r'.2 (c :: ds) ∧ SameOff r.1 r'.1 (c.1 :: frames ds) by
    obtain ⟨hholds, hsame'⟩ := hlinked
    refine ⟨hun.congr hsame' ?_, hholds, hperm, ?_⟩
    · intro a ha hmem
      rcases mem_cons.1 hmem with rfl | hmem
      · exact hccs ha
      · exact hdscs a hmem ha
    · refine (hsame.mono ?_).trans (hsame'.mono ?_)
      · intro a ha
        simp [frames_cons, ha]
      · intro a ha
        rcases mem_cons.1 ha with rfl | ha
        · simp [frames_cons]
        · simp [ha]
  have hpages' : ∀ c' ∈ c :: ds, r'.1.pages c'.1 = c'.2 := by
    have hkeep : r'.1.pages = r.1.pages := by
      show (linkHead r.1 ffl c.1 (c.2.length + 1)).1.pages = r.1.pages
      unfold linkHead
      split <;> rfl
    intro c' hc'
    rw [hkeep]
    rcases mem_cons.1 hc' with rfl | hc'
    · exact hpages
    · exact hffl.pages c' hc'
  cases ds with
  | nil =>
    obtain rfl := hffl.eq_init
    refine ⟨⟨⟨rfl, hprev, update_self .., rfl⟩, hpages', ?_⟩, ?_⟩
    · rw [hcount]
      rfl
    · exact (sameOff_setNext r.1 none).mono (by simp)
  | cons d ds =>
    have hhead : ffl.head = some d.1 := hffl.links.head_cons
    have hr' : r' = (withLinks r.1 ((r.1.setNext c.1 (some d.1)).setPrev d.1 (some c.1)),
        ⟨some c.1, ffl.tail, ffl.count + (c.2.length + 1)⟩) := by
      show linkHead r.1 ffl c.1 (c.2.length + 1) = _
      unfold linkHead
      rw [hhead]
    have hcd : c.1 ≠ d.1 := fun heq => hcds (heq ▸ mem_frames_of_mem mem_cons_self)
    have hcfst : c.1 ∉ (d :: ds).map fst := fun hmem => hcds (fst_mem_frames hmem)
    rw [hr'] at hpages' ⊢
    refine ⟨⟨?_, hpages', ?_⟩, ?_⟩
    · have hpush := Links.Deque.pushFront hffl.links hcfst (nodup_fst hndd)
      refine hpush.congr (fun _ _ => rfl) fun a _ => ?_
      by_cases hac : a = c.1
      · subst a
        have hnone : (((r.1.setNext c.1 (some d.1)).setPrev d.1 (some c.1)).setPrev c.1
          none).prev c.1 = none := update_self ..
        exact (update_of_ne hcd ..).trans (hprev.trans hnone.symm)
      · exact (update_of_ne hac ..).symm
    · rw [hcount, ← hffl.count]
    · refine ((sameOff_setNext r.1 (some d.1)).mono ?_).trans ((sameOff_setPrev _ _).mono ?_)
      · simp
      · simp [frames_cons]

theorem getListHead_exchanged (h : Holds F this cs) (hffl : Holds F ffl [])
    (hnodup : (frames cs).Nodup) :
    ∃ cs' ds', Exchanged F (frames cs) [] (getListHead F this ffl).1 (getListHead F this ffl).2.1
      (getListHead F this ffl).2.2 cs' ds' ∧ (ds' = [] ↔ cs = []) := by
  obtain rfl := hffl.eq_init
  unfold getListHead
  cases cs with
  | nil =>
    obtain rfl := h.eq_init
    exact ⟨[], [], Exchanged.refl h hffl, Iff.rfl⟩
  | cons c cs =>
    have hhead : this.head = some c.1 := h.links.head_cons
    rw [hhead]
    simp only
    rw [h.pages c mem_cons_self]
    have hex := linkHead_exchanged h hffl (by simpa [frames] using hnodup)
    refine ⟨cs, [c], ?_, by simp⟩
    simpa [linkHead, FreeFrameList.init, frames] using hex

theorem getListTail_exchanged (h : Holds F this cs) (hffl : Holds F ffl [])
    (hnodup : (frames cs).Nodup) :
    ∃ cs' ds', Exchanged F (frames cs) [] (getListTail F this ffl).1 (getListTail F this ffl).2.1
      (getListTail F this ffl).2.2 cs' ds' ∧ (ds' = [] ↔ cs = []) := by
  unfold getListTail
  rcases List.eq_nil_or_concat cs with rfl | ⟨cs, c, rfl⟩
  · obtain rfl := h.eq_init
    obtain rfl := hffl.eq_init
    exact ⟨[], [], Exchanged.refl h hffl, Iff.rfl⟩
  · rw [List.concat_eq_append] at h hnodup ⊢
    have hmap : (cs ++ [c]).map fst = cs.map fst ++ [c.1] := by simp
    have hlinks : F.Deque this.head this.tail (cs.map fst ++ [c.1]) := hmap ▸ h.links
    have htail : this.tail = some c.1 := hlinks.tail_append
    have hpages : F.pages c.1 = c.2 := h.pages c (by simp)
    have hnext : F.next c.1 = none := hlinks.last_append.2
    have hcount : this.count - (c.2.length + 1) = (frames cs).length := by
      rw [h.count, frames_append, frames_cons]
      simp [frames]
    have hcs : ∀ c' ∈ cs, F.pages c'.1 = c'.2 := fun c' hc' => h.pages c' (by simp [hc'])
    have hperm : (frames cs ++ frames [c]).Perm (frames (cs ++ [c]) ++ []) := by
      rw [frames_append, append_nil]
    have hfst := nodup_fst hnodup
    rw [hmap] at hfst
    have hccs : c.1 ∉ cs.map fst := by
      rw [List.nodup_append_comm] at hfst
      exact (nodup_cons.1 hfst).1
    have hmem : c.1 ∈ frames (cs ++ [c]) ++ [] := by simp [frames_append, frames_cons]
    rw [htail]
    simp only
    rw [hpages]
    rcases List.eq_nil_or_concat cs with rfl | ⟨cs, d, rfl⟩
    · -- the only header
      have hprev : F.prev c.1 = none := hlinks.2.1
      rw [hprev]
      refine ⟨[], [c], ⟨⟨Links.deque_nil, by simp, hcount⟩, ?_, hperm, ?_⟩, by simp⟩
      · refine ⟨⟨rfl, update_self .., hnext, rfl⟩, ?_, by simp [frames]⟩
        intro c' hc'
        rw [mem_singleton.1 hc']
        exact hpages
      · refine (sameOff_setPrev F none).mono ?_
        intro a ha
        rw [mem_singleton.1 ha]
        exact hmem
    · rw [List.concat_eq_append] at *
      have hmapd : (cs ++ [d]).map fst ++ [c.1] = cs.map fst ++ [d.1, c.1] := by simp
      rw [hmapd] at hlinks hfst
      obtain ⟨hprev, hpop⟩ := hlinks.popBack hfst
      rw [hprev]
      have hmapd' : (cs ++ [d]).map fst = cs.map fst ++ [d.1] := by simp
      refine ⟨cs ++ [d], [c], ⟨⟨?_, hcs, hcount⟩, ?_, hperm, ?_⟩, by simp⟩
      · rw [hmapd'] at hccs ⊢
        exact Links.Segment.setPrev hpop hccs none
      · have hcd : c.1 ≠ d.1 := fun heq => hccs (by simp [heq])
        refine ⟨⟨rfl, update_self .., ?_, rfl⟩, ?_, by simp [frames]⟩
        · exact (update_of_ne hcd ..).trans hnext
        · intro c' hc'
          rw [mem_singleton.1 hc']
          exact hpages
      · refine ((sameOff_setNext F none).mono ?_).trans ((sameOff_setPrev _ none).mono ?_)
        · intro a ha
          rw [mem_singleton.1 ha]
          simp [frames_append, frames_cons]
        · intro a ha
          rw [mem_singleton.1 ha]
          exact hmem

theorem getUpToLoop_exchanged (n reqCount : ℕ) (h : Holds F this cs) (hffl : Holds F ffl ds)
    (hnodup : (frames cs ++ frames ds).Nodup) :
    let r := getUpToLoop F this ffl n reqCount
    ∃ cs' ds', Exchanged F (frames cs) (frames ds) r.1 r.2.1 r.2.2.1 cs' ds' := by
  induction n generalizing F this ffl cs ds reqCount with
  | zero => exact ⟨cs, ds, Exchanged.refl h hffl⟩
  | succ n ih =>
    intro r
    have hr : r = getUpToLoop F this ffl (n + 1) reqCount := rfl
    rw [getUpToLoop] at hr
    cases cs with
    | nil =>
      obtain rfl := h.eq_init
      exact ⟨[], ds, Exchanged.refl h hffl⟩
    | cons c cs =>
      have hhead : this.head = some c.1 := h.links.head_cons
      rw [hhead] at hr
      simp only at hr
      rw [h.pages c mem_cons_self] at hr
      split at hr
      · have hex := linkHead_exchanged h hffl hnodup
        have hnodup' := hex.perm.nodup_iff.2 hnodup
        obtain ⟨cs', ds', hex'⟩ := ih (reqCount - (c.2.length + 1)) hex.holds hex.holds_ffl hnodup'
        rw [hr]
        exact ⟨cs', ds', hex.trans hex'⟩
      · rw [hr]
        exact ⟨c :: cs, ds, Exchanged.refl h hffl⟩

theorem getListLoop_exchanged (reqCount : ℕ) (h : Holds F this cs) (hffl : Holds F ffl ds)
    (hnodup : (frames cs ++ frames ds).Nodup) :
    ∃ r cs' ds', getListLoop F this ffl reqCount = some r ∧
      Exchanged F (frames cs) (frames ds) r.1 r.2.1 r.2.2.1 cs' ds' := by
  induction reqCount generalizing F this ffl cs ds with
  | zero => exact ⟨_, cs, ds, rfl, Exchanged.refl h hffl⟩
  | succ reqCount ih =>
    rw [getListLoop]
    split
    · exact ⟨_, cs, ds, rfl, Exchanged.refl h hffl⟩
    · rename_i hpos
      obtain ⟨hcs, hds, hdisj⟩ := nodup_append.1 hnodup
      generalize hget : getFrame F this = result
      have htakes := getFrame_takes h hcs
      rw [hget] at htakes
      cases htakes with
      | empty hnil =>
        have := h.count
        rw [hnil] at this
        exact absurd this hpos
      | @frame F' this' x cs' hholds hperm hsame =>
        -- one frame is taken from the list and put on the other
        have hx : x ∈ frames cs := hperm.mem_iff.1 mem_cons_self
        have hxds : x ∉ frames ds := fun hmem => hdisj x hx x hmem rfl
        have hffl' := hffl.congr hsame fun a ha hmem => hdisj a hmem a ha rfl
        obtain ⟨ds', hadds⟩ := freeFrame_adds hffl' hds hxds
        have hx' : x ∉ frames cs' := (nodup_cons.1 (hperm.nodup_iff.2 hcs)).1
        have hholds' : Holds (freeFrame F' ffl x).1 this' cs' := by
          refine hholds.congr hadds.same ?_
          intro a ha hmem
          rcases mem_cons.1 hmem with rfl | hmem
          · exact hx' ha
          · exact hdisj a (hperm.mem_iff.1 (mem_cons_of_mem _ ha)) a hmem rfl
        have hex : Exchanged F (frames cs) (frames ds) (freeFrame F' ffl x).1 this'
            (freeFrame F' ffl x).2 cs' ds' := by
          refine ⟨hholds', hadds.holds, ?_, (hsame.mono ?_).trans (hadds.same.mono ?_)⟩
          · calc (frames cs' ++ frames ds').Perm (frames cs' ++ x :: frames ds) :=
                  hadds.perm.append_left _
              List.Perm _ (x :: frames cs' ++ frames ds) := perm_middle
              List.Perm _ (frames cs ++ frames ds) := hperm.append_right _
          · exact List.subset_append_left _ _
          · intro a ha
            rcases mem_cons.1 ha with rfl | ha
            · exact List.mem_append_left _ hx
            · exact mem_append_right _ ha
        obtain ⟨r, cs'', ds'', hr, hex'⟩ :=
          ih hex.holds hex.holds_ffl (hex.perm.nodup_iff.2 hnodup)
        exact ⟨r, cs'', ds'', hr, hex.trans hex'⟩

theorem getList_exchanged (reqCount : ℕ) (h : Holds F this cs) (hffl : Holds F ffl ds)
    (hnodup : (frames cs ++ frames ds).Nodup) :
    ∃ r cs' ds', getList F this ffl reqCount = some r ∧
      Exchanged F (frames cs) (frames ds) r.1 r.2.1 r.2.2.1 cs' ds' := by
  have hupTo : ∃ cs' ds', Exchanged F (frames cs) (frames ds) (getUpTo F this ffl reqCount).1
      (getUpTo F this ffl reqCount).2.1 (getUpTo F this ffl reqCount).2.2.1 cs' ds' := by
    unfold getUpTo
    split
    · exact ⟨cs, ds, Exchanged.refl h hffl⟩
    · exact getUpToLoop_exchanged reqCount reqCount h hffl hnodup
  obtain ⟨cs', ds', hex⟩ := hupTo
  obtain ⟨r, cs'', ds'', hr, hex'⟩ := getListLoop_exchanged (getUpTo F this ffl reqCount).2.2.2
    hex.holds hex.holds_ffl (hex.perm.nodup_iff.2 hnodup)
  exact ⟨r, cs'', ds'', hr, hex.trans hex'⟩

/-- `freeList` of a list that is not empty follows no null link, and all its frames are
on the other list. -/
theorem freeList_exchanged (h : Holds F this cs) (hffl : Holds F ffl ds)
    (hnodup : (frames cs ++ frames ds).Nodup) (hds : cs = [] ∨ ds ≠ []) :
    ∃ r, freeList F this ffl = some r ∧ r.2.2 = init ∧
      Exchanged F (frames cs) (frames ds) r.1 r.2.1 r.2.2 (ds ++ cs) [] := by
  have hperm : (frames (ds ++ cs) ++ frames []).Perm (frames cs ++ frames ds) := by
    rw [frames_append]
    show (frames ds ++ frames cs ++ []).Perm _
    rw [append_nil]
    exact List.perm_append_comm
  unfold freeList
  cases cs with
  | nil =>
    rw [if_pos h.count_eq_zero]
    refine ⟨_, rfl, rfl, ?_, Holds.init, hperm, SameOff.refl _ _⟩
    rw [append_nil]
    exact hffl
  | cons c cs =>
    have hpos : this.count ≠ 0 := by
      rw [h.count, frames_cons]
      simp
    obtain ⟨ds, d, rfl⟩ : ∃ ds' d, ds = ds' ++ [d] := by
      rcases List.eq_nil_or_concat ds with rfl | ⟨ds', d, hd⟩
      · exact absurd rfl (hds.resolve_left (by simp))
      · exact ⟨ds', d, by rw [hd, List.concat_eq_append]⟩
    have hhead : this.head = some c.1 := h.links.head_cons
    have hmap : (ds ++ [d]).map fst = ds.map fst ++ [d.1] := by simp
    have hlinks : F.Deque ffl.head ffl.tail (ds.map fst ++ [d.1]) := hmap ▸ hffl.links
    have htail : ffl.tail = some d.1 := hlinks.tail_append
    rw [if_neg hpos, htail, hhead]
    refine ⟨_, rfl, rfl, ?_, Holds.init, hperm, ?_⟩
    · have hnd : (frames (ds ++ [d] ++ c :: cs)).Nodup := by
        rw [frames_append]
        exact List.nodup_append_comm.1 hnodup
      have hmap' : (ds ++ [d] ++ c :: cs).map fst =
          ds.map fst ++ [d.1] ++ c.1 :: cs.map fst := by simp
      have hfst := nodup_fst hnd
      rw [hmap'] at hfst
      refine ⟨hmap' ▸ Links.Deque.append hlinks h.links hfst, ?_, ?_⟩
      · intro c' hc'
        rcases List.mem_append.1 hc' with hc' | hc'
        · exact hffl.pages c' hc'
        · exact h.pages c' hc'
      · have hframes : frames (ds ++ [d] ++ c :: cs) = frames (ds ++ [d]) ++ frames (c :: cs) :=
          frames_append
        show this.count + ffl.count = _
        rw [h.count, hffl.count, hframes, length_append, Nat.add_comm]
    · refine ((sameOff_setNext F (some c.1)).mono ?_).trans
        ((sameOff_setPrev _ (some d.1)).mono ?_)
      · intro a ha
        rw [mem_singleton.1 ha]
        exact mem_append_right _ (mem_frames_of_mem (by simp))
      · intro a ha
        rw [mem_singleton.1 ha]
        exact List.mem_append_left _ (mem_frames_of_mem (by simp))

end FreeFrameList

end K42
