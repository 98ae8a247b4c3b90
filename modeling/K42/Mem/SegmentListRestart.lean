import K42.Lib.Linked
import K42.Lib.Run
import K42.Mem.SegmentList
import Mathlib.Algebra.Group.Nat.Defs
import Mathlib.Data.Finset.Card
import Mathlib.Data.List.Find

/-!
# Restarting `DeleteSegment`

The list of segments with its elements at their addresses. `DeleteSegment` finds one segment in a
range and gives its caller an element to go on from and a pointer to the set of processors of the
segment; a segment that lies in the range is deleted before that.
-/

open Function (update)
open List (mem_cons mem_cons_self mem_cons_of_mem nodup_cons mem_append mem_append_left
  mem_append_right map_cons append_assoc nil_append cons_append map_append perm_middle)

namespace K42

/-- The elements that exist, with `this`, the dummy in front of the list. -/
structure SegmentHeap where
  this : ℕ
  segmentList : ℕ → Option ℕ
  segment : ℕ → Segment
  nodes : Finset ℕ

namespace SegmentHeap

open SegmentList (Inside Has)
open Prod (fst)

instance (s : ℕ) (e : Segment) : Decidable (Has s e) := inferInstanceAs (Decidable (_ ∧ _))

def init (this : ℕ) : SegmentHeap :=
  ⟨this, fun _ => none, fun _ => ⟨0, 0, VPSet.init, 0⟩, {this}⟩

/-- The `segmentHATRef` of the first segment with the address, and the element whose set of
processors is handed out; nothing for the null reference. -/
def findSegment (h : SegmentHeap) (s : ℕ) : Option (ℕ × ℕ) :=
  match Linked.walk h.segmentList
      (fun n => (h.segment n).segmentstart ≤ s ∧ s < (h.segment n).segmentend) h.nodes.card
      (some h.this) (h.segmentList h.this) with
  | some (_, some n) => some ((h.segment n).segmentHATRef, n)
  | _ => none

/-- `n` is the address of the new element. -/
def addSegment (h : SegmentHeap) (n s l ref : ℕ) : SegmentHeap :=
  match Linked.walk h.segmentList (fun n => ¬ (h.segment n).segmentstart < s) h.nodes.card
      (some h.this) (h.segmentList h.this) with
  | some (some next, rest) =>
    { h with
      segmentList := update (update h.segmentList n rest) next (some n)
      segment := update h.segment n ⟨s, (s + l) % 2 ^ 64, VPSet.init, ref⟩
      nodes := insert n h.nodes }
  | _ => h

/-- What a call returns through its parameters; `deleted` for 0, otherwise 1. The set of
processors is in the element `set`. -/
structure Found where
  deleted : Bool
  segAddr : ℕ
  segEnd : ℕ
  ref : ℕ
  set : ℕ
  restart : ℕ

/-- `some none` for -1, and `none` if the loop does not end. -/
def DeleteSegment (h : SegmentHeap) (regionStart regionEnd restart : ℕ) :
    Option (Option (Found × SegmentHeap)) :=
  match Linked.walk h.segmentList (fun n => ¬ (h.segment n).segmentend ≤ regionStart) h.nodes.card
      (some restart) (h.segmentList restart) with
  | some (some prev, some next) =>
    let e := h.segment next
    if regionEnd ≤ e.segmentstart then
      -- all following segments are above the range
      some none
    else if regionStart ≤ e.segmentstart ∧ e.segmentend ≤ regionEnd then
      some (some (⟨true, e.segmentstart, e.segmentend, e.segmentHATRef, next, prev⟩, { h with
          segmentList := update h.segmentList prev (h.segmentList next)
          nodes := h.nodes.erase next }))
    else
      some (some (⟨false, e.segmentstart, e.segmentend, e.segmentHATRef, next, next⟩, h))
  | some _ => some none
  | none => none

/-- `while (0 <= DeleteSegment(.., restart))`, with the list after each of the calls. -/
def deleteLoop (regionStart regionEnd : ℕ) :
    ℕ → SegmentHeap → ℕ → Option (List (Found × SegmentHeap) × SegmentHeap)
  | 0, _, _ => none
  | n + 1, h, restart =>
    match h.DeleteSegment regionStart regionEnd restart with
    | none => none
    | some none => some ([], h)
    | some (some (f, h')) =>
      (deleteLoop regionStart regionEnd n h' f.restart).map fun r => ((f, h') :: r.1, r.2)

/-! ## The list -/

/-- The elements behind `this`, each with its segment. -/
structure Represents (h : SegmentHeap) (l : List (ℕ × Segment)) : Prop where
  path : Linked.Path h.segmentList (some h.this) (h.this :: l.map Prod.fst)
  segment : ∀ e ∈ l, h.segment e.1 = e.2
  nodes : ∀ n, n ∈ h.nodes ↔ n = h.this ∨ n ∈ l.map Prod.fst

/-- The segments are not empty and each ends before the next one starts. -/
structure Ordered (l : List (ℕ × Segment)) : Prop where
  nonempty : ∀ e ∈ l, e.2.segmentstart < e.2.segmentend
  sorted : l.Pairwise fun e g => e.2.segmentend ≤ g.2.segmentstart

/-- The segment has addresses in the range. -/
def Meets (a b : ℕ) (e : Segment) : Prop := a < e.segmentend ∧ e.segmentstart < b

instance (a b : ℕ) (e : Segment) : Decidable (Meets a b e) :=
  inferInstanceAs (Decidable (_ ∧ _))

theorem init_represents (this : ℕ) : Represents (init this) [] :=
  ⟨⟨rfl, rfl⟩, nofun, fun n => by simp [init]⟩

/-- The element in front of what is still to be looked at. -/
def lastNode (this : ℕ) (pre : List (ℕ × Segment)) : ℕ := (pre.map Prod.fst).getLast?.getD this

section

variable {h : SegmentHeap} {l pre post : List (ℕ × Segment)} {a b : ℕ}

theorem lastNode_snoc (this : ℕ) (pre : List (ℕ × Segment)) (e : ℕ × Segment) :
    lastNode this (pre ++ [e]) = e.1 := by
  rw [lastNode, map_append, map_cons, List.map_nil, List.getLast?_concat]
  rfl

theorem exists_lastNode (this : ℕ) (pre : List (ℕ × Segment)) :
    ∃ m, this :: pre.map fst = m ++ [lastNode this pre] := by
  rcases List.eq_nil_or_concat pre with rfl | ⟨pre, e, rfl⟩
  · exact ⟨[], rfl⟩
  · refine ⟨this :: pre.map fst, ?_⟩
    rw [List.concat_eq_append, lastNode_snoc, map_append, cons_append]
    rfl

theorem Represents.card (hrep : Represents h l) : h.nodes.card = l.length + 1 := by
  have hnodes : h.nodes = (h.this :: l.map fst).toFinset := by
    ext n
    rw [hrep.nodes, List.mem_toFinset, mem_cons]
  rw [hnodes, List.toFinset_card_of_nodup hrep.path.nodup, List.length_cons, List.length_map]

theorem Represents.behind (hrep : Represents h (pre ++ post)) :
    Linked.Path h.segmentList (h.segmentList (lastNode h.this pre)) (post.map fst) := by
  obtain ⟨m, hm⟩ := exists_lastNode h.this pre
  have hpath := hrep.path
  rw [map_append, ← cons_append, hm, append_assoc] at hpath
  exact hpath.drop

theorem Represents.walk (hrep : Represents h (pre ++ post)) (stop : Segment → Bool) :
    ∃ skip rest, post = skip ++ rest ∧ (∀ e ∈ skip, stop e.2 = false) ∧
      (∀ e ∈ rest.head?, stop e.2 = true) ∧
      Linked.walk h.segmentList (fun n => stop (h.segment n)) h.nodes.card
        (some (lastNode h.this pre)) (h.segmentList (lastNode h.this pre)) =
        some (some (lastNode h.this (pre ++ skip)), (rest.map fst).head?) := by
  have hlen : (post.map fst).length ≤ h.nodes.card := by
    rw [hrep.card, List.length_map, List.length_append]
    omega
  obtain ⟨skip, rest, hsplit, hskip, hrest, hwalk⟩ :=
    hrep.behind.walk_eq (fun n => stop (h.segment n)) hlen (some (lastNode h.this pre))
  obtain ⟨skip, rest, rfl, rfl, rfl⟩ := List.map_eq_append_iff.mp hsplit
  refine ⟨skip, rest, rfl, fun e he => ?_, fun e he => ?_, ?_⟩
  · have hmem : e ∈ pre ++ (skip ++ rest) :=
      mem_append_right _ (mem_append_left _ he)
    rw [← hrep.segment e hmem]
    exact hskip e.1 (List.mem_map_of_mem he)
  · have hmem : e ∈ pre ++ (skip ++ rest) :=
      mem_append_right _ (mem_append_right _ (List.mem_of_mem_head? he))
    rw [← hrep.segment e hmem]
    refine hrest e.1 ?_
    rw [List.head?_map, Option.mem_def.mp he]
    rfl
  · rw [hwalk]
    congr 2
    rcases List.eq_nil_or_concat skip with rfl | ⟨skip, e, rfl⟩
    · simp
    · rw [List.concat_eq_append, ← append_assoc, lastNode_snoc]
      simp

variable {e : ℕ × Segment} {n : ℕ}

theorem Represents.delete (hrep : Represents h (pre ++ e :: post)) :
    Represents { h with
      segmentList := update h.segmentList (lastNode h.this pre) (h.segmentList e.1)
      nodes := h.nodes.erase e.1 } (pre ++ post) := by
  obtain ⟨m, hm⟩ := exists_lastNode h.this pre
  have hpath := hrep.path
  have hnodup := hpath.nodup
  have hids : h.this :: (pre ++ e :: post).map fst =
      m ++ lastNode h.this pre :: e.1 :: post.map fst := by
    rw [map_append, ← cons_append, hm, append_assoc]
    rfl
  have hids' : h.this :: (pre ++ post).map fst =
      m ++ lastNode h.this pre :: post.map fst := by
    rw [map_append, ← cons_append, hm, append_assoc]
    rfl
  rw [hids] at hpath hnodup
  have hbehind : Linked.Path h.segmentList (h.segmentList (lastNode h.this pre))
      (e.1 :: post.map fst) := hpath.drop
  have htail := (List.nodup_append.mp hnodup).2.1
  have hnot : lastNode h.this pre ∉ post.map fst := fun hmem =>
    (nodup_cons.mp htail).1 (mem_cons_of_mem _ hmem)
  refine ⟨?_, fun g hg => hrep.segment g ?_, fun n => ?_⟩
  · rw [hids']
    exact hpath.splice hbehind.2 hnot
  · rcases mem_append.mp hg with hg | hg
    · exact mem_append_left _ hg
    · exact mem_append_right _ (mem_cons_of_mem _ hg)
  · have hperm : (m ++ lastNode h.this pre :: e.1 :: post.map fst).Perm
        (e.1 :: (m ++ lastNode h.this pre :: post.map fst)) :=
      ((List.Perm.swap e.1 _ _).append_left m).trans perm_middle
    have hfresh := (nodup_cons.mp (hperm.nodup_iff.mp hnodup)).1
    have hall := hrep.nodes n
    rw [← mem_cons, hids, hperm.mem_iff, mem_cons] at hall
    rw [← mem_cons, hids', Finset.mem_erase, hall]
    constructor
    · rintro ⟨hne, heq | hmem⟩
      · exact absurd heq hne
      · exact hmem
    · intro hmem
      refine ⟨?_, .inr hmem⟩
      rintro rfl
      exact hfresh hmem

theorem Ordered.of_append (ho : Ordered (pre ++ post)) : Ordered post :=
  ⟨fun e he => ho.nonempty e (mem_append_right _ he), (List.pairwise_append.mp ho.sorted).2.1⟩

theorem Ordered.above (ho : Ordered (e :: post)) (hb : b ≤ e.2.segmentstart) :
    ∀ g ∈ e :: post, ¬ Meets a b g.2 := by
  intro g hg hmeets
  rcases mem_cons.mp hg with rfl | hg
  · exact absurd hmeets.2 (not_lt.mpr hb)
  · have hend := (List.pairwise_cons.mp ho.sorted).1 g hg
    have hstart := ho.nonempty e mem_cons_self
    exact absurd hmeets.2 (not_lt.mpr (hb.trans (hstart.le.trans hend)))

theorem Ordered.inside_meets (ho : Ordered l) (he : e ∈ l)
    (hin : Inside a b e.2) : Meets a b e.2 := by
  have hlt := ho.nonempty e he
  exact ⟨hin.1.trans_lt hlt, hlt.trans_le hin.2⟩

theorem Ordered.filter_below (ho : Ordered l) (hbelow : ∀ e ∈ l, e.2.segmentend ≤ a) :
    l.filter (fun e => Meets a b e.2) = [] ∧ l.filter (fun e => ¬ Inside a b e.2) = l := by
  have hnot : ∀ e ∈ l, ¬ Meets a b e.2 := fun e he hmeets =>
    absurd hmeets.1 (not_lt.mpr (hbelow e he))
  refine ⟨List.filter_eq_nil_iff.mpr fun e he => ?_, List.filter_eq_self.mpr fun e he => ?_⟩
  · simpa using hnot e he
  · simpa using fun hin => hnot e he (ho.inside_meets he hin)

theorem Ordered.filter_above (ho : Ordered (e :: post))
    (hb : b ≤ e.2.segmentstart) : (e :: post).filter (fun e => Meets a b e.2) = [] ∧
      (e :: post).filter (fun e => ¬ Inside a b e.2) = e :: post := by
  refine ⟨List.filter_eq_nil_iff.mpr fun g hg => ?_, List.filter_eq_self.mpr fun g hg => ?_⟩
  · simpa using ho.above hb g hg
  · simpa using fun hin => ho.above hb g hg (ho.inside_meets hg hin)

/-- What a call reports of a segment, and whether the set of processors that it hands out
exists. -/
def Reports (a b : ℕ) (call : Found × SegmentHeap) (e : ℕ × Segment) : Prop :=
  call.1.deleted = decide (Inside a b e.2) ∧ call.1.segAddr = e.2.segmentstart ∧
    call.1.segEnd = e.2.segmentend ∧ call.1.ref = e.2.segmentHATRef ∧ call.1.set = e.1 ∧
    (call.1.set ∈ call.2.nodes ↔ ¬ Inside a b e.2)

/-- The loop goes through the segments that have addresses in the range, and what is left is
without those that lie in it. -/
theorem Represents.deleteLoop (hrep : Represents h (pre ++ post))
    (ho : Ordered post) (hn : post.length < n) :
    ∃ calls h', deleteLoop a b n h (lastNode h.this pre) = some (calls, h') ∧ h'.this = h.this ∧
      Represents h' (pre ++ post.filter fun e => ¬ Inside a b e.2) ∧
      List.Forall₂ (Reports a b) calls (post.filter fun e => Meets a b e.2) := by
  induction n generalizing h pre post with
  | zero => exact absurd hn (Nat.not_lt_zero _)
  | succ n ih =>
    obtain ⟨skip, rest, rfl, hskip, hrest, hwalk⟩ :=
      hrep.walk (fun e => ¬ e.segmentend ≤ a)
    have hbelow : ∀ e ∈ skip, e.2.segmentend ≤ a := fun e he => by simpa using hskip e he
    have hosk : Ordered skip := ⟨fun e he => ho.nonempty e (mem_append_left _ he),
      (List.pairwise_append.mp ho.sorted).1⟩
    obtain ⟨hmeets, hkeeps⟩ := hosk.filter_below (b := b) hbelow
    have horest : Ordered rest := ho.of_append
    rw [List.filter_append, List.filter_append, hmeets, hkeeps, nil_append,
      SegmentHeap.deleteLoop, DeleteSegment, hwalk]
    cases rest with
    | nil =>
      refine ⟨[], h, rfl, rfl, ?_, List.Forall₂.nil⟩
      simpa using hrep
    | cons e rest =>
      have hend : ¬ e.2.segmentend ≤ a := by simpa using hrest e rfl
      have hseg : h.segment e.1 = e.2 := hrep.segment e (by simp)
      rw [← append_assoc] at hrep ⊢
      have hlen : rest.length < n := by
        simp only [List.length_append, List.length_cons] at hn
        omega
      have ho' : Ordered rest := (show Ordered ([e] ++ rest) from horest).of_append
      simp only [map_cons, List.head?_cons, hseg]
      by_cases habove : b ≤ e.2.segmentstart
      · -- all following segments are above the range
        obtain ⟨hnone, hall⟩ := horest.filter_above (a := a) habove
        rw [if_pos habove, hnone, hall]
        exact ⟨[], h, rfl, rfl, hrep, List.Forall₂.nil⟩
      · have hthis : Meets a b e.2 := ⟨not_le.mp hend, not_le.mp habove⟩
        have hfound : (e :: rest).filter (fun e => Meets a b e.2) =
            e :: rest.filter fun e => Meets a b e.2 :=
          List.filter_cons_of_pos (by simpa using hthis)
        rw [if_neg habove, hfound]
        by_cases hin : a ≤ e.2.segmentstart ∧ e.2.segmentend ≤ b
        · have hin' : Inside a b e.2 := hin
          have hkept : (e :: rest).filter (fun e => ¬ Inside a b e.2) =
              rest.filter fun e => ¬ Inside a b e.2 :=
            List.filter_cons_of_neg (by simpa using hin')
          obtain ⟨calls, h', hloop, hsame, hrep', hcalls⟩ := ih hrep.delete ho' hlen
          rw [if_pos hin, hkept]
          refine ⟨(⟨true, e.2.segmentstart, e.2.segmentend, e.2.segmentHATRef, e.1,
            lastNode h.this (pre ++ skip)⟩, { h with
              segmentList := update h.segmentList (lastNode h.this (pre ++ skip))
                (h.segmentList e.1)
              nodes := h.nodes.erase e.1 }) :: calls, h', ?_, hsame, hrep',
            List.Forall₂.cons ?_ hcalls⟩
          · dsimp only at hloop ⊢
            rw [hloop]
            rfl
          · refine ⟨(decide_eq_true hin).symm, rfl, rfl, rfl, rfl, iff_of_false ?_ ?_⟩
            · exact Finset.notMem_erase _ _
            · exact not_not.mpr hin
        · have hin' : ¬ Inside a b e.2 := hin
          have hkept : (e :: rest).filter (fun e => ¬ Inside a b e.2) =
              e :: rest.filter fun e => ¬ Inside a b e.2 :=
            List.filter_cons_of_pos (by simpa using hin')
          have hsplit : pre ++ skip ++ e :: rest = pre ++ skip ++ [e] ++ rest := by simp
          have hexists : e.1 ∈ h.nodes := (hrep.nodes e.1).mpr (.inr (by simp))
          rw [hsplit] at hrep
          obtain ⟨calls, h', hloop, hsame, hrep', hcalls⟩ := ih hrep ho' hlen
          rw [lastNode_snoc] at hloop
          rw [if_neg hin, hkept]
          refine ⟨(⟨false, e.2.segmentstart, e.2.segmentend, e.2.segmentHATRef, e.1, e.1⟩, h) ::
            calls, h', ?_, hsame, ?_, List.Forall₂.cons ?_ hcalls⟩
          · dsimp only
            rw [hloop]
            rfl
          · rw [append_assoc _ [e]] at hrep'
            exact hrep'
          · exact ⟨(decide_eq_false hin).symm, rfl, rfl, rfl, rfl, iff_of_true hexists hin⟩

/-- The calls report, and the list keeps, what `deleteSegments` says. -/
theorem Ordered.deleteSegments (ho : Ordered l) :
    SegmentList.deleteSegments a b (l.map Prod.snd) =
      ((l.filter fun e => Meets a b e.2).map fun e => (decide (Inside a b e.2), e.2),
        (l.filter fun e => ¬ Inside a b e.2).map Prod.snd) := by
  induction l with
  | nil => rfl
  | cons e l ih =>
    have hrest := ih (show Ordered ([e] ++ l) from ho).of_append
    rw [map_cons, SegmentList.deleteSegments]
    by_cases hbelow : e.2.segmentend ≤ a
    · have hmeets : ¬ Meets a b e.2 := fun h => absurd h.1 (not_lt.mpr hbelow)
      have hin : ¬ Inside a b e.2 := fun h => hmeets (ho.inside_meets mem_cons_self h)
      simp [hbelow, hmeets, hin, hrest]
    · by_cases habove : b ≤ e.2.segmentstart
      · obtain ⟨hnone, hall⟩ := ho.filter_above (a := a) habove
        rw [if_neg hbelow, if_pos habove, hnone, hall]
        rfl
      · have hmeets : Meets a b e.2 := ⟨not_le.mp hbelow, not_le.mp habove⟩
        rw [if_neg hbelow, if_neg habove, hrest]
        by_cases hin : Inside a b e.2
        · rw [if_pos (show _ ∧ _ from hin)]
          simp [hmeets, hin]
        · rw [if_neg (show ¬ (_ ∧ _) from hin)]
          simp [hmeets, hin]
/-! ## Finding and adding -/

theorem Represents.findSegment (hrep : Represents h l) (s : ℕ) :
    h.findSegment s = (l.find? fun e => Has s e.2).map fun e => (e.2.segmentHATRef, e.1) := by
  obtain ⟨skip, rest, hsplit, hskip, hrest, hwalk⟩ :=
    (show Represents h ([] ++ l) from hrep).walk
      fun e => e.segmentstart ≤ s ∧ s < e.segmentend
  have hnone : skip.find? (fun e => Has s e.2) = none := by
    refine List.find?_eq_none.mpr fun e he => ?_
    have hnot : ¬ Has s e.2 := by
      have hfalse := hskip e he
      rw [decide_eq_false_iff_not] at hfalse
      exact hfalse
    simpa using hnot
  have hfirst : h.segmentList (lastNode h.this []) = h.segmentList h.this := rfl
  rw [SegmentHeap.findSegment]
  rw [hfirst] at hwalk
  rw [show (some h.this : Option ℕ) = some (lastNode h.this []) from rfl, hwalk, hsplit,
    List.find?_append, hnone]
  cases rest with
  | nil => rfl
  | cons e rest =>
    have hhas : Has s e.2 := of_decide_eq_true (hrest e rfl)
    have hseg : h.segment e.1 = e.2 := hrep.segment e (by simp [hsplit])
    rw [List.find?_cons_of_pos (by simpa using hhas)]
    simp [hseg]

theorem Represents.link (hrep : Represents h (pre ++ post)) (hn : n ∉ h.nodes) (e : Segment) :
    Represents { h with
      segmentList := update (update h.segmentList n (post.map fst).head?)
        (lastNode h.this pre) (some n)
      segment := update h.segment n e
      nodes := insert n h.nodes } (pre ++ (n, e) :: post) := by
  obtain ⟨m, hm⟩ := exists_lastNode h.this pre
  have hids : h.this :: (pre ++ post).map fst =
      m ++ lastNode h.this pre :: post.map fst := by
    rw [map_append, ← cons_append, hm, append_assoc]
    rfl
  have hids' : h.this :: (pre ++ (n, e) :: post).map fst =
      m ++ lastNode h.this pre :: n :: post.map fst := by
    rw [map_append, ← cons_append, hm, append_assoc]
    rfl
  have hpath := hrep.path
  have hfree : n ∉ h.this :: (pre ++ post).map fst := by
    rw [mem_cons, ← hrep.nodes]
    exact hn
  refine ⟨?_, fun g hg => ?_, fun x => ?_⟩
  · rw [hids] at hpath hfree
    rw [hids']
    have hbehind := hpath.drop
    have hrest : n ∉ post.map fst := fun hmem =>
      hfree (mem_append_right _ (mem_cons_of_mem _ hmem))
    have hne : lastNode h.this pre ≠ n := by
      rintro heq
      exact hfree (mem_append_right _ (heq ▸ mem_cons_self))
    have hlast := (nodup_cons.mp (List.nodup_append.mp hpath.nodup).2.1).1
    refine (hpath.update hfree _).splice ⟨rfl, ?_⟩ ?_
    · rw [Function.update_self, ← hbehind.head_eq]
      exact hbehind.update hrest _
    · rw [mem_cons, not_or]
      exact ⟨hne, hlast⟩
  · have hg' : g = (n, e) ∨ g ∈ pre ++ post := by
      rcases mem_append.mp hg with hg | hg
      · exact .inr (mem_append_left _ hg)
      · exact (mem_cons.mp hg).imp_right (mem_append_right _)
    rcases hg' with rfl | hold
    · exact Function.update_self _ _ _
    · have hne : g.1 ≠ n := by
        rintro rfl
        exact hfree (mem_cons_of_mem _ (List.mem_map_of_mem hold))
      exact (Function.update_of_ne hne _ _).trans (hrep.segment g hold)
  · have hperm : (m ++ lastNode h.this pre :: n :: post.map fst).Perm
        (n :: (m ++ lastNode h.this pre :: post.map fst)) :=
      ((List.Perm.swap n _ _).append_left m).trans perm_middle
    rw [← mem_cons, hids', hperm.mem_iff, mem_cons, ← hids, mem_cons, ← hrep.nodes]
    exact Finset.mem_insert

theorem Ordered.insert (ho : Ordered (pre ++ post)) (hrange : e.2.segmentstart < e.2.segmentend)
    (hpre : ∀ g ∈ pre, g.2.segmentstart < e.2.segmentstart)
    (hpost : ∀ g ∈ post.head?, e.2.segmentstart ≤ g.2.segmentstart) (hdisjoint : ∀ g ∈ pre ++ post,
      e.2.segmentend ≤ g.2.segmentstart ∨ g.2.segmentend ≤ e.2.segmentstart) :
    Ordered (pre ++ e :: post) := by
  obtain ⟨hsortpre, hsortpost, hcross⟩ := List.pairwise_append.mp ho.sorted
  have hbelow : ∀ g ∈ pre, g.2.segmentend ≤ e.2.segmentstart := by
    intro g hg
    rcases hdisjoint g (mem_append_left _ hg) with hle | hle
    · exact absurd (hrange.trans_le hle) (hpre g hg).asymm
    · exact hle
  have habove : ∀ g ∈ post, e.2.segmentend ≤ g.2.segmentstart := by
    intro g hg
    have hstart : e.2.segmentstart ≤ g.2.segmentstart := by
      cases post with
      | nil => exact absurd hg List.not_mem_nil
      | cons f post =>
        have hf := hpost f rfl
        rcases mem_cons.mp hg with rfl | hg
        · exact hf
        · have hlt := ho.nonempty f (mem_append_right _ mem_cons_self)
          exact hf.trans (hlt.le.trans ((List.pairwise_cons.mp hsortpost).1 g hg))
    have hg' : g ∈ pre ++ post := mem_append_right _ hg
    rcases hdisjoint g hg' with hle | hle
    · exact hle
    · exact absurd (hle.trans hstart) (not_le.mpr (ho.nonempty g hg'))
  refine ⟨fun g hg => ?_, List.pairwise_append.mpr ⟨hsortpre, List.pairwise_cons.mpr
    ⟨habove, hsortpost⟩, fun g hg f hf => ?_⟩⟩
  · rcases mem_append.mp hg with hg | hg
    · exact ho.nonempty g (mem_append_left _ hg)
    · rcases mem_cons.mp hg with rfl | hg
      · exact hrange
      · exact ho.nonempty g (mem_append_right _ hg)
  · rcases mem_cons.mp hf with rfl | hf
    · exact hbelow g hg
    · exact hcross g hg f hf

theorem Represents.addSegment (hrep : Represents h l) {s len : ℕ} (ref : ℕ) (ho : Ordered l)
    (hn : n ∉ h.nodes) (hrange : s < (s + len) % 2 ^ 64)
    (hdisjoint : ∀ e ∈ l, (s + len) % 2 ^ 64 ≤ e.2.segmentstart ∨ e.2.segmentend ≤ s) :
    ∃ l', Represents (h.addSegment n s len ref) l' ∧ Ordered l' ∧
      l'.Perm ((n, ⟨s, (s + len) % 2 ^ 64, VPSet.init, ref⟩) :: l) := by
  obtain ⟨skip, rest, rfl, hskip, hrest, hwalk⟩ :=
    (show Represents h ([] ++ l) from hrep).walk fun e => ¬ e.segmentstart < s
  rw [show lastNode h.this [] = h.this from rfl, nil_append] at hwalk
  refine ⟨skip ++ (n, ⟨s, (s + len) % 2 ^ 64, VPSet.init, ref⟩) :: rest, ?_, ?_, perm_middle⟩
  · rw [SegmentHeap.addSegment, hwalk]
    exact hrep.link hn _
  · refine ho.insert hrange (fun g hg => ?_) (fun g hg => ?_) hdisjoint
    · simpa using hskip g hg
    · simpa using hrest g hg

end

/-! ## Lists that have been built -/

/-- The list, and the elements that have been added. -/
structure Client where
  heap : SegmentHeap
  added : List (ℕ × Segment)

/-- `addSegment(s, l, ref, set)` with the address of the new element. -/
structure Add where
  node : ℕ
  s : ℕ
  l : ℕ
  ref : ℕ

/-- The ranges are not empty and have no addresses in common. -/
def machine : Machine Client Add where
  step c op := ⟨c.heap.addSegment op.node op.s op.l op.ref,
    (op.node, ⟨op.s, (op.s + op.l) % 2 ^ 64, VPSet.init, op.ref⟩) :: c.added⟩
  adm c op := op.node ∉ c.heap.nodes ∧ op.s < (op.s + op.l) % 2 ^ 64 ∧
    ∀ e ∈ c.added, (op.s + op.l) % 2 ^ 64 ≤ e.2.segmentstart ∨ e.2.segmentend ≤ op.s

instance (c : Client) (op : Add) : Decidable (machine.adm c op) :=
  inferInstanceAs (Decidable (_ ∧ _ ∧ ∀ e ∈ c.added, _ ∨ _))

def start (this : ℕ) : Client := ⟨init this, []⟩

/-- The list has the elements that have been added, in order. -/
def Built (this : ℕ) (c : Client) : Prop :=
  c.heap.this = this ∧ ∃ l, Represents c.heap l ∧ Ordered l ∧ l.Perm c.added

theorem addSegment_this (h : SegmentHeap) (n s l ref : ℕ) :
    (h.addSegment n s l ref).this = h.this := by
  rw [addSegment]
  split <;> rfl

theorem run_built {this : ℕ} {ops : List Add} {c : Client} (h : machine.Run (start this) ops c) :
    Built this c := by
  refine h.invariant ⟨rfl, [], init_represents this, ⟨nofun, List.Pairwise.nil⟩,
    List.Perm.refl _⟩ ?_
  rintro c op ⟨hthis, l, hrep, ho, hperm⟩ ⟨hn, hrange, hdisjoint⟩
  obtain ⟨l', hrep', ho', hperm'⟩ := hrep.addSegment op.ref ho hn hrange
    fun e he => hdisjoint e (hperm.mem_iff.mp he)
  exact ⟨(addSegment_this _ _ _ _ _).trans hthis, l', hrep', ho', hperm'.trans (hperm.cons _)⟩

/-- What the calls of `DeleteSegment` do with the segments that have been added, apart from the
sets of processors. -/
def Deletes (c : Client) (a b : ℕ) (calls : List (Found × SegmentHeap)) (h' : SegmentHeap) :
    Prop :=
  h'.this = c.heap.this ∧
  ∃ l, l.Perm c.added ∧ Ordered l ∧ Represents h' (l.filter fun e => ¬ Inside a b e.2) ∧
    List.Forall₂ (Reports a b) calls (l.filter fun e => Meets a b e.2) ∧
    ∀ x, (∀ e ∈ l, Inside a b e.2 → ¬ Has x e.2) → h'.findSegment x = c.heap.findSegment x

/-- **Restarting.** The calls end; they remove the segments in the range, report those that stick
out of it once, and leave the others in order and what is found outside the removed ones. The
sets that they hand out all exist if and only if no segment lies in the range. -/
theorem run_DeleteSegment_iff {this : ℕ} {ops : List Add} {c : Client}
    (h : machine.Run (start this) ops c) (a b : ℕ) :
    ∃ calls h', deleteLoop a b c.heap.nodes.card c.heap this = some (calls, h') ∧
      Deletes c a b calls h' ∧
      ((∀ call ∈ calls, call.1.set ∈ call.2.nodes) ↔ ∀ e ∈ c.added, ¬ Inside a b e.2) := by
  obtain ⟨rfl, l, hrep, ho, hperm⟩ := run_built h
  have hlen : l.length < c.heap.nodes.card := by
    rw [hrep.card]
    exact Nat.lt_succ_self _
  obtain ⟨calls, h', hloop, hsame, hrep', hcalls⟩ :=
    (show Represents c.heap ([] ++ l) from hrep).deleteLoop (a := a) (b := b) ho hlen
  refine ⟨calls, h', hloop, ⟨hsame, l, hperm, ho, hrep', hcalls, fun x hx => ?_⟩, ?_⟩
  · rw [nil_append] at hrep'
    rw [hrep'.findSegment, hrep.findSegment, List.find?_filter]
    refine congrArg _ (List.find?_congr fun e he => ?_)
    by_cases hhas : Has x e.2
    · have hnot : ¬ Inside a b e.2 := fun hin => hx e he hin hhas
      simp [hhas, hnot]
    · simp [hhas]
  · have hsets : (∀ call ∈ calls, call.1.set ∈ call.2.nodes) ↔
        ∀ e ∈ l.filter fun e => Meets a b e.2, ¬ Inside a b e.2 := by
      clear hloop
      generalize l.filter (fun e => decide (Meets a b e.2)) = found at hcalls
      induction hcalls with
      | nil => simp
      | cons hreport _ ih =>
        rw [List.forall_mem_cons, List.forall_mem_cons, ih]
        exact and_congr_left fun _ => hreport.2.2.2.2.2
    rw [hsets]
    constructor
    · intro hall e he hin
      have hmem := hperm.mem_iff.mpr he
      exact hall e (List.mem_filter.mpr ⟨hmem, decide_eq_true (ho.inside_meets hmem hin)⟩) hin
    · intro hall e he
      exact hall e (hperm.mem_iff.mp (List.mem_of_mem_filter he))

/-- Two segments, of which one lies in the range and the other one sticks out of it. -/
theorem run_DeleteSegment_iff_partial : ∃ c : Client, ∃ calls h', deleteLoop 15 30
      c.heap.nodes.card c.heap 0 = some (calls, h') ∧ Deletes c 15 30 calls h' ∧
      (calls.map fun call => call.1.deleted) = [false, true] := by
  have hrun : machine.Run (start 0) [⟨2, 20, 10, 7⟩, ⟨1, 10, 10, 8⟩] _ :=
    Machine.Admits.run (by decide +kernel)
  obtain ⟨calls, h', hloop, hdeletes, -⟩ := run_DeleteSegment_iff hrun 15 30
  refine ⟨_, calls, h', hloop, hdeletes, ?_⟩
  have hflags : (deleteLoop 15 30
      ([⟨2, 20, 10, 7⟩, ⟨1, 10, 10, 8⟩].foldl machine.step (start 0)).heap.nodes.card
      ([⟨2, 20, 10, 7⟩, ⟨1, 10, 10, 8⟩].foldl machine.step (start 0)).heap 0).map
      (fun r => r.1.map fun call => call.1.deleted) = some [false, true] := by
    decide +kernel
  rw [hloop] at hflags
  exact Option.some.inj hflags

/-- The set of a segment that has been deleted is handed out. -/
theorem run_DeleteSegment_dangling : ¬ ∀ (ops : List Add) (c : Client),
    machine.Run (start 0) ops c → ∀ (a b : ℕ) (calls : List (Found × SegmentHeap)) h',
      deleteLoop a b c.heap.nodes.card c.heap 0 = some (calls, h') →
        ∀ call ∈ calls, call.1.set ∈ call.2.nodes := by
  intro hall
  have hrun : machine.Run (start 0) [⟨1, 10, 10, 7⟩] _ := Machine.Admits.run (by decide +kernel)
  have hexists : (deleteLoop 10 20 ([⟨1, 10, 10, 7⟩].foldl machine.step (start 0)).heap.nodes.card
      ([⟨1, 10, 10, 7⟩].foldl machine.step (start 0)).heap 0).map
      (fun r => r.1.map fun call => decide (call.1.set ∈ call.2.nodes)) = some [false] := by
    decide +kernel
  obtain ⟨r, hloop, hr⟩ := Option.map_eq_some_iff.mp hexists
  obtain ⟨call, hcall, hflag⟩ := List.map_eq_singleton_iff.mp hr
  have hset := hall _ _ hrun 10 20 r.1 r.2 hloop call (hcall ▸ mem_cons_self)
  exact of_decide_eq_false hflag hset

end SegmentHeap

end K42
