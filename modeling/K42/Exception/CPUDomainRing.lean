import K42.Exception.DispatchQueue
import K42.Lib.Circle
import K42.Lib.Update
import Mathlib.Algebra.Order.BigOperators.Group.Finset
import Mathlib.Data.List.TakeWhile

/-!
# The rings of the CPU domains

The annexes of a domain are on a ring of `cpuDomainNext` pointers, and `currentPA` points to one of
them. `stillRunnable` drops the annexes that it passes over, which changes the pointers it follows.
`Rings s ring` relates the pointers to the lists of annexes that the dispatch queue is described
with.

An operation of the dispatch queue that `removeProcessAnnex` calls first is an operation of its
own.
-/

open Function (update update_cases update_of_ne update_self update_eq_self)
open List (mem_cons mem_cons_self length_cons)

namespace K42

open Linked Circle

/-- The pointers of the domains and of the annexes, and the number of annexes that the statistics
of the dispatch queue count as runnable. -/
structure CPUDomainRing where
  currentPA : ℕ → Option ℕ
  cpuDomainNext : ℕ → Option ℕ
  cpuDomainAnnex : ℕ → Option ℕ
  consumedTicks : ℕ → SysTime
  quantum : ℕ → SysTime
  runnableDispatcherCount : ℕ

namespace CPUDomainRing

variable {s s' : CPUDomainRing} {ring : ℕ → List ℕ} {d pa : ℕ}

/-! ## The operations -/

def statPARunnable (s : CPUDomainRing) : CPUDomainRing :=
  { s with runnableDispatcherCount := s.runnableDispatcherCount + 1 }

def statPANotRunnable (s : CPUDomainRing) : CPUDomainRing :=
  { s with runnableDispatcherCount := s.runnableDispatcherCount - 1 }

def setNext (s : CPUDomainRing) (pa : ℕ) (next : Option ℕ) : CPUDomainRing :=
  { s with cpuDomainNext := update s.cpuDomainNext pa next }

def setCurrent (s : CPUDomainRing) (d : ℕ) (pa : Option ℕ) : CPUDomainRing :=
  { s with currentPA := update s.currentPA d pa }

def addProcessAnnex (s : CPUDomainRing) (d pa : ℕ) : CPUDomainRing :=
  let s := s.statPARunnable
  match s.currentPA d with
  | none => (s.setNext pa (some pa)).setCurrent d (some pa)
  | some cur =>
    let s := s.setNext pa (s.cpuDomainNext cur)
    s.setNext cur (some pa)

/-- None if the list is empty or the annex is not on it. The search takes at most as many turns as
there are annexes on rings. -/
def removeProcessAnnex (s : CPUDomainRing) (d pa : ℕ) : Option CPUDomainRing :=
  match s.currentPA d with
  | none => none
  | some cur =>
    match findPrev s.cpuDomainNext cur pa s.runnableDispatcherCount cur with
    | none => none
    | some prev =>
      let s :=
        if prev = pa then s.setCurrent d none
        else
          let s := s.setNext prev (s.cpuDomainNext pa)
          if cur = pa then s.setCurrent d (s.cpuDomainNext pa) else s
      some (s.setNext pa none).statPANotRunnable

/-- The annex leaves the ring because it cannot run. -/
def drop (s : CPUDomainRing) (pa : ℕ) : CPUDomainRing := (s.setNext pa none).statPANotRunnable

/-- The loop of `stillRunnable`, with `pa` to be looked at next. -/
def scan (canRun : ℕ → Bool) (d cur : ℕ) : ℕ → CPUDomainRing → ℕ → Option (Bool × CPUDomainRing)
  | 0, _, _ => none
  | fuel + 1, s, pa =>
    if pa = cur then some (false, (s.drop cur).setCurrent d none)
    else if canRun pa then some (true, (s.setNext cur (some pa)).setCurrent d (some pa))
    else
      match s.cpuDomainNext pa with
      | none => none
      | some next => scan canRun d cur fuel (s.drop pa) next

/-- `canRun` says which annexes are runnable or await their dispatch in the kernel. None if there
is no annex. -/
def stillRunnable (s : CPUDomainRing) (canRun : ℕ → Bool) (d : ℕ) :
    Option (Bool × CPUDomainRing) :=
  match s.currentPA d with
  | none => none
  | some cur =>
    if canRun cur then some (true, s)
    else
      match s.cpuDomainNext cur with
      | none => none
      | some pa => scan canRun d cur s.runnableDispatcherCount s pa

/-- The part of `adjustQuantum` that concerns the ring. None if there is no annex. -/
def adjustQuantum (s : CPUDomainRing) (d : ℕ) (delta : SysTime) : Option CPUDomainRing :=
  let s := { s with
    consumedTicks := update s.consumedTicks d (s.consumedTicks d + delta) }
  if s.quantum d ≤ s.consumedTicks d then
    match s.currentPA d with
    | none => none
    | some cur =>
      some ({ s with consumedTicks := update s.consumedTicks d 0 }.setCurrent d
        (s.cpuDomainNext cur))
  else some s

/-- None if the annex belongs to another domain or is on no ring. -/
def makeCurrent (s : CPUDomainRing) (d pa : ℕ) : Option CPUDomainRing :=
  if s.cpuDomainAnnex pa = some d ∧ s.cpuDomainNext pa ≠ none then some (s.setCurrent d (some pa))
  else none

inductive Op
  | attach (pa d : ℕ)
  | detach (pa : ℕ)
  | addProcessAnnex (d pa : ℕ)
  | removeProcessAnnex (d pa : ℕ)
  | stillRunnable (canRun : ℕ → Bool) (d : ℕ)
  | adjustQuantum (d : ℕ) (delta : SysTime)
  | makeCurrent (d pa : ℕ)

def run (s : CPUDomainRing) : Op → Option CPUDomainRing
  | .attach pa d =>
    some { s with cpuDomainAnnex := update s.cpuDomainAnnex pa (some d) }
  | .detach pa => some { s with cpuDomainAnnex := update s.cpuDomainAnnex pa none }
  | .addProcessAnnex d pa => some (s.addProcessAnnex d pa)
  | .removeProcessAnnex d pa => s.removeProcessAnnex d pa
  | .stillRunnable canRun d => (s.stillRunnable canRun d).map Prod.snd
  | .adjustQuantum d delta => s.adjustQuantum d delta
  | .makeCurrent d pa => s.makeCurrent d pa

/-- What the callers see to: an annex is put on the ring of its own domain when it is on none
(`makeReady`), taken off it when it is on it (`makeNotReady`), changes its domain when it is on no
ring, and a domain is asked only while it has annexes. -/
def Admissible (s : CPUDomainRing) : Op → Prop
  | .attach pa _ => s.cpuDomainAnnex pa = none ∧ s.cpuDomainNext pa = none
  | .detach pa => s.cpuDomainNext pa = none
  | .addProcessAnnex d pa => s.cpuDomainAnnex pa = some d ∧ s.cpuDomainNext pa = none
  | .removeProcessAnnex d pa => s.cpuDomainAnnex pa = some d ∧ s.cpuDomainNext pa ≠ none
  | .stillRunnable _ d => s.currentPA d ≠ none
  | .adjustQuantum d _ => s.currentPA d ≠ none
  | .makeCurrent d pa => s.cpuDomainAnnex pa = some d ∧ s.cpuDomainNext pa ≠ none

def calls : Machine CPUDomainRing Op where
  step s op := (s.run op).getD s
  adm := Admissible

/-- Domains without annexes, whatever their quantums. -/
def init (quantum : ℕ → SysTime) : CPUDomainRing where
  currentPA _ := none
  cpuDomainNext _ := none
  cpuDomainAnnex _ := none
  consumedTicks _ := 0
  quantum := quantum
  runnableDispatcherCount := 0

/-! ## The rings as lists -/

/-- From `currentPA` on, the pointers of each domain go round the annexes of `ring`; these are
exactly the annexes of the domain that have a pointer. -/
structure Rings (s : CPUDomainRing) (ring : ℕ → List ℕ) : Prop where
  round : ∀ d, Round s.cpuDomainNext (s.currentPA d) (ring d)
  mem : ∀ d pa, pa ∈ ring d ↔ s.cpuDomainAnnex pa = some d ∧ s.cpuDomainNext pa ≠ none
  attached : ∀ pa, s.cpuDomainNext pa ≠ none → s.cpuDomainAnnex pa ≠ none
  count : ∃ domains : Finset ℕ, (∀ d ∉ domains, ring d = []) ∧
    s.runnableDispatcherCount = ∑ d ∈ domains, (ring d).length

theorem Rings.length_le (h : Rings s ring) (d : ℕ) :
    (ring d).length ≤ s.runnableDispatcherCount := by
  obtain ⟨domains, houtside, hcount⟩ := h.count
  rw [hcount]
  by_cases hd : d ∈ domains
  · exact Finset.single_le_sum (f := fun d => (ring d).length) (fun _ _ => Nat.zero_le _) hd
  · rw [houtside d hd]
    exact Nat.zero_le _

theorem Rings.change (h : Rings s ring) {l : List ℕ}
    (hround : Round s'.cpuDomainNext (s'.currentPA d) l)
    (hcurrent : ∀ d', d' ≠ d → s'.currentPA d' = s.currentPA d')
    (hannex : s'.cpuDomainAnnex = s.cpuDomainAnnex)
    (hnext : ∀ pa, s.cpuDomainAnnex pa ≠ some d → s'.cpuDomainNext pa = s.cpuDomainNext pa)
    (hmem : ∀ pa, pa ∈ l ↔ s.cpuDomainAnnex pa = some d ∧ s'.cpuDomainNext pa ≠ none)
    (hcount : s'.runnableDispatcherCount + (ring d).length =
      s.runnableDispatcherCount + l.length) :
    Rings s' (update ring d l) := by
  refine ⟨?_, ?_, ?_, ?_⟩
  · intro d'
    refine update_cases hround (fun d' hd => ?_) d'
    rw [hcurrent d' hd]
    refine (h.round d').congr fun pa hpa => hnext pa ?_
    rw [((h.mem d' pa).1 hpa).1]
    exact fun heq => hd (Option.some.inj heq)
  · intro d' pa
    rw [hannex]
    refine update_cases (hmem pa) (fun d' hd => ?_) d'
    rw [h.mem d' pa]
    refine and_congr_right fun hpa => ?_
    rw [hnext pa]
    rw [hpa]
    exact fun heq => hd (Option.some.inj heq)
  · intro pa hpa
    rw [hannex]
    by_cases hd : s.cpuDomainAnnex pa = some d
    · rw [hd]
      exact Option.some_ne_none d
    · rw [hnext pa hd] at hpa
      exact h.attached pa hpa
  · obtain ⟨domains, houtside, hsum⟩ := h.count
    refine ⟨insert d domains, ?_, ?_⟩
    · intro d' hd'
      rw [Finset.mem_insert, not_or] at hd'
      rw [update_of_ne hd'.1]
      exact houtside d' hd'.2
    · have hold : ∑ d' ∈ insert d domains, (ring d').length = s.runnableDispatcherCount := by
        rw [hsum]
        by_cases hd : d ∈ domains
        · rw [Finset.insert_eq_of_mem hd]
        · rw [Finset.sum_insert hd, houtside d hd]
          simp
      have hd := Finset.mem_insert_self d domains
      rw [← Finset.add_sum_erase _ _ hd] at hold ⊢
      have hrest : ∑ d' ∈ (insert d domains).erase d, (update ring d l d').length =
          ∑ d' ∈ (insert d domains).erase d, (ring d').length := by
        refine Finset.sum_congr rfl fun d' hd' => ?_
        rw [update_of_ne (Finset.ne_of_mem_erase hd')]
      rw [update_self, hrest]
      omega

theorem Rings.turn (h : Rings s ring) {cur : Option ℕ} {l : List ℕ}
    (hround : Round s.cpuDomainNext cur l) (hperm : l.Perm (ring d)) :
    Rings (s.setCurrent d cur) (update ring d l) := by
  refine h.change ?_ ?_ rfl (fun _ _ => rfl) ?_ ?_
  · show Round s.cpuDomainNext (update s.currentPA d cur d) l
    rw [update_self]
    exact hround
  · exact fun d' hd => update_of_ne hd ..
  · exact fun pa => hperm.mem_iff.trans (h.mem d pa)
  · rw [hperm.length_eq]
    rfl

theorem Rings.cur_eq (h : Rings s ring) (hcur : s.currentPA d ≠ none) :
    ∃ cur m, s.currentPA d = some cur ∧ ring d = cur :: m ∧
      Round s.cpuDomainNext (some cur) (cur :: m) := by
  obtain ⟨cur, hsome⟩ := Option.ne_none_iff_exists'.1 hcur
  have hround := h.round d
  rw [hsome] at hround
  obtain ⟨m, hm, -, -⟩ := hround.cons
  refine ⟨cur, m, hsome, hm, ?_⟩
  rw [← hm]
  exact hround

/-! ### Adding and removing an annex -/

/-- A new annex goes behind the current one, and is the current one if there is none. -/
def added (pa : ℕ) : List ℕ → List ℕ
  | [] => [pa]
  | cur :: rest => cur :: pa :: rest

theorem mem_added {l : List ℕ} {p : ℕ} : p ∈ added pa l ↔ p = pa ∨ p ∈ l := by
  cases l with
  | nil => simp [added]
  | cons cur rest =>
    simp only [added, mem_cons]
    tauto

theorem length_added (pa : ℕ) (l : List ℕ) : (added pa l).length = l.length + 1 := by
  cases l with
  | nil => rfl
  | cons cur rest => rfl

theorem Rings.addProcessAnnex (h : Rings s ring)
    (hadm : s.cpuDomainAnnex pa = some d ∧ s.cpuDomainNext pa = none) :
    Rings (s.addProcessAnnex d pa) (update ring d (added pa (ring d))) := by
  obtain ⟨hannex, hnone⟩ := hadm
  have hnot : pa ∉ ring d := fun hmem => ((h.mem d pa).1 hmem).2 hnone
  -- both cases give the annex, and perhaps the current one, a pointer
  have hmem : ∀ {next : ℕ → Option ℕ}, next pa ≠ none →
      (∀ p, p ≠ pa → (next p ≠ none ↔ s.cpuDomainNext p ≠ none)) →
      ∀ p, p ∈ added pa (ring d) ↔ s.cpuDomainAnnex p = some d ∧ next p ≠ none := by
    intro next hpa hother p
    rw [mem_added]
    by_cases hp : p = pa
    · subst p
      exact ⟨fun _ => ⟨hannex, hpa⟩, fun _ => .inl rfl⟩
    · rw [h.mem, hother p hp]
      exact ⟨fun hp' => hp'.resolve_left hp, .inr⟩
  have hcount : s.runnableDispatcherCount + 1 + (ring d).length =
      s.runnableDispatcherCount + (added pa (ring d)).length := by
    rw [length_added]
    omega
  unfold CPUDomainRing.addProcessAnnex
  cases hcur : s.currentPA d with
  | none =>
    have hnil : ring d = [] := ((h.round d).eq_nil_iff).2 hcur
    have hcur' : s.statPARunnable.currentPA d = none := hcur
    simp only [hcur']
    refine h.change ?_ ?_ rfl ?_ ?_ hcount
    · show Round (update s.cpuDomainNext pa (some pa))
        (update s.currentPA d (some pa) d) _
      rw [update_self, hnil]
      exact round_single s.cpuDomainNext pa
    · exact fun d' hd => update_of_ne hd ..
    · intro p hp
      have hppa : p ≠ pa := by
        rintro rfl
        exact hp hannex
      exact update_of_ne hppa ..
    · refine @hmem (update s.cpuDomainNext pa (some pa)) ?_ ?_
      · rw [update_self]
        exact Option.some_ne_none pa
      · intro p hp
        rw [update_of_ne hp]
  | some cur =>
    obtain ⟨cur', m, hsome, hring, hround⟩ := h.cur_eq (d := d) (by rw [hcur]; exact nofun)
    obtain rfl : cur = cur' := by
      rw [hcur] at hsome
      exact Option.some.inj hsome
    have hcur' : s.statPARunnable.currentPA d = some cur := hcur
    have hcurmem : s.cpuDomainAnnex cur = some d ∧ s.cpuDomainNext cur ≠ none := by
      rw [← h.mem, hring]
      exact mem_cons_self
    have hnext : ((s.statPARunnable.setNext pa (s.statPARunnable.cpuDomainNext cur)).setNext cur
        (some pa)).cpuDomainNext =
        update (update s.cpuDomainNext pa (s.cpuDomainNext cur)) cur (some pa) :=
      rfl
    simp only [hcur']
    refine h.change ?_ (fun _ _ => rfl) rfl ?_ ?_ hcount
    · rw [hnext]
      show Round _ (s.currentPA d) _
      rw [hcur, hring]
      rw [hring] at hnot
      exact hround.insert hnot
    · intro p hp
      have hppa : p ≠ pa := by
        rintro rfl
        exact hp hannex
      have hpcur : p ≠ cur := by
        rintro rfl
        exact hp hcurmem.1
      rw [hnext, update_of_ne hpcur, update_of_ne hppa]
    · rw [hnext]
      have hpacur : pa ≠ cur := by
        rintro rfl
        exact hcurmem.2 hnone
      refine hmem ?_ ?_
      · rw [update_of_ne hpacur, update_self]
        exact hcurmem.2
      · refine update_cases (fun _ => ?_) fun p _ hp => ?_
        · exact ⟨fun _ => hcurmem.2, fun _ => Option.some_ne_none pa⟩
        · rw [update_of_ne hp]

theorem Rings.removeProcessAnnex (h : Rings s ring)
    (hadm : s.cpuDomainAnnex pa = some d ∧ s.cpuDomainNext pa ≠ none) :
    ∃ s', s.removeProcessAnnex d pa = some s' ∧
      Rings s' (update ring d ((ring d).erase pa)) := by
  have hpa : pa ∈ ring d := (h.mem d pa).2 hadm
  have hcur : s.currentPA d ≠ none := by
    rw [Ne, ← (h.round d).eq_nil_iff]
    exact List.ne_nil_of_mem hpa
  obtain ⟨cur, m, hsome, hring, hround⟩ := h.cur_eq hcur
  have hlength := h.length_le d
  rw [hring] at hpa hlength
  obtain ⟨prev, hprev, hfind, hnext⟩ := hround.findPrev hpa hlength
  have hnodup := hround.nodup
  -- what the ring is to be, by the pointers before `pa` loses its own
  have hkey : ∀ {next : ℕ → Option ℕ} {cur' : Option ℕ}, Round next cur' ((cur :: m).erase pa) →
      (∀ p, p ≠ pa → (next p ≠ none ↔ s.cpuDomainNext p ≠ none)) →
      (∀ p, s.cpuDomainAnnex p ≠ some d → next p = s.cpuDomainNext p) →
      Rings { s with
        currentPA := update s.currentPA d cur'
        cpuDomainNext := update next pa none
        runnableDispatcherCount := s.runnableDispatcherCount - 1 }
        (update ring d ((ring d).erase pa)) := by
    intro next cur' hround' hsame hother
    rw [hring]
    refine h.change ?_ ?_ rfl ?_ ?_ ?_
    · show Round (update next pa none) (update s.currentPA d cur' d) _
      rw [update_self]
      refine hround'.congr fun p hp => ?_
      have hne : p ≠ pa := by
        rintro rfl
        exact hnodup.not_mem_erase hp
      exact update_of_ne hne ..
    · exact fun d' hd => update_of_ne hd ..
    · intro p hp
      have hne : p ≠ pa := by
        rintro rfl
        exact hp hadm.1
      show update next pa none p = _
      rw [update_of_ne hne, hother p hp]
    · intro p
      show _ ↔ _ ∧ update next pa none p ≠ none
      rw [hnodup.mem_erase_iff]
      refine update_cases ⟨fun hp => absurd rfl hp.1, fun hp => absurd rfl hp.2⟩ (fun p hne => ?_) p
      rw [hsame p hne, ← h.mem, hring]
      exact ⟨And.right, fun hp => ⟨hne, hp⟩⟩
    · show s.runnableDispatcherCount - 1 + _ = _
      rw [hring, List.length_erase_of_mem hpa, length_cons]
      rw [length_cons] at hlength
      omega
  rw [CPUDomainRing.removeProcessAnnex, hsome]
  simp only [hfind]
  refine ⟨_, rfl, ?_⟩
  by_cases hprevpa : prev = pa
  · -- the only annex of the ring
    subst prev
    have hsingle : cur :: m = [pa] := hround.eq_single hpa hnext
    have hempty : Round s.cpuDomainNext none ((cur :: m).erase pa) := by
      rw [hsingle, List.erase_cons_head]
      rfl
    rw [if_pos rfl]
    exact hkey hempty (fun _ _ => Iff.rfl) fun _ _ => rfl
  · have hremoved := hround.remove hprev hnext hprevpa
    have hprevmem : s.cpuDomainAnnex prev = some d ∧ s.cpuDomainNext prev ≠ none := by
      rw [← h.mem, hring]
      exact hprev
    have hsame : ∀ p, p ≠ pa → (update s.cpuDomainNext prev (s.cpuDomainNext pa) p ≠ none ↔
        s.cpuDomainNext p ≠ none) := by
      intro p _
      exact update_cases ⟨fun _ => hprevmem.2, fun _ => hadm.2⟩ (fun _ _ => Iff.rfl) p
    have hother : ∀ p, s.cpuDomainAnnex p ≠ some d →
        update s.cpuDomainNext prev (s.cpuDomainNext pa) p = s.cpuDomainNext p := by
      intro p hp
      have hne : p ≠ prev := by
        rintro rfl
        exact hp hprevmem.1
      exact update_of_ne hne ..
    have hdone := hkey hremoved hsame hother
    rw [if_neg hprevpa]
    by_cases hcurpa : cur = pa
    · rw [if_pos hcurpa] at hdone ⊢
      have hpanext : update s.cpuDomainNext prev (s.cpuDomainNext pa) pa =
          s.cpuDomainNext pa := update_of_ne (Ne.symm hprevpa) ..
      show Rings { s with
        currentPA := update s.currentPA d
          (update s.cpuDomainNext prev (s.cpuDomainNext pa) pa)
        cpuDomainNext := _
        runnableDispatcherCount := _ } _
      rw [hpanext]
      exact hdone
    · rw [if_neg hcurpa] at hdone ⊢
      rw [← hsome, update_eq_self] at hdone
      exact hdone

/-! ### Looking for an annex that can run -/

/-- The annexes of `l` are dropped one after the other. -/
def dropAll (s : CPUDomainRing) (l : List ℕ) : CPUDomainRing := l.foldl drop s

theorem cpuDomainNext_dropAll (s : CPUDomainRing) (l : List ℕ) (p : ℕ) :
    (s.dropAll l).cpuDomainNext p = if p ∈ l then none else s.cpuDomainNext p := by
  induction l generalizing s with
  | nil => rfl
  | cons a l ih =>
    have hdrop : (s.drop a).cpuDomainNext p = if p = a then none else s.cpuDomainNext p := by
      show update s.cpuDomainNext a none p = _
      rw [Function.update_apply]
    show ((s.drop a).dropAll l).cpuDomainNext p = _
    rw [ih, hdrop]
    by_cases hpl : p ∈ l
    · rw [if_pos hpl, if_pos (List.mem_cons_of_mem a hpl)]
    · rw [if_neg hpl]
      by_cases hpa : p = a
      · rw [if_pos hpa, if_pos (hpa ▸ mem_cons_self)]
      · rw [if_neg hpa, if_neg]
        rw [mem_cons, not_or]
        exact ⟨hpa, hpl⟩

theorem runnableDispatcherCount_dropAll (s : CPUDomainRing) (l : List ℕ) :
    (s.dropAll l).runnableDispatcherCount = s.runnableDispatcherCount - l.length := by
  induction l generalizing s with
  | nil => rfl
  | cons a l ih =>
    show ((s.drop a).dropAll l).runnableDispatcherCount = _
    rw [ih, length_cons]
    show s.runnableDispatcherCount - 1 - l.length = _
    omega

theorem dropAll_frame (s : CPUDomainRing) (l : List ℕ) : (s.dropAll l).currentPA = s.currentPA ∧
      (s.dropAll l).cpuDomainAnnex = s.cpuDomainAnnex := by
  induction l generalizing s with
  | nil => exact ⟨rfl, rfl⟩
  | cons a l ih => exact ih (s.drop a)

theorem scan_eq (canRun : ℕ → Bool) {cur fuel : ℕ} {m : List ℕ} {p : ℕ}
    (hleads : Leads s.cpuDomainNext (some p) m (some cur)) (hnodup : m.Nodup) (hcur : cur ∉ m)
    (hfuel : m.length < fuel) :
    scan canRun d cur fuel s p =
      match m.dropWhile fun pa => !canRun pa with
      | [] => some (false, ((s.dropAll m).drop cur).setCurrent d none)
      | pa :: _ =>
        some (true, ((s.dropAll (m.takeWhile fun pa => !canRun pa)).setNext cur
          (some pa)).setCurrent d (some pa)) := by
  induction m generalizing s p fuel with
  | nil =>
    obtain ⟨fuel, rfl⟩ := Nat.exists_eq_add_one_of_ne_zero (Nat.ne_of_gt hfuel)
    obtain rfl : p = cur := Option.some.inj hleads
    exact if_pos rfl
  | cons a m ih =>
    obtain ⟨fuel, rfl⟩ := Nat.exists_eq_add_one_of_ne_zero (Nat.ne_of_gt (Nat.zero_lt_of_lt hfuel))
    obtain ⟨hpa, hrest⟩ := hleads
    obtain rfl : p = a := Option.some.inj hpa
    obtain ⟨hpm, hm⟩ := List.nodup_cons.1 hnodup
    have hne : p ≠ cur := by
      rintro rfl
      exact hcur mem_cons_self
    rw [scan, if_neg hne]
    by_cases hrun : canRun p = true
    · rw [if_pos hrun, List.dropWhile_cons_of_neg (by simpa using hrun),
        List.takeWhile_cons_of_neg (by simpa using hrun)]
      rfl
    · have hskip : (!canRun p) = true := by simpa using hrun
      -- the pointer is read before it is cleared
      obtain ⟨next, hnext, hleads'⟩ : ∃ next, s.cpuDomainNext p = some next ∧
          Leads (s.drop p).cpuDomainNext (some next) m (some cur) := by
        have hkeep : Leads (s.drop p).cpuDomainNext (s.cpuDomainNext p) m (some cur) := by
          refine hrest.congr fun b hb => ?_
          have hbp : b ≠ p := by
            rintro rfl
            exact hpm hb
          exact update_of_ne hbp ..
        cases hnext : s.cpuDomainNext p with
        | none =>
          rw [hnext] at hrest
          cases m with
          | nil => exact absurd hrest nofun
          | cons b m => exact absurd hrest.1 nofun
        | some next =>
          rw [hnext] at hkeep
          exact ⟨next, rfl, hkeep⟩
      rw [if_neg hrun, hnext, List.dropWhile_cons_of_pos (p := fun pa => !canRun pa) hskip,
        List.takeWhile_cons_of_pos (p := fun pa => !canRun pa) hskip]
      exact ih hleads' hm (fun hmem => hcur (List.mem_cons_of_mem _ hmem))
        (Nat.lt_of_succ_lt_succ hfuel)

theorem Rings.stillRunnable (h : Rings s ring) (hadm : s.currentPA d ≠ none) (canRun : ℕ → Bool) :
    ∃ s', s.stillRunnable canRun d =
        some ((CPUDomainAnnex.stillRunnable canRun (ring d)).1, s') ∧
      Rings s' (update ring d (CPUDomainAnnex.stillRunnable canRun (ring d)).2) := by
  obtain ⟨cur, m, hsome, hring, hround⟩ := h.cur_eq hadm
  obtain ⟨m', heq, hnodup, hleads⟩ := hround.cons
  cases heq
  obtain ⟨hcurm, hm⟩ := List.nodup_cons.1 hnodup
  rw [CPUDomainRing.stillRunnable, hsome, hring, CPUDomainAnnex.stillRunnable]
  simp only
  by_cases hrun : canRun cur = true
  · rw [if_pos hrun, if_pos hrun]
    refine ⟨s, rfl, ?_⟩
    rw [← hring, update_eq_self]
    exact h
  · rw [if_neg hrun, if_neg hrun]
    obtain ⟨p, hp⟩ := Option.ne_none_iff_exists'.1 (hround.next_ne_none mem_cons_self)
    have hlength := h.length_le d
    rw [hring, length_cons] at hlength
    rw [hp] at hleads ⊢
    simp only
    rw [scan_eq canRun hleads hm hcurm hlength]
    have hsplit := List.takeWhile_append_dropWhile (p := fun pa => !canRun pa) (l := m)
    generalize m.takeWhile (fun pa => !canRun pa) = skipped at hsplit ⊢
    cases hdrop : m.dropWhile fun pa => !canRun pa with
    | nil =>
      -- the ring is cleared
      have hnext : ∀ q, (((s.dropAll m).drop cur).setCurrent d none).cpuDomainNext q =
          if q ∈ cur :: m then none else s.cpuDomainNext q := by
        intro q
        show update (s.dropAll m).cpuDomainNext cur none q = _
        rw [Function.update_apply, cpuDomainNext_dropAll]
        by_cases hq : q = cur
        · rw [if_pos hq, if_pos (hq ▸ mem_cons_self)]
        · simp [mem_cons, hq]
      refine ⟨_, rfl, h.change ?_ ?_ (dropAll_frame s m).2 ?_ ?_ ?_⟩
      · show Round _ (update (s.dropAll m).currentPA d none d) []
        rw [update_self]
        rfl
      · intro d' hd
        show update (s.dropAll m).currentPA d none d' = _
        rw [update_of_ne hd, (dropAll_frame s m).1]
      · intro q hq
        rw [hnext, if_neg]
        intro hmem
        rw [← hring] at hmem
        exact hq ((h.mem d q).1 hmem).1
      · intro q
        rw [hnext]
        refine ⟨nofun, fun ⟨hq, hne⟩ => absurd ?_ hne⟩
        by_cases hmem : q ∈ cur :: m
        · exact if_pos hmem
        · rw [if_neg hmem]
          by_contra hsome'
          rw [← hring] at hmem
          exact hmem ((h.mem d q).2 ⟨hq, hsome'⟩)
      · show (s.dropAll m).runnableDispatcherCount - 1 + _ = _
        rw [runnableDispatcherCount_dropAll, hring, length_cons, List.length_nil]
        omega
    | cons pa more =>
      rw [hdrop] at hsplit
      subst m
      obtain ⟨hskipped, hrest, hdisjoint⟩ := List.nodup_append.1 hm
      have hnot : ∀ q ∈ pa :: more ++ [cur], q ∉ skipped := by
        intro q hq hmem
        rcases List.mem_append.1 hq with hq | hq
        · exact hdisjoint q hmem q hq rfl
        · rw [List.mem_singleton] at hq
          subst q
          exact hcurm (List.mem_append_left _ hmem)
      have hnext : (((s.dropAll skipped).setNext cur (some pa)).setCurrent d
          (some pa)).cpuDomainNext =
          update (s.dropAll skipped).cpuDomainNext cur (some pa) := rfl
      -- the ring without the annexes passed over, from the annex that can run on
      have hleads' : Leads s.cpuDomainNext (some pa) (pa :: more) (some cur) := by
        obtain ⟨r, -, hr⟩ := leads_append.1 hleads
        have hr' := hr.head_eq (List.cons_ne_nil pa more)
        rw [hr'] at hr
        exact hr
      have hforward := (hround.skip hleads').forward
      rw [update_self] at hforward
      refine ⟨_, rfl, h.change ?_ ?_ (dropAll_frame s skipped).2 ?_ ?_ ?_⟩
      · rw [hnext]
        show Round _ (update (s.dropAll skipped).currentPA d (some pa) d) _
        rw [update_self]
        refine hforward.congr fun q hq => ?_
        rw [Function.update_apply, Function.update_apply, cpuDomainNext_dropAll, if_neg (hnot q hq)]
      · intro d' hd
        show update (s.dropAll skipped).currentPA d (some pa) d' = _
        rw [update_of_ne hd, (dropAll_frame s skipped).1]
      · intro q hq
        have hqring : q ∉ ring d := fun hmem => hq ((h.mem d q).1 hmem).1
        rw [hring, mem_cons, not_or] at hqring
        rw [hnext, update_of_ne hqring.1, cpuDomainNext_dropAll, if_neg]
        exact fun hmem => hqring.2 (List.mem_append_left _ hmem)
      · intro q
        rw [hnext]
        by_cases hq : q = cur
        · subst q
          rw [update_self]
          have hcurmem : s.cpuDomainAnnex cur = some d := by
            refine ((h.mem d cur).1 ?_).1
            rw [hring]
            exact mem_cons_self
          exact ⟨fun _ => ⟨hcurmem, Option.some_ne_none pa⟩, fun _ => by simp⟩
        · rw [update_of_ne hq, cpuDomainNext_dropAll]
          by_cases hmem : q ∈ skipped
          · rw [if_pos hmem]
            exact ⟨fun hq' => absurd hmem (hnot q hq'), fun hq' => absurd rfl hq'.2⟩
          · rw [if_neg hmem, ← h.mem, hring]
            simp [hq, hmem]
      · show (s.dropAll skipped).runnableDispatcherCount + _ = _
        rw [runnableDispatcherCount_dropAll, hring]
        simp only [length_cons, List.length_append, List.length_nil] at hlength ⊢
        omega

/-- The annexes that leave the ring cannot run, and an annex is found if there is one that can; it
is then the current one. -/
theorem stillRunnable_list (canRun : ℕ → Bool) (l : List ℕ) :
    ((CPUDomainAnnex.stillRunnable canRun l).1 = true ↔ ∃ pa ∈ l, canRun pa = true) ∧
      (∀ pa ∈ l, canRun pa = true → pa ∈ (CPUDomainAnnex.stillRunnable canRun l).2) ∧
      ((CPUDomainAnnex.stillRunnable canRun l).1 = true →
        ∃ pa, (CPUDomainAnnex.stillRunnable canRun l).2.head? = some pa ∧ canRun pa = true) := by
  cases l with
  | nil => exact ⟨⟨nofun, nofun⟩, nofun, nofun⟩
  | cons cur rest =>
    rw [CPUDomainAnnex.stillRunnable]
    by_cases hcur : canRun cur = true
    · rw [if_pos hcur]
      exact ⟨⟨fun _ => ⟨cur, mem_cons_self, hcur⟩, fun _ => rfl⟩, fun _ hpa _ => hpa,
        fun _ => ⟨cur, rfl, hcur⟩⟩
    · rw [if_neg hcur]
      have hsplit := List.takeWhile_append_dropWhile (p := fun pa => !canRun pa) (l := rest)
      have hskipped : ∀ pa ∈ rest.takeWhile fun pa => !canRun pa, canRun pa = false := by
        intro pa hpa
        simpa using List.mem_takeWhile_imp hpa
      -- an annex that can run is not passed over
      have hlate : ∀ pa ∈ cur :: rest, canRun pa = true →
          pa ∈ rest.dropWhile fun pa => !canRun pa := by
        intro pa hpa hrun
        rcases mem_cons.1 hpa with rfl | hpa
        · exact absurd hrun hcur
        · rw [← hsplit, List.mem_append] at hpa
          refine hpa.resolve_left fun hmem => ?_
          rw [hskipped pa hmem] at hrun
          cases hrun
      cases hdrop : rest.dropWhile fun pa => !canRun pa with
      | nil =>
        rw [hdrop] at hlate
        refine ⟨⟨nofun, ?_⟩, ?_, nofun⟩
        · rintro ⟨pa, hpa, hrun⟩
          exact absurd (hlate pa hpa hrun) List.not_mem_nil
        · exact fun pa hpa hrun => absurd (hlate pa hpa hrun) List.not_mem_nil
      | cons pa more =>
        have hrun : canRun pa = true := by
          have hhead := List.head?_dropWhile_not (fun pa => !canRun pa) rest
          rw [hdrop] at hhead
          simpa using hhead
        have hmem : pa ∈ rest := by
          rw [← hsplit, hdrop]
          exact List.mem_append_right _ mem_cons_self
        rw [hdrop] at hlate
        refine ⟨⟨fun _ => ⟨pa, List.mem_cons_of_mem _ hmem, hrun⟩, fun _ => rfl⟩, ?_,
          fun _ => ⟨pa, rfl, hrun⟩⟩
        exact fun q hq hqrun => List.mem_append_left _ (hlate q hq hqrun)

/-! ### All operations -/

theorem Rings.adjustQuantum (h : Rings s ring) (hadm : s.currentPA d ≠ none) (delta : SysTime) :
    ∃ s' ring', s.adjustQuantum d delta = some s' ∧ Rings s' ring' := by
  obtain ⟨cur, m, hsome, hring, hround⟩ := h.cur_eq hadm
  -- the clock of a domain is not part of its ring
  have hclock : ∀ consumedTicks, Rings { s with consumedTicks := consumedTicks } ring :=
    fun _ => ⟨h.round, h.mem, h.attached, h.count⟩
  rw [CPUDomainRing.adjustQuantum]
  simp only
  split
  · rw [hsome]
    refine ⟨_, _, rfl, (hclock _).turn (l := m ++ [cur]) hround.forward ?_⟩
    rw [hring]
    exact List.perm_append_comm
  · exact ⟨_, ring, rfl, hclock _⟩

theorem Rings.makeCurrent (h : Rings s ring)
    (hadm : s.cpuDomainAnnex pa = some d ∧ s.cpuDomainNext pa ≠ none) :
    ∃ s' ring', s.makeCurrent d pa = some s' ∧ Rings s' ring' := by
  have hpa := (h.mem d pa).2 hadm
  obtain ⟨l₁, l₂, hsplit⟩ := List.append_of_mem hpa
  have hround := h.round d
  rw [hsplit] at hround
  refine ⟨_, _, if_pos hadm, h.turn hround.rotate ?_⟩
  rw [hsplit]
  exact List.perm_append_comm

theorem Rings.reattach (h : Rings s ring) (hnone : s.cpuDomainNext pa = none) (domain : Option ℕ) :
    Rings { s with cpuDomainAnnex := update s.cpuDomainAnnex pa domain } ring := by
  refine ⟨h.round, ?_, ?_, h.count⟩
  · intro d p
    rw [h.mem]
    by_cases hp : p = pa
    · subst p
      exact ⟨fun hp => absurd hnone hp.2, fun hp => absurd hnone hp.2⟩
    · show _ ↔ update s.cpuDomainAnnex pa domain p = some d ∧ _
      rw [update_of_ne hp]
  · intro p hp
    have hne : p ≠ pa := by
      rintro rfl
      exact hp hnone
    show update s.cpuDomainAnnex pa domain p ≠ none
    rw [update_of_ne hne]
    exact h.attached p hp

theorem Rings.run (h : Rings s ring) {op : Op} (hadm : Admissible s op) :
    ∃ s' ring', s.run op = some s' ∧ Rings s' ring' := by
  cases op with
  | attach pa d => exact ⟨_, ring, rfl, h.reattach hadm.2 (some d)⟩
  | detach pa => exact ⟨_, ring, rfl, h.reattach hadm none⟩
  | addProcessAnnex d pa => exact ⟨_, _, rfl, h.addProcessAnnex hadm⟩
  | removeProcessAnnex d pa =>
    obtain ⟨s', hok, hrings⟩ := h.removeProcessAnnex hadm
    exact ⟨s', _, hok, hrings⟩
  | stillRunnable canRun d =>
    obtain ⟨s', hok, hrings⟩ := h.stillRunnable hadm canRun
    refine ⟨s', _, ?_, hrings⟩
    show (s.stillRunnable canRun d).map Prod.snd = _
    rw [hok]
    rfl
  | adjustQuantum d delta => exact h.adjustQuantum hadm delta
  | makeCurrent d pa => exact h.makeCurrent hadm

theorem init_rings (quantum : ℕ → SysTime) : Rings (init quantum) fun _ => [] where
  round _ := rfl
  mem _ _ := ⟨nofun, fun h => absurd rfl h.2⟩
  attached _ h := absurd rfl h
  count := ⟨∅, fun _ _ => rfl, rfl⟩

/-- In every run the pointers of each domain are a simple cycle through exactly its annexes that
have a pointer, the statistics count them all, and every operation goes through. `stillRunnable`
answers whether an annex can run, makes one current then, and keeps all that can. -/
theorem run_rings (quantum : ℕ → SysTime) {ops : List Op} (hrun : calls.Run (init quantum) ops s) :
    ∃ ring, Rings s ring ∧ (∀ op, Admissible s op → ∃ s', s.run op = some s') ∧
      ∀ canRun d, s.currentPA d ≠ none → ∃ r s', s.stillRunnable canRun d = some (r, s') ∧
        (r = true ↔ ∃ pa ∈ ring d, canRun pa = true) ∧
        (∀ pa, canRun pa = true → s.cpuDomainNext pa ≠ none → s'.cpuDomainNext pa ≠ none) ∧
        (r = true → ∃ pa, s'.currentPA d = some pa ∧ canRun pa = true) := by
  have hinv : ∃ ring, Rings s ring := by
    refine hrun.invariant (I := fun s => ∃ ring, Rings s ring) ⟨_, init_rings quantum⟩ ?_
    rintro s op ⟨ring, h⟩ hadm
    obtain ⟨s', ring', hok, hrings⟩ := h.run hadm
    refine ⟨ring', ?_⟩
    show Rings ((s.run op).getD s) ring'
    rw [hok]
    exact hrings
  obtain ⟨ring, h⟩ := hinv
  refine ⟨ring, h, fun op hadm => ?_, fun canRun d hadm => ?_⟩
  · obtain ⟨s', -, hok, -⟩ := h.run hadm
    exact ⟨s', hok⟩
  · obtain ⟨s', hok, hrings⟩ := h.stillRunnable hadm canRun
    obtain ⟨hanswer, hkeep, hcurrent⟩ := stillRunnable_list canRun (ring d)
    refine ⟨_, s', hok, hanswer, ?_, ?_⟩
    · intro pa hpa hnext
      obtain ⟨d', hd'⟩ := Option.ne_none_iff_exists'.1 (h.attached pa hnext)
      have hmem : pa ∈ ring d' := (h.mem d' pa).2 ⟨hd', hnext⟩
      refine ((hrings.mem d' pa).1 ?_).2
      revert hmem
      exact update_cases (fun hmem => hkeep pa hmem hpa) (fun _ _ => id) d'
    · intro hr
      obtain ⟨pa, hhead, hpa⟩ := hcurrent hr
      have hround := hrings.round d
      rw [update_self] at hround
      exact ⟨pa, hround.head_eq.trans hhead, hpa⟩

instance (s : CPUDomainRing) : ∀ op, Decidable (Admissible s op)
  | .attach .. | .addProcessAnnex .. | .removeProcessAnnex .. | .makeCurrent .. =>
    inferInstanceAs (Decidable (_ ∧ _))
  | .detach _ => inferInstanceAs (Decidable (_ = _))
  | .stillRunnable .. | .adjustQuantum .. => inferInstanceAs (Decidable (_ ≠ _))

instance (s : CPUDomainRing) (op : Op) : Decidable (calls.adm s op) :=
  inferInstanceAs (Decidable (Admissible s op))

/-- Three annexes in one domain; the first one cannot run any more, the quantum is used up, and the
second one leaves. -/
def threeAnnexes : List Op :=
  [.attach 1 7, .addProcessAnnex 7 1, .attach 2 7, .addProcessAnnex 7 2, .attach 3 7,
    .addProcessAnnex 7 3, .stillRunnable (fun pa => pa = 2) 7, .adjustQuantum 7 5,
    .makeCurrent 7 2, .removeProcessAnnex 7 2]

theorem run_rings_threeAnnexes :
    ∃ ring, Rings (threeAnnexes.foldl calls.step (init fun _ => 5)) ring := by
  have hadmits : calls.Admits (init fun _ => 5) threeAnnexes := by decide +kernel
  obtain ⟨ring, hrings, -⟩ := run_rings (fun _ => 5) hadmits.run
  exact ⟨ring, hrings⟩

end CPUDomainRing

end K42
