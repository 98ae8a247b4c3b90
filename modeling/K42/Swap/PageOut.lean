import K42.Swap.FRComputation

/-!
# Pages on their way to the swap device

A page that is written out is marked as doing IO; `putPageInternal` looks its offset up in
`blockHash`, chooses a block, starts the write and records the block. The write completes on its
own: the cache manager may then free the frame, and a fault makes a new one and fills it from the
block that `blockHash` has for the offset.

A step is one of these accesses, each under the lock of the FRComputation, of the device or of the
cache manager.
-/

open Function (update update_of_ne update_self)

namespace K42

/-- The page of an offset: a frame with its contents, one that is being written, one that has been
made by a fault, and one that is being read from a block. `doingIO` is set in the last three. -/
inductive PageOut.Page (κ : Type)
  | absent
  | resident (contents : κ) (dirty : Bool)
  | writing (contents : κ) ( freeAfterIO : Bool)
  | faulting
  | filling (blockID : ℕ)
deriving DecidableEq

/-- Where a thread is in `putPageInternal`; `fresh` says that the block was not found. -/
inductive PageOut.Pc (ο : Type)
  | idle
  | lookUp (o : ο)
  | choose (o : ο) (oldBlockID : Option ℕ)
  | start (o : ο) (blockID : ℕ) (fresh : Bool)
  | record (o : ο) (blockID : ℕ)
  | pending (o : ο)
deriving DecidableEq

/-- The offsets of all FRComputations, with the write in flight of each, if there is one: its block
and whether the device is done with it. `written` is what the last completed write of an offset has
written out, and `notFound` has the fills that have been answered `PAGE_NOT_FOUND`, with what had
been written out. -/
structure PageOut (γ κ τ : Type) where
  fr : FRComputation γ
  disk : ℕ → κ
  pageList : γ × ℕ → PageOut.Page κ
  io : γ × ℕ → Option (ℕ × Bool)
  pc : τ → PageOut.Pc (γ × ℕ)
  written : γ × ℕ → Option κ
  notFound : List ((γ × ℕ) × Option κ)

namespace PageOut

variable {γ κ τ : Type} [DecidableEq γ] [DecidableEq τ]

def init (contents : κ) : PageOut γ κ τ where
  fr := .init
  disk := fun _ => contents
  pageList := fun _ => .absent
  io := fun _ => none
  pc := fun _ => .idle
  written := fun _ => none
  notFound := []

section Steps

variable (s : PageOut γ κ τ)

/-- `blockHash.find` of the FRComputation of the offset. -/
def find (o : γ × ℕ) : Option ℕ := s.fr.find o.1 o.2

def goto (t : τ) (p : Pc (γ × ℕ)) : PageOut γ κ τ :=
  { s with pc := update s.pc t p }

def setPage (o : γ × ℕ) (page : Page κ) : PageOut γ κ τ :=
  { s with pageList := update s.pageList o page }

/-- The cache manager starts to write a dirty page, which it means to free. -/
def startPutPage (t : τ) (o : γ × ℕ) : PageOut γ κ τ :=
  match s.pageList o with
  | .resident contents true => (s.setPage o (.writing contents true)).goto t (.lookUp o)
  | _ => s

/-- A block is chosen: the one that was found, or one from the device. Without a block the write
is not started. -/
def chooseBlock (t : τ) (o : γ × ℕ) (oldBlockID : Option ℕ) : PageOut γ κ τ :=
  match oldBlockID with
  | some blockID => s.goto t (.start o blockID false)
  | none =>
    match s.fr.swap.allocBlock o.1 with
    | (swap, some blockID) =>
      { s with fr := { s.fr with swap := swap } }.goto t (.start o blockID true)
    | (_, none) => s.goto t (.pending o)

/-- `asyncOp` of the device, which may not accept the write. -/
def asyncOp (t : τ) (o : γ × ℕ) (blockID : ℕ) (fresh accepted : Bool) : PageOut γ κ τ :=
  if accepted then
    { s with io := update s.io o (some (blockID, false)) }.goto t
      (if fresh then .record o blockID else .idle)
  else s.goto t (.pending o)

/-- The next step of a thread in `putPageInternal`; a write that was not started is tried again
by `resumeIO`. -/
def advance (t : τ) (accepted : Bool) : PageOut γ κ τ :=
  match s.pc t with
  | .idle => s
  | .lookUp o => s.goto t (.choose o (s.find o))
  | .choose o oldBlockID => s.chooseBlock t o oldBlockID
  | .start o blockID fresh => s.asyncOp t o blockID fresh accepted
  | .record o blockID => { s with fr := s.fr.add o.1 o.2 blockID }.goto t .idle
  | .pending o => s.goto t (.lookUp o)

/-- The device writes the frame, or fails, and `SwapIOCompletion` frees the block of a write that
has failed. -/
def swapIOCompletion (o : γ × ℕ) (ok : Bool) : PageOut γ κ τ :=
  match s.io o, s.pageList o with
  | some (blockID, false), .writing contents _ =>
    if ok then
      { s with
        disk := update s.disk blockID contents
        io := update s.io o (some (blockID, true)) }
    else
      { s with
        fr := s.fr.freePage blockID none
        io := update s.io o (some (blockID, true)) }
  | _, _ => s

/-- `ioComplete` of a write: the frame is freed, or its page is clean. -/
def ioComplete (o : γ × ℕ) : PageOut γ κ τ :=
  match s.io o, s.pageList o with
  | some (_, true), .writing contents freeAfterIO =>
    { s with
      pageList := update s.pageList o
        (if freeAfterIO then .absent else .resident contents false)
      io := update s.io o none
      written := update s.written o (some contents) }
  | _, _ => s

/-- A fault: a page that is not there is made, and one that is being written is kept. -/
def fault (o : γ × ℕ) : PageOut γ κ τ :=
  match s.pageList o with
  | .absent => s.setPage o .faulting
  | .writing contents _ => s.setPage o (.writing contents false)
  | _ => s

/-- `startFillPage` for the page of a fault; a page that is not found is `zero`. -/
def startFillPage (zero : κ) (o : γ × ℕ) : PageOut γ κ τ :=
  match s.pageList o, s.find o with
  | .faulting, some blockID => s.setPage o (.filling blockID)
  | .faulting, none =>
    { s.setPage o (.resident zero false) with notFound := (o, s.written o) :: s.notFound }
  | _, _ => s

def fillComplete (o : γ × ℕ) : PageOut γ κ τ :=
  match s.pageList o with
  | .filling blockID => s.setPage o (.resident (s.disk blockID) false)
  | _ => s

/-- The program writes to its page. -/
def touch (o : γ × ℕ) (contents : κ) : PageOut γ κ τ :=
  match s.pageList o with
  | .resident _ _ => s.setPage o (.resident contents true)
  | _ => s

/-- A page is given back: a clean one at once, and one that is being written when it has been. -/
def giveBack (o : γ × ℕ) : PageOut γ κ τ :=
  match s.pageList o with
  | .resident _ false => s.setPage o .absent
  | .writing contents _ => s.setPage o (.writing contents true)
  | _ => s

end Steps

/-! ## Runs -/

inductive Op (γ κ τ : Type)
  | attachDevice (bytes : ℕ)
  | startPutPage (t : τ) (o : γ × ℕ)
  | advance (t : τ) (accepted : Bool)
  | swapIOCompletion (o : γ × ℕ) (ok : Bool)
  | ioComplete (o : γ × ℕ)
  | fault (o : γ × ℕ)
  | startFillPage (o : γ × ℕ)
  | fillComplete (o : γ × ℕ)
  | touch (o : γ × ℕ) (contents : κ)
  | giveBack (o : γ × ℕ)

section Runs

variable (zero : κ)

def step (s : PageOut γ κ τ) : Op γ κ τ → PageOut γ κ τ
  | .attachDevice bytes => { s with fr := { s.fr with swap := s.fr.swap.attachDevice bytes } }
  | .startPutPage t o => s.startPutPage t o
  | .advance t accepted => s.advance t accepted
  | .swapIOCompletion o ok => s.swapIOCompletion o ok
  | .ioComplete o => s.ioComplete o
  | .fault o => s.fault o
  | .startFillPage o => s.startFillPage zero o
  | .fillComplete o => s.fillComplete o
  | .touch o contents => s.touch o contents
  | .giveBack o => s.giveBack o

def adm (s : PageOut γ κ τ) : Op γ κ τ → Prop
  | .attachDevice bytes => bytes < 2 ^ 64
  | .startPutPage t _ => s.pc t = .idle
  | _ => True

def runs : Machine (PageOut γ κ τ) (Op γ κ τ) := ⟨step zero, adm⟩

/-- The offset that the next step of a thread searches `blockHash` for. -/
def Pc.searching : Pc (γ × ℕ) → Option (γ × ℕ)
  | .lookUp o => some o
  | _ => none

/-- The offset for which a thread has still to record the block of a write that it has started. -/
def Pc.recording : Pc (γ × ℕ) → Option (γ × ℕ)
  | .record o _ => some o
  | _ => none

def Recorded (s : PageOut γ κ τ) (o : γ × ℕ) : Prop := ∀ t, (s.pc t).recording ≠ some o

/-- `blockHash` is searched for an offset only when its blocks have been recorded; writes that are
started succeed; and there are no more devices than device ids. -/
def searchesRecorded (s : PageOut γ κ τ) : Op γ κ τ → Prop
  | .attachDevice _ => s.fr.swap.nextDevID < 2 ^ 12
  | .advance t _ => ∀ o, (s.pc t).searching = some o → s.Recorded o
  | .startFillPage o => s.Recorded o
  | .swapIOCompletion _ ok => ok = true
  | _ => True

def recordedRuns : Machine (PageOut γ κ τ) (Op γ κ τ) :=
  ⟨step zero, fun s op => s.adm op ∧ s.searchesRecorded op⟩

end Runs

/-! ## What is to hold -/

/-- The block that a thread is about to write to or to record for an offset. -/
def Pc.block : Pc (γ × ℕ) → Option ((γ × ℕ) × ℕ)
  | .start o b _ | .record o b => some (o, b)
  | _ => none

/-- The block is recorded for the offset, or about to be. -/
def Uses (s : PageOut γ κ τ) (o : γ × ℕ) (b : ℕ) : Prop :=
  s.find o = some b ∨ ∃ t, (s.pc t).block = some (o, b)

/-- No fill of an offset that has been written out is answered `PAGE_NOT_FOUND`, and a fill reads
a block that has what was written out, and that is of no other offset. -/
structure Sound (s : PageOut γ κ τ) : Prop where
  found : ∀ o k, (o, some k) ∉ s.notFound
  reads : ∀ o b k, s.pageList o = .filling b → s.written o = some k →
    s.disk b = k ∧ ∀ o', s.Uses o' b → o' = o

/-! ## The invariant -/

/-- The offset whose page is marked by a thread that has not started the write. -/
def Pc.early : Pc (γ × ℕ) → Option (γ × ℕ)
  | .lookUp o | .choose o _ | .start o _ _ | .pending o => some o
  | _ => none

/-- What a thread has found in `blockHash`. -/
def Pc.searched : Pc (γ × ℕ) → Option ((γ × ℕ) × Option ℕ)
  | .choose o old => some (o, old)
  | .start o b fresh => some (o, if fresh then none else some b)
  | .record o _ => some (o, none)
  | _ => none

/-- The write to the block has been started, and `blockHash` has it or is about to. -/
def Current (s : PageOut γ κ τ) (o : γ × ℕ) (b : ℕ) : Prop :=
  s.find o = some b ∨ ∃ t, s.pc t = .record o b

structure Inv (s : PageOut γ κ τ) : Prop where
  swap : s.fr.swap.Inv
  allocated : ∀ o b, s.Uses o b → b ∈ s.fr.swap.allocated
  once : ∀ o o' b, s.Uses o b → s.Uses o' b → o = o'
  early : ∀ t o, (s.pc t).early = some o →
    (∃ contents free, s.pageList o = .writing contents free) ∧ s.io o = none
  alone : ∀ t u o, (s.pc t).early = some o → (s.pc u).early = some o → t = u
  searched : ∀ t o old, (s.pc t).searched = some (o, old) → s.find o = old
  searchedOnce : ∀ t u o old old', (s.pc t).searched = some (o, old) →
    (s.pc u).searched = some (o, old') → t = u
  io : ∀ o b complete, s.io o = some (b, complete) → s.Current o b ∧
    ∃ contents free, s.pageList o = .writing contents free ∧
      (complete = true → s.disk b = contents)
  written : ∀ o k, s.written o = some k → (∀ b, s.io o ≠ some (b, true)) →
    ∃ b, s.Current o b ∧ s.disk b = k
  filling : ∀ o b, s.pageList o = .filling b → s.find o = some b ∧
    ∀ t old, (s.pc t).searched ≠ some (o, old)
  found : ∀ o k, (o, some k) ∉ s.notFound

section Invariant

variable {s : PageOut γ κ τ} {t : τ} {o : γ × ℕ} {b : ℕ} {k : κ} {page : Page κ}
  {p : Pc (γ × ℕ)} {zero : κ}

omit [DecidableEq γ] [DecidableEq τ] in
theorem Current.uses (h : s.Current o b) : s.Uses o b := by
  rcases h with h | ⟨t, ht⟩
  · exact .inl h
  · refine .inr ⟨t, ?_⟩
    rw [ht]
    rfl

omit [DecidableEq τ] [DecidableEq γ] in
theorem inv_init : Inv (init k : PageOut γ κ τ) where
  swap := .init
  allocated := by
    rintro o b (h | ⟨t, h⟩)
    · cases h
    · cases h
  once := by
    rintro o o' b (h | ⟨t, h⟩)
    · cases h
    · cases h
  early := nofun
  alone := nofun
  searched := nofun
  searchedOnce := nofun
  io := nofun
  written := nofun
  filling := nofun
  found := nofun

section

variable (h : Inv s)

include h

omit [DecidableEq γ] [DecidableEq τ] in
theorem Inv.sound : s.Sound where
  found := h.found
  reads := by
    intro o b k hpage hwritten
    obtain ⟨hfind, hnone⟩ := h.filling o b hpage
    have hio : ∀ b', s.io o ≠ some (b', true) := by
      intro b' hio
      obtain ⟨-, contents, free, hwriting, -⟩ := h.io o b' true hio
      rw [hpage] at hwriting
      cases hwriting
    obtain ⟨b', hcurrent, hdisk⟩ := h.written o k hwritten hio
    refine ⟨?_, fun o' huses => h.once o' o b huses (.inl hfind)⟩
    rcases hcurrent with hcurrent | ⟨t, ht⟩
    · rw [hfind] at hcurrent
      cases hcurrent
      exact hdisk
    · exact absurd (by rw [ht]; rfl) (hnone t none)

section

omit [DecidableEq τ]

/-- A page that is not being written becomes one that is not either; it is filled only from the
block that has been recorded. -/
theorem Inv.setPage (hold : ∀ contents free, s.pageList o ≠ .writing contents free)
    (hnew : ∀ b, page = .filling b → s.find o = some b ∧
      ∀ t old, (s.pc t).searched ≠ some (o, old)) : Inv (s.setPage o page) where
  swap := h.swap
  allocated := h.allocated
  once := h.once
  early := by
    intro t o' ht
    obtain ⟨⟨contents, free, hpage⟩, hio⟩ := h.early t o' ht
    refine ⟨⟨contents, free, ?_⟩, hio⟩
    have hne : o' ≠ o := by
      rintro rfl
      exact hold contents free hpage
    exact (update_of_ne hne _ _).trans hpage
  alone := h.alone
  searched := h.searched
  searchedOnce := h.searchedOnce
  io := by
    intro o' b complete hio
    obtain ⟨hcurrent, contents, free, hpage, hdisk⟩ := h.io o' b complete hio
    refine ⟨hcurrent, contents, free, ?_, hdisk⟩
    have hne : o' ≠ o := by
      rintro rfl
      exact hold contents free hpage
    exact (update_of_ne hne _ _).trans hpage
  written := h.written
  filling := by
    intro o' b hpage
    by_cases ho : o' = o
    · subst o'
      have hself : (s.setPage o page).pageList o = page := update_self ..
      exact hnew b (hself.symm.trans hpage)
    · exact h.filling o' b ((update_of_ne ho _ _).symm.trans hpage)
  found := h.found

theorem Inv.setFree {free : Bool} (hold : s.pageList o = .writing k free)
    (free' : Bool) : Inv (s.setPage o (.writing k free')) where
  swap := h.swap
  allocated := h.allocated
  once := h.once
  early := by
    intro t o' ht
    obtain ⟨hpage, hio⟩ := h.early t o' ht
    refine ⟨?_, hio⟩
    by_cases ho : o' = o
    · subst o'
      exact ⟨k, free', update_self ..⟩
    · obtain ⟨contents, f, hpage⟩ := hpage
      exact ⟨contents, f, (update_of_ne ho _ _).trans hpage⟩
  alone := h.alone
  searched := h.searched
  searchedOnce := h.searchedOnce
  io := by
    intro o' b complete hio
    obtain ⟨hcurrent, contents, f, hpage, hdisk⟩ := h.io o' b complete hio
    refine ⟨hcurrent, ?_⟩
    by_cases ho : o' = o
    · subst o'
      rw [hold] at hpage
      cases hpage
      exact ⟨k, free', update_self .., hdisk⟩
    · exact ⟨contents, f, (update_of_ne ho _ _).trans hpage, hdisk⟩
  written := h.written
  filling := by
    intro o' b hpage
    by_cases ho : o' = o
    · subst o'
      cases (update_self o _ s.pageList).symm.trans hpage
    · exact h.filling o' b ((update_of_ne ho _ _).symm.trans hpage)
  found := h.found

theorem Inv.fault : Inv (s.fault o) := by
  unfold PageOut.fault
  cases hpage : s.pageList o with
  | absent =>
    apply h.setPage
    · rw [hpage]
      nofun
    · nofun
  | writing contents free => exact h.setFree hpage false
  | _ => exact h

theorem Inv.touch : Inv (s.touch o k) := by
  unfold PageOut.touch
  cases hpage : s.pageList o with
  | resident contents dirty =>
    apply h.setPage
    · rw [hpage]
      nofun
    · nofun
  | _ => exact h

theorem Inv.giveBack : Inv (s.giveBack o) := by
  unfold PageOut.giveBack
  cases hpage : s.pageList o with
  | resident contents dirty =>
    cases dirty with
    | true => exact h
    | false =>
      apply h.setPage
      · rw [hpage]
        nofun
      · nofun
  | writing contents free => exact h.setFree hpage true
  | _ => exact h

theorem Inv.fillComplete : Inv (s.fillComplete o) := by
  unfold PageOut.fillComplete
  cases hpage : s.pageList o with
  | filling b =>
    apply h.setPage
    · rw [hpage]
      nofun
    · nofun
  | _ => exact h

theorem Inv.startFillPage (hrecorded : s.Recorded o) :
    Inv (s.startFillPage zero o) := by
  unfold PageOut.startFillPage
  cases hpage : s.pageList o with
  | faulting =>
    cases hfind : s.find o with
    | none =>
      have hset : Inv (s.setPage o (.resident zero false)) := by
        apply h.setPage
        · rw [hpage]
          nofun
        · nofun
      refine { hset with found := ?_ }
      intro o' k hmem
      rcases List.mem_cons.1 hmem with heq | hmem
      · obtain ⟨rfl, hk⟩ := Prod.mk.injEq .. ▸ heq
        have hio : ∀ b, s.io o' ≠ some (b, true) := by
          intro b hio
          obtain ⟨-, contents, free, hwriting, -⟩ := h.io o' b true hio
          rw [hpage] at hwriting
          cases hwriting
        obtain ⟨b, hcurrent, -⟩ := h.written o' k hk.symm hio
        rcases hcurrent with hcurrent | ⟨t, ht⟩
        · rw [hfind] at hcurrent
          cases hcurrent
        · exact hrecorded t (by rw [ht]; rfl)
      · exact h.found o' k hmem
    | some b =>
      have hnone : ∀ t old, (s.pc t).searched ≠ some (o, old) := by
        intro t old ht
        have hearly : (s.pc t).early ≠ some o := by
          intro ht
          obtain ⟨⟨contents, free, hwriting⟩, -⟩ := h.early t o ht
          rw [hpage] at hwriting
          cases hwriting
        cases hpc : s.pc t with
        | record o' b' =>
          rw [hpc] at ht
          cases ht
          exact hrecorded t (by rw [hpc]; rfl)
        | choose o' old' =>
          rw [hpc] at ht hearly
          cases ht
          exact hearly rfl
        | start o' b' fresh =>
          rw [hpc] at ht hearly
          cases ht
          exact hearly rfl
        | _ =>
          rw [hpc] at ht
          cases ht
      apply h.setPage
      · rw [hpage]
        nofun
      · intro b' hb'
        cases hb'
        exact ⟨hfind, hnone⟩
  | _ => exact h

end

end

/-! ## Threads -/

section

omit [DecidableEq γ]

theorem pc_goto_self : (s.goto t p).pc t = p := update_self ..

theorem pc_goto_of_ne {u : τ} (hu : u ≠ t) : (s.goto t p).pc u = s.pc u :=
  update_of_ne hu ..

theorem Pc.early_of_searched {old : Option ℕ} (hp : p.searched = some (o, old))
    (hrecord : ∀ o b, p ≠ .record o b) : p.early = some o := by
  cases p with
  | choose o' old' =>
    cases hp
    rfl
  | start o' b fresh =>
    cases hp
    rfl
  | record o' b => exact absurd rfl (hrecord o' b)
  | _ => cases hp

end

section

variable (h : Inv s)

include h

omit [DecidableEq γ] [DecidableEq τ] in
theorem Inv.not_filling (ht : (s.pc t).early = some o) (b : ℕ) :
    s.pageList o ≠ .filling b := by
  intro hpage
  obtain ⟨⟨contents, free, hwriting⟩, -⟩ := h.early t o ht
  rw [hpage] at hwriting
  cases hwriting

omit [DecidableEq γ] in
theorem Inv.goto (hearly : p.early = (s.pc t).early)
    (hrecord : ∀ o b, p ≠ .record o b) (hrecord' : ∀ o b, s.pc t ≠ .record o b)
    (hblock : ∀ o b, p.block = some (o, b) → b ∈ s.fr.swap.allocated ∧
      ∀ o', s.Uses o' b → o' = o)
    (hsearched : ∀ o old, p.searched = some (o, old) → s.find o = old ∧
      ∀ u old', u ≠ t → (s.pc u).searched ≠ some (o, old')) : Inv (s.goto t p) := by
  have huses : ∀ o b, (s.goto t p).Uses o b → s.Uses o b ∨ p.block = some (o, b) := by
    rintro o b (hfind | ⟨u, hu⟩)
    · exact .inl (.inl hfind)
    · by_cases hut : u = t
      · subst u
        rw [pc_goto_self] at hu
        exact .inr hu
      · rw [pc_goto_of_ne hut] at hu
        exact .inl (.inr ⟨u, hu⟩)
  have hcurrent : ∀ o b, s.Current o b → (s.goto t p).Current o b := by
    rintro o b (hfind | ⟨u, hu⟩)
    · exact .inl hfind
    · refine .inr ⟨u, ?_⟩
      rw [pc_goto_of_ne, hu]
      rintro rfl
      exact hrecord' o b hu
  have hearlier : ∀ u, ((s.goto t p).pc u).early = (s.pc u).early := by
    intro u
    by_cases hut : u = t
    · subst u
      rw [pc_goto_self, hearly]
    · rw [pc_goto_of_ne hut]
  constructor
  · exact h.swap
  · intro o b hb
    rcases huses o b hb with hb | hb
    · exact h.allocated o b hb
    · exact (hblock o b hb).1
  · intro o o' b ho ho'
    rcases huses o b ho with ho | ho
    · rcases huses o' b ho' with ho' | ho'
      · exact h.once o o' b ho ho'
      · exact (hblock o' b ho').2 o ho
    · rcases huses o' b ho' with ho' | ho'
      · exact ((hblock o b ho).2 o' ho').symm
      · rw [ho] at ho'
        cases ho'
        rfl
  · intro u o hu
    rw [hearlier] at hu
    exact h.early u o hu
  · intro u u' o hu hu'
    rw [hearlier] at hu hu'
    exact h.alone u u' o hu hu'
  · intro u o old hu
    by_cases hut : u = t
    · subst u
      rw [pc_goto_self] at hu
      exact (hsearched o old hu).1
    · rw [pc_goto_of_ne hut] at hu
      exact h.searched u o old hu
  · intro u u' o old old' hu hu'
    by_cases hut : u = t
    · subst u
      by_cases hut' : u' = t
      · exact hut'.symm
      · rw [pc_goto_self] at hu
        rw [pc_goto_of_ne hut'] at hu'
        exact absurd hu' ((hsearched o old hu).2 u' old' hut')
    · rw [pc_goto_of_ne hut] at hu
      by_cases hut' : u' = t
      · subst u'
        rw [pc_goto_self] at hu'
        exact absurd hu ((hsearched o old' hu').2 u old hut)
      · rw [pc_goto_of_ne hut'] at hu'
        exact h.searchedOnce u u' o old old' hu hu'
  · intro o b complete hio
    obtain ⟨hcur, hpage⟩ := h.io o b complete hio
    exact ⟨hcurrent o b hcur, hpage⟩
  · intro o k hk hio
    obtain ⟨b, hcur, hdisk⟩ := h.written o k hk hio
    exact ⟨b, hcurrent o b hcur, hdisk⟩
  · intro o b hpage
    obtain ⟨hfind, hnone⟩ := h.filling o b hpage
    refine ⟨hfind, ?_⟩
    intro u old hu
    by_cases hut : u = t
    · subst u
      rw [pc_goto_self] at hu
      have he := Pc.early_of_searched hu hrecord
      rw [hearly] at he
      exact h.not_filling he b hpage
    · rw [pc_goto_of_ne hut] at hu
      exact hnone u old hu
  · exact h.found

omit [DecidableEq τ] in
theorem Inv.alloc (c : γ) : (match s.fr.swap.allocBlock c with
      | (swap, none) => swap = s.fr.swap
      | (swap, some b) => Inv { s with fr := { s.fr with swap := swap } } ∧
          b ∈ swap.allocated ∧ ∀ o, ¬ s.Uses o b) := by
  have hhands := DiskSwap.hands_allocBlock h.swap c
  have hallocated : ∀ bid, (s.fr.swap.allocBlock c).2 = some bid →
      (s.fr.swap.allocBlock c).1.allocated = insert bid s.fr.swap.allocated :=
    fun _ => FRComputation.allocated_allocBlock
  generalize s.fr.swap.allocBlock c = result at hhands hallocated
  obtain ⟨swap, block⟩ := result
  cases block with
  | none => exact hhands
  | some b =>
    obtain ⟨hinv, hnot, -⟩ := hhands
    have halloc : swap.allocated = insert b s.fr.swap.allocated := hallocated b rfl
    refine ⟨{ h with swap := hinv, allocated := ?_ }, ?_, ?_⟩
    · intro o b' hb'
      change b' ∈ swap.allocated
      rw [halloc]
      exact Finset.mem_insert_of_mem (h.allocated o b' hb')
    · rw [halloc]
      exact Finset.mem_insert_self b _
    · intro o huses
      exact hnot (h.allocated o b huses)

section

omit [DecidableEq γ]

theorem Inv.lookUp (hpc : s.pc t = .lookUp o) (hrecorded : s.Recorded o) :
    Inv (s.goto t (.choose o (s.find o))) := by
  apply h.goto
  · rw [hpc]
    rfl
  · nofun
  · rw [hpc]
    nofun
  · nofun
  · rintro o' old hold
    cases hold
    refine ⟨rfl, ?_⟩
    intro u old' hut hu
    apply hut
    apply h.alone u t o
    · refine Pc.early_of_searched hu ?_
      intro o' b hrecord
      rw [hrecord] at hu
      cases hu
      exact hrecorded u (by rw [hrecord]; rfl)
    · rw [hpc]
      rfl

theorem Inv.retry (hearly : p.early = (s.pc t).early) (hblock : p.block = none)
    (hsearched : p.searched = none) (hrecord : ∀ o b, p ≠ .record o b)
    (hrecord' : ∀ o b, s.pc t ≠ .record o b) : Inv (s.goto t p) := by
  apply h.goto hearly hrecord hrecord'
  · rw [hblock]
    nofun
  · rw [hsearched]
    nofun

end

theorem Inv.chooseBlock {old : Option ℕ} (hpc : s.pc t = .choose o old) :
    Inv (s.chooseBlock t o old) := by
  have hfound : (s.pc t).searched = some (o, old) := by
    rw [hpc]
    rfl
  have halone : ∀ u old', u ≠ t → (s.pc u).searched ≠ some (o, old') := by
    intro u old' hut hu
    exact hut (h.searchedOnce u t o old' old hu hfound)
  have hrecord' : ∀ o b, s.pc t ≠ .record o b := by
    rw [hpc]
    nofun
  unfold PageOut.chooseBlock
  cases old with
  | some b =>
    have hfind := h.searched t o (some b) hfound
    refine h.goto (by rw [hpc]; rfl) nofun hrecord' ?_ ?_
    · rintro o' b' hb'
      cases hb'
      exact ⟨h.allocated o b (.inl hfind), fun o' ho' => h.once o' o b ho' (.inl hfind)⟩
    · rintro o' old' hold'
      cases hold'
      exact ⟨hfind, halone⟩
  | none =>
    have hfind := h.searched t o none hfound
    have halloc := h.alloc o.1
    dsimp only
    generalize s.fr.swap.allocBlock o.1 = result at halloc
    obtain ⟨swap, block⟩ := result
    cases block with
    | none => exact h.retry (by rw [hpc]; rfl) rfl rfl nofun hrecord'
    | some b =>
      obtain ⟨hinv, hmem, hunused⟩ := halloc
      refine Inv.goto hinv ?_ nofun hrecord' ?_ ?_
      · change _ = (s.pc t).early
        rw [hpc]
        rfl
      · rintro o' b' hb'
        cases hb'
        exact ⟨hmem, fun o' ho' => absurd ho' (hunused o')⟩
      · rintro o' old' hold'
        cases hold'
        exact ⟨hfind, halone⟩

theorem Inv.started {fresh : Bool} (hpc : s.pc t = .start o b fresh) :
    Inv ({ s with io := update s.io o (some (b, false)) }.goto t
      (if fresh then .record o b else .idle)) := by
  have hfound : (s.pc t).searched = some (o, if fresh then none else some b) := by
    rw [hpc]
    rfl
  have hearly : (s.pc t).early = some o := by
    rw [hpc]
    rfl
  obtain ⟨hwriting, hio⟩ := h.early t o hearly
  generalize hs : { s with io := update s.io o (some (b, false)) }.goto t
    (if fresh then Pc.record o b else .idle) = s'
  have hself : s'.pc t = if fresh then Pc.record o b else .idle := hs ▸ update_self ..
  have hother : ∀ u, u ≠ t → s'.pc u = s.pc u :=
    hs ▸ fun _ hu => update_of_ne hu ..
  have hioself : s'.io o = some (b, false) := hs ▸ update_self ..
  have hioother : ∀ o', o' ≠ o → s'.io o' = s.io o' :=
    hs ▸ fun _ ho' => update_of_ne ho' ..
  have hsearched : ∀ u o' old, (s'.pc u).searched = some (o', old) →
      (s.pc u).searched = some (o', old) := by
    intro u o' old hu
    by_cases hut : u = t
    · subst u
      rw [hself] at hu
      cases fresh with
      | true =>
        rw [hfound]
        exact hu
      | false => cases hu
    · rw [hother u hut] at hu
      exact hu
  have huses : ∀ o' b', s'.Uses o' b' → s.Uses o' b' := by
    rintro o' b' (hfind | ⟨u, hu⟩)
    · subst s'
      exact .inl hfind
    · refine .inr ⟨u, ?_⟩
      by_cases hut : u = t
      · subst u
        rw [hself] at hu
        cases fresh with
        | true =>
          rw [hpc]
          exact hu
        | false => cases hu
      · rw [hother u hut] at hu
        exact hu
  have hcurrent : ∀ o' b', s.Current o' b' → s'.Current o' b' := by
    rintro o' b' (hfind | ⟨u, hu⟩)
    · subst s'
      exact .inl hfind
    · refine .inr ⟨u, ?_⟩
      rw [hother u, hu]
      rintro rfl
      rw [hpc] at hu
      cases hu
  have hnew : s'.Current o b := by
    cases fresh with
    | true => exact .inr ⟨t, hself⟩
    | false =>
      have hfind := h.searched t o (some b) hfound
      exact hcurrent o b (.inl hfind)
  have hne : ∀ u o', (s'.pc u).early = some o' → u ≠ t ∧ o' ≠ o ∧ (s.pc u).early = some o' := by
    intro u o' hu
    have hut : u ≠ t := by
      rintro rfl
      rw [hself] at hu
      cases fresh <;> cases hu
    rw [hother u hut] at hu
    refine ⟨hut, ?_, hu⟩
    rintro rfl
    exact hut (h.alone u t o' hu hearly)
  constructor
  · subst s'
    exact h.swap
  · intro o' b' hb'
    subst s'
    exact h.allocated o' b' (huses o' b' hb')
  · intro o₁ o₂ b' h₁ h₂
    exact h.once o₁ o₂ b' (huses o₁ b' h₁) (huses o₂ b' h₂)
  · intro u o' hu
    obtain ⟨-, ho', hu₀⟩ := hne u o' hu
    rw [hioother o' ho']
    subst s'
    exact h.early u o' hu₀
  · intro u u' o' hu hu'
    exact h.alone u u' o' (hne u o' hu).2.2 (hne u' o' hu').2.2
  · intro u o' old hu
    subst s'
    exact h.searched u o' old (hsearched u o' old hu)
  · intro u u' o' old old' hu hu'
    exact h.searchedOnce u u' o' old old' (hsearched u o' old hu) (hsearched u' o' old' hu')
  · intro o' b' complete hio'
    by_cases ho' : o' = o
    · subst o'
      rw [hioself] at hio'
      cases hio'
      obtain ⟨contents, free, hpage⟩ := hwriting
      subst s'
      exact ⟨hnew, contents, free, hpage, nofun⟩
    · rw [hioother o' ho'] at hio'
      obtain ⟨hcur, hpage⟩ := h.io o' b' complete hio'
      subst s'
      exact ⟨hcurrent o' b' hcur, hpage⟩
  · intro o' k hk hio'
    have hbefore : ∀ b', s.io o' ≠ some (b', true) := by
      intro b'
      by_cases ho' : o' = o
      · subst o'
        rw [hio]
        nofun
      · rw [← hioother o' ho']
        exact hio' b'
    subst s'
    obtain ⟨b', hcur, hdisk⟩ := h.written o' k hk hbefore
    exact ⟨b', hcurrent o' b' hcur, hdisk⟩
  · intro o' b' hpage
    subst s'
    obtain ⟨hfind, hnone⟩ := h.filling o' b' hpage
    exact ⟨hfind, fun u old hu => hnone u old (hsearched u o' old hu)⟩
  · subst s'
    exact h.found

theorem Inv.record (hpc : s.pc t = .record o b) :
    Inv ({ s with fr := s.fr.add o.1 o.2 b }.goto t .idle) := by
  have hfound : (s.pc t).searched = some (o, none) := by
    rw [hpc]
    rfl
  have hnone := h.searched t o none hfound
  generalize hs : { s with fr := s.fr.add o.1 o.2 b }.goto t Pc.idle = s'
  have hself : s'.pc t = .idle := hs ▸ update_self ..
  have hother : ∀ u, u ≠ t → s'.pc u = s.pc u :=
    hs ▸ fun _ hu => update_of_ne hu ..
  have hfind : s'.find o = some b := by
    subst s'
    exact FRComputation.find_add.trans (if_pos ⟨rfl, rfl⟩)
  have hfindother : ∀ o', o' ≠ o → s'.find o' = s.find o' := by
    intro o' ho'
    subst s'
    refine FRComputation.find_add.trans (if_neg ?_)
    rintro ⟨h₁, h₂⟩
    exact ho' (Prod.ext h₁ h₂)
  have hsearched : ∀ u o' old, (s'.pc u).searched = some (o', old) →
      o' ≠ o ∧ (s.pc u).searched = some (o', old) := by
    intro u o' old hu
    have hut : u ≠ t := by
      rintro rfl
      rw [hself] at hu
      cases hu
    rw [hother u hut] at hu
    refine ⟨?_, hu⟩
    rintro rfl
    exact hut (h.searchedOnce u t o' old none hu hfound)
  have huses : ∀ o' b', s'.Uses o' b' → s.Uses o' b' := by
    rintro o' b' (hget | ⟨u, hu⟩)
    · by_cases ho' : o' = o
      · subst o'
        rw [hfind] at hget
        cases hget
        refine .inr ⟨t, ?_⟩
        rw [hpc]
        rfl
      · rw [hfindother o' ho'] at hget
        exact .inl hget
    · refine .inr ⟨u, ?_⟩
      rw [← hother u, hu]
      rintro rfl
      rw [hself] at hu
      cases hu
  have hcurrent : ∀ o' b', s.Current o' b' → s'.Current o' b' := by
    rintro o' b' (hget | ⟨u, hu⟩)
    · refine .inl ?_
      rw [hfindother, hget]
      rintro rfl
      rw [hnone] at hget
      cases hget
    · by_cases hut : u = t
      · subst u
        rw [hpc] at hu
        cases hu
        exact .inl hfind
      · refine .inr ⟨u, ?_⟩
        rw [hother u hut, hu]
  have hearly : ∀ u o', (s'.pc u).early = some o' → (s.pc u).early = some o' := by
    intro u o' hu
    rw [← hother u, hu]
    rintro rfl
    rw [hself] at hu
    cases hu
  constructor
  · subst s'
    exact h.swap
  · intro o' b' hb'
    subst s'
    exact h.allocated o' b' (huses o' b' hb')
  · intro o₁ o₂ b' h₁ h₂
    exact h.once o₁ o₂ b' (huses o₁ b' h₁) (huses o₂ b' h₂)
  · intro u o' hu
    subst s'
    exact h.early u o' (hearly u o' hu)
  · intro u u' o' hu hu'
    exact h.alone u u' o' (hearly u o' hu) (hearly u' o' hu')
  · intro u o' old hu
    obtain ⟨ho', hu⟩ := hsearched u o' old hu
    rw [hfindother o' ho']
    exact h.searched u o' old hu
  · intro u u' o' old old' hu hu'
    exact h.searchedOnce u u' o' old old' (hsearched u o' old hu).2 (hsearched u' o' old' hu').2
  · intro o' b' complete hio'
    subst s'
    obtain ⟨hcur, hpage⟩ := h.io o' b' complete hio'
    exact ⟨hcurrent o' b' hcur, hpage⟩
  · intro o' k hk hio'
    subst s'
    obtain ⟨b', hcur, hdisk⟩ := h.written o' k hk hio'
    exact ⟨b', hcurrent o' b' hcur, hdisk⟩
  · intro o' b' hpage
    have hbefore : s.pageList o' = .filling b' := by
      subst s'
      exact hpage
    obtain ⟨hget, hno⟩ := h.filling o' b' hbefore
    refine ⟨?_, fun u old hu => hno u old (hsearched u o' old hu).2⟩
    rw [hfindother, hget]
    rintro rfl
    exact hno t none hfound
  · subst s'
    exact h.found

theorem Inv.advance {accepted : Bool}
    (hrecorded : ∀ o, (s.pc t).searching = some o → s.Recorded o) : Inv (s.advance t accepted) := by
  unfold PageOut.advance
  cases hpc : s.pc t with
  | idle => exact h
  | lookUp o => exact h.lookUp hpc (hrecorded o (by rw [hpc]; rfl))
  | choose o old => exact h.chooseBlock hpc
  | start o b fresh =>
    dsimp only [asyncOp]
    cases accepted with
    | true => exact h.started hpc
    | false => exact h.retry (by rw [hpc]; rfl) rfl rfl nofun (by rw [hpc]; nofun)
  | record o b => exact h.record hpc
  | pending o => exact h.retry (by rw [hpc]; rfl) rfl rfl nofun (by rw [hpc]; nofun)

theorem Inv.startPutPage (hidle : s.pc t = .idle) : Inv (s.startPutPage t o) := by
  unfold PageOut.startPutPage
  cases hpage : s.pageList o with
  | resident contents dirty =>
    cases dirty with
    | false => exact h
    | true =>
      have hio : s.io o = none := by
        cases hio : s.io o with
        | none => rfl
        | some e =>
          obtain ⟨-, k, free, hwriting, -⟩ := h.io o e.1 e.2 hio
          rw [hpage] at hwriting
          cases hwriting
      have hnot : ∀ u, (s.pc u).early ≠ some o := by
        intro u hu
        obtain ⟨⟨k, free, hwriting⟩, -⟩ := h.early u o hu
        rw [hpage] at hwriting
        cases hwriting
      dsimp only
      generalize hs : (s.setPage o (.writing contents true)).goto t (.lookUp o) = s'
      have hself : s'.pc t = .lookUp o := hs ▸ update_self ..
      have hother : ∀ u, u ≠ t → s'.pc u = s.pc u :=
        hs ▸ fun _ hu => update_of_ne hu ..
      have hpself : s'.pageList o = .writing contents true := hs ▸ update_self ..
      have hpother : ∀ o', o' ≠ o → s'.pageList o' = s.pageList o' :=
        hs ▸ fun _ ho' => update_of_ne ho' ..
      have hsearched : ∀ u o' old, (s'.pc u).searched = some (o', old) →
          (s.pc u).searched = some (o', old) := by
        intro u o' old hu
        rw [← hother u, hu]
        rintro rfl
        rw [hself] at hu
        cases hu
      have huses : ∀ o' b', s'.Uses o' b' → s.Uses o' b' := by
        rintro o' b' (hget | ⟨u, hu⟩)
        · subst s'
          exact .inl hget
        · refine .inr ⟨u, ?_⟩
          rw [← hother u, hu]
          rintro rfl
          rw [hself] at hu
          cases hu
      have hcurrent : ∀ o' b', s.Current o' b' → s'.Current o' b' := by
        rintro o' b' (hget | ⟨u, hu⟩)
        · subst s'
          exact .inl hget
        · refine .inr ⟨u, ?_⟩
          rw [hother u, hu]
          rintro rfl
          rw [hidle] at hu
          cases hu
      have hearly : ∀ u o', (s'.pc u).early = some o' →
          u = t ∧ o' = o ∨ o' ≠ o ∧ (s.pc u).early = some o' := by
        intro u o' hu
        by_cases hut : u = t
        · subst u
          rw [hself] at hu
          cases hu
          exact .inl ⟨rfl, rfl⟩
        · rw [hother u hut] at hu
          refine .inr ⟨?_, hu⟩
          rintro rfl
          exact hnot u hu
      constructor
      · subst s'
        exact h.swap
      · intro o' b' hb'
        subst s'
        exact h.allocated o' b' (huses o' b' hb')
      · intro o₁ o₂ b' h₁ h₂
        exact h.once o₁ o₂ b' (huses o₁ b' h₁) (huses o₂ b' h₂)
      · intro u o' hu
        rcases hearly u o' hu with ⟨rfl, rfl⟩ | ⟨ho', hu₀⟩
        · refine ⟨⟨contents, true, hpself⟩, ?_⟩
          subst s'
          exact hio
        · rw [hpother o' ho']
          subst s'
          exact h.early u o' hu₀
      · intro u u' o' hu hu'
        rcases hearly u o' hu with ⟨rfl, rfl⟩ | ⟨ho', hu⟩
        · rcases hearly u' o' hu' with ⟨rfl, -⟩ | ⟨ho', -⟩
          · rfl
          · exact absurd rfl ho'
        · rcases hearly u' o' hu' with ⟨-, rfl⟩ | ⟨-, hu'⟩
          · exact absurd rfl ho'
          · exact h.alone u u' o' hu hu'
      · intro u o' old hu
        subst s'
        exact h.searched u o' old (hsearched u o' old hu)
      · intro u u' o' old old' hu hu'
        exact h.searchedOnce u u' o' old old' (hsearched u o' old hu)
          (hsearched u' o' old' hu')
      · intro o' b' complete hio'
        have hio₀ : s.io o' = some (b', complete) := by
          subst s'
          exact hio'
        obtain ⟨hcur, k, free, hwriting, hdisk⟩ := h.io o' b' complete hio₀
        refine ⟨hcurrent o' b' hcur, k, free, ?_, ?_⟩
        · rw [hpother, hwriting]
          rintro rfl
          rw [hio] at hio₀
          cases hio₀
        · subst s'
          exact hdisk
      · intro o' k hk hio'
        subst s'
        obtain ⟨b', hcur, hdisk⟩ := h.written o' k hk hio'
        exact ⟨b', hcurrent o' b' hcur, hdisk⟩
      · intro o' b' hpage'
        have ho' : o' ≠ o := by
          rintro rfl
          rw [hpself] at hpage'
          cases hpage'
        rw [hpother o' ho'] at hpage'
        obtain ⟨hget, hno⟩ := h.filling o' b' hpage'
        refine ⟨?_, fun u old hu => hno u old (hsearched u o' old hu)⟩
        subst s'
        exact hget
      · subst s'
        exact h.found
  | _ => exact h

/-! ## Completions -/

section

omit [DecidableEq τ]

theorem Inv.swapIOCompletion : Inv (s.swapIOCompletion o true) := by
  unfold PageOut.swapIOCompletion
  cases hio : s.io o with
  | none => exact h
  | some e =>
    obtain ⟨b, complete⟩ := e
    cases complete with
    | true => exact h
    | false =>
      cases hpage : s.pageList o with
      | writing contents free =>
        obtain ⟨hcurrent, -⟩ := h.io o b false hio
        have hdisk : ∀ o' b', o' ≠ o → s.Current o' b' →
            update s.disk b contents b' = s.disk b' := by
          intro o' b' ho' hcur
          refine update_of_ne ?_ _ _
          rintro rfl
          exact ho' (h.once o' o b' hcur.uses hcurrent.uses)
        have hioother : ∀ o', o' ≠ o →
            update s.io o (some (b, true)) o' = s.io o' :=
          fun o' ho' => update_of_ne ho' ..
        dsimp only
        rw [if_pos rfl]
        refine { h with early := ?_, io := ?_, written := ?_ }
        · intro u o' hu
          obtain ⟨hwriting, hnone⟩ := h.early u o' hu
          refine ⟨hwriting, (hioother o' ?_).trans hnone⟩
          rintro rfl
          rw [hio] at hnone
          cases hnone
        · intro o' b' complete hio'
          by_cases ho' : o' = o
          · subst o'
            cases (update_self o _ s.io).symm.trans hio'
            exact ⟨hcurrent, contents, free, hpage, fun _ => update_self ..⟩
          · have hold := (hioother o' ho').symm.trans hio'
            obtain ⟨hcur, k, f, hwriting, hcontents⟩ := h.io o' b' complete hold
            refine ⟨hcur, k, f, hwriting, ?_⟩
            intro hcomplete
            exact (hdisk o' b' ho' hcur).trans (hcontents hcomplete)
        · intro o' k hk hio'
          have ho' : o' ≠ o := by
            rintro rfl
            exact hio' b (update_self ..)
          have hold : ∀ b', s.io o' ≠ some (b', true) := by
            intro b' hb'
            exact hio' b' ((hioother o' ho').trans hb')
          obtain ⟨b', hcur, hcontents⟩ := h.written o' k hk hold
          exact ⟨b', hcur, (hdisk o' b' ho' hcur).trans hcontents⟩
      | _ => exact h

theorem Inv.ioComplete : Inv (s.ioComplete o) := by
  unfold PageOut.ioComplete
  cases hio : s.io o with
  | none => exact h
  | some e =>
    obtain ⟨b, complete⟩ := e
    cases complete with
    | false => exact h
    | true =>
      cases hpage : s.pageList o with
      | writing contents free =>
        obtain ⟨hcurrent, k, f, hwriting, hdisk⟩ := h.io o b true hio
        rw [hpage] at hwriting
        cases hwriting
        have hioother : ∀ o', o' ≠ o → update s.io o none o' = s.io o' :=
          fun o' ho' => update_of_ne ho' ..
        have hpother : ∀ o', o' ≠ o → update s.pageList o
            (if free then .absent else .resident contents false) o' = s.pageList o' :=
          fun o' ho' => update_of_ne ho' ..
        dsimp only
        refine { h with early := ?_, io := ?_, written := ?_, filling := ?_ }
        · intro u o' hu
          obtain ⟨⟨k, f, hw⟩, hnone⟩ := h.early u o' hu
          have ho' : o' ≠ o := by
            rintro rfl
            rw [hio] at hnone
            cases hnone
          exact ⟨⟨k, f, (hpother o' ho').trans hw⟩, (hioother o' ho').trans hnone⟩
        · intro o' b' complete hio'
          by_cases ho' : o' = o
          · subst o'
            cases (update_self o _ s.io).symm.trans hio'
          · have hold := (hioother o' ho').symm.trans hio'
            obtain ⟨hcur, k, f, hw, hcontents⟩ := h.io o' b' complete hold
            exact ⟨hcur, k, f, (hpother o' ho').trans hw, hcontents⟩
        · intro o' k hk hio'
          by_cases ho' : o' = o
          · subst o'
            cases (update_self o _ s.written).symm.trans hk
            exact ⟨b, hcurrent, hdisk rfl⟩
          · have hkold := (update_of_ne ho' _ s.written).symm.trans hk
            have hold : ∀ b', s.io o' ≠ some (b', true) := by
              intro b' hb'
              exact hio' b' ((hioother o' ho').trans hb')
            exact h.written o' k hkold hold
        · intro o' b' hpage'
          by_cases ho' : o' = o
          · subst o'
            have hself := (update_self o _ s.pageList).symm.trans hpage'
            cases free <;> cases hself
          · exact h.filling o' b' ((hpother o' ho').symm.trans hpage')
      | _ => exact h

end

/-- **Step.** Each step that meets the condition keeps the invariant. -/
theorem Inv.step {op : Op γ κ τ} (hadm : s.adm op) (hsearches : s.searchesRecorded op) :
    Inv (s.step zero op) := by
  cases op with
  | attachDevice bytes =>
    exact { h with
      swap := h.swap.attachDevice hadm hsearches
      allocated := h.allocated }
  | startPutPage t o => exact h.startPutPage hadm
  | advance t accepted => exact h.advance hsearches
  | swapIOCompletion o ok =>
    change ok = true at hsearches
    subst ok
    exact h.swapIOCompletion
  | ioComplete o => exact h.ioComplete
  | fault o => exact h.fault
  | startFillPage o => exact h.startFillPage hsearches
  | fillComplete o => exact h.fillComplete
  | touch o contents => exact h.touch
  | giveBack o => exact h.giveBack

end

/-- If `blockHash` is searched for an offset only when its blocks have been recorded, and the
writes succeed, then a page that has been written out is read again. -/
theorem run_reads {ops : List (Op γ κ τ)} (h : (recordedRuns zero).Run (init k) ops s) :
    s.Sound := by
  have hinv : Inv s := by
    refine h.invariant inv_init ?_
    rintro s op hs ⟨hadm, hsearches⟩
    exact hs.step hadm hsearches
  exact hinv.sound

end Invariant

/-! ## One page -/

section Decide

variable [Fintype τ] (s : PageOut γ κ τ) (zero : κ)

instance (o : γ × ℕ) : Decidable (s.Recorded o) :=
  inferInstanceAs (Decidable (∀ t, (s.pc t).recording ≠ some o))

omit [Fintype τ] in
instance : (op : Op γ κ τ) → Decidable (s.adm op)
  | .attachDevice bytes => inferInstanceAs (Decidable (bytes < 2 ^ 64))
  | .startPutPage t _ => inferInstanceAs (Decidable (s.pc t = .idle))
  | .advance _ _ | .swapIOCompletion _ _ | .ioComplete _ | .fault _ | .startFillPage _
  | .fillComplete _ | .touch _ _ | .giveBack _ => isTrue trivial

instance : (op : Op γ κ τ) → Decidable (s.searchesRecorded op)
  | .attachDevice _ => inferInstanceAs (Decidable (s.fr.swap.nextDevID < 2 ^ 12))
  | .advance t _ =>
    decidable_of_iff (∀ o ∈ (s.pc t).searching, s.Recorded o) Iff.rfl
  | .startFillPage o => inferInstanceAs (Decidable (s.Recorded o))
  | .swapIOCompletion _ ok => inferInstanceAs (Decidable (ok = true))
  | .startPutPage _ _ | .ioComplete _ | .fault _ | .fillComplete _ | .touch _ _
  | .giveBack _ => isTrue trivial

omit [Fintype τ] in
instance (op : Op γ κ τ) : Decidable ((runs zero).adm s op) :=
  inferInstanceAs (Decidable (s.adm op))

instance (op : Op γ κ τ) : Decidable ((recordedRuns zero).adm s op) :=
  inferInstanceAs (Decidable (s.adm op ∧ s.searchesRecorded op))

end Decide

/-- A page is made, gets the contents 5, and is being written out. -/
def writesOut : List (Op Unit ℕ Unit) :=
  [.attachDevice (128 * 4096), .fault ((), 0), .startFillPage ((), 0), .touch ((), 0) 5,
    .startPutPage () ((), 0), .advance () true, .advance () true, .advance () true]

/-- The write completes before the block is recorded; the fault comes when it has been. -/
def recordsAndFills : List (Op Unit ℕ Unit) :=
  writesOut ++ [.swapIOCompletion ((), 0) true, .ioComplete ((), 0), .fault ((), 0),
    .advance () true, .startFillPage ((), 0)]

theorem run_reads_recordsAndFills :
    let s := recordsAndFills.foldl (recordedRuns 0).step (init 0)
    (recordedRuns 0).Run (init 0) recordsAndFills s ∧ s.pageList ((), 0) = .filling 0 ∧
      s.written ((), 0) = some 5 ∧ s.disk 0 = 5 ∧ s.Sound := by
  intro s
  have hadmits : (recordedRuns 0).Admits (init 0) recordsAndFills := by decide +kernel
  exact ⟨hadmits.run, by decide +kernel, by decide +kernel, by decide +kernel,
    run_reads hadmits.run⟩

/-- The write completes, and its page faults, before the block is recorded. -/
def fillsFirst : List (Op Unit ℕ Unit) :=
  writesOut ++ [.swapIOCompletion ((), 0) true, .ioComplete ((), 0), .fault ((), 0),
    .startFillPage ((), 0), .advance () true]

/-- The contents of the page are lost: the fill is answered `PAGE_NOT_FOUND`. -/
theorem fills_before_record :
    let s := fillsFirst.foldl (runs 0).step (init 0)
    (runs 0).Run (init 0) fillsFirst s ∧ s.written ((), 0) = some 5 ∧
      s.pageList ((), 0) = .resident 0 false ∧ s.find ((), 0) = some 0 ∧ ¬ s.Sound := by
  intro s
  have hadmits : (runs 0).Admits (init 0) fillsFirst := by decide +kernel
  have hmem : (((), 0), some 5) ∈ s.notFound := by decide +kernel
  exact ⟨hadmits.run, by decide +kernel, by decide +kernel, by decide +kernel,
    fun h => h.found ((), 0) 5 hmem⟩

end PageOut

end K42
