import K42.Lib.Run
import Mathlib.Algebra.Order.Group.Int

/-!
# The count of outstanding IO of a file

`outstanding` goes up before a request is given to the file system and goes down when it is
completed, or when a write that may be restarted is refused. A fill that is answered with
`PAGE_NOT_FOUND`, for which nothing will be completed, is still counted.
-/

namespace K42

/-- `kptref` says whether there is a transport; `accepted` counts the requests that the file system
has accepted and has not completed. -/
structure FRPA where
  filelen : ℕ
  kptref : Bool
  outstanding : ℤ
  accepted : ℕ

namespace FRPA

inductive Rc
  | ok
  | pageNotFound
  | busy
  | wouldBlock
  | failed
deriving DecidableEq

def Rc.success (rc : Rc) : Bool := rc = .ok ∨ rc = .pageNotFound

/-- The stub is called again while it is busy; the delays are 20000 up to 20000000000. -/
def retry (rc : ℕ → Rc) : ℕ → ℕ → Rc
  | 0, k => rc k
  | n + 1, k => if rc k = .busy then retry rc n (k + 1) else rc k

/-- The answer of the transport, or of the stub where there is none. -/
def answer (kptref : Bool) (rc : ℕ → Rc) : Rc := if kptref then rc 0 else retry rc 7 0

def add (s : FRPA) (n : ℤ) : FRPA := { s with outstanding := s.outstanding + n }

def accept (s : FRPA) : FRPA := { s with accepted := s.accepted + 1 }

/-- `none` for a panic; `conv` is what `convertAddressReadFrom` returns, `rc` what the calls of the
transport or of the stub return. -/
def startFillPage (s : FRPA) (objOffset : ℕ) (conv : Rc) (rc : ℕ → Rc) : Option (FRPA × Rc) :=
  if s.filelen ≤ objOffset then some (s, .pageNotFound)
  else if !conv.success then none
  else
    match answer s.kptref rc with
    | .ok => some ((s.add 1).accept, .ok)
    | .pageNotFound => some (s.add 1, .pageNotFound)
    | _ => none

/-- A `tassert` is no panic. The result of `convertAddressWriteTo` is overwritten. -/
def startPutPage (s : FRPA) (objOffset : ℕ) (rr : Bool) (conv : Rc) (rc : ℕ → Rc) :
    Option (FRPA × Rc) :=
  if s.filelen ≤ objOffset then some (s, .ok)
  else if !conv.success && conv ≠ .wouldBlock then none
  else if (answer s.kptref rc).success then some ((s.add 1).accept, answer s.kptref rc)
  else if !s.kptref then none
  else if !rr then some (s.add 1, rc 0)
  else if rc 0 ≠ .wouldBlock then none
  else some ((s.add 1).add (-1), rc 0)

def ioComplete (s : FRPA) : FRPA := { s.add (-1) with accepted := s.accepted - 1 }

inductive Op
  | startFillPage (objOffset : ℕ) (conv : Rc) (rc : ℕ → Rc)
  | startPutPage (objOffset : ℕ) (rr : Bool) (conv : Rc) (rc : ℕ → Rc)
  | ioComplete

def exec (s : FRPA) : Op → Option FRPA
  | .startFillPage objOffset conv rc => (s.startFillPage objOffset conv rc).map Prod.fst
  | .startPutPage objOffset rr conv rc => (s.startPutPage objOffset rr conv rc).map Prod.fst
  | .ioComplete => if 0 < s.accepted then some s.ioComplete else none

/-- The calls that do not panic. Only what has been accepted is completed. -/
def machine : Machine FRPA Op where
  step s op := (s.exec op).getD s
  adm s op := (s.exec op).isSome

def create (filelen : ℕ) (kptref : Bool) : FRPA := ⟨filelen, kptref, 0, 0⟩

/-- The request is refused and is counted all the same. -/
def Op.leaks (filelen : ℕ) (kptref : Bool) : Op → Bool
  | .startFillPage objOffset _ rc => objOffset < filelen &&
      answer kptref rc = .pageNotFound
  | .startPutPage objOffset rr _ rc => objOffset < filelen && kptref && !rr && !(rc 0).success
  | .ioComplete => false

variable {s s' : FRPA} {op : Op} {ops : List Op}

theorem exec_counts (h : s.exec op = some s') :
    s'.filelen = s.filelen ∧ s'.kptref = s.kptref ∧ s'.outstanding - s'.accepted =
      s.outstanding - s.accepted + if op.leaks s.filelen s.kptref then 1 else 0 := by
  cases op with
  | startFillPage objOffset conv rc =>
    obtain ⟨⟨t, r⟩, hfill, rfl⟩ := Option.map_eq_some_iff.mp h
    unfold FRPA.startFillPage at hfill
    unfold Op.leaks
    split_ifs at hfill with hoff hconv
    · cases hfill
      simp [hoff]
    · cases hanswer : answer s.kptref rc <;> rw [hanswer] at hfill <;> cases hfill <;>
        simp [add, accept, not_le.mp hoff, hanswer]
      omega
  | startPutPage objOffset rr conv rc =>
    obtain ⟨⟨t, r⟩, hput, rfl⟩ := Option.map_eq_some_iff.mp h
    unfold FRPA.startPutPage at hput
    unfold Op.leaks
    split_ifs at hput with hoff hconv hok hkpt hrr hblock <;> cases hput
    · simp [hoff]
    · cases hkptref : s.kptref with
      | true =>
        rw [hkptref] at hok
        have hrc : (rc 0).success = true := hok
        simp [add, accept, hrc]
        omega
      | false =>
        simp [add, accept]
        omega
    · have hkptref : s.kptref = true := by simpa using hkpt
      rw [hkptref] at hok
      have hrc : ¬ (rc 0).success = true := hok
      simp [add, not_le.mp hoff, hkptref, hrc, hrr]
      omega
    · simp [add, hrr]
  | ioComplete =>
    unfold exec at h
    split_ifs at h with hpos
    cases h
    simp [ioComplete, add, Op.leaks]
    omega

/-- Every request that leaks adds one. -/
theorem run_leaks {filelen : ℕ} {kptref : Bool} (h : machine.Run (create filelen kptref) ops s) :
    s.filelen = filelen ∧ s.kptref = kptref ∧
      s.outstanding = s.accepted + ops.countP (Op.leaks filelen kptref) := by
  induction h with
  | nil => simp [create]
  | snoc hrun hadm ih =>
    obtain ⟨hlen, hkpt, hcount⟩ := ih
    obtain ⟨s', hexec⟩ := Option.isSome_iff_exists.mp hadm
    obtain ⟨hlen', hkpt', hcount'⟩ := exec_counts hexec
    simp only [machine, hexec, Option.getD_some]
    refine ⟨hlen'.trans hlen, hkpt'.trans hkpt, ?_⟩
    rw [hlen, hkpt] at hcount'
    rw [List.countP_append, List.countP_singleton]
    split_ifs at hcount' ⊢ <;> push_cast <;> omega

/-- **The count is right** just if no fill has been answered with `PAGE_NOT_FOUND` and no write that
cannot be restarted has failed. -/
theorem run_outstanding {filelen : ℕ} {kptref : Bool}
    (h : machine.Run (create filelen kptref) ops s) :
    s.outstanding = s.accepted ↔ ∀ op ∈ ops, op.leaks filelen kptref = false := by
  have hcount := (run_leaks h).2.2
  have hnone : ops.countP (Op.leaks filelen kptref) = 0 ↔
      ∀ op ∈ ops, op.leaks filelen kptref = false := by
    simp [List.countP_eq_zero]
  rw [← hnone]
  omega

theorem run_outstanding_completed : ∃ s,
    machine.Run (create 4096 true) [.startFillPage 0 .ok fun _ => .ok, .ioComplete] s ∧
      (s.outstanding = s.accepted ↔ ∀ op ∈ [Op.startFillPage 0 .ok fun _ => .ok, .ioComplete],
        op.leaks 4096 true = false) :=
  have h : machine.Run (create 4096 true)
      ([] ++ [.startFillPage 0 .ok fun _ => .ok] ++ [.ioComplete]) _ := .snoc (.snoc .nil rfl) rfl
  ⟨_, h, run_outstanding h⟩

/-- A page of a file that the file system does not have. -/
theorem not_run_outstanding : ¬ ∀ (filelen : ℕ) (kptref : Bool) (ops : List Op) (s : FRPA),
    machine.Run (create filelen kptref) ops s → s.outstanding = s.accepted := by
  intro h
  have hrun : machine.Run (create 4096 true)
      ([] ++ [.startFillPage 0 .ok fun _ => .pageNotFound]) _ := .snoc .nil rfl
  exact absurd (h _ _ _ _ hrun) (by decide)

end FRPA

end K42
