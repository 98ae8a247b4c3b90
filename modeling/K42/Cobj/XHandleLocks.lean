import Mathlib.Data.Nat.Notation
import Mathlib.Logic.Function.Basic

/-!
# The locks of the object lists and the process lists

An xhandle is on a list of its object and on one of its process. Each list has a lock that is refused
when the list is closing, and that is not released then.

`demolish` keeps the status of the lock of the process list as the flag that says that it has been
acquired. The status is 0 when it has.
-/

open Function (update)

namespace K42.XHandleLocks

inductive Which
  | object
  | process
deriving DecidableEq

inductive Event
  | acquire
  | release
deriving DecidableEq

/-- `trace` has what has been done to the locks. -/
structure Lists where
  closing : Which → Bool
  ring : Which → List ℕ
  trace : List (Which × Event)

namespace Lists

def log (s : Lists) (w : Which) (e : Event) : Lists := { s with trace := s.trace ++ [(w, e)] }

/-- The status is 0 for success. -/
def lockIfNotClosing (s : Lists) (w : Which) : Lists × ℕ :=
  if s.closing w then (s, 1528) else (s.log w .acquire, 0)

def unlockIfNotClosing (s : Lists) (w : Which) : Lists :=
  if s.closing w then s else s.log w .release

def addXObj (s : Lists) (w : Which) (xhandle : ℕ) : Lists :=
  { s with ring := update s.ring w (xhandle :: s.ring w) }

def removeXObj (s : Lists) (w : Which) (xhandle : ℕ) : Lists :=
  { s with ring := update s.ring w ((s.ring w).erase xhandle) }

/-- `op` is done only if `b`. -/
def only (b : Bool) (op : Lists → Lists) (s : Lists) : Lists := if b then op s else s

end Lists

/-- What `getRefFromPID` finds. -/
inductive Owner
  | gone
  | null
  | present
deriving DecidableEq

/-- `skipKernel` is `__NO_REGISTER_WITH_KERNEL_WRAPPER`. -/
structure XObj where
  skipKernel : Bool
  kernel : Bool
  owner : Owner
  objRef : Bool
  valid : Bool

/-- The lock of the process list is taken. -/
def XObj.registers (x : XObj) : Bool := !(x.skipKernel && x.kernel)

open Lists

/-- `false` for an error. -/
def alloc (x : XObj) (xhandle : ℕ) (s : Lists) : Lists × Bool :=
  let (s, rc) := s.lockIfNotClosing .object
  if rc ≠ 0 then (s, false)
  else
    let (s, rc) := if x.registers then s.lockIfNotClosing .process else (s, 0)
    if rc ≠ 0 then (s.unlockIfNotClosing .object, false)
    else
      let s := only x.registers (addXObj · .process xhandle) s
      let s := s.addXObj .object xhandle
      let s := only x.registers (unlockIfNotClosing · .process) s
      (s.unlockIfNotClosing .object, true)

def free (x : XObj) (xhandle : ℕ) (s : Lists) : Lists :=
  if x.registers && x.owner ≠ .present then s
  else if !x.objRef then s
  else
    let (s, rc) := s.lockIfNotClosing .object
    if rc ≠ 0 then s
    else
      let (s, rc) := if x.registers then s.lockIfNotClosing .process else (s, 0)
      if rc ≠ 0 then s.unlockIfNotClosing .object
      else
        let s :=
          if x.valid then
            let s := only x.registers (removeXObj · .process xhandle) s
            s.removeXObj .object xhandle
          else s
        let s := only x.registers (unlockIfNotClosing · .process) s
        s.unlockIfNotClosing .object

/-- An object that is 0 is a fault. -/
def demolish (x : XObj) (xhandle : ℕ) (s : Lists) : Lists :=
  if !x.objRef then s
  else
    let procRef := !x.kernel && x.owner = .present
    let (s, _) := s.lockIfNotClosing .object
    let (s, procLocked) := if procRef then s.lockIfNotClosing .process else (s, 0)
    let s := only procRef (removeXObj · .process xhandle) s
    let s := s.removeXObj .object xhandle
    let s := only (procLocked ≠ 0 && !x.kernel) (unlockIfNotClosing · .process) s
    s.unlockIfNotClosing .object

/-- Each lock has been acquired and released once, or has been left alone. -/
def Disciplined (s : Lists) : Prop := ∀ w, s.trace.filter (·.1 = w) = [] ∨
  s.trace.filter (·.1 = w) = [(w, .acquire), (w, .release)]

theorem Which.forall {p : Which → Prop} : (∀ w, p w) ↔ p .object ∧ p .process := by
  constructor
  · intro h
    exact ⟨h .object, h .process⟩
  · rintro ⟨hobject, hprocess⟩ w
    cases w with
    | object => exact hobject
    | process => exact hprocess

theorem alloc_disciplined (x : XObj) (xhandle : ℕ) {s : Lists} (h : s.trace = []) :
    Disciplined (alloc x xhandle s).1 ∧
      ((alloc x xhandle s).2 = false → (alloc x xhandle s).1.ring = s.ring) := by
  unfold Disciplined
  rw [Which.forall]
  cases hobj : s.closing .object <;> cases hproc : s.closing .process <;>
    cases hreg : x.registers <;>
    simp [alloc, lockIfNotClosing, unlockIfNotClosing, only, log, addXObj, hobj, hproc, hreg, h]

theorem free_disciplined (x : XObj) (xhandle : ℕ) {s : Lists} (h : s.trace = []) :
    Disciplined (free x xhandle s) := by
  unfold Disciplined
  rw [Which.forall]
  cases hobj : s.closing .object <;> cases hproc : s.closing .process <;>
    cases hreg : x.registers <;> cases howner : x.owner <;> cases href : x.objRef <;>
    cases hvalid : x.valid <;>
    simp [free, lockIfNotClosing, unlockIfNotClosing, only, log, removeXObj, hobj, hproc, hreg,
      howner, href, hvalid, h]

theorem demolish_disciplined_iff (x : XObj) (xhandle : ℕ) {s : Lists} (h : s.trace = []) :
    Disciplined (demolish x xhandle s) ↔
      ¬ (x.objRef ∧ x.kernel = false ∧ x.owner = .present ∧ s.closing .process = false) := by
  unfold Disciplined
  rw [Which.forall]
  cases hobj : s.closing .object <;> cases hproc : s.closing .process <;>
    cases hkernel : x.kernel <;> cases howner : x.owner <;> cases href : x.objRef <;>
    simp [demolish, lockIfNotClosing, unlockIfNotClosing, only, log, removeXObj, hobj, hproc,
      hkernel, howner, href, h]

/-- **The lock discipline** is kept by `alloc` and `free`, and by `demolish` just if it does not
acquire the lock of a process list. -/
theorem disciplined_iff (x : XObj) (xhandle : ℕ) {s : Lists} (h : s.trace = []) :
    (Disciplined (alloc x xhandle s).1 ∧
      ((alloc x xhandle s).2 = false → (alloc x xhandle s).1.ring = s.ring) ∧
      Disciplined (free x xhandle s) ∧ Disciplined (demolish x xhandle s)) ↔
      ¬ (x.objRef ∧ x.kernel = false ∧ x.owner = .present ∧ s.closing .process = false) := by
  have halloc := alloc_disciplined x xhandle h
  rw [← demolish_disciplined_iff x xhandle h]
  constructor
  · rintro ⟨-, -, -, hdemolish⟩
    exact hdemolish
  · intro hdemolish
    exact ⟨halloc.1, halloc.2, free_disciplined x xhandle h, hdemolish⟩

theorem disciplined_iff_kernel :
    (Disciplined (alloc ⟨true, true, .null, true, true⟩ 5 ⟨fun _ => false, fun _ => [], []⟩).1 ∧
      ((alloc ⟨true, true, .null, true, true⟩ 5 ⟨fun _ => false, fun _ => [], []⟩).2 = false →
        (alloc ⟨true, true, .null, true, true⟩ 5 ⟨fun _ => false, fun _ => [], []⟩).1.ring =
          fun _ => []) ∧
      Disciplined (free ⟨true, true, .null, true, true⟩ 5 ⟨fun _ => false, fun _ => [], []⟩) ∧
      Disciplined (demolish ⟨true, true, .null, true, true⟩ 5
        ⟨fun _ => false, fun _ => [], []⟩)) ↔
      ¬ (true ∧ true = false ∧ Owner.null = .present ∧ false = false) :=
  disciplined_iff ⟨true, true, .null, true, true⟩ 5 rfl

/-- The process list of a live process stays locked. -/
theorem not_disciplined : ¬ ∀ (x : XObj) (xhandle : ℕ) (s : Lists), s.trace = [] →
    Disciplined (alloc x xhandle s).1 ∧
      ((alloc x xhandle s).2 = false → (alloc x xhandle s).1.ring = s.ring) ∧
      Disciplined (free x xhandle s) ∧ Disciplined (demolish x xhandle s) := by
  intro h
  obtain ⟨-, -, -, hdemolish⟩ := h ⟨false, false, .present, true, true⟩ 5
    ⟨fun _ => false, fun _ => [5], []⟩ rfl
  exact absurd (hdemolish .process) (by decide)

end K42.XHandleLocks
