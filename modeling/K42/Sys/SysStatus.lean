import Mathlib.Algebra.Group.Nat.Defs
import Mathlib.Logic.Basic

/-!
# Status codes and machine constants

`SysStatus` values that report an error carry an error code, a class code and a
generic (errno) code; `passert` is the panic assertion that stays in the final
code. Page-size constants are those of the 64-bit targets.
-/

namespace K42

/-- The generic codes the modelled code returns; `E0` is the code zero. -/
inductive Errno
  | E0 | EPERM | ENOENT | ENXIO | EEXIST | EINVAL | ENOMEM | ENOSPC | ERANGE | ENOTEMPTY | EMLINK
  | ELOOP | ENAMETOOLONG
deriving DecidableEq

/-- Why a call does not succeed: an error status, a failed assertion, or a null
or stray pointer that is followed. -/
inductive Failure
  | serror (ec cc : Nat) (gc : Errno)
  | passert
  | fault
deriving DecidableEq

theorem map_eq_ok {α β : Type*} {f : α → β} {res : Except Failure α} {b : β}
    (h : res.map f = .ok b) : ∃ a, res = .ok a ∧ f a = b := by
  cases res with
  | error e => cases h
  | ok a => exact ⟨a, rfl, Except.ok.inj h⟩

/-- `PAGE_SIZE`, `1 << LOG_PAGE_SIZE`. -/
abbrev PAGE_SIZE : Nat := 4096

/-- `PAGE_MASK`. -/
abbrev PAGE_MASK : Nat := PAGE_SIZE - 1

/-- `MIN_PAGE_MASK`; the minimal page is the page on the modelled targets. -/
abbrev MIN_PAGE_MASK : Nat := PAGE_MASK

/-- The number of addresses of a `uval`. -/
abbrev UVAL : Nat := 2 ^ 64

end K42
