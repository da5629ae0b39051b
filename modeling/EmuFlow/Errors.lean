import EmuFlow.Lib.Check

/-!
# Errors

The exceptions of `emuflow/errors.py`, with the Python exceptions the modelled code can raise
by itself. A message is the source's f-string with `%s` where it formats a value (`%r` where it
formats its `repr`), followed by these values in order.
-/

namespace EmuFlow

inductive EmuFlowError where
  /-- `EmuFlowError`, the base class. -/
  | emuFlow (message : String) (values : List String)
  /-- `ValidationError`. -/
  | validation (message : String) (values : List String)
  /-- `TDMScheduleInfeasibleError`. -/
  | tdmScheduleInfeasible (message : String) (values : List String)
  /-- Python's `ValueError`. -/
  | valueError (message : String) (values : List String)
  /-- Python's `KeyError`, and `StopIteration` of a `next` without a default. -/
  | keyError (key : String)
  /-- Another exception of Python or of its `sqlite3`, by its class. -/
  | raised (cls message : String)
  deriving DecidableEq

/-- `raise ValidationError(message)`, without formatted values. -/
def ValidationError (message : String) : EmuFlowError := .validation message []

/-- A result of the flow: a value, or the exception that was raised. -/
abbrev Result := Except EmuFlowError

/-- `mapping[key]` on an optional lookup. -/
def lookupOrRaise {α : Type} (key : String) : Option α → Result α
  | some a => .ok a
  | none => .error (.keyError key)

@[simp] theorem lookupOrRaise_eq_ok {α : Type} {key : String} {o : Option α} {a : α} :
    lookupOrRaise key o = .ok a ↔ o = some a := by
  cases o <;> simp [lookupOrRaise]

end EmuFlow
