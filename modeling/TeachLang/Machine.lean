import TeachLang.Reader
import TeachLang.Scopes
import TeachLang.Sink

/-!
# The state of a run

Evaluation leaves every value in one register, where whoever asked for it finds it. A step of
evaluation answers with a value or an error, and the machine as it is then; it has no answer if
the bound on its depth is used up, whatever was done until then.
-/

namespace TeachLang

structure Machine where
  scopes : Scopes := {}
  register : Int64 := 0
  reader : Reader := {}
  sink : Sink := {}
  deriving DecidableEq

abbrev Eval := ExceptT Error (StateT Machine Option)

namespace Eval

variable {α : Type}

def unbounded : Eval α := fun _ => none

def ofState (f : Machine → Except Error α × Machine) : Eval α := fun m => some (f m)

def raise (fault : Fault) (span : Span) : Eval α := throw (.runtime (.located fault span))

def orRaise (value : Option α) (fault : Fault) (span : Span) : Eval α :=
  match value with
  | some v => return v
  | none => raise fault span

def register : Eval Int64 := return (← get).register

def setRegister (value : Int64) : Eval Unit := modify fun m => { m with register := value }

def lookup (name : String) (span : Span) : Eval Int64 := do
  match (← get).scopes.lookup name with
  | .ok value => return value
  | .error fault => raise fault span

def assign (name : String) (value : Int64) : Eval Unit :=
  modify fun m => { m with scopes := m.scopes.assign name value }

def declare (name : String) (value : Int64) (span : Span) : Eval Unit := do
  match (← get).scopes.declare name value with
  | .ok scopes => modify fun m => { m with scopes := scopes }
  | .error fault => raise fault span

def takeInteger : Eval (Option Int64) :=
  ofState fun m =>
    let (result, reader) := m.reader.takeInteger
    (result, { m with reader := reader })

def write (text : String) : Eval Unit :=
  ofState fun m =>
    let (result, sink) := m.sink.write text
    (result, { m with sink := sink })

def flush : Eval Unit := ofState fun m => (m.sink.flush, m)

/-- Runs a step in a scope of its own, which is left however the step ends. -/
def inScope (step : Eval α) : Eval α := fun m =>
  match step { m with scopes := m.scopes.push } with
  | none => none
  | some (result, m) => some (result, { m with scopes := m.scopes.pop.toOption.getD m.scopes })

def outcome (step : Eval α) : Eval (Except Error α) := fun m =>
  match step m with
  | none => none
  | some (result, m) => some (.ok result, m)

variable {β : Type} (m : Machine)

theorem bind_apply (x : Eval α) (f : α → Eval β) :
    (x >>= f) m =
      match x m with
      | none => none
      | some (.ok a, m) => f a m
      | some (.error e, m) => some (.error e, m) := by
  rcases h : x m with _ | ⟨_ | _, _⟩ <;>
    simp [bind, ExceptT.bind, ExceptT.mk, StateT.bind, h] <;> rfl

@[simp] theorem pure_apply (a : α) : (pure a : Eval α) m = some (.ok a, m) := rfl

@[simp] theorem throw_apply (e : Error) : (throw e : Eval α) m = some (.error e, m) := rfl

@[simp] theorem get_apply : (get : Eval Machine) m = some (.ok m, m) := rfl

@[simp] theorem modify_apply (f : Machine → Machine) :
    (modify f : Eval Unit) m = some (.ok (), f m) := rfl

@[simp] theorem unbounded_apply : (unbounded : Eval α) m = none := rfl

@[simp] theorem raise_apply (fault : Fault) (span : Span) :
    (raise fault span : Eval α) m = some (.error (.runtime (.located fault span)), m) := rfl

@[simp] theorem register_apply : register m = some (.ok m.register, m) := rfl

@[simp] theorem setRegister_apply (value : Int64) :
    setRegister value m = some (.ok (), { m with register := value }) := rfl

end Eval

end TeachLang
