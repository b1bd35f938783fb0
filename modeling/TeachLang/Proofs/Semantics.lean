import TeachLang.Machine
import TeachLang.Proofs.Layout

/-!
# The semantics of trees

What it means that the evaluation of a node ends, said without a bound: the outcome and the machine
that it leaves are derived by rules, some for each form of node. A rule that needs a child has a
premise for it, and an error of a child is the error of the node, with the machine left as it was
when the error arose.
-/

namespace TeachLang

open TeachLang.Tree

namespace Scopes

/-- The nearest binding of the name is changed, or one is made in the innermost scope. -/
inductive Assigns (x : String) (v : Int64) (s : Scopes) : Scopes → Prop
  | nearest {s' : Scopes} {before rest : List Frame} {f : Frame}
      (hs : s.frames = before ++ f :: rest) (hbefore : ∀ g ∈ before, g.has x = false)
      (hf : f.has x = true) (hs' : s'.frames = before ++ f.set x v :: rest) : Assigns x v s s'
  | create (h : ∀ f ∈ s.frames, f.has x = false) :
      Assigns x v s { s with inner := s.inner.set x v }

variable {x : String} {v : Int64}

theorem update?_eq_some {before rest : List Frame} {f : Frame}
    (hbefore : ∀ g ∈ before, g.has x = false) (hf : f.has x = true) :
    update? x v (before ++ f :: rest) = some (before ++ f.set x v :: rest) := by
  induction before with
  | nil => simp [update?, hf]
  | cons g before ih =>
    have hg := hbefore g List.mem_cons_self
    have ih := ih fun g' hg' => hbefore g' (List.mem_cons_of_mem g hg')
    simp [update?, hg, ih]

theorem update?_eq_none {fs : List Frame} (h : ∀ f ∈ fs, f.has x = false) :
    update? x v fs = none := by
  induction fs with
  | nil => rfl
  | cons f fs ih =>
    have hf := h f List.mem_cons_self
    simp [update?, hf, ih fun g hg => h g (List.mem_cons_of_mem f hg)]

/-- A list of frames has a first one with the name, unless none has it. -/
theorem exists_first_frame (x : String) (fs : List Frame) :
    (∀ f ∈ fs, f.has x = false) ∨ ∃ before f rest, fs = before ++ f :: rest ∧
      (∀ g ∈ before, g.has x = false) ∧ f.has x = true := by
  induction fs with
  | nil => exact .inl nofun
  | cons f fs ih =>
    by_cases hf : f.has x = true
    · exact .inr ⟨[], f, fs, rfl, nofun, hf⟩
    · rw [Bool.not_eq_true] at hf
      rcases ih with h | ⟨before, g, rest, rfl, hbefore, hg⟩
      · exact .inl (List.forall_mem_cons.2 ⟨hf, h⟩)
      · exact .inr ⟨f :: before, g, rest, rfl, List.forall_mem_cons.2 ⟨hf, hbefore⟩, hg⟩

theorem frames_assign (s : Scopes) :
    (s.assign x v).frames = (update? x v s.frames).getD (s.inner.set x v :: s.outer) := by
  unfold assign frames declaredInner
  rw [update?]
  by_cases hx : s.inner.has x = true
  · simp [hx]
  · cases update? x v s.outer <;> simp [hx]

theorem eq_of_frames_eq {s s' : Scopes} (h : s.frames = s'.frames) : s = s' := by
  cases s
  cases s'
  cases h
  rfl

theorem assigns_iff {s s' : Scopes} : s.Assigns x v s' ↔ s' = s.assign x v := by
  constructor
  · intro h
    apply eq_of_frames_eq
    rw [frames_assign]
    cases h with
    | nearest hs hbefore hf hs' => rw [hs, update?_eq_some hbefore hf, hs', Option.getD_some]
    | create h => rw [update?_eq_none h, Option.getD_none, frames]
  · rintro rfl
    rcases exists_first_frame x s.frames with h | ⟨before, f, rest, hs, hbefore, hf⟩
    · have hcreate : s.assign x v = { s with inner := s.inner.set x v } := by
        apply eq_of_frames_eq
        rw [frames_assign, update?_eq_none h, Option.getD_none, frames]
      rw [hcreate]
      exact .create h
    · refine .nearest hs hbefore hf ?_
      rw [frames_assign, hs, update?_eq_some hbefore hf, Option.getD_some]

end Scopes

inductive Task where
  | node (id : NodeId)
  | sequence (ids : List NodeId)
  | rounds (condition body : NodeId) (step : Option NodeId)

def faultAt (fault : Fault) (span : Span) : Except Error Unit :=
  .error (.runtime (.located fault span))

def LogicOperator.NeedsRight (op : LogicOperator) (a : Int64) : Prop :=
  (op = .and → a ≠ 0) ∧ (op = .or → a = 0)

/-- The task, begun with the first machine, ends with the outcome and the second machine. A value
is left in the register. -/
inductive Evaluates (t : Tree) : Task → Machine → Except Error Unit → Machine → Prop
  | literal {id : NodeId} {span : Span} {v : Int64} {m : Machine}
      (h : t.Bears id span (.literal v)) :
      Evaluates t (.node id) m (.ok ()) { m with register := v }

  | reference {id : NodeId} {span : Span} {x : String} {v : Int64} {m : Machine}
      (h : t.Bears id span (.reference x)) (hx : m.scopes.get? x = some v) :
      Evaluates t (.node id) m (.ok ()) { m with register := v }
  | undefined {id : NodeId} {span : Span} {x : String} {m : Machine}
      (h : t.Bears id span (.reference x)) (hx : m.scopes.get? x = none) :
      Evaluates t (.node id) m (faultAt (.undefinedVariable x) span) m

  | unaryMissing {id : NodeId} {span : Span} {op : UnaryOperator} {m : Machine}
      (h : t.Bears id span (.unary op none)) :
      Evaluates t (.node id) m (faultAt (.missingOperand .unary) span) m
  | unaryError {id k : NodeId} {span : Span} {op : UnaryOperator} {e : Error} {m m₁ : Machine}
      (h : t.Bears id span (.unary op (some k))) (hk : Evaluates t (.node k) m (.error e) m₁) :
      Evaluates t (.node id) m (.error e) m₁
  | unary {id k : NodeId} {span : Span} {op : UnaryOperator} {m m₁ : Machine}
      (h : t.Bears id span (.unary op (some k))) (hk : Evaluates t (.node k) m (.ok ()) m₁) :
      Evaluates t (.node id) m (.ok ()) { m₁ with register := op.apply m₁.register }

  | arithmeticMissing {id : NodeId} {span : Span} {op : ArithmeticOperator}
      {left right : Option NodeId} {m : Machine} (h : t.Bears id span (.arithmetic op left right))
      (hmissing : left = none ∨ right = none) :
      Evaluates t (.node id) m (faultAt (.missingOperand .arithmetic) span) m
  | arithmeticLeftError {id k l : NodeId} {span : Span} {op : ArithmeticOperator} {e : Error}
      {m m₁ : Machine} (h : t.Bears id span (.arithmetic op (some k) (some l)))
      (hk : Evaluates t (.node k) m (.error e) m₁) : Evaluates t (.node id) m (.error e) m₁
  | arithmeticRightError {id k l : NodeId} {span : Span} {op : ArithmeticOperator} {e : Error}
      {m m₁ m₂ : Machine} (h : t.Bears id span (.arithmetic op (some k) (some l)))
      (hk : Evaluates t (.node k) m (.ok ()) m₁) (hl : Evaluates t (.node l) m₁ (.error e) m₂) :
      Evaluates t (.node id) m (.error e) m₂
  | divisionByZero {id k l : NodeId} {span : Span} {op : ArithmeticOperator} {m m₁ m₂ : Machine}
      (h : t.Bears id span (.arithmetic op (some k) (some l)))
      (hk : Evaluates t (.node k) m (.ok ()) m₁) (hl : Evaluates t (.node l) m₁ (.ok ()) m₂)
      (hv : op.apply m₁.register m₂.register = none) :
      Evaluates t (.node id) m (faultAt .divisionByZero span) m₂
  | arithmetic {id k l : NodeId} {span : Span} {op : ArithmeticOperator} {v : Int64}
      {m m₁ m₂ : Machine} (h : t.Bears id span (.arithmetic op (some k) (some l)))
      (hk : Evaluates t (.node k) m (.ok ()) m₁) (hl : Evaluates t (.node l) m₁ (.ok ()) m₂)
      (hv : op.apply m₁.register m₂.register = some v) :
      Evaluates t (.node id) m (.ok ()) { m₂ with register := v }

  | logicLeftMissing {id : NodeId} {span : Span} {op : LogicOperator} {right : Option NodeId}
      {m : Machine} (h : t.Bears id span (.logic op none right)) :
      Evaluates t (.node id) m (faultAt (.missingOperand .logic) span) m
  | logicLeftError {id k : NodeId} {span : Span} {op : LogicOperator} {right : Option NodeId}
      {e : Error} {m m₁ : Machine} (h : t.Bears id span (.logic op (some k) right))
      (hk : Evaluates t (.node k) m (.error e) m₁) : Evaluates t (.node id) m (.error e) m₁
  | andFalse {id k : NodeId} {span : Span} {right : Option NodeId} {m m₁ : Machine}
      (h : t.Bears id span (.logic .and (some k) right))
      (hk : Evaluates t (.node k) m (.ok ()) m₁) (hv : m₁.register = 0) :
      Evaluates t (.node id) m (.ok ()) { m₁ with register := 0 }
  | orTrue {id k : NodeId} {span : Span} {right : Option NodeId} {m m₁ : Machine}
      (h : t.Bears id span (.logic .or (some k) right))
      (hk : Evaluates t (.node k) m (.ok ()) m₁) (hv : m₁.register ≠ 0) :
      Evaluates t (.node id) m (.ok ()) { m₁ with register := 1 }
  | logicRightMissing {id k : NodeId} {span : Span} {op : LogicOperator} {m m₁ : Machine}
      (h : t.Bears id span (.logic op (some k) none)) (hk : Evaluates t (.node k) m (.ok ()) m₁)
      (hneeds : op.NeedsRight m₁.register) :
      Evaluates t (.node id) m (faultAt (.missingOperand .logic) span) m₁
  | logicRightError {id k l : NodeId} {span : Span} {op : LogicOperator} {e : Error}
      {m m₁ m₂ : Machine} (h : t.Bears id span (.logic op (some k) (some l)))
      (hk : Evaluates t (.node k) m (.ok ()) m₁) (hneeds : op.NeedsRight m₁.register)
      (hl : Evaluates t (.node l) m₁ (.error e) m₂) : Evaluates t (.node id) m (.error e) m₂
  | logic {id k l : NodeId} {span : Span} {op : LogicOperator} {m m₁ m₂ : Machine}
      (h : t.Bears id span (.logic op (some k) (some l)))
      (hk : Evaluates t (.node k) m (.ok ()) m₁) (hneeds : op.NeedsRight m₁.register)
      (hl : Evaluates t (.node l) m₁ (.ok ()) m₂) :
      Evaluates t (.node id) m (.ok ()) { m₂ with register := op.apply m₁.register m₂.register }

  | expressionMissing {id : NodeId} {span : Span} {m : Machine}
      (h : t.Bears id span (.expression none)) :
      Evaluates t (.node id) m (faultAt (.missingExpression .expression) span) m
  | expression {id k : NodeId} {span : Span} {r : Except Error Unit} {m m₁ : Machine}
      (h : t.Bears id span (.expression (some k))) (hk : Evaluates t (.node k) m r m₁) :
      Evaluates t (.node id) m r m₁

  | printMissing {id : NodeId} {span : Span} {m : Machine} (h : t.Bears id span (.print none)) :
      Evaluates t (.node id) m (faultAt (.missingExpression .print) span) m
  | printInvalid {id k : NodeId} {span place : Span} {f : Form} {m : Machine}
      (h : t.Bears id span (.print (some k))) (hf : t.Bears k place f)
      (hkind : f.kind.evaluable = false) :
      Evaluates t (.node id) m (faultAt (.invalidExpression f.kind) place) m
  | printError {id k : NodeId} {span place : Span} {f : Form} {e : Error} {m m₁ : Machine}
      (h : t.Bears id span (.print (some k))) (hf : t.Bears k place f)
      (hkind : f.kind.evaluable = true) (hk : Evaluates t (.node k) m (.error e) m₁) :
      Evaluates t (.node id) m (.error e) m₁
  | print {id k : NodeId} {span place : Span} {f : Form} {r : Except Error Unit} {m m₁ : Machine}
      {sink : Sink} (h : t.Bears id span (.print (some k))) (hf : t.Bears k place f)
      (hkind : f.kind.evaluable = true) (hk : Evaluates t (.node k) m (.ok ()) m₁)
      (hwrite : m₁.sink.write (Text.integerText m₁.register ++ "\n") = (r, sink)) :
      Evaluates t (.node id) m r { m₁ with sink := sink }

  | assignTargetMissing {id : NodeId} {span : Span} {value : Option NodeId} {m : Machine}
      (h : t.Bears id span (.assign none value)) :
      Evaluates t (.node id) m (faultAt (.invalidAssignTarget none) span) m
  | assignTargetInvalid {id k : NodeId} {span place : Span} {value : Option NodeId} {f : Form}
      {m : Machine} (h : t.Bears id span (.assign (some k) value)) (hf : t.Bears k place f)
      (hkind : f.kind ≠ .reference) :
      Evaluates t (.node id) m (faultAt (.invalidAssignTarget (some f.kind)) place) m
  | assignValueMissing {id k : NodeId} {span place : Span} {x : String} {m : Machine}
      (h : t.Bears id span (.assign (some k) none)) (hk : t.Bears k place (.reference x)) :
      Evaluates t (.node id) m (faultAt (.missingOperand .assign) span) m
  | assignError {id k l : NodeId} {span place : Span} {x : String} {e : Error} {m m₁ : Machine}
      (h : t.Bears id span (.assign (some k) (some l))) (hk : t.Bears k place (.reference x))
      (hl : Evaluates t (.node l) m (.error e) m₁) : Evaluates t (.node id) m (.error e) m₁
  | assign {id k l : NodeId} {span place : Span} {x : String} {m m₁ : Machine} {s : Scopes}
      (h : t.Bears id span (.assign (some k) (some l))) (hk : t.Bears k place (.reference x))
      (hl : Evaluates t (.node l) m (.ok ()) m₁) (hs : m₁.scopes.Assigns x m₁.register s) :
      Evaluates t (.node id) m (.ok ()) { m₁ with scopes := s }

  | declarationError {id k : NodeId} {span : Span} {x : String} {e : Error} {m m₁ : Machine}
      (h : t.Bears id span (.declaration x (some k)))
      (hk : Evaluates t (.node k) m (.error e) m₁) : Evaluates t (.node id) m (.error e) m₁
  | declaration {id k : NodeId} {span : Span} {x : String} {m m₁ : Machine}
      (h : t.Bears id span (.declaration x (some k))) (hk : Evaluates t (.node k) m (.ok ()) m₁)
      (hx : m₁.scopes.inner.has x = false) :
      Evaluates t (.node id) m (.ok ())
        { m₁ with scopes := { m₁.scopes with inner := m₁.scopes.inner.set x m₁.register } }
  | duplicate {id k : NodeId} {span : Span} {x : String} {m m₁ : Machine}
      (h : t.Bears id span (.declaration x (some k))) (hk : Evaluates t (.node k) m (.ok ()) m₁)
      (hx : m₁.scopes.inner.has x = true) :
      Evaluates t (.node id) m (faultAt (.duplicateDeclaration x) span) m₁
  | zeroDeclaration {id : NodeId} {span : Span} {x : String} {m : Machine}
      (h : t.Bears id span (.declaration x none)) (hx : m.scopes.inner.has x = false) :
      Evaluates t (.node id) m (.ok ())
        { m with
          register := 0
          scopes := { m.scopes with inner := m.scopes.inner.set x 0 } }
  | zeroDuplicate {id : NodeId} {span : Span} {x : String} {m : Machine}
      (h : t.Bears id span (.declaration x none)) (hx : m.scopes.inner.has x = true) :
      Evaluates t (.node id) m (faultAt (.duplicateDeclaration x) span) { m with register := 0 }

  | inputTargetMissing {id : NodeId} {span : Span} {m : Machine}
      (h : t.Bears id span (.input none)) :
      Evaluates t (.node id) m (faultAt (.invalidInputTarget none) span) m
  | inputTargetInvalid {id k : NodeId} {span place : Span} {f : Form} {m : Machine}
      (h : t.Bears id span (.input (some k))) (hf : t.Bears k place f)
      (hkind : f.kind ≠ .reference) :
      Evaluates t (.node id) m (faultAt (.invalidInputTarget (some f.kind)) place) m
  | inputError {id k : NodeId} {span place : Span} {x : String} {e : Error} {m : Machine}
      {reader : Reader} (h : t.Bears id span (.input (some k)))
      (hk : t.Bears k place (.reference x)) (hread : m.reader.takeInteger = (.error e, reader)) :
      Evaluates t (.node id) m (.error e) { m with reader := reader }
  | inputFormat {id k : NodeId} {span place : Span} {x : String} {m : Machine} {reader : Reader}
      (h : t.Bears id span (.input (some k))) (hk : t.Bears k place (.reference x))
      (hread : m.reader.takeInteger = (.ok none, reader)) :
      Evaluates t (.node id) m (faultAt .inputFormat span) { m with reader := reader }
  | input {id k : NodeId} {span place : Span} {x : String} {v : Int64} {m : Machine}
      {reader : Reader} {s : Scopes} (h : t.Bears id span (.input (some k)))
      (hk : t.Bears k place (.reference x))
      (hread : m.reader.takeInteger = (.ok (some v), reader)) (hs : m.scopes.Assigns x v s) :
      Evaluates t (.node id) m (.ok ()) { m with reader := reader, scopes := s }

  | ifConditionMissing {id : NodeId} {span : Span} {thenBranch elseBranch : Option NodeId}
      {m : Machine} (h : t.Bears id span (.ifElse none thenBranch elseBranch)) :
      Evaluates t (.node id) m (faultAt (.missingCondition .ifElse) span) m
  | ifConditionInvalid {id k : NodeId} {span place : Span} {thenBranch elseBranch : Option NodeId}
      {f : Form} {m : Machine} (h : t.Bears id span (.ifElse (some k) thenBranch elseBranch))
      (hf : t.Bears k place f) (hkind : f.kind.evaluable = false) :
      Evaluates t (.node id) m (faultAt (.invalidCondition f.kind) place) m
  | ifConditionError {id k : NodeId} {span place : Span} {thenBranch elseBranch : Option NodeId}
      {f : Form} {e : Error} {m m₁ : Machine}
      (h : t.Bears id span (.ifElse (some k) thenBranch elseBranch)) (hf : t.Bears k place f)
      (hkind : f.kind.evaluable = true) (hk : Evaluates t (.node k) m (.error e) m₁) :
      Evaluates t (.node id) m (.error e) m₁
  | thenMissing {id k : NodeId} {span place : Span} {elseBranch : Option NodeId} {f : Form}
      {m m₁ : Machine} (h : t.Bears id span (.ifElse (some k) none elseBranch))
      (hf : t.Bears k place f) (hkind : f.kind.evaluable = true)
      (hk : Evaluates t (.node k) m (.ok ()) m₁) (hv : m₁.register ≠ 0) :
      Evaluates t (.node id) m (faultAt .missingThenBranch span) m₁
  | ifThen {id k l : NodeId} {span place : Span} {elseBranch : Option NodeId} {f : Form}
      {r : Except Error Unit} {m m₁ m₂ : Machine}
      (h : t.Bears id span (.ifElse (some k) (some l) elseBranch)) (hf : t.Bears k place f)
      (hkind : f.kind.evaluable = true) (hk : Evaluates t (.node k) m (.ok ()) m₁)
      (hv : m₁.register ≠ 0) (hl : Evaluates t (.node l) m₁ r m₂) : Evaluates t (.node id) m r m₂
  | elseMissing {id k : NodeId} {span place : Span} {thenBranch : Option NodeId} {f : Form}
      {m m₁ : Machine} (h : t.Bears id span (.ifElse (some k) thenBranch none))
      (hf : t.Bears k place f) (hkind : f.kind.evaluable = true)
      (hk : Evaluates t (.node k) m (.ok ()) m₁) (hv : m₁.register = 0) :
      Evaluates t (.node id) m (.ok ()) m₁
  | ifElse {id k l : NodeId} {span place : Span} {thenBranch : Option NodeId} {f : Form}
      {r : Except Error Unit} {m m₁ m₂ : Machine}
      (h : t.Bears id span (.ifElse (some k) thenBranch (some l))) (hf : t.Bears k place f)
      (hkind : f.kind.evaluable = true) (hk : Evaluates t (.node k) m (.ok ()) m₁)
      (hv : m₁.register = 0) (hl : Evaluates t (.node l) m₁ r m₂) : Evaluates t (.node id) m r m₂

  | whileConditionMissing {id : NodeId} {span : Span} {body : Option NodeId} {m : Machine}
      (h : t.Bears id span (.whileLoop none body)) :
      Evaluates t (.node id) m (faultAt (.missingCondition .whileLoop) span) m
  | whileBodyMissing {id k : NodeId} {span : Span} {m : Machine}
      (h : t.Bears id span (.whileLoop (some k) none)) :
      Evaluates t (.node id) m (faultAt (.missingBody .whileLoop) span) m
  | whileConditionInvalid {id k l : NodeId} {span place : Span} {f : Form} {m : Machine}
      (h : t.Bears id span (.whileLoop (some k) (some l))) (hf : t.Bears k place f)
      (hkind : f.kind.evaluable = false) :
      Evaluates t (.node id) m (faultAt (.invalidCondition f.kind) place) m
  | whileBodyInvalid {id k l : NodeId} {span place place' : Span} {f g : Form} {m : Machine}
      (h : t.Bears id span (.whileLoop (some k) (some l))) (hf : t.Bears k place f)
      (hkind : f.kind.evaluable = true) (hg : t.Bears l place' g) (hkind' : g.kind ≠ .scope) :
      Evaluates t (.node id) m (faultAt (.invalidBody g.kind) place') m
  | whileLoop {id k l : NodeId} {span place place' : Span} {f g : Form} {r : Except Error Unit}
      {m m₁ : Machine} (h : t.Bears id span (.whileLoop (some k) (some l)))
      (hf : t.Bears k place f) (hkind : f.kind.evaluable = true) (hg : t.Bears l place' g)
      (hkind' : g.kind = .scope) (hr : Evaluates t (.rounds k l none) m r m₁) :
      Evaluates t (.node id) m r m₁

  | forConditionMissing {id : NodeId} {span : Span} {init step body : Option NodeId} {m : Machine}
      (h : t.Bears id span (.forLoop init none step body)) :
      Evaluates t (.node id) m (faultAt (.missingCondition .forLoop) span) m
  | forBodyMissing {id k : NodeId} {span : Span} {init step : Option NodeId} {m : Machine}
      (h : t.Bears id span (.forLoop init (some k) step none)) :
      Evaluates t (.node id) m (faultAt (.missingBody .forLoop) span) m
  | forConditionInvalid {id k l : NodeId} {span place : Span} {init step : Option NodeId}
      {f : Form} {m : Machine} (h : t.Bears id span (.forLoop init (some k) step (some l)))
      (hf : t.Bears k place f) (hkind : f.kind.evaluable = false) :
      Evaluates t (.node id) m (faultAt (.invalidCondition f.kind) place) m
  | forBodyInvalid {id k l : NodeId} {span place place' : Span} {init step : Option NodeId}
      {f g : Form} {m : Machine} (h : t.Bears id span (.forLoop init (some k) step (some l)))
      (hf : t.Bears k place f) (hkind : f.kind.evaluable = true) (hg : t.Bears l place' g)
      (hkind' : g.kind ≠ .scope) :
      Evaluates t (.node id) m (faultAt (.invalidBody g.kind) place') m
  | forInitError {id k l : NodeId} {span place place' : Span} {init step : Option NodeId}
      {f g : Form} {e : Error} {m m₁ : Machine}
      (h : t.Bears id span (.forLoop init (some k) step (some l))) (hf : t.Bears k place f)
      (hkind : f.kind.evaluable = true) (hg : t.Bears l place' g) (hkind' : g.kind = .scope)
      (hi : Evaluates t (.sequence init.toList) m (.error e) m₁) :
      Evaluates t (.node id) m (.error e) m₁
  | forLoop {id k l : NodeId} {span place place' : Span} {init step : Option NodeId} {f g : Form}
      {r : Except Error Unit} {m m₁ m₂ : Machine}
      (h : t.Bears id span (.forLoop init (some k) step (some l))) (hf : t.Bears k place f)
      (hkind : f.kind.evaluable = true) (hg : t.Bears l place' g) (hkind' : g.kind = .scope)
      (hi : Evaluates t (.sequence init.toList) m (.ok ()) m₁)
      (hr : Evaluates t (.rounds k l step) m₁ r m₂) : Evaluates t (.node id) m r m₂

  | scope {id : NodeId} {span : Span} {ids : List NodeId} {r : Except Error Unit} {m m₁ : Machine}
      (h : t.Bears id span (.scope ids)) (hparent : t.parent? id = none)
      (hs : Evaluates t (.sequence ids) m r m₁) : Evaluates t (.node id) m r m₁
  | innerScope {id p : NodeId} {span : Span} {ids : List NodeId} {r : Except Error Unit}
      {m m₁ : Machine} {s : Scopes} (h : t.Bears id span (.scope ids))
      (hparent : t.parent? id = some p)
      (hs : Evaluates t (.sequence ids) { m with scopes := m.scopes.push } r m₁)
      (hpop : m₁.scopes.pop = .ok s) : Evaluates t (.node id) m r { m₁ with scopes := s }

  | nil {m : Machine} : Evaluates t (.sequence []) m (.ok ()) m
  | consError {k : NodeId} {ids : List NodeId} {e : Error} {m m₁ : Machine}
      (hk : Evaluates t (.node k) m (.error e) m₁) :
      Evaluates t (.sequence (k :: ids)) m (.error e) m₁
  | cons {k : NodeId} {ids : List NodeId} {r : Except Error Unit} {m m₁ m₂ : Machine}
      (hk : Evaluates t (.node k) m (.ok ()) m₁) (hs : Evaluates t (.sequence ids) m₁ r m₂) :
      Evaluates t (.sequence (k :: ids)) m r m₂

  | roundsConditionError {k l : NodeId} {step : Option NodeId} {e : Error} {m m₁ : Machine}
      (hk : Evaluates t (.node k) m (.error e) m₁) :
      Evaluates t (.rounds k l step) m (.error e) m₁
  | roundsEnd {k l : NodeId} {step : Option NodeId} {m m₁ : Machine}
      (hk : Evaluates t (.node k) m (.ok ()) m₁) (hv : m₁.register = 0) :
      Evaluates t (.rounds k l step) m (.ok ()) m₁
  | roundsError {k l : NodeId} {step : Option NodeId} {e : Error} {m m₁ m₂ : Machine}
      (hk : Evaluates t (.node k) m (.ok ()) m₁) (hv : m₁.register ≠ 0)
      (hs : Evaluates t (.sequence (l :: step.toList)) m₁ (.error e) m₂) :
      Evaluates t (.rounds k l step) m (.error e) m₂
  | roundsAgain {k l : NodeId} {step : Option NodeId} {r : Except Error Unit} {m m₁ m₂ m₃ : Machine}
      (hk : Evaluates t (.node k) m (.ok ()) m₁) (hv : m₁.register ≠ 0)
      (hs : Evaluates t (.sequence (l :: step.toList)) m₁ (.ok ()) m₂)
      (hr : Evaluates t (.rounds k l step) m₂ r m₃) : Evaluates t (.rounds k l step) m r m₃

theorem Scopes.depth_pop {s s' : Scopes} (h : s.pop = .ok s') : s.depth = s'.depth + 1 := by
  obtain ⟨inner, _ | ⟨f, fs⟩⟩ := s
  · cases h
  · cases h
    rfl

theorem Scopes.pop_of_depth {s : Scopes} (h : 1 < s.depth) : ∃ s', s.pop = .ok s' := by
  obtain ⟨inner, _ | ⟨f, fs⟩⟩ := s
  · exact absurd h (Nat.lt_irrefl 1)
  · exact ⟨_, rfl⟩

/-- However a task ends, as many scopes are open as before. -/
theorem Evaluates.depth_eq {t : Tree} {task : Task} {m m' : Machine} {r : Except Error Unit}
    (h : Evaluates t task m r m') : m'.scopes.depth = m.scopes.depth := by
  induction h with
  | assign h hk hl hs ih =>
    rw [Scopes.assigns_iff.1 hs, Scopes.depth_assign, ih]
  | input h hk hread hs => rw [Scopes.assigns_iff.1 hs, Scopes.depth_assign]
  | innerScope h hparent hs hpop ih =>
    rw [Scopes.depth_pop hpop, Scopes.depth_push] at ih
    exact Nat.succ.inj ih
  | literal | reference | undefined | unaryMissing | arithmeticMissing | logicLeftMissing
  | expressionMissing | printMissing | printInvalid | assignTargetMissing | assignTargetInvalid
  | assignValueMissing | zeroDeclaration | zeroDuplicate | inputTargetMissing | inputTargetInvalid
  | inputError | inputFormat | ifConditionMissing | ifConditionInvalid | whileConditionMissing
  | whileBodyMissing | whileConditionInvalid | whileBodyInvalid | forConditionMissing
  | forBodyMissing | forConditionInvalid | forBodyInvalid | nil => rfl
  | arithmeticRightError h hk hl ihk ihl | divisionByZero h hk hl hv ihk ihl
  | arithmetic h hk hl hv ihk ihl | logicRightError h hk hneeds hl ihk ihl
  | logic h hk hneeds hl ihk ihl | ifThen h hf hkind hk hv hl ihk ihl
  | ifElse h hf hkind hk hv hl ihk ihl | forLoop h hf hkind hg hkind' hi hr ihk ihl
  | cons hk hs ihk ihl | roundsError hk hv hs ihk ihl => exact ihl.trans ihk
  | roundsAgain hk hv hs hr ihk ihs ihr => exact ihr.trans (ihs.trans ihk)
  | _ => assumption

end TeachLang
