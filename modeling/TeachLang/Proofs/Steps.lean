import TeachLang.Proofs.Safety
import TeachLang.Proofs.Semantics

/-!
# The steps of evaluation at known nodes

What the checks and the effects of an evaluation come to once it is known what the nodes bear that
they look at.
-/

namespace TeachLang

theorem Form.eq_reference {f : Form} (h : f.kind = .reference) : ∃ x, f = .reference x := by
  cases f <;> cases h
  exact ⟨_, rfl⟩

theorem LogicOperator.settledBy_cases (op : LogicOperator) (a : Int64) :
    (op = .and ∧ a = 0 ∧ op.settledBy a = some 0) ∨ (op = .or ∧ a ≠ 0 ∧ op.settledBy a = some 1) ∨
      (op.NeedsRight a ∧ op.settledBy a = none) := by
  by_cases ha : a = 0 <;> cases op <;> simp [settledBy, NeedsRight, ha]

theorem LogicOperator.NeedsRight.settledBy_eq {op : LogicOperator} {a : Int64}
    (h : op.NeedsRight a) : op.settledBy a = none := by
  cases op with
  | and => exact if_neg (h.1 rfl)
  | or => exact if_pos (h.2 rfl)
  | _ => rfl

open TeachLang.Tree

namespace Eval

variable {α β : Type} {m m' : Machine}

theorem bind_eq_some {x : Eval α} {f : α → Eval β} {r : Except Error β} :
    (x >>= f) m = some (r, m') ↔
      (∃ e, x m = some (.error e, m') ∧ r = .error e) ∨
      ∃ a m₁, x m = some (.ok a, m₁) ∧ f a m₁ = some (r, m') := by
  rw [bind_apply]
  rcases x m with _ | ⟨e | a, m₁⟩
  · simp
  · simp [eq_comm, and_comm]
  · simp

theorem raise_bind (fault : Fault) (span : Span) (f : α → Eval β) :
    (raise fault span >>= f) = raise fault span := by
  funext m
  rw [bind_apply]
  rfl

theorem forM_singleton (run : NodeId → Eval Unit) (k : NodeId) : [k].forM run = run k := by
  simp

theorem optional_eq (run : NodeId → Eval Unit) (o : Option NodeId) :
    optional run o = o.toList.forM run := by
  cases o with
  | none => rfl
  | some k => simp [optional]

variable {t : Tree} {k : NodeId} {place : Span} {f : Form}

theorem checkCondition_of_bears (h : t.Bears k place f) :
    checkCondition t k =
      if f.kind.evaluable then pure () else raise (.invalidCondition f.kind) place := by
  obtain ⟨n, hn, rfl, rfl⟩ := h
  rw [checkCondition, node_eq hn, pure_bind]
  cases hkind : n.form.kind.evaluable <;> simp [Node.kind, hkind]

theorem checkBody_of_bears (h : t.Bears k place f) :
    checkBody t k = if f.kind = .scope then pure () else raise (.invalidBody f.kind) place := by
  obtain ⟨n, hn, rfl, rfl⟩ := h
  rw [checkBody, node_eq hn, pure_bind]
  by_cases hkind : n.form.kind = .scope <;> simp [Node.kind, hkind]

theorem loopParts_of_bears (h : t.Bears k place f) (l : NodeId) (span : Span) (kind : Kind) :
    loopParts t span kind (some k) (some l) =
      if f.kind.evaluable then do checkBody t l; return (k, l)
      else raise (.invalidCondition f.kind) place := by
  simp only [loopParts, orRaise, pure_bind, checkCondition_of_bears h]
  by_cases hf : f.kind.evaluable = true
  · rw [if_pos hf, if_pos hf, pure_bind]
  · rw [if_neg hf, if_neg hf, raise_bind]

theorem loopParts_bind_eq_some {l : NodeId} {place' : Span} {g : Form} (h : t.Bears k place f)
    (h' : t.Bears l place' g) {span : Span} {kind : Kind} {next : NodeId × NodeId → Eval Unit}
    {r : Except Error Unit}
    (hrun : (loopParts t span kind (some k) (some l) >>= next) m = some (r, m')) :
    (f.kind.evaluable = false ∧ r = faultAt (.invalidCondition f.kind) place ∧ m' = m) ∨
      (f.kind.evaluable = true ∧ g.kind ≠ .scope ∧ r = faultAt (.invalidBody g.kind) place' ∧
        m' = m) ∨
      f.kind.evaluable = true ∧ g.kind = .scope ∧ next (k, l) m = some (r, m') := by
  rw [loopParts_of_bears h] at hrun
  by_cases hf : f.kind.evaluable = true
  · rw [if_pos hf, checkBody_of_bears h'] at hrun
    by_cases hg : g.kind = .scope
    · rw [if_pos hg, pure_bind, pure_bind] at hrun
      exact .inr (.inr ⟨hf, hg, hrun⟩)
    · rw [if_neg hg] at hrun
      cases hrun
      exact .inr (.inl ⟨hf, hg, rfl, rfl⟩)
  · rw [if_neg hf] at hrun
    rw [Bool.not_eq_true] at hf
    cases hrun
    exact .inl ⟨hf, rfl, rfl⟩

theorem print_of_bears {value : NodeId → Eval Int64} (h : t.Bears k place f) (span : Span) :
    Eval.print value t span (some k) =
      if f.kind.evaluable then do write (Text.integerText (← value k) ++ "\n")
      else raise (.invalidExpression f.kind) place := by
  obtain ⟨n, hn, rfl, rfl⟩ := h
  rw [Eval.print, orRaise, pure_bind, node_eq hn, pure_bind]
  rfl

theorem targetName_of_reference {x : String} (h : t.Bears k place (.reference x)) (span : Span)
    (fault : Option Kind → Fault) : targetName t span (some k) fault = pure x := by
  obtain ⟨n, hn, hform, _⟩ := h
  exact targetName_eq hn hform span fault

theorem targetName_of_bears (h : t.Bears k place f) (hf : f.kind ≠ .reference) (span : Span)
    (fault : Option Kind → Fault) :
    targetName t span (some k) fault = raise (fault (some f.kind)) place := by
  obtain ⟨n, hn, rfl, rfl⟩ := h
  rw [targetName, orRaise, pure_bind, node_eq hn, pure_bind]
  split
  · next x hx => exact absurd (by rw [hx]; rfl) hf
  · rfl

theorem lookup_of_some {x : String} {v : Int64} (h : m.scopes.get? x = some v) (span : Span) :
    lookup x span m = some (.ok v, m) := by
  simp [lookup, bind_apply, Scopes.lookup, h]

theorem lookup_of_none {x : String} (h : m.scopes.get? x = none) (span : Span) :
    lookup x span m = some (.error (.runtime (.located (.undefinedVariable x) span)), m) := by
  simp [lookup, bind_apply, Scopes.lookup, h]

theorem setRegister_declare_of_has {x : String} (h : m.scopes.inner.has x = true) (v : Int64)
    (span : Span) :
    (do setRegister v; declare x v span) m =
      some (faultAt (.duplicateDeclaration x) span, { m with register := v }) := by
  rw [bind_apply, setRegister_apply]
  simp [declare, bind_apply, Scopes.declare, Scopes.declaredInner, h, faultAt]

theorem setRegister_declare_of_not_has {x : String} (h : m.scopes.inner.has x = false) (v : Int64)
    (span : Span) :
    (do setRegister v; declare x v span) m = some (.ok (),
      { m with
        register := v
        scopes := { m.scopes with inner := m.scopes.inner.set x v } }) := by
  rw [bind_apply, setRegister_apply]
  simp [declare, bind_apply, Scopes.declare, Scopes.declaredInner, h]

theorem takeInteger_apply (m : Machine) :
    takeInteger m = some (m.reader.takeInteger.1, { m with reader := m.reader.takeInteger.2 }) :=
  rfl

theorem inScope_eq_some {x : Eval α} {r : Except Error α} :
    inScope x m = some (r, m') ↔ ∃ m₁, x { m with scopes := m.scopes.push } = some (r, m₁) ∧
      m' = { m₁ with scopes := m₁.scopes.pop.toOption.getD m₁.scopes } := by
  unfold inScope
  rcases x { m with scopes := m.scopes.push } with _ | ⟨r', m₁⟩
  · simp
  · simp [eq_comm, and_comm]

theorem write_apply (text : String) (m : Machine) :
    write text m = some ((m.sink.write text).1, { m with sink := (m.sink.write text).2 }) :=
  rfl

end Eval

namespace Tree

open Eval

variable {t : Tree} {id : NodeId} {span : Span} {form : Form}

theorem exists_bears (h : t.contains id = true) : ∃ span form, t.Bears id span form := by
  obtain ⟨n, hn⟩ := (t.contains_iff id).1 h
  exact ⟨n.span, n.form, n, hn, rfl, rfl⟩

/-- A run evaluates the root and then flushes, and the error of a flush hides any other. -/
theorem run_apply (t : Tree) (bound : Nat) (m : Machine) :
    t.run bound m =
      match t.root with
      | none => some (.ok (), m)
      | some root =>
        (t.exec bound root m).map fun p => (p.2.sink.flush.bind fun _ => p.1, p.2) := by
  unfold run
  cases t.root with
  | none => rfl
  | some root =>
    simp only [bind_apply, outcome, flush, ofState]
    rcases t.exec bound root m with _ | ⟨r, m'⟩
    · rfl
    · cases hflush : m'.sink.flush <;> cases r <;> simp [hflush, Except.bind]

theorem exec_of_bears (h : t.Bears id span form) (bound : Nat) :
    t.exec (bound + 1) id = t.step bound (t.exec bound) ⟨form, t.parent? id, span⟩ := by
  obtain ⟨n, hn, rfl, rfl⟩ := h
  rw [exec_succ hn, parent?, hn]
  rfl

end Tree

end TeachLang
