import TeachLang.Proofs.Congruence

/-!
# Evaluations in step

Trees whose nodes correspond are evaluated in step on related machines, if what is done to related
machines keeps them related: both evaluations end or neither does, and they end in related ways.
-/

namespace TeachLang

namespace Eval

variable {α α' β β' : Type}

inductive Ends (E : Error → Error → Prop) (A : α → α' → Prop) :
    Except Error α → Except Error α' → Prop
  | ok {a : α} {a' : α'} (h : A a a') : Ends E A (.ok a) (.ok a')
  | error {e e' : Error} (h : E e e') : Ends E A (.error e) (.error e')

theorem ends_eq_iff {r r' : Except Error α} : Ends Eq Eq r r' ↔ r = r' := by
  constructor
  · rintro (rfl | rfl) <;> rfl
  · rintro rfl
    cases r with
    | ok a => exact .ok rfl
    | error e => exact .error rfl

/-- What a stream answers is related to itself, if errors of streams are. -/
theorem Ends.self {E : Error → Error → Prop} (hio : ∀ text, E (.io text) (.io text))
    (r : Except Error α) (hr : ∀ {e}, r = .error e → ∃ text, e = .io text) : Ends E Eq r r := by
  cases r with
  | ok a => exact .ok rfl
  | error e =>
    obtain ⟨text, rfl⟩ := hr rfl
    exact .error (hio text)

def Agree (M : Machine → Machine → Prop) (E : Error → Error → Prop) (A : α → α' → Prop)
    (x : Eval α) (x' : Eval α') : Prop :=
  ∀ m m', M m m' → Option.Rel (fun p p' => Ends E A p.1 p'.1 ∧ M p.2 p'.2) (x m) (x' m')

structure Mirror (r : String → String) (R : Span → Span → Prop) (E : Error → Error → Prop)
    (M : Machine → Machine → Prop) : Prop where
  fault {s s' : Span} (h : R s s') (f : Fault) :
    E (.runtime (.located f s)) (.runtime (.located (f.rename r) s'))
  register {m m' : Machine} (h : M m m') : m'.register = m.register
  setRegister {m m' : Machine} (h : M m m') (v : Int64) :
    M { m with register := v } { m' with register := v }
  get? {m m' : Machine} (h : M m m') (x : String) : m'.scopes.get? (r x) = m.scopes.get? x
  assign {m m' : Machine} (h : M m m') (x : String) (v : Int64) :
    M { m with scopes := m.scopes.assign x v } { m' with scopes := m'.scopes.assign (r x) v }
  declaredInner {m m' : Machine} (h : M m m') (x : String) :
    m'.scopes.declaredInner (r x) = m.scopes.declaredInner x
  declare {m m' : Machine} (h : M m m') {x : String} (hx : m.scopes.declaredInner x = false)
    (v : Int64) : M { m with scopes := { m.scopes with inner := m.scopes.inner.set x v } }
      { m' with scopes := { m'.scopes with inner := m'.scopes.inner.set (r x) v } }
  push {m m' : Machine} (h : M m m') :
    M { m with scopes := m.scopes.push } { m' with scopes := m'.scopes.push }
  pop {m m' : Machine} (h : M m m') : M { m with scopes := m.scopes.pop.toOption.getD m.scopes }
    { m' with scopes := m'.scopes.pop.toOption.getD m'.scopes }
  takeInteger {m m' : Machine} (h : M m m') :
    Ends E Eq m.reader.takeInteger.1 m'.reader.takeInteger.1 ∧
      M { m with reader := m.reader.takeInteger.2 } { m' with reader := m'.reader.takeInteger.2 }
  write {m m' : Machine} (h : M m m') (text : String) :
    Ends E Eq (m.sink.write text).1 (m'.sink.write text).1 ∧
      M { m with sink := (m.sink.write text).2 } { m' with sink := (m'.sink.write text).2 }

variable {M : Machine → Machine → Prop} {E : Error → Error → Prop} {A : α → α' → Prop}
  {B : β → β' → Prop}

theorem agree_pure {a : α} {a' : α'} (h : A a a') : Agree M E A (pure a) (pure a') :=
  fun _ _ hm => .some ⟨.ok h, hm⟩

theorem agree_throw {e e' : Error} (h : E e e') : Agree M E A (throw e) (throw e') :=
  fun _ _ hm => .some ⟨.error h, hm⟩

theorem Agree.bind {x : Eval α} {x' : Eval α'} {f : α → Eval β} {f' : α' → Eval β'}
    (hx : Agree M E A x x') (hf : ∀ a a', A a a' → Agree M E B (f a) (f' a')) :
    Agree M E B (x >>= f) (x' >>= f') := by
  intro m m' hm
  have hends := hx m m' hm
  rw [bind_apply, bind_apply]
  generalize x m = p at hends ⊢
  generalize x' m' = p' at hends ⊢
  cases hends with
  | none => exact .none
  | @some p p' h =>
    obtain ⟨r, m₁⟩ := p
    obtain ⟨r', m₁'⟩ := p'
    obtain ⟨hr, hm₁⟩ := h
    cases hr with
    | ok ha => exact hf _ _ ha m₁ m₁' hm₁
    | error he => exact .some ⟨.error he, hm₁⟩

/-- Where one machine and its errors are functions of the other, so is the answer of a step. -/
theorem Agree.apply_eq {g : Error → Error} {f : Machine → Machine}
    (hM : ∀ m m', M m m' → m' = f m) {x x' : Eval α} (h : Agree M (fun e e' => e' = g e) Eq x x')
    {m m' : Machine} (hm : M m m') : x' m' = (x m).map fun p => (p.1.mapError g, f p.2) := by
  have hends := h m m' hm
  generalize x m = p at hends ⊢
  generalize x' m' = p' at hends ⊢
  cases hends with
  | none => rfl
  | @some p p' h =>
    obtain ⟨r, m₁⟩ := p
    obtain ⟨r', m₁'⟩ := p'
    obtain ⟨hr, hm₁⟩ := h
    obtain rfl := hM m₁ m₁' hm₁
    cases hr with
    | ok ha =>
      cases ha
      rfl
    | error he =>
      cases he
      rfl

section

variable {r : String → String} {R : Span → Span → Prop} (hM : Mirror r R E M) {s s' : Span}
include hM

theorem agree_lookup (h : R s s') (x : String) :
    Agree M E Eq (lookup x s) (lookup (r x) s') := by
  intro m m' hm
  have hget := hM.get? hm x
  cases hx : m.scopes.get? x with
  | none =>
    rw [lookup_of_none hx, lookup_of_none (hget.trans hx)]
    exact .some ⟨.error (hM.fault h (.undefinedVariable x)), hm⟩
  | some v =>
    rw [lookup_of_some hx, lookup_of_some (hget.trans hx)]
    exact .some ⟨.ok rfl, hm⟩

theorem agree_declare (h : R s s') (x : String) (v : Int64) :
    Agree M E Eq (declare x v s) (declare (r x) v s') := by
  intro m m' hm
  have hdeclared := hM.declaredInner hm x
  rw [declare, declare, bind_apply, bind_apply]
  cases hx : m.scopes.declaredInner x with
  | true =>
    rw [hx] at hdeclared
    simp only [get_apply, Scopes.declare, hx, hdeclared, if_true]
    exact .some ⟨.error (hM.fault h (.duplicateDeclaration x)), hm⟩
  | false =>
    rw [hx] at hdeclared
    simp only [get_apply, Scopes.declare, hx, hdeclared]
    exact .some ⟨.ok rfl, hM.declare hm hx v⟩

theorem Agree.inScope {x : Eval α} {x' : Eval α'} (hx : Agree M E A x x') :
    Agree M E A (inScope x) (inScope x') := by
  intro m m' hm
  have hends := hx _ _ (hM.push hm)
  unfold Eval.inScope
  generalize x { m with scopes := m.scopes.push } = p at hends ⊢
  generalize x' { m' with scopes := m'.scopes.push } = p' at hends ⊢
  cases hends with
  | none => exact .none
  | some h => exact .some ⟨h.1, hM.pop h.2⟩

theorem Mirror.congruence : Congruence r R (Agree M E) where
  pure := agree_pure
  bind := Agree.bind
  unbounded _ _ _ := .none
  raise h f := agree_throw (hM.fault h f)
  register _ _ hm := .some ⟨.ok (hM.register hm).symm, hm⟩
  setRegister v _ _ hm := .some ⟨.ok rfl, hM.setRegister hm v⟩
  lookup := agree_lookup hM
  assign x v _ _ hm := .some ⟨.ok rfl, hM.assign hm x v⟩
  declare := agree_declare hM
  inScope := Agree.inScope hM

theorem Mirror.writes (text : String) : Agree M E Eq (Eval.write text) (Eval.write text) :=
  fun _ _ hm => .some (hM.write hm text)

theorem Mirror.takes : Agree M E Eq Eval.takeInteger Eval.takeInteger :=
  fun _ _ hm => .some (hM.takeInteger hm)

variable {t u : Tree} {S : NodeId → NodeId → Prop}

theorem agree_exec (ht : t.Simulates u r R S) (bound : Nat) (k k' : NodeId) (hk : S k k') :
    Agree M E Eq (t.exec bound k) (u.exec bound k') :=
  hM.congruence.exec (hM.congruence.node_of_simulates ht) hM.writes hM.takes bound k k' hk

omit hM in
/-- Runs are in step if flushes are. -/
theorem agree_run (hflush : ∀ m m', M m m' → Ends E Eq m.sink.flush m'.sink.flush) {bound : Nat}
    (hexec : ∀ k k', S k k' → Agree M E Eq (t.exec bound k) (u.exec bound k'))
    (hroot : Option.Rel S t.root u.root) : Agree M E Eq (t.run bound) (u.run bound) := by
  intro m m' hm
  rw [Tree.run_apply, Tree.run_apply]
  generalize t.root = root at hroot ⊢
  generalize u.root = root' at hroot ⊢
  cases hroot with
  | none => exact .some ⟨.ok rfl, hm⟩
  | @some k k' hk =>
    have hends := hexec k k' hk m m' hm
    dsimp only
    generalize t.exec bound k m = p at hends ⊢
    generalize u.exec bound k' m' = p' at hends ⊢
    cases hends with
    | none => exact .none
    | @some p p' h =>
      have hflushed := hflush _ _ h.2
      refine .some ⟨?_, h.2⟩
      dsimp only
      generalize p.2.sink.flush = f at hflushed ⊢
      generalize p'.2.sink.flush = f' at hflushed ⊢
      cases hflushed with
      | ok => exact h.1
      | error he => exact .error he

end

end Eval

end TeachLang
