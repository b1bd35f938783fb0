import TeachLang.Proofs.Built
import TeachLang.Proofs.Steps

/-!
# Evaluation follows the rules

Whenever a bounded evaluation has an answer, the rules derive it. Only nodes that are there have
children that are there, so this is about forests.
-/

namespace TeachLang

namespace Tree

open Eval

theorem Forest.contains_of_bears {t : Tree} (hf : Forest t) {id k : NodeId} {span : Span}
    {form : Form} (h : t.Bears id span form) (hk : k ∈ form.children) : t.contains k = true := by
  obtain ⟨n, hn, rfl, _⟩ := h
  obtain ⟨⟨s, o⟩, hmem, rfl⟩ := List.mem_filterMap.1 hk
  obtain ⟨i, hi⟩ := List.getElem?_of_mem hmem
  exact hf.contained id i k ⟨n, s, hn, hi⟩

def Follows (t : Tree) (bound : Nat) : Prop :=
  ∀ id, t.contains id = true → ∀ m r m', t.exec bound id m = some (r, m') →
    Evaluates t (.node id) m r m'

variable {t : Tree} {b : Nat} {id k l : NodeId} {span : Span} {m m' : Machine}
  {r : Except Error Unit}

theorem Follows.value (hs : t.Follows b) (hk : t.contains k = true) {f : Int64 → Eval Unit}
    (h : (t.evaluate b k >>= f) m = some (r, m')) :
    (∃ e, Evaluates t (.node k) m (.error e) m' ∧ r = .error e) ∨
      ∃ m₁, Evaluates t (.node k) m (.ok ()) m₁ ∧ f m₁.register m₁ = some (r, m') := by
  rw [evaluate, bind_assoc] at h
  rcases bind_eq_some.1 h with ⟨e, he, rfl⟩ | ⟨_, m₁, hok, h⟩
  · exact .inl ⟨e, hs k hk _ _ _ he, rfl⟩
  · exact .inr ⟨m₁, hs k hk _ _ _ hok, h⟩

theorem Follows.sequence (hs : t.Follows b) {ids : List NodeId}
    (hids : ∀ k ∈ ids, t.contains k = true) (h : ids.forM (t.exec b) m = some (r, m')) :
    Evaluates t (.sequence ids) m r m' := by
  induction ids generalizing m with
  | nil =>
    cases h
    exact .nil
  | cons k ids ih =>
    rcases bind_eq_some.1 h with ⟨e, he, rfl⟩ | ⟨_, m₁, hok, h⟩
    · exact .consError (hs k (hids k List.mem_cons_self) _ _ _ he)
    · exact .cons (hs k (hids k List.mem_cons_self) _ _ _ hok)
        (ih (fun l hl => hids l (List.mem_cons_of_mem k hl)) h)

theorem Follows.rounds (hs : t.Follows b) {step : Option NodeId} (hk : t.contains k = true)
    (hids : ∀ i ∈ l :: step.toList, t.contains i = true) {c : Nat}
    (h : loop (t.evaluate b k) ((l :: step.toList).forM (t.exec b)) c m = some (r, m')) :
    Evaluates t (.rounds k l step) m r m' := by
  induction c generalizing m with
  | zero => cases h
  | succ c ih =>
    rw [loop] at h
    rcases hs.value hk h with ⟨e, hk, rfl⟩ | ⟨m₁, hk, h⟩
    · exact .roundsConditionError hk
    · by_cases hv : m₁.register = 0
      · rw [if_neg (not_not.2 hv)] at h
        cases h
        exact .roundsEnd hk hv
      · rw [if_pos hv] at h
        rcases bind_eq_some.1 h with ⟨e, he, rfl⟩ | ⟨_, m₂, hok, h⟩
        · exact .roundsError hk hv (hs.sequence hids he)
        · exact .roundsAgain hk hv (hs.sequence hids hok) (ih h)

section

variable (hf : Forest t) (hs : t.Follows b)
include hf hs

theorem follows_unary {op : UnaryOperator} {operand : Option NodeId}
    (hb : t.Bears id span (.unary op operand))
    (h : Eval.unary (t.evaluate b) span op operand m = some (r, m')) :
    Evaluates t (.node id) m r m' := by
  cases operand with
  | none =>
    cases h
    exact .unaryMissing hb
  | some k =>
    have hk := hf.contains_of_bears hb (k := k) (by simp [Form.children, Form.roles])
    simp only [Eval.unary, orRaise, pure_bind] at h
    rcases hs.value hk h with ⟨e, hk, rfl⟩ | ⟨m₁, hk, h⟩
    · exact .unaryError hb hk
    · cases h
      exact .unary hb hk

theorem follows_arithmetic {op : ArithmeticOperator} {left right : Option NodeId}
    (hb : t.Bears id span (.arithmetic op left right))
    (h : Eval.arithmetic (t.evaluate b) span op left right m = some (r, m')) :
    Evaluates t (.node id) m r m' := by
  cases left with
  | none =>
    cases h
    exact .arithmeticMissing hb (.inl rfl)
  | some k =>
    cases right with
    | none =>
      cases h
      exact .arithmeticMissing hb (.inr rfl)
    | some l =>
      have hk := hf.contains_of_bears hb (k := k) (by simp [Form.children, Form.roles])
      have hl := hf.contains_of_bears hb (k := l) (by simp [Form.children, Form.roles])
      simp only [Eval.arithmetic, orRaise, pure_bind] at h
      rcases hs.value hk h with ⟨e, hk, rfl⟩ | ⟨m₁, hk, h⟩
      · exact .arithmeticLeftError hb hk
      rcases hs.value hl h with ⟨e, hl, rfl⟩ | ⟨m₂, hl, h⟩
      · exact .arithmeticRightError hb hk hl
      cases hv : op.apply m₁.register m₂.register with
      | none =>
        rw [hv] at h
        cases h
        exact .divisionByZero hb hk hl hv
      | some v =>
        rw [hv] at h
        cases h
        exact .arithmetic hb hk hl hv

theorem follows_logic {op : LogicOperator} {left right : Option NodeId}
    (hb : t.Bears id span (.logic op left right))
    (h : Eval.logic (t.evaluate b) span op left right m = some (r, m')) :
    Evaluates t (.node id) m r m' := by
  cases left with
  | none =>
    cases h
    exact .logicLeftMissing hb
  | some k =>
    have hk := hf.contains_of_bears hb (k := k) (by simp [Form.children, Form.roles])
    simp only [Eval.logic, orRaise, pure_bind] at h
    rcases hs.value hk h with ⟨e, hk, rfl⟩ | ⟨m₁, hk, h⟩
    · exact .logicLeftError hb hk
    rcases op.settledBy_cases m₁.register with ⟨rfl, hv, hsettled⟩ | ⟨rfl, hv, hsettled⟩ |
      ⟨hneeds, hsettled⟩
    · rw [hsettled] at h
      cases h
      exact .andFalse hb hk hv
    · rw [hsettled] at h
      cases h
      exact .orTrue hb hk hv
    · rw [hsettled] at h
      cases right with
      | none =>
        cases h
        exact .logicRightMissing hb hk hneeds
      | some l =>
        have hl := hf.contains_of_bears hb (k := l) (by simp [Form.children, Form.roles])
        simp only [pure_bind] at h
        rcases hs.value hl h with ⟨e, hl, rfl⟩ | ⟨m₂, hl, h⟩
        · exact .logicRightError hb hk hneeds hl
        · cases h
          exact .logic hb hk hneeds hl

theorem follows_expression {expr : Option NodeId} (hb : t.Bears id span (.expression expr))
    (h : (do t.exec b (← orRaise expr (.missingExpression .expression) span)) m = some (r, m')) :
    Evaluates t (.node id) m r m' := by
  cases expr with
  | none =>
    cases h
    exact .expressionMissing hb
  | some k =>
    have hk := hf.contains_of_bears hb (k := k) (by simp [Form.children, Form.roles])
    simp only [orRaise, pure_bind] at h
    exact .expression hb (hs k hk _ _ _ h)

theorem follows_print {expr : Option NodeId} (hb : t.Bears id span (.print expr))
    (h : Eval.print (t.evaluate b) t span expr m = some (r, m')) :
    Evaluates t (.node id) m r m' := by
  cases expr with
  | none =>
    cases h
    exact .printMissing hb
  | some k =>
    have hk := hf.contains_of_bears hb (k := k) (by simp [Form.children, Form.roles])
    obtain ⟨place, f, hbk⟩ := exists_bears hk
    rw [print_of_bears hbk] at h
    by_cases hkind : f.kind.evaluable = true
    · rw [if_pos hkind] at h
      rcases hs.value hk h with ⟨e, hk, rfl⟩ | ⟨m₁, hk, h⟩
      · exact .printError hb hbk hkind hk
      · cases h
        exact .print hb hbk hkind hk rfl
    · rw [if_neg hkind] at h
      cases h
      exact .printInvalid hb hbk (Bool.not_eq_true _ ▸ hkind)

theorem follows_assignment {target value : Option NodeId}
    (hb : t.Bears id span (.assign target value))
    (h : assignment (t.evaluate b) t span target value m = some (r, m')) :
    Evaluates t (.node id) m r m' := by
  cases target with
  | none =>
    cases h
    exact .assignTargetMissing hb
  | some k =>
    have hk := hf.contains_of_bears hb (k := k) (by simp [Form.children, Form.roles])
    obtain ⟨place, f, hbk⟩ := exists_bears hk
    by_cases hkind : f.kind = .reference
    · obtain ⟨x, rfl⟩ := Form.eq_reference hkind
      rw [assignment, targetName_of_reference hbk, pure_bind] at h
      cases value with
      | none =>
        cases h
        exact .assignValueMissing hb hbk
      | some l =>
        have hl := hf.contains_of_bears hb (k := l) (by simp [Form.children, Form.roles])
        rw [orRaise, pure_bind] at h
        rcases hs.value hl h with ⟨e, hl, rfl⟩ | ⟨m₁, hl, h⟩
        · exact .assignError hb hbk hl
        · cases h
          exact .assign hb hbk hl (Scopes.assigns_iff.2 rfl)
    · rw [assignment, targetName_of_bears hbk hkind] at h
      cases h
      exact .assignTargetInvalid hb hbk hkind

theorem follows_declaration {x : String} {initializer : Option NodeId}
    (hb : t.Bears id span (.declaration x initializer))
    (h : declaration (t.evaluate b) span x initializer m = some (r, m')) :
    Evaluates t (.node id) m r m' := by
  cases initializer with
  | none =>
    rw [declaration, pure_bind] at h
    beta_reduce at h
    by_cases hx : m.scopes.inner.has x = true
    · rw [setRegister_declare_of_has hx] at h
      cases h
      exact .zeroDuplicate hb hx
    · rw [Bool.not_eq_true] at hx
      rw [setRegister_declare_of_not_has hx] at h
      cases h
      exact .zeroDeclaration hb hx
  | some k =>
    have hk := hf.contains_of_bears hb (k := k) (by simp [Form.children, Form.roles])
    rw [declaration] at h
    rcases hs.value hk h with ⟨e, hk, rfl⟩ | ⟨m₁, hk, h⟩
    · exact .declarationError hb hk
    · beta_reduce at h
      by_cases hx : m₁.scopes.inner.has x = true
      · rw [setRegister_declare_of_has hx] at h
        cases h
        exact .duplicate hb hk hx
      · rw [Bool.not_eq_true] at hx
        rw [setRegister_declare_of_not_has hx] at h
        cases h
        exact .declaration hb hk hx

omit hs in
theorem follows_input {target : Option NodeId} (hb : t.Bears id span (.input target))
    (h : Eval.input t span target m = some (r, m')) : Evaluates t (.node id) m r m' := by
  cases target with
  | none =>
    cases h
    exact .inputTargetMissing hb
  | some k =>
    have hk := hf.contains_of_bears hb (k := k) (by simp [Form.children, Form.roles])
    obtain ⟨place, f, hbk⟩ := exists_bears hk
    by_cases hkind : f.kind = .reference
    · obtain ⟨x, rfl⟩ := Form.eq_reference hkind
      rw [Eval.input, targetName_of_reference hbk, pure_bind] at h
      rcases hread : m.reader.takeInteger with ⟨e | _ | v, reader⟩
      · rw [bind_apply, takeInteger_apply, hread] at h
        cases h
        exact .inputError hb hbk hread
      · rw [bind_apply, takeInteger_apply, hread] at h
        cases h
        exact .inputFormat hb hbk hread
      · rw [bind_apply, takeInteger_apply, hread] at h
        cases h
        exact .input hb hbk hread (Scopes.assigns_iff.2 rfl)
    · rw [Eval.input, targetName_of_bears hbk hkind] at h
      cases h
      exact .inputTargetInvalid hb hbk hkind

theorem follows_ifElse {condition thenBranch elseBranch : Option NodeId}
    (hb : t.Bears id span (.ifElse condition thenBranch elseBranch))
    (h : Eval.ifElse (t.evaluate b) (t.exec b) t span condition thenBranch
      elseBranch m = some (r, m')) : Evaluates t (.node id) m r m' := by
  cases condition with
  | none =>
    cases h
    exact .ifConditionMissing hb
  | some k =>
    have hk := hf.contains_of_bears hb (k := k) (by simp [Form.children, Form.roles])
    obtain ⟨place, f, hbk⟩ := exists_bears hk
    simp only [Eval.ifElse, orRaise, pure_bind, checkCondition_of_bears hbk] at h
    by_cases hkind : f.kind.evaluable = true
    · rw [if_pos hkind, pure_bind] at h
      rcases hs.value hk h with ⟨e, hk, rfl⟩ | ⟨m₁, hk, h⟩
      · exact .ifConditionError hb hbk hkind hk
      by_cases hv : m₁.register = 0
      · rw [if_neg (not_not.2 hv)] at h
        cases elseBranch with
        | none =>
          cases h
          exact .elseMissing hb hbk hkind hk hv
        | some l =>
          have hl := hf.contains_of_bears hb (k := l) (by simp [Form.children, Form.roles])
          exact .ifElse hb hbk hkind hk hv (hs l hl _ _ _ h)
      · rw [if_pos hv] at h
        cases thenBranch with
        | none =>
          cases h
          exact .thenMissing hb hbk hkind hk hv
        | some l =>
          have hl := hf.contains_of_bears hb (k := l) (by simp [Form.children, Form.roles])
          exact .ifThen hb hbk hkind hk hv (hs l hl _ _ _ h)
    · rw [if_neg hkind] at h
      cases h
      exact .ifConditionInvalid hb hbk (Bool.not_eq_true _ ▸ hkind)

theorem follows_whileLoop {condition body : Option NodeId}
    (hb : t.Bears id span (.whileLoop condition body))
    (h : Eval.whileLoop (t.evaluate b) (t.exec b) t b span condition body m =
      some (r, m')) : Evaluates t (.node id) m r m' := by
  cases condition with
  | none =>
    cases h
    exact .whileConditionMissing hb
  | some k =>
    cases body with
    | none =>
      cases h
      exact .whileBodyMissing hb
    | some l =>
      have hk := hf.contains_of_bears hb (k := k) (by simp [Form.children, Form.roles])
      have hl := hf.contains_of_bears hb (k := l) (by simp [Form.children, Form.roles])
      obtain ⟨place, f, hbk⟩ := exists_bears hk
      obtain ⟨place', g, hbl⟩ := exists_bears hl
      rw [Eval.whileLoop] at h
      rcases loopParts_bind_eq_some hbk hbl h with ⟨hkind, rfl, rfl⟩ | ⟨hkind, hkind', rfl, rfl⟩ |
        ⟨hkind, hkind', h⟩
      · exact .whileConditionInvalid hb hbk hkind
      · exact .whileBodyInvalid hb hbk hkind hbl hkind'
      · change loop _ (t.exec b l) b m = _ at h
        rw [← forM_singleton (t.exec b) l] at h
        exact .whileLoop hb hbk hkind hbl hkind' (hs.rounds hk (List.forall_mem_singleton.2 hl) h)

theorem follows_forLoop {init condition step body : Option NodeId}
    (hb : t.Bears id span (.forLoop init condition step body))
    (h : Eval.forLoop (t.evaluate b) (t.exec b) t b span init condition step
      body m = some (r, m')) : Evaluates t (.node id) m r m' := by
  cases condition with
  | none =>
    cases h
    exact .forConditionMissing hb
  | some k =>
    cases body with
    | none =>
      cases h
      exact .forBodyMissing hb
    | some l =>
      have hk := hf.contains_of_bears hb (k := k) (by simp [Form.children, Form.roles])
      have hl := hf.contains_of_bears hb (k := l) (by simp [Form.children, Form.roles])
      obtain ⟨place, f, hbk⟩ := exists_bears hk
      obtain ⟨place', g, hbl⟩ := exists_bears hl
      rw [Eval.forLoop] at h
      rcases loopParts_bind_eq_some hbk hbl h with ⟨hkind, rfl, rfl⟩ | ⟨hkind, hkind', rfl, rfl⟩ |
        ⟨hkind, hkind', h⟩
      · exact .forConditionInvalid hb hbk hkind
      · exact .forBodyInvalid hb hbk hkind hbl hkind'
      · have hinit : ∀ i ∈ init.toList, t.contains i = true := by
          intro i hi
          refine hf.contains_of_bears hb ?_
          rw [Option.mem_toList] at hi
          cases hi
          simp [Form.children, Form.roles]
        have hround : ∀ i ∈ l :: step.toList, t.contains i = true := by
          refine List.forall_mem_cons.2 ⟨hl, fun i hi => hf.contains_of_bears hb ?_⟩
          rw [Option.mem_toList] at hi
          cases hi
          simp [Form.children, Form.roles]
        simp only [optional_eq] at h
        rcases bind_eq_some.1 h with ⟨e, hi, rfl⟩ | ⟨_, m₁, hi, h⟩
        · exact .forInitError hb hbk hkind hbl hkind' (hs.sequence hinit hi)
        · exact .forLoop hb hbk hkind hbl hkind' (hs.sequence hinit hi) (hs.rounds hk hround h)

theorem follows_scope {ids : List NodeId} (hb : t.Bears id span (.scope ids))
    (h : Eval.scope (t.exec b) (t.parent? id) ids m = some (r, m')) :
    Evaluates t (.node id) m r m' := by
  have hids : ∀ k ∈ ids, t.contains k = true := by
    intro k hk
    refine hf.contains_of_bears hb ?_
    simpa [Form.children, Form.roles] using hk
  rw [Eval.scope] at h
  cases hparent : t.parent? id with
  | none =>
    rw [hparent] at h
    exact .scope hb hparent (hs.sequence hids h)
  | some p =>
    rw [hparent] at h
    obtain ⟨m₁, hrun, hm'⟩ := inScope_eq_some.1 h
    have hseq := hs.sequence hids hrun
    -- What ran inside left its scope open, so there is one to leave.
    have hdepth : m₁.scopes.depth = m.scopes.depth + 1 := by
      rw [hseq.depth_eq, Scopes.depth_push]
    obtain ⟨s, hpop⟩ := Scopes.pop_of_depth (s := m₁.scopes) (by
      rw [hdepth]
      exact Nat.succ_lt_succ (Nat.succ_pos _))
    rw [hpop] at hm'
    cases hm'
    exact .innerScope hb hparent hseq hpop

end

theorem Forest.follows (hf : Forest t) (b : Nat) : t.Follows b := by
  induction b with
  | zero =>
    intro id _ m r m' h
    cases h
  | succ b hs =>
    intro id hid m r m' h
    obtain ⟨span, form, hb⟩ := exists_bears hid
    rw [exec_of_bears hb] at h
    cases form
    case arithmetic op left right => exact follows_arithmetic hf hs hb h
    case logic op left right => exact follows_logic hf hs hb h
    case unary op operand => exact follows_unary hf hs hb h
    case scope ids => exact follows_scope hf hs hb h
    case literal v =>
      cases h
      exact .literal hb
    case print expr => exact follows_print hf hs hb h
    case assign target value => exact follows_assignment hf hs hb h
    case reference x =>
      change (lookup x span >>= setRegister) m = _ at h
      cases hx : m.scopes.get? x with
      | none =>
        rw [bind_apply, lookup_of_none hx] at h
        cases h
        exact .undefined hb hx
      | some v =>
        rw [bind_apply, lookup_of_some hx] at h
        cases h
        exact .reference hb hx
    case declaration x initializer => exact follows_declaration hf hs hb h
    case expression expr => exact follows_expression hf hs hb h
    case ifElse condition thenBranch elseBranch => exact follows_ifElse hf hs hb h
    case whileLoop condition body => exact follows_whileLoop hf hs hb h
    case forLoop init condition step body => exact follows_forLoop hf hs hb h
    case input target => exact follows_input hf hb h

end Tree

end TeachLang
