import TeachLang.Eval
import TeachLang.Proofs.JoinedTexts
import TeachLang.Proofs.Parsing
import TeachLang.Proofs.Places

/-!
# How parsed programs fail

In the tree of a program every part is there and has a kind that serves, so no check of the
evaluation fails. What is left are the errors of the streams and four faults that depend on what the
program computes, each at the place of some token.
-/

namespace TeachLang

namespace Reader

theorem takeLines_error {broken : Option String} {e : Error} (line bytes : List UInt8)
    (h : (takeLines broken line bytes).1 = .error e) : ∃ text, e = .io text := by
  induction bytes generalizing line with
  | nil =>
    cases broken with
    | none => cases h
    | some text =>
      cases h
      exact ⟨text, rfl⟩
  | cons b bytes ih =>
    unfold takeLines at h
    split at h
    · split at h
      · exact ih _ h
      · cases h
    · exact ih _ h

theorem takeWord_error (r : Reader) {e : Error} (h : r.takeWord.1 = .error e) :
    ∃ text, e = .io text := by
  unfold takeWord at h
  split at h
  · cases h
  · split at h
    · next hlines =>
      cases h
      exact takeLines_error [] r.unread (by rw [hlines])
    · cases h
    · cases h

theorem takeInteger_error (r : Reader) {e : Error} (h : r.takeInteger.1 = .error e) :
    ∃ text, e = .io text := by
  unfold takeInteger at h
  split at h
  · next hword =>
    cases h
    exact r.takeWord_error (by rw [hword])
  · cases h
  · split at h <;> cases h

end Reader

theorem Sink.write_error (s : Sink) {text : String} {e : Error} (h : (s.write text).1 = .error e) :
    ∃ text, e = .io text := by
  simp only [write] at h
  split at h <;> cases h
  exact ⟨_, rfl⟩

theorem Sink.flush_error (s : Sink) {e : Error} (h : s.flush = .error e) :
    ∃ text, e = .io text := by
  unfold flush at h
  split at h <;> cases h
  exact ⟨_, rfl⟩

namespace Eval

variable {α β : Type} {E : Error → Prop}

def FailsWith (E : Error → Prop) (x : Eval α) : Prop := ∀ m e m', x m = some (.error e, m') → E e

theorem failsWith_pure (a : α) : FailsWith E (pure a) := fun _ _ _ h => by cases h

theorem failsWith_unbounded : FailsWith E (unbounded : Eval α) := fun _ _ _ h => by cases h

theorem FailsWith.bind {x : Eval α} {f : α → Eval β} (hx : FailsWith E x)
    (hf : ∀ a, FailsWith E (f a)) : FailsWith E (x >>= f) := by
  intro m e m' h
  rw [bind_apply] at h
  rcases hr : x m with _ | ⟨e' | a, m₁⟩ <;> rw [hr] at h
  · cases h
  · cases h
    exact hx m e m' hr
  · exact hf a m₁ e m' h

theorem failsWith_raise {fault : Fault} {span : Span} (h : E (.runtime (.located fault span))) :
    FailsWith E (raise fault span : Eval α) := by
  intro m e m' hr
  cases hr
  exact h

theorem failsWith_orRaise {value : Option α} {fault : Fault} {span : Span}
    (h : E (.runtime (.located fault span))) : FailsWith E (orRaise value fault span) := by
  cases value with
  | none => exact failsWith_raise h
  | some a => exact failsWith_pure a

theorem failsWith_register : FailsWith E register := fun _ _ _ h => by cases h

theorem failsWith_setRegister (v : Int64) : FailsWith E (setRegister v) := fun _ _ _ h => by cases h

theorem failsWith_assign (x : String) (v : Int64) : FailsWith E (assign x v) :=
  fun _ _ _ h => by cases h

theorem failsWith_lookup {x : String} {span : Span}
    (h : E (.runtime (.located (.undefinedVariable x) span))) : FailsWith E (lookup x span) := by
  intro m e m' hr
  rw [lookup, bind_apply, get_apply] at hr
  cases hx : m.scopes.get? x <;> simp only [Scopes.lookup, hx] at hr
  · cases hr
    exact h
  · cases hr

theorem failsWith_declare {x : String} {v : Int64} {span : Span}
    (h : E (.runtime (.located (.duplicateDeclaration x) span))) :
    FailsWith E (declare x v span) := by
  intro m e m' hr
  rw [declare, bind_apply, get_apply] at hr
  by_cases hx : m.scopes.declaredInner x <;> simp only [Scopes.declare, hx] at hr
  · cases hr
    exact h
  · cases hr

theorem failsWith_takeInteger (h : ∀ text, E (.io text)) : FailsWith E takeInteger := by
  intro m e m' hr
  have hresult : m.reader.takeInteger.1 = .error e := (Prod.mk.inj (Option.some.inj hr)).1
  obtain ⟨text, rfl⟩ := m.reader.takeInteger_error hresult
  exact h text

theorem failsWith_write (h : ∀ text, E (.io text)) (text : String) : FailsWith E (write text) := by
  intro m e m' hr
  have hresult : (m.sink.write text).1 = .error e := (Prod.mk.inj (Option.some.inj hr)).1
  obtain ⟨text, rfl⟩ := m.sink.write_error hresult
  exact h text

theorem failsWith_flush (h : ∀ text, E (.io text)) : FailsWith E flush := by
  intro m e m' hr
  have hresult : m.sink.flush = .error e := (Prod.mk.inj (Option.some.inj hr)).1
  obtain ⟨text, rfl⟩ := m.sink.flush_error hresult
  exact h text

theorem failsWith_throw {e : Error} (h : E e) : FailsWith E (throw e : Eval α) := by
  intro m e' m' hr
  cases hr
  exact h

theorem FailsWith.outcome_bind {x : Eval α} {f : Except Error α → Eval β} (hx : FailsWith E x)
    (hf : ∀ r, (∀ e, r = .error e → E e) → FailsWith E (f r)) :
    FailsWith E (outcome x >>= f) := by
  intro m e m' h
  rw [bind_apply] at h
  rcases hr : x m with _ | ⟨r, m₁⟩ <;> simp only [outcome, hr] at h
  · cases h
  · refine hf r ?_ m₁ e m' h
    rintro e rfl
    exact hx m e m₁ hr

theorem FailsWith.inScope {x : Eval α} (hx : FailsWith E x) : FailsWith E (inScope x) := by
  intro m e m' h
  unfold Eval.inScope at h
  split at h
  · cases h
  · next hr =>
    cases h
    exact hx _ _ _ hr

theorem failsWith_forM {run : NodeId → Eval Unit} {ks : List NodeId}
    (h : ∀ k ∈ ks, FailsWith E (run k)) : FailsWith E (ks.forM run) := by
  induction ks with
  | nil => exact failsWith_pure ()
  | cons k ks ih =>
    exact (h k List.mem_cons_self).bind fun _ => ih fun l hl => h l (List.mem_cons_of_mem k hl)

theorem failsWith_loop {condition : Eval Int64} {round : Eval Unit} (hc : FailsWith E condition)
    (hr : FailsWith E round) (bound : Nat) : FailsWith E (loop condition round bound) := by
  induction bound with
  | zero => exact failsWith_unbounded
  | succ bound ih =>
    refine hc.bind fun v => ?_
    by_cases hv : v ≠ 0
    · rw [if_pos hv]
      exact hr.bind fun _ => ih
    · rw [if_neg hv]
      exact failsWith_pure ()

variable {t : Tree} {id : NodeId} {n : Node}

theorem node_eq (h : t.get? id = some n) : node t id = pure n := by
  rw [node, (t.find_eq_ok).2 h]

theorem checkCondition_eq (h : t.get? id = some n) (hn : n.kind.evaluable = true) :
    checkCondition t id = pure () := by
  rw [checkCondition, node_eq h, pure_bind, hn]
  rfl

theorem checkBody_eq (h : t.get? id = some n) (hn : n.kind = .scope) :
    checkBody t id = pure () := by
  rw [checkBody, node_eq h, pure_bind, hn]
  rfl

theorem loopParts_eq {k l : NodeId} {m : Node} (hn : t.get? k = some n)
    (hcondition : n.kind.evaluable = true) (hm : t.get? l = some m) (hbody : m.kind = .scope)
    (span : Span) (kind : Kind) : loopParts t span kind (some k) (some l) = pure (k, l) := by
  simp only [loopParts, orRaise, pure_bind, checkCondition_eq hn hcondition, checkBody_eq hm hbody]

theorem targetName_eq {x : String} (h : t.get? id = some n) (hn : n.form = .reference x)
    (span : Span) (fault : Option Kind → Fault) : targetName t span (some id) fault = pure x := by
  rw [targetName, orRaise, pure_bind, node_eq h, pure_bind, hn]

end Eval

namespace Tree

open Eval

variable {t : Tree} {id : NodeId} {n : Node}

theorem exec_succ (h : t.get? id = some n) (bound : Nat) :
    t.exec (bound + 1) id = t.step bound (t.exec bound) n := by
  rw [exec, node_eq h, pure_bind]

end Tree

open Eval TeachLang.Tree

/-- The errors of the runs of programs. A fault lies at a place of which `P` holds. -/
inductive Foreseen (P : Span → Prop) : Error → Prop
  | io (text : String) : Foreseen P (.io text)
  | undefinedVariable (x : String) {span : Span} (h : P span) :
      Foreseen P (.runtime (.located (.undefinedVariable x) span))
  | divisionByZero {span : Span} (h : P span) :
      Foreseen P (.runtime (.located .divisionByZero span))
  | duplicateDeclaration (x : String) {span : Span} (h : P span) :
      Foreseen P (.runtime (.located (.duplicateDeclaration x) span))
  | inputFormat {span : Span} (h : P span) : Foreseen P (.runtime (.located .inputFormat span))

theorem RuntimeError.located_of_known {span : Span} (h : span.known = true) (fault : Fault) :
    located fault span = ⟨fault, some span⟩ := by
  rw [located, if_pos h]

def Safe (t : Tree) (P : Span → Prop) (id : NodeId) : Prop :=
  ∀ bound, FailsWith (Foreseen P) (t.exec bound id)

section

variable {t : Tree} {P : Span → Prop} {id : NodeId} {span : Span}

theorem Tree.Bears.kind_eq {form : Form} (h : t.Bears id span form) :
    ∃ n, t.get? id = some n ∧ n.kind = form.kind := by
  obtain ⟨n, hn, rfl, _⟩ := h
  exact ⟨n, hn, rfl⟩

theorem safe_of_step {form : Form} (h : t.Bears id span form)
    (hstep : ∀ bound n, n.form = form → n.span = span →
      FailsWith (Foreseen P) (t.step bound (t.exec bound) n)) : Safe t P id := by
  obtain ⟨n, hn, hform, hspan⟩ := h
  intro bound
  cases bound with
  | zero => exact failsWith_unbounded
  | succ bound =>
    rw [exec_succ hn]
    exact hstep bound n hform hspan

theorem Safe.value (h : Safe t P id) (bound : Nat) :
    FailsWith (Foreseen P) (do t.exec bound id; register) :=
  (h bound).bind fun _ => failsWith_register

theorem safe_scope {ks : List NodeId} (h : t.Bears id span (.scope ks))
    (hks : ∀ k ∈ ks, Safe t P k) : Safe t P id := by
  refine safe_of_step h fun bound n hform _ => ?_
  simp only [step, hform, scope]
  split
  · exact failsWith_forM fun k hk => hks k hk bound
  · exact (failsWith_forM fun k hk => hks k hk bound).inScope

end

section

variable {t : Tree} {P : Span → Prop}

theorem Expr.StandsAt.evaluable {e : Expr} {id : NodeId} (h : e.StandsAt t id) :
    ∃ n, t.get? id = some n ∧ n.kind.evaluable = true := by
  have hbears : ∀ {span : Span} {f : Form}, t.Bears id span f → f.kind.evaluable = true →
      ∃ n, t.get? id = some n ∧ n.kind.evaluable = true := by
    intro span f hb hf
    obtain ⟨n, hn, hkind⟩ := hb.kind_eq
    exact ⟨n, hn, hkind ▸ hf⟩
  cases e with
  | literal span v => exact hbears h rfl
  | reference span x => exact hbears h rfl
  | unary span op operand =>
    obtain ⟨k, _, hb⟩ := h
    exact hbears hb rfl
  | binary span op left right =>
    obtain ⟨k, _, l, _, hb⟩ := h
    exact hbears hb (by cases op <;> rfl)

theorem Expr.StandsAt.safe {e : Expr} {id : NodeId} (h : e.StandsAt t id) (he : e.EverySpan P) :
    Safe t P id := by
  induction e generalizing id with
  | literal span v =>
    refine safe_of_step h fun bound n hform _ => ?_
    simp only [step, hform]
    exact failsWith_setRegister v
  | reference span x =>
    refine safe_of_step h fun bound n hform hspan => ?_
    simp only [step, hform, hspan]
    refine (failsWith_lookup ?_).bind failsWith_setRegister
    exact .undefinedVariable x he
  | unary span op operand ih =>
    obtain ⟨k, hk, hb⟩ := h
    refine safe_of_step hb fun bound n hform _ => ?_
    simp only [step, hform, Eval.unary, orRaise, pure_bind]
    exact ((ih hk he.2).value bound).bind fun v => failsWith_setRegister _
  | binary span op left right ihl ihr =>
    obtain ⟨k, hk, l, hl, hb⟩ := h
    have hleft := ihl hk he.2.1
    have hright := ihr hl he.2.2
    cases op with
    | arithmetic op =>
      refine safe_of_step hb fun bound n hform hspan => ?_
      simp only [step, hform, hspan, BinaryOperator.form, Eval.arithmetic, orRaise, pure_bind]
      refine (hleft.value bound).bind fun a => (hright.value bound).bind fun b => ?_
      refine (failsWith_orRaise ?_).bind failsWith_setRegister
      exact .divisionByZero he.1
    | logic op =>
      refine safe_of_step hb fun bound n hform hspan => ?_
      simp only [step, hform, BinaryOperator.form, Eval.logic, orRaise, pure_bind]
      refine (hleft.value bound).bind fun a => ?_
      cases op.settledBy a with
      | some v => exact failsWith_setRegister v
      | none => exact (hright.value bound).bind fun b => failsWith_setRegister _

theorem Simple.StandsAt.safe {s : Simple} {id : NodeId} (h : s.StandsAt t id)
    (hs : s.EverySpan P) : Safe t P id := by
  cases s with
  | assign span nameSpan x value =>
    obtain ⟨k, ⟨target, htarget, hname, _⟩, l, hl, hb⟩ := h
    have hvalue := hl.safe hs.2.2
    refine safe_of_step hb fun bound n hform _ => ?_
    simp only [step, hform, assignment, targetName_eq htarget hname, orRaise, pure_bind]
    exact (hvalue.value bound).bind fun v => failsWith_assign x v
  | input span nameSpan x =>
    obtain ⟨k, ⟨target, htarget, hname, _⟩, hb⟩ := h
    refine safe_of_step hb fun bound n hform hspan => ?_
    simp only [step, hform, hspan, Eval.input, targetName_eq htarget hname, pure_bind]
    refine (failsWith_takeInteger .io).bind fun v => ?_
    refine (failsWith_orRaise ?_).bind fun v => failsWith_assign x v
    exact .inputFormat hs.1
  | expr value => exact Expr.StandsAt.safe h hs

theorem safe_optional {o : Option Simple} {i : Option NodeId}
    (h : Option.Rel (·.StandsAt t ·) o i) (ho : ∀ s ∈ o, s.EverySpan P) (bound : Nat) :
    FailsWith (Foreseen P) (Eval.optional (t.exec bound) i) := by
  cases h with
  | none => exact failsWith_pure ()
  | some h => exact h.safe (ho _ rfl) bound

end

section

variable {t : Tree} {P : Span → Prop}

mutual

theorem Stmt.StandsAt.safe :
    (s : Stmt) → ∀ {id : NodeId}, s.StandsAt t id → s.EverySpan P → Safe t P id
  | .block span body, id, h, hs => by
    obtain ⟨ks, hks, hb⟩ := h
    exact safe_scope hb (AllStandAt.safe body hks hs.2)
  | .ifThen span condition thenBranch, id, h, hs => by
    obtain ⟨k, hk, l, hl, hb⟩ := h
    obtain ⟨m, hm, hevaluable⟩ := hk.evaluable
    have hthen := StandsAt.safe thenBranch hl hs.2.2
    refine safe_of_step hb fun bound n hform _ => ?_
    simp only [step, hform, Eval.ifElse, orRaise, pure_bind, checkCondition_eq hm hevaluable]
    refine ((hk.safe hs.2.1).value bound).bind fun v => ?_
    split
    · exact hthen bound
    · exact failsWith_pure ()
  | .ifElse span condition thenBranch elseBranch, id, h, hs => by
    obtain ⟨k, hk, l, hl, l', hl', hb⟩ := h
    obtain ⟨m, hm, hevaluable⟩ := hk.evaluable
    have hthen := StandsAt.safe thenBranch hl hs.2.2.1
    have helse := StandsAt.safe elseBranch hl' hs.2.2.2
    refine safe_of_step hb fun bound n hform _ => ?_
    simp only [step, hform, Eval.ifElse, orRaise, pure_bind, checkCondition_eq hm hevaluable]
    refine ((hk.safe hs.2.1).value bound).bind fun v => ?_
    split
    · exact hthen bound
    · exact helse bound
  | .whileLoop span condition bodySpan body, id, h, hs => by
    obtain ⟨k, hk, l, ⟨ks, hks, hl⟩, hb⟩ := h
    obtain ⟨m, hm, hevaluable⟩ := hk.evaluable
    obtain ⟨b, hbody, hkind⟩ := hl.kind_eq
    refine safe_of_step hb fun bound n hform _ => ?_
    simp only [step, hform, Eval.whileLoop, loopParts_eq hm hevaluable hbody hkind, pure_bind]
    exact failsWith_loop ((hk.safe hs.2.1).value bound)
      (safe_scope hl (AllStandAt.safe body hks hs.2.2.2) bound) bound
  | .forLoop span init condition step bodySpan body, id, h, hs => by
    obtain ⟨i, hi, k, hk, u, hu, l, ⟨ks, hks, hl⟩, hb⟩ := h
    obtain ⟨m, hm, hevaluable⟩ := hk.evaluable
    obtain ⟨b, hbody, hkind⟩ := hl.kind_eq
    refine safe_of_step hb fun bound n hform _ => ?_
    simp only [Tree.step, hform, Eval.forLoop, loopParts_eq hm hevaluable hbody hkind, pure_bind]
    refine (safe_optional hi hs.2.1 bound).bind fun _ => ?_
    refine failsWith_loop ((hk.safe hs.2.2.1).value bound) ?_ bound
    exact (safe_scope hl (AllStandAt.safe body hks hs.2.2.2.2.2) bound).bind fun _ =>
      safe_optional hu hs.2.2.2.1 bound
  | .print span value, id, h, hs => by
    obtain ⟨k, hk, hb⟩ := h
    obtain ⟨m, hm, hevaluable⟩ := hk.evaluable
    refine safe_of_step hb fun bound n hform _ => ?_
    simp only [step, hform, Eval.print, orRaise, pure_bind, node_eq hm, hevaluable, if_true]
    exact ((hk.safe hs.2).value bound).bind fun v => failsWith_write .io _
  | .declare span x initializer, id, h, hs => by
    obtain ⟨i, hi, hb⟩ := h
    have hdeclare : ∀ v, FailsWith (Foreseen P) (do setRegister v; Eval.declare x v span) := by
      intro v
      refine (failsWith_setRegister v).bind fun _ => failsWith_declare ?_
      exact .duplicateDeclaration x hs.1
    refine safe_of_step hb fun bound n hform hspan => ?_
    simp only [step, hform, hspan, Eval.declaration]
    cases hi with
    | none => exact (failsWith_pure 0).bind hdeclare
    | some hk => exact ((hk.safe (hs.2 _ rfl)).value bound).bind hdeclare
  | .simple span statement, id, h, hs => by
    obtain ⟨k, hk, hb⟩ := h
    refine safe_of_step hb fun bound n hform _ => ?_
    simp only [step, hform, orRaise, pure_bind]
    exact hk.safe hs.2 bound

theorem Stmt.AllStandAt.safe :
    (ss : List Stmt) → ∀ {ids : List NodeId}, Stmt.AllStandAt t ss ids → Stmt.EverySpanIn P ss →
      ∀ id ∈ ids, Safe t P id
  | [], ids, h, _, id, hid => by
    cases h
    cases hid
  | s :: rest, ids, h, hs, id, hid => by
    obtain ⟨k, hk, ks, hks, rfl⟩ := h
    rcases List.mem_cons.1 hid with rfl | hid
    · exact StandsAt.safe s hk hs.1
    · exact AllStandAt.safe rest hks hs.2 id hid

end

end

namespace Tree

theorem safe_root {p : Program} {t : Tree} {P : Span → Prop} (hp : p.StandsIn t)
    (hspans : Stmt.EverySpanIn P p.statements)
    {root : NodeId} (hroot : t.root = some root) : Safe t P root := by
  obtain ⟨root', hroot', ⟨ks, hks, hb⟩, _⟩ := hp
  cases hroot.symm.trans hroot'
  exact safe_scope hb (Stmt.AllStandAt.safe p.statements hks hspans)

theorem failsWith_run {t : Tree} {P : Span → Prop}
    (h : ∀ root, t.root = some root → Safe t P root) (bound : Nat) :
    FailsWith (Foreseen P) (t.run bound) := by
  unfold Tree.run
  split
  · exact failsWith_pure ()
  · next root hroot =>
    refine (h root hroot bound).outcome_bind fun r hr => ?_
    refine (failsWith_flush .io).bind fun _ => ?_
    cases r with
    | ok v => exact failsWith_pure ()
    | error e => exact failsWith_throw (hr e rfl)

theorem ofSource_eq_ok {source : String} {file : Option String} {t : Tree} :
    ofSource source file = .ok t ↔
      ∃ tokens, scan source file = .ok tokens ∧ ofTokens tokens = .ok t := by
  unfold ofSource
  cases scan source file with
  | error e =>
    constructor
    · intro h
      cases h
    · rintro ⟨_, h, _⟩
      cases h
  | ok tokens =>
    constructor
    · exact fun h => ⟨tokens, rfl, h⟩
    · rintro ⟨_, h, ht⟩
      cases h
      exact ht

/-- Where a fault of a run can lie: in the file that was parsed, and where one of its tokens
begins. -/
structure BeginsToken (file : Option String) (tokens : List Located) (span : Span) : Prop where
  file_eq : span.file = file
  begins : ∃ l ∈ tokens, l.span.first = span.first

/-- A run of a parsed program succeeds, or a stream fails, or there is one of four faults, at the
place of a token. Where the source has fewer than `2 ^ 32 - 1` characters, that place is known. -/
theorem run_ofSource {source : String} {file : Option String} {t : Tree}
    (h : ofSource source file = .ok t) {bound : Nat} {m m' : Machine} {result : Except Error Unit}
    (hrun : t.run bound m = some (result, m')) :
    result = .ok () ∨ (∃ text, result = .error (.io text)) ∨
      ∃ fault span tokens, result = .error (.runtime (.located fault span)) ∧
        ((∃ x, fault = .undefinedVariable x) ∨ fault = .divisionByZero ∨
          (∃ x, fault = .duplicateDeclaration x) ∨ fault = .inputFormat) ∧
        scan source file = .ok tokens ∧ BeginsToken file tokens span ∧
        (source.length < UInt32.size - 1 →
          1 ≤ span.beginLine ∧ result = .error (.runtime ⟨fault, some span⟩)) := by
  obtain ⟨tokens, hscan, htokens⟩ := ofSource_eq_ok.1 h
  obtain ⟨p, hp, hlayout⟩ := ofTokens_eq_ok.1 htokens
  obtain ⟨u, hrun', hstands⟩ := p.run_layout
  cases hlayout.symm.trans hrun'
  have hspans : Stmt.EverySpanIn (BeginsToken file tokens) p.statements := by
    refine hp.statements.everySpan ?_ fun l hl => ?_
    · exact fun s e ⟨hfile, hbegins⟩ => ⟨hfile, hbegins⟩
    · have hmem := (List.takeWhile_sublist _).mem hl
      exact ⟨file_of_mem_scan hscan l hmem, l, hmem, rfl⟩
  have hplace : ∀ {fault span}, BeginsToken file tokens span → BeginsToken file tokens span ∧
      (source.length < UInt32.size - 1 → 1 ≤ span.beginLine ∧
        (.error (.runtime (.located fault span)) : Except Error Unit) =
          .error (.runtime ⟨fault, some span⟩)) := by
    intro fault span h
    refine ⟨h, fun hlength => ?_⟩
    obtain ⟨l, hl, hfirst⟩ := h.begins
    have hline : l.span.beginLine = span.beginLine := congrArg Position.line hfirst
    obtain ⟨hknown, -⟩ := span_of_mem_scan (n := 0) hscan (by omega) l hl
    rw [hline] at hknown
    exact ⟨hknown, by rw [RuntimeError.located_of_known (decide_eq_true hknown)]⟩
  have hsafe := failsWith_run (fun root hroot => safe_root hstands hspans hroot) bound
  cases result with
  | ok v => exact .inl rfl
  | error e =>
    refine .inr ?_
    cases hsafe m e m' hrun with
    | io text => exact .inl ⟨text, rfl⟩
    | undefinedVariable x h =>
      exact .inr ⟨_, _, tokens, rfl, .inl ⟨x, rfl⟩, hscan, hplace h⟩
    | divisionByZero h => exact .inr ⟨_, _, tokens, rfl, .inr (.inl rfl), hscan, hplace h⟩
    | duplicateDeclaration x h =>
      exact .inr ⟨_, _, tokens, rfl, .inr (.inr (.inl ⟨x, rfl⟩)), hscan, hplace h⟩
    | inputFormat h => exact .inr ⟨_, _, tokens, rfl, .inr (.inr (.inr rfl)), hscan, hplace h⟩

theorem run_ofSource_of_undefined :
    ∃ t, ofSource "print x;" none = .ok t ∧
      t.run 4 {} = some (.error (.runtime ⟨.undefinedVariable "x", some ⟨none, 1, 7, 1, 7⟩⟩), {}) ∧
      ∃ tokens, scan "print x;" none = .ok tokens ∧ BeginsToken none tokens ⟨none, 1, 7, 1, 7⟩ := by
  let t : Tree := ⟨#[⟨.reference "x", some 1, ⟨none, 1, 7, 1, 7⟩⟩,
    ⟨.print (some 0), some 2, ⟨none, 1, 1, 1, 8⟩⟩, ⟨.scope [1], none, ⟨none, 1, 1, 1, 8⟩⟩], some 2⟩
  have h : ofSource "print x;" none = .ok t := by decide +kernel
  have hrun : t.run 4 {} =
      some (.error (.runtime ⟨.undefinedVariable "x", some ⟨none, 1, 7, 1, 7⟩⟩), {}) := rfl
  have hlength : "print x;".length < UInt32.size - 1 := by decide
  obtain hok | ⟨text, hio⟩ | ⟨fault, span, tokens, he, _, hscan, hbegins, hknown⟩ :=
    run_ofSource h hrun
  · cases hok
  · cases hio
  · cases (hknown hlength).2
    exact ⟨t, h, hrun, tokens, hscan, hbegins⟩

/-- Behind so many lines the counter is at 0 again, and the fault has no place. -/
theorem run_ofSource_unplaced :
    let source := String.ofList (List.replicate (UInt32.size - 1) '\n') ++ "print y;"
    ∃ t, ofSource source none = .ok t ∧
      t.run 4 {} = some (.error (.runtime ⟨.undefinedVariable "y", none⟩), {}) := by
  let t : Tree := ⟨#[⟨.reference "y", some 1, ⟨none, 0, 7, 0, 7⟩⟩,
    ⟨.print (some 0), some 2, ⟨none, 0, 1, 0, 8⟩⟩, ⟨.scope [1], none, ⟨none, 0, 1, 0, 8⟩⟩], some 2⟩
  have hscan : scan "print y;" none = .ok [⟨.printWord, ⟨none, 1, 1, 1, 5⟩⟩,
      ⟨.ident "y", ⟨none, 1, 7, 1, 7⟩⟩, ⟨.semicolon, ⟨none, 1, 8, 1, 8⟩⟩] := by decide +kernel
  have htokens : ofTokens [⟨.printWord, ⟨none, 0, 1, 0, 5⟩⟩, ⟨.ident "y", ⟨none, 0, 7, 0, 7⟩⟩,
      ⟨.semicolon, ⟨none, 0, 8, 0, 8⟩⟩] = .ok t := by decide +kernel
  refine ⟨t, ofSource_eq_ok.2 ⟨_, ?_, htokens⟩, rfl⟩
  rw [scan_newlines_append, hscan]
  rfl

end Tree

end TeachLang
