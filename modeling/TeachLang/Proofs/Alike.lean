import Mathlib.Data.List.Forall2
import Mathlib.Data.Option.Basic
import TeachLang.Proofs.Parsing

/-!
# Spans do not matter to a parser

On lists with the same tokens the parsers do the same: they fail with the same cause at the same
token, or give programs that are the same but for their spans. The spans are related in each case as
those of the tokens are.
-/

namespace TeachLang

def Span.Any (_ _ : Span) : Prop := True

variable {R T : Span → Span → Prop}

inductive Expr.Alike (R : Span → Span → Prop) : Expr → Expr → Prop
  | literal {s s' : Span} (v : Int64) (h : R s s') : Alike R (.literal s v) (.literal s' v)
  | reference {s s' : Span} (x : String) (h : R s s') : Alike R (.reference s x) (.reference s' x)
  | unary {s s' : Span} {e e' : Expr} (op : UnaryOperator) (h : R s s') (he : Alike R e e') :
      Alike R (.unary s op e) (.unary s' op e')
  | binary {s s' : Span} {a a' b b' : Expr} (op : BinaryOperator) (h : R s s') (ha : Alike R a a')
      (hb : Alike R b b') : Alike R (.binary s op a b) (.binary s' op a' b')

inductive Simple.Alike (R : Span → Span → Prop) : Simple → Simple → Prop
  | assign {s s' p p' : Span} {e e' : Expr} (x : String) (h : R s s') (hp : R p p')
      (he : e.Alike R e') : Alike R (.assign s p x e) (.assign s' p' x e')
  | input {s s' p p' : Span} (x : String) (h : R s s') (hp : R p p') :
      Alike R (.input s p x) (.input s' p' x)
  | expr {e e' : Expr} (he : e.Alike R e') : Alike R (.expr e) (.expr e')

namespace Stmt

mutual

inductive Alike (R : Span → Span → Prop) : Stmt → Stmt → Prop
  | block {s s' : Span} {ss ss' : List Stmt} (h : R s s') (hss : AllAlike R ss ss') :
      Alike R (.block s ss) (.block s' ss')
  | ifThen {s s' : Span} {c c' : Expr} {a a' : Stmt} (h : R s s') (hc : c.Alike R c')
      (ha : Alike R a a') : Alike R (.ifThen s c a) (.ifThen s' c' a')
  | ifElse {s s' : Span} {c c' : Expr} {a a' b b' : Stmt} (h : R s s') (hc : c.Alike R c')
      (ha : Alike R a a') (hb : Alike R b b') : Alike R (.ifElse s c a b) (.ifElse s' c' a' b')
  | whileLoop {s s' p p' : Span} {c c' : Expr} {ss ss' : List Stmt} (h : R s s')
      (hc : c.Alike R c') (hp : R p p') (hss : AllAlike R ss ss') :
      Alike R (.whileLoop s c p ss) (.whileLoop s' c' p' ss')
  | forLoop {s s' p p' : Span} {i i' u u' : Option Simple} {c c' : Expr} {ss ss' : List Stmt}
      (h : R s s') (hi : Option.Rel (Simple.Alike R) i i') (hc : c.Alike R c')
      (hu : Option.Rel (Simple.Alike R) u u') (hp : R p p') (hss : AllAlike R ss ss') :
      Alike R (.forLoop s i c u p ss) (.forLoop s' i' c' u' p' ss')
  | print {s s' : Span} {e e' : Expr} (h : R s s') (he : e.Alike R e') :
      Alike R (.print s e) (.print s' e')
  | declare {s s' : Span} {i i' : Option Expr} (x : String) (h : R s s')
      (hi : Option.Rel (Expr.Alike R) i i') : Alike R (.declare s x i) (.declare s' x i')
  | simple {s s' : Span} {a a' : Simple} (h : R s s') (ha : a.Alike R a') :
      Alike R (.simple s a) (.simple s' a')

inductive AllAlike (R : Span → Span → Prop) : List Stmt → List Stmt → Prop
  | nil : AllAlike R [] []
  | cons {s s' : Stmt} {ss ss' : List Stmt} (hs : Alike R s s') (hss : AllAlike R ss ss') :
      AllAlike R (s :: ss) (s' :: ss')

end

theorem Alike.asBody {s s' : Stmt} (h : s.Alike R s') :
    R s.asBody.1 s'.asBody.1 ∧ AllAlike R s.asBody.2 s'.asBody.2 := by
  have hsingle := AllAlike.cons h .nil
  cases h with
  | block h hss => exact ⟨h, hss⟩
  | ifThen h => exact ⟨h, hsingle⟩
  | ifElse h => exact ⟨h, hsingle⟩
  | whileLoop h => exact ⟨h, hsingle⟩
  | forLoop h => exact ⟨h, hsingle⟩
  | print h => exact ⟨h, hsingle⟩
  | declare x h => exact ⟨h, hsingle⟩
  | simple h => exact ⟨h, hsingle⟩

end Stmt

theorem optionRel_trans {α : Type} {A : α → α → Prop} (hA : ∀ a b c, A a b → A b c → A a c)
    {o o' o'' : Option α} (h : Option.Rel A o o') (h' : Option.Rel A o' o'') :
    Option.Rel A o o'' := by
  cases h with
  | none => exact h'
  | some h =>
    cases h' with
    | some h' => exact .some (hA _ _ _ h h')

section

variable (hR : ∀ s s' s'', R s s' → R s' s'' → R s s'')
include hR

theorem Expr.Alike.trans {e e' e'' : Expr} (h : e.Alike R e') (h' : e'.Alike R e'') :
    e.Alike R e'' := by
  induction h generalizing e'' with
  | literal v h =>
    cases h' with
    | literal _ h' => exact .literal v (hR _ _ _ h h')
  | reference x h =>
    cases h' with
    | reference _ h' => exact .reference x (hR _ _ _ h h')
  | unary op h he ih =>
    cases h' with
    | unary _ h' he' => exact .unary op (hR _ _ _ h h') (ih he')
  | binary op h ha hb iha ihb =>
    cases h' with
    | binary _ h' ha' hb' => exact .binary op (hR _ _ _ h h') (iha ha') (ihb hb')

theorem Simple.Alike.trans {a a' a'' : Simple} (h : a.Alike R a') (h' : a'.Alike R a'') :
    a.Alike R a'' := by
  cases h with
  | assign x h hp he =>
    cases h' with
    | assign _ h' hp' he' => exact .assign x (hR _ _ _ h h') (hR _ _ _ hp hp') (he.trans hR he')
  | input x h hp =>
    cases h' with
    | input _ h' hp' => exact .input x (hR _ _ _ h h') (hR _ _ _ hp hp')
  | expr he =>
    cases h' with
    | expr he' => exact .expr (he.trans hR he')

end

mutual

theorem Stmt.Alike.trans (hR : ∀ s s' s'', R s s' → R s' s'' → R s s'') {a a' a'' : Stmt} :
    a.Alike R a' → a'.Alike R a'' → a.Alike R a''
  | .block h hss, .block h' hss' => .block (hR _ _ _ h h') (hss.trans hR hss')
  | .ifThen h hc ha, .ifThen h' hc' ha' =>
    .ifThen (hR _ _ _ h h') (hc.trans hR hc') (ha.trans hR ha')
  | .ifElse h hc ha hb, .ifElse h' hc' ha' hb' =>
    .ifElse (hR _ _ _ h h') (hc.trans hR hc') (ha.trans hR ha') (hb.trans hR hb')
  | .whileLoop h hc hp hss, .whileLoop h' hc' hp' hss' =>
    .whileLoop (hR _ _ _ h h') (hc.trans hR hc') (hR _ _ _ hp hp') (hss.trans hR hss')
  | .forLoop h hi hc hu hp hss, .forLoop h' hi' hc' hu' hp' hss' =>
    .forLoop (hR _ _ _ h h') (optionRel_trans (fun _ _ _ ha ha' => ha.trans hR ha') hi hi')
      (hc.trans hR hc') (optionRel_trans (fun _ _ _ ha ha' => ha.trans hR ha') hu hu')
      (hR _ _ _ hp hp') (hss.trans hR hss')
  | .print h he, .print h' he' => .print (hR _ _ _ h h') (he.trans hR he')
  | .declare x h hi, .declare _ h' hi' =>
    .declare x (hR _ _ _ h h') (optionRel_trans (fun _ _ _ he he' => he.trans hR he') hi hi')
  | .simple h ha, .simple h' ha' => .simple (hR _ _ _ h h') (ha.trans hR ha')

theorem Stmt.AllAlike.trans (hR : ∀ s s' s'', R s s' → R s' s'' → R s s'')
    {ss ss' ss'' : List Stmt} :
    Stmt.AllAlike R ss ss' → Stmt.AllAlike R ss' ss'' → Stmt.AllAlike R ss ss''
  | .nil, .nil => .nil
  | .cons hs hss, .cons hs' hss' => .cons (hs.trans hR hs') (hss.trans hR hss')

end

section

variable (hR : ∀ s, R s s)
include hR

theorem Expr.alike_self (e : Expr) : e.Alike R e := by
  induction e with
  | literal s v => exact .literal v (hR s)
  | reference s x => exact .reference x (hR s)
  | unary s op e ih => exact .unary op (hR s) ih
  | binary s op a b iha ihb => exact .binary op (hR s) iha ihb

theorem Simple.alike_self (a : Simple) : a.Alike R a := by
  cases a with
  | assign s p x e => exact .assign x (hR s) (hR p) (e.alike_self hR)
  | input s p x => exact .input x (hR s) (hR p)
  | expr e => exact .expr (e.alike_self hR)

end

mutual

theorem Stmt.alike_self (hR : ∀ s, R s s) : (a : Stmt) → a.Alike R a
  | .block s ss => .block (hR s) (Stmt.allAlike_self hR ss)
  | .ifThen s c a => .ifThen (hR s) (c.alike_self hR) (a.alike_self hR)
  | .ifElse s c a b => .ifElse (hR s) (c.alike_self hR) (a.alike_self hR) (b.alike_self hR)
  | .whileLoop s c p ss =>
    .whileLoop (hR s) (c.alike_self hR) (hR p) (Stmt.allAlike_self hR ss)
  | .forLoop s i c u p ss =>
    .forLoop (hR s) (optionRel_self (Simple.alike_self hR) i) (c.alike_self hR)
      (optionRel_self (Simple.alike_self hR) u) (hR p) (Stmt.allAlike_self hR ss)
  | .print s e => .print (hR s) (e.alike_self hR)
  | .declare s x i => .declare x (hR s) (optionRel_self (Expr.alike_self hR) i)
  | .simple s a => .simple (hR s) (a.alike_self hR)

theorem Stmt.allAlike_self (hR : ∀ s, R s s) : (ss : List Stmt) → Stmt.AllAlike R ss ss
  | [] => .nil
  | s :: ss => .cons (s.alike_self hR) (Stmt.allAlike_self hR ss)

end

structure Program.Alike (R : Span → Span → Prop) (p p' : Program) : Prop where
  span : R p.span p'.span
  statements : Stmt.AllAlike R p.statements p'.statements

structure Located.Alike (T : Span → Span → Prop) (l l' : Located) : Prop where
  token_eq : l'.token = l.token
  span : T l.span l'.span

structure Cursor.Alike (T : Span → Span → Prop) (c c' : Cursor) : Prop where
  rest : List.Forall₂ (Located.Alike T) c.rest c'.rest
  previous : T c.previous c'.previous

namespace Cursor.Alike

variable {c c' : Cursor} (h : c.Alike T c')
include h

theorem token_eq : c'.token = c.token := by
  obtain ⟨_, _⟩ := c
  obtain ⟨_, _⟩ := c'
  cases h.rest with
  | nil => rfl
  | cons hl _ => exact hl.token_eq

theorem span : T c.span c'.span := by
  obtain ⟨_, _⟩ := c
  obtain ⟨_, _⟩ := c'
  cases h.rest with
  | nil => exact h.previous
  | cons hl _ => exact hl.span

theorem advance : c.advance.Alike T c'.advance := by
  refine ⟨?_, h.span⟩
  obtain ⟨_, _⟩ := c
  obtain ⟨_, _⟩ := c'
  cases h.rest with
  | nil => exact .nil
  | cons _ hrest => exact hrest

theorem atAssignment_eq : Parser.atAssignment c' = Parser.atAssignment c := by
  rw [Bool.eq_iff_iff, Parser.atAssignment_iff, Parser.atAssignment_iff, h.token_eq,
    h.advance.token_eq]

end Cursor.Alike

namespace Parser

variable {α α' β β' : Type} {A : α → α' → Prop} {B : β → β' → Prop}

inductive Ends (T : Span → Span → Prop) (A : α → α' → Prop) :
    Except SyntaxError (α × Cursor) → Except SyntaxError (α' × Cursor) → Prop
  | ok {a : α} {a' : α'} {d d' : Cursor} (h : A a a') (hd : d.Alike T d') :
      Ends T A (.ok (a, d)) (.ok (a', d'))
  | error {s s' : Span} (cause : SyntaxCause) (h : T s s') :
      Ends T A (.error ⟨cause, s⟩) (.error ⟨cause, s'⟩)

def Agree (T : Span → Span → Prop) (A : α → α' → Prop) (x : Parser α) (x' : Parser α') : Prop :=
  ∀ c c', c.Alike T c' → Ends T A (x.run c) (x'.run c')

theorem agree_pure {a : α} {a' : α'} (h : A a a') : Agree T A (pure a) (pure a') :=
  fun _ _ hc => .ok h hc

theorem Agree.bind {x : Parser α} {x' : Parser α'} {f : α → Parser β} {f' : α' → Parser β'}
    (hx : Agree T A x x') (hf : ∀ a a', A a a' → Agree T B (f a) (f' a')) :
    Agree T B (x >>= f) (x' >>= f') := by
  intro c c' hc
  have hends := hx c c' hc
  rw [run_bind, run_bind]
  generalize x.run c = r at hends ⊢
  generalize x'.run c' = r' at hends ⊢
  cases hends with
  | ok h hd => exact hf _ _ h _ _ hd
  | error cause h => exact .error cause h

theorem Agree.map {x : Parser α} {x' : Parser α'} {f : α → β} {f' : α' → β'} (hx : Agree T A x x')
    (hf : ∀ a a', A a a' → B (f a) (f' a')) : Agree T B (f <$> x) (f' <$> x') := by
  rw [map_eq_pure_bind, map_eq_pure_bind]
  exact hx.bind fun a a' h => agree_pure (hf a a' h)

theorem agree_token : Agree T Eq token token := fun _ _ hc => .ok hc.token_eq.symm hc

theorem agree_here : Agree T T here here := fun _ _ hc => .ok hc.span hc

theorem agree_advance : Agree T Eq advance advance := fun _ _ hc => .ok rfl hc.advance

theorem agree_unexpected (e : Expected) : Agree T A (unexpected e) (unexpected e) := by
  intro c c' hc
  rw [run_unexpected, run_unexpected, hc.token_eq]
  exact .error _ hc.span

theorem agree_expect (t : Token) : Agree T Eq (expect t) (expect t) := by
  refine agree_token.bind ?_
  rintro u _ rfl
  by_cases ht : u = t
  · simp only [if_pos ht]
    exact agree_advance
  · simp only [if_neg ht]
    exact agree_unexpected _

theorem agree_identifier : Agree T Eq identifier identifier := by
  refine agree_token.bind ?_
  rintro u _ rfl
  cases u with
  | ident x => exact agree_advance.bind fun _ _ _ => agree_pure rfl
  | _ => exact agree_unexpected _

section

variable (hR : ∀ s s' e e', T s s' → T e e' → R (s.through e) (s'.through e'))
include hR

theorem agree_spanFrom {s s' : Span} (h : T s s') : Agree T R (spanFrom s) (spanFrom s') :=
  fun _ _ hc => .ok (hR _ _ _ _ h hc.previous) hc

omit hR in
theorem agree_parenthesized {inner inner' : Parser Expr} (h : Agree T (Expr.Alike R) inner inner') :
    Agree T (Expr.Alike R) (parenthesized inner) (parenthesized inner') :=
  (agree_expect _).bind fun _ _ _ => h.bind fun _ _ he => (agree_expect _).bind fun _ _ _ =>
    agree_pure he

variable {inner inner' : Parser Expr} (hinner : Agree T (Expr.Alike R) inner inner')
include hinner

theorem agree_primary : Agree T (Expr.Alike R) (primary inner) (primary inner') := by
  refine agree_here.bind fun s s' hs => agree_token.bind ?_
  rintro t _ rfl
  cases t with
  | number v =>
    exact agree_advance.bind fun _ _ _ => (agree_spanFrom hR hs).bind fun _ _ h =>
      agree_pure (.literal v h)
  | ident x =>
    exact agree_advance.bind fun _ _ _ => (agree_spanFrom hR hs).bind fun _ _ h =>
      agree_pure (.reference x h)
  | leftParen => exact agree_parenthesized hinner
  | _ => exact agree_unexpected _

theorem agree_unary (bound : Nat) :
    Agree T (Expr.Alike R) (unary inner bound) (unary inner' bound) := by
  induction bound with
  | zero => exact agree_unexpected _
  | succ bound ih =>
    refine agree_here.bind fun s s' hs => agree_token.bind ?_
    rintro t _ rfl
    cases t.unary? with
    | none => exact agree_primary hR hinner
    | some op =>
      exact agree_advance.bind fun _ _ _ => ih.bind fun _ _ he => (agree_spanFrom hR hs).bind
        fun _ _ h => agree_pure (.unary op h he)

omit hinner in
theorem agree_chain {operand operand' : Parser Expr}
    (hoperand : Agree T (Expr.Alike R) operand operand') (level : Nat) {start start' : Span}
    (hstart : T start start') (bound : Nat) {left left' : Expr} (hleft : left.Alike R left') :
    Agree T (Expr.Alike R) (chain operand level start bound left)
      (chain operand' level start' bound left') := by
  induction bound generalizing left left' with
  | zero => exact agree_pure hleft
  | succ bound ih =>
    refine agree_token.bind ?_
    rintro t _ rfl
    cases t.operator? level with
    | none => exact agree_pure hleft
    | some op =>
      exact agree_advance.bind fun _ _ _ => hoperand.bind fun _ _ hright =>
        (agree_spanFrom hR hstart).bind fun _ _ h => ih (.binary op h hleft hright)

theorem agree_upTo (bound level : Nat) :
    Agree T (Expr.Alike R) (upTo bound inner level) (upTo bound inner' level) := by
  induction level with
  | zero => exact agree_unary hR hinner bound
  | succ level ih =>
    exact agree_here.bind fun _ _ hs => ih.bind fun _ _ hleft =>
      agree_chain hR ih (level + 1) hs bound hleft

omit hinner in
theorem agree_expression (bound : Nat) :
    Agree T (Expr.Alike R) (expression bound) (expression bound) := by
  induction bound with
  | zero => exact agree_unexpected _
  | succ bound ih => exact agree_upTo hR ih (bound + 1) 7

end

section

variable (hR : ∀ s s' e e', T s s' → T e e' → R (s.through e) (s'.through e')) (bound : Nat)
include hR

theorem agree_simple : Agree T (Simple.Alike R) (simple bound) (simple bound) := by
  have hget : Agree T (Cursor.Alike T) get get := fun _ _ hc => .ok hc hc
  refine hget.bind fun c c' hc => ?_
  rw [hc.atAssignment_eq]
  split
  · refine agree_here.bind fun s s' hs => agree_identifier.bind ?_
    rintro x _ rfl
    refine (agree_spanFrom hR hs).bind fun p p' hp => (agree_expect _).bind fun _ _ _ =>
      agree_token.bind ?_
    rintro t _ rfl
    by_cases ht : t = .question
    · simp only [if_pos ht]
      exact agree_advance.bind fun _ _ _ => (agree_spanFrom hR hs).bind fun _ _ h =>
        agree_pure (.input x h hp)
    · simp only [if_neg ht]
      exact (agree_expression hR bound).bind fun _ _ he => (agree_spanFrom hR hs).bind
        fun _ _ h => agree_pure (.assign x h hp he)
  · exact (agree_expression hR bound).bind fun _ _ he => agree_pure (.expr he)

theorem agree_simpleUnless (close : Token) :
    Agree T (Option.Rel (Simple.Alike R)) (simpleUnless close bound)
      (simpleUnless close bound) := by
  refine agree_token.bind ?_
  rintro t _ rfl
  by_cases ht : t = close
  · simp only [if_pos ht]
    exact agree_pure .none
  · simp only [if_neg ht]
    exact (agree_simple hR bound).bind fun _ _ hs => agree_pure (.some hs)

omit hR in
theorem agree_many {item item' : Parser Stmt} (hitem : Agree T (Stmt.Alike R) item item')
    (stop : List Token) :
    Agree T (Stmt.AllAlike R) (many item stop bound) (many item' stop bound) := by
  induction bound with
  | zero => exact agree_pure .nil
  | succ bound ih =>
    refine agree_token.bind ?_
    rintro t _ rfl
    by_cases ht : t ∈ stop
    · simp only [if_pos ht]
      exact agree_pure .nil
    · simp only [if_neg ht]
      exact hitem.bind fun _ _ hs => ih.bind fun _ _ hss => agree_pure (.cons hs hss)

theorem agree_printStatement :
    Agree T (Stmt.Alike R) (printStatement bound) (printStatement bound) :=
  agree_here.bind fun _ _ hs => (agree_expect _).bind fun _ _ _ =>
    (agree_expression hR bound).bind fun _ _ he => (agree_expect _).bind fun _ _ _ =>
      (agree_spanFrom hR hs).bind fun _ _ h => agree_pure (.print h he)

theorem agree_declaration : Agree T (Stmt.Alike R) (declaration bound) (declaration bound) := by
  refine agree_here.bind fun s s' hs => (agree_expect _).bind fun _ _ _ => agree_identifier.bind ?_
  rintro x _ rfl
  have hrest : ∀ i i', Option.Rel (Expr.Alike R) i i' →
      Agree T (Stmt.Alike R)
        (do expect .semicolon; return Stmt.declare (← spanFrom s) x i)
        (do expect .semicolon; return Stmt.declare (← spanFrom s') x i') := fun i i' hi =>
    (agree_expect _).bind fun _ _ _ => (agree_spanFrom hR hs).bind fun _ _ h =>
      agree_pure (.declare x h hi)
  refine agree_token.bind ?_
  rintro t _ rfl
  by_cases ht : t = .assign
  · simp only [if_pos ht]
    refine agree_advance.bind fun _ _ _ => ?_
    exact ((agree_expression hR bound).map fun _ _ he => .some he).bind hrest
  · simp only [if_neg ht]
    exact (agree_pure .none).bind hrest

theorem agree_simpleStatement :
    Agree T (Stmt.Alike R) (simpleStatement bound) (simpleStatement bound) :=
  agree_here.bind fun _ _ hs => (agree_simple hR bound).bind fun _ _ ha =>
    (agree_expect _).bind fun _ _ _ => (agree_spanFrom hR hs).bind fun _ _ h =>
      agree_pure (.simple h ha)

variable {inner inner' : Parser Stmt} (hinner : Agree T (Stmt.Alike R) inner inner')
include hinner

theorem agree_block : Agree T (Stmt.Alike R) (block inner bound) (block inner' bound) :=
  agree_here.bind fun _ _ hs => (agree_expect _).bind fun _ _ _ =>
    (agree_many bound hinner _).bind fun _ _ hss => (agree_expect _).bind fun _ _ _ =>
      (agree_spanFrom hR hs).bind fun _ _ h => agree_pure (.block h hss)

theorem agree_conditional :
    Agree T (Stmt.Alike R) (conditional inner bound) (conditional inner' bound) := by
  refine agree_here.bind fun s s' hs => (agree_expect _).bind fun _ _ _ =>
    (agree_parenthesized (agree_expression hR bound)).bind fun _ _ hc =>
      hinner.bind fun _ _ ha => agree_token.bind ?_
  rintro t _ rfl
  by_cases ht : t = .elseWord
  · simp only [if_pos ht]
    exact agree_advance.bind fun _ _ _ => hinner.bind fun _ _ hb =>
      (agree_spanFrom hR hs).bind fun _ _ h => agree_pure (.ifElse h hc ha hb)
  · simp only [if_neg ht]
    exact (agree_spanFrom hR hs).bind fun _ _ h => agree_pure (.ifThen h hc ha)

theorem agree_whileLoop :
    Agree T (Stmt.Alike R) (whileLoop inner bound) (whileLoop inner' bound) :=
  agree_here.bind fun _ _ hs => (agree_expect _).bind fun _ _ _ =>
    (agree_parenthesized (agree_expression hR bound)).bind fun _ _ hc =>
      hinner.bind fun _ _ ha => (agree_spanFrom hR hs).bind fun _ _ h =>
        agree_pure (.whileLoop h hc ha.asBody.1 ha.asBody.2)

theorem agree_forLoop : Agree T (Stmt.Alike R) (forLoop inner bound) (forLoop inner' bound) := by
  refine agree_here.bind fun s s' hs => (agree_expect _).bind fun _ _ _ =>
    (agree_expect _).bind fun _ _ _ => (agree_simpleUnless hR bound _).bind fun i i' hi =>
      (agree_expect _).bind fun _ _ _ => agree_token.bind ?_
  rintro t _ rfl
  have hrest : Agree T (Stmt.Alike R)
      (do
        let condition ← expression bound
        expect .semicolon
        let step ← simpleUnless .rightParen bound
        expect .rightParen
        let body := (← inner).asBody
        return Stmt.forLoop (← spanFrom s) i condition step body.1 body.2)
      (do
        let condition ← expression bound
        expect .semicolon
        let step ← simpleUnless .rightParen bound
        expect .rightParen
        let body := (← inner').asBody
        return Stmt.forLoop (← spanFrom s') i' condition step body.1 body.2) :=
    (agree_expression hR bound).bind fun _ _ hc => (agree_expect _).bind fun _ _ _ =>
      (agree_simpleUnless hR bound _).bind fun _ _ hu => (agree_expect _).bind fun _ _ _ =>
        hinner.bind fun _ _ ha => (agree_spanFrom hR hs).bind fun _ _ h =>
          agree_pure (.forLoop h hi hc hu ha.asBody.1 ha.asBody.2)
  by_cases ht : t = .semicolon
  · simp only [if_pos ht]
    exact (agree_unexpected (A := Eq) _).bind fun _ _ _ => hrest
  · simp only [if_neg ht]
    exact hrest

omit hinner in
theorem agree_statement : Agree T (Stmt.Alike R) (statement bound) (statement bound) := by
  induction bound with
  | zero => exact agree_unexpected _
  | succ bound ih =>
    refine agree_token.bind ?_
    rintro t _ rfl
    cases t with
    | leftBrace => exact agree_block hR bound ih
    | ifWord => exact agree_conditional hR bound ih
    | whileWord => exact agree_whileLoop hR bound ih
    | forWord => exact agree_forLoop hR bound ih
    | printWord => exact agree_printStatement hR bound
    | varWord => exact agree_declaration hR bound
    | _ => exact agree_simpleStatement hR (bound + 1)

omit hinner in
theorem agree_program : Agree T (Program.Alike R) (program bound) (program bound) :=
  agree_here.bind fun _ _ hs => (agree_many bound (agree_statement hR bound) _).bind
    fun _ _ hss => (agree_spanFrom hR hs).bind fun _ _ h => agree_pure ⟨h, hss⟩

end

end Parser

theorem forall₂_alike {ts us : List Located} (h : us.map Located.token = ts.map Located.token) :
    List.Forall₂ (Located.Alike Span.Any) ts us := by
  rw [← List.forall₂_eq_eq_eq, List.forall₂_map_left_iff, List.forall₂_map_right_iff] at h
  exact h.flip.imp fun _ _ htoken => ⟨htoken, trivial⟩

/-- Lists with the same tokens both spell programs, which are alike, or are both rejected with the
same cause. -/
theorem parse_alike {ts us : List Located} (h : us.map Located.token = ts.map Located.token) :
    (∃ p q, parse ts = .ok p ∧ parse us = .ok q ∧ p.Alike Span.Any q) ∨
      ∃ cause s s', parse ts = .error ⟨cause, s⟩ ∧ parse us = .error ⟨cause, s'⟩ := by
  have hends := Parser.agree_program (T := Span.Any) (R := Span.Any) (fun _ _ _ _ _ _ => trivial)
    ts.length ⟨ts, {}⟩ ⟨us, {}⟩ ⟨forall₂_alike h, trivial⟩
  have hlen : us.length = ts.length := by simpa using congrArg List.length h
  unfold parse
  rw [hlen]
  generalize (Parser.program ts.length).run ⟨ts, {}⟩ = r at hends ⊢
  generalize (Parser.program ts.length).run ⟨us, {}⟩ = r' at hends ⊢
  cases hends with
  | ok hp _ => exact .inl ⟨_, _, rfl, rfl, hp⟩
  | error cause _ => exact .inr ⟨cause, _, _, rfl, rfl⟩

/-- A list with the same tokens spells statements that are alike. -/
theorem Stmt.AllSpelled.alike {ts us : List Located} {ss : List Stmt}
    (h : Stmt.AllSpelled true ts ss)
    (hR : ∀ s s' e e', T s s' → T e e' → R (s.through e) (s'.through e')) {p p' : Span}
    (hp : T p p') (hts : List.Forall₂ (Located.Alike T) ts us) :
    ∃ ss', Stmt.AllSpelled true us ss' ∧ Stmt.AllAlike R ss ss' := by
  have hrun : (Parser.many (Parser.statement ts.length) [.endOfInput] ts.length).run ⟨ts, p⟩ =
      .ok (ss, ⟨[], lastSpan p ts⟩) :=
    Parser.run_many h ⟨(List.append_nil ts).symm, rfl⟩ (Nat.le_refl _) (Nat.le_refl _)
      List.mem_cons_self (by decide)
  have hends := Parser.agree_many ts.length (Parser.agree_statement hR ts.length) [.endOfInput]
    ⟨ts, p⟩ ⟨us, p'⟩ ⟨hts, hp⟩
  rw [hrun] at hends
  cases hrun' : (Parser.many (Parser.statement ts.length) [.endOfInput] ts.length).run ⟨us, p'⟩ with
  | error e =>
    rw [hrun'] at hends
    cases hends
  | ok result =>
    obtain ⟨ss', d⟩ := result
    rw [hrun'] at hends
    cases hends with
    | ok hss hd =>
      obtain ⟨us', hreads, hspelled, _⟩ :=
        Parser.spelled_many (Parser.spells_statement _) List.mem_cons_self _ hrun'
      have hrest : d.rest = [] := List.forall₂_nil_left_iff.1 hd.rest
      have heq : us = us' := by
        rw [← List.append_nil us', ← hrest]
        exact hreads.rest_eq
      subst heq
      exact ⟨ss', hspelled, hss⟩

end TeachLang
