import TeachLang.Proofs.Reads

/-!
# When a parser succeeds

For each parser, the answers it may give at a cursor and the cursors it may leave, read off the
tokens and the runs of its parts.
-/

namespace TeachLang.Parser

variable {c d : Cursor} {e : Expr} {s : Stmt} {b : Nat}

theorem run_pure_eq_ok {α : Type} {a b : α} :
    (pure a : Parser α).run c = .ok (b, d) ↔ b = a ∧ d = c := by
  constructor
  · intro h
    cases h
    exact ⟨rfl, rfl⟩
  · rintro ⟨rfl, rfl⟩
    rfl

theorem run_map_eq_ok {α β : Type} {f : α → β} {x : Parser α} {y : β} :
    (f <$> x).run c = .ok (y, d) ↔ ∃ a, x.run c = .ok (a, d) ∧ y = f a := by
  have hrun : (f <$> x).run c = (x >>= fun a => pure (f a)).run c := rfl
  rw [hrun, run_bind_eq_ok]
  constructor
  · rintro ⟨a, m, hx, h⟩
    obtain ⟨rfl, rfl⟩ := run_pure_eq_ok.1 h
    exact ⟨a, hx, rfl⟩
  · rintro ⟨a, hx, rfl⟩
    exact ⟨a, d, hx, run_pure_eq_ok.2 ⟨rfl, rfl⟩⟩

theorem run_get_eq_ok {m : Cursor} :
    (get : Parser Cursor).run c = .ok (m, d) ↔ m = c ∧ d = c := by
  rw [run_get]
  simp [eq_comm]

theorem run_here_eq_ok {p : Span} : here.run c = .ok (p, d) ↔ p = c.span ∧ d = c := by
  simp [eq_comm]

theorem run_token_eq_ok {t : Token} : token.run c = .ok (t, d) ↔ t = c.token ∧ d = c := by
  simp [eq_comm]

theorem run_advance_eq_ok {u : Unit} : advance.run c = .ok (u, d) ↔ d = c.advance := by
  simp [eq_comm]

theorem run_spanFrom_eq_ok {p q : Span} :
    (spanFrom p).run c = .ok (q, d) ↔ q = p.through c.previous ∧ d = c := by
  simp [eq_comm]

theorem run_unexpected_ne_ok {α : Type} {x : Expected} {a : α} :
    (unexpected x : Parser α).run c ≠ .ok (a, d) := by
  simp

theorem run_expect_eq_ok {t : Token} {u : Unit} :
    (expect t).run c = .ok (u, d) ↔ c.token = t ∧ d = c.advance := by
  rw [run_expect]
  split <;> simp_all [eq_comm]

theorem run_identifier_eq_ok {x : String} :
    identifier.run c = .ok (x, d) ↔ c.token = .ident x ∧ d = c.advance := by
  simp only [identifier, run_bind_eq_ok, run_token_eq_ok, and_assoc, exists_and_left,
    exists_eq_left]
  cases c.token
  case ident y =>
    simp only [run_bind_eq_ok, run_advance_eq_ok, run_pure_eq_ok, exists_and_left, exists_const,
      exists_eq_left, Token.ident.injEq, eq_comm (a := x)]
  all_goals simp only [run_unexpected_ne_ok, reduceCtorEq, false_and]

theorem run_ite_eq_ok {α : Type} {p : Prop} [Decidable p] {x y : Parser α} {a : α} :
    (if p then x else y).run c = .ok (a, d) ↔
      (p ∧ x.run c = .ok (a, d)) ∨ (¬ p ∧ y.run c = .ok (a, d)) := by
  split <;> simp_all

section

variable {inner : Parser Expr} {n : Nat} {start : Span} {left : Expr}

theorem run_parenthesized_eq_ok :
    (parenthesized inner).run c = .ok (e, d) ↔ c.token = .leftParen ∧
      ∃ m, inner.run c.advance = .ok (e, m) ∧ m.token = .rightParen ∧ d = m.advance := by
  simp only [parenthesized, run_bind_eq_ok, run_expect_eq_ok, run_pure_eq_ok, and_assoc,
    exists_and_left, exists_eq_left, exists_const]
  refine and_congr_right fun _ => ?_
  constructor
  · rintro ⟨a, m, hinner, hr, rfl, rfl⟩
    exact ⟨m, hinner, hr, rfl⟩
  · rintro ⟨m, hinner, hr, rfl⟩
    exact ⟨e, m, hinner, hr, rfl, rfl⟩

theorem run_primary_eq_ok :
    (primary inner).run c = .ok (e, d) ↔
      (∃ v, c.token = .number v ∧ e = .literal c.span v ∧ d = c.advance) ∨
      (∃ x, c.token = .ident x ∧ e = .reference c.span x ∧ d = c.advance) ∨
      (parenthesized inner).run c = .ok (e, d) := by
  constructor
  · intro h
    obtain ⟨start, m, hstart, h⟩ := run_bind_eq_ok.1 h
    obtain ⟨rfl, rfl⟩ := run_here_eq_ok.1 hstart
    obtain ⟨t, m, ht, h⟩ := run_bind_eq_ok.1 h
    obtain ⟨rfl, rfl⟩ := run_token_eq_ok.1 ht
    cases ht : m.token <;> rw [ht] at h
    case number v =>
      cases h
      exact .inl ⟨v, rfl, rfl, rfl⟩
    case ident x =>
      cases h
      exact .inr (.inl ⟨x, rfl, rfl, rfl⟩)
    case leftParen => exact .inr (.inr h)
    all_goals exact absurd h run_unexpected_ne_ok
  · intro h
    refine run_bind_eq_ok.2 ⟨c.span, c, run_here_eq_ok.2 ⟨rfl, rfl⟩, run_bind_eq_ok.2
      ⟨c.token, c, run_token_eq_ok.2 ⟨rfl, rfl⟩, ?_⟩⟩
    rcases h with ⟨v, ht, rfl, rfl⟩ | ⟨x, ht, rfl, rfl⟩ | h
    · rw [ht]
      rfl
    · rw [ht]
      rfl
    · rw [(run_parenthesized_eq_ok.1 h).1]
      exact h

theorem run_unary_succ_eq_ok :
    (unary inner (b + 1)).run c = .ok (e, d) ↔
      (c.token.unary? = none ∧ (primary inner).run c = .ok (e, d)) ∨
      ∃ op operand, c.token.unary? = some op ∧ (unary inner b).run c.advance = .ok (operand, d) ∧
        e = .unary (c.span.through d.previous) op operand := by
  simp only [unary, run_bind_eq_ok, run_here_eq_ok, run_token_eq_ok, and_assoc, exists_and_left,
    exists_eq_left]
  cases c.token.unary? with
  | none => simp
  | some op =>
    simp only [run_bind_eq_ok, run_advance_eq_ok, run_spanFrom_eq_ok, run_pure_eq_ok, and_assoc,
      exists_and_left, exists_eq_left, exists_const, reduceCtorEq, false_and, false_or,
      Option.some.injEq]
    constructor
    · rintro ⟨operand, m, hoperand, rfl, rfl⟩
      exact ⟨op, rfl, operand, hoperand, rfl⟩
    · rintro ⟨_, rfl, operand, hoperand, rfl⟩
      exact ⟨operand, d, hoperand, rfl, rfl⟩

theorem run_chain_zero_eq_ok :
    (chain inner n start 0 left).run c = .ok (e, d) ↔ e = left ∧ d = c := by
  simp only [chain, run_pure_eq_ok]

theorem run_chain_succ_eq_ok :
    (chain inner n start (b + 1) left).run c = .ok (e, d) ↔
      (c.token.operator? n = none ∧ e = left ∧ d = c) ∨
      ∃ op right m, c.token.operator? n = some op ∧ inner.run c.advance = .ok (right, m) ∧
        (chain inner n start b (.binary (start.through m.previous) op left right)).run m =
          .ok (e, d) := by
  simp only [chain, run_bind_eq_ok, run_token_eq_ok, and_assoc, exists_and_left, exists_eq_left]
  cases c.token.operator? n with
  | none => simp only [run_pure_eq_ok, reduceCtorEq, false_and, exists_false, or_false, true_and]
  | some op =>
    simp only [run_bind_eq_ok, run_advance_eq_ok, run_spanFrom_eq_ok, and_assoc, exists_and_left,
      exists_eq_left, exists_const, reduceCtorEq, false_and, false_or, Option.some.injEq,
      exists_eq_left']

theorem run_upTo_succ_eq_ok :
    (upTo b inner (n + 1)).run c = .ok (e, d) ↔
      ∃ l m, (upTo b inner n).run c = .ok (l, m) ∧
        (chain (upTo b inner n) (n + 1) c.span b l).run m = .ok (e, d) := by
  simp only [upTo, run_bind_eq_ok, run_here_eq_ok, and_assoc, exists_and_left, exists_eq_left]

end

theorem atAssignment_iff :
    atAssignment c = true ↔ ∃ x, c.token = .ident x ∧ c.advance.token = .assign := by
  obtain ⟨rest, previous⟩ := c
  unfold atAssignment
  split
  · next h =>
    cases h
    simp [Cursor.token, Cursor.advance]
  · next h =>
    simp only [Bool.false_eq_true, false_iff]
    rintro ⟨x, hx, ha⟩
    have hread := (Cursor.reads_advance hx Token.noConfusion).rest_eq
    have hread' := (Cursor.reads_advance ha Token.noConfusion).rest_eq
    rw [hread'] at hread
    exact h _ _ _ _ hread

theorem run_simple_eq_ok {s : Simple} :
    (simple b).run c = .ok (s, d) ↔
      (atAssignment c = true ∧ ∃ x, c.token = .ident x ∧ c.advance.token = .assign ∧
        ((c.advance.advance.token = .question ∧
          s = .input (c.span.through c.advance.advance.advance.previous)
            (c.span.through c.advance.previous) x ∧ d = c.advance.advance.advance) ∨
        (c.advance.advance.token ≠ .question ∧
          ∃ e m, (expression b).run c.advance.advance = .ok (e, m) ∧
            s = .assign (c.span.through m.previous) (c.span.through c.advance.previous) x e ∧
            d = m))) ∨
      (¬ atAssignment c = true ∧
        ∃ e m, (expression b).run c = .ok (e, m) ∧ s = .expr e ∧ d = m) := by
  simp only [simple, run_bind_eq_ok, run_get_eq_ok, run_here_eq_ok, run_token_eq_ok,
    run_advance_eq_ok, run_expect_eq_ok, run_identifier_eq_ok, run_ite_eq_ok, run_spanFrom_eq_ok,
    run_pure_eq_ok, and_assoc, exists_and_left, exists_eq_left, exists_const, ne_eq]

theorem run_simpleUnless_eq_ok {close : Token} {o : Option Simple} :
    (simpleUnless close b).run c = .ok (o, d) ↔
      (c.token = close ∧ o = none ∧ d = c) ∨
      (c.token ≠ close ∧ ∃ s m, (simple b).run c = .ok (s, m) ∧ o = some s ∧ d = m) := by
  simp only [simpleUnless, run_bind_eq_ok, run_token_eq_ok, run_ite_eq_ok, run_pure_eq_ok,
    and_assoc, exists_and_left, exists_eq_left, ne_eq]

theorem run_many_succ_eq_ok {α : Type} {item : Parser α} {stop : List Token} {as : List α} :
    (many item stop (b + 1)).run c = .ok (as, d) ↔
      (c.token ∈ stop ∧ as = [] ∧ d = c) ∨
      (c.token ∉ stop ∧ ∃ a m, item.run c = .ok (a, m) ∧
        ∃ bs n, (many item stop b).run m = .ok (bs, n) ∧ as = a :: bs ∧ d = n) := by
  simp only [many, run_bind_eq_ok, run_token_eq_ok, run_ite_eq_ok, run_pure_eq_ok, and_assoc,
    exists_and_left, exists_eq_left]

theorem run_printStatement_eq_ok :
    (printStatement b).run c = .ok (s, d) ↔ c.token = .printWord ∧
      ∃ e m, (expression b).run c.advance = .ok (e, m) ∧ m.token = .semicolon ∧
        s = .print (c.span.through m.advance.previous) e ∧ d = m.advance := by
  simp only [printStatement, run_bind_eq_ok, run_here_eq_ok, run_expect_eq_ok, run_spanFrom_eq_ok,
    run_pure_eq_ok, and_assoc, exists_and_left, exists_eq_left, exists_const]

theorem run_declaration_eq_ok :
    (declaration b).run c = .ok (s, d) ↔ c.token = .varWord ∧ ∃ x, c.advance.token = .ident x ∧
      ((c.advance.advance.token = .assign ∧
        ∃ o m, (∃ e, (expression b).run c.advance.advance.advance = .ok (e, m) ∧ o = some e) ∧
          m.token = .semicolon ∧ s = .declare (c.span.through m.advance.previous) x o ∧
          d = m.advance) ∨
      (¬ c.advance.advance.token = .assign ∧ c.advance.advance.token = .semicolon ∧
        s = .declare (c.span.through c.advance.advance.advance.previous) x none ∧
        d = c.advance.advance.advance)) := by
  simp only [declaration, run_bind_eq_ok, run_here_eq_ok, run_token_eq_ok, run_advance_eq_ok,
    run_expect_eq_ok, run_identifier_eq_ok, run_ite_eq_ok, run_map_eq_ok, run_spanFrom_eq_ok,
    run_pure_eq_ok, and_assoc, exists_and_left, exists_eq_left, exists_const]

theorem run_simpleStatement_eq_ok :
    (simpleStatement b).run c = .ok (s, d) ↔
      ∃ a m, (simple b).run c = .ok (a, m) ∧ m.token = .semicolon ∧
        s = .simple (c.span.through m.advance.previous) a ∧ d = m.advance := by
  simp only [simpleStatement, run_bind_eq_ok, run_here_eq_ok, run_expect_eq_ok, run_spanFrom_eq_ok,
    run_pure_eq_ok, and_assoc, exists_and_left, exists_eq_left, exists_const]

section

variable {item : Parser Stmt}

theorem run_block_eq_ok :
    (block item b).run c = .ok (s, d) ↔ c.token = .leftBrace ∧
      ∃ ss m, (many item [.rightBrace, .endOfInput] b).run c.advance = .ok (ss, m) ∧
        m.token = .rightBrace ∧ s = .block (c.span.through m.advance.previous) ss ∧
        d = m.advance := by
  simp only [block, run_bind_eq_ok, run_here_eq_ok, run_expect_eq_ok, run_spanFrom_eq_ok,
    run_pure_eq_ok, and_assoc, exists_and_left, exists_eq_left, exists_const]

theorem run_conditional_eq_ok :
    (conditional item b).run c = .ok (s, d) ↔ c.token = .ifWord ∧
      ∃ e m, (parenthesized (expression b)).run c.advance = .ok (e, m) ∧
        ∃ t n, item.run m = .ok (t, n) ∧
          ((n.token = .elseWord ∧ ∃ t' n', item.run n.advance = .ok (t', n') ∧
            s = .ifElse (c.span.through n'.previous) e t t' ∧ d = n') ∨
          (¬ n.token = .elseWord ∧ s = .ifThen (c.span.through n.previous) e t ∧ d = n)) := by
  simp only [conditional, run_bind_eq_ok, run_here_eq_ok, run_token_eq_ok, run_advance_eq_ok,
    run_expect_eq_ok, run_ite_eq_ok, run_spanFrom_eq_ok, run_pure_eq_ok, and_assoc,
    exists_and_left, exists_eq_left, exists_const]

theorem run_whileLoop_eq_ok :
    (whileLoop item b).run c = .ok (s, d) ↔ c.token = .whileWord ∧
      ∃ e m, (parenthesized (expression b)).run c.advance = .ok (e, m) ∧
        ∃ t n, item.run m = .ok (t, n) ∧
          s = .whileLoop (c.span.through n.previous) e t.asBody.1 t.asBody.2 ∧ d = n := by
  simp only [whileLoop, run_bind_eq_ok, run_here_eq_ok, run_expect_eq_ok, run_spanFrom_eq_ok,
    run_pure_eq_ok, and_assoc, exists_and_left, exists_eq_left, exists_const]

theorem run_forLoop_eq_ok :
    (forLoop item b).run c = .ok (s, d) ↔ c.token = .forWord ∧ c.advance.token = .leftParen ∧
      ∃ i m, (simpleUnless .semicolon b).run c.advance.advance = .ok (i, m) ∧
        m.token = .semicolon ∧ ¬ m.advance.token = .semicolon ∧
        ∃ e n, (expression b).run m.advance = .ok (e, n) ∧ n.token = .semicolon ∧
          ∃ u k, (simpleUnless .rightParen b).run n.advance = .ok (u, k) ∧ k.token = .rightParen ∧
            ∃ t l, item.run k.advance = .ok (t, l) ∧
              s = .forLoop (c.span.through l.previous) i e u t.asBody.1 t.asBody.2 ∧ d = l := by
  simp only [forLoop, run_bind_eq_ok, run_here_eq_ok, run_token_eq_ok, run_expect_eq_ok,
    run_ite_eq_ok, run_unexpected_ne_ok, run_spanFrom_eq_ok, run_pure_eq_ok, and_assoc,
    exists_and_left, exists_eq_left, exists_const, exists_false, and_false, false_and, false_or]

def statementAt (b : Nat) : Token → Parser Stmt
  | .leftBrace => block (statement b) b
  | .ifWord => conditional (statement b) b
  | .whileWord => whileLoop (statement b) b
  | .forWord => forLoop (statement b) b
  | .printWord => printStatement b
  | .varWord => declaration b
  | _ => simpleStatement (b + 1)

theorem run_program_eq_ok {p : Program} :
    (program b).run c = .ok (p, d) ↔
      ∃ ss m, (many (statement b) [.endOfInput] b).run c = .ok (ss, m) ∧
        p = ⟨c.span.through m.previous, ss⟩ ∧ d = m := by
  simp only [program, run_bind_eq_ok, run_here_eq_ok, run_spanFrom_eq_ok, run_pure_eq_ok, and_assoc,
    exists_and_left, exists_eq_left]

theorem run_statement_succ : (statement (b + 1)).run c = (statementAt b c.token).run c := by
  simp only [statement, run_bind, run_token]
  cases c.token <;> rfl

end

end TeachLang.Parser
