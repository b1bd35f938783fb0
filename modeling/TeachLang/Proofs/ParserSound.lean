import TeachLang.Proofs.Success

/-!
# What is read spells the answer

Whatever a parser reads on success spells what it answers. Of the statements that it could have
continued by an `else` it leaves none in front of one, so every `else` belongs to the nearest `if`.
-/

namespace TeachLang.Parser

open Cursor

variable {c d : Cursor} {e : Expr} {s : Stmt} {b n : Nat}

section Expressions

def Sound (x : Parser Expr) (n : Nat) : Prop :=
  ∀ c e d, x.run c = .ok (e, d) → ∃ ts, c.Reads ts d ∧ e.Spelled n ts

variable {inner : Parser Expr}

theorem spelled_parenthesized (hinner : Sound inner 7)
    (h : (parenthesized inner).run c = .ok (e, d)) :
    ∃ p q ts, c.Reads (⟨.leftParen, p⟩ :: ts ++ [⟨.rightParen, q⟩]) d ∧ e.Spelled 7 ts := by
  obtain ⟨hl, m, hrun, hr, rfl⟩ := run_parenthesized_eq_ok.1 h
  obtain ⟨ts, hreads, hts⟩ := hinner _ _ _ hrun
  have hleft := reads_advance hl Token.noConfusion
  have hright := reads_advance hr Token.noConfusion
  exact ⟨_, _, ts, (hleft.append hreads).append hright, hts⟩

theorem sound_primary (hinner : Sound inner 7) : Sound (primary inner) 0 := by
  intro c e d h
  rcases run_primary_eq_ok.1 h with ⟨v, hv, rfl, rfl⟩ | ⟨x, hx, rfl, rfl⟩ | h
  · exact ⟨_, reads_advance hv Token.noConfusion, .number c.span v⟩
  · exact ⟨_, reads_advance hx Token.noConfusion, .name c.span x⟩
  · obtain ⟨p, q, ts, hreads, hts⟩ := spelled_parenthesized hinner h
    exact ⟨_, hreads, .parens p q hts⟩

theorem sound_unary (hinner : Sound inner 7) (b : Nat) : Sound (unary inner b) 0 := by
  induction b with
  | zero => exact fun c e d h => absurd h run_unexpected_ne_ok
  | succ b ih =>
    intro c e d h
    rcases run_unary_succ_eq_ok.1 h with ⟨_, h⟩ | ⟨op, operand, hop, hrun, rfl⟩
    · exact sound_primary hinner c e d h
    · obtain ⟨ts, hreads, hts⟩ := ih _ _ _ hrun
      have hmem := Token.unary?_eq_some_iff.1 hop
      have hne : c.token ≠ .endOfInput := by
        intro he
        rw [he] at hop
        cases hop
      rw [hreads.through_previous hts.opens.ne_nil]
      exact ⟨_, (reads_advance rfl hne).append hreads, .unary c.span hmem hts⟩

/-- The chain continues an expression of which `ts` is what has been read. -/
theorem spelled_chain (hinner : Sound inner n) {c₀ : Cursor} (b : Nat) :
    ∀ {left : Expr} {ts : List Located} {c : Cursor}, c₀.Reads ts c → left.Spelled (n + 1) ts →
      (chain inner (n + 1) c₀.span b left).run c = .ok (e, d) →
      ∃ us, c₀.Reads us d ∧ e.Spelled (n + 1) us := by
  induction b with
  | zero =>
    intro left ts c hreads hleft h
    obtain ⟨rfl, rfl⟩ := run_chain_zero_eq_ok.1 h
    exact ⟨ts, hreads, hleft⟩
  | succ b ih =>
    intro left ts c hreads hleft h
    rcases run_chain_succ_eq_ok.1 h with ⟨_, rfl, rfl⟩ | ⟨op, right, m, hop, hright, h⟩
    · exact ⟨ts, hreads, hleft⟩
    · obtain ⟨us, hus, hspelled⟩ := hinner _ _ _ hright
      have hmem := Token.operator?_eq_some_iff.1 hop
      have hop := reads_advance (c := c) rfl (Token.ne_of_mem_operators hmem).2
      refine ih (hreads.append (hop.append hus)) ?_ h
      rw [hus.through_previous hspelled.opens.ne_nil, hreads.through_span hleft.opens.ne_nil]
      exact .binary c.span hleft hmem hspelled

theorem sound_upTo (hinner : Sound inner 7) (b n : Nat) : Sound (upTo b inner n) n := by
  induction n with
  | zero => exact sound_unary hinner b
  | succ n ih =>
    intro c e d h
    obtain ⟨l, m, hl, h⟩ := run_upTo_succ_eq_ok.1 h
    obtain ⟨ts, hreads, hts⟩ := ih _ _ _ hl
    exact spelled_chain ih b hreads (.operand hts) h

theorem sound_expression (b : Nat) : Sound (expression b) 7 := by
  induction b with
  | zero => exact fun c e d h => absurd h run_unexpected_ne_ok
  | succ b ih => exact sound_upTo ih (b + 1) 7

end Expressions

theorem spelled_simple {s : Simple} (h : (simple b).run c = .ok (s, d)) :
    ∃ ts, c.Reads ts d ∧ s.Spelled ts := by
  rcases run_simple_eq_ok.1 h with ⟨_, x, hx, ha, h⟩ | ⟨_, e, m, he, rfl, rfl⟩
  · have hname := reads_advance hx Token.noConfusion
    have hassign := reads_advance ha Token.noConfusion
    rcases h with ⟨hq, rfl, rfl⟩ | ⟨_, e, m, he, rfl, rfl⟩
    · have hquestion := reads_advance hq Token.noConfusion
      exact ⟨_, (hname.append hassign).append hquestion, .input _ _ _ x⟩
    · obtain ⟨ts, hreads, hts⟩ := sound_expression b _ _ _ he
      rw [hreads.through_previous hts.opens.ne_nil]
      exact ⟨_, (hname.append hassign).append hreads, .assign _ _ x hts⟩
  · obtain ⟨ts, hreads, hts⟩ := sound_expression b _ _ _ he
    exact ⟨ts, hreads, .expr hts⟩

theorem spelled_simpleUnless {close : Token} {o : Option Simple}
    (h : (simpleUnless close b).run c = .ok (o, d)) :
    ∃ ts, c.Reads ts d ∧ Simple.OptionSpelled ts o := by
  rcases run_simpleUnless_eq_ok.1 h with ⟨_, rfl, rfl⟩ | ⟨_, s, m, hs, rfl, rfl⟩
  · exact ⟨[], .refl _, .none⟩
  · obtain ⟨ts, hreads, hts⟩ := spelled_simple hs
    exact ⟨ts, hreads, .some hts⟩

section Statements

/-- What has been read from `c` to `d` spells the statement, and no `else` that it could have
follows. -/
def Spells (c : Cursor) (s : Stmt) (d : Cursor) : Prop :=
  ∃ ts k, c.Reads ts d ∧ s.Spelled true k ts ∧ (k = true → d.token ≠ .elseWord)

variable {item : Parser Stmt}

theorem spells_printStatement (h : (printStatement b).run c = .ok (s, d)) : Spells c s d := by
  obtain ⟨hp, e, m, he, hm, rfl, rfl⟩ := run_printStatement_eq_ok.1 h
  obtain ⟨ts, hreads, hts⟩ := sound_expression b _ _ _ he
  have hword := reads_advance hp Token.noConfusion
  have hend := reads_advance hm Token.noConfusion
  exact ⟨_, false, (hword.append hreads).append hend, .print _ _ hts, nofun⟩

theorem spells_declaration (h : (declaration b).run c = .ok (s, d)) : Spells c s d := by
  obtain ⟨hv, x, hx, h⟩ := run_declaration_eq_ok.1 h
  have hword := (reads_advance hv Token.noConfusion).append (reads_advance hx Token.noConfusion)
  rcases h with ⟨ha, o, m, ⟨e, he, rfl⟩, hm, rfl, rfl⟩ | ⟨_, hm, rfl, rfl⟩
  · obtain ⟨ts, hreads, hts⟩ := sound_expression b _ _ _ he
    have hassign := reads_advance ha Token.noConfusion
    have hend := reads_advance hm Token.noConfusion
    exact ⟨_, false, ((hword.append hassign).append hreads).append hend,
      .declareAs _ _ _ _ x hts, nofun⟩
  · have hend := reads_advance hm Token.noConfusion
    exact ⟨_, false, hword.append hend, .declare _ _ _ x, nofun⟩

theorem spells_simpleStatement (h : (simpleStatement b).run c = .ok (s, d)) : Spells c s d := by
  obtain ⟨a, m, ha, hm, rfl, rfl⟩ := run_simpleStatement_eq_ok.1 h
  obtain ⟨ts, hreads, hts⟩ := spelled_simple ha
  have hend := reads_advance hm Token.noConfusion
  rw [hreads.through_span hts.opens.ne_nil]
  exact ⟨_, false, hreads.append hend, .simple _ hts, nofun⟩

theorem spelled_many (hitem : ∀ c s d, item.run c = .ok (s, d) → Spells c s d) {stop : List Token}
    (hstop : .endOfInput ∈ stop) (b : Nat) {ss : List Stmt}
    (h : (many item stop b).run c = .ok (ss, d)) :
    ∃ ts, c.Reads ts d ∧ Stmt.AllSpelled true ts ss ∧ (c.rest.length ≤ b → d.token ∈ stop) := by
  induction b generalizing c ss with
  | zero =>
    obtain ⟨rfl, rfl⟩ := run_pure_eq_ok.1 h
    refine ⟨[], .refl _, .nil, fun hlen => ?_⟩
    have hnil := List.length_eq_zero_iff.1 (Nat.le_zero.1 hlen)
    rwa [Cursor.token, hnil]
  | succ b ih =>
    rcases run_many_succ_eq_ok.1 h with ⟨hin, rfl, rfl⟩ | ⟨_, s, m, hs, ss, n, hss, rfl, rfl⟩
    · exact ⟨[], .refl _, .nil, fun _ => hin⟩
    · obtain ⟨ts, k, hreads, hts, _⟩ := hitem _ _ _ hs
      obtain ⟨us, hreads', hus, hend⟩ := ih hss
      refine ⟨ts ++ us, hreads.append hreads', .cons hts hus, fun hlen => hend ?_⟩
      have hpos := List.length_pos_iff.2 hts.opens.ne_nil
      have := hreads.length_eq
      omega

theorem spells_block (hitem : ∀ c s d, item.run c = .ok (s, d) → Spells c s d)
    (h : (block item b).run c = .ok (s, d)) : Spells c s d := by
  obtain ⟨hl, ss, m, hss, hr, rfl, rfl⟩ := run_block_eq_ok.1 h
  obtain ⟨ts, hreads, hts, _⟩ := spelled_many hitem (by simp) b hss
  have hleft := reads_advance hl Token.noConfusion
  have hright := reads_advance hr Token.noConfusion
  exact ⟨_, false, (hleft.append hreads).append hright, .block _ _ hts, nofun⟩

theorem spells_conditional (hitem : ∀ c s d, item.run c = .ok (s, d) → Spells c s d)
    (h : (conditional item b).run c = .ok (s, d)) : Spells c s d := by
  obtain ⟨hi, e, m, he, t, n, ht, h⟩ := run_conditional_eq_ok.1 h
  obtain ⟨q, r, cs, hcondition, hcs⟩ := spelled_parenthesized (sound_expression b) he
  obtain ⟨ts, k, hreads, hts, hk⟩ := hitem _ _ _ ht
  have hword := (reads_advance hi Token.noConfusion).append hcondition
  rcases h with ⟨helse, t', n', ht', rfl, rfl⟩ | ⟨hnot, rfl, rfl⟩
  · obtain ⟨us, k', hreads', hus, hk'⟩ := hitem _ _ _ ht'
    have hword' := reads_advance helse Token.noConfusion
    have hclosed : k = false := Bool.eq_false_iff.2 fun hopen => hk hopen helse
    rw [hreads'.through_previous hus.opens.ne_nil]
    exact ⟨_, k', (hword.append hreads).append (hword'.append hreads'),
      .ifElse _ q r _ hcs hts (fun _ => hclosed) hus, hk'⟩
  · rw [hreads.through_previous hts.opens.ne_nil]
    exact ⟨_, true, hword.append hreads, .ifThen _ q r hcs hts, fun _ => hnot⟩

theorem spells_whileLoop (hitem : ∀ c s d, item.run c = .ok (s, d) → Spells c s d)
    (h : (whileLoop item b).run c = .ok (s, d)) : Spells c s d := by
  obtain ⟨hw, e, m, he, t, n, ht, rfl, rfl⟩ := run_whileLoop_eq_ok.1 h
  obtain ⟨q, r, cs, hcondition, hcs⟩ := spelled_parenthesized (sound_expression b) he
  obtain ⟨ts, k, hreads, hts, hk⟩ := hitem _ _ _ ht
  have hword := (reads_advance hw Token.noConfusion).append hcondition
  rw [hreads.through_previous hts.opens.ne_nil]
  exact ⟨_, k, hword.append hreads, .whileLoop _ q r hcs hts, hk⟩

theorem spells_forLoop (hitem : ∀ c s d, item.run c = .ok (s, d) → Spells c s d)
    (h : (forLoop item b).run c = .ok (s, d)) : Spells c s d := by
  obtain ⟨hf, hl, i, m, hi, hm, _, e, n, he, hn, u, l, hu, hr, t, d, ht, rfl, rfl⟩ :=
    run_forLoop_eq_ok.1 h
  obtain ⟨is, hinit, his⟩ := spelled_simpleUnless hi
  obtain ⟨cs, hcondition, hcs⟩ := sound_expression b _ _ _ he
  obtain ⟨us, hstep, hus⟩ := spelled_simpleUnless hu
  obtain ⟨ts, k, hreads, hts, hk⟩ := hitem _ _ _ ht
  have hword := (reads_advance hf Token.noConfusion).append (reads_advance hl Token.noConfusion)
  have hfirst := (reads_advance hm Token.noConfusion).append hcondition
  have hsecond := (reads_advance hn Token.noConfusion).append hstep
  have hright := (reads_advance hr Token.noConfusion).append hreads
  rw [hreads.through_previous hts.opens.ne_nil]
  exact ⟨_, k, (((hword.append hinit).append hfirst).append hsecond).append hright,
    .forLoop _ _ _ _ _ his hcs hus hts, hk⟩

theorem spells_statement (b : Nat) : ∀ c s d, (statement b).run c = .ok (s, d) → Spells c s d := by
  induction b with
  | zero => exact fun c s d h => absurd h run_unexpected_ne_ok
  | succ b ih =>
    intro c s d h
    rw [run_statement_succ] at h
    unfold statementAt at h
    split at h
    · exact spells_block ih h
    · exact spells_conditional ih h
    · exact spells_whileLoop ih h
    · exact spells_forLoop ih h
    · exact spells_printStatement h
    · exact spells_declaration h
    · exact spells_simpleStatement h

end Statements

end TeachLang.Parser
