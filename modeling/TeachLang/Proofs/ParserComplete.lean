import TeachLang.Proofs.Success

/-!
# What spells an answer is read

Where a list spells an expression or a statement, a parser in front of it succeeds and stops behind
it, unless the token there would continue it. The bounds need only be as great as the list is long.
-/

namespace TeachLang

open Cursor

namespace Parser

variable {c d : Cursor} {e : Expr} {s : Stmt} {b k n : Nat} {ts : List Located}

/-- What is left to do behind an expression of a level, in order to read one of that level. -/
def resume (b k : Nat) (start : Span) (left : Expr) (rest : Nat) : Nat → Parser Expr
  | 0 => pure left
  | n + 1 => chain (upTo b (expression k) n) (n + 1) start rest left

theorem run_resume (h : c.token.operator? n = none) {start : Span} {rest : Nat} :
    (resume b k start e rest n).run c = .ok (e, c) := by
  cases n with
  | zero => rfl
  | succ n =>
    rw [resume]
    cases rest with
    | zero => exact run_chain_zero_eq_ok.2 ⟨rfl, rfl⟩
    | succ rest => exact run_chain_succ_eq_ok.2 (.inl ⟨h, rfl, rfl⟩)

/-- The parser has read the expression and goes on with what is left to do for the level, with a
bound that has been lowered by less than the number of tokens read. -/
def Reaches (b k n : Nat) (ts : List Located) (e : Expr) (c m : Cursor) : Prop :=
  ∃ rest, b + 1 ≤ rest + ts.length ∧ ∀ a d, (resume b k c.span e rest n).run m = .ok (a, d) →
    (upTo b (expression k) n).run c = .ok (a, d)

theorem Reaches.run (h : Reaches b k n ts e c d) (hd : d.token.operator? n = none) :
    (upTo b (expression k) n).run c = .ok (e, d) := by
  obtain ⟨rest, _, hrun⟩ := h
  exact hrun e d (run_resume hd)

theorem reaches_of_run (hne : ts ≠ []) (h : (upTo b (expression k) 0).run c = .ok (e, d)) :
    Reaches b k 0 ts e c d := by
  refine ⟨b, Nat.add_le_add_left (List.length_pos_iff.2 hne) b, fun a m hm => ?_⟩
  obtain ⟨rfl, rfl⟩ := run_pure_eq_ok.1 hm
  exact h

theorem run_upTo_zero (hb : 0 < b) (hc : c.token.unary? = none)
    (h : (primary (expression k)).run c = .ok (e, d)) :
    (upTo b (expression k) 0).run c = .ok (e, d) := by
  obtain ⟨b, rfl⟩ := Nat.exists_eq_succ_of_ne_zero (Nat.ne_of_gt hb)
  exact run_unary_succ_eq_ok.2 (.inl ⟨hc, h⟩)

theorem reaches_spelled (h : e.Spelled n ts) : ∀ {b k : Nat} {c d : Cursor}, c.Reads ts d →
    ts.length ≤ b → ts.length ≤ k + 1 → (∀ l < n, d.token.operator? l = none) →
    Reaches b k n ts e c d := by
  induction h with
  | number p v =>
    intro b k c d hreads hb _ _
    obtain ⟨htoken, rfl, hrest⟩ := hreads.cons
    refine reaches_of_run (List.cons_ne_nil _ _) (run_upTo_zero hb (by rw [htoken]; rfl) ?_)
    exact run_primary_eq_ok.2 (.inl ⟨v, htoken, rfl, hrest.eq_of_nil.symm⟩)
  | name p x =>
    intro b k c d hreads hb _ _
    obtain ⟨htoken, rfl, hrest⟩ := hreads.cons
    refine reaches_of_run (List.cons_ne_nil _ _) (run_upTo_zero hb (by rw [htoken]; rfl) ?_)
    exact run_primary_eq_ok.2 (.inr (.inl ⟨x, htoken, rfl, hrest.eq_of_nil.symm⟩))
  | @parens ts e p q h ih =>
    intro b k c d hreads hb hk _
    obtain ⟨hl, _, hreads⟩ := hreads.cons
    obtain ⟨m, hts, hreads⟩ := reads_append_iff.1 hreads
    obtain ⟨hr, _, hreads⟩ := hreads.cons
    simp only [List.length_append, List.length_cons, List.length_nil] at hb hk
    obtain ⟨k, rfl⟩ : ∃ k', k = k' + 1 := ⟨k - 1, by omega⟩
    have hnone : ∀ l, m.token.operator? l = none := by
      intro l
      rw [hr]
      rfl
    have hinner := (ih hts (b := k + 1) (k := k) (by omega) (by omega) fun l _ => hnone l).run
      (hnone 7)
    refine reaches_of_run (by simp) (run_upTo_zero (by omega) (by rw [hl]; rfl) ?_)
    exact run_primary_eq_ok.2 (.inr (.inr (run_parenthesized_eq_ok.2
      ⟨hl, m, hinner, hr, hreads.eq_of_nil.symm⟩)))
  | @unary ts e t op p ht h ih =>
    intro b k c d hreads hb hk hnone
    obtain ⟨htoken, rfl, hrest⟩ := hreads.cons
    simp only [List.length_cons] at hb hk
    obtain ⟨b, rfl⟩ : ∃ b', b = b' + 1 := ⟨b - 1, by omega⟩
    have hop := Token.unary?_eq_some_iff.2 ht
    have hinner := (ih hrest (b := b) (k := k) (by omega) (by omega) hnone).run
      (Token.operator?_zero _)
    refine reaches_of_run (List.cons_ne_nil _ _) (run_unary_succ_eq_ok.2
      (.inr ⟨op, e, ?_, hinner, ?_⟩))
    · rw [htoken, hop]
    · rw [hrest.through_previous h.opens.ne_nil]
  | @operand n ts e h ih =>
    intro b k c d hreads hb hk hnone
    have hlow := ih hreads hb hk fun l hl => hnone l (Nat.lt_succ_of_lt hl)
    refine ⟨b, Nat.add_le_add_left (List.length_pos_iff.2 h.opens.ne_nil) b, fun a m hm => ?_⟩
    exact run_upTo_succ_eq_ok.2 ⟨e, d, hlow.run (hnone n (Nat.lt_succ_self n)), hm⟩
  | @binary n ts us left right t op p hleft ht hright ihl ihr =>
    intro b k c d hreads hb hk hnone
    obtain ⟨m, hts, hrest⟩ := reads_append_iff.1 hreads
    obtain ⟨htoken, _, hus⟩ := hrest.cons
    simp only [List.length_append, List.length_cons] at hb hk
    have hop := Token.operator?_eq_some_iff.2 ht
    have hlow : ∀ l < n + 1, m.token.operator? l = none := by
      intro l hl
      rw [htoken]
      exact Token.operator?_eq_none ht (Nat.ne_of_lt hl)
    obtain ⟨rest, hle, hrun⟩ := ihl hts (b := b) (k := k) (by omega) (by omega) hlow
    obtain ⟨rest, rfl⟩ : ∃ r, rest = r + 1 := ⟨rest - 1, by omega⟩
    have hoperand := (ihr hus (b := b) (k := k) (by omega) (by omega)
      fun l hl => hnone l (Nat.lt_succ_of_lt hl)).run (hnone n (Nat.lt_succ_self n))
    refine ⟨rest, ?_, fun a x hx => hrun a x ?_⟩
    · simp only [List.length_append, List.length_cons]
      omega
    · refine run_chain_succ_eq_ok.2 (.inr ⟨op, right, d, ?_, hoperand, ?_⟩)
      · rw [htoken, hop]
      · rw [hus.through_previous hright.opens.ne_nil, hts.through_span hleft.opens.ne_nil]
        exact hx

def Stops (t : Token) : Prop := (∀ l, t.operator? l = none) ∧ t ≠ .assign

theorem stops_semicolon : Stops .semicolon := ⟨fun _ => rfl, Token.noConfusion⟩

theorem stops_rightParen : Stops .rightParen := ⟨fun _ => rfl, Token.noConfusion⟩

theorem run_expression (h : e.Spelled 7 ts) (hreads : c.Reads ts d) (hb : ts.length ≤ b)
    (hd : Stops d.token) : (expression b).run c = .ok (e, d) := by
  have hpos := List.length_pos_iff.2 h.opens.ne_nil
  obtain ⟨b, rfl⟩ : ∃ b', b = b' + 1 := ⟨b - 1, by omega⟩
  exact (reaches_spelled h hreads hb hb fun l _ => hd.1 l).run (hd.1 7)

theorem run_parenthesized {p q : Span} (h : e.Spelled 7 ts)
    (hreads : c.Reads (⟨.leftParen, p⟩ :: ts ++ [⟨.rightParen, q⟩]) d) (hb : ts.length ≤ b) :
    (parenthesized (expression b)).run c = .ok (e, d) := by
  obtain ⟨hl, _, hreads⟩ := hreads.cons
  obtain ⟨m, hts, hreads⟩ := reads_append_iff.1 hreads
  obtain ⟨hr, _, hreads⟩ := hreads.cons
  exact run_parenthesized_eq_ok.2
    ⟨hl, m, run_expression h hts hb (hr ▸ stops_rightParen), hr, hreads.eq_of_nil.symm⟩

theorem not_atAssignment (h : e.Spelled 7 ts) (hreads : c.Reads ts d) (hd : Stops d.token) :
    ¬ atAssignment c = true := by
  rw [atAssignment_iff]
  rintro ⟨x, _, hassign⟩
  obtain ⟨l, us, rfl, _⟩ := h.opens
  obtain ⟨_, _, hus⟩ := hreads.cons
  cases us with
  | nil => exact hd.2 (hus.eq_of_nil ▸ hassign)
  | cons l' us =>
    have hne := (h.token_ne l' (List.mem_cons_of_mem l List.mem_cons_self)).1
    exact hne (hus.cons.1 ▸ hassign)

theorem run_simple {s : Simple} (h : s.Spelled ts) (hreads : c.Reads ts d) (hb : ts.length ≤ b)
    (hd : Stops d.token) : (simple b).run c = .ok (s, d) := by
  rw [run_simple_eq_ok]
  cases h with
  | input p q r x =>
    obtain ⟨hname, hp, hreads⟩ := hreads.cons
    obtain ⟨hassign, _, hreads⟩ := hreads.cons
    obtain ⟨hquestion, hr, hreads⟩ := hreads.cons
    cases hreads.eq_of_nil
    subst hp hr
    exact .inl ⟨atAssignment_iff.2 ⟨x, hname, hassign⟩, x, hname, hassign,
      .inl ⟨hquestion, rfl, rfl⟩⟩
  | @assign ts e p q x h =>
    obtain ⟨hname, hp, hrest⟩ := hreads.cons
    obtain ⟨hassign, _, hvalue⟩ := hrest.cons
    have hopens := hvalue.opens h.opens
    have hne : c.advance.advance.token ≠ .question := by
      intro hquestion
      rw [hquestion] at hopens
      cases hopens
    simp only [List.length_cons] at hb
    have hrun := run_expression h (b := b) hvalue (by omega) hd
    subst hp
    refine .inl ⟨atAssignment_iff.2 ⟨x, hname, hassign⟩, x, hname, hassign,
      .inr ⟨hne, e, d, hrun, ?_, rfl⟩⟩
    rw [hvalue.through_previous h.opens.ne_nil]
    rfl
  | @expr ts e h =>
    exact .inr ⟨not_atAssignment h hreads hd, e, d, run_expression h hreads hb hd, rfl, rfl⟩

theorem run_simpleUnless {o : Option Simple} (h : Simple.OptionSpelled ts o)
    (hreads : c.Reads ts d) (hb : ts.length ≤ b) (hd : Stops d.token)
    (hclose : d.token.opensExpression = false) :
    (simpleUnless d.token b).run c = .ok (o, d) := by
  rw [run_simpleUnless_eq_ok]
  cases h with
  | none =>
    cases hreads.eq_of_nil
    exact .inl ⟨rfl, rfl, rfl⟩
  | @some ts s h =>
    have hopens := hreads.opens h.opens
    have hne : c.token ≠ d.token := by
      intro he
      rw [he, hclose] at hopens
      cases hopens
    exact .inr ⟨hne, s, d, run_simple h hreads hb hd, rfl, rfl⟩

theorem statementAt_of_opens {t : Token} (h : t.opensExpression = true) :
    statementAt b t = simpleStatement (b + 1) := by
  cases t <;> first | rfl | cases h

theorem token_ne_else {ss : List Stmt} (h : Stmt.AllSpelled true ts ss) (hreads : c.Reads ts d)
    (hd : d.token ≠ .elseWord) : c.token ≠ .elseWord := by
  cases h with
  | nil => rwa [hreads.eq_of_nil]
  | cons hs _ =>
    have hopens := hreads.opens (hs.opens.append _)
    intro he
    rw [he] at hopens
    cases hopens

mutual

theorem run_statement {k : Bool} {ts : List Located} {s : Stmt} :
    s.Spelled true k ts → ∀ {b : Nat} {c d : Cursor}, c.Reads ts d → ts.length ≤ b →
      (k = true → d.token ≠ .elseWord) → (statement b).run c = .ok (s, d)
  | .block p q h, b, c, d, hreads, hb, _ => by
    simp only [List.length_append, List.length_cons, List.length_nil] at hb
    obtain ⟨b, rfl⟩ : ∃ b', b = b' + 1 := ⟨b - 1, by omega⟩
    obtain ⟨hl, hp, hreads⟩ := hreads.cons
    obtain ⟨m, hts, hreads⟩ := reads_append_iff.1 hreads
    obtain ⟨hr, hq, hreads⟩ := hreads.cons
    cases hreads.eq_of_nil
    subst hp hq
    have hmany : (many (statement b) [.rightBrace, .endOfInput] b).run c.advance = .ok (_, m) :=
      run_many h hts (by omega) (by omega) (by simp [hr]) (by decide)
    rw [run_statement_succ, hl]
    exact run_block_eq_ok.2 ⟨hl, _, m, hmany, hr, rfl, rfl⟩
  | .ifThen p q r hc hs, b, c, d, hreads, hb, hd => by
    simp only [List.length_append, List.length_cons, List.length_nil] at hb
    obtain ⟨b, rfl⟩ : ∃ b', b = b' + 1 := ⟨b - 1, by omega⟩
    obtain ⟨m, hreads, hts⟩ := reads_append_iff.1 hreads
    obtain ⟨hi, hp, hcs⟩ := hreads.cons
    subst hp
    have hcondition := run_parenthesized hc (b := b) hcs (by omega)
    have hthen := run_statement hs (b := b) hts (by omega) fun _ => hd rfl
    rw [run_statement_succ, hi, ← hts.through_previous hs.opens.ne_nil]
    exact run_conditional_eq_ok.2 ⟨hi, _, m, hcondition, _, d, hthen, .inr ⟨hd rfl, rfl, rfl⟩⟩
  | .ifElse p q r e hc hs hk hs', b, c, d, hreads, hb, hd => by
    simp only [List.length_append, List.length_cons, List.length_nil] at hb
    obtain ⟨b, rfl⟩ : ∃ b', b = b' + 1 := ⟨b - 1, by omega⟩
    obtain ⟨n, hreads, hus⟩ := reads_append_iff.1 hreads
    obtain ⟨helse, _, hus⟩ := hus.cons
    obtain ⟨m, hreads, hts⟩ := reads_append_iff.1 hreads
    obtain ⟨hi, hp, hcs⟩ := hreads.cons
    subst hp
    have hcondition := run_parenthesized hc (b := b) hcs (by omega)
    have hthen := run_statement hs (b := b) hts (by omega) fun hopen =>
      Bool.noConfusion (hopen.symm.trans (hk rfl))
    have helse' := run_statement hs' (b := b) hus (by omega) hd
    rw [run_statement_succ, hi, ← hus.through_previous hs'.opens.ne_nil]
    exact run_conditional_eq_ok.2 ⟨hi, _, m, hcondition, _, n, hthen,
      .inl ⟨helse, _, d, helse', rfl, rfl⟩⟩
  | .whileLoop p q r hc hs, b, c, d, hreads, hb, hd => by
    simp only [List.length_append, List.length_cons, List.length_nil] at hb
    obtain ⟨b, rfl⟩ : ∃ b', b = b' + 1 := ⟨b - 1, by omega⟩
    obtain ⟨m, hreads, hts⟩ := reads_append_iff.1 hreads
    obtain ⟨hw, hp, hcs⟩ := hreads.cons
    subst hp
    have hcondition := run_parenthesized hc (b := b) hcs (by omega)
    have hbody := run_statement hs (b := b) hts (by omega) hd
    rw [run_statement_succ, hw, ← hts.through_previous hs.opens.ne_nil]
    exact run_whileLoop_eq_ok.2 ⟨hw, _, m, hcondition, _, d, hbody, rfl, rfl⟩
  | .forLoop p q r r' q' hi hc hu hs, b, c, d, hreads, hb, hd => by
    simp only [List.length_append, List.length_cons] at hb
    obtain ⟨b, rfl⟩ : ∃ b', b = b' + 1 := ⟨b - 1, by omega⟩
    obtain ⟨k, hreads, hts⟩ := reads_append_iff.1 hreads
    obtain ⟨n, hreads, hus⟩ := reads_append_iff.1 hreads
    obtain ⟨m, hreads, hcs⟩ := reads_append_iff.1 hreads
    obtain ⟨hf, hp, hreads⟩ := hreads.cons
    obtain ⟨hl, _, his⟩ := hreads.cons
    obtain ⟨hm, _, hcs⟩ := hcs.cons
    obtain ⟨hn, _, hus⟩ := hus.cons
    obtain ⟨hr, _, hts⟩ := hts.cons
    subst hp
    have hinit := run_simpleUnless hi (b := b) his (by omega) (hm ▸ stops_semicolon)
      (by rw [hm]; rfl)
    have hcondition := run_expression hc (b := b) hcs (by omega) (hn ▸ stops_semicolon)
    have hstep := run_simpleUnless hu (b := b) hus (by omega) (hr ▸ stops_rightParen)
      (by rw [hr]; rfl)
    have hbody := run_statement hs (b := b) hts (by omega) hd
    have hopens := hcs.opens hc.opens
    have hne : m.advance.token ≠ .semicolon := by
      intro hsemicolon
      rw [hsemicolon] at hopens
      cases hopens
    rw [run_statement_succ, hf, ← hts.through_previous hs.opens.ne_nil]
    rw [hm] at hinit
    rw [hr] at hstep
    exact run_forLoop_eq_ok.2 ⟨hf, hl, _, m, hinit, hm, hne, _, n, hcondition, hn, _, k, hstep, hr,
      _, d, hbody, rfl, rfl⟩
  | .print p q h, b, c, d, hreads, hb, _ => by
    simp only [List.length_append, List.length_cons, List.length_nil] at hb
    obtain ⟨b, rfl⟩ : ∃ b', b = b' + 1 := ⟨b - 1, by omega⟩
    obtain ⟨hw, hp, hreads⟩ := hreads.cons
    obtain ⟨m, hts, hreads⟩ := reads_append_iff.1 hreads
    obtain ⟨hm, hq, hreads⟩ := hreads.cons
    cases hreads.eq_of_nil
    subst hp hq
    have hvalue := run_expression h (b := b) hts (by omega) (hm ▸ stops_semicolon)
    rw [run_statement_succ, hw]
    exact run_printStatement_eq_ok.2 ⟨hw, _, m, hvalue, hm, rfl, rfl⟩
  | .declare p q r x, b, c, d, hreads, hb, _ => by
    obtain ⟨b, rfl⟩ : ∃ b', b = b' + 1 := ⟨b - 1, by simp at hb; omega⟩
    obtain ⟨hv, hp, hreads⟩ := hreads.cons
    obtain ⟨hx, _, hreads⟩ := hreads.cons
    obtain ⟨hm, hr, hreads⟩ := hreads.cons
    cases hreads.eq_of_nil
    subst hp hr
    rw [run_statement_succ, hv]
    exact run_declaration_eq_ok.2
      ⟨hv, x, hx, .inr ⟨by rw [hm]; exact Token.noConfusion, hm, rfl, rfl⟩⟩
  | .declareAs p q q' r x h, b, c, d, hreads, hb, _ => by
    simp only [List.length_append, List.length_cons, List.length_nil] at hb
    obtain ⟨b, rfl⟩ : ∃ b', b = b' + 1 := ⟨b - 1, by omega⟩
    obtain ⟨hv, hp, hreads⟩ := hreads.cons
    obtain ⟨hx, _, hreads⟩ := hreads.cons
    obtain ⟨ha, _, hreads⟩ := hreads.cons
    obtain ⟨m, hts, hreads⟩ := reads_append_iff.1 hreads
    obtain ⟨hm, hr, hreads⟩ := hreads.cons
    cases hreads.eq_of_nil
    subst hp hr
    have hvalue := run_expression h (b := b) hts (by omega) (hm ▸ stops_semicolon)
    rw [run_statement_succ, hv]
    exact run_declaration_eq_ok.2
      ⟨hv, x, hx, .inl ⟨ha, _, m, ⟨_, hvalue, rfl⟩, hm, rfl, rfl⟩⟩
  | .simple q h, b, c, d, hreads, hb, _ => by
    simp only [List.length_append, List.length_cons, List.length_nil] at hb
    obtain ⟨b, rfl⟩ : ∃ b', b = b' + 1 := ⟨b - 1, by omega⟩
    obtain ⟨m, hts, hreads⟩ := reads_append_iff.1 hreads
    obtain ⟨hm, hq, hreads⟩ := hreads.cons
    cases hreads.eq_of_nil
    subst hq
    have hsimple := run_simple h (b := b + 1) hts (by omega) (hm ▸ stops_semicolon)
    rw [run_statement_succ, statementAt_of_opens (hts.opens h.opens),
      ← hts.through_span h.opens.ne_nil]
    exact run_simpleStatement_eq_ok.2 ⟨_, m, hsimple, hm, rfl, rfl⟩

theorem run_many {ts : List Located} {ss : List Stmt} :
    Stmt.AllSpelled true ts ss → ∀ {b fuel : Nat} {c d : Cursor} {stop : List Token},
      c.Reads ts d → ts.length ≤ b → ts.length ≤ fuel → d.token ∈ stop →
      (∀ t ∈ stop, t.opensStatement = false ∧ t ≠ .elseWord) →
      (many (statement b) stop fuel).run c = .ok (ss, d)
  | .nil, b, fuel, c, d, stop, hreads, _, _, hd, _ => by
    cases hreads.eq_of_nil
    cases fuel with
    | zero => exact run_pure_eq_ok.2 ⟨rfl, rfl⟩
    | succ fuel => exact run_many_succ_eq_ok.2 (.inl ⟨hd, rfl, rfl⟩)
  | @Stmt.AllSpelled.cons _ ts us k s ss hs hss, b, fuel, c, d, stop, hreads, hb, hfuel, hd,
      hstop => by
    obtain ⟨m, hts, hus⟩ := reads_append_iff.1 hreads
    have hpos := List.length_pos_iff.2 hs.opens.ne_nil
    rw [List.length_append] at hb hfuel
    obtain ⟨fuel, rfl⟩ : ∃ f, fuel = f + 1 := ⟨fuel - 1, by omega⟩
    have hnot : c.token ∉ stop := by
      intro hmem
      have hopens := hts.opens hs.opens
      rw [(hstop _ hmem).1] at hopens
      cases hopens
    have hrun := run_statement hs (b := b) hts (by omega) fun _ =>
      token_ne_else hss hus (hstop _ hd).2
    exact run_many_succ_eq_ok.2 (.inr ⟨hnot, s, m, hrun, ss, d,
      run_many hss hus (by omega) (by omega) hd hstop, rfl, rfl⟩)

end

end Parser

end TeachLang
