import TeachLang.Proofs.Parsing
import TeachLang.Proofs.Verdict

/-!
# Errors at the first token that cannot be right

Verdicts on all the parsers. Where a program cannot be parsed, the error lies at the first token
that continues no program, or at the end if the tokens run out, and what it names as missing can
stand there.
-/

namespace TeachLang

def Expr.Spelling (n : Nat) (ts : List Located) : Prop := ∃ e : Expr, e.Spelled n ts

theorem Expr.Spelling.operand {n : Nat} {ts : List Located} (h : Spelling n ts) :
    Spelling (n + 1) ts := by
  obtain ⟨e, he⟩ := h
  exact ⟨e, he.operand⟩

theorem Expr.Spelling.level {ts : List Located} (h : Spelling 0 ts) (n : Nat) : Spelling n ts := by
  induction n with
  | zero => exact h
  | succ n ih => exact ih.operand

theorem Expr.Spelling.parens {ts : List Located} (h : Spelling 7 ts) (p q : Span) :
    Spelling 0 (⟨.leftParen, p⟩ :: ts ++ [⟨.rightParen, q⟩]) := by
  obtain ⟨e, he⟩ := h
  exact ⟨e, .parens p q he⟩

theorem Expr.spelling_number (v : Int64) (p : Span) : Spelling 0 [⟨.number v, p⟩] :=
  ⟨_, .number p v⟩

theorem Expr.Spelling.ne_nil {n : Nat} {ts : List Located} (h : Spelling n ts) : ts ≠ [] := by
  obtain ⟨e, he⟩ := h
  exact he.opens.ne_nil

/-- Whatever opens an expression can be completed. -/
theorem Expr.exists_spelling {l : Located} (h : l.token.opensExpression = true) (n : Nat) :
    ∃ us, Spelling n (l :: us) := by
  obtain ⟨t, p⟩ := l
  have hnumber := spelling_number 0 p
  have hunary : ∀ {op : UnaryOperator}, (t, op) ∈ unaryOperators →
      ∃ us, Spelling n (⟨t, p⟩ :: us) :=
    fun ht => ⟨_, Spelling.level ⟨_, .unary p ht hnumber.choose_spec⟩ n⟩
  cases t <;> try cases h
  case ident x => exact ⟨[], Spelling.level ⟨_, .name p x⟩ n⟩
  case number v => exact ⟨[], (spelling_number v p).level n⟩
  case plus => exact hunary (by simp [unaryOperators]; rfl)
  case minus => exact hunary (by simp [unaryOperators]; rfl)
  case not => exact hunary (by simp [unaryOperators]; rfl)
  case leftParen => exact ⟨_, ((hnumber.level 7).parens p p).level n⟩

def Simple.Spelling (ts : List Located) : Prop := ∃ s : Simple, s.Spelled ts

def Expr.ParenSpelling (ts : List Located) : Prop :=
  ∃ p q us, ts = ⟨.leftParen, p⟩ :: us ++ [⟨.rightParen, q⟩] ∧ Spelling 7 us

namespace Stmt

def Spelling (ts : List Located) : Prop := ∃ d s, Stmt.Spelled false d ts s

def Spellings (ts : List Located) : Prop := ∃ ss, Stmt.AllSpelled false ts ss

variable {cs ts us : List Located}

theorem Spelling.ne_nil (h : Spelling ts) : ts ≠ [] := by
  obtain ⟨d, s, hs⟩ := h
  exact hs.opens.ne_nil

theorem spellings_nil : Spellings [] := ⟨[], .nil⟩

theorem Spellings.snoc (h : Spellings ts) (h' : Spelling us) : Spellings (ts ++ us) := by
  obtain ⟨ss, hss⟩ := h
  obtain ⟨d, s, hs⟩ := h'
  have hus : AllSpelled false (us ++ []) [s] := .cons hs .nil
  rw [List.append_nil] at hus
  exact ⟨_, hss.append hus⟩

theorem Spellings.block (h : Spellings ts) (p q : Span) :
    Spelling (⟨.leftBrace, p⟩ :: ts ++ [⟨.rightBrace, q⟩]) := by
  obtain ⟨ss, hss⟩ := h
  exact ⟨_, _, .block p q hss⟩

theorem Spelling.ifThen (hc : Expr.ParenSpelling cs) (h : Spelling ts) (p : Span) :
    Spelling (⟨.ifWord, p⟩ :: cs ++ ts) := by
  obtain ⟨q, r, us, rfl, e, he⟩ := hc
  obtain ⟨d, s, hs⟩ := h
  exact ⟨_, _, .ifThen p q r he hs⟩

theorem Spelling.ifElse (hc : Expr.ParenSpelling cs) (h : Spelling ts) (h' : Spelling us)
    (p e : Span) : Spelling (⟨.ifWord, p⟩ :: cs ++ ts ++ ⟨.elseWord, e⟩ :: us) := by
  obtain ⟨q, r, vs, rfl, c, hc⟩ := hc
  obtain ⟨d, s, hs⟩ := h
  obtain ⟨d', s', hs'⟩ := h'
  exact ⟨_, _, .ifElse p q r e hc hs (absurd · Bool.false_ne_true) hs'⟩

theorem Spelling.whileLoop (hc : Expr.ParenSpelling cs) (h : Spelling ts) (p : Span) :
    Spelling (⟨.whileWord, p⟩ :: cs ++ ts) := by
  obtain ⟨q, r, us, rfl, e, he⟩ := hc
  obtain ⟨d, s, hs⟩ := h
  exact ⟨_, _, .whileLoop p q r he hs⟩

theorem Spelling.forLoop {is : List Located} (hi : ∃ i, Simple.OptionSpelled is i)
    (hc : Expr.Spelling 7 cs) (hu : ∃ u, Simple.OptionSpelled us u) (h : Spelling ts)
    (p q r r' q' : Span) :
    Spelling (⟨.forWord, p⟩ :: ⟨.leftParen, q⟩ :: is ++ ⟨.semicolon, r⟩ :: cs ++
      ⟨.semicolon, r'⟩ :: us ++ ⟨.rightParen, q'⟩ :: ts) := by
  obtain ⟨i, hi⟩ := hi
  obtain ⟨e, he⟩ := hc
  obtain ⟨u, hu⟩ := hu
  obtain ⟨d, s, hs⟩ := h
  exact ⟨_, _, .forLoop p q r r' q' hi he hu hs⟩

theorem spelling_print (h : Expr.Spelling 7 ts) (p q : Span) :
    Spelling (⟨.printWord, p⟩ :: ts ++ [⟨.semicolon, q⟩]) := by
  obtain ⟨e, he⟩ := h
  exact ⟨_, _, .print p q he⟩

theorem spelling_declareAs (h : Expr.Spelling 7 ts) (p q q' r : Span) (x : String) :
    Spelling (⟨.varWord, p⟩ :: ⟨.ident x, q⟩ :: ⟨.assign, q'⟩ :: ts ++ [⟨.semicolon, r⟩]) := by
  obtain ⟨e, he⟩ := h
  exact ⟨_, _, .declareAs p q q' r x he⟩

theorem spelling_simple (h : Simple.Spelling ts) (q : Span) :
    Spelling (ts ++ [⟨.semicolon, q⟩]) := by
  obtain ⟨s, hs⟩ := h
  exact ⟨_, _, .simple q hs⟩

end Stmt

namespace Parser

open Cursor

variable {c : Cursor} {N n : Nat}

section Expressions

variable (hexpr : ∀ c, c.rest.length < N → Verdict id expression (Expr.Spelling 7) [] c)
include hexpr

theorem verdict_parenthesized (hc : c.rest.length ≤ N) :
    Verdict (fun b => b + 1) (fun b => parenthesized (expression b)) Expr.ParenSpelling [] c := by
  have hnumber := (Expr.spelling_number 0 c.span).level 7
  refine verdict_expect .leftParen Token.noConfusion
    (fun p => ⟨_, p, c.span, _, rfl, hnumber⟩) fun hl => ?_
  have hlt := length_advance_lt (c := c) (hl ▸ Token.noConfusion)
  refine verdict_part ((hexpr c.advance (by omega)).cover fun b => ⟨b, by simp, fun _ _ => rfl⟩)
    (fun vs hvs => ⟨[⟨.rightParen, c.span⟩], c.span, c.span, vs, by simp, hvs⟩) fun ts d _ hts => ?_
  refine verdict_expect .rightParen Token.noConfusion
    (fun p => ⟨[], c.span, p, ts, by simp, hts⟩) fun _ => ?_
  exact verdict_done ⟨c.span, d.span, ts, by simp, hts⟩ fun _ _ => ⟨_, rfl⟩

theorem verdict_primary (hc : c.rest.length ≤ N) :
    Verdict (fun b => b + 1) (fun b => primary (expression b)) (Expr.Spelling 0) [] c := by
  refine verdict_here (verdict_token ?_)
  cases ht : c.token
  case number v =>
    exact verdict_read ht Token.noConfusion (fun _ _ _ => rfl)
      (verdict_spanFrom (verdict_done (Expr.spelling_number v c.span) fun _ _ => ⟨_, rfl⟩))
  case ident x =>
    exact verdict_read ht Token.noConfusion (fun _ _ _ => rfl)
      (verdict_spanFrom (verdict_done ⟨_, .name c.span x⟩ fun _ _ => ⟨_, rfl⟩))
  case leftParen =>
    refine ((verdict_parenthesized hexpr hc).cover
      fun j : Nat × Span => ⟨j.1, Nat.le_refl _, fun _ _ => rfl⟩).mono ?_
    rintro ts ⟨p, q, us, rfl, hus⟩
    exact hus.parens p q
  all_goals exact verdict_unexpected fun l hl => Expr.exists_spelling hl 0

theorem verdict_unary (hc : c.rest.length ≤ N) :
    Verdict (fun j : Nat × Nat => min (j.1 + 1) j.2) (fun j => unary (expression j.1) j.2)
      (Expr.Spelling 0) [] c := by
  induction hlen : c.rest.length using Nat.strongRecOn generalizing c with
  | _ k ih =>
    have hsucc : Verdict (fun j : Nat × Nat => min (j.1 + 1) (j.2 + 1))
        (fun j => unary (expression j.1) (j.2 + 1)) (Expr.Spelling 0) [] c := by
      refine verdict_here (verdict_token ?_)
      cases hop : c.token.unary? with
      | none =>
        exact (verdict_primary hexpr hc).cover
          fun j : (Nat × Nat) × Span => ⟨j.1.1, by omega, fun _ _ => rfl⟩
      | some op =>
        have hmem := Token.unary?_eq_some_iff.1 hop
        have hne : c.token ≠ .endOfInput := by
          intro he
          rw [he] at hop
          cases hop
        have hlt := length_advance_lt hne
        refine verdict_advance hne (verdict_part ((ih _ (hlen ▸ hlt) (by omega) rfl).cover
          fun j : (Nat × Nat) × Span => ⟨j.1, by omega, fun _ _ => rfl⟩) ?_ ?_)
        · rintro vs ⟨e, he⟩
          exact ⟨[], by simpa using ⟨_, .unary c.span hmem he⟩⟩
        · rintro ts d _ ⟨e, he⟩
          exact verdict_spanFrom (verdict_done ⟨_, .unary c.span hmem he⟩ fun _ _ => ⟨_, rfl⟩)
    refine hsucc.cover fun (k, b) => ?_
    cases b with
    | zero =>
      refine ⟨(k, 0), by simp, fun c' hlen' => ?_⟩
      obtain ⟨_ | _, p⟩ := c'
      · rfl
      · cases hlen'
    | succ b => exact ⟨(k, b), Nat.le_refl _, fun _ _ => rfl⟩

omit hexpr in
/-- `pre` is an expression of the level, and the chain looks for operators behind it. -/
theorem verdict_chain
    (hupTo : ∀ c, c.rest.length ≤ N →
      Verdict (fun j : Nat × Nat => min (j.1 + 1) j.2) (fun j => upTo j.2 (expression j.1) n)
        (Expr.Spelling n) [] c)
    {pre : List Located} (hpre : Expr.Spelling (n + 1) pre) (hc : c.rest.length ≤ N) :
    Verdict (fun j : (Nat × Nat) × Span × Nat × Expr => min (min (j.1.1 + 1) j.1.2) j.2.2.1)
      (fun j => chain (upTo j.1.2 (expression j.1.1) n) (n + 1) j.2.1 j.2.2.1 j.2.2.2)
      (Expr.Spelling (n + 1)) pre c := by
  induction hlen : c.rest.length using Nat.strongRecOn generalizing c pre with
  | _ k ih =>
    have hsucc : Verdict
        (fun j : (Nat × Nat) × Span × Nat × Expr => min (min (j.1.1 + 1) j.1.2) (j.2.2.1 + 1))
        (fun j => chain (upTo j.1.2 (expression j.1.1) n) (n + 1) j.2.1 (j.2.2.1 + 1) j.2.2.2)
        (Expr.Spelling (n + 1)) pre c := by
      refine verdict_token ?_
      cases hop : c.token.operator? (n + 1) with
      | none => exact verdict_done hpre fun _ _ => ⟨_, rfl⟩
      | some op =>
        have hmem := Token.operator?_eq_some_iff.1 hop
        have hne := (Token.ne_of_mem_operators hmem).2
        have hlt := length_advance_lt hne
        have hbinary : ∀ ts, Expr.Spelling n ts →
            Expr.Spelling (n + 1) (pre ++ ⟨c.token, c.span⟩ :: ts) := by
          obtain ⟨left, hleft⟩ := hpre
          rintro ts ⟨right, hright⟩
          exact ⟨_, .binary c.span hleft hmem hright⟩
        refine verdict_advance hne (verdict_part ((hupTo c.advance (by omega)).cover
          fun j : (Nat × Nat) × Span × Nat × Expr => ⟨j.1, by omega, fun _ _ => rfl⟩)
          (fun vs hvs => ⟨[], by simpa using hbinary vs hvs⟩) fun ts d hreads hts => ?_)
        have hpos := List.length_pos_iff.2 hts.ne_nil
        have hlength := hreads.length_eq
        have hnext := ih d.rest.length (by omega) (hbinary ts hts) (by omega) rfl
        rw [← List.singleton_append (l := ts), ← List.append_assoc] at hnext
        refine verdict_spanFrom (hnext.cover fun j => ⟨(j.1.1.1, j.1.1.2.1, j.1.1.2.2.1,
          .binary j.2 op j.1.1.2.2.2 j.1.2), ?_, fun _ _ => rfl⟩)
        simp only
        omega
    refine hsucc.cover fun ⟨i, start, b, left⟩ => ?_
    cases b with
    | zero =>
      refine ⟨(i, start, 0, left), by simp, fun c' hlen' => ?_⟩
      obtain ⟨_ | _, p⟩ := c'
      · rfl
      · simp at hlen'
    | succ b => exact ⟨(i, start, b, left), Nat.le_refl _, fun _ _ => rfl⟩

theorem verdict_upTo (n : Nat) : ∀ {c : Cursor}, c.rest.length ≤ N →
    Verdict (fun j : Nat × Nat => min (j.1 + 1) j.2) (fun j => upTo j.2 (expression j.1) n)
      (Expr.Spelling n) [] c := by
  induction n with
  | zero => exact fun hc => verdict_unary hexpr hc
  | succ n ih =>
    intro c hc
    refine verdict_here (verdict_part ((ih hc).cover
      fun j : (Nat × Nat) × Span => ⟨j.1, Nat.le_refl _, fun _ _ => rfl⟩)
      (fun vs hvs => ⟨[], by simpa using hvs.operand⟩) fun ts d hreads hts => ?_)
    have hd := hreads.length_le
    refine (verdict_chain (fun _ => ih) hts.operand (by omega)).cover
      fun j => ⟨(j.1.1, j.1.2, j.1.1.2, j.2), ?_, fun _ _ => rfl⟩
    simp only
    omega

end Expressions

theorem verdict_expression (c : Cursor) : Verdict id expression (Expr.Spelling 7) [] c := by
  induction hlen : c.rest.length using Nat.strongRecOn generalizing c with
  | _ k ih =>
    have hupTo := verdict_upTo (N := c.rest.length) (fun c' hc' => ih _ (hlen ▸ hc') c' rfl) 7
      (Nat.le_refl _)
    refine hupTo.cover fun b => ?_
    cases b with
    | zero =>
      refine ⟨(0, 0), Nat.zero_le _, fun c' hlen' => ?_⟩
      obtain ⟨_ | _, p⟩ := c'
      · rfl
      · cases hlen'
    | succ b => exact ⟨(b, b + 1), by simp, fun _ _ => rfl⟩

theorem atAssignment_congr {c' d d' : Cursor} {ts : List Located} (hne : ts ≠ [])
    (h : c.Reads ts d) (h' : c'.Reads ts d') (hd : d'.token = d.token) :
    atAssignment c' = atAssignment c := by
  obtain ⟨l, us, rfl⟩ := List.exists_cons_of_ne_nil hne
  obtain ⟨ht, _, hus⟩ := h.cons
  obtain ⟨ht', _, hus'⟩ := h'.cons
  rw [Bool.eq_iff_iff, atAssignment_iff, atAssignment_iff, ht, ht', hus.token_congr hus' hd]

theorem verdict_assignment {x : String} (hx : c.token = .ident x)
    (ha : c.advance.token = .assign) : Verdict id simple Simple.Spelling [] c := by
  have hreads := (reads_advance hx Token.noConfusion).append (reads_advance ha Token.noConfusion)
  have hvalue : Verdict (fun j : Nat × Span × Span => j.1 - 2) (fun j => do
      if (← token) = .question then
        advance
        return Simple.input (← spanFrom j.2.1) j.2.2 x
      else
        let value ← expression j.1
        return Simple.assign (← spanFrom j.2.1) j.2.2 x value)
      Simple.Spelling [⟨.ident x, c.span⟩, ⟨.assign, c.advance.span⟩] c.advance.advance := by
    refine verdict_token ?_
    by_cases hq : c.advance.advance.token = .question
    · simp only [if_pos hq]
      exact verdict_read hq Token.noConfusion (fun _ _ _ => rfl)
        (verdict_spanFrom (verdict_done ⟨_, .input _ _ _ x⟩ fun _ _ => ⟨_, rfl⟩))
    · simp only [if_neg hq]
      have hassign : ∀ ts, Expr.Spelling 7 ts →
          Simple.Spelling (⟨.ident x, c.span⟩ :: ⟨.assign, c.advance.span⟩ :: ts) := by
        rintro ts ⟨e, he⟩
        exact ⟨_, .assign _ _ x he⟩
      refine verdict_part ((verdict_expression c.advance.advance).cover
        fun j : Nat × Span × Span => ⟨j.1, Nat.sub_le _ _, fun _ _ => rfl⟩)
        (fun vs hvs => ⟨[], by simpa using hassign vs hvs⟩) fun ts d _ hts => ?_
      exact verdict_spanFrom (verdict_done (hassign ts hts) fun _ _ => ⟨_, rfl⟩)
  refine hvalue.behind hreads fun b c' m' hreads' => ?_
  obtain ⟨hx', _, hreads'⟩ := hreads'.cons
  obtain ⟨ha', _, hreads'⟩ := hreads'.cons
  rw [← hreads'.eq_of_nil]
  refine ⟨(b, c'.span, c'.span.through c'.advance.previous), Nat.le_refl _, ?_⟩
  have hat := atAssignment_iff.2 ⟨x, hx', ha'⟩
  have hident : identifier.run c' = .ok (x, c'.advance) := run_identifier_eq_ok.2 ⟨hx', rfl⟩
  simp only [simple, run_bind, run_get, hat, if_true, run_here, hident, run_spanFrom, run_expect,
    ha']

theorem verdict_simple (c : Cursor) : Verdict id simple Simple.Spelling [] c := by
  by_cases hat : atAssignment c = true
  · obtain ⟨x, hx, ha⟩ := atAssignment_iff.1 hat
    exact verdict_assignment hx ha
  have hexpr : Verdict id (fun b => do return Simple.expr (← expression b))
      Simple.Spelling [] c := by
    refine verdict_part (verdict_expression c) (fun vs ⟨e, he⟩ => ⟨[], ?_⟩) fun ts d _ hts => ?_
    · simpa using ⟨_, .expr he⟩
    · obtain ⟨e, he⟩ := hts
      exact verdict_done ⟨_, .expr he⟩ fun _ _ => ⟨_, rfl⟩
  obtain ⟨ts, d, hreads, h⟩ := hexpr
  -- Where nothing is read, no name comes next, since an expression may begin with a name.
  have hrun : ∀ {b : Nat} {c' d' : Cursor}, c'.Reads ts d' → d'.token = d.token →
      (simple b).run c' = (do return Simple.expr (← expression b) : Parser Simple).run c' := by
    intro b c' d' hreads' hd
    have hnot : atAssignment c' = false := by
      by_cases hne : ts = []
      · subst hne
        by_contra hat'
        obtain ⟨x, hx, _⟩ := atAssignment_iff.1 (Bool.of_not_eq_false hat')
        rw [hreads'.eq_of_nil, hd] at hx
        rcases h with ⟨⟨s, hs⟩, _⟩ | ⟨want, _, hrejects⟩
        · exact hs.opens.ne_nil rfl
        · have hstop := hrejects 1 ⟨[⟨.ident x, {}⟩], {}⟩ _ (Nat.le_refl 1) (.refl _) hx.symm
          cases hstop
      · rw [atAssignment_congr hne hreads hreads' hd]
        exact Bool.eq_false_iff.2 hat
    rw [simple, run_bind, run_get]
    simp only [hnot]
    rfl
  refine ⟨ts, d, hreads, ?_⟩
  rcases h with ⟨hL, hpasses⟩ | ⟨want, hwant, hrejects⟩
  · refine .inl ⟨hL, fun b c' d' hlen hreads' hd => ?_⟩
    rw [hrun hreads' hd]
    exact hpasses b c' d' hlen hreads' hd
  · refine .inr ⟨want, hwant, fun b c' d' hlen hreads' hd => ?_⟩
    rw [hrun hreads' hd]
    exact hrejects b c' d' hlen hreads' hd

theorem verdict_simpleUnless (close : Token) (c : Cursor) :
    Verdict id (simpleUnless close) (fun ts => ∃ o, Simple.OptionSpelled ts o) [] c := by
  refine verdict_token ?_
  by_cases hclose : c.token = close
  · simp only [if_pos hclose]
    exact verdict_done ⟨none, .none⟩ fun _ _ => ⟨_, rfl⟩
  · simp only [if_neg hclose]
    refine verdict_part (verdict_simple c) (fun vs ⟨s, hs⟩ => ⟨[], ?_⟩) fun ts d _ hts => ?_
    · simpa using ⟨_, .some hs⟩
    · obtain ⟨s, hs⟩ := hts
      exact verdict_done ⟨_, .some hs⟩ fun _ _ => ⟨_, rfl⟩

theorem verdict_printStatement (ht : c.token = .printWord) :
    Verdict (fun b => b + 1) printStatement Stmt.Spelling [] c := by
  refine verdict_here (verdict_expected ht Token.noConfusion ?_)
  refine verdict_part ((verdict_expression c.advance).cover
    fun j : Nat × Span => ⟨j.1, by simp, fun _ _ => rfl⟩)
    (fun vs hvs => ⟨[⟨.semicolon, {}⟩], by simpa using Stmt.spelling_print hvs c.span {}⟩)
    fun ts d _ hts => ?_
  have hprint := Stmt.spelling_print hts c.span
  refine verdict_expect .semicolon Token.noConfusion (fun p => ⟨[], by simpa using hprint p⟩)
    fun _ => ?_
  exact verdict_spanFrom (verdict_done (by simpa using hprint d.span) fun _ _ => ⟨_, rfl⟩)

theorem verdict_declaration (ht : c.token = .varWord) :
    Verdict (fun b => b + 1) declaration Stmt.Spelling [] c := by
  refine verdict_here (verdict_expected ht Token.noConfusion ?_)
  have hdeclare : ∀ x q r, Stmt.Spelling [⟨.varWord, c.span⟩, ⟨.ident x, q⟩, ⟨.semicolon, r⟩] :=
    fun x q r => ⟨_, _, .declare c.span q r x⟩
  refine verdict_identifier (fun x q => ⟨[⟨.semicolon, {}⟩], by simpa using hdeclare x q {}⟩)
    fun x hx => verdict_token ?_
  by_cases ha : c.advance.advance.token = .assign
  · simp only [if_pos ha, map_eq_pure_bind, bind_assoc, pure_bind]
    refine verdict_advance (ha ▸ Token.noConfusion) (verdict_part
      ((verdict_expression c.advance.advance.advance).cover
        fun j : Nat × Span => ⟨j.1, by simp; omega, fun _ _ => rfl⟩)
      (fun vs hvs => ⟨[⟨.semicolon, {}⟩], ?_⟩) fun ts d _ hts => ?_)
    · rw [ha]
      simpa using Stmt.spelling_declareAs hvs c.span _ _ {} x
    · have hdeclareAs := Stmt.spelling_declareAs hts c.span c.advance.span c.advance.advance.span
      rw [ha]
      refine verdict_expect .semicolon Token.noConfusion
        (fun p => ⟨[], by simpa using hdeclareAs p x⟩) fun _ => ?_
      exact verdict_spanFrom (verdict_done (by simpa using hdeclareAs d.span x)
        fun _ _ => ⟨_, rfl⟩)
  · simp only [if_neg ha, pure_bind]
    refine verdict_expect .semicolon Token.noConfusion
      (fun p => ⟨[], by simpa using hdeclare x _ p⟩) fun _ => ?_
    exact verdict_spanFrom (verdict_done (by simpa using hdeclare x _ _) fun _ _ => ⟨_, rfl⟩)

theorem verdict_simpleStatement (c : Cursor) :
    Verdict (fun b => b + 1) (fun b => simpleStatement (b + 1)) Stmt.Spelling [] c := by
  refine verdict_here (verdict_part ((verdict_simple c).cover
    fun j : Nat × Span => ⟨j.1 + 1, Nat.le_refl _, fun _ _ => rfl⟩)
    (fun vs hvs => ⟨[⟨.semicolon, {}⟩], by simpa using Stmt.spelling_simple hvs {}⟩)
    fun ts d _ hts => ?_)
  have hsimple := Stmt.spelling_simple hts
  refine verdict_expect .semicolon Token.noConfusion (fun p => ⟨[], by simpa using hsimple p⟩)
    fun _ => ?_
  exact verdict_spanFrom (verdict_done (by simpa using hsimple d.span) fun _ _ => ⟨_, rfl⟩)

theorem run_many_of_mem {α : Type} {item : Parser α} {stop : List Token} {fuel : Nat}
    (h : c.token ∈ stop) : (many item stop fuel).run c = .ok ([], c) := by
  cases fuel with
  | zero => rfl
  | succ fuel =>
    rw [many, run_bind, run_token]
    simp only [if_pos h]
    rfl

section Statements

variable (hstmt : ∀ c, c.rest.length < N → Verdict id statement Stmt.Spelling [] c)
include hstmt

/-- `pre` are the statements read so far. -/
theorem verdict_many (stop : List Token) (hstop : .endOfInput ∈ stop) {pre : List Located}
    (hpre : Stmt.Spellings pre) (hc : c.rest.length < N) :
    Verdict (fun j : Nat × Nat => min j.1 j.2) (fun j => many (statement j.1) stop j.2)
      Stmt.Spellings pre c := by
  induction hlen : c.rest.length using Nat.strongRecOn generalizing c pre with
  | _ k ih =>
    have hsucc : Verdict (fun j : Nat × Nat => min j.1 (j.2 + 1))
        (fun j => many (statement j.1) stop (j.2 + 1)) Stmt.Spellings pre c := by
      refine verdict_token ?_
      by_cases hmem : c.token ∈ stop
      · simp only [if_pos hmem]
        exact verdict_done hpre fun _ _ => ⟨_, rfl⟩
      · simp only [if_neg hmem]
        refine verdict_part ((hstmt c hc).cover
          fun j : Nat × Nat => ⟨j.1, Nat.min_le_left _ _, fun _ _ => rfl⟩)
          (fun vs hvs => ⟨[], by simpa using hpre.snoc hvs⟩) fun ts d hreads hts => ?_
        have hpos := List.length_pos_iff.2 hts.ne_nil
        have hlength := hreads.length_eq
        have hrest := ih d.rest.length (by omega) (hpre.snoc hts) (by omega) rfl
        exact (hrest.cover fun j : (Nat × Nat) × Stmt => ⟨j.1, by omega, fun _ _ => rfl⟩).map _
    refine hsucc.cover fun ⟨b, fuel⟩ => ?_
    cases fuel with
    | zero =>
      refine ⟨(b, 0), by simp, fun c' hlen' => ?_⟩
      obtain ⟨_ | _, p⟩ := c'
      · rw [run_many_of_mem hstop, run_many_of_mem hstop]
      · simp at hlen'
    | succ fuel => exact ⟨(b, fuel), Nat.le_refl _, fun _ _ => rfl⟩

theorem verdict_block (ht : c.token = .leftBrace) (hc : c.rest.length ≤ N) :
    Verdict (fun b => b + 1) (fun b => block (statement b) b) Stmt.Spelling [] c := by
  have hlt := length_advance_lt (c := c) (ht ▸ Token.noConfusion)
  refine verdict_here (verdict_expected ht Token.noConfusion ?_)
  refine verdict_part ((verdict_many hstmt [.rightBrace, .endOfInput] (by simp)
    Stmt.spellings_nil (c := c.advance) (by omega)).cover
      fun j : Nat × Span => ⟨(j.1, j.1), by simp, fun _ _ => rfl⟩)
    (fun vs hvs => ⟨[⟨.rightBrace, {}⟩], by simpa using hvs.block c.span {}⟩) fun ts d _ hts => ?_
  have hblock := hts.block c.span
  refine verdict_expect .rightBrace Token.noConfusion (fun p => ⟨[], by simpa using hblock p⟩)
    fun _ => ?_
  exact verdict_spanFrom (verdict_done (by simpa using hblock d.span) fun _ _ => ⟨_, rfl⟩)

theorem verdict_conditional (ht : c.token = .ifWord) (hc : c.rest.length ≤ N) :
    Verdict (fun b => b + 1) (fun b => conditional (statement b) b) Stmt.Spelling [] c := by
  have hlt := length_advance_lt (c := c) (ht ▸ Token.noConfusion)
  refine verdict_here (verdict_expected ht Token.noConfusion ?_)
  refine verdict_part ((verdict_parenthesized (fun c _ => verdict_expression c)
    (Nat.le_refl c.advance.rest.length)).cover
      fun j : Nat × Span => ⟨j.1, by simp, fun _ _ => rfl⟩)
    (fun vs hvs => ⟨_, by simpa using (Stmt.spellings_nil.block {} {}).ifThen hvs c.span⟩)
    fun cs m hcs hcondition => ?_
  have hm := hcs.length_le
  refine verdict_part ((hstmt m (by omega)).cover
    fun j : (Nat × Span) × Expr => ⟨j.1.1, by simp, fun _ _ => rfl⟩)
    (fun vs hvs => ⟨[], by simpa using hvs.ifThen hcondition c.span⟩) fun ts n hts hthen => ?_
  have hn := hts.length_le
  refine verdict_token ?_
  by_cases helse : n.token = .elseWord
  · simp only [if_pos helse]
    refine verdict_advance (helse ▸ Token.noConfusion) ?_
    have hlt := length_advance_lt (c := n) (helse ▸ Token.noConfusion)
    have hifElse : ∀ us, Stmt.Spelling us →
        Stmt.Spelling (⟨.ifWord, c.span⟩ :: cs ++ ts ++ ⟨n.token, n.span⟩ :: us) :=
      fun us hus => helse ▸ .ifElse hcondition hthen hus c.span n.span
    refine verdict_part ((hstmt n.advance (by omega)).cover
      fun j : ((Nat × Span) × Expr) × Stmt => ⟨j.1.1.1, by simp; omega, fun _ _ => rfl⟩)
      (fun vs hvs => ⟨[], by simpa using hifElse vs hvs⟩) fun us _ _ hus => ?_
    exact verdict_spanFrom (verdict_done (by simpa using hifElse us hus) fun _ _ => ⟨_, rfl⟩)
  · simp only [if_neg helse]
    exact verdict_spanFrom (verdict_done (by simpa using hthen.ifThen hcondition c.span)
      fun _ _ => ⟨_, rfl⟩)

theorem verdict_whileLoop (ht : c.token = .whileWord) (hc : c.rest.length ≤ N) :
    Verdict (fun b => b + 1) (fun b => whileLoop (statement b) b) Stmt.Spelling [] c := by
  have hlt := length_advance_lt (c := c) (ht ▸ Token.noConfusion)
  refine verdict_here (verdict_expected ht Token.noConfusion ?_)
  refine verdict_part ((verdict_parenthesized (fun c _ => verdict_expression c)
    (Nat.le_refl c.advance.rest.length)).cover
      fun j : Nat × Span => ⟨j.1, by simp, fun _ _ => rfl⟩)
    (fun vs hvs => ⟨_, by simpa using (Stmt.spellings_nil.block {} {}).whileLoop hvs c.span⟩)
    fun cs m hcs hcondition => ?_
  have hm := hcs.length_le
  refine verdict_part ((hstmt m (by omega)).cover
    fun j : (Nat × Span) × Expr => ⟨j.1.1, by simp, fun _ _ => rfl⟩)
    (fun vs hvs => ⟨[], by simpa using hvs.whileLoop hcondition c.span⟩) fun ts n _ hbody => ?_
  exact verdict_spanFrom (verdict_done (by simpa using hbody.whileLoop hcondition c.span)
    fun _ _ => ⟨_, rfl⟩)

theorem verdict_forLoop (ht : c.token = .forWord) (hc : c.rest.length ≤ N) :
    Verdict (fun b => b + 1) (fun b => forLoop (statement b) b) Stmt.Spelling [] c := by
  have hlt := length_advance_lt (c := c) (ht ▸ Token.noConfusion)
  have hnumber := (Expr.spelling_number 0 {}).level 7
  have hblock := Stmt.spellings_nil.block {} {}
  refine verdict_here (verdict_expected ht Token.noConfusion ?_)
  refine verdict_expect .leftParen Token.noConfusion (fun q => ⟨_, by
    simpa using Stmt.Spelling.forLoop ⟨_, .none⟩ hnumber ⟨_, .none⟩ hblock c.span q {} {} {}⟩)
    fun hl => ?_
  have hm := length_advance (c := c.advance)
  generalize c.advance.advance = m at hm ⊢
  generalize c.advance.span = q
  refine verdict_part ((verdict_simpleUnless .semicolon m).cover
    fun j : Nat × Span => ⟨j.1, by simp, fun _ _ => rfl⟩)
    (fun vs hvs => ⟨_, by
      simpa using Stmt.Spelling.forLoop hvs hnumber ⟨_, .none⟩ hblock c.span q {} {} {}⟩)
    fun is m' his hi => ?_
  refine verdict_expect .semicolon Token.noConfusion (fun r => ⟨_, by
    simpa using Stmt.Spelling.forLoop hi hnumber ⟨_, .none⟩ hblock c.span q r {} {}⟩)
    fun _ => ?_
  have hm' := his.length_le
  have hn := length_advance m'
  generalize m'.advance = n at hn ⊢
  generalize m'.span = r
  refine verdict_token ?_
  by_cases hempty : n.token = .semicolon
  · simp only [if_pos hempty]
    refine verdict_stop (fun l hl => ?_) fun _ _ _ => rfl
    obtain ⟨vs, hvs⟩ := Expr.exists_spelling hl 7
    exact ⟨_, by
      simpa using Stmt.Spelling.forLoop hi hvs ⟨_, .none⟩ hblock c.span q r {} {}⟩
  · simp only [if_neg hempty]
    refine verdict_part ((verdict_expression n).cover
      fun j : (Nat × Span) × Option Simple => ⟨j.1.1, by simp; omega, fun _ _ => rfl⟩)
      (fun vs hvs => ⟨_, by
        simpa using Stmt.Spelling.forLoop hi hvs ⟨_, .none⟩ hblock c.span q r {} {}⟩)
      fun cs n' hcs hcondition => ?_
    refine verdict_expect .semicolon Token.noConfusion (fun r' => ⟨_, by
      simpa using Stmt.Spelling.forLoop hi hcondition ⟨_, .none⟩ hblock c.span q r r' {}⟩)
      fun _ => ?_
    have hn' := hcs.length_le
    have hk := length_advance n'
    generalize n'.advance = k at hk ⊢
    generalize n'.span = r'
    refine verdict_part ((verdict_simpleUnless .rightParen k).cover
      fun j : ((Nat × Span) × Option Simple) × Expr => ⟨j.1.1.1, by simp; omega, fun _ _ => rfl⟩)
      (fun vs hvs => ⟨_, by
        simpa using Stmt.Spelling.forLoop hi hcondition hvs hblock c.span q r r' {}⟩)
      fun us k' hus hu => ?_
    refine verdict_expect .rightParen Token.noConfusion (fun q' => ⟨_, by
      simpa using Stmt.Spelling.forLoop hi hcondition hu hblock c.span q r r' q'⟩) fun _ => ?_
    have hk' := hus.length_le
    have hbody := length_advance k'
    refine verdict_part ((hstmt k'.advance (by omega)).cover
      fun j : (((Nat × Span) × Option Simple) × Expr) × Option Simple =>
        ⟨j.1.1.1.1, by simp; omega, fun _ _ => rfl⟩)
      (fun vs hvs => ⟨[], by
        simpa using Stmt.Spelling.forLoop hi hcondition hu hvs c.span q r r' k'.span⟩)
      fun ts _ _ hts => ?_
    exact verdict_spanFrom (verdict_done (by
      simpa using Stmt.Spelling.forLoop hi hcondition hu hts c.span q r r' k'.span)
      fun _ _ => ⟨_, rfl⟩)

end Statements

theorem verdict_statement (c : Cursor) : Verdict id statement Stmt.Spelling [] c := by
  induction hlen : c.rest.length using Nat.strongRecOn generalizing c with
  | _ k ih =>
    have hstmt : ∀ c', c'.rest.length < c.rest.length →
        Verdict id statement Stmt.Spelling [] c' := fun c' hc' => ih _ (hlen ▸ hc') c' rfl
    have hsucc : Verdict (fun b => b + 1) (fun b => statement (b + 1)) Stmt.Spelling [] c := by
      refine verdict_token ?_
      cases ht : c.token
      case leftBrace => exact verdict_block hstmt ht (Nat.le_refl _)
      case ifWord => exact verdict_conditional hstmt ht (Nat.le_refl _)
      case whileWord => exact verdict_whileLoop hstmt ht (Nat.le_refl _)
      case forWord => exact verdict_forLoop hstmt ht (Nat.le_refl _)
      case printWord => exact verdict_printStatement ht
      case varWord => exact verdict_declaration ht
      all_goals exact verdict_simpleStatement c
    refine hsucc.cover fun b => ?_
    cases b with
    | zero =>
      refine ⟨0, Nat.zero_le _, fun c' hlen' => ?_⟩
      obtain ⟨_ | _, p⟩ := c'
      · rfl
      · cases hlen'
    | succ b => exact ⟨b, Nat.le_refl _, fun _ _ => rfl⟩

theorem verdict_program (c : Cursor) : Verdict id program Stmt.Spellings [] c := by
  have hmany := verdict_many (c := c) (fun c' _ => verdict_statement c') [.endOfInput] (by simp)
    Stmt.spellings_nil (Nat.lt_succ_self _)
  refine verdict_here (verdict_part (hmany.cover
    fun j : Nat × Span => ⟨(j.1, j.1), Nat.le_of_eq (Nat.min_self _).symm, fun _ _ => rfl⟩)
    (fun vs hvs => ⟨[], by simpa using hvs⟩) fun ts d _ hts => ?_)
  exact verdict_spanFrom (verdict_done hts fun _ _ => ⟨_, rfl⟩)

/-- Where the parser stops, it stops on every continuation. -/
theorem Rejects.not_spellings {ts : List Located} {t : Token} {want : Expected}
    (h : Rejects id program ts t want) (us : List Located)
    (ht : (⟨us, lastSpan {} ts⟩ : Cursor).token = t) :
    ¬ Stmt.Spellings (ts ++ us) := by
  rintro ⟨ss, hss⟩
  obtain ⟨ss', hss'⟩ := hss.toNearest
  have huptoEnd := uptoEnd_of_endFree hss'.endFree
  have hspelled : Program.Spelled true (ts ++ us) ⟨_, ss'⟩ := ⟨huptoEnd.symm ▸ hss', rfl⟩
  have hparse := parse_eq_ok_iff.2 hspelled
  obtain ⟨d, hrun⟩ := parse_eq_ok.1 hparse
  rw [h _ ⟨ts ++ us, {}⟩ ⟨us, lastSpan {} ts⟩ (Nat.le_refl _) ⟨rfl, rfl⟩ ht] at hrun
  cases hrun

end Parser

def Viable (ts : List Located) : Prop := ∃ us, Stmt.Spellings (ts ++ us)

theorem parse_eq_error {tokens : List Located} {e : SyntaxError} :
    parse tokens = .error e ↔ (Parser.program tokens.length).run ⟨tokens, {}⟩ = .error e := by
  unfold parse
  rcases (Parser.program tokens.length).run ⟨tokens, {}⟩ with e' | ⟨q, d⟩
  · constructor <;>
      · intro h
        cases h
        rfl
  · constructor <;> nofun

theorem getLast?_eq_lastSpan {ts : List Located} (h : ts ≠ []) (s : Span) :
    ∃ l, ts.getLast? = some l ∧ lastSpan s ts = l.span := by
  obtain ⟨us, l, rfl⟩ := List.eq_nil_or_concat ts |>.resolve_left h
  exact ⟨l, by simp, by simp [lastSpan]⟩

/-- The error `e` lies behind the first `k` tokens, where `want` is missing. -/
structure FirstError (tokens : List Located) (e : SyntaxError) (k : Nat) (want : Expected) :
    Prop where
  viable : Viable (tokens.take k)
  expected : ∀ l : Located, want.Names l.token → Viable (tokens.take k ++ [l])
  found : (∃ l, tokens[k]? = some l ∧ e = ⟨.unexpected want.text l.token.text, l.span⟩ ∧
      ¬ Viable (tokens.take (k + 1))) ∨
    (k = tokens.length ∧ ¬ Stmt.Spellings tokens ∧ ∃ l, tokens.getLast? = some l ∧
      e = ⟨.unexpected want.text Token.endOfInput.text, l.span⟩)

/-- Where tokens are rejected, the first one that continues no program is at fault, or what is at
fault is that they end; what is named as expected could have stood there. -/
theorem parse_error_first {tokens : List Located} {e : SyntaxError} (h : parse tokens = .error e) :
    ∃ k want, FirstError tokens e k want := by
  rw [parse_eq_error] at h
  obtain ⟨ts, ⟨rest, p⟩, hreads, hverdict⟩ := Parser.verdict_program ⟨tokens, {}⟩
  obtain rfl : tokens = ts ++ rest := hreads.rest_eq
  obtain rfl : p = lastSpan {} ts := hreads.previous_eq
  rcases hverdict with ⟨_, hpasses⟩ | ⟨want, hwant, hrejects⟩
  · obtain ⟨a, ha⟩ := hpasses _ _ _ (Nat.le_refl _) hreads rfl
    cases ha.symm.trans h
  rw [List.nil_append] at hwant
  have he := (hrejects _ _ _ (Nat.le_refl _) hreads rfl).symm.trans h
  have hviable : ∀ l : Located, want.Names l.token → Viable (ts ++ [l]) := by
    intro l hl
    obtain ⟨us, hus⟩ := hwant l hl
    exact ⟨us, by simpa using hus⟩
  refine ⟨ts.length, want, ?_, by simpa using hviable, ?_⟩
  · obtain ⟨t, ht⟩ := want.exists_names
    obtain ⟨us, hus⟩ := hwant ⟨t, {}⟩ ht
    exact ⟨_, by simpa using hus⟩
  cases rest with
  | cons l rest =>
    refine .inl ⟨l, by simp, (Except.error.inj he).symm, ?_⟩
    rintro ⟨us, hus⟩
    refine hrejects.not_spellings (l :: us) rfl ?_
    have htake : (ts ++ l :: rest).take (ts.length + 1) = ts ++ [l] := by
      rw [List.take_length_add_append]
      rfl
    simpa [htake] using hus
  | nil =>
    have hnot := hrejects.not_spellings [] rfl
    rw [List.append_nil] at hnot
    have hne : ts ≠ [] := by
      rintro rfl
      exact hnot Stmt.spellings_nil
    obtain ⟨l, hl, hspan⟩ := getLast?_eq_lastSpan hne {}
    refine .inr ⟨by simp, by simpa using hnot, l, by simpa using hl, ?_⟩
    rw [← hspan]
    exact (Except.error.inj he).symm

/-- In `print 1 }` the brace is at fault, where a semicolon is missing. -/
theorem parse_error_first_of_brace :
    parse [⟨.printWord, ⟨none, 1, 1, 1, 5⟩⟩, ⟨.number 1, ⟨none, 1, 7, 1, 7⟩⟩,
        ⟨.rightBrace, ⟨none, 1, 9, 1, 9⟩⟩] =
      .error ⟨.unexpected "';'" "'\x7d'", ⟨none, 1, 9, 1, 9⟩⟩ ∧
    ∃ k want, FirstError [⟨.printWord, ⟨none, 1, 1, 1, 5⟩⟩, ⟨.number 1, ⟨none, 1, 7, 1, 7⟩⟩,
        ⟨.rightBrace, ⟨none, 1, 9, 1, 9⟩⟩]
      ⟨.unexpected "';'" "'\x7d'", ⟨none, 1, 9, 1, 9⟩⟩ k want :=
  ⟨rfl, parse_error_first rfl⟩

end TeachLang
