import TeachLang.Proofs.Progress

/-!
# Procedures without a bound

The procedures of the parser call each other. Each call either comes to a procedure further down in
the grammar or happens where fewer tokens are left than at the caller. So calls nest no deeper than
ten for each token, whatever would be done further down, and without any bound they do the same as
with one that is enough. Nor does anything depend on what stands behind a token for the end of the
input.
-/

namespace TeachLang

namespace Parser

open Cursor Coincide

/-- Procedures of the parser, whatever they do. -/
@[ext]
structure Procedures where
  unary : Parser Expr
  /-- Goes on behind an expression with the operators of the level above the given one. -/
  chain : Nat → Span → Expr → Parser Expr
  upTo : Nat → Parser Expr
  expression : Parser Expr
  /-- Reads statements until one of the tokens or the end of the input comes next. -/
  many : List Token → Parser (List Stmt)
  statement : Parser Stmt

namespace Procedures

def upToCall (p : Procedures) : Nat → Parser Expr
  | 0 => p.unary
  | level + 1 => do
    let start ← here
    let left ← p.upTo level
    p.chain level start left

/-- One call of each procedure, whose further calls are those of `p`. The expressions of a statement
are read with the number of tokens left as their bound, which is enough for them. -/
def call (p : Procedures) : Procedures where
  unary := unaryCall p.expression p.unary
  chain level start := chainCall (p.upTo level) (level + 1) start (p.chain level start)
  upTo := p.upToCall
  expression := p.upTo 7
  many close := manyCall p.statement (close ++ [.endOfInput]) (p.many close)
  statement := do statementCall p.statement (p.many [.rightBrace]) (← get).rest.length

/-- Calls that nest `k` deep, with `p` at the bottom. -/
def nested (p : Procedures) : Nat → Procedures
  | 0 => p
  | k + 1 => (p.nested k).call

def program (p : Procedures) : Parser Program := do
  let start ← here
  let statements ← p.many []
  return ⟨← spanFrom start, statements⟩

end Procedures

variable {α : Type} {n b : Nat} {c : Cursor}

/-! ### Bounds that are enough -/

def sized (x : Nat → Parser α) : Parser α := do x (← get).rest.length

/-- With every bound that is enough, the parsers answer the same. -/
def Settled (x : Nat → Parser α) : Prop :=
  ∀ n b b', n ≤ b → n ≤ b' → Coincide (n + 1) (x b) (x b')

theorem Settled.coincide_sized {x : Nat → Parser α} (hx : Settled x) (b : Nat) :
    Coincide (b + 1) (x b) (sized x) :=
  fun c hc => hx c.rest.length b c.rest.length (Nat.le_of_lt_succ hc) (Nat.le_refl _) c
    (Nat.lt_succ_self _)

theorem Settled.sized_eq {x : Nat → Parser α} (hx : Settled x) {y : Parser α}
    (h : ∀ n, Coincide (n + 1) (x (n + 1)) y) : sized x = y := by
  funext c
  have hlt := Nat.lt_succ_self c.rest.length
  have hsized := hx.coincide_sized (c.rest.length + 1) c (Nat.lt_succ_of_lt hlt)
  exact hsized.symm.trans (h c.rest.length c hlt)

theorem Progresses.sized {x : Nat → Parser α} (hx : ∀ b, Progresses (x b)) :
    Progresses (sized x) :=
  fun c a d h => hx c.rest.length c a d h

theorem settled_expression : Settled expression :=
  fun _ _ _ hb hb' => coincide_expression (Nat.succ_le_succ hb) (Nat.succ_le_succ hb')

theorem settled_statement : Settled statement :=
  fun _ _ _ hb hb' => coincide_statement (Nat.succ_le_succ hb) (Nat.succ_le_succ hb')

theorem settled_unary {inner : Parser Expr} (hinner : Shrinks inner) : Settled (unary inner) :=
  fun n _ _ hb hb' => coincide_unary (.refl n inner) hinner hb hb'

theorem settled_chain {operand : Parser Expr} (hoperand : Shrinks operand) (level : Nat)
    (start : Span) (left : Expr) : Settled fun b => chain operand level start b left :=
  fun n _ _ hb hb' => coincide_chain (.refl n operand) hoperand hb hb' left

theorem settled_upTo {inner : Parser Expr} (hinner : Sound inner 7) (level : Nat) :
    Settled fun b => upTo b inner level :=
  fun n _ _ hb hb' => coincide_upTo (.refl n inner) hinner hb hb' level

theorem settled_many {item : Parser α} (hitem : Progresses item) {stop : List Token}
    (hstop : .endOfInput ∈ stop) : Settled (many item stop) :=
  fun n _ _ hb hb' => coincide_many hstop (.refl (n + 1) item) hitem (Nat.succ_le_succ hb)
    (Nat.succ_le_succ hb')

/-! ### The solution -/

def procedures : Procedures where
  unary := sized (unary (sized expression))
  chain level start left :=
    sized fun b => chain (sized fun b => upTo b (sized expression) level) (level + 1) start b left
  upTo level := sized fun b => upTo b (sized expression) level
  expression := sized expression
  many close := sized (many (sized statement) (close ++ [.endOfInput]))
  statement := sized statement

theorem sound_procedures_expression : Sound procedures.expression 7 :=
  fun c e d h => sound_expression c.rest.length c e d h

theorem progresses_procedures_upTo (level : Nat) : Progresses (procedures.upTo level) :=
  .sized fun b => (sound_upTo sound_procedures_expression b level).progresses

theorem progresses_procedures_statement : Progresses procedures.statement :=
  .sized progresses_statement

theorem shrinks_procedures_upTo (level : Nat) : Shrinks (procedures.upTo level) :=
  (progresses_procedures_upTo level).shrinks

theorem procedures_unary : procedures.unary = procedures.call.unary := by
  have hshrinks := sound_procedures_expression.progresses.shrinks
  have hsettled := settled_unary hshrinks
  exact hsettled.sized_eq fun n =>
    coincide_unaryCall (.refl n _) hshrinks ((hsettled.coincide_sized n).mono (Nat.le_succ n))

theorem procedures_chain (level : Nat) (start : Span) (left : Expr) :
    procedures.chain level start left = procedures.call.chain level start left := by
  have hshrinks := shrinks_procedures_upTo level
  refine (settled_chain hshrinks (level + 1) start left).sized_eq fun n => ?_
  refine coincide_chainCall (.refl n _) hshrinks fun left => ?_
  exact ((settled_chain hshrinks (level + 1) start left).coincide_sized n).mono (Nat.le_succ n)

theorem procedures_upTo (level : Nat) : procedures.upTo level = procedures.call.upTo level := by
  cases level with
  | zero => rfl
  | succ level =>
    have hsettled := settled_upTo sound_procedures_expression
    have hshrinks := shrinks_procedures_upTo level
    refine (hsettled (level + 1)).sized_eq fun n => ?_
    have hlevel : Coincide (n + 1) (upTo (n + 1) (sized expression) level)
        (procedures.upTo level) := ((hsettled level).coincide_sized (n + 1)).mono (Nat.le_succ _)
    refine behind shrinks_here fun start => hlevel.bind hshrinks fun left => ?_
    refine (coincide_chain (hlevel.mono (Nat.le_succ n)) hshrinks (Nat.le_succ n) (Nat.le_succ n)
      left).trans ?_
    exact ((settled_chain hshrinks (level + 1) start left).coincide_sized (n + 1)).mono
      (Nat.le_succ _)

theorem procedures_expression : procedures.expression = procedures.call.expression := by
  refine settled_expression.sized_eq fun n => ?_
  refine (coincide_upTo ((settled_expression.coincide_sized n).mono (Nat.le_succ n))
    sound_procedures_expression (Nat.le_succ n) (Nat.le_succ n) 7).trans ?_
  exact ((settled_upTo sound_procedures_expression 7).coincide_sized (n + 1)).mono (Nat.le_succ _)

theorem settled_procedures_many (close : List Token) :
    Settled (many procedures.statement (close ++ [.endOfInput])) :=
  settled_many progresses_procedures_statement
    (List.mem_append_right close (List.mem_singleton_self _))

theorem coincide_many_procedures (close : List Token) (b : Nat) :
    Coincide (b + 1) (many (statement b) (close ++ [.endOfInput]) b) (procedures.many close) := by
  have hstop := List.mem_append_right close (List.mem_singleton_self Token.endOfInput)
  exact (coincide_many hstop (settled_statement.coincide_sized b) progresses_procedures_statement
    (Nat.le_refl _) (Nat.le_refl _)).trans ((settled_procedures_many close).coincide_sized b)

theorem procedures_many (close : List Token) :
    procedures.many close = procedures.call.many close := by
  have hsettled := settled_procedures_many close
  exact hsettled.sized_eq fun n => coincide_manyCall _ (.refl _ _)
    progresses_procedures_statement ((hsettled.coincide_sized n).mono (Nat.le_succ n))

theorem procedures_statement : procedures.statement = procedures.call.statement := by
  refine settled_statement.sized_eq fun n c hc => ?_
  have hself : Coincide (n + 1) (statement n) procedures.statement :=
    settled_statement.coincide_sized n
  have hbody := coincide_many_procedures [.rightBrace] n
  have hle : c.rest.length ≤ n + 1 := Nat.le_of_lt hc
  have hcall := coincide_statementCall (hself.mono hle) progresses_procedures_statement.shrinks
    (hbody.mono hle) hle (Nat.le_refl _)
  exact (coincide_statement_succ n c (Nat.lt_succ_of_lt hc)).trans
    (hcall c (Nat.lt_succ_self _))

/-- The procedures solve the equations that their calls are. -/
theorem call_procedures : procedures.call = procedures := by
  apply Procedures.ext
  · exact procedures_unary.symm
  · funext level start left
    exact (procedures_chain level start left).symm
  · funext level
    exact (procedures_upTo level).symm
  · exact procedures_expression.symm
  · funext close
    exact (procedures_many close).symm
  · exact procedures_statement.symm

/-! ### Depth of calls -/

structure Procedures.Agree (n : Nat) (p q : Procedures) : Prop where
  unary : Coincide n p.unary q.unary
  chain {level : Nat} (hlevel : level < 7) (start : Span) (left : Expr) :
    Coincide n (p.chain level start left) (q.chain level start left)
  upTo {level : Nat} (hlevel : level ≤ 7) : Coincide n (p.upTo level) (q.upTo level)
  expression : Coincide n p.expression q.expression
  many (close : List Token) : Coincide n (p.many close) (q.many close)
  statement : Coincide n p.statement q.statement

theorem Procedures.exists_nested_eq_call (p : Procedures) {m k : Nat} (h : m < k) :
    ∃ j, m ≤ j ∧ p.nested k = (p.nested j).call := by
  obtain ⟨d, rfl⟩ := Nat.exists_eq_add_of_lt h
  exact ⟨m + d, Nat.le_add_right m d, rfl⟩

section Depth

variable {p : Procedures} {least k : Nat}
  (h : ∀ k, least ≤ k → (p.nested k).Agree n procedures)
include h

theorem Procedures.nested_unary (hk : least < k) :
    Coincide (n + 1) (p.nested k).unary procedures.unary := by
  obtain ⟨j, hj, hkj⟩ := p.exists_nested_eq_call hk
  rw [hkj, ← call_procedures]
  exact coincide_unaryCall (h j hj).expression sound_procedures_expression.progresses.shrinks
    (h j hj).unary

theorem Procedures.nested_chain (hk : least < k) {level : Nat} (hlevel : level < 7) (start : Span)
    (left : Expr) : Coincide (n + 1) ((p.nested k).chain level start left)
      (procedures.chain level start left) := by
  obtain ⟨j, hj, hkj⟩ := p.exists_nested_eq_call hk
  rw [hkj, ← call_procedures]
  exact coincide_chainCall ((h j hj).upTo (Nat.le_of_lt hlevel)) (shrinks_procedures_upTo level)
    ((h j hj).chain hlevel start)

theorem Procedures.nested_statement (hk : least < k) :
    Coincide (n + 1) (p.nested k).statement procedures.statement := by
  intro c hc
  obtain ⟨j, hj, hkj⟩ := p.exists_nested_eq_call hk
  rw [hkj, ← call_procedures]
  have hle : c.rest.length ≤ n := Nat.le_of_lt_succ hc
  exact coincide_statementCall ((h j hj).statement.mono hle)
    progresses_procedures_statement.shrinks (((h j hj).many [.rightBrace]).mono hle)
    (Nat.le_refl _) (Nat.le_refl _) c (Nat.lt_succ_self _)

/-- Each level calls the one below it on the same tokens, so it takes as many calls more. -/
theorem Procedures.nested_upTo {level : Nat} (hlevel : level ≤ 7) (hk : least + level + 1 < k) :
    Coincide (n + 1) ((p.nested k).upTo level) (procedures.upTo level) := by
  induction level generalizing k with
  | zero =>
    obtain ⟨j, hj, hkj⟩ := p.exists_nested_eq_call hk
    rw [hkj, ← call_procedures]
    exact nested_unary h hj
  | succ level ih =>
    obtain ⟨j, hj, hkj⟩ := p.exists_nested_eq_call hk
    rw [hkj, ← call_procedures]
    refine behind shrinks_here fun start => ?_
    have hoperand := ih (Nat.le_of_succ_le hlevel) hj
    exact hoperand.bind (shrinks_procedures_upTo level) fun left =>
      nested_chain h (by omega) hlevel start left

/-- Ten calls suffice to come from an expression or a statement behind its first token. -/
theorem Procedures.agree_nested_succ (hk : least + 10 ≤ k) :
    (p.nested k).Agree (n + 1) procedures := by
  obtain ⟨j, hj, hkj⟩ := p.exists_nested_eq_call hk
  have hexpression : Coincide (n + 1) (p.nested k).expression procedures.expression := by
    rw [hkj, ← call_procedures]
    exact nested_upTo h (Nat.le_refl 7) hj
  have hmany : ∀ close, Coincide (n + 1) ((p.nested k).many close) (procedures.many close) := by
    intro close
    rw [hkj, ← call_procedures]
    exact coincide_manyCall _ (nested_statement h (by omega)) progresses_procedures_statement
      ((h j (by omega)).many close)
  exact {
    unary := nested_unary h (by omega)
    chain := fun hlevel => nested_chain h (by omega) hlevel
    upTo := fun hlevel => nested_upTo h hlevel (by omega)
    expression := hexpression
    many := hmany
    statement := nested_statement h (by omega) }

end Depth

/-- Where fewer than `n` tokens are left, calls nest at most `10 * n` deep: what is at the bottom is
not called. -/
theorem Procedures.agree_nested (p : Procedures) (n : Nat) :
    ∀ k, 10 * n ≤ k → (p.nested k).Agree n procedures := by
  induction n with
  | zero =>
    exact fun k _ => ⟨.zero _ _, fun _ _ _ => .zero _ _, fun _ => .zero _ _, .zero _ _,
      fun _ => .zero _ _, .zero _ _⟩
  | succ n ih => exact fun _ hk => agree_nested_succ ih hk

/-! ### Programs -/

theorem coincide_program (b : Nat) : Coincide (b + 1) (program b) procedures.program :=
  behind shrinks_here fun _ => (coincide_many_procedures [] b).before _

theorem coincide_upTo_procedures (b level : Nat) :
    Coincide (b + 1) (upTo b (expression b) level) (procedures.upTo level) := by
  refine (coincide_upTo ((settled_expression.coincide_sized b).mono (Nat.le_succ b))
    sound_procedures_expression (Nat.le_refl b) (Nat.le_refl b) level).trans ?_
  exact (settled_upTo sound_procedures_expression level).coincide_sized b

theorem parse_eq_program (tokens : List Located) :
    parse tokens = (procedures.program.run ⟨tokens, {}⟩).map Prod.fst := by
  rw [← coincide_program tokens.length ⟨tokens, {}⟩ (Nat.lt_succ_self _)]
  unfold parse
  cases (program tokens.length).run ⟨tokens, {}⟩ <;> rfl

end Parser

/-! ### Behind the end -/

open Cursor TeachLang.Parser

variable {pre post ts us : List Located} {l : Located}

theorem uptoEnd_append_end (hl : l.token = .endOfInput) (post : List Located) :
    uptoEnd (pre ++ l :: post) = uptoEnd pre := by
  induction pre with
  | nil => simp [uptoEnd, hl]
  | cons k pre ih =>
    simp only [uptoEnd, List.cons_append, List.takeWhile_cons] at ih ⊢
    rw [ih]

/-- Tokens without one for the end, in front of which the list is cut, stand before it. -/
theorem exists_append_of_endFree (hl : l.token = .endOfInput) (hts : EndFree ts)
    (h : pre ++ l :: post = ts ++ us) : ∃ mid, pre = ts ++ mid ∧ us = mid ++ l :: post := by
  rcases List.append_eq_append_iff.1 h with ⟨mid, hts', hpost⟩ | ⟨mid, hpre, hus⟩
  · cases mid with
    | nil => exact ⟨[], by simpa using hts'.symm, by simpa using hpost.symm⟩
    | cons k mid =>
      cases hpost
      exact absurd hl (hts l (by simp [hts']))
  · exact ⟨mid, hpre, hus⟩

theorem Program.Spelled.congr_end {p : Program} (hl : l.token = .endOfInput) (post' : List Located)
    (h : p.Spelled true (pre ++ l :: post)) : p.Spelled true (pre ++ l :: post') := by
  obtain ⟨hstatements, hspan⟩ := h
  have huptoEnd : uptoEnd (pre ++ l :: post') = uptoEnd (pre ++ l :: post) := by
    rw [uptoEnd_append_end hl, uptoEnd_append_end hl]
  refine ⟨by rwa [huptoEnd], ?_⟩
  rw [hspan, huptoEnd]
  cases pre <;> rfl

theorem parse_error_congr_end {e : SyntaxError} (hl : l.token = .endOfInput) (post' : List Located)
    (h : parse (pre ++ l :: post) = .error e) : parse (pre ++ l :: post') = .error e := by
  rw [parse_eq_error] at h ⊢
  obtain ⟨ts, ⟨rest, p⟩, hreads, hverdict⟩ := verdict_program ⟨pre ++ l :: post, {}⟩
  obtain rfl : p = lastSpan {} ts := hreads.previous_eq
  rcases hverdict with ⟨-, hpasses⟩ | ⟨want, hwant, hrejects⟩
  · obtain ⟨a, ha⟩ := hpasses _ _ _ (Nat.le_refl _) hreads rfl
    cases ha.symm.trans h
  · have he := (hrejects _ _ _ (Nat.le_refl _) hreads rfl).symm.trans h
    have hfree : EndFree ts := by
      obtain ⟨t, ht⟩ := want.exists_names
      obtain ⟨us, ss, hss⟩ := hwant ⟨t, {}⟩ ht
      exact (endFree_append.1 hss.endFree).1
    obtain ⟨mid, rfl, hrest⟩ := exists_append_of_endFree hl hfree hreads.rest_eq
    obtain rfl : rest = mid ++ l :: post := hrest
    have hreads' : (⟨ts ++ mid ++ l :: post', {}⟩ : Cursor).Reads ts
        ⟨mid ++ l :: post', lastSpan {} ts⟩ := ⟨List.append_assoc .., rfl⟩
    have htoken : (⟨mid ++ l :: post', lastSpan {} ts⟩ : Cursor).token =
        (⟨mid ++ l :: post, lastSpan {} ts⟩ : Cursor).token := by
      cases mid <;> rfl
    have hspan : (⟨mid ++ l :: post', lastSpan {} ts⟩ : Cursor).span =
        (⟨mid ++ l :: post, lastSpan {} ts⟩ : Cursor).span := by
      cases mid <;> rfl
    rw [hrejects _ _ _ (Nat.le_refl _) hreads' htoken, ← he, missing, htoken, hspan]
    rfl

theorem parse_congr_end (hl : l.token = .endOfInput) (post' : List Located) :
    parse (pre ++ l :: post) = parse (pre ++ l :: post') := by
  cases h : parse (pre ++ l :: post) with
  | error e => exact (parse_error_congr_end hl post' h).symm
  | ok p =>
    rw [parse_eq_ok_iff] at h
    exact (parse_eq_ok_iff.2 (h.congr_end hl post')).symm

/-- A call that succeeds on a statement, a simple statement, an expression or what the operators up
to a level make up has read at least one token, and none for the end of the input. Calls without any
bound nest at most ten deep for each token, whatever lies beneath. With a bound that is no less than
the number of tokens left, the parsers answer as calls without a bound do, and so a program is
parsed. What stands behind a token for the end of the input is no matter. -/
theorem parser_ends :
    (∀ b, Progresses (statement b) ∧ Progresses (simple b) ∧ Progresses (expression b) ∧
      ∀ bound level, Progresses (upTo bound (expression b) level)) ∧
    procedures.call = procedures ∧
    (∀ (p : Procedures) n k, 10 * n ≤ k → (p.nested k).Agree n procedures) ∧
    (∀ b c, c.rest.length ≤ b → (statement b).run c = procedures.statement.run c ∧
      (expression b).run c = procedures.expression.run c ∧
      ∀ level, (upTo b (expression b) level).run c = (procedures.upTo level).run c) ∧
    (∀ tokens, parse tokens = (procedures.program.run ⟨tokens, {}⟩).map Prod.fst) ∧
    ∀ pre post post' l, l.token = .endOfInput →
      parse (pre ++ l :: post) = parse (pre ++ l :: post') ∧
        Tree.ofTokens (pre ++ l :: post) = Tree.ofTokens (pre ++ l :: post') := by
  refine ⟨fun b => ⟨progresses_statement b, progresses_simple b, progresses_expression b,
    fun bound level => (sound_upTo (sound_expression b) bound level).progresses⟩, call_procedures,
    Procedures.agree_nested, fun b c hc => ?_, parse_eq_program,
    fun pre post post' l hl => ⟨parse_congr_end hl post', ?_⟩⟩
  · have hlt := Nat.lt_succ_of_le hc
    exact ⟨settled_statement.coincide_sized b c hlt, settled_expression.coincide_sized b c hlt,
      fun level => coincide_upTo_procedures b level c hlt⟩
  · rw [Tree.ofTokens, Tree.ofTokens, parse_congr_end hl post']

/-- The semicolon comes too late. Without the end in front of it the statement is complete, and is
read before any of the idle procedures is called. -/
theorem parser_ends_of_cut :
    let idle : Procedures := ⟨unexpected .expression, fun _ _ left => pure left,
      fun _ => unexpected .expression, unexpected .expression, fun _ => pure [],
      unexpected .expression⟩
    let start : List Located :=
      [⟨.printWord, ⟨none, 1, 1, 1, 5⟩⟩, ⟨.number 1, ⟨none, 1, 7, 1, 7⟩⟩]
    let cut : Located := ⟨.endOfInput, ⟨none, 1, 8, 1, 8⟩⟩
    let semicolon : Located := ⟨.semicolon, ⟨none, 1, 9, 1, 9⟩⟩
    cut.token = .endOfInput ∧ parse (start ++ cut :: [semicolon]) = parse (start ++ [cut]) ∧
      parse (start ++ [cut]) =
        .error ⟨.unexpected "';'" "end of input", ⟨none, 1, 8, 1, 8⟩⟩ ∧
      (idle.nested 40).statement.run ⟨start ++ [semicolon], {}⟩ = .ok
        (.print ⟨none, 1, 1, 1, 9⟩ (.literal ⟨none, 1, 7, 1, 7⟩ 1), ⟨[], ⟨none, 1, 9, 1, 9⟩⟩) := by
  intro idle start cut semicolon
  have hcut : cut.token = .endOfInput := rfl
  obtain ⟨-, -, hnested, hbound, -, hend⟩ := parser_ends
  obtain ⟨hparse, -⟩ := hend start [semicolon] [] cut hcut
  obtain ⟨hstatement, -⟩ := hbound 3 ⟨start ++ [semicolon], {}⟩ (Nat.le_refl 3)
  have hdeep := (hnested idle 4 40 (Nat.le_refl 40)).statement
  rw [hdeep ⟨start ++ [semicolon], {}⟩ (by decide), ← hstatement]
  exact ⟨hcut, hparse, rfl, rfl⟩

end TeachLang
