import TeachLang.Proofs.FirstError

/-!
# Progress

A parser that succeeds on an expression or a statement has passed over at least one token, and over
none for the end of the input. So what a recursion does at a cursor depends only on what it does
where fewer tokens are left: whatever bound is no less than this number, the answers are the same.
-/

namespace TeachLang

theorem Token.ne_endOfInput {α : Type} {s : Token → Option α} (hs : s .endOfInput = none)
    {t : Token} {a : α} (h : s t = some a) : t ≠ .endOfInput := by
  rintro rfl
  cases hs.symm.trans h

namespace Parser

open Cursor

variable {α β : Type} {c : Cursor} {b b' k n : Nat} {t : Token}

def Shrinks (x : Parser α) : Prop :=
  ∀ c a d, x.run c = .ok (a, d) → d.rest.length ≤ c.rest.length

/-- On success, some tokens have been read, and none for the end of the input. -/
def Progresses (x : Parser α) : Prop :=
  ∀ c a d, x.run c = .ok (a, d) → ∃ ts, c.Reads ts d ∧ ts ≠ [] ∧ EndFree ts

theorem Progresses.length_lt {x : Parser α} (hx : Progresses x) {a : α} {d : Cursor}
    (h : x.run c = .ok (a, d)) : d.rest.length < c.rest.length := by
  obtain ⟨ts, hreads, hne, -⟩ := hx c a d h
  have hpos := List.length_pos_iff.2 hne
  have hlength := hreads.length_eq
  omega

theorem Progresses.shrinks {x : Parser α} (hx : Progresses x) : Shrinks x :=
  fun _ _ _ h => Nat.le_of_lt (hx.length_lt h)

/-! ### Who progresses -/

theorem Sound.progresses {x : Parser Expr} (hx : Sound x n) : Progresses x := by
  intro c e d h
  obtain ⟨ts, hreads, hts⟩ := hx c e d h
  exact ⟨ts, hreads, hts.opens.ne_nil, hts.endFree⟩

theorem progresses_expression (b : Nat) : Progresses (expression b) :=
  (sound_expression b).progresses

theorem progresses_simple (b : Nat) : Progresses (simple b) := by
  intro c s d h
  obtain ⟨ts, hreads, hts⟩ := spelled_simple h
  exact ⟨ts, hreads, hts.opens.ne_nil, hts.endFree⟩

theorem progresses_statement (b : Nat) : Progresses (statement b) := by
  intro c s d h
  obtain ⟨ts, _, hreads, hts, -⟩ := spells_statement b c s d h
  exact ⟨ts, hreads, hts.opens.ne_nil, hts.endFree⟩

theorem progresses_expect (ht : t ≠ .endOfInput) : Progresses (expect t) := by
  intro c _ d h
  obtain ⟨htoken, rfl⟩ := run_expect_eq_ok.1 h
  exact ⟨_, reads_advance htoken ht, List.cons_ne_nil _ _, by simpa using ht⟩

theorem progresses_identifier : Progresses identifier := by
  intro c x d h
  obtain ⟨htoken, rfl⟩ := run_identifier_eq_ok.1 h
  exact ⟨_, reads_advance htoken Token.noConfusion, List.cons_ne_nil _ _, by simp⟩

/-! ### Who shrinks -/

theorem Shrinks.bind {x : Parser α} {f : α → Parser β} (hx : Shrinks x) (hf : ∀ a, Shrinks (f a)) :
    Shrinks (x >>= f) := by
  intro c b d h
  obtain ⟨a, m, hm, hd⟩ := run_bind_eq_ok.1 h
  exact Nat.le_trans (hf a m b d hd) (hx c a m hm)

theorem shrinks_of_still {x : Parser α} (hx : ∀ c a d, x.run c = .ok (a, d) → d = c) :
    Shrinks x := by
  intro c a d h
  exact Nat.le_of_eq (by rw [hx c a d h])

theorem shrinks_pure (a : α) : Shrinks (pure a : Parser α) :=
  shrinks_of_still fun _ _ _ h => (run_pure_eq_ok.1 h).2

theorem shrinks_get : Shrinks (get : Parser Cursor) :=
  shrinks_of_still fun _ _ _ h => (run_get_eq_ok.1 h).2

theorem shrinks_here : Shrinks here := shrinks_of_still fun _ _ _ h => (run_here_eq_ok.1 h).2

theorem shrinks_token : Shrinks token := shrinks_of_still fun _ _ _ h => (run_token_eq_ok.1 h).2

theorem shrinks_spanFrom (s : Span) : Shrinks (spanFrom s) :=
  shrinks_of_still fun _ _ _ h => (run_spanFrom_eq_ok.1 h).2

theorem shrinks_advance : Shrinks advance := by
  intro c _ d h
  rw [run_advance_eq_ok.1 h, length_advance]
  exact Nat.sub_le _ _

theorem Shrinks.parenthesized {inner : Parser Expr} (h : Shrinks inner) :
    Shrinks (parenthesized inner) :=
  (progresses_expect Token.noConfusion).shrinks.bind fun _ => h.bind fun e =>
    (progresses_expect Token.noConfusion).shrinks.bind fun _ => shrinks_pure e

theorem shrinks_simpleUnless (close : Token) (b : Nat) : Shrinks (simpleUnless close b) := by
  refine shrinks_token.bind fun t => ?_
  split
  · exact shrinks_pure none
  · exact (progresses_simple b).shrinks.bind fun s => shrinks_pure (some s)

/-! ### Coincidence where few tokens are left -/

def Coincide (n : Nat) (x y : Parser α) : Prop := ∀ c, c.rest.length < n → x.run c = y.run c

namespace Coincide

variable {x y z : Parser α} {f g : α → Parser β}

theorem refl (n : Nat) (x : Parser α) : Coincide n x x := fun _ _ => rfl

theorem symm (h : Coincide n x y) : Coincide n y x := fun c hc => (h c hc).symm

theorem trans (h : Coincide n x y) (h' : Coincide n y z) : Coincide n x z :=
  fun c hc => (h c hc).trans (h' c hc)

theorem mono (h : Coincide n x y) (hle : k ≤ n) : Coincide k x y :=
  fun c hc => h c (Nat.lt_of_lt_of_le hc hle)

theorem zero (x y : Parser α) : Coincide 0 x y := fun _ hc => absurd hc (Nat.not_lt_zero _)

/-- Where no tokens are left there is nothing but the span of the last one. -/
theorem one (h : ∀ p, x.run ⟨[], p⟩ = y.run ⟨[], p⟩) : Coincide 1 x y := by
  rintro ⟨rest, p⟩ hc
  obtain rfl := List.length_eq_zero_iff.1 (Nat.lt_one_iff.1 hc)
  exact h p

theorem bind (hx : Coincide n x y) (hy : Shrinks y) (hf : ∀ a, Coincide n (f a) (g a)) :
    Coincide n (x >>= f) (y >>= g) := by
  intro c hc
  rw [run_bind, run_bind, hx c hc]
  cases h : y.run c with
  | error e => rfl
  | ok p => exact hf p.1 p.2 (Nat.lt_of_le_of_lt (hy c p.1 p.2 h) hc)

/-- Behind a part that progresses, fewer tokens are left. -/
theorem bind_progress (hx : Coincide (n + 1) x y) (hy : Progresses y)
    (hf : ∀ a, Coincide n (f a) (g a)) : Coincide (n + 1) (x >>= f) (y >>= g) := by
  intro c hc
  rw [run_bind, run_bind, hx c hc]
  cases h : y.run c with
  | error e => rfl
  | ok p => exact hf p.1 p.2 (Nat.lt_of_lt_of_le (hy.length_lt h) (Nat.le_of_lt_succ hc))

/-- The same part in front. -/
theorem behind (hx : Shrinks x) (hf : ∀ a, Coincide n (f a) (g a)) :
    Coincide n (x >>= f) (x >>= g) :=
  (refl n x).bind hx hf

theorem behind_progress (hx : Progresses x) (hf : ∀ a, Coincide n (f a) (g a)) :
    Coincide (n + 1) (x >>= f) (x >>= g) :=
  (refl (n + 1) x).bind_progress hx hf

theorem behind_expect {f g : Unit → Parser β} (ht : t ≠ .endOfInput)
    (h : Coincide n (f ()) (g ())) : Coincide (n + 1) (expect t >>= f) (expect t >>= g) :=
  behind_progress (progresses_expect ht) fun _ => h

/-- The same part behind. -/
theorem before (hx : Coincide n x y) (f : α → Parser β) : Coincide n (x >>= f) (y >>= f) := by
  intro c hc
  rw [run_bind, run_bind, hx c hc]

/-- What follows may depend on the next token. -/
theorem behind_token {f g : Token → Parser β}
    (h : ∀ c, c.rest.length < n → (f c.token).run c = (g c.token).run c) :
    Coincide n (token >>= f) (token >>= g) := by
  intro c hc
  rw [run_bind, run_bind, run_token]
  exact h c hc

theorem run_advance {f g : Unit → Parser β} (h : Coincide n (f ()) (g ()))
    (hne : c.token ≠ .endOfInput) (hc : c.rest.length < n + 1) :
    (advance >>= f).run c = (advance >>= g).run c :=
  h c.advance (Nat.lt_of_lt_of_le (length_advance_lt hne) (Nat.le_of_lt_succ hc))

end Coincide

open Coincide

/-! ### Expressions -/

section Expressions

variable {inner inner' : Parser Expr} {level f f' : Nat} {start : Span} {left : Expr}

/-- A call of the procedure that calls `inner` and, behind an operator, itself as `self`. -/
def unaryCall (inner self : Parser Expr) : Parser Expr := do
  let start ← here
  match (← token).unary? with
  | none => primary inner
  | some op =>
    advance
    let operand ← self
    return .unary (← spanFrom start) op operand

/-- One round of the loop over the operators of a level; `self` goes on with the loop. -/
def chainCall (operand : Parser Expr) (level : Nat) (start : Span) (self : Expr → Parser Expr)
    (left : Expr) : Parser Expr := do
  match (← token).operator? level with
  | none => return left
  | some op =>
    advance
    let right ← operand
    self (.binary (← spanFrom start) op left right)

theorem coincide_parenthesized (h : Coincide n inner inner') (hshrinks : Shrinks inner') :
    Coincide (n + 1) (parenthesized inner) (parenthesized inner') :=
  behind_expect Token.noConfusion (h.bind hshrinks fun _ => .refl n _)

theorem coincide_primary (h : Coincide n inner inner') (hshrinks : Shrinks inner') :
    Coincide (n + 1) (primary inner) (primary inner') := by
  refine behind shrinks_here fun start => behind shrinks_token fun t => ?_
  cases t
  case leftParen => exact coincide_parenthesized h hshrinks
  all_goals exact .refl _ _

theorem coincide_unaryCall {self self' : Parser Expr} (h : Coincide n inner inner')
    (hshrinks : Shrinks inner') (hself : Coincide n self self') :
    Coincide (n + 1) (unaryCall inner self) (unaryCall inner' self') := by
  refine behind shrinks_here fun start => behind_token fun c hc => ?_
  cases hop : c.token.unary? with
  | none => exact coincide_primary h hshrinks c hc
  | some op => exact (hself.before _).run_advance (Token.ne_endOfInput rfl hop) hc

theorem coincide_unary (h : Coincide n inner inner') (hshrinks : Shrinks inner') (hf : n ≤ f)
    (hf' : n ≤ f') : Coincide (n + 1) (unary inner f) (unary inner' f') := by
  induction n generalizing f f' with
  | zero => exact .one fun p => by cases f <;> cases f' <;> rfl
  | succ n ih =>
    obtain ⟨f, rfl⟩ := Nat.exists_eq_add_of_lt hf
    obtain ⟨f', rfl⟩ := Nat.exists_eq_add_of_lt hf'
    exact coincide_unaryCall h hshrinks (ih (h.mono (Nat.le_succ n)) (Nat.le_add_right _ _)
      (Nat.le_add_right _ _))

theorem coincide_chainCall {operand operand' : Parser Expr} {self self' : Expr → Parser Expr}
    (h : Coincide n operand operand') (hshrinks : Shrinks operand')
    (hself : ∀ left, Coincide n (self left) (self' left)) :
    Coincide (n + 1) (chainCall operand level start self left)
      (chainCall operand' level start self' left) := by
  refine behind_token fun c hc => ?_
  cases hop : c.token.operator? level with
  | none => rfl
  | some op =>
    refine Coincide.run_advance ?_ (Token.ne_endOfInput rfl hop) hc
    exact h.bind hshrinks fun right => behind (shrinks_spanFrom start) fun _ => hself _

theorem coincide_chain {operand operand' : Parser Expr} (h : Coincide n operand operand')
    (hshrinks : Shrinks operand') (hf : n ≤ f) (hf' : n ≤ f') (left : Expr) :
    Coincide (n + 1) (chain operand level start f left)
      (chain operand' level start f' left) := by
  induction n generalizing f f' left with
  | zero =>
    refine .one fun p => ?_
    cases f <;> cases f' <;> rfl
  | succ n ih =>
    obtain ⟨f, rfl⟩ := Nat.exists_eq_add_of_lt hf
    obtain ⟨f', rfl⟩ := Nat.exists_eq_add_of_lt hf'
    exact coincide_chainCall h hshrinks (ih (h.mono (Nat.le_succ n)) (Nat.le_add_right _ _)
      (Nat.le_add_right _ _))

theorem coincide_upTo (h : Coincide n inner inner') (hsound : Sound inner' 7) (hf : n ≤ f)
    (hf' : n ≤ f') (level : Nat) :
    Coincide (n + 1) (upTo f inner level) (upTo f' inner' level) := by
  induction level with
  | zero => exact coincide_unary h hsound.progresses.shrinks hf hf'
  | succ level ih =>
    have hshrinks := (sound_upTo hsound f' level).progresses.shrinks
    refine behind shrinks_here fun start => ih.bind hshrinks fun left => ?_
    exact coincide_chain (ih.mono (Nat.le_succ n)) hshrinks hf hf' left

theorem run_upTo_nil (p : Span) : (upTo f inner level).run ⟨[], p⟩ =
    .error ((⟨[], p⟩ : Cursor).missing .expression) := by
  induction level with
  | zero => cases f <;> rfl
  | succ level ih =>
    change (upTo f inner level >>= _).run _ = _
    rw [run_bind, ih]

theorem run_expression_nil (b : Nat) (p : Span) : (expression b).run ⟨[], p⟩ =
    .error ((⟨[], p⟩ : Cursor).missing .expression) := by
  cases b with
  | zero => rfl
  | succ b => exact run_upTo_nil p

theorem coincide_expression (hb : n ≤ b + 1) (hb' : n ≤ b' + 1) :
    Coincide n (expression b) (expression b') := by
  induction n generalizing b b' with
  | zero => exact .zero _ _
  | succ n ih =>
    cases n with
    | zero => exact .one fun p => by rw [run_expression_nil, run_expression_nil]
    | succ n =>
      obtain ⟨b, rfl⟩ := Nat.exists_eq_add_of_lt (Nat.le_of_succ_le_succ hb)
      obtain ⟨b', rfl⟩ := Nat.exists_eq_add_of_lt (Nat.le_of_succ_le_succ hb')
      exact coincide_upTo (ih (by omega) (by omega)) (sound_expression _) (by omega) (by omega) 7

end Expressions

/-! ### Statements -/

theorem coincide_simple (hb : n ≤ b + 1) (hb' : n ≤ b' + 1) :
    Coincide n (simple b) (simple b') := by
  have hexpr := coincide_expression hb hb'
  refine behind shrinks_get fun c => ?_
  split
  · refine behind shrinks_here fun start => behind progresses_identifier.shrinks fun x => ?_
    refine behind (shrinks_spanFrom start) fun nameSpan => ?_
    refine behind (progresses_expect Token.noConfusion).shrinks fun _ => ?_
    refine behind shrinks_token fun t => ?_
    split
    · exact .refl n _
    · exact hexpr.before _
  · exact hexpr.before _

theorem coincide_simpleUnless (close : Token) (hb : n ≤ b + 1) (hb' : n ≤ b' + 1) :
    Coincide n (simpleUnless close b) (simpleUnless close b') := by
  refine behind shrinks_token fun t => ?_
  split
  · exact .refl n _
  · exact (coincide_simple hb hb').before _

theorem coincide_printStatement (hb : n ≤ b + 1) (hb' : n ≤ b' + 1) :
    Coincide (n + 1) (printStatement b) (printStatement b') :=
  behind shrinks_here fun _ => behind_expect Token.noConfusion
    ((coincide_expression hb hb').before _)

theorem coincide_declaration (hb : n ≤ b + 1) (hb' : n ≤ b' + 1) :
    Coincide (n + 1) (declaration b) (declaration b') := by
  refine behind shrinks_here fun start => behind_expect Token.noConfusion ?_
  refine behind progresses_identifier.shrinks fun x => behind shrinks_token fun t => ?_
  split
  · simp only [map_eq_pure_bind, bind_assoc]
    exact behind shrinks_advance fun _ => (coincide_expression hb hb').before _
  · exact .refl n _

theorem coincide_simpleStatement (hb : n ≤ b + 1) (hb' : n ≤ b' + 1) :
    Coincide n (simpleStatement b) (simpleStatement b') :=
  behind shrinks_here fun _ => (coincide_simple hb hb').before _

def manyCall (item : Parser α) (stop : List Token) (self : Parser (List α)) :
    Parser (List α) := do
  if (← token) ∈ stop then return []
  else
    let first ← item
    return first :: (← self)

theorem coincide_manyCall {item item' : Parser α} {self self' : Parser (List α)} (stop : List Token)
    (h : Coincide (n + 1) item item') (hprogress : Progresses item')
    (hself : Coincide n self self') :
    Coincide (n + 1) (manyCall item stop self) (manyCall item' stop self') := by
  refine behind shrinks_token fun t => ?_
  split
  · exact .refl _ _
  · exact h.bind_progress hprogress fun first => hself.before _

theorem coincide_many {item item' : Parser α} {stop : List Token} (hstop : .endOfInput ∈ stop)
    (h : Coincide n item item') (hprogress : Progresses item') {f f' : Nat} (hf : n ≤ f + 1)
    (hf' : n ≤ f' + 1) : Coincide n (many item stop f) (many item' stop f') := by
  induction n generalizing f f' with
  | zero => exact .zero _ _
  | succ n ih =>
    cases n with
    | zero => exact .one fun p => by rw [run_many_of_mem hstop, run_many_of_mem hstop]
    | succ n =>
      obtain ⟨f, rfl⟩ := Nat.exists_eq_add_of_lt (Nat.le_of_succ_le_succ hf)
      obtain ⟨f', rfl⟩ := Nat.exists_eq_add_of_lt (Nat.le_of_succ_le_succ hf')
      exact coincide_manyCall stop h hprogress (ih (h.mono (Nat.le_succ _)) (by omega) (by omega))

section Statements

variable {self self' : Parser Stmt} {body body' : Parser (List Stmt)}

def blockCall (body : Parser (List Stmt)) : Parser Stmt := do
  let start ← here
  expect .leftBrace
  let statements ← body
  expect .rightBrace
  return .block (← spanFrom start) statements

/-- A call of the procedure for statements, which calls itself as `self`. In it an expression may
go as deep as the bound allows. -/
def statementCall (self : Parser Stmt) (body : Parser (List Stmt)) (bound : Nat) :
    Parser Stmt := do
  match ← token with
  | .leftBrace => blockCall body
  | .ifWord => conditional self bound
  | .whileWord => whileLoop self bound
  | .forWord => forLoop self bound
  | .printWord => printStatement bound
  | .varWord => declaration bound
  | _ => simpleStatement bound

theorem coincide_blockCall (hbody : Coincide n body body') :
    Coincide (n + 1) (blockCall body) (blockCall body') :=
  behind shrinks_here fun _ => behind_expect Token.noConfusion (hbody.before _)

section Parts

variable (h : Coincide n self self') (hb : n ≤ b + 1) (hb' : n ≤ b' + 1)
include h hb hb'

theorem coincide_conditional (hshrinks : Shrinks self') :
    Coincide (n + 1) (conditional self b) (conditional self' b') := by
  have hcondition := coincide_parenthesized (coincide_expression hb hb')
    (progresses_expression b').shrinks
  refine behind shrinks_here fun start => behind_expect Token.noConfusion ?_
  refine (hcondition.mono (Nat.le_succ n)).bind (progresses_expression b').shrinks.parenthesized
    fun e => h.bind hshrinks fun s => behind shrinks_token fun t => ?_
  split
  · exact behind shrinks_advance fun _ => h.before _
  · exact .refl n _

theorem coincide_whileLoop : Coincide (n + 1) (whileLoop self b) (whileLoop self' b') := by
  have hcondition := coincide_parenthesized (coincide_expression hb hb')
    (progresses_expression b').shrinks
  refine behind shrinks_here fun start => behind_expect Token.noConfusion ?_
  exact (hcondition.mono (Nat.le_succ n)).bind (progresses_expression b').shrinks.parenthesized
    fun e => h.before _

theorem coincide_forLoop : Coincide (n + 1) (forLoop self b) (forLoop self' b') := by
  have hsimple := fun close => coincide_simpleUnless close hb hb'
  have hexpect : ∀ t : Token, t ≠ .endOfInput → Shrinks (expect t) :=
    fun t ht => (progresses_expect ht).shrinks
  refine behind shrinks_here fun start => behind_expect Token.noConfusion ?_
  refine behind (hexpect .leftParen nofun) fun _ => ?_
  refine (hsimple .semicolon).bind (shrinks_simpleUnless _ _) fun i => ?_
  refine behind (hexpect .semicolon nofun) fun _ => behind shrinks_token fun t => ?_
  split
  · exact fun _ _ => rfl
  · refine (coincide_expression hb hb').bind (progresses_expression b').shrinks fun e => ?_
    refine behind (hexpect .semicolon nofun) fun _ => ?_
    refine (hsimple .rightParen).bind (shrinks_simpleUnless _ _) fun u => ?_
    exact behind (hexpect .rightParen nofun) fun _ => h.before _

end Parts

theorem coincide_statementCall (h : Coincide n self self') (hshrinks : Shrinks self')
    (hbody : Coincide n body body') (hb : n ≤ b) (hb' : n ≤ b') :
    Coincide (n + 1) (statementCall self body b) (statementCall self' body' b') := by
  have hle : n ≤ b + 1 := Nat.le_succ_of_le hb
  have hle' : n ≤ b' + 1 := Nat.le_succ_of_le hb'
  refine behind shrinks_token fun t => ?_
  cases t
  case leftBrace => exact coincide_blockCall hbody
  case ifWord => exact coincide_conditional h hle hle' hshrinks
  case whileWord => exact coincide_whileLoop h hle hle'
  case forWord => exact coincide_forLoop h hle hle'
  case printWord => exact coincide_printStatement hle hle'
  case varWord => exact coincide_declaration hle hle'
  all_goals exact coincide_simpleStatement (Nat.succ_le_succ hb) (Nat.succ_le_succ hb')

/-- A statement with one level more is a call of that procedure. -/
theorem coincide_statement_succ (b : Nat) : Coincide (b + 2) (statement (b + 1))
    (statementCall (statement b) (many (statement b) [.rightBrace, .endOfInput] b) (b + 1)) := by
  have hself := Coincide.refl (b + 1) (statement b)
  have hle : b + 1 ≤ b + 1 + 1 := Nat.le_succ _
  refine behind shrinks_token fun t => ?_
  cases t
  case ifWord =>
    exact coincide_conditional hself (Nat.le_refl _) hle (progresses_statement b).shrinks
  case whileWord => exact coincide_whileLoop hself (Nat.le_refl _) hle
  case forWord => exact coincide_forLoop hself (Nat.le_refl _) hle
  case printWord => exact coincide_printStatement (Nat.le_refl _) hle
  case varWord => exact coincide_declaration (Nat.le_refl _) hle
  all_goals exact .refl _ _

theorem run_simple_nil (b : Nat) (p : Span) : (simple b).run ⟨[], p⟩ =
    .error ((⟨[], p⟩ : Cursor).missing .expression) := by
  have hexpr : (simple b).run ⟨[], p⟩ =
      (do return Simple.expr (← expression b) : Parser Simple).run ⟨[], p⟩ := rfl
  rw [hexpr, run_bind, run_expression_nil]

theorem run_statement_nil (b : Nat) (p : Span) : (statement b).run ⟨[], p⟩ =
    .error ((⟨[], p⟩ : Cursor).missing .expression) := by
  cases b with
  | zero => rfl
  | succ b =>
    have hsimple : (statement (b + 1)).run ⟨[], p⟩ = (simpleStatement (b + 1)).run ⟨[], p⟩ := rfl
    simp only [hsimple, simpleStatement, run_bind, run_here, run_simple_nil]

theorem coincide_statement (hb : n ≤ b + 1) (hb' : n ≤ b' + 1) :
    Coincide n (statement b) (statement b') := by
  induction n generalizing b b' with
  | zero => exact .zero _ _
  | succ n ih =>
    cases n with
    | zero => exact .one fun p => by rw [run_statement_nil, run_statement_nil]
    | succ n =>
      obtain ⟨b, rfl⟩ := Nat.exists_eq_add_of_lt (Nat.le_of_succ_le_succ hb)
      obtain ⟨b', rfl⟩ := Nat.exists_eq_add_of_lt (Nat.le_of_succ_le_succ hb')
      have hle : n + 1 ≤ n + b + 1 := by omega
      have hle' : n + 1 ≤ n + b' + 1 := by omega
      have hself := ih hle hle'
      have hstop : Token.endOfInput ∈ [Token.rightBrace, .endOfInput] := by simp
      have hbody := coincide_many hstop hself (progresses_statement _) hle hle'
      have hcall := coincide_statementCall hself (progresses_statement _).shrinks hbody hle hle'
      have hstep := (coincide_statement_succ (n + b)).mono (Nat.succ_le_succ hle)
      have hstep' := (coincide_statement_succ (n + b')).mono (Nat.succ_le_succ hle')
      exact hstep.trans (hcall.trans hstep'.symm)

end Statements

end Parser

end TeachLang
