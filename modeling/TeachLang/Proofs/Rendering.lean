import TeachLang.Proofs.Counterpart
import TeachLang.Proofs.Sequel
import TeachLang.Proofs.Shape
import TeachLang.Proofs.Writing

/-!
# Trees as texts

Every operation is put in parentheses and every loop body in braces, so that nothing of a text can
be taken for a part of what stands beside it. The one exception is an `else`, which is left to the
nearest `if`. A tree that has the shape of a parsed one is read back from its text.
-/

namespace TeachLang

def Form.part (below : NodeId → String) (o : Option NodeId) : String := (o.map below).getD ""

def Form.lines (below : NodeId → String) : List NodeId → String
  | [] => ""
  | k :: ks => below k ++ "\n" ++ lines below ks

def Form.source (below : NodeId → String) : Form → String
  | arithmetic op l r => "(" ++ part below l ++ " " ++ op.symbol ++ " " ++ part below r ++ ")"
  | logic op l r => "(" ++ part below l ++ " " ++ op.symbol ++ " " ++ part below r ++ ")"
  | unary op e => "(" ++ op.symbol ++ part below e ++ ")"
  | scope ks => "\x7b\n" ++ lines below ks ++ "\x7d"
  | literal v => Text.integerText v
  | print e => "print " ++ part below e ++ ";"
  | assign x e => part below x ++ " = " ++ part below e
  | reference x => x
  | declaration x none => "var " ++ x ++ ";"
  | declaration x (some e) => "var " ++ x ++ " = " ++ below e ++ ";"
  | expression e => part below e ++ ";"
  | ifElse c a none => "if (" ++ part below c ++ ") " ++ part below a
  | ifElse c a (some b) => "if (" ++ part below c ++ ") " ++ part below a ++ " else " ++ below b
  | whileLoop c b => "while (" ++ part below c ++ ") " ++ part below b
  | forLoop i c u b =>
    "for (" ++ part below i ++ "; " ++ part below c ++ "; " ++ part below u ++ ") " ++ part below b
  | input x => part below x ++ " = ?"

namespace Tree

def sourceWithin (t : Tree) : Nat → NodeId → String
  | 0, _ => ""
  | bound + 1, id => ((t.get? id).map fun n => n.form.source (t.sourceWithin bound)).getD ""

/-- The text of a tree. The statements of the root have no braces around them. -/
def source (t : Tree) : String :=
  match (t.root.bind t.get?).map Node.form with
  | some (.scope ks) => Form.lines (t.sourceWithin t.size) ks
  | _ => ""

end Tree

open Lexer

/-! ### Edges -/

theorem edge_space (cs : List Char) : Edge (" ".toList ++ cs) := edge_blank (by decide) cs

theorem edge_paren (cs : List Char) : Edge (")".toList ++ cs) :=
  edge_cons (by decide) (by decide) (by decide) cs

theorem edge_semicolon (cs : List Char) : Edge (";".toList ++ cs) :=
  edge_cons (by decide) (by decide) (by decide) cs

theorem edge_newline (cs : List Char) : Edge ("\n".toList ++ cs) := edge_blank (by decide) cs

namespace Lexer.Writes

variable {cs : List Char} {ls : List Located}

theorem space (h : Writes cs ls) : Writes (" ".toList ++ cs) ls := .blank (by decide) h

theorem newline (h : Writes cs ls) : Writes ("\n".toList ++ cs) ls := .blank (by decide) h

/-- A word with a space behind it. -/
theorem spaced {t : Token} {s : String} (ht : t.lexeme = some s) (h : Writes cs ls) :
    Writes (s.toList ++ (" ".toList ++ cs)) (⟨t, {}⟩ :: ls) :=
  .lexeme ht ((edge_space cs).head t) h.space

theorem closed (h : Writes cs ls) : Writes (cs ++ ")".toList) (ls ++ [⟨.rightParen, {}⟩]) :=
  h.append (edge_paren []) (.last (.lexeme rfl))

theorem ended (h : Writes cs ls) : Writes (cs ++ ";".toList) (ls ++ [⟨.semicolon, {}⟩]) :=
  h.append (edge_semicolon []) (.last (.lexeme rfl))

/-- A word, what stands in parentheses behind it, and the rest. -/
theorem parens {ds : List Char} {us : List Located} {t : Token} {s : String}
    (ht : t.lexeme = some s) (h : Writes cs ls) (h' : Writes ds us) :
    Writes (s.toList ++ (" ".toList ++ ("(".toList ++ (cs ++ (")".toList ++ (" ".toList ++ ds))))))
      (⟨t, {}⟩ :: ⟨.leftParen, {}⟩ :: (ls ++ ⟨.rightParen, {}⟩ :: us)) :=
  have hrest := h.append (edge_paren _) (h'.spaced rfl)
  .spaced ht (.lexeme rfl (fun _ _ => rfl) hrest)

end Lexer.Writes

/-! ### Reading a node back from its text -/

theorem IsName.spells {x : String} (h : IsName x) : (Token.ident x).Spells x.toList := by
  obtain ⟨c, cs, rfl, hc, hcs, hk⟩ := h
  rw [String.toList_ofList]
  exact .name hc hcs hk

/-- No spelling of a token that opens an expression begins as an assignment does. -/
theorem Token.Spells.ne_assign {t : Token} {word : List Char} (h : t.Spells ('=' :: word))
    (ht : t.opensExpression = true) : False := by
  cases h with
  | name hc => cases hc
  | number hne hdigits => cases hdigits '=' List.mem_cons_self
  | lexeme h =>
    obtain ⟨s, hs, hlist⟩ := Token.exists_lexeme h
    cases t <;> cases ht <;> cases hs <;> simp at hlist

theorem spells_integerText {v : Int64} (hv : 0 ≤ v) :
    (Token.number v).Spells (Text.integerText v).toList := by
  have hpos : 0 ≤ v.toInt := by simpa using Int64.le_iff_toInt_le.1 hv
  rw [Text.integerText, String.toList_ofList, Text.integerChars, if_neg (Int.not_lt.2 hpos)]
  refine .number ?_ (fun d hd => Text.isDigit_of_mem_toDigits hd) ?_
  · exact List.ne_nil_of_length_pos Nat.length_toDigits_pos
  · rw [Text.digitsValue, Nat.ofDigitChars_ten_toDigits, Int.natAbs_of_nonneg hpos,
      Text.word?_toInt]

namespace UnaryOperator

def token : UnaryOperator → Token
  | negate => .minus
  | identity => .plus
  | not => .not

variable (op : UnaryOperator)

theorem mem_unaryOperators : (op.token, op) ∈ unaryOperators := by cases op <;> decide

theorem lexeme_token : op.token.lexeme = some op.symbol := by cases op <;> rfl

theorem joins_token {d : Char} (hd : d ≠ '=') : op.token.joins d = false := by
  cases op with
  | not => exact decide_eq_false hd
  | _ => rfl

end UnaryOperator

namespace BinaryOperator

def token : BinaryOperator → Token
  | arithmetic .add => .plus
  | arithmetic .sub => .minus
  | arithmetic .mul => .times
  | arithmetic .div => .divide
  | arithmetic .mod => .modulo
  | logic .greater => .greater
  | logic .less => .less
  | logic .greaterEqual => .greaterEqual
  | logic .lessEqual => .lessEqual
  | logic .equal => .equal
  | logic .notEqual => .notEqual
  | logic .and => .and
  | logic .or => .or
  | logic .xor => .xor

def symbol : BinaryOperator → String
  | arithmetic op => op.symbol
  | logic op => op.symbol

variable (op : BinaryOperator)

theorem level_bounds : 1 ≤ op.level ∧ op.level ≤ 7 := by
  rcases op with op | op <;> cases op <;> decide

theorem mem_operators : (op.token, op) ∈ operators op.level := by
  rcases op with op | op <;> cases op <;> decide

theorem lexeme_token : op.token.lexeme = some op.symbol := by
  rcases op with op | op <;> cases op <;> rfl

end BinaryOperator

namespace Tree

variable {t : Tree} {k l m : NodeId} {s : Span} {x y z : String}

def ReadsExpr (t : Tree) (k : NodeId) (text : String) : Prop :=
  ∃ (e e' : Expr) (ls : List Located), e.StandsAt t k ∧ e.Alike Span.Any e' ∧ e'.Spelled 0 ls ∧
    Writes text.toList ls

theorem readsExpr_literal {v : Int64} (h : t.Bears k s (.literal v)) (hv : 0 ≤ v) :
    t.ReadsExpr k (Text.integerText v) :=
  ⟨.literal s v, _, _, h, .literal v trivial, .number {} v, .last (spells_integerText hv)⟩

theorem readsExpr_reference (h : t.Bears k s (.reference x)) (hx : IsName x) : t.ReadsExpr k x :=
  ⟨.reference s x, _, _, h, .reference x trivial, .name {} x, .last hx.spells⟩

theorem ReadsExpr.head (h : t.ReadsExpr k x) (cs : List Char) :
    ∀ d ∈ (x.toList ++ cs).head?, d ≠ '=' := by
  obtain ⟨e, e', ls, _, _, hspelled, hw⟩ := h
  obtain ⟨l, us, rfl, hl⟩ := hspelled.opens
  generalize x.toList = ds at hw ⊢
  cases hw with
  | @blank c cs _ hc =>
    rintro d hd rfl
    obtain rfl : c = '=' := Option.mem_some_iff.1 hd
    cases hc
  | @word word cs _ _ hword =>
    obtain ⟨c, word, rfl⟩ := List.exists_cons_of_ne_nil hword.ne_nil
    rintro d hd rfl
    obtain rfl : c = '=' := Option.mem_some_iff.1 hd
    exact hword.ne_assign hl

theorem ReadsExpr.unary {op : UnaryOperator} (h : t.Bears k s (.unary op (some l)))
    (hl : t.ReadsExpr l x) : t.ReadsExpr k ("(" ++ op.symbol ++ x ++ ")") := by
  have hhead := hl.head
  obtain ⟨e, e', ls, hstands, halike, hspelled, hw⟩ := hl
  refine ⟨.unary s op e, _, _, ⟨l, hstands, h⟩, .unary op trivial halike,
    .parens {} {} ((Expr.Spelled.unary {} op.mem_unaryOperators hspelled).raise (Nat.zero_le 7)),
    ?_⟩
  simp only [String.toList_append, List.append_assoc, List.cons_append]
  have hoperand := hw.closed.lexeme op.lexeme_token fun d hd => op.joins_token (hhead _ d hd)
  exact .lexeme rfl (fun _ _ => rfl) hoperand

theorem ReadsExpr.binary {op : BinaryOperator} (h : t.Bears k s (op.form l m))
    (hl : t.ReadsExpr l x) (hm : t.ReadsExpr m y) :
    t.ReadsExpr k ("(" ++ x ++ " " ++ op.symbol ++ " " ++ y ++ ")") := by
  obtain ⟨a, a', ls, ha, halike, hspelled, hw⟩ := hl
  obtain ⟨b, b', us, hb, halike', hspelled', hw'⟩ := hm
  obtain ⟨hpos, hle⟩ := op.level_bounds
  have hmem := op.mem_operators
  obtain ⟨n, hn⟩ := Nat.exists_eq_add_of_le' hpos
  rw [hn] at hmem hle
  refine ⟨.binary s op a b, _, _, ⟨l, ha, m, hb, h⟩, .binary op trivial halike halike',
    .parens {} {} ((Expr.Spelled.binary {} (hspelled.raise (Nat.zero_le _)) hmem
      (hspelled'.raise (Nat.zero_le _))).raise hle), ?_⟩
  simp only [String.toList_append, List.append_assoc, List.cons_append]
  have hright := (hw'.closed.spaced op.lexeme_token).space
  exact .lexeme rfl (fun _ _ => rfl) (hw.append (edge_space _) hright)

def ReadsSimple (t : Tree) (k : NodeId) (text : String) : Prop :=
  ∃ (a a' : Simple) (ls : List Located), a.StandsAt t k ∧ a.Alike Span.Any a' ∧ a'.Spelled ls ∧
    Writes text.toList ls

theorem ReadsExpr.simple (h : t.ReadsExpr k x) : t.ReadsSimple k x := by
  obtain ⟨e, e', ls, hstands, halike, hspelled, hw⟩ := h
  exact ⟨.expr e, .expr e', ls, hstands, .expr halike, .expr (hspelled.raise (Nat.zero_le 7)), hw⟩

theorem ReadsSimple.assign {p : Span} (h : t.Bears k s (.assign (some l) (some m)))
    (hl : t.Bears l p (.reference x)) (hx : IsName x) (hm : t.ReadsExpr m y) :
    t.ReadsSimple k (x ++ " = " ++ y) := by
  obtain ⟨e, e', ls, hstands, halike, hspelled, hw⟩ := hm
  refine ⟨.assign s p x e, _, _, ⟨l, hl, m, hstands, h⟩, .assign x trivial trivial halike,
    .assign {} {} x (hspelled.raise (Nat.zero_le 7)), ?_⟩
  simp only [String.toList_append, List.append_assoc]
  change Writes (x.toList ++ (" ".toList ++ ("=".toList ++ (" ".toList ++ y.toList)))) _
  exact .word hx.spells ((edge_space _).head _) (hw.spaced rfl).space

theorem ReadsSimple.input {p : Span} (h : t.Bears k s (.input (some l)))
    (hl : t.Bears l p (.reference x)) (hx : IsName x) : t.ReadsSimple k (x ++ " = ?") := by
  refine ⟨.input s p x, _, _, ⟨l, hl, h⟩, .input x trivial trivial, .input {} {} {} x, ?_⟩
  simp only [String.toList_append]
  change Writes (x.toList ++ (" ".toList ++ ("=".toList ++ (" ".toList ++ "?".toList)))) _
  have hclose : Writes "?".toList [⟨.question, {}⟩] := .last (.lexeme rfl)
  exact .word hx.spells ((edge_space _).head _) (hclose.spaced rfl).space

def ReadsOptional (t : Tree) (i : Option NodeId) (text : String) : Prop :=
  ∃ (o o' : Option Simple) (ls : List Located), Option.Rel (·.StandsAt t ·) o i ∧
    Option.Rel (Simple.Alike Span.Any) o o' ∧ Simple.OptionSpelled ls o' ∧ Writes text.toList ls

theorem readsOptional_part {below : NodeId → String} {i : Option NodeId}
    (h : ∀ l ∈ i, t.ReadsSimple l (below l)) : t.ReadsOptional i (Form.part below i) := by
  cases i with
  | none => exact ⟨none, none, [], .none, .none, .none, .nil⟩
  | some l =>
    obtain ⟨a, a', ls, hstands, halike, hspelled, hw⟩ := h l rfl
    exact ⟨some a, some a', ls, .some hstands, .some halike, .some hspelled, hw⟩

/-- The text spells a statement that says what the node does, and that is dangling only if the node
is. -/
def ReadsStmt (t : Tree) (k : NodeId) (text : String) : Prop :=
  ∃ (a a' : Stmt) (d : Bool) (ls : List Located), a.StandsAt t k ∧ a.Alike Span.Any a' ∧
    a'.Spelled true d ls ∧ (d = true → t.Dangles k) ∧ Writes text.toList ls

/-- A statement that is not dangling. -/
theorem ReadsStmt.of_closed {a a' : Stmt} {ls : List Located} (hstands : a.StandsAt t k)
    (halike : a.Alike Span.Any a') (hspelled : a'.Spelled true false ls)
    (hw : Writes x.toList ls) : t.ReadsStmt k x :=
  ⟨a, a', false, ls, hstands, halike, hspelled, (absurd · Bool.false_ne_true), hw⟩

def ReadsAll (t : Tree) (ks : List NodeId) (text : String) : Prop :=
  ∃ (ss ss' : List Stmt) (ls : List Located), Stmt.AllStandAt t ss ks ∧
    Stmt.AllAlike Span.Any ss ss' ∧ Stmt.AllSpelled true ls ss' ∧ Writes text.toList ls

theorem readsAll_lines {below : NodeId → String} {ks : List NodeId}
    (h : ∀ l ∈ ks, t.ReadsStmt l (below l)) : t.ReadsAll ks (Form.lines below ks) := by
  induction ks with
  | nil => exact ⟨[], [], [], rfl, .nil, .nil, .nil⟩
  | cons k ks ih =>
    obtain ⟨hk, hks⟩ := List.forall_mem_cons.1 h
    obtain ⟨a, a', d, ls, hstands, halike, hspelled, _, hw⟩ := hk
    obtain ⟨ss, ss', us, hstand, hall, hspelled', hw'⟩ := ih hks
    refine ⟨a :: ss, _, _, ⟨k, hstands, ks, hstand, rfl⟩, .cons halike hall,
      .cons hspelled hspelled', ?_⟩
    simp only [Form.lines, String.toList_append, List.append_assoc]
    exact hw.append (edge_newline _) (.newline hw')

def ReadsBlock (t : Tree) (k : NodeId) (text : String) : Prop :=
  ∃ (p : Span) (ss : List Stmt) (p' : Span) (ss' : List Stmt) (ls : List Located),
    (∃ ks, Stmt.AllStandAt t ss ks ∧ t.Bears k p (.scope ks)) ∧ Stmt.AllAlike Span.Any ss ss' ∧
    (Stmt.block p' ss').Spelled true false ls ∧ Writes text.toList ls

theorem ReadsAll.block {ks : List NodeId} (h : t.Bears k s (.scope ks)) (hks : t.ReadsAll ks x) :
    t.ReadsBlock k ("\x7b\n" ++ x ++ "\x7d") := by
  obtain ⟨ss, ss', ls, hstand, hall, hspelled, hw⟩ := hks
  refine ⟨s, ss, _, ss', _, ⟨ks, hstand, h⟩, hall, .block {} {} hspelled, ?_⟩
  simp only [String.toList_append, List.append_assoc, List.cons_append]
  change Writes ("\x7b".toList ++ ("\n".toList ++ (x.toList ++ "\x7d".toList))) _
  have hclose : Writes "\x7d".toList [⟨.rightBrace, {}⟩] := .last (.lexeme rfl)
  exact .lexeme rfl (fun _ _ => rfl) (.newline (hw.append
    (edge_cons (by decide) (by decide) (by decide) []) hclose))

theorem ReadsBlock.stmt (h : t.ReadsBlock k x) : t.ReadsStmt k x := by
  obtain ⟨p, ss, p', ss', ls, hstand, hall, hspelled, hw⟩ := h
  exact .of_closed (a := .block p ss) hstand (.block trivial hall) hspelled hw

theorem ReadsStmt.ifThen (h : t.Bears k s (.ifElse (some l) (some m) none))
    (hl : t.ReadsExpr l x) (hm : t.ReadsStmt m y) :
    t.ReadsStmt k ("if (" ++ x ++ ") " ++ y) := by
  obtain ⟨c, c', ls, hc, hcAlike, hcSpelled, hw⟩ := hl
  obtain ⟨a, a', d, us, ha, haAlike, haSpelled, _, hw'⟩ := hm
  refine ⟨.ifThen s c a, _, true, _, ⟨l, hc, m, ha, h⟩, .ifThen trivial hcAlike haAlike,
    .ifThen {} {} {} (hcSpelled.raise (Nat.zero_le 7)) haSpelled, fun _ => .ifThen h, ?_⟩
  simp only [String.toList_append, List.append_assoc, List.cons_append, List.nil_append]
  exact hw.parens (t := .ifWord) rfl hw'

theorem ReadsStmt.ifElse {n : NodeId} (h : t.Bears k s (.ifElse (some l) (some m) (some n)))
    (hl : t.ReadsExpr l x) (hm : t.ReadsStmt m y) (hd : ¬t.Dangles m) (hn : t.ReadsStmt n z) :
    t.ReadsStmt k ("if (" ++ x ++ ") " ++ y ++ " else " ++ z) := by
  obtain ⟨c, c', ls, hc, hcAlike, hcSpelled, hw⟩ := hl
  obtain ⟨a, a', d, us, ha, haAlike, haSpelled, hdangles, hw'⟩ := hm
  obtain ⟨b, b', d', vs, hb, hbAlike, hbSpelled, hdangles', hw''⟩ := hn
  have hfalse : d = false := Bool.eq_false_iff.2 fun htrue => hd (hdangles htrue)
  refine ⟨.ifElse s c a b, _, d', _, ⟨l, hc, m, ha, n, hb, h⟩,
    .ifElse trivial hcAlike haAlike hbAlike,
    .ifElse {} {} {} {} (hcSpelled.raise (Nat.zero_le 7)) haSpelled (fun _ => hfalse) hbSpelled,
    fun htrue => .ifElse h (hdangles' htrue), ?_⟩
  simp only [String.toList_append, List.append_assoc, List.cons_append, List.nil_append]
  have helse : Writes (" ".toList ++ ("else".toList ++ (" ".toList ++ z.toList)))
      (⟨.elseWord, {}⟩ :: vs) := (hw''.spaced rfl).space
  exact hw.parens (t := .ifWord) rfl (hw'.append (edge_space _) helse)

theorem ReadsStmt.whileLoop (h : t.Bears k s (.whileLoop (some l) (some m)))
    (hl : t.ReadsExpr l x) (hm : t.ReadsBlock m y) :
    t.ReadsStmt k ("while (" ++ x ++ ") " ++ y) := by
  obtain ⟨c, c', ls, hc, hcAlike, hcSpelled, hw⟩ := hl
  obtain ⟨p, ss, p', ss', us, hstand, hall, hspelled, hw'⟩ := hm
  refine .of_closed (a := .whileLoop s c p ss) ⟨l, hc, m, hstand, h⟩
    (.whileLoop trivial hcAlike trivial hall)
    (.whileLoop {} {} {} (hcSpelled.raise (Nat.zero_le 7)) hspelled) ?_
  simp only [String.toList_append, List.append_assoc, List.cons_append, List.nil_append]
  exact hw.parens (t := .whileWord) rfl hw'

theorem ReadsStmt.forLoop {i u : Option NodeId} {x' : String}
    (h : t.Bears k s (.forLoop i (some l) u (some m))) (hi : t.ReadsOptional i x)
    (hl : t.ReadsExpr l y) (hu : t.ReadsOptional u z) (hm : t.ReadsBlock m x') :
    t.ReadsStmt k ("for (" ++ x ++ "; " ++ y ++ "; " ++ z ++ ") " ++ x') := by
  obtain ⟨i, i', is, hinit, hiAlike, hiSpelled, hwi⟩ := hi
  obtain ⟨c, c', ls, hc, hcAlike, hcSpelled, hw⟩ := hl
  obtain ⟨u, u', us, hstep, huAlike, huSpelled, hwu⟩ := hu
  obtain ⟨p, ss, p', ss', vs, hstand, hall, hspelled, hw'⟩ := hm
  refine .of_closed (a := .forLoop s i c u p ss) ⟨_, hinit, l, hc, _, hstep, m, hstand, h⟩
    (.forLoop trivial hiAlike hcAlike huAlike trivial hall)
    (.forLoop {} {} {} {} {} hiSpelled (hcSpelled.raise (Nat.zero_le 7)) huSpelled hspelled) ?_
  simp only [String.toList_append, List.append_assoc, List.cons_append]
  have hrest : Writes (")".toList ++ (" ".toList ++ x'.toList)) (⟨.rightParen, {}⟩ :: vs) :=
    hw'.spaced rfl
  have hlast : Writes (";".toList ++ (" ".toList ++ (z.toList ++ (")".toList ++ (" ".toList ++
      x'.toList))))) (⟨.semicolon, {}⟩ :: (us ++ ⟨.rightParen, {}⟩ :: vs)) :=
    (hwu.append (edge_paren _) hrest).spaced rfl
  change Writes ("for".toList ++ (" ".toList ++ ("(".toList ++ (x.toList ++ (";".toList ++
    (" ".toList ++ (y.toList ++ _))))))) _
  have hfirst := hwi.append (edge_semicolon _)
    ((hw.append (edge_semicolon _) hlast).spaced (t := .semicolon) rfl)
  exact .spaced rfl (.lexeme rfl (fun _ _ => rfl) hfirst)

theorem ReadsStmt.print (h : t.Bears k s (.print (some l))) (hl : t.ReadsExpr l x) :
    t.ReadsStmt k ("print " ++ x ++ ";") := by
  obtain ⟨e, e', ls, he, halike, hspelled, hw⟩ := hl
  refine .of_closed (a := .print s e) ⟨l, he, h⟩ (.print trivial halike)
    (.print {} {} (hspelled.raise (Nat.zero_le 7))) ?_
  simp only [String.toList_append, List.append_assoc, List.cons_append]
  exact hw.ended.spaced (t := .printWord) rfl

theorem ReadsStmt.declareBare (h : t.Bears k s (.declaration x none)) (hx : IsName x) :
    t.ReadsStmt k ("var " ++ x ++ ";") := by
  refine .of_closed (a := .declare s x none) ⟨none, .none, h⟩ (.declare x trivial .none)
    (.declare {} {} {} x) ?_
  simp only [String.toList_append, List.append_assoc]
  have hclose : Writes ";".toList [⟨.semicolon, {}⟩] := .last (.lexeme rfl)
  change Writes ("var".toList ++ (" ".toList ++ (x.toList ++ ";".toList))) _
  exact .spaced rfl (.word hx.spells ((edge_semicolon []).head _) hclose)

theorem ReadsStmt.declare (h : t.Bears k s (.declaration x (some l))) (hx : IsName x)
    (hl : t.ReadsExpr l y) : t.ReadsStmt k ("var " ++ x ++ " = " ++ y ++ ";") := by
  obtain ⟨e, e', ls, he, halike, hspelled, hw⟩ := hl
  refine .of_closed (a := .declare s x (some e)) ⟨some l, .some he, h⟩
    (.declare x trivial (.some halike))
    (.declareAs {} {} {} {} x (hspelled.raise (Nat.zero_le 7))) ?_
  simp only [String.toList_append, List.append_assoc, List.cons_append]
  change Writes ("var".toList ++ (" ".toList ++ (x.toList ++ (" ".toList ++ ("=".toList ++
    (" ".toList ++ (y.toList ++ ";".toList))))))) _
  have hvalue := (hw.ended.spaced (t := .assign) rfl).space
  exact .spaced rfl (.word hx.spells ((edge_space _).head _) hvalue)

theorem ReadsStmt.expression (h : t.Bears k s (.expression (some l))) (hl : t.ReadsSimple l x) :
    t.ReadsStmt k (x ++ ";") := by
  obtain ⟨a, a', ls, ha, halike, hspelled, hw⟩ := hl
  refine .of_closed (a := .simple s a) ⟨l, ha, h⟩ (.simple trivial halike) (.simple {} hspelled) ?_
  rw [String.toList_append]
  exact hw.ended

end Tree

end TeachLang
