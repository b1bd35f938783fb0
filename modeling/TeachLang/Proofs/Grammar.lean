import TeachLang.Program
import TeachLang.Token.Lexer

/-!
# The grammar

Which token lists spell an expression, a simple statement, a statement or a program, and which one.
The binary operators of a level take operands of the level below on their right, so those of one
level group from the left; level 0 is that of the unary operators and 7 that of all expressions.

A statement is dangling if it could be continued by an `else`. The grammar leaves open which `if`
an `else` belongs to; with `nearest` it belongs to the nearest one, as an `else` then never stands
behind a dangling statement.
-/

namespace TeachLang

/-- The span of the last of some tokens that follow a token with the span `previous`. -/
def lastSpan (previous : Span) (ts : List Located) : Span := ts.foldl (fun _ l => l.span) previous

def extent : List Located → Span
  | [] => {}
  | l :: ts => l.span.through (lastSpan l.span ts)

def operators : Nat → List (Token × BinaryOperator)
  | 1 => [(.times, .arithmetic .mul), (.divide, .arithmetic .div), (.modulo, .arithmetic .mod)]
  | 2 => [(.plus, .arithmetic .add), (.minus, .arithmetic .sub)]
  | 3 => [(.less, .logic .less), (.greater, .logic .greater), (.lessEqual, .logic .lessEqual),
      (.greaterEqual, .logic .greaterEqual)]
  | 4 => [(.equal, .logic .equal), (.notEqual, .logic .notEqual)]
  | 5 => [(.xor, .logic .xor)]
  | 6 => [(.and, .logic .and)]
  | 7 => [(.or, .logic .or)]
  | _ => []

def unaryOperators : List (Token × UnaryOperator) :=
  [(.minus, .negate), (.plus, .identity), (.not, .not)]

inductive Expr.Spelled : Nat → List Located → Expr → Prop
  | number (p : Span) (value : Int64) : Spelled 0 [⟨.number value, p⟩] (.literal p value)
  | name (p : Span) (x : String) : Spelled 0 [⟨.ident x, p⟩] (.reference p x)
  | parens {ts : List Located} {e : Expr} (p q : Span) (h : Spelled 7 ts e) :
      Spelled 0 (⟨.leftParen, p⟩ :: ts ++ [⟨.rightParen, q⟩]) e
  | unary {ts : List Located} {e : Expr} {t : Token} {op : UnaryOperator} (p : Span)
      (ht : (t, op) ∈ unaryOperators) (h : Spelled 0 ts e) :
      Spelled 0 (⟨t, p⟩ :: ts) (.unary (p.through (extent ts)) op e)
  | operand {n : Nat} {ts : List Located} {e : Expr} (h : Spelled n ts e) : Spelled (n + 1) ts e
  | binary {n : Nat} {ts us : List Located} {a b : Expr} {t : Token} {op : BinaryOperator}
      (p : Span) (ha : Spelled (n + 1) ts a) (ht : (t, op) ∈ operators (n + 1))
      (hb : Spelled n us b) :
      Spelled (n + 1) (ts ++ ⟨t, p⟩ :: us) (.binary ((extent ts).through (extent us)) op a b)

inductive Simple.Spelled : List Located → Simple → Prop
  | input (p q r : Span) (x : String) :
      Spelled [⟨.ident x, p⟩, ⟨.assign, q⟩, ⟨.question, r⟩] (.input (p.through r) p x)
  | assign {ts : List Located} {e : Expr} (p q : Span) (x : String) (h : e.Spelled 7 ts) :
      Spelled (⟨.ident x, p⟩ :: ⟨.assign, q⟩ :: ts) (.assign (p.through (extent ts)) p x e)
  | expr {ts : List Located} {e : Expr} (h : e.Spelled 7 ts) : Spelled ts (.expr e)

inductive Simple.OptionSpelled : List Located → Option Simple → Prop
  | none : OptionSpelled [] none
  | some {ts : List Located} {s : Simple} (h : s.Spelled ts) : OptionSpelled ts (some s)

mutual

/-- The second argument tells whether the statement is dangling. -/
inductive Stmt.Spelled (nearest : Bool) : Bool → List Located → Stmt → Prop
  | block {ts : List Located} {ss : List Stmt} (p q : Span) (h : Stmt.AllSpelled nearest ts ss) :
      Spelled nearest false (⟨.leftBrace, p⟩ :: ts ++ [⟨.rightBrace, q⟩]) (.block (p.through q) ss)
  | ifThen {cs ts : List Located} {c : Expr} {d : Bool} {s : Stmt} (p q r : Span)
      (hc : c.Spelled 7 cs) (hs : Stmt.Spelled nearest d ts s) :
      Spelled nearest true (⟨.ifWord, p⟩ :: ⟨.leftParen, q⟩ :: cs ++ [⟨.rightParen, r⟩] ++ ts)
        (.ifThen (p.through (extent ts)) c s)
  | ifElse {cs ts us : List Located} {c : Expr} {d d' : Bool} {s s' : Stmt} (p q r e : Span)
      (hc : c.Spelled 7 cs) (hs : Stmt.Spelled nearest d ts s) (hd : nearest = true → d = false)
      (hs' : Stmt.Spelled nearest d' us s') :
      Spelled nearest d'
        (⟨.ifWord, p⟩ :: ⟨.leftParen, q⟩ :: cs ++ [⟨.rightParen, r⟩] ++ ts ++ ⟨.elseWord, e⟩ :: us)
        (.ifElse (p.through (extent us)) c s s')
  | whileLoop {cs ts : List Located} {c : Expr} {d : Bool} {s : Stmt} (p q r : Span)
      (hc : c.Spelled 7 cs) (hs : Stmt.Spelled nearest d ts s) :
      Spelled nearest d (⟨.whileWord, p⟩ :: ⟨.leftParen, q⟩ :: cs ++ [⟨.rightParen, r⟩] ++ ts)
        (.whileLoop (p.through (extent ts)) c s.asBody.1 s.asBody.2)
  | forLoop {is cs us ts : List Located} {i u : Option Simple} {c : Expr} {d : Bool} {s : Stmt}
      (p q r r' q' : Span) (hi : Simple.OptionSpelled is i) (hc : c.Spelled 7 cs)
      (hu : Simple.OptionSpelled us u) (hs : Stmt.Spelled nearest d ts s) :
      Spelled nearest d
        (⟨.forWord, p⟩ :: ⟨.leftParen, q⟩ :: is ++ ⟨.semicolon, r⟩ :: cs ++
          ⟨.semicolon, r'⟩ :: us ++ ⟨.rightParen, q'⟩ :: ts)
        (.forLoop (p.through (extent ts)) i c u s.asBody.1 s.asBody.2)
  | print {ts : List Located} {e : Expr} (p q : Span) (h : e.Spelled 7 ts) :
      Spelled nearest false (⟨.printWord, p⟩ :: ts ++ [⟨.semicolon, q⟩]) (.print (p.through q) e)
  | declare (p q r : Span) (x : String) :
      Spelled nearest false [⟨.varWord, p⟩, ⟨.ident x, q⟩, ⟨.semicolon, r⟩]
        (.declare (p.through r) x none)
  | declareAs {ts : List Located} {e : Expr} (p q q' r : Span) (x : String) (h : e.Spelled 7 ts) :
      Spelled nearest false
        (⟨.varWord, p⟩ :: ⟨.ident x, q⟩ :: ⟨.assign, q'⟩ :: ts ++ [⟨.semicolon, r⟩])
        (.declare (p.through r) x (some e))
  | simple {ts : List Located} {s : Simple} (q : Span) (h : s.Spelled ts) :
      Spelled nearest false (ts ++ [⟨.semicolon, q⟩]) (.simple ((extent ts).through q) s)

inductive Stmt.AllSpelled (nearest : Bool) : List Located → List Stmt → Prop
  | nil : AllSpelled nearest [] []
  | cons {ts us : List Located} {d : Bool} {s : Stmt} {ss : List Stmt}
      (hs : Stmt.Spelled nearest d ts s) (hss : Stmt.AllSpelled nearest us ss) :
      AllSpelled nearest (ts ++ us) (s :: ss)

end

def uptoEnd (tokens : List Located) : List Located := tokens.takeWhile (·.token ≠ .endOfInput)

structure Program.Spelled (nearest : Bool) (tokens : List Located) (p : Program) : Prop where
  statements : Stmt.AllSpelled nearest (uptoEnd tokens) p.statements
  span_eq : p.span =
    ((tokens.head?.map Located.span).getD {}).through (lastSpan {} (uptoEnd tokens))

namespace Token

def opensExpression : Token → Bool
  | ident _ | number _ | leftParen | minus | plus | not => true
  | _ => false

def opensStatement : Token → Bool
  | leftBrace | ifWord | whileWord | forWord | printWord | varWord => true
  | t => t.opensExpression

theorem ne_of_mem_operators {n : Nat} {t : Token} {op : BinaryOperator}
    (h : (t, op) ∈ operators n) : t ≠ assign ∧ t ≠ endOfInput := by
  unfold operators at h
  split at h <;> simp only [List.mem_cons, List.not_mem_nil, Prod.mk.injEq, or_false] at h
  all_goals
    constructor <;> rintro rfl <;> simp at h

theorem opens_of_mem_unaryOperators {t : Token} {op : UnaryOperator}
    (h : (t, op) ∈ unaryOperators) : t.opensExpression = true := by
  simp only [unaryOperators, List.mem_cons, List.not_mem_nil, Prod.mk.injEq, or_false] at h
  rcases h with ⟨rfl, rfl⟩ | ⟨rfl, rfl⟩ | ⟨rfl, rfl⟩ <;> rfl

end Token

def Opens (P : Token → Bool) (ts : List Located) : Prop := ∃ l us, ts = l :: us ∧ P l.token = true

theorem Opens.append {P : Token → Bool} {ts : List Located} (h : Opens P ts) (us : List Located) :
    Opens P (ts ++ us) := by
  obtain ⟨l, vs, rfl, hl⟩ := h
  exact ⟨l, vs ++ us, rfl, hl⟩

theorem Opens.ne_nil {P : Token → Bool} {ts : List Located} (h : Opens P ts) : ts ≠ [] := by
  obtain ⟨l, us, rfl, _⟩ := h
  exact List.cons_ne_nil l us

def EndFree (ts : List Located) : Prop := ∀ l ∈ ts, l.token ≠ .endOfInput

@[simp] theorem endFree_nil : EndFree [] := fun _ h => by cases h

@[simp] theorem endFree_cons {l : Located} {ts : List Located} :
    EndFree (l :: ts) ↔ l.token ≠ .endOfInput ∧ EndFree ts :=
  List.forall_mem_cons

@[simp] theorem endFree_append {ts us : List Located} :
    EndFree (ts ++ us) ↔ EndFree ts ∧ EndFree us :=
  List.forall_mem_append

namespace Expr.Spelled

variable {n : Nat} {ts : List Located} {e : Expr}

theorem opens (h : Spelled n ts e) : Opens Token.opensExpression ts := by
  induction h with
  | number p value => exact ⟨_, _, rfl, rfl⟩
  | name p x => exact ⟨_, _, rfl, rfl⟩
  | parens p q h ih => exact ⟨_, _, rfl, rfl⟩
  | unary p ht h ih => exact ⟨_, _, rfl, Token.opens_of_mem_unaryOperators ht⟩
  | operand h ih => exact ih
  | binary p ha ht hb iha ihb => exact iha.append _

theorem token_ne (h : Spelled n ts e) : ∀ l ∈ ts, l.token ≠ .assign ∧ l.token ≠ .endOfInput := by
  induction h with
  | number p value => simp
  | name p x => simp
  | parens p q h ih =>
    intro l hl
    simp only [List.cons_append, List.mem_cons, List.mem_append, List.not_mem_nil, or_false] at hl
    rcases hl with rfl | hl | rfl
    · simp
    · exact ih l hl
    · simp
  | unary p ht h ih =>
    intro l hl
    rcases List.mem_cons.1 hl with rfl | hl
    · have hopens := Token.opens_of_mem_unaryOperators ht
      constructor <;> rintro rfl <;> cases hopens
    · exact ih l hl
  | operand h ih => exact ih
  | binary p ha ht hb iha ihb =>
    intro l hl
    rcases List.mem_append.1 hl with hl | hl
    · exact iha l hl
    · rcases List.mem_cons.1 hl with rfl | hl
      · exact Token.ne_of_mem_operators ht
      · exact ihb l hl

theorem endFree (h : Spelled n ts e) : EndFree ts := fun l hl => (h.token_ne l hl).2

/-- An expression of one level is also one of every higher level. -/
theorem raise {m : Nat} (h : Spelled m ts e) (hle : m ≤ n) : Spelled n ts e := by
  induction hle with
  | refl => exact h
  | step _ ih => exact .operand ih

/-- No level is above the seventh. -/
theorem topmost (h : Spelled n ts e) : Spelled 7 ts e := by
  cases Nat.le_total n 7 with
  | inl hle => exact h.raise hle
  | inr hle =>
    induction hle with
    | refl => exact h
    | @step n hle ih =>
      cases h with
      | operand h => exact ih h
      | binary p ha ht hb =>
        obtain ⟨d, rfl⟩ := Nat.exists_eq_add_of_le' hle
        cases ht

end Expr.Spelled

namespace Simple.Spelled

variable {ts : List Located} {s : Simple}

theorem opens (h : Spelled ts s) : Opens Token.opensExpression ts := by
  cases h with
  | input p q r x => exact ⟨_, _, rfl, rfl⟩
  | assign p q x h => exact ⟨_, _, rfl, rfl⟩
  | expr h => exact h.opens

theorem endFree (h : Spelled ts s) : EndFree ts := by
  cases h with
  | input p q r x => simp
  | assign p q x h =>
    have hvalue := h.endFree
    simpa using hvalue
  | expr h => exact h.endFree

end Simple.Spelled

theorem Simple.OptionSpelled.endFree {ts : List Located} {o : Option Simple}
    (h : OptionSpelled ts o) : EndFree ts := by
  cases h with
  | none => exact endFree_nil
  | some h => exact h.endFree

namespace Stmt

variable {nearest d : Bool} {ts : List Located} {s : Stmt} {ss : List Stmt}

theorem AllSpelled.append {us : List Located} {ss' : List Stmt} :
    ∀ {ts : List Located} {ss : List Stmt}, AllSpelled nearest ts ss →
      AllSpelled nearest us ss' → AllSpelled nearest (ts ++ us) (ss ++ ss')
  | _, _, .nil, h' => h'
  | _, _, .cons hs hss, h' => by
    rw [List.append_assoc]
    exact .cons hs (hss.append h')

theorem Spelled.opens (h : Spelled nearest d ts s) : Opens Token.opensStatement ts := by
  cases h with
  | simple q h =>
    obtain ⟨l, us, rfl, hl⟩ := h.opens
    refine Opens.append ⟨l, us, rfl, ?_⟩ _
    unfold Token.opensStatement
    split <;> first | rfl | exact hl
  | _ => exact ⟨_, _, rfl, rfl⟩

mutual

theorem Spelled.endFree {d : Bool} {ts : List Located} {s : Stmt} :
    Spelled nearest d ts s → EndFree ts
  | .block p q h => by
    have hbody := h.endFree
    simpa using hbody
  | .ifThen p q r hc hs => by
    have hcondition := hc.endFree
    have hthen := hs.endFree
    simp [hcondition, hthen]
  | .ifElse p q r e hc hs _ hs' => by
    have hcondition := hc.endFree
    have hthen := hs.endFree
    have helse := hs'.endFree
    simp [hcondition, hthen, helse]
  | .whileLoop p q r hc hs => by
    have hcondition := hc.endFree
    have hbody := hs.endFree
    simp [hcondition, hbody]
  | .forLoop p q r r' q' hi hc hu hs => by
    have hinit := hi.endFree
    have hcondition := hc.endFree
    have hstep := hu.endFree
    have hbody := hs.endFree
    simp [hinit, hcondition, hstep, hbody]
  | .print p q h => by
    have hvalue := h.endFree
    simpa using hvalue
  | .declare p q r x => by simp
  | .declareAs p q q' r x h => by
    have hvalue := h.endFree
    simpa using hvalue
  | .simple q h => by
    have hstatement := h.endFree
    simpa using hstatement

theorem AllSpelled.endFree {ts : List Located} {ss : List Stmt} :
    AllSpelled nearest ts ss → EndFree ts
  | .nil => endFree_nil
  | .cons hs hss => endFree_append.2 ⟨hs.endFree, hss.endFree⟩

end

end Stmt

end TeachLang
