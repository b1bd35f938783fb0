import TeachLang.Proofs.Parsed
import TeachLang.Proofs.Spelling

/-!
# What trees come from a text

Any forms can be put together by hand. A parsed tree has only nodes that are complete, literals that
are not negative, names that are no keywords, and scopes for the bodies of its loops, and no `else`
in it is one that an `if` further in would have taken.
-/

namespace TeachLang

/-- A letter or an underscore, then letters, digits and underscores, and no keyword. -/
def IsName (x : String) : Prop :=
  ∃ c cs, x = String.ofList (c :: cs) ∧ Lexer.isNameStart c = true ∧
    (∀ d ∈ cs, Lexer.isNamePart d = true) ∧ Token.keyword? x = none

namespace Tree

inductive IsExpr (t : Tree) : NodeId → Prop
  | literal {k : NodeId} {s : Span} {v : Int64} (h : t.Bears k s (.literal v)) (hv : 0 ≤ v) :
      IsExpr t k
  | reference {k : NodeId} {s : Span} {x : String} (h : t.Bears k s (.reference x))
      (hx : IsName x) : IsExpr t k
  | unary {k l : NodeId} {s : Span} {op : UnaryOperator} (h : t.Bears k s (.unary op (some l)))
      (hl : IsExpr t l) : IsExpr t k
  | binary {k l m : NodeId} {s : Span} {op : BinaryOperator} (h : t.Bears k s (op.form l m))
      (hl : IsExpr t l) (hm : IsExpr t m) : IsExpr t k

def IsTarget (t : Tree) (k : NodeId) : Prop := ∃ s x, t.Bears k s (.reference x) ∧ IsName x

inductive IsSimple (t : Tree) : NodeId → Prop
  | assign {k l m : NodeId} {s : Span} (h : t.Bears k s (.assign (some l) (some m)))
      (hl : t.IsTarget l) (hm : t.IsExpr m) : IsSimple t k
  | input {k l : NodeId} {s : Span} (h : t.Bears k s (.input (some l))) (hl : t.IsTarget l) :
      IsSimple t k
  | expr {k : NodeId} (h : t.IsExpr k) : IsSimple t k

/-- An `if` with no `else`, or one that has such an `if` at the end of its chain of `else`. -/
inductive Dangles (t : Tree) : NodeId → Prop
  | ifThen {k : NodeId} {s : Span} {c a : Option NodeId} (h : t.Bears k s (.ifElse c a none)) :
      Dangles t k
  | ifElse {k b : NodeId} {s : Span} {c a : Option NodeId}
      (h : t.Bears k s (.ifElse c a (some b))) (hb : Dangles t b) : Dangles t k

inductive IsStmt (t : Tree) : NodeId → Prop
  | scope {k : NodeId} {s : Span} {ks : List NodeId} (h : t.Bears k s (.scope ks))
      (hks : ∀ l ∈ ks, IsStmt t l) : IsStmt t k
  | ifThen {k c a : NodeId} {s : Span} (h : t.Bears k s (.ifElse (some c) (some a) none))
      (hc : t.IsExpr c) (ha : IsStmt t a) : IsStmt t k
  | ifElse {k c a b : NodeId} {s : Span} (h : t.Bears k s (.ifElse (some c) (some a) (some b)))
      (hc : t.IsExpr c) (ha : IsStmt t a) (hd : ¬t.Dangles a) (hb : IsStmt t b) : IsStmt t k
  | whileLoop {k c b : NodeId} {s p : Span} {ks : List NodeId}
      (h : t.Bears k s (.whileLoop (some c) (some b))) (hc : t.IsExpr c)
      (hb : t.Bears b p (.scope ks)) (hks : ∀ l ∈ ks, IsStmt t l) : IsStmt t k
  | forLoop {k c b : NodeId} {i u : Option NodeId} {s p : Span} {ks : List NodeId}
      (h : t.Bears k s (.forLoop i (some c) u (some b))) (hi : ∀ l ∈ i, t.IsSimple l)
      (hc : t.IsExpr c) (hu : ∀ l ∈ u, t.IsSimple l) (hb : t.Bears b p (.scope ks))
      (hks : ∀ l ∈ ks, IsStmt t l) : IsStmt t k
  | print {k l : NodeId} {s : Span} (h : t.Bears k s (.print (some l))) (hl : t.IsExpr l) :
      IsStmt t k
  | declaration {k : NodeId} {s : Span} {x : String} {i : Option NodeId}
      (h : t.Bears k s (.declaration x i)) (hx : IsName x) (hi : ∀ l ∈ i, t.IsExpr l) : IsStmt t k
  | expression {k l : NodeId} {s : Span} (h : t.Bears k s (.expression (some l)))
      (hl : t.IsSimple l) : IsStmt t k

theorem Dangles.form {t : Tree} {k : NodeId} {s : Span} {f : Form} (h : t.Dangles k)
    (hk : t.Bears k s f) : ∃ c a o, f = .ifElse c a o ∧ ∀ b ∈ o, t.Dangles b := by
  cases h with
  | ifThen h =>
    obtain ⟨_, rfl⟩ := hk.unique h
    exact ⟨_, _, none, rfl, nofun⟩
  | @ifElse _ b _ _ _ h hb =>
    obtain ⟨_, rfl⟩ := hk.unique h
    refine ⟨_, _, some b, rfl, fun l hl => ?_⟩
    cases hl
    exact hb

theorem Dangles.kind {t : Tree} {k : NodeId} {s : Span} {f : Form} (h : t.Dangles k)
    (hk : t.Bears k s f) : f.kind = .ifElse := by
  obtain ⟨_, _, _, rfl, _⟩ := h.form hk
  rfl

def SourceShaped (t : Tree) : Prop :=
  ∃ root s ks, t.root = some root ∧ t.Bears root s (.scope ks) ∧ ∀ k ∈ ks, t.IsStmt k

end Tree

open TeachLang.Tree

/-! ### What is spelled has a shape -/

def Legible (ts : List Located) : Prop := ∀ l ∈ ts, ∃ word, l.token.Spells word

@[simp] theorem legible_nil : Legible [] := nofun

@[simp] theorem legible_cons {l : Located} {ts : List Located} :
    Legible (l :: ts) ↔ (∃ word, l.token.Spells word) ∧ Legible ts :=
  List.forall_mem_cons

@[simp] theorem legible_append {ts us : List Located} :
    Legible (ts ++ us) ↔ Legible ts ∧ Legible us :=
  List.forall_mem_append

theorem Token.Spells.isName {x : String} {word : List Char} (h : (Token.ident x).Spells word) :
    IsName x := by
  cases h with
  | lexeme h => cases h
  | @name c cs hc hcs hk => exact ⟨c, cs, rfl, hc, hcs, hk⟩

theorem Token.Spells.nonneg {v : Int64} {word : List Char} (h : (Token.number v).Spells word) :
    0 ≤ v := by
  cases h with
  | lexeme h => cases h
  | number hne hdigits hv =>
    rw [Int64.le_iff_toInt_le, Text.toInt_of_word? hv]
    exact Int.natCast_nonneg _

section

variable {t : Tree} {k : NodeId} {ts : List Located}

theorem Expr.Spelled.isExpr {n : Nat} {e : Expr} (h : Spelled n ts e) (hts : Legible ts)
    (hk : e.StandsAt t k) : t.IsExpr k := by
  induction h generalizing k with
  | number p v =>
    obtain ⟨word, hword⟩ := (legible_cons.1 hts).1
    exact .literal hk hword.nonneg
  | name p x =>
    obtain ⟨word, hword⟩ := (legible_cons.1 hts).1
    exact .reference hk hword.isName
  | parens p q h ih =>
    simp only [List.cons_append, legible_cons, legible_append] at hts
    exact ih hts.2.1 hk
  | unary p ht h ih =>
    obtain ⟨l, hl, hb⟩ := hk
    exact .unary hb (ih (legible_cons.1 hts).2 hl)
  | operand h ih => exact ih hts hk
  | binary p ha ht hb iha ihb =>
    obtain ⟨l, hl, m, hm, hbears⟩ := hk
    simp only [legible_append, legible_cons] at hts
    exact .binary hbears (iha hts.1 hl) (ihb hts.2.2 hm)

theorem Simple.Spelled.isSimple {s : Simple} (h : Spelled ts s) (hts : Legible ts)
    (hk : s.StandsAt t k) : t.IsSimple k := by
  cases h with
  | input p q r x =>
    obtain ⟨l, hl, hb⟩ := hk
    obtain ⟨word, hword⟩ := (legible_cons.1 hts).1
    exact .input hb ⟨p, x, hl, hword.isName⟩
  | assign p q x h =>
    obtain ⟨l, hl, m, hm, hb⟩ := hk
    simp only [legible_cons] at hts
    obtain ⟨⟨word, hword⟩, _, hvalue⟩ := hts
    exact .assign hb ⟨p, x, hl, hword.isName⟩ (h.isExpr hvalue hm)
  | expr h => exact .expr (h.isExpr hts hk)

theorem Simple.OptionSpelled.isSimple {o : Option Simple} {i : Option NodeId}
    (h : OptionSpelled ts o) (hts : Legible ts) (hi : Option.Rel (·.StandsAt t ·) o i) :
    ∀ l ∈ i, t.IsSimple l := by
  cases h with
  | none =>
    cases hi
    nofun
  | some h =>
    cases hi with
    | some hk =>
      intro l hl
      cases hl
      exact h.isSimple hts hk

namespace Stmt

/-- Where `else` belongs to the nearest `if`, a statement that could be continued is dangling. -/
theorem Spelled.of_dangles {d : Bool} {ts : List Located} {s : Stmt} {k : NodeId} :
    Spelled true d ts s → s.StandsAt t k → t.Dangles k → d = true
  | .ifThen p q r hc hs, hk, hd => rfl
  | .ifElse p q r e hc hs _ hs', hk, hd => by
    obtain ⟨_, _, _, _, m, hm, hb⟩ := hk
    obtain ⟨_, _, _, hform, hd'⟩ := hd.form hb
    cases hform
    exact hs'.of_dangles hm (hd' m rfl)
  | .block p q h, ⟨_, _, hb⟩, hd => nomatch hd.kind hb
  | .whileLoop p q r hc hs, ⟨_, _, _, _, hb⟩, hd => nomatch hd.kind hb
  | .forLoop p q r r' q' hi hc hu hs, ⟨_, _, _, _, _, _, _, _, hb⟩, hd => nomatch hd.kind hb
  | .print p q h, ⟨_, _, hb⟩, hd => nomatch hd.kind hb
  | .declare p q r x, ⟨_, _, hb⟩, hd => nomatch hd.kind hb
  | .declareAs p q q' r x h, ⟨_, _, hb⟩, hd => nomatch hd.kind hb
  | .simple q h, ⟨_, _, hb⟩, hd => nomatch hd.kind hb

/-- The statements of a loop's body are those of a block, or there is only one. -/
theorem isStmt_asBody {s : Stmt} {l : NodeId} {ks : List NodeId}
    (h : ∀ k, s.StandsAt t k → t.IsStmt k) (hks : AllStandAt t s.asBody.2 ks)
    (hl : t.Bears l s.asBody.1 (.scope ks)) : ∀ k ∈ ks, t.IsStmt k := by
  have hsingle : AllStandAt t [s] ks → ∀ k ∈ ks, t.IsStmt k := by
    rintro ⟨k, hk, _, rfl, rfl⟩
    exact List.forall_mem_singleton.2 (h k hk)
  cases s with
  | block span body =>
    cases h l ⟨ks, hks, hl⟩ with
    | scope hb hall =>
      obtain ⟨_, hform⟩ := hl.unique hb
      cases hform
      exact hall
    | ifThen hb | ifElse hb | whileLoop hb | forLoop hb | print hb | declaration hb
    | expression hb =>
      obtain ⟨_, hform⟩ := hl.unique hb
      cases hform
  | _ => exact hsingle hks

mutual

theorem Spelled.isStmt {d : Bool} {ts : List Located} {s : Stmt} {k : NodeId} :
    Spelled true d ts s → Legible ts → s.StandsAt t k → t.IsStmt k
  | .block p q h, hts, ⟨ks, hks, hb⟩ => by
    simp only [List.cons_append, legible_cons, legible_append] at hts
    exact .scope hb (h.isStmt hts.2.1 hks)
  | .ifThen p q r hc hs, hts, ⟨l, hl, m, hm, hb⟩ => by
    simp only [List.cons_append, List.append_assoc, legible_cons, legible_append] at hts
    obtain ⟨_, _, hcondition, _, hthen⟩ := hts
    exact .ifThen hb (hc.isExpr hcondition hl) (hs.isStmt hthen.2 hm)
  | .ifElse p q r e hc hs hd hs', hts, ⟨l, hl, m, hm, n, hn, hb⟩ => by
    simp only [List.cons_append, List.append_assoc, legible_cons, legible_append] at hts
    obtain ⟨_, _, hcondition, _, _, hthen, _, helse⟩ := hts
    refine .ifElse hb (hc.isExpr hcondition hl) (hs.isStmt hthen hm) (fun hdangles => ?_)
      (hs'.isStmt helse hn)
    cases (hd rfl).symm.trans (hs.of_dangles hm hdangles)
  | .whileLoop p q r hc hs, hts, ⟨l, hl, m, ⟨ks, hks, hm⟩, hb⟩ => by
    simp only [List.cons_append, List.append_assoc, legible_cons, legible_append] at hts
    obtain ⟨_, _, hcondition, _, hbody⟩ := hts
    exact .whileLoop hb (hc.isExpr hcondition hl) hm
      (isStmt_asBody (fun k hk => hs.isStmt hbody.2 hk) hks hm)
  | .forLoop p q r r' q' hi hc hu hs, hts, ⟨i, hinit, l, hl, j, hstep, m, ⟨ks, hks, hm⟩, hb⟩ => by
    simp only [List.cons_append, List.append_assoc, legible_cons, legible_append] at hts
    obtain ⟨_, _, hfirst, _, hcondition, _, hlast, _, hbody⟩ := hts
    exact .forLoop hb (hi.isSimple hfirst hinit) (hc.isExpr hcondition hl)
      (hu.isSimple hlast hstep) hm (isStmt_asBody (fun k hk => hs.isStmt hbody hk) hks hm)
  | .print p q h, hts, ⟨l, hl, hb⟩ => by
    simp only [List.cons_append, legible_cons, legible_append] at hts
    exact .print hb (h.isExpr hts.2.1 hl)
  | .declare p q r x, hts, ⟨i, hi, hb⟩ => by
    cases hi
    simp only [legible_cons] at hts
    obtain ⟨_, ⟨word, hword⟩, _⟩ := hts
    exact .declaration hb hword.isName nofun
  | .declareAs p q q' r x h, hts, ⟨i, hi, hb⟩ => by
    simp only [List.cons_append, legible_cons, legible_append] at hts
    obtain ⟨_, ⟨word, hword⟩, _, hvalue, _⟩ := hts
    cases hi with
    | some hl =>
      refine .declaration hb hword.isName fun l hmem => ?_
      cases hmem
      exact h.isExpr hvalue hl
  | .simple q h, hts, ⟨l, hl, hb⟩ => by
    simp only [legible_append] at hts
    exact .expression hb (h.isSimple hts.1 hl)

theorem AllSpelled.isStmt {ts : List Located} {ss : List Stmt} {ks : List NodeId} :
    AllSpelled true ts ss → Legible ts → AllStandAt t ss ks → ∀ k ∈ ks, t.IsStmt k
  | .nil, _, hks => by
    cases hks
    nofun
  | .cons hs hss, hts, ⟨k, hk, ks, hrest, hids⟩ => by
    subst hids
    rw [legible_append] at hts
    exact List.forall_mem_cons.2 ⟨hs.isStmt hts.1 hk, hss.isStmt hts.2 hrest⟩

end

end Stmt

end

end TeachLang
