import TeachLang.Proofs.Grammar

/-!
# Brackets

Where the grammar has an opening bracket it has the closing one behind it, so that what is spelled
has as many of the one as of the other, and no end of it has more opening than closing ones.
Braces and semicolons do not occur in expressions and simple statements.
-/

namespace TeachLang

namespace Token

/-- Closing brackets are weighed against opening ones: parentheses and braces by what each counts
for. -/
def weight (paren brace : Nat) : Token → Int
  | leftParen => paren
  | rightParen => -paren
  | leftBrace => brace
  | rightBrace => -brace
  | _ => 0

def plain : Token → Bool
  | leftParen | rightParen | leftBrace | rightBrace | semicolon => false
  | _ => true

theorem weight_of_plain {t : Token} (h : t.plain = true) (p b : Nat) : t.weight p b = 0 := by
  cases t <;> first | rfl | cases h

theorem plain_of_mem_operators {n : Nat} {t : Token} {op : BinaryOperator}
    (h : (t, op) ∈ operators n) : t.plain = true := by
  unfold operators at h
  split at h <;> simp only [List.mem_cons, List.not_mem_nil, Prod.mk.injEq, or_false] at h
  all_goals grind [plain]

theorem plain_of_mem_unaryOperators {t : Token} {op : UnaryOperator}
    (h : (t, op) ∈ unaryOperators) : t.plain = true := by
  simp only [unaryOperators, List.mem_cons, List.not_mem_nil, Prod.mk.injEq, or_false] at h
  rcases h with ⟨rfl, rfl⟩ | ⟨rfl, rfl⟩ | ⟨rfl, rfl⟩ <;> rfl

def inner (t : Token) : Bool := t.plain || t = leftParen || t = rightParen

end Token

def excess (p b : Nat) : List Token → Int
  | [] => 0
  | t :: ts => t.weight p b + excess p b ts

section

variable {p b : Nat} {t : Token} {ts us : List Token}

@[simp] theorem excess_nil : excess p b [] = 0 := rfl

@[simp] theorem excess_cons : excess p b (t :: ts) = t.weight p b + excess p b ts := rfl

@[simp] theorem excess_append : excess p b (ts ++ us) = excess p b ts + excess p b us := by
  induction ts with
  | nil => rw [List.nil_append, excess_nil, Int.zero_add]
  | cons t ts ih => rw [List.cons_append, excess_cons, excess_cons, ih, Int.add_assoc]

end

/-- As many brackets are opened as closed, and at each point no more are opened from there on than
closed. -/
structure Balanced (p b : Nat) (ts : List Token) : Prop where
  total : excess p b ts = 0
  suffix {us : List Token} (h : us <:+ ts) : excess p b us ≤ 0

namespace Balanced

variable {p b : Nat} {t open' close : Token} {ts us : List Token}

theorem nil : Balanced p b [] where
  total := rfl
  suffix h := by
    rw [List.suffix_nil.1 h]
    exact Int.le_refl 0

theorem append (h : Balanced p b ts) (h' : Balanced p b us) : Balanced p b (ts ++ us) where
  total := by rw [excess_append, h.total, h'.total, Int.add_zero]
  suffix hsuffix := by
    rcases List.suffix_or_suffix_of_suffix hsuffix (List.suffix_append ts us) with hus | ⟨vs, rfl⟩
    · exact h'.suffix hus
    · rw [excess_append, h'.total, Int.add_zero]
      exact h.suffix (List.suffix_append_self_iff.1 hsuffix)

/-- Between brackets of one kind. -/
theorem bracket (hpair : open'.weight p b + close.weight p b = 0) (hclose : close.weight p b ≤ 0)
    (h : Balanced p b ts) : Balanced p b (open' :: ts ++ [close]) where
  total := by simp [h.total, hpair]
  suffix {us} hsuffix := by
    rw [List.cons_append, List.suffix_cons_iff] at hsuffix
    rcases hsuffix with rfl | hsuffix
    · simp [h.total, hpair]
    rcases List.suffix_or_suffix_of_suffix hsuffix (List.suffix_append ts [close]) with
      hus | ⟨vs, rfl⟩
    · rcases List.suffix_cons_iff.1 hus with rfl | hus
      · simpa using hclose
      · simp [List.suffix_nil.1 hus]
    · have hvs := h.suffix (List.suffix_append_self_iff.1 hsuffix)
      simp only [excess_append, excess_cons, excess_nil]
      omega

theorem parens (h : Balanced p b ts) : Balanced p b (.leftParen :: ts ++ [.rightParen]) :=
  h.bracket (Int.add_right_neg _) (Int.neg_nonpos_of_nonneg (Int.natCast_nonneg p))

theorem braces (h : Balanced p b ts) : Balanced p b (.leftBrace :: ts ++ [.rightBrace]) :=
  h.bracket (Int.add_right_neg _) (Int.neg_nonpos_of_nonneg (Int.natCast_nonneg b))

theorem single (ht : t.weight p b = 0) : Balanced p b [t] where
  total := by simp [ht]
  suffix h := by
    rcases List.suffix_cons_iff.1 h with rfl | h
    · simp [ht]
    · simp [List.suffix_nil.1 h]

theorem cons (ht : t.weight p b = 0) (h : Balanced p b ts) : Balanced p b (t :: ts) :=
  (single ht).append h

/-- From the beginning to each point at least as many brackets are opened as closed. -/
theorem prefix_nonneg (h : Balanced p b ts) (hus : us <+: ts) : 0 ≤ excess p b us := by
  obtain ⟨vs, rfl⟩ := hus
  have htotal := h.total
  have hvs := h.suffix (List.suffix_append us vs)
  rw [excess_append] at htotal
  omega

end Balanced

/-! ### What is spelled -/

variable {n : Nat} {ts : List Located} {p b : Nat}

namespace Expr.Spelled

variable {e : Expr}

theorem balanced (h : Spelled n ts e) : Balanced p b (ts.map Located.token) := by
  induction h with
  | number | name => exact .single rfl
  | parens _ _ _ ih => simpa using ih.parens
  | unary _ ht _ ih =>
    exact .cons (Token.weight_of_plain (Token.plain_of_mem_unaryOperators ht) p b) ih
  | operand _ ih => exact ih
  | binary _ _ ht _ iha ihb =>
    rw [List.map_append]
    exact iha.append (.cons (Token.weight_of_plain (Token.plain_of_mem_operators ht) p b) ihb)

theorem inner (h : Spelled n ts e) : ∀ t ∈ ts.map Located.token, t.inner = true := by
  induction h with
  | number | name => simp [Token.inner, Token.plain]
  | parens _ _ _ ih => simpa [Token.inner, or_imp, forall_and] using ih
  | unary _ ht _ ih =>
    rw [List.map_cons, List.forall_mem_cons]
    exact ⟨by simp [Token.inner, Token.plain_of_mem_unaryOperators ht], ih⟩
  | operand _ ih => exact ih
  | binary _ _ ht _ iha ihb =>
    rw [List.map_append, List.map_cons, List.forall_mem_append, List.forall_mem_cons]
    exact ⟨iha, by simp [Token.inner, Token.plain_of_mem_operators ht], ihb⟩

end Expr.Spelled

namespace Simple.Spelled

variable {s : Simple}

theorem balanced (h : Spelled ts s) : Balanced p b (ts.map Located.token) := by
  cases h with
  | input => exact .cons rfl (.cons rfl (.single rfl))
  | assign _ _ _ h => exact .cons rfl (.cons rfl h.balanced)
  | expr h => exact h.balanced

theorem inner (h : Spelled ts s) : ∀ t ∈ ts.map Located.token, t.inner = true := by
  cases h with
  | input => simp [Token.inner, Token.plain]
  | assign _ _ _ h => simpa [Token.inner, Token.plain] using h.inner
  | expr h => exact h.inner

end Simple.Spelled

namespace Simple.OptionSpelled

variable {o : Option Simple}

theorem balanced (h : OptionSpelled ts o) : Balanced p b (ts.map Located.token) := by
  cases h with
  | none => exact .nil
  | some h => exact h.balanced

theorem inner (h : OptionSpelled ts o) : ∀ t ∈ ts.map Located.token, t.inner = true := by
  cases h with
  | none => exact nofun
  | some h => exact h.inner

end Simple.OptionSpelled

namespace Stmt

variable {nearest d : Bool} {s : Stmt} {ss : List Stmt}

mutual

theorem Spelled.balanced {d : Bool} {ts : List Located} {s : Stmt} :
    Spelled nearest d ts s → Balanced p b (ts.map Located.token)
  | .block _ _ h => by simpa using h.balanced.braces
  | .ifThen _ _ _ hc hs => by
    simpa using Balanced.cons (t := .ifWord) rfl (hc.balanced.parens.append hs.balanced)
  | .ifElse _ _ _ _ hc hs _ hs' => by
    simpa using Balanced.cons (t := .ifWord) rfl
      (hc.balanced.parens.append (hs.balanced.append (.cons (t := .elseWord) rfl hs'.balanced)))
  | .whileLoop _ _ _ hc hs => by
    simpa using Balanced.cons (t := .whileWord) rfl (hc.balanced.parens.append hs.balanced)
  | .forLoop _ _ _ _ _ hi hc hu hs => by
    have hhead := (hi.balanced (p := p) (b := b)).append (.cons (t := .semicolon) rfl
      (hc.balanced.append (.cons (t := .semicolon) rfl hu.balanced)))
    simpa using Balanced.cons (t := .forWord) rfl (hhead.parens.append hs.balanced)
  | .print _ _ h => by
    simpa using Balanced.cons (t := .printWord) rfl (h.balanced.append (.single rfl))
  | .declare _ _ _ _ => .cons rfl (.cons rfl (.single rfl))
  | .declareAs _ _ _ _ x h => by
    simpa using Balanced.cons (t := .varWord) rfl (.cons (t := .ident x) rfl
      (.cons (t := .assign) rfl (h.balanced.append (.single rfl))))
  | .simple _ h => by simpa using h.balanced.append (.single (t := .semicolon) rfl)

theorem AllSpelled.balanced {ts : List Located} {ss : List Stmt} :
    AllSpelled nearest ts ss → Balanced p b (ts.map Located.token)
  | .nil => .nil
  | .cons hs hss => by
    rw [List.map_append]
    exact hs.balanced.append hss.balanced

end

end Stmt

/-! ### Heads of loops -/

theorem prefix_of_not_mem {α : Type} {a : α} {xs ys zs : List α} (h : xs <+: ys ++ a :: zs)
    (ha : a ∉ xs) : xs <+: ys := by
  rcases List.prefix_or_prefix_of_prefix h (List.prefix_append ys (a :: zs)) with h' | ⟨ws, rfl⟩
  · exact h'
  · rcases List.prefix_cons_iff.1 ((List.prefix_append_right_inj ys).1 h) with rfl | ⟨ws, rfl, _⟩
    · exact (List.append_nil ys).symm ▸ List.prefix_rfl
    · simp at ha

theorem append_cons_inj {α : Type} {a : α} {xs xs' ys ys' : List α}
    (h : xs ++ a :: ys = xs' ++ a :: ys') (ha : a ∉ xs) (ha' : a ∉ xs') : xs = xs' ∧ ys = ys' := by
  have hto := prefix_of_not_mem ⟨_, h⟩ ha
  have hfrom := prefix_of_not_mem ⟨_, h.symm⟩ ha'
  obtain rfl := hto.eq_of_length_le hfrom.length_le
  exact ⟨rfl, (List.cons.inj (List.append_cancel_left h)).2⟩

/-- What stands between the brackets of a loop, or in front of a semicolon there. -/
structure Inner (ts : List Token) : Prop where
  inner : ∀ t ∈ ts, t.inner = true
  balanced (p b : Nat) : Balanced p b ts

theorem Expr.Spelled.toInner {n : Nat} {ts : List Located} {e : Expr} (h : e.Spelled n ts) :
    Inner (ts.map Located.token) :=
  ⟨h.inner, fun _ _ => h.balanced⟩

theorem Simple.OptionSpelled.toInner {ts : List Located} {o : Option Simple}
    (h : OptionSpelled ts o) : Inner (ts.map Located.token) :=
  ⟨h.inner, fun _ _ => h.balanced⟩

theorem semicolon_not_mem {ts : List Token} (h : ∀ t ∈ ts, t.inner = true) : .semicolon ∉ ts := by
  intro hmem
  cases h _ hmem

namespace Stmt.AllSpelled

variable {nearest : Bool} {ls : List Located} {ss : List Stmt} {rest : List Token}

/-- What begins like a loop with an initial statement goes on like one. -/
theorem of_for (h : AllSpelled nearest ls ss)
    (hls : ls.map Located.token = .forWord :: .leftParen :: rest) :
    ∃ is cs us ts, rest = is ++ .semicolon :: (cs ++ .semicolon :: (us ++ .rightParen :: ts)) ∧
      Inner is ∧ Inner cs ∧ Inner us := by
  cases h with
  | nil => cases hls
  | cons hs hss =>
    cases hs with
    | forLoop _ _ _ _ _ hi hc hu _ =>
      simp only [List.map_append, List.map_cons, List.cons_append, List.append_assoc,
        List.cons.injEq, true_and] at hls
      exact ⟨_, _, _, _, hls.symm, hi.toInner, hc.toInner, hu.toInner⟩
    | simple _ hs =>
      obtain ⟨l, us, rfl, hl⟩ := hs.opens
      simp only [List.cons_append, List.map_cons, List.cons.injEq] at hls
      rw [hls.1] at hl
      cases hl
    | _ => simp at hls

theorem of_while (h : AllSpelled nearest ls ss)
    (hls : ls.map Located.token = .whileWord :: .leftParen :: rest) :
    ∃ cs ts, rest = cs ++ .rightParen :: ts ∧ Inner cs := by
  cases h with
  | nil => cases hls
  | cons hs hss =>
    cases hs with
    | whileLoop _ _ _ hc _ =>
      simp only [List.map_append, List.map_cons, List.cons_append, List.append_assoc,
        List.nil_append, List.cons.injEq, true_and] at hls
      exact ⟨_, _, hls.symm, hc.toInner⟩
    | simple _ hs =>
      obtain ⟨l, us, rfl, hl⟩ := hs.opens
      simp only [List.cons_append, List.map_cons, List.cons.injEq] at hls
      rw [hls.1] at hl
      cases hl
    | _ => simp at hls

/-- What begins with a simple statement goes on with statements. -/
theorem of_simple {as : List Located} {a : Simple} (ha : a.Spelled as)
    (h : AllSpelled nearest ls ss)
    (hls : ls.map Located.token = as.map Located.token ++ .semicolon :: rest) :
    ∃ us ss', AllSpelled nearest us ss' ∧ us.map Located.token = rest := by
  cases h with
  | nil => simp at hls
  | @cons _ us _ _ ss hs hss =>
    cases hs with
    | simple _ hs =>
      rw [List.map_append, List.map_append, List.append_assoc] at hls
      have hinj := append_cons_inj hls (semicolon_not_mem hs.inner) (semicolon_not_mem ha.inner)
      exact ⟨us, ss, hss, hinj.2⟩
    | _ =>
      obtain ⟨l, as, rfl, hl⟩ := ha.opens
      simp only [List.cons_append, List.map_cons, List.cons.injEq] at hls
      rw [← hls.1] at hl
      cases hl

end Stmt.AllSpelled

end TeachLang
