import TeachLang.Proofs.Grammar

/-!
# Where the parts of a program begin

A part of a program begins where its first token does. So what holds of the places of all tokens,
and depends on the beginning of a span only, holds of all spans of the program.
-/

namespace TeachLang

def Expr.EverySpan (P : Span → Prop) : Expr → Prop
  | literal span _ | reference span _ => P span
  | unary span _ operand => P span ∧ operand.EverySpan P
  | binary span _ left right => P span ∧ left.EverySpan P ∧ right.EverySpan P

def Simple.EverySpan (P : Span → Prop) : Simple → Prop
  | assign span nameSpan _ value => P span ∧ P nameSpan ∧ value.EverySpan P
  | input span nameSpan _ => P span ∧ P nameSpan
  | expr value => value.EverySpan P

namespace Stmt

mutual

def EverySpan (P : Span → Prop) : Stmt → Prop
  | block span body => P span ∧ EverySpanIn P body
  | ifThen span condition thenBranch =>
    P span ∧ condition.EverySpan P ∧ thenBranch.EverySpan P
  | ifElse span condition thenBranch elseBranch =>
    P span ∧ condition.EverySpan P ∧ thenBranch.EverySpan P ∧ elseBranch.EverySpan P
  | whileLoop span condition bodySpan body =>
    P span ∧ condition.EverySpan P ∧ P bodySpan ∧ EverySpanIn P body
  | forLoop span init condition step bodySpan body =>
    P span ∧ (∀ s ∈ init, s.EverySpan P) ∧ condition.EverySpan P ∧ (∀ s ∈ step, s.EverySpan P) ∧
      P bodySpan ∧ EverySpanIn P body
  | print span value => P span ∧ value.EverySpan P
  | declare span _ initializer => P span ∧ ∀ e ∈ initializer, e.EverySpan P
  | simple span statement => P span ∧ statement.EverySpan P

def EverySpanIn (P : Span → Prop) : List Stmt → Prop
  | [] => True
  | s :: rest => s.EverySpan P ∧ EverySpanIn P rest

end

theorem EverySpan.asBody {P : Span → Prop} {s : Stmt} (h : s.EverySpan P) :
    P s.asBody.1 ∧ EverySpanIn P s.asBody.2 := by
  cases s with
  | block span body => exact h
  | _ => exact ⟨h.1, h, trivial⟩

end Stmt

section

variable {P : Span → Prop} (hP : ∀ s e, P s → P (s.through e))
include hP

theorem extent_of_opens {Q : Token → Bool} {ts : List Located} (h : Opens Q ts)
    (hts : ∀ l ∈ ts, P l.span) : P (extent ts) := by
  obtain ⟨l, us, rfl, _⟩ := h
  exact hP _ _ (hts l List.mem_cons_self)

theorem Expr.Spelled.everySpan {n : Nat} {ts : List Located} {e : Expr} (h : e.Spelled n ts)
    (hts : ∀ l ∈ ts, P l.span) : e.EverySpan P := by
  induction h with
  | number p v => exact hts _ List.mem_cons_self
  | name p x => exact hts _ List.mem_cons_self
  | parens p q h ih => exact ih fun l hl => hts l (by simp [hl])
  | unary p ht h ih =>
    exact ⟨hP _ _ (hts _ List.mem_cons_self), ih fun l hl => hts l (List.mem_cons_of_mem _ hl)⟩
  | operand h ih => exact ih hts
  | binary p ha ht hb iha ihb =>
    have hleft := fun l hl => hts l (List.mem_append_left _ hl)
    have hright := fun l hl => hts l (List.mem_append_right _ (List.mem_cons_of_mem _ hl))
    exact ⟨hP _ _ (extent_of_opens hP ha.opens hleft), iha hleft, ihb hright⟩

theorem Simple.Spelled.everySpan {ts : List Located} {s : Simple} (h : s.Spelled ts)
    (hts : ∀ l ∈ ts, P l.span) : s.EverySpan P := by
  cases h with
  | input p q r x =>
    have hp := hts _ List.mem_cons_self
    exact ⟨hP _ _ hp, hp⟩
  | assign p q x h =>
    have hp := hts _ List.mem_cons_self
    exact ⟨hP _ _ hp, hp, h.everySpan hP fun l hl => hts l (by simp [hl])⟩
  | expr h => exact h.everySpan hP hts

theorem Simple.OptionSpelled.everySpan {ts : List Located} {o : Option Simple}
    (h : OptionSpelled ts o) (hts : ∀ l ∈ ts, P l.span) : ∀ s ∈ o, s.EverySpan P := by
  cases h with
  | none => nofun
  | some h =>
    rintro _ ⟨⟩
    exact h.everySpan hP hts

end

section

variable {P : Span → Prop}

mutual

theorem Stmt.Spelled.everySpan (hP : ∀ s e, P s → P (s.through e)) {nearest k : Bool}
    {ts : List Located} {s : Stmt} :
    Stmt.Spelled nearest k ts s → (∀ l ∈ ts, P l.span) → s.EverySpan P
  | .block p q h, hts =>
    ⟨hP _ _ (hts _ List.mem_cons_self), h.everySpan hP fun l hl => hts l (by simp [hl])⟩
  | .ifThen p q r hc hs, hts =>
    ⟨hP _ _ (hts _ List.mem_cons_self), hc.everySpan hP fun l hl => hts l (by simp [hl]),
      hs.everySpan hP fun l hl => hts l (by simp [hl])⟩
  | .ifElse p q r e hc hs _ hs', hts =>
    ⟨hP _ _ (hts _ List.mem_cons_self), hc.everySpan hP fun l hl => hts l (by simp [hl]),
      hs.everySpan hP fun l hl => hts l (by simp [hl]),
      hs'.everySpan hP fun l hl => hts l (by simp [hl])⟩
  | .whileLoop p q r hc hs, hts =>
    ⟨hP _ _ (hts _ List.mem_cons_self), hc.everySpan hP fun l hl => hts l (by simp [hl]),
      (hs.everySpan hP fun l hl => hts l (by simp [hl])).asBody⟩
  | .forLoop p q r r' q' hi hc hu hs, hts =>
    ⟨hP _ _ (hts _ List.mem_cons_self), hi.everySpan hP fun l hl => hts l (by simp [hl]),
      hc.everySpan hP fun l hl => hts l (by simp [hl]),
      hu.everySpan hP fun l hl => hts l (by simp [hl]),
      (hs.everySpan hP fun l hl => hts l (by simp [hl])).asBody⟩
  | .print p q h, hts =>
    ⟨hP _ _ (hts _ List.mem_cons_self), h.everySpan hP fun l hl => hts l (by simp [hl])⟩
  | .declare p q r x, hts => ⟨hP _ _ (hts _ List.mem_cons_self), nofun⟩
  | .declareAs p q q' r x h, hts =>
    ⟨hP _ _ (hts _ List.mem_cons_self), by
      rintro _ ⟨⟩
      exact h.everySpan hP fun l hl => hts l (by simp [hl])⟩
  | .simple q h, hts =>
    have hs := fun l hl => hts l (List.mem_append_left _ hl)
    ⟨hP _ _ (extent_of_opens hP h.opens hs), h.everySpan hP hs⟩

theorem Stmt.AllSpelled.everySpan (hP : ∀ s e, P s → P (s.through e)) {nearest : Bool}
    {ts : List Located} {ss : List Stmt} :
    Stmt.AllSpelled nearest ts ss → (∀ l ∈ ts, P l.span) → Stmt.EverySpanIn P ss
  | .nil, _ => trivial
  | .cons hs hss, hts =>
    ⟨hs.everySpan hP fun l hl => hts l (List.mem_append_left _ hl),
      hss.everySpan hP fun l hl => hts l (List.mem_append_right _ hl)⟩

end

end

end TeachLang
