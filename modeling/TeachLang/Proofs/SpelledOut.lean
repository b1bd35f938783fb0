import TeachLang.Proofs.Lexemes
import TeachLang.Proofs.Rendering

/-!
# Texts spelled out

A token can be written down, a number with as many zeros in front as one likes. Written one behind
the other, with a blank and any further blanks and comments between neighbours, tokens are read as
what they were: no spelling goes on in a blank, and a comment ends where its line does.
-/

namespace TeachLang

namespace Token

open Lexer

def Writable : Token → Prop
  | ident x => IsName x
  | number v => 0 ≤ v
  | endOfInput => False
  | _ => True

def written (zeros : Nat) : Token → List Char
  | ident x => x.toList
  | number v => List.replicate zeros '0' ++ Text.integerChars v
  | t => (t.lexeme.getD "").toList

theorem spells_zeros {v : Int64} {digits : List Char} (h : (number v).Spells digits)
    (zeros : Nat) : (number v).Spells (List.replicate zeros '0' ++ digits) := by
  cases h with
  | lexeme h => cases h
  | number hne hdigits hv =>
    have hzeros : Text.digitsValue (List.replicate zeros '0' ++ digits) =
        Text.digitsValue digits := by
      unfold Text.digitsValue
      rw [Nat.ofDigitChars_append, Nat.ofDigitChars_replicate_zero, Nat.mul_zero]
    refine .number (List.append_ne_nil_of_right_ne_nil _ hne) ?_ (by rw [hzeros, hv])
    intro d hd
    rcases List.mem_append.1 hd with hd | hd
    · rw [List.eq_of_mem_replicate hd]
      decide
    · exact hdigits d hd

theorem Writable.spells {t : Token} (h : t.Writable) (zeros : Nat) :
    t.Spells (t.written zeros) := by
  cases t with
  | ident x => exact IsName.spells h
  | number v =>
    have hdigits := spells_integerText h
    rw [Text.integerText, String.toList_ofList] at hdigits
    exact spells_zeros hdigits zeros
  | endOfInput => exact h.elim
  | _ => exact spells_lexeme rfl

end Token

namespace Lexer

inductive Spacing : List Char → Prop
  | nil : Spacing []
  | blank {c : Char} {gap : List Char} (hc : Text.isBlank c = true) (h : Spacing gap) :
      Spacing (c :: gap)
  | comment {line gap : List Char} (hline : '\n' ∉ line) (h : Spacing gap) :
      Spacing ('/' :: '/' :: (line ++ '\n' :: gap))

def Separates (gap : List Char) : Prop :=
  ∃ c rest, gap = c :: rest ∧ Text.isBlank c = true ∧ Spacing rest

structure Piece where
  token : Token
  zeros : Nat := 0
  gap : List Char := []

def Piece.text (p : Piece) : List Char := p.token.written p.zeros ++ p.gap

variable {gap : List Char}

theorem Separates.spacing (h : Separates gap) : Spacing gap := by
  obtain ⟨c, rest, rfl, hc, hrest⟩ := h
  exact .blank hc hrest

theorem Spacing.lexemes (h : Spacing gap) : Lexemes false gap [] false := by
  induction h with
  | nil => exact .nil false
  | blank hc _ ih => exact .blank hc ih
  | comment hline _ ih => exact .comment (.through hline (.newline ih))

theorem Separates.edge (h : Separates gap) (rest : List Char) : Edge (gap ++ rest) := by
  obtain ⟨c, others, rfl, hc, -⟩ := h
  exact edge_blank hc (others ++ rest)

/-- A token in front of a text, from which it is kept apart or of which there is nothing. -/
theorem Lexemes.piece {p : Piece} {rest : List Char} {ts : List Token} (hp : p.token.Writable)
    (hgap : Separates p.gap ∨ p.gap = [] ∧ rest = []) (h : Lexemes false rest ts false) :
    Lexemes false (p.text ++ rest) (p.token :: ts) false := by
  rw [Piece.text, List.append_assoc]
  rcases hgap with hgap | ⟨hgap, rfl⟩
  · refine .word (hp.spells p.zeros) ((hgap.edge rest).head p.token) ?_
    exact hgap.spacing.lexemes.append nofun h
  · rw [hgap]
    exact .word (hp.spells p.zeros) nofun h

theorem lexemes_pieces {pieces : List Piece} (htokens : ∀ p ∈ pieces, p.token.Writable)
    (hbetween : ∀ p ∈ pieces.dropLast, Separates p.gap)
    (hlast : ∀ p ∈ pieces.getLast?, p.gap = [] ∨ Separates p.gap) :
    Lexemes false (pieces.flatMap Piece.text) (pieces.map Piece.token) false := by
  induction pieces with
  | nil => exact .nil false
  | cons p pieces ih =>
    obtain ⟨hp, htokens⟩ := List.forall_mem_cons.1 htokens
    rw [List.flatMap_cons, List.map_cons]
    cases pieces with
    | nil => exact .piece hp ((hlast p rfl).symm.imp_right fun h => ⟨h, rfl⟩) (.nil false)
    | cons q pieces =>
      obtain ⟨hgap, hbetween⟩ := List.forall_mem_cons.1 hbetween
      exact .piece hp (.inl hgap) (ih htokens hbetween hlast)

end Lexer

open Lexer

/-- What is spelled out is read back, whatever the tokens are that have a spelling, however many
zeros numbers begin with, and whatever blanks and comments stand in front and between, as long as a
blank comes behind every token but the last. -/
theorem scan_spelledOut {front : List Char} {pieces : List Piece} (hfront : Spacing front)
    (htokens : ∀ p ∈ pieces, p.token.Writable)
    (hbetween : ∀ p ∈ pieces.dropLast, Separates p.gap)
    (hlast : ∀ p ∈ pieces.getLast?, p.gap = [] ∨ Separates p.gap) (file : Option String) :
    ∃ ls, scan (String.ofList (front ++ pieces.flatMap Piece.text)) file = .ok ls ∧
      ls.map Located.token = pieces.map Piece.token := by
  have htext := hfront.lexemes.append nofun (lexemes_pieces htokens hbetween hlast)
  rw [List.nil_append] at htext
  exact scan_of_lexemes (by rwa [String.toList_ofList]) file

/-- A number with zeros, a slash next to a comment that looks like one more token, a blank that is
none of the usual ones, and a name that begins with a keyword. -/
theorem scan_spelledOut_of_slash :
    let front := ['/', '/', '+', '\n']
    let pieces : List Piece := [⟨.number 7, 2, ['\u00a0']⟩,
      ⟨.divide, 0, [' ', '/', '/', '=', '/', '/', '\n', '\u2003']⟩, ⟨.ident "iffy", 0, ['\t']⟩,
      ⟨.ifWord, 0, []⟩]
    Spacing front ∧ (∀ p ∈ pieces, p.token.Writable) ∧
      (∀ p ∈ pieces.dropLast, Separates p.gap) ∧
      (∀ p ∈ pieces.getLast?, p.gap = [] ∨ Separates p.gap) ∧
      String.ofList (front ++ pieces.flatMap Piece.text) =
        "//+\n007\u00a0/ //=//\n\u2003iffy\tif" ∧
      ∃ ls, scan "//+\n007\u00a0/ //=//\n\u2003iffy\tif" none = .ok ls ∧
        ls.map Located.token = [.number 7, .divide, .ident "iffy", .ifWord] := by
  intro front pieces
  have hcomment : ∀ line gap, '\n' ∉ line → Spacing gap →
      Spacing ('/' :: '/' :: (line ++ '\n' :: gap)) := fun _ _ => .comment
  have hfront : Spacing front := hcomment ['+'] [] (by decide) .nil
  have hspacing : Spacing ['/', '/', '=', '/', '/', '\n', '\u2003'] :=
    hcomment ['=', '/', '/'] ['\u2003'] (by decide) (.blank (by decide) .nil)
  have hname : IsName "iffy" :=
    ⟨'i', ['f', 'f', 'y'], rfl, by decide, List.all_eq_true.1 (by decide), rfl⟩
  have hseven : (0 : Int64) ≤ 7 := by decide
  have htokens : ∀ p ∈ pieces, p.token.Writable := by
    simp only [pieces, List.forall_mem_cons]
    exact ⟨hseven, trivial, hname, trivial, nofun⟩
  have hbetween : ∀ p ∈ pieces.dropLast, Separates p.gap := by
    simp only [pieces, List.dropLast_cons_cons, List.forall_mem_cons]
    exact ⟨⟨_, _, rfl, by decide, .nil⟩, ⟨_, _, rfl, by decide, hspacing⟩,
      ⟨_, _, rfl, by decide, .nil⟩, nofun⟩
  have hlast : ∀ p ∈ pieces.getLast?, p.gap = [] ∨ Separates p.gap := by
    intro p hp
    cases hp
    exact .inl rfl
  have htext : String.ofList (front ++ pieces.flatMap Piece.text) =
      "//+\n007\u00a0/ //=//\n\u2003iffy\tif" := by decide +kernel
  refine ⟨hfront, htokens, hbetween, hlast, htext, ?_⟩
  rw [← htext]
  exact scan_spelledOut hfront htokens hbetween hlast none

end TeachLang
