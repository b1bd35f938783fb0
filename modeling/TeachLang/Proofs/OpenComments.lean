import TeachLang.Proofs.Lexemes

/-!
# Parts of a line behind which something is written

A part of a text that ends with a comment hides what is written behind it on the same line. A part
that is so hidden loses its first line, and may be seen again from the next one on.
-/

namespace TeachLang.Lexer

variable {text rest line : List Char} {ts us gs : List Token} {a b c : Bool}

/-- A part of a text: which tokens are seen of it and whether it leaves a comment open, by whether
it begins within a comment. -/
structure Part (text : List Char) where
  seen : Bool → List Token
  ends : Bool → Bool
  lexemes (b : Bool) : Lexemes b text (seen b) (ends b)
  late : seen true <:+ seen false
  stays (h : ends true = false) : ends false = false

/-- Of a text that begins within a comment the last tokens are seen. -/
theorem Lexemes.late (h : Lexemes a text ts b) :
    ∃ us c, Lexemes true text us c ∧ us <:+ ts ∧ (c = false → b = false) := by
  induction h with
  | nil b => exact ⟨[], true, .nil true, List.nil_suffix, nofun⟩
  | inside hc h => exact ⟨_, _, .inside hc h, List.suffix_rfl, id⟩
  | newline h => exact ⟨_, _, .newline h, List.suffix_rfl, id⟩
  | @blank d text ts b hc h ih =>
    by_cases hd : d = '\n'
    · subst hd
      exact ⟨ts, b, .newline h, List.suffix_rfl, id⟩
    · obtain ⟨us, c, hus, hsuffix, hc⟩ := ih
      exact ⟨us, c, .inside hd hus, hsuffix, hc⟩
  | comment h =>
    have hslashes : '\n' ∉ ['/', '/'] := by decide
    exact ⟨_, _, h.through hslashes, List.suffix_rfl, id⟩
  | word hword _ _ ih =>
    obtain ⟨us, c, hus, hsuffix, hc⟩ := ih
    exact ⟨us, c, hus.through hword.newline_not_mem, hsuffix.trans (List.suffix_cons _ _), hc⟩

theorem Lexemes.of_nil (h : Lexemes a [] ts b) : ts = [] ∧ b = a := by
  generalize htext : [] = text at h
  cases h with
  | nil => exact ⟨rfl, rfl⟩
  | word hword => exact absurd (List.append_eq_nil_iff.1 htext.symm).1 hword.ne_nil
  | _ => cases htext

theorem Lexemes.exists_part (h : Lexemes false text ts b) :
    ∃ p : Part text, p.seen false = ts ∧ p.ends false = b := by
  obtain ⟨us, c, hus, hsuffix, hc⟩ := h.late
  refine ⟨⟨fun a => bif a then us else ts, fun a => bif a then c else b, ?_, hsuffix, hc⟩, rfl, rfl⟩
  rintro (_ | _)
  · exact h
  · exact hus

def shown (b : Bool) (ts : List Token) : List Token := bif b then [] else ts

@[simp] theorem shown_false : shown false ts = ts := rfl

@[simp] theorem shown_true : shown true ts = [] := rfl

/-- A part with something behind it. -/
theorem Part.append (p : Part text) (hedge : Edge rest) (h : Lexemes (p.ends b) rest us c) :
    Lexemes b (text ++ rest) (p.seen b ++ us) c :=
  (p.lexemes b).append (fun t _ => hedge.head t) h

/-- Something on one line in front of a text. -/
theorem Lexemes.front (hline : '\n' ∉ line)
    (hgs : ∀ us, Lexemes false rest us c → Lexemes false (line ++ rest) (gs ++ us) c)
    (h : Lexemes b rest us c) : Lexemes b (line ++ rest) (shown b gs ++ us) c := by
  cases b with
  | false => exact hgs us h
  | true => exact h.through hline

/-- A word with a blank behind it. -/
theorem Lexemes.spaced {t : Token} {s : String} (ht : t.lexeme = some s)
    (h : Lexemes false rest us c) : Lexemes false (s.toList ++ ' ' :: rest) (t :: us) c := by
  have hedge : Edge (' ' :: rest) := edge_cons (by decide) (by decide) (by decide) rest
  exact .word (Token.spells_lexeme ht) (hedge.head t) (.blank rfl h)

/-- A word that goes on with nothing. -/
theorem Lexemes.mark {t : Token} {s : String} (ht : t.lexeme = some s)
    (hjoins : ∀ d, t.joins d = false) (h : Lexemes false rest us c) :
    Lexemes false (s.toList ++ rest) (t :: us) c :=
  .word (Token.spells_lexeme ht) (fun d _ => hjoins d) h

end TeachLang.Lexer
