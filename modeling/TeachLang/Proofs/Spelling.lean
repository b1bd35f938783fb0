import Mathlib.Data.List.TakeWhile
import TeachLang.Token.Lexer

/-!
# What spells a token

The token that is read at the front of a text is spelled by the characters that are read, and these
hold no newline.
-/

namespace TeachLang

namespace Token

open Lexer

inductive Spells : Token → List Char → Prop
  | lexeme {t : Token} {cs : List Char} (h : t.lexeme = some (String.ofList cs)) : Spells t cs
  | name {c : Char} {cs : List Char} (hc : isNameStart c = true)
      (hcs : ∀ d ∈ cs, isNamePart d = true) (h : keyword? (String.ofList (c :: cs)) = none) :
      Spells (ident (String.ofList (c :: cs))) (c :: cs)
  | number {digits : List Char} {v : Int64} (hne : digits ≠ [])
      (hdigits : ∀ d ∈ digits, d.isDigit = true)
      (h : Text.word? (Text.digitsValue digits) = some v) : Spells (number v) digits

variable {t : Token} {word : List Char}

theorem Spells.ne_endOfInput (h : t.Spells word) : t ≠ endOfInput := by
  rintro rfl
  cases h with
  | lexeme h => cases h

theorem word_of_lexeme (h : t.lexeme = some (String.ofList word)) :
    word ≠ [] ∧ '\n' ∉ word := by
  rw [← String.toList_ofList (l := word)]
  generalize String.ofList word = s at h
  cases t <;> cases h <;> decide

theorem Spells.ne_nil (h : t.Spells word) : word ≠ [] := by
  cases h with
  | lexeme h => exact (word_of_lexeme h).1
  | name => exact List.cons_ne_nil _ _
  | number hne => exact hne

theorem Spells.newline_not_mem (h : t.Spells word) : '\n' ∉ word := by
  cases h with
  | lexeme h => exact (word_of_lexeme h).2
  | name hc hcs =>
    intro hmem
    rcases List.mem_cons.1 hmem with rfl | hmem
    · cases hc
    · cases hcs _ hmem
  | number _ hdigits =>
    intro hmem
    cases hdigits _ hmem

theorem lexeme_of_keyword? {s : String} (h : keyword? s = some t) : t.lexeme = some s := by
  unfold keyword? at h
  split at h <;> cases h <;> rfl

theorem spells_ofWord {c : Char} {cs : List Char} (hc : isNameStart c = true)
    (hcs : ∀ d ∈ cs, isNamePart d = true) :
    (ofWord (String.ofList (c :: cs))).Spells (c :: cs) := by
  unfold ofWord
  cases hk : keyword? (String.ofList (c :: cs)) with
  | none => exact .name hc hcs hk
  | some t => exact .lexeme (lexeme_of_keyword? hk)

end Token

namespace Lexer

structure Reading.Of (r : Reading) (text word : List Char) : Prop where
  text_eq : text = word ++ r.rest
  width_eq : r.width = word.length
  spells : r.token.Spells word

theorem oneOrTwo_of {c d : Char} {single double : Token} (hsingle : single.Spells [c])
    (hdouble : double.Spells [c, d]) (cs : List Char) :
    ∃ word, (oneOrTwo d single double cs).Of (c :: cs) word := by
  cases cs with
  | nil => exact ⟨[c], rfl, rfl, hsingle⟩
  | cons e cs =>
    unfold oneOrTwo
    by_cases he : e = d
    · subst he
      exact ⟨[c, e], by simp, by simp, by simpa using hdouble⟩
    · exact ⟨[c], by simp [he], by simp [he], by simpa [he] using hsingle⟩

theorem doubled_of {c : Char} {token : Token} (htoken : token.Spells [c, c]) {cs : List Char}
    {r : Reading} (h : doubled c token cs = .ok r) : ∃ word, r.Of (c :: cs) word := by
  cases cs with
  | nil => cases h
  | cons d cs =>
    rw [doubled] at h
    by_cases hd : d = c
    · rw [if_pos hd] at h
      cases h
      exact ⟨[c, c], by simp [hd], rfl, htoken⟩
    · rw [if_neg hd] at h
      cases h

theorem spells_of_single? {c : Char} {t : Token} (h : single? c = some t) : t.Spells [c] := by
  unfold single? at h
  split at h <;> cases h <;> exact .lexeme rfl

theorem read_of {c : Char} {cs : List Char} {r : Reading} (h : read c cs = .ok r) :
    ∃ word, r.Of (c :: cs) word := by
  unfold read at h
  split at h
  · next hc =>
    cases h
    refine ⟨c :: cs.takeWhile isNamePart, ?_, rfl, ?_⟩
    · rw [List.cons_append, List.takeWhile_append_dropWhile]
    · exact Token.spells_ofWord hc fun d hd => List.mem_takeWhile_imp hd
  split at h
  · next hc =>
    dsimp only at h
    split at h
    · next v hv =>
      cases h
      refine ⟨c :: cs.takeWhile Char.isDigit, ?_, rfl, .number (List.cons_ne_nil _ _) ?_ hv⟩
      · rw [List.cons_append, List.takeWhile_append_dropWhile]
      · exact List.forall_mem_cons.2 ⟨hc, fun d hd => List.mem_takeWhile_imp hd⟩
    · cases h
  split at h
  · next hc =>
    subst hc
    cases h
    exact oneOrTwo_of (.lexeme rfl) (.lexeme rfl) cs
  split at h
  · next hc =>
    subst hc
    cases h
    exact oneOrTwo_of (.lexeme rfl) (.lexeme rfl) cs
  split at h
  · next hc =>
    subst hc
    cases h
    exact oneOrTwo_of (.lexeme rfl) (.lexeme rfl) cs
  split at h
  · next hc =>
    subst hc
    cases h
    exact oneOrTwo_of (.lexeme rfl) (.lexeme rfl) cs
  split at h
  · next hc =>
    subst hc
    exact doubled_of (.lexeme rfl) h
  split at h
  · next hc =>
    subst hc
    exact doubled_of (.lexeme rfl) h
  split at h
  · next t ht =>
    cases h
    exact ⟨[c], rfl, rfl, spells_of_single? ht⟩
  · cases h

end Lexer

end TeachLang
