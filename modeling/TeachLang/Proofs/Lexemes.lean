import TeachLang.Proofs.Tiling

/-!
# Texts by their words

Which tokens a text consists of does not depend on where it stands, but for what is just in front of
it and just behind: it may begin within a comment, or leave one open, and its last token must not go
on. With these said, texts can be put together.
-/

namespace TeachLang.Lexer

/-- The text consists of spellings of the tokens, with blanks and comments between them. The first
flag tells whether it begins within a comment, and the last one whether it leaves one open. -/
inductive Lexemes : Bool → List Char → List Token → Bool → Prop
  | nil (b : Bool) : Lexemes b [] [] b
  | inside {c : Char} {text : List Char} {ts : List Token} {b : Bool} (hc : c ≠ '\n')
      (h : Lexemes true text ts b) : Lexemes true (c :: text) ts b
  | newline {text : List Char} {ts : List Token} {b : Bool} (h : Lexemes false text ts b) :
      Lexemes true ('\n' :: text) ts b
  | blank {c : Char} {text : List Char} {ts : List Token} {b : Bool}
      (hc : Text.isBlank c = true) (h : Lexemes false text ts b) : Lexemes false (c :: text) ts b
  | comment {text : List Char} {ts : List Token} {b : Bool} (h : Lexemes true text ts b) :
      Lexemes false ('/' :: '/' :: text) ts b
  | word {word text : List Char} {t : Token} {ts : List Token} {b : Bool} (hword : t.Spells word)
      (hjoins : ∀ d ∈ text.head?, t.joins d = false) (h : Lexemes false text ts b) :
      Lexemes false (word ++ text) (t :: ts) b

variable {text rest gap word : List Char} {t : Token} {ts us : List Token} {a b c : Bool}

namespace Lexemes

/-- Texts put one behind the other. -/
theorem append (h : Lexemes a text ts b) (hrest : ∀ t ∈ ts, ∀ d ∈ rest.head?, t.joins d = false)
    (h' : Lexemes b rest us c) : Lexemes a (text ++ rest) (ts ++ us) c := by
  induction h with
  | nil => exact h'
  | inside hc _ ih => exact .inside hc (ih hrest h')
  | newline _ ih => exact .newline (ih hrest h')
  | blank hc _ ih => exact .blank hc (ih hrest h')
  | comment _ ih => exact .comment (ih hrest h')
  | @word word text t ts b hword hjoins _ ih =>
    obtain ⟨ht, hts⟩ := List.forall_mem_cons.1 hrest
    rw [List.append_assoc]
    refine .word hword ?_ (ih hts h')
    cases text with
    | nil => exact ht
    | cons d text => exact hjoins

/-- What stands behind a comment on the same line belongs to it. -/
theorem through {line : List Char} (hline : '\n' ∉ line) (h : Lexemes true text ts b) :
    Lexemes true (line ++ text) ts b := by
  induction line with
  | nil => exact h
  | cons c line ih =>
    obtain ⟨hc, hline⟩ := not_or.1 (mt List.mem_cons.2 hline)
    exact .inside (Ne.symm hc) (ih hline)

theorem of_newline (h : Lexemes false ('\n' :: text) ts b) : Lexemes false text ts b := by
  generalize hcs : '\n' :: text = cs at h
  cases h with
  | nil => cases hcs
  | blank hc h =>
    cases hcs
    exact h
  | comment h => cases hcs
  | word hword =>
    obtain ⟨d, word, rfl⟩ := List.exists_cons_of_ne_nil hword.ne_nil
    obtain ⟨rfl, _⟩ := List.cons.inj hcs
    exact absurd List.mem_cons_self hword.newline_not_mem

/-- What a text consists of is what is read of it. -/
theorem next_skip (h : Lexemes a text ts b) (file : Option String) (p : Position) :
    ∃ ls, next file (tokens file) (skip a p text) = .ok ls ∧ ls.map Located.token = ts := by
  induction h generalizing p with
  | nil b => exact ⟨[], rfl, rfl⟩
  | inside hc _ ih =>
    rw [skip, if_pos rfl, decide_eq_true hc]
    exact ih _
  | newline _ ih => exact ih _
  | blank hc _ ih =>
    rw [skip, if_neg Bool.false_ne_true, if_pos hc]
    exact ih _
  | comment _ ih =>
    have hslash : ¬Text.isBlank '/' = true := by decide
    rw [skip, if_neg Bool.false_ne_true, if_neg hslash, if_pos ⟨rfl, rfl⟩, skip, if_pos rfl]
    exact ih _
  | @word word text t ts b hword hjoins _ ih =>
    obtain ⟨c, word, rfl⟩ := List.exists_cons_of_ne_nil hword.ne_nil
    obtain ⟨ls, hls, rfl⟩ := ih (p.right (c :: word).length)
    rw [← tokens_eq] at hls
    rw [skip_spells hword hjoins]
    simp only [List.cons_append, next, read_spells hword hjoins, hls]
    exact ⟨_, rfl, rfl⟩

end Lexemes

/-! ### Tiled texts -/

theorem Gap.lexemes (h : Gap rest gap) :
    ∃ b, Lexemes false gap [] b ∧ (b = true → ∀ c ∈ rest.head?, c = '\n') := by
  induction h with
  | nil => exact ⟨false, .nil false, nofun⟩
  | blank hc _ ih =>
    obtain ⟨b, hgap, hb⟩ := ih
    exact ⟨b, .blank hc hgap, hb⟩
  | @comment line gap hline hend _ ih =>
    cases gap with
    | nil => exact ⟨true, .comment (.through hline (.nil true)), fun _ => hend⟩
    | cons c gap =>
      obtain rfl := hend c rfl
      obtain ⟨b, hgap, hb⟩ := ih
      exact ⟨b, .comment (.through hline (.newline hgap.of_newline)), hb⟩

/-- A comment in front of a word has ended. -/
theorem Gap.lexemes_word (h : Gap (word ++ rest) gap) (hword : t.Spells word) :
    Lexemes false gap [] false := by
  obtain ⟨b, hgap, hb⟩ := h.lexemes
  cases b with
  | false => exact hgap
  | true =>
    obtain ⟨d, word, rfl⟩ := List.exists_cons_of_ne_nil hword.ne_nil
    have hd : d = '\n' := hb rfl d rfl
    exact absurd (hd ▸ List.mem_cons_self) hword.newline_not_mem

theorem Tiles.lexemes {file : Option String} {p : Position} {ls : List Located}
    (h : Tiles file rest p text ls) : ∃ b, Lexemes false text (ls.map Located.token) b := by
  induction h with
  | gap h =>
    obtain ⟨b, hgap, _⟩ := h.lexemes
    exact ⟨b, hgap⟩
  | token hgap hword hlongest hcomment _ ih =>
    obtain ⟨b, htext⟩ := ih
    rw [List.append_assoc] at hgap hlongest hcomment
    have hjoins := joins_of_longest hword hlongest hcomment
    refine ⟨b, ?_⟩
    rw [List.append_assoc]
    exact (hgap.lexemes_word hword).append nofun
      (.word hword (fun d hd => hjoins d (List.mem_head?_append_of_mem_head? hd)) htext)

end TeachLang.Lexer

namespace TeachLang

open Lexer

theorem scan_of_lexemes {s : String} {ts : List Token} {b : Bool} (h : Lexemes false s.toList ts b)
    (file : Option String) : ∃ ls, scan s file = .ok ls ∧ ls.map Located.token = ts := by
  obtain ⟨ls, hls, hts⟩ := h.next_skip file {}
  rw [← tokens_eq] at hls
  exact ⟨ls, hls, hts⟩

theorem lexemes_of_scan {s : String} {file : Option String} {ls : List Located}
    (h : scan s file = .ok ls) : ∃ b, Lexemes false s.toList (ls.map Located.token) b :=
  Tiles.lexemes (tokens_eq_ok_iff.1 h)

end TeachLang
