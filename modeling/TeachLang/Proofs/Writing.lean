import TeachLang.Proofs.Alike
import TeachLang.Proofs.Lines

/-!
# Texts made of words

A text that is made of spellings, with blanks between them at will, is read as the tokens that they
spell, as long as no spelling goes on in what stands behind it.
-/

namespace TeachLang

namespace Token

open Lexer

/-- Whether a spelling of the token goes on with `c`. A slash and another one begin a comment. -/
def joins : Token → Char → Bool
  | number _, c => c.isDigit
  | ident _, c | ifWord, c | elseWord, c | whileWord, c | forWord, c | printWord, c | varWord, c =>
    isNamePart c
  | assign, c | less, c | greater, c | not, c => c = '='
  | divide, c => c = '/'
  | _, _ => false

theorem spells_lexeme {t : Token} {s : String} (h : t.lexeme = some s) : t.Spells s.toList :=
  .lexeme (by rw [h, String.ofList_toList])

theorem exists_lexeme {t : Token} {word : List Char} (h : t.lexeme = some (String.ofList word)) :
    ∃ s, t.lexeme = some s ∧ s.toList = word :=
  ⟨_, h, String.toList_ofList⟩

end Token

namespace Lexer

def Edge (cs : List Char) : Prop := ∀ d ∈ cs.head?, ∀ t : Token, t.joins d = false

theorem isDigit_eq_false {c : Char} (hc : isNamePart c = false) : c.isDigit = false := by
  rw [isNamePart, Char.isAlphanum, Bool.or_eq_false_iff, Bool.or_eq_false_iff] at hc
  exact hc.1.2

theorem edge_cons {c : Char} (hc : isNamePart c = false) (heq : c ≠ '=') (hslash : c ≠ '/')
    (cs : List Char) : Edge (c :: cs) := by
  have hdigit := isDigit_eq_false hc
  have hjoins : ∀ t : Token, t.joins c = false := by
    intro t
    cases t with
    | number => exact hdigit
    | ident | ifWord | elseWord | whileWord | forWord | printWord | varWord => exact hc
    | assign | less | greater | not => exact decide_eq_false heq
    | divide => exact decide_eq_false hslash
    | _ => rfl
  intro d hd t
  obtain rfl : c = d := Option.mem_some_iff.1 hd
  exact hjoins t

theorem edge_nil : Edge [] := nofun

theorem Edge.head {cs : List Char} (h : Edge cs) (t : Token) : ∀ d ∈ cs.head?, t.joins d = false :=
  fun d hd => h d hd t

/-! ### Characters -/

theorem toNat_of_isDigit {c : Char} (h : c.isDigit = true) : 48 ≤ c.toNat ∧ c.toNat ≤ 57 := by
  simp only [Char.isDigit, Bool.and_eq_true, decide_eq_true_eq, ge_iff_le,
    UInt32.le_iff_toNat_le] at h
  exact h

theorem toNat_of_isNameStart {c : Char} (h : isNameStart c = true) :
    65 ≤ c.toNat ∧ c.toNat ≤ 122 := by
  rw [isNameStart, Bool.or_eq_true, decide_eq_true_eq] at h
  rcases h with h | rfl
  · rcases (Bool.or_eq_true _ _).mp h with h | h
    · have hupper : 65 ≤ c.toNat ∧ c.toNat ≤ 90 := of_decide_eq_true h
      omega
    · obtain ⟨hlow, hhigh⟩ := (Bool.and_eq_true _ _).mp h
      have hlow : 97 ≤ c.toNat := of_decide_eq_true hlow
      have hhigh : c.toNat ≤ 122 := of_decide_eq_true hhigh
      omega
  · decide

theorem isBlank_eq_false {c : Char} (h : 33 ≤ c.toNat) (h' : c.toNat ≤ 126) :
    Text.isBlank c = false := by
  simp only [Text.isBlank, Bool.or_eq_false_iff, Bool.and_eq_false_iff, decide_eq_false_iff_not,
    beq_eq_false_iff_ne]
  omega

theorem toNat_of_isNamePart {c : Char} (h : isNamePart c = true) :
    48 ≤ c.toNat ∧ c.toNat ≤ 122 := by
  rw [isNamePart, Char.isAlphanum, Bool.or_eq_true, Bool.or_eq_true] at h
  rcases h with (h | h) | h
  · have hletter := toNat_of_isNameStart (c := c) (by rw [isNameStart, h, Bool.true_or])
    omega
  · have hdigit := toNat_of_isDigit h
    omega
  · have hletter := toNat_of_isNameStart (c := c) (by rw [isNameStart, h, Bool.or_true])
    omega

theorem isNamePart_of_isBlank {c : Char} (hc : Text.isBlank c = true) : isNamePart c = false := by
  by_contra h
  rw [Bool.not_eq_false] at h
  have hrange := toNat_of_isNamePart h
  have hblank : Text.isBlank c = false := isBlank_eq_false (by omega) (by omega)
  rw [hblank] at hc
  cases hc

theorem edge_blank {c : Char} (hc : Text.isBlank c = true) (cs : List Char) : Edge (c :: cs) := by
  apply edge_cons (isNamePart_of_isBlank hc)
  · rintro rfl
    cases hc
  · rintro rfl
    cases hc

/-! ### One spelling -/

theorem takeWhile_append_of_head {p : Char → Bool} {word cs : List Char}
    (hword : ∀ d ∈ word, p d = true) (hcs : ∀ d ∈ cs.head?, p d = false) :
    (word ++ cs).takeWhile p = word ∧ (word ++ cs).dropWhile p = cs := by
  have hstop : cs.takeWhile p = [] ∧ cs.dropWhile p = cs := by
    cases cs with
    | nil => exact ⟨rfl, rfl⟩
    | cons d cs => simp [hcs d rfl]
  rw [List.takeWhile_append_of_pos hword, List.dropWhile_append_of_pos hword, hstop.1, hstop.2,
    List.append_nil]
  exact ⟨rfl, rfl⟩

section

variable {c : Char} {word cs : List Char}

theorem read_name (hc : isNameStart c = true) (hword : ∀ d ∈ word, isNamePart d = true)
    (hcs : ∀ d ∈ cs.head?, isNamePart d = false) :
    read c (word ++ cs) =
      .ok ⟨Token.ofWord (String.ofList (c :: word)), (c :: word).length, cs⟩ := by
  obtain ⟨htake, hdrop⟩ := takeWhile_append_of_head hword hcs
  rw [read, if_pos hc, htake, hdrop]

theorem read_number {v : Int64} (hc : c.isDigit = true) (hword : ∀ d ∈ word, d.isDigit = true)
    (hcs : ∀ d ∈ cs.head?, d.isDigit = false)
    (hv : Text.word? (Text.digitsValue (c :: word)) = some v) :
    read c (word ++ cs) = .ok ⟨.number v, (c :: word).length, cs⟩ := by
  have hstart : ¬isNameStart c = true := by
    intro h
    have hletter := toNat_of_isNameStart h
    have hdigit := toNat_of_isDigit hc
    omega
  obtain ⟨htake, hdrop⟩ := takeWhile_append_of_head hword hcs
  rw [read, if_neg hstart, if_pos hc]
  simp only [htake, hdrop, hv]

theorem oneOrTwo_single {d : Char} (single double : Token) (hcs : d ∉ cs.head?) :
    oneOrTwo d single double cs = ⟨single, 1, cs⟩ := by
  cases cs with
  | nil => rfl
  | cons e cs =>
    rw [oneOrTwo, if_neg fun h => hcs (Option.mem_some.2 h)]

theorem read_lexeme {t : Token} {s : String} (h : t.lexeme = some s) (hs : s.toList = c :: word)
    (hcs : ∀ d ∈ cs.head?, t.joins d = false) :
    read c (word ++ cs) = .ok ⟨t, (c :: word).length, cs⟩ := by
  have hsingle : ∀ {d : Char}, (∀ e ∈ cs.head?, decide (e = d) = false) → d ∉ cs.head? :=
    fun h hmem => by simpa using h _ hmem
  cases t with
  | ident | number | endOfInput => cases h
  | ifWord | elseWord | whileWord | forWord | printWord | varWord =>
    cases h
    simp only [String.reduceToList, List.cons.injEq] at hs
    obtain ⟨rfl, rfl⟩ := hs
    exact read_name (by decide) (List.all_eq_true.1 (by decide)) hcs
  | assign | less | greater | not =>
    cases h
    simp only [String.reduceToList, List.cons.injEq] at hs
    obtain ⟨rfl, rfl⟩ := hs
    exact congrArg Except.ok (oneOrTwo_single _ _ (hsingle hcs))
  | _ =>
    cases h
    simp only [String.reduceToList, List.cons.injEq] at hs
    obtain ⟨rfl, rfl⟩ := hs
    rfl

/-- What is written is read, if it does not go on behind. -/
theorem read_spells {t : Token} (h : t.Spells (c :: word))
    (hcs : ∀ d ∈ cs.head?, t.joins d = false) :
    read c (word ++ cs) = .ok ⟨t, (c :: word).length, cs⟩ := by
  cases h with
  | name hc hword hk =>
    rw [read_name hc hword hcs, Token.ofWord, hk]
    rfl
  | number hne hdigits hv =>
    exact read_number (hdigits c List.mem_cons_self)
      (fun d hd => hdigits d (List.mem_cons_of_mem c hd)) hcs hv
  | lexeme h => exact read_lexeme h String.toList_ofList hcs

theorem isBlank_of_spells {t : Token} (h : t.Spells (c :: word)) : Text.isBlank c = false := by
  cases h with
  | name hc =>
    have hletter := toNat_of_isNameStart hc
    exact isBlank_eq_false (by omega) (by omega)
  | number hne hdigits =>
    have hdigit := toNat_of_isDigit (hdigits c List.mem_cons_self)
    exact isBlank_eq_false (by omega) (by omega)
  | lexeme h =>
    obtain ⟨s, hs, hlist⟩ := Token.exists_lexeme h
    cases t <;> cases hs <;> simp only [String.reduceToList, List.cons.injEq] at hlist <;>
      obtain ⟨rfl, rfl⟩ := hlist <;> rfl

/-- A spelling does not begin a comment. -/
theorem slash_of_spells {t : Token} (h : t.Spells (c :: word))
    (hcs : ∀ d ∈ cs.head?, t.joins d = false) : ¬(c = '/' ∧ (word ++ cs).head? = some '/') := by
  rintro ⟨rfl, hslash⟩
  cases h with
  | name hc => cases hc
  | number hne hdigits => cases hdigits '/' List.mem_cons_self
  | lexeme h =>
    obtain ⟨s, hs, hlist⟩ := Token.exists_lexeme h
    have hdivide : t = .divide ∧ word = [] := by
      cases t <;> cases hs <;> simp at hlist ⊢
      exact hlist
    obtain ⟨rfl, rfl⟩ := hdivide
    cases hcs '/' hslash

theorem skip_spells {t : Token} (h : t.Spells (c :: word))
    (hcs : ∀ d ∈ cs.head?, t.joins d = false) (p : Position) :
    skip false p (c :: word ++ cs) = (p, c :: word ++ cs) := by
  rw [List.cons_append, skip, if_neg Bool.false_ne_true,
    if_neg (Bool.eq_false_iff.1 (isBlank_of_spells h)), if_neg (slash_of_spells h hcs)]

end

/-! ### Many spellings -/

inductive Writes : List Char → List Located → Prop
  | nil : Writes [] []
  | blank {c : Char} {cs : List Char} {ls : List Located} (hc : Text.isBlank c = true)
      (h : Writes cs ls) : Writes (c :: cs) ls
  | word {word cs : List Char} {l : Located} {ls : List Located} (hword : l.token.Spells word)
      (hcs : ∀ d ∈ cs.head?, l.token.joins d = false) (h : Writes cs ls) :
      Writes (word ++ cs) (l :: ls)

namespace Writes

variable {cs ds : List Char} {ls us : List Located}

theorem append (h : Writes cs ls) (hds : Edge ds) (h' : Writes ds us) :
    Writes (cs ++ ds) (ls ++ us) := by
  induction h with
  | nil => exact h'
  | blank hc _ ih => exact .blank hc ih
  | @word word cs l ls hword hcs _ ih =>
    rw [List.append_assoc]
    refine .word hword ?_ ih
    cases cs with
    | nil => exact hds.head l.token
    | cons c cs => exact hcs

theorem last {t : Token} {word : List Char} (h : t.Spells word) : Writes word [⟨t, {}⟩] := by
  have hw := Writes.word (l := ⟨t, {}⟩) h (edge_nil.head t) .nil
  rwa [List.append_nil] at hw

theorem lexeme {t : Token} {s : String} (ht : t.lexeme = some s)
    (hcs : ∀ d ∈ cs.head?, t.joins d = false) (h : Writes cs ls) :
    Writes (s.toList ++ cs) (⟨t, {}⟩ :: ls) :=
  .word (l := ⟨t, {}⟩) (Token.spells_lexeme ht) hcs h

/-- What is written is read as the same tokens. -/
theorem tokens (h : Writes cs ls) (file : Option String) (p : Position) :
    ∃ us, Lexer.tokens file p cs = .ok us ∧ List.Forall₂ (Located.Alike Span.Any) ls us := by
  induction h generalizing p with
  | nil => exact ⟨[], rfl, .nil⟩
  | @blank c cs ls hc _ ih =>
    obtain ⟨us, hus, halike⟩ := ih (p.after c)
    refine ⟨us, ?_, halike⟩
    rw [tokens_eq, skip, if_neg Bool.false_ne_true, if_pos hc, ← tokens_eq, hus]
  | @word word cs l ls hword hcs _ ih =>
    obtain ⟨c, word, rfl⟩ := List.exists_cons_of_ne_nil hword.ne_nil
    obtain ⟨us, hus, halike⟩ := ih (p.right (c :: word).length)
    let behind := p.right (c :: word).length
    let span : Span := ⟨file, p.line, p.column, behind.line, behind.column - 1⟩
    refine ⟨⟨l.token, span⟩ :: us, ?_, .cons ⟨rfl, trivial⟩ halike⟩
    rw [tokens_eq, skip_spells hword hcs, List.cons_append]
    simp only [next, read_spells hword hcs, hus]
    rfl

end Writes

end Lexer

theorem scan_of_writes {s : String} {ls : List Located} (h : Lexer.Writes s.toList ls)
    (file : Option String) :
    ∃ us, scan s file = .ok us ∧ List.Forall₂ (Located.Alike Span.Any) ls us :=
  h.tokens file {}

end TeachLang
