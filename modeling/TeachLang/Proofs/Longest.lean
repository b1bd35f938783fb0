import TeachLang.Proofs.Writing

/-!
# The longest spelling

The token read at the front of a text is spelled by the longest spelling that stands there. There is
none where a character begins no spelling, where one that must be doubled is not, and where the
digits have a value that is too large.
-/

namespace TeachLang.Lexer

/-- The characters spell a token, or they are digits, be their value too large for a token or
not. -/
inductive Spelling : List Char → Prop
  | token {t : Token} {word : List Char} (h : t.Spells word) : Spelling word
  | digits {word : List Char} (hne : word ≠ []) (hdigits : ∀ d ∈ word, d.isDigit = true) :
      Spelling word

def Longest (word text : List Char) : Prop :=
  ∀ other, Spelling other → other <+: text → other.length ≤ word.length

inductive Stuck : List Char → SyntaxCause → Prop
  | unknown {c : Char} {cs : List Char} (hblank : Text.isBlank c = false)
      (h : ∀ word, ¬Spelling (c :: word)) : Stuck (c :: cs) (.unknownCharacter c)
  | undoubled {c : Char} {cs : List Char} (hc : c = '&' ∨ c = '|') (hcs : cs.head? ≠ some c) :
      Stuck (c :: cs) (.unknownCharacter c)
  | number {digits cs : List Char} (hne : digits ≠ [])
      (hdigits : ∀ d ∈ digits, d.isDigit = true) (hcs : ∀ d ∈ cs.head?, d.isDigit = false)
      (hlarge : Int64.maxValue.toInt < Text.digitsValue digits) :
      Stuck (digits ++ cs) (.invalidNumber (String.ofList digits))

variable {t : Token} {c : Char} {word cs : List Char} {r : Reading}

theorem Longest.mono {text text' : List Char} (h : Longest word text) (htext : text' <+: text) :
    Longest word text' :=
  fun other hother hfront => h other hother (hfront.trans htext)

/-! ### What is read is longest -/

theorem not_isNameStart_of_isDigit (hc : c.isDigit = true) : ¬isNameStart c = true := by
  intro h
  have hletter := toNat_of_isNameStart h
  have hdigit := toNat_of_isDigit hc
  omega

theorem length_le_takeWhile {p : Char → Bool} (hword : ∀ d ∈ word, p d = true) (cs : List Char) :
    word.length ≤ ((word ++ cs).takeWhile p).length := by
  rw [List.takeWhile_append_of_pos hword, List.length_append]
  omega

theorem width_of_name (hc : isNameStart c = true) (hword : ∀ d ∈ word, isNamePart d = true)
    (h : read c (word ++ cs) = .ok r) : (c :: word).length ≤ r.width := by
  rw [read, if_pos hc] at h
  cases h
  exact Nat.succ_le_succ (length_le_takeWhile hword cs)

theorem width_of_digits (hword : ∀ d ∈ c :: word, d.isDigit = true)
    (h : read c (word ++ cs) = .ok r) : (c :: word).length ≤ r.width := by
  have hc := hword c List.mem_cons_self
  rw [read, if_neg (not_isNameStart_of_isDigit hc), if_pos hc] at h
  dsimp only at h
  split at h
  · cases h
    exact Nat.succ_le_succ
      (length_le_takeWhile (fun d hd => hword d (List.mem_cons_of_mem c hd)) cs)
  · cases h

theorem width_of_lexeme {s : String} (ht : t.lexeme = some s) (hs : s.toList = c :: word)
    (h : read c (word ++ cs) = .ok r) : (c :: word).length ≤ r.width := by
  have hpos : 1 ≤ r.width := by
    obtain ⟨other, hof⟩ := read_of h
    rw [hof.width_eq]
    exact List.length_pos_iff.2 hof.spells.ne_nil
  cases t with
  | ident | number | endOfInput => cases ht
  | ifWord | elseWord | whileWord | forWord | printWord | varWord =>
    cases ht
    simp only [String.reduceToList, List.cons.injEq] at hs
    obtain ⟨rfl, rfl⟩ := hs
    exact width_of_name (by decide) (List.all_eq_true.1 (by decide)) h
  | lessEqual | greaterEqual | equal | notEqual | and | or =>
    cases ht
    simp only [String.reduceToList, List.cons.injEq] at hs
    obtain ⟨rfl, rfl⟩ := hs
    cases h
    exact Nat.le_refl 2
  | _ =>
    cases ht
    simp only [String.reduceToList, List.cons.injEq] at hs
    obtain ⟨rfl, rfl⟩ := hs
    exact hpos

theorem width_of_spelling (hword : Spelling (c :: word)) (h : read c (word ++ cs) = .ok r) :
    (c :: word).length ≤ r.width := by
  cases hword with
  | digits _ hdigits => exact width_of_digits hdigits h
  | token hword =>
    cases hword with
    | lexeme ht => exact width_of_lexeme ht String.toList_ofList h
    | name hc hpart => exact width_of_name hc hpart h
    | number _ hdigits => exact width_of_digits hdigits h

theorem Spelling.ne_nil (h : Spelling word) : word ≠ [] := by
  cases h with
  | token h => exact h.ne_nil
  | digits hne => exact hne

theorem read_longest (h : read c cs = .ok r) :
    ∃ word, r.Of (c :: cs) word ∧ Longest word (c :: cs) := by
  obtain ⟨word, hof⟩ := read_of h
  refine ⟨word, hof, ?_⟩
  intro other hother hfront
  rw [← hof.width_eq]
  obtain ⟨d, other, rfl⟩ := List.exists_cons_of_ne_nil hother.ne_nil
  obtain ⟨rest, hrest⟩ := hfront
  rw [List.cons_append] at hrest
  obtain ⟨rfl, rfl⟩ := List.cons.inj hrest
  exact width_of_spelling hother h

/-! ### What is longest is read -/

theorem spelling_name (hc : isNameStart c = true) (hword : ∀ d ∈ word, isNamePart d = true) :
    Spelling (c :: word) :=
  .token (Token.spells_ofWord hc hword)

/-- A spelling that goes on is part of a longer one, or it begins a comment. -/
theorem spelling_of_joins {d : Char} (h : t.Spells word) (hd : t.joins d = true) :
    Spelling (word ++ [d]) ∨ word ++ [d] = ['/', '/'] := by
  have happend : ∀ {p : Char → Bool} {cs : List Char}, (∀ e ∈ cs, p e = true) → p d = true →
      ∀ e ∈ cs ++ [d], p e = true := by
    intro p cs hcs hd e he
    rcases List.mem_append.1 he with he | he
    · exact hcs e he
    · rw [List.mem_singleton.1 he]
      exact hd
  cases h with
  | name hc hcs => exact .inl (spelling_name hc (happend hcs hd))
  | number _ hdigits => exact .inl (.digits (by simp) (happend hdigits hd))
  | lexeme h =>
    obtain ⟨s, hs, rfl⟩ := Token.exists_lexeme h
    cases t with
    | ident | number | endOfInput => cases hs
    | ifWord | elseWord | whileWord | forWord | printWord | varWord =>
      cases hs
      exact .inl (spelling_name (by decide) (happend (List.all_eq_true.1 (by decide)) hd))
    | assign =>
      cases hs
      obtain rfl := of_decide_eq_true hd
      exact .inl (.token (t := .equal) (.lexeme rfl))
    | less =>
      cases hs
      obtain rfl := of_decide_eq_true hd
      exact .inl (.token (t := .lessEqual) (.lexeme rfl))
    | greater =>
      cases hs
      obtain rfl := of_decide_eq_true hd
      exact .inl (.token (t := .greaterEqual) (.lexeme rfl))
    | not =>
      cases hs
      obtain rfl := of_decide_eq_true hd
      exact .inl (.token (t := .notEqual) (.lexeme rfl))
    | divide =>
      cases hs
      obtain rfl := of_decide_eq_true hd
      exact .inr rfl
    | _ => cases hd

theorem joins_of_longest (h : t.Spells word) (hlongest : Longest word (word ++ cs))
    (hcomment : ¬['/', '/'] <+: word ++ cs) : ∀ d ∈ cs.head?, t.joins d = false := by
  intro d hd
  obtain ⟨rest, rfl⟩ := List.head?_eq_some_iff.1 hd
  have hfront : word ++ [d] <+: word ++ d :: rest := ⟨rest, by simp⟩
  rw [Bool.eq_false_iff]
  intro hjoins
  rcases spelling_of_joins h hjoins with hspelling | hslash
  · have hle := hlongest _ hspelling hfront
    rw [List.length_append, List.length_singleton] at hle
    omega
  · rw [hslash] at hfront
    exact hcomment hfront

/-! ### Where nothing is read -/

theorem spells_head (h : t.Spells (c :: word)) :
    isNameStart c = true ∨ c.isDigit = true ∨ c ∈ ['=', '!', '<', '>', '&', '|'] ∨
      single? c ≠ none := by
  cases h with
  | name hc => exact .inl hc
  | number _ hdigits => exact .inr (.inl (hdigits c List.mem_cons_self))
  | lexeme h =>
    obtain ⟨s, hs, hlist⟩ := Token.exists_lexeme h
    cases t <;> cases hs <;> simp only [String.reduceToList, List.cons.injEq] at hlist <;>
      obtain ⟨rfl, rfl⟩ := hlist <;> decide

theorem stuck_of_doubled {cause : SyntaxCause} (hc : c = '&' ∨ c = '|')
    (h : doubled c t cs = .error cause) : Stuck (c :: cs) cause := by
  cases cs with
  | nil =>
    cases h
    exact .undoubled hc nofun
  | cons d cs =>
    rw [doubled] at h
    split at h
    · cases h
    · next hd =>
      cases h
      apply Stuck.undoubled hc
      intro hhead
      exact hd (Option.some.inj hhead)

theorem stuck_of_digits (hc : c.isDigit = true)
    (h : Text.word? (Text.digitsValue (c :: cs.takeWhile Char.isDigit)) = none) :
    Stuck (c :: cs) (.invalidNumber (String.ofList (c :: cs.takeWhile Char.isDigit))) := by
  have hdigits : ∀ d ∈ c :: cs.takeWhile Char.isDigit, d.isDigit = true :=
    List.forall_mem_cons.2 ⟨hc, fun d hd => List.mem_takeWhile_imp hd⟩
  have hstop : ∀ d ∈ (cs.dropWhile Char.isDigit).head?, d.isDigit = false := by
    intro d hd
    have hnot := List.head?_dropWhile_not Char.isDigit cs
    rw [Option.mem_def.1 hd] at hnot
    exact hnot
  have hlarge : Int64.maxValue.toInt <
      Text.digitsValue (c :: cs.takeWhile Char.isDigit) := by
    have hmin : Int64.minValue.toInt = -2 ^ 63 := rfl
    rw [Text.word?] at h
    split at h
    · cases h
    · omega
  have hstuck := Stuck.number (List.cons_ne_nil _ _) hdigits hstop hlarge
  rwa [List.cons_append, List.takeWhile_append_dropWhile] at hstuck

theorem stuck_of_read {cause : SyntaxCause} (hblank : Text.isBlank c = false)
    (h : read c cs = .error cause) : Stuck (c :: cs) cause := by
  unfold read at h
  split at h
  · cases h
  split at h
  · next hc =>
    dsimp only at h
    split at h
    · cases h
    · next hnone =>
      cases h
      exact stuck_of_digits hc hnone
  split at h
  · cases h
  split at h
  · cases h
  split at h
  · cases h
  split at h
  · cases h
  split at h
  · next hc =>
    subst hc
    exact stuck_of_doubled (.inl rfl) h
  split at h
  · next hc =>
    subst hc
    exact stuck_of_doubled (.inr rfl) h
  split at h
  · cases h
  · next hstart hdigit heq hnot hless hgreater hand hor _ hsingle =>
    cases h
    apply Stuck.unknown hblank
    intro word hword
    cases hword with
    | digits _ hdigits => exact hdigit (hdigits c List.mem_cons_self)
    | token hword =>
      rcases spells_head hword with h | h | h | h
      · exact hstart h
      · exact hdigit h
      · simp only [List.mem_cons, List.not_mem_nil, or_false] at h
        rcases h with h | h | h | h | h | h <;> contradiction
      · exact h hsingle

theorem read_undoubled (hc : c = '&' ∨ c = '|') (hcs : cs.head? ≠ some c) :
    read c cs = .error (.unknownCharacter c) := by
  have hdoubled : ∀ t, doubled c t cs = .error (.unknownCharacter c) := by
    intro t
    cases cs with
    | nil => rfl
    | cons d cs => rw [doubled, if_neg fun h => hcs (congrArg some h)]
  rcases hc with rfl | rfl
  · exact hdoubled .and
  · exact hdoubled .or

theorem read_large (hdigits : ∀ d ∈ c :: word, d.isDigit = true)
    (hcs : ∀ d ∈ cs.head?, d.isDigit = false)
    (hlarge : Int64.maxValue.toInt < Text.digitsValue (c :: word)) :
    read c (word ++ cs) = .error (.invalidNumber (String.ofList (c :: word))) := by
  have hc := hdigits c List.mem_cons_self
  have hnone : Text.word? (Text.digitsValue (c :: word)) = none := by
    rw [Text.word?, if_neg]
    omega
  obtain ⟨htake, hdrop⟩ :=
    takeWhile_append_of_head (fun d hd => hdigits d (List.mem_cons_of_mem c hd)) hcs
  rw [read, if_neg (not_isNameStart_of_isDigit hc), if_pos hc]
  simp only [htake, hnone]

theorem Stuck.cause_eq {cause : SyntaxCause} (h : Stuck (c :: cs) cause) :
    cause = .unknownCharacter c ∨ c.isDigit = true := by
  generalize htext : c :: cs = text at h
  cases h with
  | unknown =>
    cases htext
    exact .inl rfl
  | undoubled =>
    cases htext
    exact .inl rfl
  | number hne hdigits =>
    obtain ⟨d, digits, rfl⟩ := List.exists_cons_of_ne_nil hne
    obtain ⟨rfl, -⟩ := List.cons.inj htext
    exact .inr (hdigits c List.mem_cons_self)

theorem read_unknown (hblank : Text.isBlank c = false) (h : ∀ word, ¬Spelling (c :: word)) :
    read c cs = .error (.unknownCharacter c) := by
  cases hread : read c cs with
  | ok r =>
    obtain ⟨word, hof⟩ := read_of hread
    obtain ⟨d, word, rfl⟩ := List.exists_cons_of_ne_nil hof.spells.ne_nil
    obtain ⟨rfl, -⟩ := List.cons.inj hof.text_eq
    exact absurd (.token hof.spells) (h word)
  | error cause =>
    rcases (stuck_of_read hblank hread).cause_eq with rfl | hdigit
    · rfl
    · exact absurd (.digits (List.cons_ne_nil c []) (by simpa using hdigit)) (h [])

theorem read_of_stuck {cause : SyntaxCause} (h : Stuck (c :: cs) cause) :
    read c cs = .error cause := by
  generalize htext : c :: cs = text at h
  cases h with
  | unknown hblank h =>
    cases htext
    exact read_unknown hblank h
  | undoubled hc hcs =>
    cases htext
    exact read_undoubled hc hcs
  | number hne hdigits hcs hlarge =>
    obtain ⟨d, digits, rfl⟩ := List.exists_cons_of_ne_nil hne
    obtain ⟨rfl, rfl⟩ := List.cons.inj htext
    exact read_large hdigits hcs hlarge

end TeachLang.Lexer
