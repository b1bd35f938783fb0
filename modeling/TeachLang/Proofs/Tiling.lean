import TeachLang.Proofs.Longest

/-!
# How tokens tile a text

A text that can be scanned consists of spellings, each the longest at its place, and of blanks and
comments before, between and behind them; the span of a token is where its spelling stands. Of any
other text this holds up to a character at which no token begins.
-/

namespace TeachLang

namespace Lexer

/-! ### Blanks and comments -/

/-- Blanks and comments in front of some text; a comment is ended by a newline or by the end. -/
inductive Gap (rest : List Char) : List Char → Prop
  | nil : Gap rest []
  | blank {c : Char} {gap : List Char} (hc : Text.isBlank c = true) (h : Gap rest gap) :
      Gap rest (c :: gap)
  | comment {line gap : List Char} (hline : '\n' ∉ line)
      (hend : ∀ c ∈ (gap ++ rest).head?, c = '\n') (h : Gap rest gap) :
      Gap rest ('/' :: '/' :: (line ++ gap))

def Bare (text : List Char) : Prop :=
  (∀ c ∈ text.head?, Text.isBlank c = false) ∧ ¬['/', '/'] <+: text

theorem skip_of_bare {text : List Char} (h : Bare text) (p : Position) :
    skip false p text = (p, text) := by
  cases text with
  | nil => rfl
  | cons c cs =>
    have hcomment : ¬(c = '/' ∧ cs.head? = some '/') := by
      rintro ⟨rfl, hcs⟩
      obtain ⟨rest, rfl⟩ := List.head?_eq_some_iff.1 hcs
      exact h.2 ⟨rest, rfl⟩
    rw [skip, if_neg Bool.false_ne_true, if_neg (Bool.eq_false_iff.1 (h.1 c rfl)), if_neg hcomment]

theorem skip_comment {line rest : List Char} (hline : '\n' ∉ line)
    (hend : ∀ c ∈ rest.head?, c = '\n') (p : Position) :
    skip true p (line ++ rest) = skip false (p.past line) rest := by
  induction line generalizing p with
  | nil =>
    cases rest with
    | nil => rfl
    | cons c rest =>
      obtain rfl := hend c rfl
      have hblank : Text.isBlank '\n' = true := by decide
      rw [List.nil_append, Position.past_nil, skip, skip, if_pos rfl, if_neg Bool.false_ne_true,
        if_pos hblank]
      rfl
  | cons c line ih =>
    simp only [List.mem_cons, not_or] at hline
    rw [List.cons_append, skip, if_pos rfl, Position.past_cons, decide_eq_true (Ne.symm hline.1)]
    exact ih hline.2 _

theorem skip_of_gap {gap rest : List Char} (h : Gap rest gap) (p : Position) :
    skip false p (gap ++ rest) = skip false (p.past gap) rest := by
  induction h generalizing p with
  | nil => rfl
  | @blank c gap hc _ ih =>
    rw [List.cons_append, skip, if_neg Bool.false_ne_true, if_pos hc]
    exact ih _
  | @comment line gap hline hend _ ih =>
    have hslash : ¬Text.isBlank '/' = true := by decide
    rw [List.cons_append, skip, if_neg Bool.false_ne_true, if_neg hslash, if_pos ⟨rfl, rfl⟩,
      List.cons_append, skip, if_pos rfl, decide_eq_true (by decide), List.append_assoc,
      skip_comment hline hend, ih, Position.past_cons, Position.past_cons, Position.past_append]

theorem Gap.mono {gap rest rest' : List Char} (h : Gap rest gap) (hrest : rest' <+: rest) :
    Gap rest' gap := by
  induction h with
  | nil => exact .nil
  | blank hc _ ih => exact .blank hc ih
  | @comment line gap hline hend _ ih =>
    apply Gap.comment hline _ ih
    intro c hc
    obtain ⟨behind, rfl⟩ := hrest
    obtain ⟨others, hothers⟩ := List.head?_eq_some_iff.1 hc
    apply hend c
    rw [← List.append_assoc, hothers]
    rfl

theorem exists_line (text : List Char) : ∃ line rest, text = line ++ rest ∧ '\n' ∉ line ∧
    ∀ c ∈ rest.head?, c = '\n' := by
  induction text with
  | nil => exact ⟨[], [], rfl, nofun, nofun⟩
  | cons c cs ih =>
    by_cases hc : c = '\n'
    · refine ⟨[], c :: cs, rfl, nofun, ?_⟩
      intro d hd
      rw [← Option.some.inj hd, hc]
    · obtain ⟨line, rest, rfl, hline, hrest⟩ := ih
      refine ⟨c :: line, rest, rfl, ?_, hrest⟩
      rw [List.mem_cons, not_or]
      exact ⟨Ne.symm hc, hline⟩

theorem exists_gap (text : List Char) :
    ∃ gap rest, text = gap ++ rest ∧ Gap rest gap ∧ Bare rest := by
  induction hlen : text.length using Nat.strongRecOn generalizing text with
  | _ n ih =>
    cases text with
    | nil => exact ⟨[], [], rfl, .nil, nofun, by decide⟩
    | cons c cs =>
      rw [List.length_cons] at hlen
      by_cases hblank : Text.isBlank c = true
      · obtain ⟨gap, rest, rfl, hgap, hbare⟩ := ih cs.length (by omega) cs rfl
        exact ⟨c :: gap, rest, rfl, .blank hblank hgap, hbare⟩
      · by_cases hcomment : ['/', '/'] <+: c :: cs
        · obtain ⟨others, hothers⟩ := hcomment
          simp only [List.cons_append, List.nil_append, List.cons.injEq] at hothers
          obtain ⟨rfl, rfl⟩ := hothers
          obtain ⟨line, behind, rfl, hline, hend⟩ := exists_line others
          obtain ⟨gap, rest, rfl, hgap, hbare⟩ :=
            ih behind.length (by simp only [List.length_cons, List.length_append] at hlen; omega)
              behind rfl
          exact ⟨'/' :: '/' :: (line ++ gap), rest, by simp, .comment hline hend hgap, hbare⟩
        · refine ⟨[], c :: cs, rfl, .nil, ?_, hcomment⟩
          intro d hd
          obtain rfl := Option.some.inj hd
          exact Bool.eq_false_iff.2 hblank

/-! ### Tokens and what is between them -/

/-- The text, which begins at `p`, consists of the spellings of the tokens and of blanks and
comments. What stands behind the text counts when a spelling is to be longest. -/
inductive Tiles (file : Option String) (rest : List Char) : Position → List Char →
    List Located → Prop
  | gap {p : Position} {gap : List Char} (h : Gap rest gap) : Tiles file rest p gap []
  | token {p : Position} {gap word text : List Char} {t : Token} {ls : List Located}
      (hgap : Gap (word ++ text ++ rest) gap) (hword : t.Spells word)
      (hlongest : Longest word (word ++ text ++ rest))
      (hcomment : ¬['/', '/'] <+: word ++ text ++ rest)
      (h : Tiles file rest (p.past (gap ++ word)) text ls) :
      Tiles file rest p (gap ++ word ++ text) (⟨t, .ofWord file (p.past gap) word⟩ :: ls)

variable {file : Option String} {p : Position} {rest text : List Char} {ls : List Located}

theorem span_ofWord {word : List Char} (hne : word ≠ []) (hword : '\n' ∉ word)
    (file : Option String) (p : Position) :
    Span.ofWord file p word = ⟨file, p.line, p.column, (p.right word.length).line,
      (p.right word.length).column - 1⟩ := by
  have hlast : '\n' ∉ word.dropLast := fun h => hword (List.dropLast_subset word h)
  have hlength : word.length = word.dropLast.length + 1 := by
    rw [List.length_dropLast, Nat.sub_add_cancel (List.length_pos_iff.2 hne)]
  have hcolumn : (p.right word.length).column - 1 = (p.right word.dropLast.length).column := by
    rw [hlength, ← Position.right_right]
    exact UInt32.add_sub_cancel _ 1
  rw [Span.ofWord, Position.past_of_not_mem hlast, hcolumn]
  rfl

/-- Behind a text that is tiled, the scan goes on. -/
theorem tokens_of_tiles (h : Tiles file rest p text ls) :
    tokens file p (text ++ rest) = do
      let us ← tokens file (p.past text) rest
      return ls ++ us := by
  induction h with
  | @gap p gap h =>
    rw [tokens_eq, skip_of_gap h, ← tokens_eq]
    cases tokens file (p.past gap) rest <;> rfl
  | @token p gap word text t ls hgap hword hlongest hcomment _ ih =>
    rw [List.append_assoc] at hlongest hcomment
    have hjoins := joins_of_longest hword hlongest hcomment
    have hspan := span_ofWord hword.ne_nil hword.newline_not_mem file (p.past gap)
    have hpast : p.past (gap ++ word) = (p.past gap).right word.length := by
      rw [Position.past_append, Position.past_of_not_mem hword.newline_not_mem]
    have hgap' := skip_of_gap hgap p
    obtain ⟨c, word, rfl⟩ := List.exists_cons_of_ne_nil hword.ne_nil
    rw [List.append_assoc, skip_spells hword hjoins] at hgap'
    rw [Position.past_append p (gap ++ c :: word), tokens_eq, List.append_assoc, List.append_assoc,
      hgap', hspan]
    simp only [List.cons_append, next, read_spells hword hjoins, ← hpast, ih]
    cases tokens file ((p.past (gap ++ c :: word)).past text) rest <;> rfl

theorem Stuck.exists_bare {cause : SyntaxCause} (h : Stuck text cause) :
    ∃ c cs, text = c :: cs ∧ Bare (c :: cs) := by
  have hbare : ∀ {c : Char} {cs : List Char}, Text.isBlank c = false → c ≠ '/' →
      Bare (c :: cs) := by
    intro c cs hblank hslash
    refine ⟨fun d hd => Option.some.inj hd ▸ hblank, ?_⟩
    rintro ⟨rest, hrest⟩
    exact hslash (List.cons.inj hrest).1.symm
  cases h with
  | @unknown c cs hblank h =>
    refine ⟨c, cs, rfl, hbare hblank ?_⟩
    rintro rfl
    exact h [] (.token (t := .divide) (.lexeme rfl))
  | @undoubled c cs hc =>
    refine ⟨c, cs, rfl, ?_⟩
    rcases hc with rfl | rfl
    · exact hbare (by decide) (by decide)
    · exact hbare (by decide) (by decide)
  | @number digits cs hne hdigits =>
    obtain ⟨c, digits, rfl⟩ := List.exists_cons_of_ne_nil hne
    have hc := toNat_of_isDigit (hdigits c List.mem_cons_self)
    refine ⟨c, digits ++ cs, rfl, hbare (isBlank_eq_false ?_ ?_) ?_⟩
    · omega
    · omega
    · rintro rfl
      exact absurd hc (by decide)

theorem tokens_of_stuck {cause : SyntaxCause} (h : Stuck text cause) (file : Option String)
    (p : Position) : tokens file p text = .error ⟨cause, .point file p.line p.column⟩ := by
  obtain ⟨c, cs, rfl, hbare⟩ := h.exists_bare
  rw [tokens_eq, skip_of_bare hbare]
  simp only [next, read_of_stuck h]

theorem exists_tiles (file : Option String) (p : Position) (text : List Char) :
    ∃ before rest ls, text = before ++ rest ∧ Tiles file rest p before ls ∧
      (rest = [] ∨ ∃ cause, Stuck rest cause) := by
  induction hlen : text.length using Nat.strongRecOn generalizing p text with
  | _ n ih =>
    obtain ⟨gap, front, rfl, hgap, hbare⟩ := exists_gap text
    cases front with
    | nil => exact ⟨gap, [], [], rfl, .gap hgap, .inl rfl⟩
    | cons c cs =>
      cases hread : read c cs with
      | error cause =>
        exact ⟨gap, c :: cs, [], rfl, .gap hgap, .inr ⟨cause, stuck_of_read (hbare.1 c rfl) hread⟩⟩
      | ok r =>
        obtain ⟨word, hof, hlongest⟩ := read_longest hread
        have hlt : r.rest.length < n := by
          have hshort := hof.length_lt
          rw [List.length_append] at hlen
          omega
        obtain ⟨before, rest, ls, hrest, htiles, hend⟩ :=
          ih r.rest.length hlt (p.past (gap ++ word)) r.rest rfl
        have htext : c :: cs = word ++ before ++ rest := by
          rw [hof.text_eq, hrest, List.append_assoc]
        rw [htext] at hgap hlongest ⊢
        refine ⟨gap ++ word ++ before, rest, _, by simp,
          .token hgap hof.spells hlongest (htext ▸ hbare.2) htiles, hend⟩

theorem Tiles.alone (h : Tiles file rest p text ls) : Tiles file [] p text ls := by
  induction h with
  | gap h => exact .gap (h.mono List.nil_prefix)
  | @token p gap word text t ls hgap hword hlongest hcomment _ ih =>
    have hfront : word ++ text ++ [] <+: word ++ text ++ rest := by
      rw [List.append_nil]
      exact List.prefix_append _ _
    exact .token (hgap.mono hfront) hword (Longest.mono hlongest hfront)
      (fun hslash => hcomment (hslash.trans hfront)) ih

theorem tokens_eq_ok_iff : tokens file p text = .ok ls ↔ Tiles file [] p text ls := by
  constructor
  · intro h
    obtain ⟨before, rest, us, rfl, htiles, hend⟩ := exists_tiles file p text
    rw [tokens_of_tiles htiles] at h
    rcases hend with rfl | ⟨cause, hstuck⟩
    · rw [List.append_nil]
      cases h
      rwa [List.append_nil]
    · rw [tokens_of_stuck hstuck] at h
      cases h
  · intro h
    have htokens := tokens_of_tiles h
    rw [List.append_nil] at htokens
    rw [htokens]
    exact congrArg Except.ok (List.append_nil ls)

theorem tokens_eq_error_iff {e : SyntaxError} : tokens file p text = .error e ↔
    ∃ before rest ls, text = before ++ rest ∧ Tiles file rest p before ls ∧ Stuck rest e.cause ∧
      e.span = .point file (p.past before).line (p.past before).column := by
  constructor
  · intro h
    obtain ⟨before, rest, us, rfl, htiles, hend⟩ := exists_tiles file p text
    rw [tokens_of_tiles htiles] at h
    rcases hend with rfl | ⟨cause, hstuck⟩
    · cases h
    · rw [tokens_of_stuck hstuck] at h
      cases h
      exact ⟨before, rest, us, rfl, htiles, hstuck, rfl⟩
  · rintro ⟨before, rest, us, rfl, htiles, hstuck, hspan⟩
    rw [tokens_of_tiles htiles, tokens_of_stuck hstuck, ← hspan]
    rfl

/-! ### Where the tokens are -/

theorem Tiles.exists_word (h : Tiles file rest p text ls) : ∀ l ∈ ls, ∃ before word behind,
    text = before ++ word ++ behind ∧ l.token.Spells word ∧
      l.span = .ofWord file (p.past before) word := by
  induction h with
  | gap => nofun
  | @token p gap word text t ls _ hword _ _ _ ih =>
    intro l hl
    rcases List.mem_cons.1 hl with rfl | hl
    · exact ⟨gap, word, text, rfl, hword, rfl⟩
    · obtain ⟨before, other, behind, rfl, hother, hspan⟩ := ih l hl
      refine ⟨gap ++ word ++ before, other, behind, by simp, hother, ?_⟩
      rw [hspan, Position.past_append p (gap ++ word)]

theorem Tiles.pairwise (h : Tiles file rest p text ls) (hp : p.Room text.length) :
    ls.Pairwise fun l m => l.span.last.Before m.span.first := by
  induction h with
  | gap => exact .nil
  | @token p gap word text t ls _ hword _ _ h ih =>
    rw [List.length_append] at hp
    have hrest := hp.past
    have hfront := hp.mono (Nat.le_add_right _ _)
    rw [List.length_append] at hfront
    refine .cons ?_ (ih hrest)
    intro m hm
    obtain ⟨before, other, behind, rfl, _, hspan⟩ := h.exists_word m hm
    have hlast := Span.last_ofWord_before hword.ne_nil hfront.past file
    rw [← Position.past_append] at hlast
    rw [List.append_assoc, List.length_append] at hrest
    rw [hspan]
    exact hlast.trans_not (Position.not_before_past (hrest.mono (Nat.le_add_right _ _)))

end Lexer

open Lexer

theorem file_of_mem_scan {source : String} {file : Option String} {ts : List Located}
    (h : scan source file = .ok ts) : ∀ l ∈ ts, l.span.file = file := by
  intro l hl
  obtain ⟨_, _, _, _, _, hspan⟩ := (tokens_eq_ok_iff.1 h).exists_word l hl
  rw [hspan]
  rfl

/-- In a source of fewer than `2 ^ 32 - 1` characters the lines and columns are counted from 1, and
no counter wraps around. Such a source is scanned if it is tiled by tokens, and these are the
result: each on one line, apart from each other and in order, and spelled by the characters that its
span covers. Else the error is at a character where no token begins, and the text in front of it is
tiled by tokens, which are those of this text alone. -/
theorem scan_tiles (source : String) (file : Option String)
    (hlength : source.length < UInt32.size - 1) :
    (∀ ts, scan source file = .ok ts ↔ Tiles file [] {} source.toList ts) ∧
    (∀ ts, scan source file = .ok ts →
      ts.Pairwise (fun l m => l.span.last.Before m.span.first) ∧
      ∀ l ∈ ts, l.span.file = file ∧ l.span.beginLine = l.span.endLine ∧
        l.span.beginColumn ≤ l.span.endColumn ∧
        l.token.Spells (l.span.characters {} source.toList)) ∧
    (∀ e, scan source file = .error e ↔ ∃ before rest ts, source.toList = before ++ rest ∧
      Tiles file rest {} before ts ∧ scan (String.ofList before) file = .ok ts ∧
      Stuck rest e.cause ∧ e.span = .point file (Position.past {} before).line
        (Position.past {} before).column) ∧
    ∀ before, before <+: source.toList →
      (Position.past {} before).line.toNat = newlines before + 1 ∧
      (Position.past {} before).column.toNat = (before.rtakeWhile (· ≠ '\n')).length + 1 := by
  have hroom : Position.Room source.toList.length {} := by
    rw [String.length_toList]
    exact Position.room_start hlength
  refine ⟨fun ts => tokens_eq_ok_iff, ?_, ?_, ?_⟩
  · intro ts h
    have htiles := tokens_eq_ok_iff.1 h
    refine ⟨htiles.pairwise hroom, ?_⟩
    intro l hl
    obtain ⟨before, word, behind, htext, hword, hspan⟩ := htiles.exists_word l hl
    rw [htext] at hroom
    rw [htext, hspan, Span.characters_ofWord hword.ne_nil hroom]
    refine ⟨rfl, ?_, Span.columns_ofWord hword.newline_not_mem hroom.part file, hword⟩
    rw [span_ofWord hword.ne_nil hword.newline_not_mem]
    rfl
  · intro e
    constructor
    · intro h
      obtain ⟨before, rest, ts, htext, htiles, hstuck, hspan⟩ := tokens_eq_error_iff.1 h
      have hbefore : scan (String.ofList before) file = .ok ts := by
        change tokens file {} (String.ofList before).toList = .ok ts
        rw [String.toList_ofList]
        exact tokens_eq_ok_iff.2 htiles.alone
      exact ⟨before, rest, ts, htext, htiles, hbefore, hstuck, hspan⟩
    · rintro ⟨before, rest, ts, htext, htiles, _, hstuck, hspan⟩
      exact tokens_eq_error_iff.2 ⟨before, rest, ts, htext, htiles, hstuck, hspan⟩
  · intro before hbefore
    have hle := hbefore.length_le
    rw [String.length_toList] at hle
    exact Position.past_start (Nat.lt_of_le_of_lt hle hlength)

theorem scan_tiles_of_comment : "a=// b\n12".length < UInt32.size - 1 ∧
    scan "a=// b\n12" none = .ok [⟨.ident "a", ⟨none, 1, 1, 1, 1⟩⟩, ⟨.assign, ⟨none, 1, 2, 1, 2⟩⟩,
      ⟨.number 12, ⟨none, 2, 1, 2, 2⟩⟩] ∧
    Tiles none [] {} "a=// b\n12".toList [⟨.ident "a", ⟨none, 1, 1, 1, 1⟩⟩,
      ⟨.assign, ⟨none, 1, 2, 1, 2⟩⟩, ⟨.number 12, ⟨none, 2, 1, 2, 2⟩⟩] := by
  have hlength : "a=// b\n12".length < UInt32.size - 1 := by decide
  have hscan : scan "a=// b\n12" none = .ok [⟨.ident "a", ⟨none, 1, 1, 1, 1⟩⟩,
      ⟨.assign, ⟨none, 1, 2, 1, 2⟩⟩, ⟨.number 12, ⟨none, 2, 1, 2, 2⟩⟩] := by decide +kernel
  obtain ⟨htiles, -⟩ := scan_tiles "a=// b\n12" none hlength
  exact ⟨hlength, hscan, (htiles _).1 hscan⟩

end TeachLang
