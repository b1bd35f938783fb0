import TeachLang.Proofs.Positions
import TeachLang.Proofs.Spelling

/-!
# Scanning line by line

No token goes on behind the end of a line, and neither does a comment. So the tokens of two texts
with a newline between them are those of the first and those of the second, moved down by the lines
of the first.
-/

namespace TeachLang

def Located.down (n : Nat) (l : Located) : Located := { l with span := l.span.down n }

def SyntaxError.down (n : Nat) (e : SyntaxError) : SyntaxError := { e with span := e.span.down n }

namespace Lexer

/-! ### Blanks and comments -/

theorem skip_down (n : Nat) (inComment : Bool) (p : Position) (cs : List Char) :
    skip inComment (p.down n) cs =
      ((skip inComment p cs).1.down n, (skip inComment p cs).2) := by
  induction cs generalizing inComment p with
  | nil => rfl
  | cons c cs ih =>
    rw [skip, skip, Position.down_after]
    split
    · exact ih ..
    · split
      · exact ih ..
      · split
        · exact ih ..
        · rfl

theorem skip_newlines (n : Nat) {p : Position} (hp : p.column = 1) (text : List Char) :
    skip false p (List.replicate n '\n' ++ text) = skip false (p.down n) text := by
  induction n generalizing p with
  | zero => rw [List.replicate_zero, List.nil_append, Position.down_zero]
  | succ n ih =>
    have hblank : Text.isBlank '\n' = true := by decide
    have hafter : p.after '\n' = p.down 1 :=
      congrArg (fun column => (⟨p.line + 1, column⟩ : Position)) hp.symm
    rw [List.replicate_succ, List.cons_append, skip, if_neg Bool.false_ne_true, if_pos hblank,
      ih rfl, hafter, Position.down_down, Nat.add_comm]

theorem line_skip (inComment : Bool) (p : Position) (cs : List Char) :
    (skip inComment p cs).1.line + .ofNat (newlines (skip inComment p cs).2) =
      p.line + .ofNat (newlines cs) := by
  induction cs generalizing inComment p with
  | nil => rfl
  | cons c cs ih =>
    have hstep : ∀ inComment, (skip inComment (p.after c) cs).1.line +
        .ofNat (newlines (skip inComment (p.after c) cs).2) =
          p.line + .ofNat (newlines (c :: cs)) := by
      intro inComment
      rw [ih, Position.line_after, newlines_cons, Nat.add_comm (newlines cs), UInt32.ofNat_add,
        UInt32.add_assoc]
    rw [skip]
    split
    · exact hstep _
    · split
      · exact hstep _
      · split
        · exact hstep _
        · rfl

theorem skip_append_newline (inComment : Bool) (p : Position) (cs ds : List Char) :
    skip inComment p (cs ++ '\n' :: ds) =
      match skip inComment p cs with
      | (q, []) => skip false ⟨q.line + 1, 1⟩ ds
      | (q, c :: rest) => (q, c :: rest ++ '\n' :: ds) := by
  induction cs generalizing inComment p with
  | nil =>
    have hblank : Text.isBlank '\n' = true := by decide
    cases inComment <;> simp [skip, hblank, Position.after]
  | cons c cs ih =>
    have hhead : (cs ++ '\n' :: ds).head? = some '/' ↔ cs.head? = some '/' := by
      cases cs <;> simp
    rw [List.cons_append, skip, skip]
    simp only [hhead]
    split
    · exact ih ..
    · split
      · exact ih ..
      · split
        · exact ih ..
        · rfl

/-! ### One token -/

section

variable {p : Char → Bool} (hp : p '\n' = false) (cs ds : List Char)
include hp

theorem takeWhile_append_newline : (cs ++ '\n' :: ds).takeWhile p = cs.takeWhile p := by
  induction cs with
  | nil => simp [hp]
  | cons c cs ih => simp [List.takeWhile_cons, ih]

theorem dropWhile_append_newline :
    (cs ++ '\n' :: ds).dropWhile p = cs.dropWhile p ++ '\n' :: ds := by
  induction cs with
  | nil => simp [hp]
  | cons c cs ih =>
    rw [List.cons_append, List.dropWhile_cons, List.dropWhile_cons, ih]
    split <;> rfl

end

def Reading.before (r : Reading) (ds : List Char) : Reading := { r with rest := r.rest ++ ds }

theorem oneOrTwo_append_newline {c : Char} (hc : c ≠ '\n') (single double : Token)
    (cs ds : List Char) :
    oneOrTwo c single double (cs ++ '\n' :: ds) =
      (oneOrTwo c single double cs).before ('\n' :: ds) := by
  cases cs with
  | nil => simp [oneOrTwo, Reading.before, hc.symm]
  | cons d cs =>
    simp only [List.cons_append, oneOrTwo]
    split <;> rfl

theorem doubled_append_newline {c : Char} (hc : c ≠ '\n') (token : Token) (cs ds : List Char) :
    doubled c token (cs ++ '\n' :: ds) =
      (doubled c token cs).map (·.before ('\n' :: ds)) := by
  cases cs with
  | nil =>
    simp [doubled, hc.symm]
    rfl
  | cons d cs =>
    simp only [List.cons_append, doubled]
    split <;> rfl

theorem read_append_newline (c : Char) (cs ds : List Char) :
    read c (cs ++ '\n' :: ds) = (read c cs).map (·.before ('\n' :: ds)) := by
  have hname : isNamePart '\n' = false := by decide
  have hdigit : '\n'.isDigit = false := by decide
  unfold read
  split
  · rw [takeWhile_append_newline hname, dropWhile_append_newline hname]
    rfl
  split
  · rw [takeWhile_append_newline hdigit, dropWhile_append_newline hdigit]
    dsimp only
    split <;> rfl
  split
  · rw [oneOrTwo_append_newline (by decide)]
    rfl
  split
  · rw [oneOrTwo_append_newline (by decide)]
    rfl
  split
  · rw [oneOrTwo_append_newline (by decide)]
    rfl
  split
  · rw [oneOrTwo_append_newline (by decide)]
    rfl
  split
  · exact doubled_append_newline (by decide) ..
  split
  · exact doubled_append_newline (by decide) ..
  split <;> rfl

theorem Reading.Of.length_lt {r : Reading} {text word : List Char} (h : r.Of text word) :
    r.rest.length < text.length := by
  have hpos := List.length_pos_iff.2 h.spells.ne_nil
  rw [h.text_eq, List.length_append]
  omega

theorem Reading.Of.newlines_rest {r : Reading} {text word : List Char} (h : r.Of text word) :
    newlines r.rest = newlines text := by
  rw [h.text_eq, newlines_append, newlines_eq_zero.2 h.spells.newline_not_mem, Nat.zero_add]

/-! ### All tokens -/

def tokens (file : Option String) (p : Position) (text : List Char) :
    Except SyntaxError (List Located) :=
  tokensFrom file text.length p text

def next (file : Option String)
    (others : Position → List Char → Except SyntaxError (List Located)) :
    Position × List Char → Except SyntaxError (List Located)
  | (_, []) => .ok []
  | (p, c :: cs) =>
    match read c cs with
    | .error cause => .error ⟨cause, .point file p.line p.column⟩
    | .ok r => do
      let others ← others (p.right r.width) r.rest
      return ⟨r.token,
        ⟨file, p.line, p.column, (p.right r.width).line, (p.right r.width).column - 1⟩⟩ :: others

theorem tokensFrom_succ (file : Option String) (bound : Nat) (p : Position) (text : List Char) :
    tokensFrom file (bound + 1) p text = next file (tokensFrom file bound) (skip false p text) := by
  rw [tokensFrom]
  rcases skip false p text with ⟨q, _ | ⟨c, cs⟩⟩ <;> rfl

theorem next_congr {file : Option String} {others others' : Position → List Char →
    Except SyntaxError (List Located)} {inComment : Bool} {p : Position} {text : List Char}
    (h : ∀ q rest, rest.length < text.length → others q rest = others' q rest) :
    next file others (skip inComment p text) = next file others' (skip inComment p text) := by
  have hlength := length_skip_le inComment p text
  generalize skip inComment p text = front at hlength ⊢
  obtain ⟨q, _ | ⟨c, cs⟩⟩ := front
  · rfl
  · cases hread : read c cs with
    | error cause => simp only [next, hread]
    | ok r =>
      obtain ⟨word, hof⟩ := read_of hread
      simp only [next, hread, h _ _ (Nat.lt_of_lt_of_le hof.length_lt hlength)]

theorem tokensFrom_congr (file : Option String) {b b' : Nat} {p : Position} {text : List Char}
    (h : text.length ≤ b) (h' : text.length ≤ b') :
    tokensFrom file b p text = tokensFrom file b' p text := by
  induction b generalizing b' p text with
  | zero =>
    obtain rfl := List.eq_nil_of_length_eq_zero (Nat.le_zero.1 h)
    cases b' <;> rfl
  | succ b ih =>
    cases b' with
    | zero =>
      obtain rfl := List.eq_nil_of_length_eq_zero (Nat.le_zero.1 h')
      rfl
    | succ b' =>
      rw [tokensFrom_succ, tokensFrom_succ]
      exact next_congr fun q rest hlt => ih (by omega) (by omega)

theorem tokens_eq (file : Option String) (p : Position) (text : List Char) :
    tokens file p text = next file (tokens file) (skip false p text) := by
  cases text with
  | nil => rfl
  | cons c cs =>
    rw [tokens, List.length_cons, tokensFrom_succ]
    refine next_congr fun q rest hlt => tokensFrom_congr file ?_ (Nat.le_refl _)
    rw [List.length_cons] at hlt
    omega

/-- What stands further down is the same there. -/
theorem tokens_down (n : Nat) (file : Option String) (p : Position) (text : List Char) :
    tokens file (p.down n) text =
      ((tokens file p text).map (·.map (Located.down n))).mapError (SyntaxError.down n) := by
  induction hlen : text.length using Nat.strongRecOn generalizing p text with
  | _ k ih =>
    rw [tokens_eq, tokens_eq file p, skip_down]
    have hlength := length_skip_le false p text
    generalize skip false p text = front at hlength ⊢
    obtain ⟨q, _ | ⟨c, cs⟩⟩ := front
    · rfl
    · cases hread : read c cs with
      | error cause =>
        simp only [next, hread]
        rfl
      | ok r =>
        obtain ⟨word, hof⟩ := read_of hread
        have hrest := ih r.rest.length (hlen ▸ Nat.lt_of_lt_of_le hof.length_lt hlength)
          (q.right r.width) r.rest rfl
        simp only [next, hread, Position.right_down, hrest]
        cases tokens file (q.right r.width) r.rest <;> rfl

/-- The tokens of two texts with a newline between them. -/
theorem tokens_append_newline (file : Option String) (p : Position) (text others : List Char) :
    tokens file p (text ++ '\n' :: others) = do
      let ts ← tokens file p text
      let us ← tokens file ⟨p.line + .ofNat (newlines text) + 1, 1⟩ others
      return ts ++ us := by
  induction hlen : text.length using Nat.strongRecOn generalizing p text with
  | _ k ih =>
    rw [tokens_eq, tokens_eq file p, skip_append_newline]
    have hlength := length_skip_le false p text
    have hline := line_skip false p text
    generalize skip false p text = front at hlength hline ⊢
    obtain ⟨q, _ | ⟨c, cs⟩⟩ := front
    · have hline : q.line = p.line + .ofNat (newlines text) :=
        (UInt32.add_zero q.line).symm.trans hline
      simp only [← hline, ← tokens_eq]
      cases tokens file ⟨q.line + 1, 1⟩ others <;> rfl
    · cases hread : read c cs with
      | error cause =>
        simp only [next, List.cons_append, read_append_newline, hread]
        rfl
      | ok r =>
        obtain ⟨word, hof⟩ := read_of hread
        have hrest := ih r.rest.length (hlen ▸ Nat.lt_of_lt_of_le hof.length_lt hlength)
          (q.right r.width) r.rest rfl
        have hright : (q.right r.width).line = q.line := rfl
        rw [hof.newlines_rest, hright, hline] at hrest
        have hbefore : (Except.ok r : Except SyntaxCause Reading).map (·.before ('\n' :: others)) =
            .ok (r.before ('\n' :: others)) := rfl
        simp only [next, List.cons_append, read_append_newline, hread, hbefore]
        simp only [Reading.before, hrest]
        cases tokens file (q.right r.width) r.rest with
        | error e => rfl
        | ok ts => cases tokens file ⟨p.line + .ofNat (newlines text) + 1, 1⟩ others <;> rfl

theorem spells_of_mem_tokens {file : Option String} {p : Position} {text : List Char}
    {ts : List Located} (h : tokens file p text = .ok ts) :
    ∀ l ∈ ts, ∃ word, l.token.Spells word := by
  induction hlen : text.length using Nat.strongRecOn generalizing p text ts with
  | _ k ih =>
    rw [tokens_eq] at h
    have hlength := length_skip_le false p text
    generalize skip false p text = front at hlength h
    obtain ⟨q, _ | ⟨c, cs⟩⟩ := front
    · cases h
      nofun
    · cases hread : read c cs with
      | error cause =>
        simp only [next, hread] at h
        cases h
      | ok r =>
        obtain ⟨word, hof⟩ := read_of hread
        simp only [next, hread] at h
        cases hrest : tokens file (q.right r.width) r.rest with
        | error e =>
          rw [hrest] at h
          cases h
        | ok us =>
          rw [hrest] at h
          cases h
          exact List.forall_mem_cons.2 ⟨⟨word, hof.spells⟩,
            ih _ (hlen ▸ Nat.lt_of_lt_of_le hof.length_lt hlength) hrest rfl⟩

end Lexer

theorem spells_of_mem_scan {source : String} {file : Option String} {ts : List Located}
    (h : scan source file = .ok ts) : ∀ l ∈ ts, ∃ word, l.token.Spells word :=
  Lexer.spells_of_mem_tokens h

/-- Empty lines in front of a text move it down. -/
theorem scan_newlines_append (n : Nat) (source : String) (file : Option String) :
    scan (String.ofList (List.replicate n '\n') ++ source) file =
      ((scan source file).map (·.map (Located.down n))).mapError (SyntaxError.down n) := by
  have htext : (String.ofList (List.replicate n '\n') ++ source).toList =
      List.replicate n '\n' ++ source.toList := by
    rw [String.toList_append, String.toList_ofList]
  have hdown := Lexer.tokens_down n file {} source.toList
  rw [Lexer.tokens_eq, ← Lexer.skip_newlines n rfl, ← Lexer.tokens_eq, ← htext] at hdown
  exact hdown

theorem scan_append_newline (a b : String) (file : Option String) :
    scan (a ++ "\n" ++ b) file = do
      let ts ← scan a file
      let us ← ((scan b file).map (·.map (Located.down (newlines a.toList + 1)))).mapError
        (SyntaxError.down (newlines a.toList + 1))
      return ts ++ us := by
  have htext : (a ++ "\n" ++ b).toList = a.toList ++ '\n' :: b.toList := by simp
  have happend := Lexer.tokens_append_newline file {} a.toList b.toList
  have hstart : (⟨({} : Position).line + .ofNat (newlines a.toList) + 1, 1⟩ : Position) =
      Position.down (newlines a.toList + 1) {} := by
    rw [Position.down, UInt32.ofNat_add, UInt32.add_assoc]
    rfl
  rw [hstart, Lexer.tokens_down, ← htext] at happend
  exact happend

end TeachLang
