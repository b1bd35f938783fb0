import TeachLang.Proofs.Layout
import TeachLang.Proofs.ParserComplete
import TeachLang.Proofs.ParserSound

/-!
# Parsing is exact

A token list becomes a tree if and only if it spells a program, and the tree is that of the one
program which it spells with every `else` at the nearest `if`. That there is such a program follows
from any way of spelling one: an `else` that stands too far out can be moved inwards.
-/

namespace TeachLang

open Cursor

namespace Stmt

/-- An `else` behind a dangling statement finds an `if` inside it. -/
theorem Spelled.attachElse {us : List Located} {s' : Stmt} {k' : Bool} (p : Span)
    (h' : Spelled true k' us s') : ∀ {k : Bool} {ts : List Located} {s : Stmt}, k = true →
      Spelled true k ts s → ∃ t l, Spelled true l (ts ++ ⟨.elseWord, p⟩ :: us) t
  | _, _, _, _, .ifThen (d := false) i q r hc hs =>
    ⟨_, _, .ifElse i q r p hc hs (fun _ => rfl) h'⟩
  | _, _, _, _, .ifThen (d := true) i q r hc hs => by
    obtain ⟨t, l, ht⟩ := attachElse p h' rfl hs
    rw [List.append_assoc]
    exact ⟨_, _, .ifThen i q r hc ht⟩
  | _, _, _, hk, .ifElse i q r e hc hs hd hs' => by
    obtain ⟨t, l, ht⟩ := attachElse p h' hk hs'
    rw [List.append_assoc]
    exact ⟨_, _, .ifElse i q r e hc hs hd ht⟩
  | _, _, _, hk, .whileLoop i q r hc hs => by
    obtain ⟨t, l, ht⟩ := attachElse p h' hk hs
    rw [List.append_assoc]
    exact ⟨_, _, .whileLoop i q r hc ht⟩
  | _, _, _, hk, .forLoop i q r r' q' hi hc hu hs => by
    obtain ⟨t, l, ht⟩ := attachElse p h' hk hs
    rw [List.append_assoc]
    exact ⟨_, _, .forLoop i q r r' q' hi hc hu ht⟩

mutual

theorem Spelled.toNearest {k : Bool} {ts : List Located} {s : Stmt} :
    Spelled false k ts s → ∃ t l, Spelled true l ts t
  | .block p q h => by
    obtain ⟨us, hus⟩ := h.toNearest
    exact ⟨_, _, .block p q hus⟩
  | .ifThen p q r hc hs => by
    obtain ⟨t, l, ht⟩ := hs.toNearest
    exact ⟨_, _, .ifThen p q r hc ht⟩
  | .ifElse p q r e hc hs _ hs' => by
    obtain ⟨t, l, ht⟩ := hs.toNearest
    obtain ⟨t', l', ht'⟩ := hs'.toNearest
    cases l with
    | false => exact ⟨_, _, .ifElse p q r e hc ht (fun _ => rfl) ht'⟩
    | true =>
      obtain ⟨u, m, hu⟩ := ht'.attachElse e rfl ht
      rw [List.append_assoc]
      exact ⟨_, _, .ifThen p q r hc hu⟩
  | .whileLoop p q r hc hs => by
    obtain ⟨t, l, ht⟩ := hs.toNearest
    exact ⟨_, _, .whileLoop p q r hc ht⟩
  | .forLoop p q r r' q' hi hc hu hs => by
    obtain ⟨t, l, ht⟩ := hs.toNearest
    exact ⟨_, _, .forLoop p q r r' q' hi hc hu ht⟩
  | .print p q h => ⟨_, _, .print p q h⟩
  | .declare p q r x => ⟨_, _, .declare p q r x⟩
  | .declareAs p q q' r x h => ⟨_, _, .declareAs p q q' r x h⟩
  | .simple q h => ⟨_, _, .simple q h⟩

theorem AllSpelled.toNearest {ts : List Located} {ss : List Stmt} :
    AllSpelled false ts ss → ∃ us, AllSpelled true ts us
  | .nil => ⟨_, .nil⟩
  | .cons hs hss => by
    obtain ⟨t, l, ht⟩ := hs.toNearest
    obtain ⟨us, hus⟩ := hss.toNearest
    exact ⟨_, .cons ht hus⟩

end

mutual

theorem Spelled.ofNearest {k : Bool} {ts : List Located} {s : Stmt} :
    Spelled true k ts s → Spelled false k ts s
  | .block p q h => .block p q h.ofNearest
  | .ifThen p q r hc hs => .ifThen p q r hc hs.ofNearest
  | .ifElse p q r e hc hs _ hs' => .ifElse p q r e hc hs.ofNearest nofun hs'.ofNearest
  | .whileLoop p q r hc hs => .whileLoop p q r hc hs.ofNearest
  | .forLoop p q r r' q' hi hc hu hs => .forLoop p q r r' q' hi hc hu hs.ofNearest
  | .print p q h => .print p q h
  | .declare p q r x => .declare p q r x
  | .declareAs p q q' r x h => .declareAs p q q' r x h
  | .simple q h => .simple q h

theorem AllSpelled.ofNearest {ts : List Located} {ss : List Stmt} :
    AllSpelled true ts ss → AllSpelled false ts ss
  | .nil => .nil
  | .cons hs hss => .cons hs.ofNearest hss.ofNearest

end

end Stmt

theorem reads_uptoEnd (tokens : List Located) :
    ∃ d, (⟨tokens, {}⟩ : Cursor).Reads (uptoEnd tokens) d ∧ d.token = .endOfInput := by
  refine ⟨⟨tokens.dropWhile (·.token ≠ .endOfInput), _⟩, ⟨?_, rfl⟩, ?_⟩
  · exact List.takeWhile_append_dropWhile.symm
  · cases h : tokens.dropWhile (·.token ≠ .endOfInput) with
    | nil => rfl
    | cons l ts =>
      have hhead := List.head?_dropWhile_not (fun l : Located => l.token ≠ .endOfInput) tokens
      rw [h] at hhead
      have hl : l.token = .endOfInput := by simpa using hhead
      exact hl

theorem uptoEnd_eq {tokens ts : List Located} {d : Cursor} (h : (⟨tokens, {}⟩ : Cursor).Reads ts d)
    (hts : EndFree ts) (hd : d.token = .endOfInput) : uptoEnd tokens = ts := by
  have hrest : d.rest.takeWhile (·.token ≠ .endOfInput) = [] := by
    obtain ⟨_ | ⟨l, us⟩, p⟩ := d
    · rfl
    · have hl : l.token = .endOfInput := hd
      simp [hl]
  have htokens : tokens = ts ++ d.rest := h.rest_eq
  rw [uptoEnd, htokens, List.takeWhile_append_of_pos (by simpa [EndFree] using hts), hrest,
    List.append_nil]

theorem uptoEnd_of_endFree {ts : List Located} (h : EndFree ts) : uptoEnd ts = ts :=
  uptoEnd_eq (d := ⟨[], _⟩) ⟨(List.append_nil ts).symm, rfl⟩ h rfl

theorem parse_eq_ok {tokens : List Located} {p : Program} :
    parse tokens = .ok p ↔ ∃ d, (Parser.program tokens.length).run ⟨tokens, {}⟩ = .ok (p, d) := by
  unfold parse
  rcases (Parser.program tokens.length).run ⟨tokens, {}⟩ with e | ⟨q, d⟩
  · constructor
    · intro h
      cases h
    · rintro ⟨_, h⟩
      cases h
  · constructor
    · intro h
      cases h
      exact ⟨d, rfl⟩
    · rintro ⟨_, h⟩
      cases h
      rfl

theorem span_start (tokens : List Located) :
    (⟨tokens, {}⟩ : Cursor).span = (tokens.head?.map Located.span).getD {} := by
  cases tokens <;> rfl

theorem parse_eq_ok_iff {tokens : List Located} {p : Program} :
    parse tokens = .ok p ↔ p.Spelled true tokens := by
  rw [parse_eq_ok]
  constructor
  · rintro ⟨d, h⟩
    obtain ⟨ss, m, hmany, rfl, rfl⟩ := Parser.run_program_eq_ok.1 h
    obtain ⟨ts, hreads, hts, hend⟩ :=
      Parser.spelled_many (Parser.spells_statement _) List.mem_cons_self _ hmany
    have huptoEnd := uptoEnd_eq hreads hts.endFree (by simpa using hend (Nat.le_refl _))
    refine ⟨by rwa [huptoEnd], ?_⟩
    rw [huptoEnd, ← span_start, hreads.previous_eq]
  · rintro ⟨hstatements, hspan⟩
    obtain ⟨d, hreads, hd⟩ := reads_uptoEnd tokens
    have hlen : (uptoEnd tokens).length ≤ tokens.length := (List.takeWhile_sublist _).length_le
    refine ⟨d, Parser.run_program_eq_ok.2 ⟨p.statements, d, ?_, ?_, rfl⟩⟩
    · exact Parser.run_many hstatements hreads hlen hlen (by simp [hd]) (by decide)
    · rw [span_start, hreads.previous_eq, ← hspan]

namespace Tree

theorem ofTokens_of_parse {tokens : List Located} {p : Program} {t : Tree}
    (h : parse tokens = .ok p) (hrun : p.layout.run {} = (.ok (), t)) :
    ofTokens tokens = .ok t := by
  have hmap : (Except.ok p : Except SyntaxError Program).mapError Error.malformed = .ok p := rfl
  have hbind : ∀ f : Program → Except Error Tree, (Except.ok p >>= f) = f p := fun _ => rfl
  unfold ofTokens
  rw [h, hmap, hbind, hrun]
  rfl

theorem ofTokens_of_parse_error {tokens : List Located} {e : SyntaxError}
    (h : parse tokens = .error e) : ofTokens tokens = .error (.malformed e) := by
  unfold ofTokens
  rw [h]
  rfl

theorem ofTokens_eq_ok {tokens : List Located} {t : Tree} :
    ofTokens tokens = .ok t ↔
      ∃ p : Program, p.Spelled true tokens ∧ p.layout.run {} = (.ok (), t) := by
  constructor
  · intro ht
    cases h : parse tokens with
    | error e => cases (ofTokens_of_parse_error h).symm.trans ht
    | ok p =>
      obtain ⟨u, hrun, _⟩ := p.run_layout
      cases (ofTokens_of_parse h hrun).symm.trans ht
      exact ⟨p, parse_eq_ok_iff.1 h, hrun⟩
  · rintro ⟨p, hp, hrun⟩
    exact ofTokens_of_parse (parse_eq_ok_iff.2 hp) hrun

/-- A token list is accepted if and only if what stands in front of the first token for the end of
the input is derivable, and the tree is the one that says what is derived from it when every `else`
belongs to the nearest `if`. -/
theorem ofTokens_exact (tokens : List Located) :
    ((∃ t, ofTokens tokens = .ok t) ↔ ∃ p : Program, p.Spelled false tokens) ∧
      ∀ p : Program, p.Spelled true tokens ↔ ∃ t, ofTokens tokens = .ok t ∧ p.StandsIn t := by
  constructor
  · constructor
    · rintro ⟨t, h⟩
      obtain ⟨p, hp, _⟩ := ofTokens_eq_ok.1 h
      exact ⟨p, hp.statements.ofNearest, hp.span_eq⟩
    · rintro ⟨p, hstatements, hspan⟩
      obtain ⟨ss, hss⟩ := hstatements.toNearest
      have hp : (⟨p.span, ss⟩ : Program).Spelled true tokens := ⟨hss, hspan⟩
      obtain ⟨t, hrun, _⟩ := Program.run_layout ⟨p.span, ss⟩
      exact ⟨t, ofTokens_eq_ok.2 ⟨_, hp, hrun⟩⟩
  · intro p
    constructor
    · intro hp
      obtain ⟨t, hrun, hstands⟩ := p.run_layout
      exact ⟨t, ofTokens_eq_ok.2 ⟨p, hp, hrun⟩, hstands⟩
    · rintro ⟨t, h, hstands⟩
      obtain ⟨q, hq, hrun⟩ := ofTokens_eq_ok.1 h
      obtain ⟨u, hrun', hstands'⟩ := q.run_layout
      cases hrun.symm.trans hrun'
      exact hstands.unique hstands' ▸ hq

end Tree

end TeachLang
