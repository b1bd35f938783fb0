import TeachLang.Proofs.Reads

/-!
# Verdicts

What a parser does at a cursor is settled by the tokens that it reads there and by the next one:
whatever follows, it passes over them, or it stops behind them and names what is missing. A verdict
on a parser says which, and that what was read until then belongs to a language, or can be continued
by everything that is named so that it does. The rules below find the verdict on a parser from those
on its parts.

As a parser serves only for so many tokens as its bound allows, a verdict is on a family of parsers,
one for each index, with the number of tokens for which it serves.
-/

namespace TeachLang

def Expected.Names : Expected → Token → Prop
  | token t, u => u = t
  | identifier, u => ∃ x, u = .ident x
  | expression, u | loopCondition, u => u.opensExpression = true

theorem Expected.exists_names (want : Expected) : ∃ t, want.Names t := by
  cases want with
  | token t => exact ⟨t, rfl⟩
  | identifier => exact ⟨.ident "", "", rfl⟩
  | expression => exact ⟨.leftParen, rfl⟩
  | loopCondition => exact ⟨.leftParen, rfl⟩

def Cursor.missing (c : Cursor) (want : Expected) : SyntaxError :=
  ⟨.unexpected want.text c.token.text, c.span⟩

/-- Every token that is named can follow, and what then follows completes a member of `L`. -/
def Completes (L : List Located → Prop) (ts : List Located) (want : Expected) : Prop :=
  ∀ l, want.Names l.token → ∃ us, L (ts ++ l :: us)

namespace Cursor

variable {c c' d d' : Cursor} {ts : List Located}

theorem length_advance (c : Cursor) : c.advance.rest.length = c.rest.length - 1 := by
  simp [advance]

theorem length_advance_lt (h : c.token ≠ .endOfInput) :
    c.advance.rest.length < c.rest.length := by
  obtain ⟨_ | ⟨l, rest⟩, previous⟩ := c
  · exact absurd rfl h
  · exact Nat.lt_succ_self _

theorem Reads.length_le (h : c.Reads ts d) : d.rest.length ≤ c.rest.length := by
  rw [h.length_eq]
  exact Nat.le_add_left _ _

theorem Reads.token_congr (h : c.Reads ts d) (h' : c'.Reads ts d') (hd : d'.token = d.token) :
    c'.token = c.token := by
  cases ts with
  | nil => rwa [h.eq_of_nil, h'.eq_of_nil]
  | cons l ts => rw [h.cons.1, h'.cons.1]

end Cursor

namespace Parser

open Cursor

variable {ι κ α β γ : Type} {size : ι → Nat} {P : ι → Parser α} {L : List Located → Prop}
  {pre ts us : List Located} {c : Cursor} {t : Token} {want : Expected}

/-- In front of the token, the parsers pass over the list. -/
def Passes (size : ι → Nat) (P : ι → Parser α) (ts : List Located) (t : Token) : Prop :=
  ∀ i c d, c.rest.length ≤ size i → c.Reads ts d → d.token = t → ∃ a, (P i).run c = .ok (a, d)

def Rejects (size : ι → Nat) (P : ι → Parser α) (ts : List Located) (t : Token)
    (want : Expected) : Prop :=
  ∀ i c d, c.rest.length ≤ size i → c.Reads ts d → d.token = t →
    (P i).run c = .error (d.missing want)

/-- What the parsers do at the cursor, when `pre` has been read in front of it. -/
def Verdict (size : ι → Nat) (P : ι → Parser α) (L : List Located → Prop) (pre : List Located)
    (c : Cursor) : Prop :=
  ∃ ts d, c.Reads ts d ∧ ((L (pre ++ ts) ∧ Passes size P ts d.token) ∨
    ∃ want, Completes L (pre ++ ts) want ∧ Rejects size P ts d.token want)

/-- Parsers that do the same as some of the family. -/
theorem Verdict.cover (h : Verdict size P L pre c) {size' : κ → Nat} {P' : κ → Parser α}
    (hcover : ∀ k, ∃ i, size' k ≤ size i ∧
      ∀ c, c.rest.length ≤ size' k → (P' k).run c = (P i).run c) : Verdict size' P' L pre c := by
  obtain ⟨ts, d, hreads, ⟨hL, hpasses⟩ | ⟨want, hwant, hrejects⟩⟩ := h
  · refine ⟨ts, d, hreads, .inl ⟨hL, fun k c' d' hlen hreads' ht => ?_⟩⟩
    obtain ⟨i, hsize, hrun⟩ := hcover k
    rw [hrun c' hlen]
    exact hpasses i c' d' (Nat.le_trans hlen hsize) hreads' ht
  · refine ⟨ts, d, hreads, .inr ⟨want, hwant, fun k c' d' hlen hreads' ht => ?_⟩⟩
    obtain ⟨i, hsize, hrun⟩ := hcover k
    rw [hrun c' hlen]
    exact hrejects i c' d' (Nat.le_trans hlen hsize) hreads' ht

theorem Verdict.mono {L' : List Located → Prop} (h : Verdict size P L pre c)
    (hL : ∀ ts, L ts → L' ts) : Verdict size P L' pre c := by
  obtain ⟨ts, d, hreads, ⟨hts, hpasses⟩ | ⟨want, hwant, hrejects⟩⟩ := h
  · exact ⟨ts, d, hreads, .inl ⟨hL _ hts, hpasses⟩⟩
  · refine ⟨ts, d, hreads, .inr ⟨want, fun l hl => ?_, hrejects⟩⟩
    obtain ⟨us, hus⟩ := hwant l hl
    exact ⟨us, hL _ hus⟩

theorem verdict_done (hL : L pre) (hP : ∀ i c, ∃ a, (P i).run c = .ok (a, c)) :
    Verdict size P L pre c := by
  refine ⟨[], c, .refl c, .inl ⟨by rwa [List.append_nil], fun i c' d' _ hreads _ => ?_⟩⟩
  rw [← hreads.eq_of_nil]
  exact hP i c'

theorem verdict_unexpected (h : Completes L pre want) :
    Verdict size (fun _ => (unexpected want : Parser α)) L pre c := by
  refine ⟨[], c, .refl c, .inr ⟨want, by rwa [List.append_nil], fun i c' d' _ hreads _ => ?_⟩⟩
  rw [← hreads.eq_of_nil]
  rfl

/-- A step that reads no token. -/
theorem verdict_still {x : ι → Parser β} {f : ι → β → Parser α}
    (hx : ∀ i c, ∃ b, (x i).run c = .ok (b, c))
    (h : Verdict (fun j : ι × β => size j.1) (fun j => f j.1 j.2) L pre c) :
    Verdict size (fun i => x i >>= f i) L pre c := by
  obtain ⟨ts, d, hreads, ⟨hL, hpasses⟩ | ⟨want, hwant, hrejects⟩⟩ := h
  · refine ⟨ts, d, hreads, .inl ⟨hL, fun i c' d' hlen hreads' ht => ?_⟩⟩
    obtain ⟨b, hb⟩ := hx i c'
    rw [run_bind, hb]
    exact hpasses (i, b) c' d' hlen hreads' ht
  · refine ⟨ts, d, hreads, .inr ⟨want, hwant, fun i c' d' hlen hreads' ht => ?_⟩⟩
    obtain ⟨b, hb⟩ := hx i c'
    rw [run_bind, hb]
    exact hrejects (i, b) c' d' hlen hreads' ht

theorem Verdict.map {x : ι → Parser β} (h : Verdict size x L pre c) (f : ι → β → α) :
    Verdict size (fun i => x i >>= fun b => pure (f i b)) L pre c := by
  obtain ⟨ts, d, hreads, ⟨hL, hpasses⟩ | ⟨want, hwant, hrejects⟩⟩ := h
  · refine ⟨ts, d, hreads, .inl ⟨hL, fun i c' d' hlen hreads' ht => ?_⟩⟩
    obtain ⟨b, hb⟩ := hpasses i c' d' hlen hreads' ht
    exact ⟨f i b, by rw [run_bind, hb]; rfl⟩
  · refine ⟨ts, d, hreads, .inr ⟨want, hwant, fun i c' d' hlen hreads' ht => ?_⟩⟩
    rw [run_bind, hrejects i c' d' hlen hreads' ht]

theorem verdict_here {f : ι → Span → Parser α}
    (h : Verdict (fun j : ι × Span => size j.1) (fun j => f j.1 j.2) L pre c) :
    Verdict size (fun i => here >>= f i) L pre c :=
  verdict_still (fun _ c => ⟨c.span, rfl⟩) h

theorem verdict_spanFrom {start : ι → Span} {f : ι → Span → Parser α}
    (h : Verdict (fun j : ι × Span => size j.1) (fun j => f j.1 j.2) L pre c) :
    Verdict size (fun i => spanFrom (start i) >>= f i) L pre c :=
  verdict_still (fun _ _ => ⟨_, rfl⟩) h

/-- The next token is the same wherever a verdict applies. -/
theorem verdict_token {f : ι → Token → Parser α}
    (h : Verdict size (fun i => f i c.token) L pre c) :
    Verdict size (fun i => token >>= f i) L pre c := by
  obtain ⟨ts, d, hreads, ⟨hL, hpasses⟩ | ⟨want, hwant, hrejects⟩⟩ := h
  · refine ⟨ts, d, hreads, .inl ⟨hL, fun i c' d' hlen hreads' ht => ?_⟩⟩
    rw [run_bind, run_token, hreads.token_congr hreads' ht]
    exact hpasses i c' d' hlen hreads' ht
  · refine ⟨ts, d, hreads, .inr ⟨want, hwant, fun i c' d' hlen hreads' ht => ?_⟩⟩
    rw [run_bind, run_token, hreads.token_congr hreads' ht]
    exact hrejects i c' d' hlen hreads' ht

/-- Parsers that read a list whatever follows, and then do the same as some of the family. -/
theorem Verdict.behind {m : Cursor} (hreads : c.Reads us m) (h : Verdict size P L (pre ++ us) m)
    {size' : κ → Nat} {P' : κ → Parser α}
    (hrun : ∀ k c' m', c'.Reads us m' →
      ∃ i, size' k - us.length ≤ size i ∧ (P' k).run c' = (P i).run m') :
    Verdict size' P' L pre c := by
  obtain ⟨ts, d, hts, h⟩ := h
  rw [List.append_assoc] at h
  have hrun' : ∀ {k : κ} {c' d' : Cursor}, c'.rest.length ≤ size' k → c'.Reads (us ++ ts) d' →
      ∃ i m', m'.rest.length ≤ size i ∧ m'.Reads ts d' ∧ (P' k).run c' = (P i).run m' := by
    intro k c' d' hlen hreads'
    obtain ⟨m', hus, hts'⟩ := reads_append_iff.1 hreads'
    obtain ⟨i, hsize, heq⟩ := hrun k c' m' hus
    have hlength := hus.length_eq
    exact ⟨i, m', by omega, hts', heq⟩
  refine ⟨us ++ ts, d, hreads.append hts, ?_⟩
  rcases h with ⟨hL, hpasses⟩ | ⟨want, hwant, hrejects⟩
  · refine .inl ⟨hL, fun k c' d' hlen hreads' hd => ?_⟩
    obtain ⟨i, m', hlen', hts', heq⟩ := hrun' hlen hreads'
    rw [heq]
    exact hpasses i m' d' hlen' hts' hd
  · refine .inr ⟨want, hwant, fun k c' d' hlen hreads' hd => ?_⟩
    obtain ⟨i, m', hlen', hts', heq⟩ := hrun' hlen hreads'
    rw [heq]
    exact hrejects i m' d' hlen' hts' hd

/-- A step that reads the next token, so that one token less is left for the others. -/
theorem verdict_read (ht : c.token = t) (hne : t ≠ .endOfInput) {x : ι → Parser β}
    {f : ι → β → Parser α} {b : β} (hx : ∀ i c, c.token = t → (x i).run c = .ok (b, c.advance))
    (h : Verdict (fun i => size i - 1) (fun i => f i b) L (pre ++ [⟨t, c.span⟩]) c.advance) :
    Verdict size (fun i => x i >>= f i) L pre c := by
  refine h.behind (reads_advance ht hne) fun i c' m' hreads => ⟨i, Nat.le_refl _, ?_⟩
  obtain ⟨ht', _, hrest⟩ := hreads.cons
  rw [run_bind, hx i c' ht', hrest.eq_of_nil]

theorem verdict_expected (ht : c.token = t) (hne : t ≠ .endOfInput) {f : ι → Unit → Parser α}
    (h : Verdict (fun i => size i - 1) (fun i => f i ()) L (pre ++ [⟨t, c.span⟩]) c.advance) :
    Verdict size (fun i => expect t >>= f i) L pre c :=
  verdict_read ht hne (fun _ _ ht' => by rw [run_expect, if_pos ht']) h

theorem verdict_advance (hne : c.token ≠ .endOfInput) {f : ι → Unit → Parser α}
    (h : Verdict (fun i => size i - 1) (fun i => f i ()) L (pre ++ [⟨c.token, c.span⟩])
      c.advance) :
    Verdict size (fun i => advance >>= f i) L pre c :=
  verdict_read rfl hne (fun _ _ _ => rfl) h

/-- A step that stops if something is missing. -/
theorem verdict_stop {x : ι → Parser β} {f : ι → β → Parser α} (hwant : Completes L pre want)
    (hx : ∀ i d, d.token = c.token → (x i).run d = .error (d.missing want)) :
    Verdict size (fun i => x i >>= f i) L pre c := by
  refine ⟨[], c, .refl c, .inr ⟨want, by rwa [List.append_nil], fun i c' d' _ hreads ht => ?_⟩⟩
  cases hreads.eq_of_nil
  rw [run_bind, hx i c' ht]

theorem verdict_expect {f : ι → Unit → Parser α} (t : Token) (hne : t ≠ .endOfInput)
    (hwant : ∀ p, ∃ us, L (pre ++ ⟨t, p⟩ :: us))
    (h : c.token = t →
      Verdict (fun i => size i - 1) (fun i => f i ()) L (pre ++ [⟨t, c.span⟩]) c.advance) :
    Verdict size (fun i => expect t >>= f i) L pre c := by
  by_cases ht : c.token = t
  · exact verdict_expected ht hne (h ht)
  · have hmissing : Completes L pre (.token t) := by
      rintro ⟨_, p⟩ rfl
      exact hwant p
    refine verdict_stop hmissing fun _ d hd => ?_
    rw [run_expect, if_neg (hd ▸ ht)]
    rfl

theorem verdict_identifier {f : ι → String → Parser α}
    (hwant : ∀ x p, ∃ us, L (pre ++ ⟨.ident x, p⟩ :: us))
    (h : ∀ x, c.token = .ident x →
      Verdict (fun i => size i - 1) (fun i => f i x) L (pre ++ [⟨.ident x, c.span⟩]) c.advance) :
    Verdict size (fun i => identifier >>= f i) L pre c := by
  by_cases ht : ∃ x, c.token = .ident x
  · obtain ⟨x, hx⟩ := ht
    refine verdict_read hx Token.noConfusion (fun _ c' hx' => ?_) (h x hx)
    rw [identifier, run_bind, run_token]
    simp only [hx']
    rfl
  · have hmissing : Completes L pre .identifier := by
      rintro ⟨_, p⟩ ⟨x, rfl⟩
      exact hwant x p
    refine verdict_stop hmissing fun _ d hd => ?_
    rw [identifier, run_bind, run_token]
    cases htoken : d.token with
    | ident x => exact absurd ⟨x, hd ▸ htoken⟩ ht
    | _ => rfl

/-- A part that reads a member of a language of its own. -/
theorem verdict_part {L' : List Located → Prop} {x : ι → Parser β} {f : ι → β → Parser α}
    (hx : Verdict size x L' [] c) (hwant : ∀ vs, L' vs → ∃ us, L (pre ++ vs ++ us))
    (h : ∀ ts d, c.Reads ts d → L' ts →
      Verdict (fun j : ι × β => size j.1 - ts.length) (fun j => f j.1 j.2) L (pre ++ ts) d) :
    Verdict size (fun i => x i >>= f i) L pre c := by
  obtain ⟨ts, m, hreads, ⟨hL', hpasses⟩ | ⟨want, hcompletes, hrejects⟩⟩ := hx
  · obtain ⟨us, d, hreads', h⟩ := h ts m hreads hL'
    rw [List.append_assoc] at h
    have hrun : ∀ {i : ι} {c' d' : Cursor}, c'.rest.length ≤ size i → c'.Reads (ts ++ us) d' →
        d'.token = d.token → ∃ b m', (x i >>= f i).run c' = (f i b).run m' ∧
          m'.rest.length ≤ size i - ts.length ∧ m'.Reads us d' := by
      intro i c' d' hlen hreads'' hd
      obtain ⟨m', hts, hus⟩ := reads_append_iff.1 hreads''
      obtain ⟨b, hb⟩ := hpasses i c' m' hlen hts (hreads'.token_congr hus hd)
      have hlength := hts.length_eq
      refine ⟨b, m', ?_, by omega, hus⟩
      rw [run_bind, hb]
    refine ⟨ts ++ us, d, hreads.append hreads', ?_⟩
    rcases h with ⟨hL, hpasses'⟩ | ⟨want, hcompletes, hrejects'⟩
    · refine .inl ⟨hL, fun i c' d' hlen hreads'' hd => ?_⟩
      obtain ⟨b, m', heq, hlen', hus⟩ := hrun hlen hreads'' hd
      rw [heq]
      exact hpasses' (i, b) m' d' hlen' hus hd
    · refine .inr ⟨want, hcompletes, fun i c' d' hlen hreads'' hd => ?_⟩
      obtain ⟨b, m', heq, hlen', hus⟩ := hrun hlen hreads'' hd
      rw [heq]
      exact hrejects' (i, b) m' d' hlen' hus hd
  · refine ⟨ts, m, hreads, .inr ⟨want, fun l hl => ?_, fun i c' d' hlen hreads' hd => ?_⟩⟩
    · obtain ⟨us, hus⟩ := hcompletes l hl
      obtain ⟨vs, hvs⟩ := hwant _ hus
      refine ⟨us ++ vs, ?_⟩
      simpa using hvs
    · rw [run_bind, hrejects i c' d' hlen hreads' hd]

end Parser

end TeachLang
