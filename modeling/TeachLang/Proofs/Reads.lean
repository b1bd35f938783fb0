import TeachLang.Program.Parser
import TeachLang.Proofs.Grammar

/-!
# Reading tokens

What lies between two positions of a parser is a list of tokens, and the list and the later
position determine the span of the last token read. So a parser can be described by what it reads.
-/

namespace TeachLang

theorem lastSpan_append (previous : Span) (ts us : List Located) :
    lastSpan previous (ts ++ us) = lastSpan (lastSpan previous ts) us := by
  rw [lastSpan, List.foldl_append]
  rfl

/-- From `c` to `d` a parser reads the tokens `ts`. -/
structure Cursor.Reads (c : Cursor) (ts : List Located) (d : Cursor) : Prop where
  rest_eq : c.rest = ts ++ d.rest
  previous_eq : d.previous = lastSpan c.previous ts

namespace Cursor

variable {c d m : Cursor} {ts us : List Located}

theorem Reads.refl (c : Cursor) : c.Reads [] c := ⟨rfl, rfl⟩

theorem Reads.append (h : c.Reads ts m) (h' : m.Reads us d) : c.Reads (ts ++ us) d where
  rest_eq := by rw [h.rest_eq, h'.rest_eq, List.append_assoc]
  previous_eq := by rw [h'.previous_eq, h.previous_eq, lastSpan_append]

theorem reads_append_iff : c.Reads (ts ++ us) d ↔ ∃ m, c.Reads ts m ∧ m.Reads us d := by
  constructor
  · rintro ⟨hrest, hprevious⟩
    refine ⟨⟨us ++ d.rest, lastSpan c.previous ts⟩, ⟨?_, rfl⟩, rfl, ?_⟩
    · rw [hrest, List.append_assoc]
    · rw [hprevious, lastSpan_append]
  · rintro ⟨m, h, h'⟩
    exact h.append h'

theorem reads_advance {t : Token} (h : c.token = t) (ht : t ≠ .endOfInput) :
    c.Reads [⟨t, c.span⟩] c.advance := by
  obtain ⟨rest, previous⟩ := c
  cases rest with
  | nil => exact absurd h.symm ht
  | cons l rest =>
    cases h
    exact ⟨rfl, rfl⟩

/-- What a cursor in front of a token shows of it. -/
theorem Reads.cons {l : Located} (h : c.Reads (l :: ts) d) :
    c.token = l.token ∧ c.span = l.span ∧ c.advance.Reads ts d := by
  obtain ⟨rest, previous⟩ := c
  obtain ⟨hrest, hprevious⟩ := h
  cases hrest
  exact ⟨rfl, rfl, rfl, hprevious⟩

theorem Reads.eq_of_nil (h : c.Reads [] d) : c = d := by
  obtain ⟨rest, previous⟩ := c
  obtain ⟨rest', previous'⟩ := d
  obtain ⟨hrest, hprevious⟩ := h
  cases hrest
  cases hprevious
  rfl

theorem Reads.through_span (h : c.Reads ts d) (hne : ts ≠ []) (s : Span) :
    c.span.through s = (extent ts).through s := by
  obtain ⟨l, us, rfl⟩ := List.exists_cons_of_ne_nil hne
  rw [h.cons.2.1]
  rfl

theorem Reads.through_previous (h : c.Reads ts d) (hne : ts ≠ []) (s : Span) :
    s.through d.previous = s.through (extent ts) := by
  obtain ⟨l, us, rfl⟩ := List.exists_cons_of_ne_nil hne
  rw [h.previous_eq]
  rfl

theorem Reads.opens {P : Token → Bool} (h : c.Reads ts d) (hopens : Opens P ts) :
    P c.token = true := by
  obtain ⟨l, us, rfl, hl⟩ := hopens
  rw [h.cons.1]
  exact hl

theorem Reads.length_eq (h : c.Reads ts d) : c.rest.length = ts.length + d.rest.length := by
  rw [h.rest_eq, List.length_append]

end Cursor

namespace Token

theorem operator?_eq_some {n : Nat} {t : Token} {op : BinaryOperator} :
    t.operator? n = some op ↔ t.binary? = some op ∧ op.level = n := by
  simp [operator?, Option.filter_eq_some_iff]

theorem operator?_eq_some_iff {n : Nat} {t : Token} {op : BinaryOperator} :
    t.operator? n = some op ↔ (t, op) ∈ operators n := by
  rw [operator?_eq_some]
  constructor
  · rintro ⟨hop, rfl⟩
    cases t <;> simp only [binary?, Option.some.injEq, reduceCtorEq] at hop
    all_goals
      subst hop
      simp [operators, BinaryOperator.level]
  · intro h
    unfold operators at h
    split at h
    all_goals
      simp only [List.mem_cons, List.not_mem_nil, Prod.mk.injEq, or_false] at h
    · rcases h with ⟨rfl, rfl⟩ | ⟨rfl, rfl⟩ | ⟨rfl, rfl⟩ <;> exact ⟨rfl, rfl⟩
    · rcases h with ⟨rfl, rfl⟩ | ⟨rfl, rfl⟩ <;> exact ⟨rfl, rfl⟩
    · rcases h with ⟨rfl, rfl⟩ | ⟨rfl, rfl⟩ | ⟨rfl, rfl⟩ | ⟨rfl, rfl⟩ <;> exact ⟨rfl, rfl⟩
    · rcases h with ⟨rfl, rfl⟩ | ⟨rfl, rfl⟩ <;> exact ⟨rfl, rfl⟩
    all_goals
      obtain ⟨rfl, rfl⟩ := h
      exact ⟨rfl, rfl⟩

theorem operator?_zero (t : Token) : t.operator? 0 = none := by
  cases t <;> rfl

theorem operator?_eq_none {m n : Nat} {t : Token} {op : BinaryOperator}
    (h : (t, op) ∈ operators n) (hne : m ≠ n) : t.operator? m = none := by
  obtain ⟨hop, hlevel⟩ := operator?_eq_some.1 (operator?_eq_some_iff.2 h)
  refine Option.eq_none_iff_forall_ne_some.2 fun op' h' => ?_
  obtain ⟨hop', hlevel'⟩ := operator?_eq_some.1 h'
  rw [hop, Option.some.injEq] at hop'
  exact hne (by rw [← hlevel', ← hop', hlevel])

theorem unary?_eq_some_iff {t : Token} {op : UnaryOperator} :
    t.unary? = some op ↔ (t, op) ∈ unaryOperators := by
  cases t <;> simp [unary?, unaryOperators, eq_comm]

end Token

namespace Parser

variable {α β : Type} {c d : Cursor}

theorem run_bind_eq_ok {x : Parser α} {f : α → Parser β} {b : β} :
    (x >>= f).run c = .ok (b, d) ↔
      ∃ a m, x.run c = .ok (a, m) ∧ (f a).run m = .ok (b, d) := by
  rw [run_bind]
  rcases x.run c with e | ⟨a, m⟩
  · simp
  · constructor
    · exact fun h => ⟨a, m, rfl, h⟩
    · rintro ⟨_, _, h, hf⟩
      cases h
      exact hf

@[simp] theorem run_get : (get : Parser Cursor).run c = .ok (c, c) := rfl

end Parser

end TeachLang
