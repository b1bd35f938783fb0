import TeachLang.Proofs.EqualTrees

/-!
# Empty scopes in between

A scope that binds nothing hides nothing and catches no assignment, as long as it is not the
innermost one. So an evaluation does the same with such a scope in between as without it.
-/

namespace TeachLang

def Error.Same (e e' : Error) : Prop := e.unplaced = e'.unplaced

theorem same_io (text : String) : Error.Same (.io text) (.io text) := rfl

namespace Scopes

def pad : Nat → List Frame → List Frame
  | 0, fs => [] :: fs
  | n + 1, f :: fs => f :: pad n fs
  | _ + 1, [] => [[]]

theorem findSome?_pad (n : Nat) (fs : List Frame) (x : String) :
    (pad n fs).findSome? (·.get? x) = fs.findSome? (·.get? x) := by
  induction n generalizing fs with
  | zero => rfl
  | succ n ih =>
    cases fs with
    | nil => rfl
    | cons f fs => rw [pad, List.findSome?_cons, List.findSome?_cons, ih]

theorem update?_pad (n : Nat) (fs : List Frame) (x : String) (v : Int64) :
    update? x v (pad n fs) = (update? x v fs).map (pad n) := by
  induction n generalizing fs with
  | zero => rfl
  | succ n ih =>
    cases fs with
    | nil => rfl
    | cons f fs =>
      rw [pad, update?, update?, ih]
      by_cases hf : f.has x = true
      · rw [if_pos hf, if_pos hf]
        rfl
      · rw [if_neg hf, if_neg hf, Option.map_map, Option.map_map]
        rfl

def padded (n : Nat) (s : Scopes) : Scopes := ⟨s.inner, pad n s.outer⟩

theorem get?_padded (n : Nat) (s : Scopes) (x : String) : (s.padded n).get? x = s.get? x := by
  rw [get?_eq, get?_eq, padded, findSome?_pad]

theorem assign_padded (n : Nat) (s : Scopes) (x : String) (v : Int64) :
    (s.padded n).assign x v = (s.assign x v).padded n := by
  unfold assign declaredInner padded
  rw [update?_pad]
  by_cases hx : s.inner.has x = true
  · simp only [if_pos hx]
  · simp only [if_neg hx]
    cases update? x v s.outer <;> rfl

end Scopes

namespace Eval

/-- The second machine is the first one with an empty scope behind the innermost one and `n`
others. -/
structure Padded (n : Nat) (m m' : Machine) : Prop where
  le : n ≤ m.scopes.outer.length
  eq : m' = { m with scopes := m.scopes.padded n }

namespace Padded

variable {n : Nat} {m m' : Machine}

theorem push (h : Padded n m m') : Padded (n + 1) { m with scopes := m.scopes.push }
    { m' with scopes := m'.scopes.push } := by
  obtain ⟨hle, rfl⟩ := h
  exact ⟨Nat.succ_le_succ hle, rfl⟩

theorem pop (h : Padded (n + 1) m m') :
    Padded n { m with scopes := m.scopes.pop.toOption.getD m.scopes }
      { m' with scopes := m'.scopes.pop.toOption.getD m'.scopes } := by
  obtain ⟨hle, rfl⟩ := h
  obtain ⟨⟨inner, _ | ⟨f, fs⟩⟩, register, reader, sink⟩ := m
  · cases hle
  · exact ⟨Nat.le_of_succ_le_succ hle, rfl⟩

end Padded

def AgreePadded {α α' : Type} (A : α → α' → Prop) (x : Eval α) (x' : Eval α') : Prop :=
  ∀ n, Agree (Padded n) Error.Same A x x'

theorem agreePadded_lookup (s s' : Span) (x : String) :
    AgreePadded Eq (lookup x s) (lookup x s') := by
  rintro n m _ ⟨hle, rfl⟩
  have hget := m.scopes.get?_padded n x
  cases hx : m.scopes.get? x with
  | none =>
    rw [lookup_of_none hx, lookup_of_none (hget.trans hx)]
    exact .some ⟨.error rfl, hle, rfl⟩
  | some v =>
    rw [lookup_of_some hx, lookup_of_some (hget.trans hx)]
    exact .some ⟨.ok rfl, hle, rfl⟩

theorem agreePadded_declare (s s' : Span) (x : String) (v : Int64) :
    AgreePadded Eq (declare x v s) (declare x v s') := by
  rintro n m _ ⟨hle, rfl⟩
  rw [declare, declare, bind_apply, bind_apply]
  by_cases hx : m.scopes.declaredInner x = true
  · have hx' : (m.scopes.padded n).declaredInner x = true := hx
    simp only [get_apply, Scopes.declare, if_pos hx, if_pos hx']
    exact .some ⟨.error rfl, hle, rfl⟩
  · have hx' : ¬(m.scopes.padded n).declaredInner x = true := hx
    simp only [get_apply, Scopes.declare, if_neg hx, if_neg hx']
    exact .some ⟨.ok rfl, hle, rfl⟩

theorem congruence_padded : Congruence id Span.Any AgreePadded where
  pure h _ := agree_pure h
  bind hx hf n := (hx n).bind fun a a' h => hf a a' h n
  unbounded _ _ _ _ := .none
  raise _ f _ := agree_throw (by rw [Fault.rename_id]; rfl)
  register _ _ _ hm := .some ⟨.ok (by rw [hm.eq]), hm⟩
  setRegister v _ _ _ hm := .some ⟨.ok rfl, hm.le, by rw [hm.eq]⟩
  lookup _ x := agreePadded_lookup _ _ x
  assign x v n m m' hm := by
    obtain ⟨hle, rfl⟩ := hm
    have hdepth := m.scopes.depth_assign x v
    refine .some ⟨.ok rfl, ?_, ?_⟩
    · exact hle.trans_eq (Nat.succ.inj hdepth).symm
    · exact congrArg (fun s => { m with scopes := s }) (m.scopes.assign_padded n x v)
  declare _ x v := agreePadded_declare _ _ x v
  inScope := by
    intro α α' A x x' hx n m m' hm
    have hends := hx (n + 1) _ _ hm.push
    unfold inScope
    generalize x { m with scopes := m.scopes.push } = p at hends ⊢
    generalize x' { m' with scopes := m'.scopes.push } = p' at hends ⊢
    cases hends with
    | none => exact .none
    | some h => exact .some ⟨h.1, h.2.pop⟩

theorem agreePadded_takeInteger : AgreePadded Eq takeInteger takeInteger := by
  rintro n m _ ⟨hle, rfl⟩
  rw [takeInteger_apply, takeInteger_apply]
  exact .some ⟨.self same_io _ m.reader.takeInteger_error, hle, rfl⟩

theorem agreePadded_write (text : String) : AgreePadded Eq (write text) (write text) := by
  rintro n m _ ⟨hle, rfl⟩
  rw [write_apply, write_apply]
  exact .some ⟨.self same_io _ m.sink.write_error, hle, rfl⟩

end Eval

end TeachLang
