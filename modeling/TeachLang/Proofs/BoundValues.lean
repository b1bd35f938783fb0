import TeachLang.Proofs.Framing

/-!
# The value of a binding

An assignment, an input or a declaration that succeeds leaves its variable bound. The first and the
last leave in the register the value that they have bound. An input leaves the register as it was,
so that whoever asks for its value gets the one that was computed before.
-/

namespace TeachLang

open TeachLang.Tree

namespace Scopes

variable {s s' : Scopes} {x : String} {v : Int64}

theorem get?_set_inner (s : Scopes) (x : String) (v : Int64) :
    ({ s with inner := s.inner.set x v } : Scopes).get? x = some v := by
  rw [get?_eq, Frame.get?_set, if_pos rfl, Option.some_or]

theorem Assigns.get?_eq (h : s.Assigns x v s') : s'.get? x = some v := by
  cases h with
  | @nearest _ before rest f hs hbefore hf hs' =>
    have hnone : before.findSome? (·.get? x) = none := by
      refine List.findSome?_eq_none_iff.2 fun g hg => ?_
      simpa [Frame.has] using hbefore g hg
    rw [get?, hs', List.findSome?_append, hnone, Option.none_or, List.findSome?_cons,
      Frame.get?_set, if_pos rfl]
  | create h => exact get?_set_inner s x v

end Scopes

namespace Evaluates

variable {t : Tree} {id : NodeId} {span : Span} {m m' : Machine}

theorem bound_of_assign {target value : Option NodeId} (h : Evaluates t (.node id) m (.ok ()) m')
    (hb : t.Bears id span (.assign target value)) :
    ∃ x, t.Binds id x ∧ m'.scopes.get? x = some m'.register := by
  cases h with
  | assign hb' hk hl hs => exact ⟨_, .assign hb' hk, hs.get?_eq⟩
  | _ => cases (hb.unique ‹t.Bears id _ _›).2

theorem bound_of_declaration {x : String} {initializer : Option NodeId}
    (h : Evaluates t (.node id) m (.ok ()) m')
    (hb : t.Bears id span (.declaration x initializer)) :
    m'.scopes.get? x = some m'.register := by
  cases h with
  | declaration hb' hk hx =>
    cases (hb.unique hb').2
    exact Scopes.get?_set_inner _ _ _
  | zeroDeclaration hb' hx =>
    cases (hb.unique hb').2
    exact Scopes.get?_set_inner _ _ _
  | _ => cases (hb.unique ‹t.Bears id _ _›).2

theorem bound_of_input {target : Option NodeId} (h : Evaluates t (.node id) m (.ok ()) m')
    (hb : t.Bears id span (.input target)) :
    ∃ x w, t.Binds id x ∧ m'.scopes.get? x = some w ∧ m'.register = m.register ∧
      m.reader.takeInteger = (.ok (some w), m'.reader) := by
  cases h with
  | input hb' hk hread hs => exact ⟨_, _, .input hb' hk, hs.get?_eq, rfl, hread⟩
  | _ => cases (hb.unique ‹t.Bears id _ _›).2

end Evaluates

namespace Tree

variable {t : Tree}

/-- A node of a kind that binds has bound its variable if its evaluation succeeds. What the
evaluation gives is the value bound, except for an input, which gives what the register held in
front of it: the value bound only if the integer read is the same. -/
theorem value_of_binding (ht : Built t) {id : NodeId} {span : Span} {f : Form}
    (hb : t.Bears id span f)
    (hkind : f.kind = .assign ∨ f.kind = .declaration ∨ f.kind = .input) {bound : Nat}
    {m m' : Machine} {v : Int64} (h : t.evaluate bound id m = some (.ok v, m')) :
    ∃ x w, t.boundName? id = some x ∧ m'.scopes.get? x = some w ∧ (f.kind ≠ .input → v = w) ∧
      (f.kind = .input → v = m.register ∧ m.reader.takeInteger = (.ok (some w), m'.reader)) ∧
      (m'.scopes.get? x = some v ↔ (f.kind = .input → w = m.register)) := by
  obtain ⟨hexec, rfl⟩ := evaluate_eq_ok.1 h
  have hid : t.contains id = true := by
    obtain ⟨n, hn, -⟩ := hb
    exact (t.contains_iff id).2 ⟨n, hn⟩
  have heval := ht.forest.follows bound id hid m _ m' hexec
  cases f with
  | assign target value =>
    obtain ⟨x, hx, hbound⟩ := heval.bound_of_assign hb
    exact ⟨x, _, binds_iff.1 hx, hbound, fun _ => rfl, nofun, fun _ => nofun, fun _ => hbound⟩
  | declaration x initializer =>
    have hbound := heval.bound_of_declaration hb
    have hx : t.Binds id x := .declaration hb
    exact ⟨x, _, binds_iff.1 hx, hbound, fun _ => rfl, nofun, fun _ => nofun, fun _ => hbound⟩
  | input target =>
    obtain ⟨x, w, hx, hbound, hregister, hread⟩ := heval.bound_of_input hb
    refine ⟨x, w, binds_iff.1 hx, hbound, fun hne => absurd rfl hne,
      fun _ => ⟨hregister, hread⟩, ?_⟩
    rw [hbound, hregister, Option.some_inj]
    exact ⟨fun hw _ => hw, fun hw => hw rfl⟩
  | _ => rcases hkind with h | h | h <;> cases h

/-- What is assigned comes from a declaration, which shadows the variable that it would have been
assigned to. -/
theorem value_of_binding_of_shadowing :
    let t := [Operation.add (.reference "x"), .add (.literal 7), .add (.declaration "x" (some 1)),
      .add (.expression (some 2)), .add (.assign (some 0) (some 3))].foldl Operation.apply {}
    let m : Machine := { scopes := ⟨[], [[("x", 1)]]⟩ }
    let m' : Machine := { scopes := ⟨[("x", 7)], [[("x", 1)]]⟩, register := 7 }
    Built t ∧ t.Bears 4 {} (.assign (some 0) (some 3)) ∧ t.evaluate 9 4 m = some (.ok 7, m') ∧
      t.boundName? 4 = some "x" ∧ m'.scopes.get? "x" = some 7 := by
  intro t m m'
  have hbuilt : Built t := Built.empty.operateAll _ (by simp)
  have hb : t.Bears 4 {} (.assign (some 0) (some 3)) := ⟨_, rfl, rfl, rfl⟩
  have hrun : t.evaluate 9 4 m = some (.ok 7, m') := by decide
  obtain ⟨x, w, hx, hbound, hv, -⟩ := value_of_binding hbuilt hb (.inl rfl) hrun
  have hname : t.boundName? 4 = some "x" := by decide
  cases hname.symm.trans hx
  cases hv nofun
  exact ⟨hbuilt, hb, hrun, hname, hbound⟩

/-- An input that has bound its variable to 5 gives 0, and 0 is printed. -/
theorem input_leaves_register :
    let t := [Operation.add (.reference "x"), .add (.input (some 0)), .add (.expression (some 1)),
      .add (.print (some 2))].foldl Operation.apply {}
    let m : Machine := { reader := { unread := [53, 10] } }
    let m' : Machine := { scopes := ⟨[("x", 5)], []⟩ }
    Built t ∧ t.boundName? 1 = some "x" ∧ t.evaluate 2 1 m = some (.ok 0, m') ∧
      m'.scopes.get? "x" ≠ some 0 ∧
      t.evaluate 4 3 m = some (.ok 0, { m' with sink := { written := ⟨#[48, 10]⟩ } }) := by
  intro t m m'
  have hbuilt : Built t := Built.empty.operateAll _ (by simp)
  exact ⟨hbuilt, by decide, by decide, by decide, by decide⟩

end Tree

end TeachLang
