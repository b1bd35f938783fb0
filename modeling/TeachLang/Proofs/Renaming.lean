import Mathlib.Logic.Equiv.Basic
import TeachLang.Proofs.Built
import TeachLang.Proofs.Sequel

/-!
# Other names

Evaluation compares names, and does nothing else with them. So a tree in which every name is
replaced by another one, and no two by the same, runs as it did, on scopes in which the names are
replaced too.
-/

namespace TeachLang

variable {r : String → String}

namespace Frame

def rename (r : String → String) (f : Frame) : Frame := f.map fun b => (r b.1, b.2)

variable (hr : Function.Injective r)
include hr

theorem get?_rename (f : Frame) (x : String) : (f.rename r).get? (r x) = f.get? x := by
  induction f with
  | nil => rfl
  | cons b f ih =>
    obtain ⟨y, v⟩ := b
    change get? ((r y, v) :: rename r f) (r x) = _
    simp only [get?_cons, hr.eq_iff, ih]

theorem has_rename (f : Frame) (x : String) : (f.rename r).has (r x) = f.has x := by
  rw [has, has, get?_rename hr]

theorem set_rename (f : Frame) (x : String) (v : Int64) :
    (f.rename r).set (r x) v = (f.set x v).rename r := by
  induction f with
  | nil => rfl
  | cons b f ih =>
    obtain ⟨y, w⟩ := b
    change set (r x) v ((r y, w) :: rename r f) = _
    by_cases h : y = x
    · simp only [set, hr.eq_iff, if_pos h]
      rfl
    · simp only [set, hr.eq_iff, if_neg h, ih]
      rfl

end Frame

namespace Scopes

def rename (r : String → String) (s : Scopes) : Scopes :=
  ⟨s.inner.rename r, s.outer.map (Frame.rename r)⟩

variable (hr : Function.Injective r) (s : Scopes)

theorem pop_rename : (s.rename r).pop.toOption.getD (s.rename r) =
    (s.pop.toOption.getD s).rename r := by
  obtain ⟨inner, _ | ⟨f, outer⟩⟩ := s <;> rfl

include hr

theorem get?_rename (x : String) : (s.rename r).get? (r x) = s.get? x := by
  rw [get?_eq, get?_eq]
  simp only [rename, List.findSome?_map, Function.comp_def, Frame.get?_rename hr]

theorem declaredInner_rename (x : String) :
    (s.rename r).declaredInner (r x) = s.declaredInner x :=
  s.inner.has_rename hr x

theorem update?_rename (x : String) (v : Int64) (fs : List Frame) :
    update? (r x) v (fs.map (Frame.rename r)) =
      (update? x v fs).map (List.map (Frame.rename r)) := by
  induction fs with
  | nil => rfl
  | cons f fs ih =>
    simp only [List.map_cons, update?, f.has_rename hr x, ih, f.set_rename hr x v]
    cases f.has x with
    | true => rfl
    | false => cases update? x v fs <;> rfl

theorem assign_rename (x : String) (v : Int64) :
    (s.rename r).assign (r x) v = (s.assign x v).rename r := by
  unfold assign
  rw [s.declaredInner_rename hr x]
  cases s.declaredInner x with
  | true =>
    simp only [rename, s.inner.set_rename hr, if_true]
  | false =>
    simp only [rename, update?_rename hr, s.inner.set_rename hr, Bool.false_eq_true, if_false]
    cases update? x v s.outer <;> rfl

end Scopes

def Machine.rename (r : String → String) (m : Machine) : Machine :=
  { m with scopes := m.scopes.rename r }

def Error.rename (r : String → String) : Error → Error
  | .runtime ⟨fault, span⟩ => .runtime ⟨fault.rename r, span⟩
  | e => e

def Tree.rename (r : String → String) (t : Tree) : Tree :=
  { t with nodes := t.nodes.map fun n => { n with form := n.form.rename r } }

namespace Tree

theorem get?_rename (r : String → String) (t : Tree) (k : NodeId) : (t.rename r).get? k =
    (t.get? k).map fun n => { n with form := n.form.rename r } := by
  simp only [rename, get?, Array.getElem?_map]

theorem node_rename (r : String → String) (t : Tree) (k : NodeId) :
    Option.Rel (Node.Matches r Eq Eq) (t.get? k) ((t.rename r).get? k) := by
  rw [get?_rename]
  cases t.get? k with
  | none => exact .none
  | some n => exact .some ⟨rfl, rfl, n.form.matches_rename r⟩

end Tree

namespace Eval

theorem ends_rename {α : Type} (res : Except Error α)
    (hres : ∀ {e}, res = .error e → ∃ text, e = .io text) :
    Ends (fun e e' => e' = e.rename r) Eq res res := by
  refine .self ?_ res hres
  intro text
  rfl

theorem mirror_rename (hr : Function.Injective r) :
    Mirror r Eq (fun e e' => e' = e.rename r) (fun m m' => m' = m.rename r) where
  fault := by
    rintro s _ rfl f
    rfl
  register := by
    rintro m _ rfl
    rfl
  setRegister := by
    rintro m _ rfl v
    rfl
  get? := by
    rintro m _ rfl x
    exact m.scopes.get?_rename hr x
  assign := by
    rintro m _ rfl x v
    exact congrArg (fun s => { m with scopes := s }) (m.scopes.assign_rename hr x v)
  declaredInner := by
    rintro m _ rfl x
    exact m.scopes.declaredInner_rename hr x
  declare := by
    rintro m _ rfl x _ v
    exact congrArg (fun f => { m with scopes := ⟨f, m.scopes.outer.map (Frame.rename r)⟩ })
      (m.scopes.inner.set_rename hr x v)
  push := by
    rintro m _ rfl
    rfl
  pop := by
    rintro m _ rfl
    exact congrArg (fun s => { m with scopes := s }) m.scopes.pop_rename
  takeInteger := by
    rintro m _ rfl
    exact ⟨ends_rename _ m.reader.takeInteger_error, rfl⟩
  write := by
    rintro m _ rfl text
    exact ⟨ends_rename _ m.sink.write_error, rfl⟩

end Eval

namespace Tree

open Eval

/-- With other names a run is the same, at every bound. -/
theorem run_rename_apply (hr : Function.Injective r) (t : Tree) (bound : Nat) (m : Machine) :
    (t.rename r).run bound (m.rename r) =
      (t.run bound m).map fun p => (p.1.mapError (Error.rename r), p.2.rename r) := by
  have hM := mirror_rename hr
  have hnode := hM.congruence.node_of_get? (t.node_rename r) fun _ => agree_throw rfl
  refine (agree_run ?_ (hM.congruence.exec hnode hM.writes hM.takes bound)
    (optionRel_self (fun _ => rfl) t.root)).apply_eq (fun _ _ => id) rfl
  rintro m _ rfl
  exact ends_rename _ m.sink.flush_error

/-- Names matter only as far as they are the same or not: with other names a run ends if it ended
before, in the same way, but that the new names are in the scopes it leaves, and in its error. -/
theorem run_rename (hr : Function.Injective r) (t : Tree) (m m' : Machine)
    (res : Except Error Unit) : (t.rename r).Ends (m.rename r) res m' ↔
      ∃ res₀ m₀, t.Ends m res₀ m₀ ∧ res = res₀.mapError (Error.rename r) ∧ m' = m₀.rename r := by
  unfold Ends
  simp only [run_rename_apply hr, Option.map_eq_some_iff, Prod.exists, Prod.mk.injEq]
  constructor
  · rintro ⟨bound, res₀, m₀, h, rfl, rfl⟩
    exact ⟨res₀, m₀, ⟨bound, h⟩, rfl, rfl⟩
  · rintro ⟨res₀, m₀, ⟨bound, h⟩, rfl, rfl⟩
    exact ⟨bound, res₀, m₀, h, rfl, rfl⟩

/-- Two names are exchanged, one of which is printed, declared within and then declared again. -/
theorem run_rename_of_swap :
    let r := Equiv.swap "x" "y"
    let t := [Operation.add (.reference "y"), .add (.print (some 0)), .add (.literal 1),
      .add (.declaration "y" (some 2)), .add (.scope [3]), .add (.declaration "y" none),
      .add (.scope [1, 4, 5]), .setRoot 6].foldl Operation.apply {}
    let m : Machine := { scopes := ⟨[("y", 5)], []⟩ }
    let m' : Machine := { m with sink := ⟨"5\n".toUTF8, none, none⟩ }
    Function.Injective r ∧
      t.Ends m (.error (.runtime ⟨.duplicateDeclaration "y", none⟩)) m' ∧
      (t.rename r).Ends (m.rename r) (.error (.runtime ⟨.duplicateDeclaration "x", none⟩))
        (m'.rename r) := by
  intro r t m m'
  have hr : Function.Injective r := (Equiv.swap "x" "y").injective
  have hends : t.Ends m (.error (.runtime ⟨.duplicateDeclaration "y", none⟩)) m' := ⟨5, by decide⟩
  refine ⟨hr, hends, (run_rename hr t m _ _).2 ⟨_, m', hends, ?_, rfl⟩⟩
  have hname : r "y" = "x" := Equiv.swap_apply_right "x" "y"
  simp [Except.mapError, Error.rename, Fault.rename, hname]

end Tree

end TeachLang
