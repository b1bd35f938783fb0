import TeachLang.Proofs.Adoption
import TeachLang.Proofs.Built

/-!
# The error of a node that cannot be added

When a new node cannot be given all its children, the error is about the first that it cannot be
given. A child that is not there is named as foreign, with one exception: the position that the
new node itself takes. It is free before the call and taken when the children are looked up, so that
who asks for it is told of a cycle.
-/

namespace TeachLang

namespace Tree

variable {t u : Tree} {f g : Form} {c p : NodeId} {s : Slot}

def FirstUnusable (t : Tree) (f : Form) (c : NodeId) : Prop :=
  ∃ before s after, f.held = before ++ (s, c) :: after ∧ t.Usable (before.map Prod.snd) ∧
    ¬ t.Usable (before.map Prod.snd ++ [c])

theorem obstacle?_eq_foreign_iff {n : Node} (hp : t.get? p = some n) {k : NodeId} :
    t.obstacle? p s c = some (.foreignNode k) ↔ t.get? c = none ∧ c = k := by
  unfold obstacle?
  rw [hp]
  cases hc : t.get? c with
  | none => simp
  | some m =>
    simp only [reduceCtorEq, false_and, iff_false]
    split
    · simp
    · split
      · simp
      · split <;> simp

namespace Adds

variable (h : t.Adds u f {})
include h

theorem get?_eq_none_iff : u.get? c = none ↔ t.contains c = false ∧ c ≠ t.size := by
  have hsize := h.size_eq
  simp only [get?, contains, Array.getElem?_eq_none_iff, decide_eq_false_iff_not]
  change u.size ≤ c ↔ _
  rw [hsize, Nat.succ_le_iff, Nat.lt_iff_le_and_ne, Nat.not_lt, ne_comm]

theorem obstacle?_self (hroot : t.root ≠ some t.size) :
    u.obstacle? t.size s t.size = some (.cyclicAttachment f.kind) := by
  have htop : u.top t.size = t.size := top_of_parentless (by rw [parent?, h.new]; rfl)
  unfold obstacle?
  simp [h.new, h.root_eq, hroot, htop, Node.kind]

end Adds

/-- A node that cannot be added fails for its first unusable child, behind those before it. -/
theorem FirstUnusable.exists_run_add (h : t.FirstUnusable f c) :
    ∃ s e u g, (Build.add f).run t = (.error e, u) ∧ u.obstacle? t.size s c = some e ∧
      g.bare = f.bare ∧ t.Adds u g {} := by
  obtain ⟨before, s, after, hheld, hbefore, hc⟩ := h
  obtain ⟨rs, rs', hroles, hrs⟩ := Form.exists_roles_of_held hheld
  have hkids : rs.filterMap Prod.snd = before.map Prod.snd := by
    rw [← hrs, Form.heldIn_children]
  rw [usable_append_singleton hbefore] at hc
  rw [← hkids] at hbefore hc
  obtain ⟨e, u, g, hrun, he, hbare, -, hadds⟩ := Build.run_add_of_unusable hroles hbefore hc
  exact ⟨s, e, u, g, hrun, he, hbare, hadds⟩

theorem exists_firstUnusable (h : ¬ t.Usable f.children) : ∃ c, t.FirstUnusable f c := by
  obtain ⟨before, s, c, after, _, _, _, hheld, hbefore, hc, -⟩ :=
    Build.exists_run_add_of_not_usable h
  exact ⟨c, before, s, after, hheld, hbefore, hc⟩

/-- A new node fails for a child as foreign exactly if that is the first child which it cannot be
given, and the child is neither there nor at the position of the new node. At that position it fails
for a cycle. -/
theorem add_foreign_iff (ht : Built t) (f : Form) (c : NodeId) :
    let r := ((Build.add f).run t).1
    (r = .error (.foreignNode c) ↔
      t.FirstUnusable f c ∧ t.contains c = false ∧ c ≠ t.size) ∧
    (t.FirstUnusable f t.size → r = .error (.cyclicAttachment f.kind)) := by
  dsimp only
  refine ⟨⟨fun hr => ?_, ?_⟩, fun h => ?_⟩
  · have hunusable : ¬ t.Usable f.children := by
      intro husable
      have hok := ((add_exact t f).2.1 husable).1
      cases hok.symm.trans hr
    obtain ⟨c', hfirst⟩ := exists_firstUnusable hunusable
    obtain ⟨s, e, u, g, hrun, he, -, hadds⟩ := hfirst.exists_run_add
    rw [hrun] at hr
    cases hr
    obtain ⟨hnone, rfl⟩ := (obstacle?_eq_foreign_iff hadds.new).1 he
    exact ⟨hfirst, hadds.get?_eq_none_iff.1 hnone⟩
  · rintro ⟨hfirst, hforeign⟩
    obtain ⟨s, e, u, g, hrun, he, -, hadds⟩ := hfirst.exists_run_add
    have hobstacle := (obstacle?_eq_foreign_iff (s := s) hadds.new).2
      ⟨hadds.get?_eq_none_iff.2 hforeign, rfl⟩
    cases he.symm.trans hobstacle
    rw [hrun]
  · obtain ⟨s, e, u, g, hrun, he, hbare, hadds⟩ := h.exists_run_add
    have hroot : t.root ≠ some t.size := by
      intro hroot
      have hcontained := (ht.forest.root_parentless _ hroot).1
      rw [contains_iff_lt] at hcontained
      exact Nat.lt_irrefl _ hcontained
    have hkind : g.kind = f.kind := by rw [← g.kind_bare, hbare, f.kind_bare]
    rw [hrun, ← hkind]
    cases he.symm.trans (hadds.obstacle?_self hroot)
    rfl

/-- The negation is free, and node 7 is nowhere. Of the two statements the second would be the new
scope itself. -/
theorem add_foreign_iff_of_sum :
    let t := [Operation.add (.literal 5), .add (.unary .negate (some 0))].foldl Operation.apply {}
    Built t ∧ t.FirstUnusable (.arithmetic .add (some 1) (some 7)) 7 ∧ t.contains 7 = false ∧
      ((Build.add (.arithmetic .add (some 1) (some 7))).run t).1 = .error (.foreignNode 7) ∧
      t.FirstUnusable (.scope [1, 2]) 2 ∧
      ((Build.add (.scope [1, 2])).run t).1 = .error (.cyclicAttachment .scope) := by
  intro t
  have ht : Built t := Built.empty.operateAll _ (by simp)
  have hnegation : t.Usable [1] := ⟨by simpa using ⟨by decide, by decide, by decide⟩, by simp⟩
  have hsum : t.FirstUnusable (.arithmetic .add (some 1) (some 7)) 7 :=
    ⟨[(.left, 1)], .right, [], rfl, hnegation,
      fun h => absurd (h.1 7 (by simp)).contained (by decide)⟩
  have hscope : t.FirstUnusable (.scope [1, 2]) 2 :=
    ⟨[(.statement, 1)], .statement, [], rfl, hnegation,
      fun h => absurd (h.1 2 (by simp)).contained (by decide)⟩
  exact ⟨ht, hsum, rfl, (add_foreign_iff ht _ 7).1.2 ⟨hsum, rfl, by decide⟩, hscope,
    (add_foreign_iff ht (.scope [1, 2]) 0).2 hscope⟩

/-- A print statement asked to print the node that comes next is told of a cycle, although that node
is not there when it is asked. -/
theorem next_position_not_foreign :
    let t := Operation.apply {} (.add (.literal 5))
    let r := ((Build.add (.print (some 1))).run t).1
    Built t ∧ t.FirstUnusable (.print (some 1)) 1 ∧ t.contains 1 = false ∧
      r = .error (.cyclicAttachment .print) ∧ r ≠ .error (.foreignNode 1) := by
  intro t r
  have ht : Built t := .operate _ .empty nofun
  have hforeign : ¬ t.Usable [1] := fun h => absurd (h.1 1 (by simp)).contained (by decide)
  exact ⟨ht, ⟨[], .expr, [], rfl, ⟨nofun, List.nodup_nil⟩, hforeign⟩, rfl, by decide, by decide⟩

end Tree

end TeachLang
