import TeachLang.Proofs.Adding
import TeachLang.Proofs.Built

/-!
# Attaching a node

Attaching asks for the topmost ancestor of the parent only. In a forest that is enough: the attempt
succeeds exactly when the child is free, does not stand above its new parent, and finds the role
vacant. Then the link is all that changes, and an attempt that fails changes nothing.
-/

namespace TeachLang

def Kind.slots : Kind → List Slot
  | arithmetic | logic => [.left, .right]
  | unary => [.operand]
  | scope => [.statement]
  | literal | reference => []
  | print | expression => [.expr]
  | assign => [.assignTarget, .assignedValue]
  | declaration => [.initializer]
  | ifElse => [.condition, .thenBranch, .elseBranch]
  | whileLoop => [.condition, .body]
  | forLoop => [.init, .condition, .step, .body]
  | input => [.inputTarget]

namespace Form

/-- No child stands in the role. Behind the statements of a scope there is room at all times. -/
def Vacant (f : Form) (s : Slot) : Prop := s = .statement ∨ ∀ c, (s, some c) ∉ f.roles

/-- `g` is `f` with a child in the role, which comes last if it is a statement. -/
structure Gains (f : Form) (s : Slot) (c : NodeId) (g : Form) : Prop where
  bare_eq : g.bare = f.bare
  roles_eq : g.roles = if s = .statement then f.roles ++ [(s, some c)]
    else f.roles.map fun r => if r.1 = s then (s, some c) else r

variable {f : Form} {s : Slot}

theorem slot?_eq_vacant_iff : f.slot? s = some none ↔ s ∈ f.kind.slots ∧ f.Vacant s := by
  unfold Vacant
  cases f <;> cases s <;>
    simp [slot?, kind, Kind.slots, roles, Option.eq_none_iff_forall_ne_some, eq_comm]

theorem gains_fill (h : f.slot? s = some none) (c : NodeId) : f.Gains s c (f.fill s c) where
  bare_eq := bare_fill f s c
  roles_eq := by cases f <;> cases s <;> simp_all [slot?, fill, roles]

end Form

namespace Tree

variable {t u : Tree} {p c : NodeId} {s : Slot}

structure Attachable (t : Tree) (p : NodeId) (s : Slot) (c : NodeId) : Prop where
  free : t.Free c
  not_above : ¬ t.Above c p
  vacant : ∃ n, t.get? p = some n ∧ s ∈ n.kind.slots ∧ n.form.Vacant s

structure Attached (t u : Tree) (p : NodeId) (s : Slot) (c : NodeId) : Prop where
  size_eq : u.size = t.size
  root_eq : u.root = t.root
  parent : ∃ n f, t.get? p = some n ∧ n.form.Gains s c f ∧ u.get? p = some { n with form := f }
  child : ∃ m, t.get? c = some m ∧ u.get? c = some { m with parent := some p }
  others : ∀ k, k ≠ p → k ≠ c → u.get? k = t.get? k

theorem free_iff {m : Node} (hm : t.get? c = some m) :
    t.Free c ↔ m.parent = none ∧ t.root ≠ some c := by
  have hparent : t.parent? c = m.parent := by rw [parent?, hm, Option.bind_some]
  constructor
  · intro h
    exact ⟨hparent.symm.trans h.parentless, h.not_root⟩
  · rintro ⟨hfree, hroot⟩
    exact ⟨(t.contains_iff c).2 ⟨m, hm⟩, hparent.trans hfree, hroot⟩

/-- The topmost ancestor is the only one that could close a cycle. -/
theorem Forest.obstacle?_eq_none_iff_attachable (hf : Forest t) :
    t.obstacle? p s c = none ↔ t.Attachable p s c := by
  rw [obstacle?_eq_none_iff]
  constructor
  · rintro ⟨n, m, hn, hm, hparent, hroot, htop, hslot⟩
    have hfree : t.Free c := (free_iff hm).2 ⟨hparent, hroot⟩
    obtain ⟨hrole, hvacant⟩ := Form.slot?_eq_vacant_iff.1 hslot
    refine ⟨hfree, ?_, n, hn, hrole, hvacant⟩
    rwa [← hf.top_eq_iff hfree.parentless]
  · rintro ⟨hfree, hnot, n, hn, hrole, hvacant⟩
    obtain ⟨m, hm⟩ := (t.contains_iff c).1 hfree.contained
    obtain ⟨hparent, hroot⟩ := (free_iff hm).1 hfree
    refine ⟨n, m, hn, hm, hparent, hroot, ?_, Form.slot?_eq_vacant_iff.2 ⟨hrole, hvacant⟩⟩
    rwa [Ne, hf.top_eq_iff hfree.parentless]

theorem attached_link (h : t.Attachable p s c) : t.Attached (t.link p s c) p s c := by
  obtain ⟨hfree, hnot, n, hn, hrole, hvacant⟩ := h
  obtain ⟨m, hm⟩ := (t.contains_iff c).1 hfree.contained
  have hne : c ≠ p := by
    rintro rfl
    exact hnot .refl
  have hslot := Form.slot?_eq_vacant_iff.2 ⟨hrole, hvacant⟩
  refine ⟨size_link t p s c, rfl, ⟨n, _, hn, Form.gains_fill hslot c, ?_⟩, ⟨m, hm, ?_⟩, ?_⟩
  · rw [get?_link, hn]
    simp [hne]
  · rw [get?_link, hm]
    simp [hne.symm]
  · intro k hkp hkc
    rw [get?_link]
    cases t.get? k <;> simp [hkp.symm, hkc.symm]

/-- An attempt to attach a node either makes exactly the link it was asked for, or nothing. -/
theorem attach_exact (ht : Built t) (p : NodeId) (s : Slot) (c : NodeId) :
    let r := (Build.attach p s c).run t
    (r.1 = .ok () ↔ t.Attachable p s c) ∧
      (r.1 = .ok () → t.Attached r.2 p s c) ∧ (r.1 ≠ .ok () → r.2 = t) := by
  dsimp only
  rw [Build.run_attach]
  have hiff := ht.forest.obstacle?_eq_none_iff_attachable (p := p) (s := s) (c := c)
  cases h : t.obstacle? p s c with
  | some e =>
    have hnot : ¬ t.Attachable p s c := by
      rw [← hiff, h]
      exact nofun
    exact ⟨⟨nofun, fun ha => absurd ha hnot⟩, nofun, fun _ => rfl⟩
  | none =>
    have ha : t.Attachable p s c := hiff.1 h
    exact ⟨⟨fun _ => ha, fun _ => rfl⟩, fun _ => attached_link ha, fun hne => absurd rfl hne⟩

/-- Node 2 cannot come to stand below node 0, two links under it. The literal can. -/
theorem attach_exact_of_cycle :
    let t := [Operation.add (.unary .negate none), .add (.unary .not (some 0)),
      .add (.print (some 1)), .add (.literal 5)].foldl Operation.apply {}
    Built t ∧ t.Above 2 0 ∧ t.Free 2 ∧ ((Build.attach 0 .operand 2).run t).2 = t ∧
      t.Attached ((Build.attach 0 .operand 3).run t).2 0 .operand 3 := by
  intro t
  have ht : Built t := Built.empty.operateAll _ (by simp)
  have habove : t.Above 2 0 := .head (b := 1) (by decide) (.single (by decide))
  obtain ⟨hiff, -, hfails⟩ := attach_exact ht 0 .operand 2
  obtain ⟨-, hlinks, -⟩ := attach_exact ht 0 .operand 3
  refine ⟨ht, habove, ⟨by decide, by decide, by decide⟩, hfails fun hok => ?_, hlinks rfl⟩
  exact (hiff.1 hok).not_above habove

end Tree

end TeachLang
