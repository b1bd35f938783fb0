import TeachLang.Proofs.EqualTrees
import TeachLang.Proofs.Numbering

/-!
# Clones

Nodes that look the same, spans included, have the same copies. So a clone, which looks like what
hangs from the root of the original, is its own clone.
-/

namespace TeachLang

variable {S S' : NodeId → NodeId → Prop}

theorem optionRel_symm {o o' : Option NodeId} (h : Option.Rel S o o')
    (hS : ∀ k k', S k k' → S' k' k) : Option.Rel S' o' o := by
  cases h with
  | none => exact .none
  | some h => exact .some (hS _ _ h)

theorem Form.Matches.symm {f f' : Form} (h : f.Matches id S f')
    (hS : ∀ k k', S k k' → S' k' k) : f'.Matches id S' f := by
  obtain ⟨hbare, hroles⟩ := Form.matches_iff.1 h
  rw [Form.rename_id] at hbare
  refine Form.matches_iff.2 ⟨by rw [Form.rename_id, hbare], ?_⟩
  exact hroles.flip.imp fun _ _ ⟨hs, ho⟩ => ⟨hs.symm, optionRel_symm ho hS⟩

namespace Tree

variable {t u : Tree} {R R' : Span → Span → Prop} {bound : Nat} {k k' : NodeId}

theorem Resembles.symm (h : t.Resembles u R bound k k') (hR : ∀ s s', R s s' → R' s' s) :
    u.Resembles t R' bound k' k := by
  induction bound generalizing k k' with
  | zero => exact h
  | succ bound ih =>
    obtain ⟨n, n', hn, hn', hspan, hform⟩ := h
    exact ⟨n', n, hn', hn, hR _ _ hspan, hform.symm fun _ _ h => ih h⟩

/-- How deep two nodes of forests are compared is no matter, if it is deep enough for one. -/
theorem Resembles.within (hu : Forest u) (h : t.Resembles u R bound k k') :
    t.Resembles u R u.size k k' := by
  have hcontains : u.contains k' = true := by
    cases bound with
    | zero => exact h.elim
    | succ bound =>
      obtain ⟨_, n', _, hn', _⟩ := h
      exact (u.contains_iff k').2 ⟨n', hn'⟩
  refine hu.descend (motive := fun depth k' => ∀ bound k, t.Resembles u R bound k k' →
    t.Resembles u R depth k k') (fun depth id n' hn' hchildren bound k h => ?_) hcontains bound k h
  cases bound with
  | zero => exact h.elim
  | succ bound =>
    obtain ⟨n, m, hn, hm, hspan, hform⟩ := h
    cases hn'.symm.trans hm
    exact ⟨n, n', hn, hn', hspan, hform.imp fun c _ c' hc' h => hchildren c' hc' bound c h⟩

end Tree

namespace Build

variable {s s' : Tree}

theorem copyRoles_congr {copy copy' : NodeId → Build NodeId} {p : NodeId}
    {rs rs' : List (Slot × Option NodeId)}
    (h : RolesMatch (fun c c' => copy c = copy' c') rs rs') :
    copyRoles copy p rs = copyRoles copy' p rs' := by
  induction h with
  | nil => rfl
  | @cons r r' rs rs' hr _ ih =>
    obtain ⟨slot, o⟩ := r
    obtain ⟨slot', o'⟩ := r'
    obtain ⟨hslot, ho⟩ := hr
    obtain rfl : slot' = slot := hslot
    cases ho with
    | none => exact ih
    | some hk => rw [copyRoles, copyRoles, hk, ih]

theorem copyWithin_succ {bound : Nat} {id : NodeId} {n : Node} (hn : s.get? id = some n) :
    copyWithin s (bound + 1) id = (do
      let copy ← push { form := n.form.bare, span := n.span }
      copyRoles (copyWithin s bound) copy n.form.roles
      return copy) := by
  rw [copyWithin, (s.find_eq_ok).2 hn]
  rfl

/-- What looks the same is copied by the same steps. -/
theorem copyWithin_of_resembles {depth bound bound' : Nat} {k k' : NodeId}
    (h : s.Resembles s' Eq depth k k') (hb : depth ≤ bound) (hb' : depth ≤ bound') :
    copyWithin s bound k = copyWithin s' bound' k' := by
  induction depth generalizing bound bound' k k' with
  | zero => exact h.elim
  | succ depth ih =>
    obtain ⟨bound, rfl⟩ := Nat.exists_eq_add_of_lt hb
    obtain ⟨bound', rfl⟩ := Nat.exists_eq_add_of_lt hb'
    obtain ⟨n, n', hn, hn', hspan, hform⟩ := h
    obtain ⟨hbare, hroles⟩ := Form.matches_iff.1 hform
    rw [Form.rename_id] at hbare
    rw [copyWithin_succ hn, copyWithin_succ hn', hbare, hspan]
    congr 1
    funext copy
    rw [copyRoles_congr (hroles.imp fun c _ c' _ h => ih h (Nat.le_add_right _ _)
      (Nat.le_add_right _ _))]

theorem run_copy_foreign {id : NodeId} (h : s.contains id = false) (t : Tree) :
    (copy s id).run t = (.error (.foreignNode id), t) := by
  unfold copy
  cases s.size with
  | zero => rfl
  | succ bound => rw [copyWithin, s.find_of_not_contains h, run_bind, run_liftM]

end Build

namespace Tree

variable {s t : Tree}

theorem clone_of_rootless (h : s.root = none) : s.clone = {} := by
  unfold clone
  rw [h]

/-- A clone has the nodes that hang from the root in the order of the walk. -/
theorem clone_of_root (hs : Forest s) {root : NodeId} (h : s.root = some root) :
    ∃ u, (Build.copy s root).run {} = (.ok 0, u) ∧ s.clone = { u with root := some 0 } ∧
      s.Lists root s.reachable ∧ s.Imports {} u s.reachable := by
  obtain ⟨ids, u, hpreorder, hlists, hrun, himports⟩ :=
    exists_imports forest_empty hs (hs.root_parentless root h).1
  have hrun : (Build.copy s root).run {} = (.ok 0, u) := hrun
  rw [reachable_of_preorder h hpreorder]
  refine ⟨u, hrun, ?_, hlists, himports⟩
  simp only [clone, h, hrun]

theorem size_clone (hs : Forest s) : s.clone.size = s.reachable.length := by
  cases h : s.root with
  | none =>
    rw [clone_of_rootless h, reachable_of_rootless h]
    rfl
  | some root =>
    obtain ⟨u, -, hclone, -, himports⟩ := clone_of_root hs h
    rw [hclone]
    exact himports.size_eq.trans (Nat.zero_add _)

theorem size_clone_le (hs : Forest s) : s.clone.size ≤ s.size := by
  rw [size_clone hs]
  cases h : s.root with
  | none =>
    rw [reachable_of_rootless h]
    exact Nat.zero_le _
  | some root =>
    obtain ⟨_, -, -, hlists, himports⟩ := clone_of_root hs h
    refine length_le_size hlists.nodup fun k hk => ?_
    obtain ⟨i, hi⟩ := List.getElem?_of_mem hk
    obtain ⟨n, hn, -⟩ := himports.copy i k hi
    exact (s.contains_iff k).2 ⟨n, hn⟩

theorem root_clone (hs : Forest s) : s.clone.root = s.root.map fun _ => 0 := by
  cases h : s.root with
  | none => rw [clone_of_rootless h, Option.map_none]
  | some root =>
    obtain ⟨u, -, hclone, -⟩ := clone_of_root hs h
    rw [hclone, Option.map_some]

/-- The comparison of a tree and its clone comes out the same both ways. -/
theorem same_clone (hs : Forest s) : s.same s.clone = true ∧ s.clone.same s = true := by
  have hclone := forest_clone s
  obtain ⟨-, hlooks⟩ := duplicate_of_forest hs
  refine ⟨same_of_resembles hs hclone hlooks, same_of_resembles (R := Eq) hclone hs ?_⟩
  exact optionRel_symm hlooks fun _ _ ⟨bound, h⟩ => ⟨bound, h.symm fun _ _ => Eq.symm⟩

/-- To clone a clone changes nothing. -/
theorem clone_clone (hs : Forest s) : s.clone.clone = s.clone := by
  obtain ⟨-, hlooks⟩ := duplicate_of_forest hs
  have hroot := root_clone hs
  cases h : s.root with
  | none => rw [clone_of_rootless h, clone_of_rootless rfl]
  | some root =>
    rw [h, Option.map_some] at hroot
    rw [h, hroot] at hlooks
    obtain ⟨bound, hlooks⟩ : ∃ bound, s.Resembles s.clone Eq bound root 0 := by
      cases hlooks with
      | some h => exact h
    have hsteps : Build.copy s root = Build.copy s.clone 0 :=
      Build.copyWithin_of_resembles (hlooks.within (forest_clone s)) (size_clone_le hs) le_rfl
    obtain ⟨u, hrun, hclone, -⟩ := clone_of_root hs h
    obtain ⟨u', hrun', hclone', -⟩ := clone_of_root (forest_clone s) hroot
    rw [hsteps, hrun'] at hrun
    cases hrun
    rw [hclone', hclone]

/-- A node that is there is copied without fail, with what hangs from it in the order of the walk,
and nothing else changes. So a clone has all that hangs from the root, and is its own clone. -/
theorem copy_exact (ht : Built t) (hs : Built s) :
    (∀ id, s.contains id = true → ∃ ids u, s.preorder id = .ok ids ∧ s.Lists id ids ∧
      (Build.copy s id).run t = (.ok t.size, u) ∧ s.Imports t u ids) ∧
    (∀ id, s.contains id = false → (Build.copy s id).run t = (.error (.foreignNode id), t)) ∧
    s.duplicate = .ok s.clone ∧
    (∀ root, s.root = some root → s.Lists root s.reachable) ∧
    s.clone.size = s.reachable.length ∧ s.clone.root = (s.root.map fun _ => 0) ∧
    (s.root = none → s.clone = {}) ∧
    s.same s.clone = true ∧ s.clone.same s = true ∧ s.clone.clone = s.clone := by
  have hf := hs.forest
  obtain ⟨hsame, hsame'⟩ := same_clone hf
  refine ⟨fun id hid => exists_imports ht.forest hf hid, fun id hid => Build.run_copy_foreign hid t,
    (duplicate_of_forest hf).1, fun root hroot => ?_, size_clone hf, root_clone hf,
    clone_of_rootless, hsame, hsame', clone_clone hf⟩
  obtain ⟨_, -, -, hlists, -⟩ := clone_of_root hf hroot
  exact hlists

/-- The variable comes before its owner, the owner before the scope, and a number hangs nowhere. -/
theorem copy_exact_of_scattered :
    let t := [Operation.add (.literal 4), .setRoot 0].foldl Operation.apply {}
    let s := [Operation.add (.reference "x"), .setSpan 0 ⟨none, 1, 7, 1, 7⟩, .add (.literal 9),
      .add (.print (some 0)), .add (.scope [2]), .setRoot 3].foldl Operation.apply {}
    Built t ∧ Built s ∧ s.contains 2 = true ∧ s.contains 4 = false ∧
      (∃ u, (Build.copy s 2).run t = (.ok 1, u) ∧ u.size = 3 ∧ u.root = some 0 ∧
        u.get? 2 = some
          { form := .reference "x", parent := some 1, span := ⟨none, 1, 7, 1, 7⟩ }) ∧
      (Build.copy s 4).run t = (.error (.foreignNode 4), t) ∧
      s.duplicate = .ok s.clone ∧ s.clone.size = 3 ∧ s.clone.clone = s.clone := by
  intro t s
  have ht : Built t := Built.empty.operateAll _ (by simp)
  have hs : Built s := Built.empty.operateAll _ (by simp)
  have hid : s.contains 2 = true := by decide
  have hforeign : s.contains 4 = false := by decide
  obtain ⟨hcopy, hnone, hduplicate, -, hsize, -, -, -, -, hclone⟩ := copy_exact ht hs
  obtain ⟨ids, u, hpreorder, -, hrun, himports⟩ := hcopy 2 hid
  have hids : s.preorder 2 = .ok [2, 0] := by rfl
  cases hids.symm.trans hpreorder
  obtain ⟨n, hn, hget⟩ := himports.copy 1 0 rfl
  have hnode : s.get? 0 = some
      { form := .reference "x", parent := some 2, span := ⟨none, 1, 7, 1, 7⟩ } := by decide
  cases hnode.symm.trans hn
  exact ⟨ht, hs, hid, hforeign, ⟨u, hrun, himports.size_eq, himports.root_eq, hget⟩,
    hnone 4 hforeign, hduplicate, hsize, hclone⟩

end Tree

end TeachLang
