import Mathlib.Data.List.Intervals
import TeachLang.Proofs.Extents
import TeachLang.Proofs.Preorder

/-!
# The order of nodes in a parsed tree

The nodes of a parsed tree stand in its array as a walk leaves them that visits a node after its
children: what hangs from a node is a part of the array that ends in front of the node. No place in
the array is taken by anything else, so the root comes last.
-/

namespace TeachLang

namespace Tree

def postorderWithin (t : Tree) : Nat → NodeId → Except BuildError (List NodeId)
  | 0, id => .error (.foreignNode id)
  | bound + 1, id => do
    let n ← t.find id
    let below ← n.form.children.mapM (t.postorderWithin bound)
    return below.flatten ++ [id]

def postorder (t : Tree) (id : NodeId) : Except BuildError (List NodeId) :=
  t.postorderWithin t.size id

variable {t : Tree} {b e id root : Nat} {ids : List NodeId}

theorem postorderWithin_succ {bound : Nat} {n : Node} {below : List (List NodeId)}
    (hn : t.get? id = some n)
    (hbelow : n.form.children.mapM (t.postorderWithin bound) = .ok below) :
    t.postorderWithin (bound + 1) id = .ok (below.flatten ++ [id]) := by
  rw [postorderWithin, (t.find_eq_ok).2 hn]
  change (do return (← n.form.children.mapM (t.postorderWithin bound)).flatten ++ [id]) = _
  rw [hbelow]
  rfl

theorem Fills.le (h : t.Fills b ids e) : b ≤ e := by
  induction h with
  | nil b => exact le_rfl
  | cons _ _ _ ihchildren ihothers => omega

/-- Walks from nodes that fill a part of the array meet the places of this part in turn. -/
theorem Fills.mapM_postorderWithin (h : t.Fills b ids e) (bound : Nat) (hbound : e ≤ b + bound) :
    ∃ parts, ids.mapM (t.postorderWithin bound) = .ok parts ∧ parts.flatten = List.Ico b e := by
  induction h generalizing bound with
  | nil b => exact ⟨[], rfl, (List.Ico.self_empty).symm⟩
  | @cons b id e span form others hid hchildren hothers ihchildren ihothers =>
    obtain ⟨n, hn, rfl, -⟩ := hid
    have hle := hchildren.le
    have hle' := hothers.le
    -- What hangs from the node is shorter by the node itself, and so is the way down.
    obtain ⟨bound, rfl⟩ : ∃ k, bound = k + 1 := ⟨bound - 1, by omega⟩
    obtain ⟨below, hbelow, hflatten⟩ := ihchildren bound (by omega)
    obtain ⟨rest, hrest, hflatten'⟩ := ihothers (bound + 1) (by omega)
    refine ⟨(below.flatten ++ [id]) :: rest, ?_, ?_⟩
    · rw [List.mapM_cons, postorderWithin_succ hn hbelow, hrest]
      rfl
    · rw [List.flatten_cons, hflatten, hflatten', ← List.Ico.succ_top hle,
        List.Ico.append_consecutive (Nat.le_succ_of_le hle) hle']

/-- In a packed tree the walk meets the nodes in the order of the array. -/
theorem Fills.postorder (h : t.Fills 0 [root] t.size) :
    t.postorder root = .ok (List.range t.size) := by
  obtain ⟨parts, hparts, hflatten⟩ := h.mapM_postorderWithin t.size (by omega)
  rw [List.mapM_cons] at hparts
  unfold Tree.postorder
  cases hroot : t.postorderWithin t.size root with
  | error e =>
    rw [hroot] at hparts
    cases hparts
  | ok part =>
    rw [hroot] at hparts
    cases hparts
    have hpart : part = List.Ico 0 t.size := by simpa using hflatten
    rw [hpart, List.Ico.zero_bot]

theorem Fills.eq_succ (h : t.Fills b [id] e) : e = id + 1 := by
  cases h with
  | cons _ _ hothers =>
    cases hothers with
    | nil => rfl

/-- Where the root alone has no parent, everything is reachable. -/
theorem Forest.length_reachable (hf : Forest t) (hroot : t.root = some root)
    (halone : ∀ id, t.contains id = true → (t.parent? id = none ↔ id = root)) :
    t.reachable.length = t.size := by
  rw [hf.length_reachable_eq hroot, List.countP_eq_length.2 fun k hk => ?_, List.length_range]
  have hk : t.contains k = true := (contains_iff_lt k).2 (List.mem_range.1 hk)
  have habove := hf.above_root halone hk
  exact decide_eq_true ((hf.top_eq_iff (hf.root_parentless root hroot).2).2 habove)

/-- Whatever the tokens, either they are no program, or their tree has one node behind the other as
they are met by a walk that visits children before parents. Nothing else can go wrong, no node is
out of the root's reach, and the root, a scope without a parent, is the last of all. -/
theorem ofTokens_postorder (tokens : List Located) :
    (∃ e, parse tokens = .error e ∧ ofTokens tokens = .error (.malformed e)) ∨
    ∃ t root n, ofTokens tokens = .ok t ∧ t.root = some root ∧ t.size = root + 1 ∧
      t.get? root = some n ∧ n.kind = .scope ∧ n.parent = none ∧
      t.reachable.length = t.size ∧ t.postorder root = .ok (List.range t.size) := by
  cases hparse : parse tokens with
  | error e => exact .inl ⟨e, rfl, ofTokens_of_parse_error hparse⟩
  | ok p =>
    obtain ⟨t, hrun, ⟨root, hroot, ⟨ks, -, hbears⟩, halone⟩, root', hroot', hfills⟩ :=
      p.run_layout_packed
    cases hroot.symm.trans hroot'
    obtain ⟨n, hn, hform, -⟩ := hbears
    have hf : Forest t := (Program.built_of_run_layout hrun).forest
    have hparent : t.parent? root = none := (hf.root_parentless root hroot).2
    rw [parent?, hn, Option.bind_some] at hparent
    refine .inr ⟨t, root, n, ofTokens_of_parse hparse hrun, hroot, hfills.eq_succ, hn, ?_,
      hparent, hf.length_reachable hroot halone, hfills.postorder⟩
    rw [Node.kind, hform]
    rfl

end Tree

end TeachLang
