import TeachLang.Proofs.Counterpart

/-!
# Nodes that look the same

What hangs from two nodes is compared form by form, down to some depth. Comparison finds out whether
it is equal so far as no span is asked about. What hangs from a node goes on to look the same as
long as no part of it changes, and the rest of the tree may change at will.
-/

namespace TeachLang.Tree

/-- What hangs from the nodes is at most `bound` nodes deep, and has the same forms all through and
related spans. -/
def Resembles (t u : Tree) (R : Span → Span → Prop) : Nat → NodeId → NodeId → Prop
  | 0, _, _ => False
  | bound + 1, k, k' => ∃ n n', t.get? k = some n ∧ u.get? k' = some n' ∧ R n.span n'.span ∧
      n.form.Matches id (Resembles t u R bound) n'.form

variable {t u v : Tree} {R R' : Span → Span → Prop} {bound : Nat} {k k' : NodeId}

theorem Resembles.imp (h : t.Resembles u R bound k k') (hR : ∀ s s', R s s' → R' s s') :
    t.Resembles u R' bound k k' := by
  induction bound generalizing k k' with
  | zero => exact h
  | succ bound ih =>
    obtain ⟨n, n', hn, hn', hspan, hform⟩ := h
    exact ⟨n, n', hn, hn', hR _ _ hspan, hform.imp fun _ _ _ _ h => ih h⟩

/-- The nodes that are kept have the same forms and spans as before. -/
theorem Resembles.frame {K : NodeId → Prop} (h : t.Resembles u R bound k k')
    (hchildren : ∀ k n, K k → u.get? k = some n → ∀ c ∈ n.form.children, K c)
    (hsame : ∀ k n, K k → u.get? k = some n →
      ∃ n', v.get? k = some n' ∧ n'.form = n.form ∧ n'.span = n.span) (hk : K k') :
    t.Resembles v R bound k k' := by
  induction bound generalizing k k' with
  | zero => exact h
  | succ bound ih =>
    obtain ⟨n, n', hn, hn', hspan, hform⟩ := h
    obtain ⟨m, hm, hmform, hmspan⟩ := hsame k' n' hk hn'
    rw [← hmform] at hform
    rw [← hmspan] at hspan
    refine ⟨n, m, hn, hm, hspan, hform.imp ?_⟩
    intro c _ c' hc' h
    rw [hmform] at hc'
    exact ih h (hchildren k' n' hk hn' c' hc')

/-! ### Comparison -/

theorem match_of_sameRoles {same : NodeId → NodeId → Option Bool}
    {rs rs' : List (Slot × Option NodeId)} (h : sameRoles same rs rs' = some true) :
    RolesMatch (fun k k' => same k k' = some true) rs rs' := by
  induction rs generalizing rs' with
  | nil =>
    cases rs' with
    | nil => exact .nil
    | cons => cases h
  | cons r rs ih =>
    obtain ⟨s, o⟩ := r
    cases rs' with
    | nil => cases o <;> cases h
    | cons r' rs' =>
      obtain ⟨s', o'⟩ := r'
      cases o with
      | none =>
        cases o' with
        | none =>
          rw [sameRoles] at h
          split at h
          · next hs => exact .cons ⟨hs.symm, .none⟩ (ih h)
          · cases h
        | some => cases h
      | some c =>
        cases o' with
        | none => cases h
        | some c' =>
          rw [sameRoles] at h
          split at h
          · next hs =>
            obtain ⟨b, hb, h⟩ := Option.bind_eq_some_iff.1 h
            cases b with
            | false => cases h
            | true => exact .cons ⟨hs.symm, .some hb⟩ (ih h)
          · cases h

theorem sameWithin_eq_true :
    sameWithin t u bound k k' = some true ↔ t.Resembles u Span.Any bound k k' := by
  induction bound generalizing k k' with
  | zero => exact ⟨nofun, nofun⟩
  | succ bound ih =>
    constructor
    · intro h
      obtain ⟨n, hn, h⟩ := Option.bind_eq_some_iff.1 h
      obtain ⟨n', hn', h⟩ := Option.bind_eq_some_iff.1 h
      split at h
      · next hpayload =>
        have hbare : n'.form.bare = n.form.bare := (of_decide_eq_true hpayload).symm
        rw [← Form.rename_id n.form.bare] at hbare
        have hroles := (match_of_sameRoles h).imp fun _ _ _ _ h => ih.1 h
        exact ⟨n, n', hn, hn', trivial, Form.matches_iff.2 ⟨hbare, hroles⟩⟩
      · cases h
    · rintro ⟨n, n', hn, hn', _, hform⟩
      obtain ⟨hbare, hroles⟩ := Form.matches_iff.1 hform
      rw [Form.rename_id] at hbare
      have hpayload : n.form.samePayload n'.form = true := decide_eq_true hbare.symm
      rw [sameWithin, hn, hn']
      change (if n.form.samePayload n'.form then _ else _) = _
      rw [if_pos hpayload]
      exact sameRoles_of_match hroles fun _ _ _ h => ih.2 h

/-! ### Evaluation -/

def Twin (t u : Tree) (R : Span → Span → Prop) (k k' : NodeId) : Prop :=
  (∃ bound, t.Resembles u R bound k k') ∧ (u.parent? k').isNone = (t.parent? k).isNone

theorem simulates_twin (ht : Forest t) (hu : Forest u) : t.Simulates u id R (Twin t u R) := by
  apply simulates_of_forms ht hu
  rintro k k' ⟨bound, h⟩
  cases bound with
  | zero => exact h.elim
  | succ bound =>
    obtain ⟨n, n', hn, hn', hspan, hform⟩ := h
    exact ⟨n, n', hn, hn', hspan, hform.imp fun _ _ _ _ h => ⟨bound, h⟩⟩

/-- Roots that look the same, or none on both sides. -/
theorem twin_root (ht : Forest t) (hu : Forest u)
    (h : Option.Rel (fun k k' => ∃ bound, t.Resembles u R bound k k') t.root u.root) :
    Option.Rel (Twin t u R) t.root u.root := by
  generalize hroot : t.root = root at h
  generalize hroot' : u.root = root' at h
  cases h with
  | none => exact .none
  | some h =>
    refine .some ⟨h, ?_⟩
    rw [(ht.root_parentless _ hroot).2, (hu.root_parentless _ hroot').2]

end TeachLang.Tree
