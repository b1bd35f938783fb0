import TeachLang.Proofs.Alike
import TeachLang.Proofs.Simulation
import TeachLang.Tree.Copy

/-!
# Trees of programs that are alike

Where two programs are alike, so are their trees, node by node. Such trees are evaluated in step,
and they are the same when compared.
-/

namespace TeachLang

namespace Tree

variable {t u : Tree} {R : Span → Span → Prop} {S : NodeId → NodeId → Prop} {k k' : NodeId}

/-! ### Comparison -/

theorem sameRoles_of_match {same : NodeId → NodeId → Option Bool}
    {rs rs' : List (Slot × Option NodeId)} (h : RolesMatch S rs rs')
    (hsame : ∀ k ∈ rs.filterMap Prod.snd, ∀ k', S k k' → same k k' = some true) :
    sameRoles same rs rs' = some true := by
  induction h with
  | nil => rfl
  | @cons p p' rs rs' hp _ ih =>
    obtain ⟨s, o⟩ := p
    obtain ⟨s', o'⟩ := p'
    obtain ⟨hs, ho⟩ := hp
    obtain rfl : s' = s := hs
    cases ho with
    | none =>
      rw [sameRoles, if_pos rfl]
      exact ih hsame
    | @some k k' hk =>
      rw [sameRoles, if_pos rfl, hsame k List.mem_cons_self k' hk]
      exact ih fun l hl => hsame l (List.mem_cons_of_mem k hl)

/-- Trees that correspond without a change of names are the same. -/
theorem Simulates.same? (h : t.Simulates u id R S) (hf : Forest t) (hk : S k k') :
    t.same? k u k' = some true := by
  obtain ⟨n, _, hn, _⟩ := h.node hk
  have hsame : ∀ k', S k k' → sameWithin t u t.size k k' = some true := by
    refine hf.descend
      (motive := fun bound k => ∀ k', S k k' → sameWithin t u bound k k' = some true)
      (fun bound k n hn hchildren k' hk => ?_) ((t.contains_iff k).2 ⟨n, hn⟩)
    obtain ⟨m, n', hm, hn', _, _, hform⟩ := h.node hk
    cases hn.symm.trans hm
    obtain ⟨hbare, hroles⟩ := Form.matches_iff.1 hform
    rw [Form.rename_id] at hbare
    have hpayload : n.form.samePayload n'.form = true := by
      rw [Form.samePayload, hbare]
      exact decide_eq_true rfl
    rw [sameWithin, hn, hn']
    change (if n.form.samePayload n'.form then _ else _) = _
    rw [if_pos hpayload]
    exact sameRoles_of_match hroles hchildren
  exact hsame k' hk

/-! ### Nodes that say the same part of a program -/

inductive Counterpart (t u : Tree) (R : Span → Span → Prop) : NodeId → NodeId → Prop
  | expr {e e' : Expr} {k k' : NodeId} (h : e.StandsAt t k) (h' : e'.StandsAt u k')
      (he : e.Alike R e') : Counterpart t u R k k'
  | simple {s s' : Simple} {k k' : NodeId} (h : s.StandsAt t k) (h' : s'.StandsAt u k')
      (hs : s.Alike R s') : Counterpart t u R k k'
  | stmt {s s' : Stmt} {k k' : NodeId} (h : s.StandsAt t k) (h' : s'.StandsAt u k')
      (hs : s.Alike R s') : Counterpart t u R k k'

theorem Counterpart.target {p p' : Span} {x : String} (h : t.Bears k p (.reference x))
    (h' : u.Bears k' p' (.reference x)) (hp : R p p') : Counterpart t u R k k' :=
  .expr (show (Expr.reference p x).StandsAt t k from h)
    (show (Expr.reference p' x).StandsAt u k' from h') (.reference x hp)

theorem Counterpart.body {p p' : Span} {ss ss' : List Stmt}
    (h : ∃ ks, Stmt.AllStandAt t ss ks ∧ t.Bears k p (.scope ks))
    (h' : ∃ ks, Stmt.AllStandAt u ss' ks ∧ u.Bears k' p' (.scope ks)) (hp : R p p')
    (hss : Stmt.AllAlike R ss ss') : Counterpart t u R k k' :=
  .stmt (show (Stmt.block p ss).StandsAt t k from h)
    (show (Stmt.block p' ss').StandsAt u k' from h') (.block hp hss)

def Corresponds (t u : Tree) (R : Span → Span → Prop) (k k' : NodeId) : Prop :=
  ∃ s s' f f', t.Bears k s f ∧ u.Bears k' s' f' ∧ R s s' ∧ f.Matches id (Counterpart t u R) f'

end Tree

open TeachLang.Tree

section

variable {t u : Tree} {R : Span → Span → Prop} {k k' : NodeId}

theorem Expr.Alike.corresponds {e e' : Expr} (he : e.Alike R e') (h : e.StandsAt t k)
    (h' : e'.StandsAt u k') : t.Corresponds u R k k' := by
  cases he with
  | literal v hs => exact ⟨_, _, _, _, h, h', hs, .literal v⟩
  | reference x hs => exact ⟨_, _, _, _, h, h', hs, .reference x⟩
  | unary op hs he =>
    obtain ⟨l, hl, hb⟩ := h
    obtain ⟨l', hl', hb'⟩ := h'
    exact ⟨_, _, _, _, hb, hb', hs, .unary op (.some (.expr hl hl' he))⟩
  | binary op hs ha hb =>
    obtain ⟨l, hl, m, hm, hbears⟩ := h
    obtain ⟨l', hl', m', hm', hbears'⟩ := h'
    have hleft := Counterpart.expr hl hl' ha
    have hright := Counterpart.expr hm hm' hb
    cases op with
    | arithmetic op =>
      exact ⟨_, _, _, _, hbears, hbears', hs, .arithmetic op (.some hleft) (.some hright)⟩
    | logic op => exact ⟨_, _, _, _, hbears, hbears', hs, .logic op (.some hleft) (.some hright)⟩

theorem Simple.Alike.corresponds {s s' : Simple} (hs : s.Alike R s') (h : s.StandsAt t k)
    (h' : s'.StandsAt u k') : t.Corresponds u R k k' := by
  cases hs with
  | assign x hspan hp he =>
    obtain ⟨l, hl, m, hm, hb⟩ := h
    obtain ⟨l', hl', m', hm', hb'⟩ := h'
    exact ⟨_, _, _, _, hb, hb', hspan, .assign (.some (.target hl hl' hp))
      (.some (.expr hm hm' he))⟩
  | input x hspan hp =>
    obtain ⟨l, hl, hb⟩ := h
    obtain ⟨l', hl', hb'⟩ := h'
    exact ⟨_, _, _, _, hb, hb', hspan, .input (.some (.target hl hl' hp))⟩
  | expr he => exact Expr.Alike.corresponds he h h'

/-- Where optional parts are alike, so are their nodes. -/
theorem optionRel_counterpart {α : Type} {stands : Tree → α → NodeId → Prop}
    {alike : α → α → Prop} (hnode : ∀ {a a' k k'}, stands t a k → stands u a' k' → alike a a' →
      Counterpart t u R k k') {o o' : Option α} {i i' : Option NodeId}
    (h : Option.Rel (stands t) o i) (h' : Option.Rel (stands u) o' i')
    (ho : Option.Rel alike o o') :
    Option.Rel (Counterpart t u R) i i' := by
  cases ho with
  | none =>
    cases h
    cases h'
    exact .none
  | some ha =>
    cases h with
    | some h =>
      cases h' with
      | some h' => exact .some (hnode h h' ha)

namespace Stmt

theorem AllAlike.counterparts {ss ss' : List Stmt} (hss : AllAlike R ss ss') :
    ∀ {ks ks' : List NodeId}, AllStandAt t ss ks → AllStandAt u ss' ks' →
      List.Forall₂ (Counterpart t u R) ks ks' := by
  induction ss generalizing ss' with
  | nil =>
    intro ks ks' h h'
    cases hss
    cases h
    cases h'
    exact .nil
  | cons s ss ih =>
    intro ks ks' h h'
    cases hss with
    | cons hs hss =>
      obtain ⟨k, hk, ks, hks, rfl⟩ := h
      obtain ⟨k', hk', ks', hks', rfl⟩ := h'
      exact .cons (.stmt hk hk' hs) (ih hss hks hks')

theorem Alike.corresponds {s s' : Stmt} (hs : s.Alike R s') (h : s.StandsAt t k)
    (h' : s'.StandsAt u k') : t.Corresponds u R k k' := by
  cases hs with
  | block hspan hss =>
    obtain ⟨ks, hks, hb⟩ := h
    obtain ⟨ks', hks', hb'⟩ := h'
    exact ⟨_, _, _, _, hb, hb', hspan, .scope (hss.counterparts hks hks')⟩
  | ifThen hspan hc ha =>
    obtain ⟨l, hl, m, hm, hb⟩ := h
    obtain ⟨l', hl', m', hm', hb'⟩ := h'
    exact ⟨_, _, _, _, hb, hb', hspan,
      .ifElse (.some (.expr hl hl' hc)) (.some (.stmt hm hm' ha)) .none⟩
  | ifElse hspan hc ha hbranch =>
    obtain ⟨l, hl, m, hm, n, hn, hb⟩ := h
    obtain ⟨l', hl', m', hm', n', hn', hb'⟩ := h'
    exact ⟨_, _, _, _, hb, hb', hspan, .ifElse (.some (.expr hl hl' hc)) (.some (.stmt hm hm' ha))
      (.some (.stmt hn hn' hbranch))⟩
  | whileLoop hspan hc hp hss =>
    obtain ⟨l, hl, m, hm, hb⟩ := h
    obtain ⟨l', hl', m', hm', hb'⟩ := h'
    exact ⟨_, _, _, _, hb, hb', hspan,
      .whileLoop (.some (.expr hl hl' hc)) (.some (.body hm hm' hp hss))⟩
  | forLoop hspan hi hc hu hp hss =>
    obtain ⟨i, hi₁, l, hl, j, hj, m, hm, hb⟩ := h
    obtain ⟨i', hi₁', l', hl', j', hj', m', hm', hb'⟩ := h'
    exact ⟨_, _, _, _, hb, hb', hspan, .forLoop (optionRel_counterpart .simple hi₁ hi₁' hi)
      (.some (.expr hl hl' hc)) (optionRel_counterpart .simple hj hj' hu)
      (.some (.body hm hm' hp hss))⟩
  | print hspan he =>
    obtain ⟨l, hl, hb⟩ := h
    obtain ⟨l', hl', hb'⟩ := h'
    exact ⟨_, _, _, _, hb, hb', hspan, .print (.some (.expr hl hl' he))⟩
  | declare x hspan hi =>
    obtain ⟨i, hi₁, hb⟩ := h
    obtain ⟨i', hi₁', hb'⟩ := h'
    exact ⟨_, _, _, _, hb, hb', hspan, .declaration x (optionRel_counterpart .expr hi₁ hi₁' hi)⟩
  | simple hspan ha =>
    obtain ⟨l, hl, hb⟩ := h
    obtain ⟨l', hl', hb'⟩ := h'
    exact ⟨_, _, _, _, hb, hb', hspan, .expression (.some (.simple hl hl' ha))⟩

end Stmt

namespace Tree

theorem Counterpart.corresponds (h : Counterpart t u R k k') : t.Corresponds u R k k' := by
  cases h with
  | expr h h' he => exact he.corresponds h h'
  | simple h h' hs => exact hs.corresponds h h'
  | stmt h h' hs => exact hs.corresponds h h'

/-- Where related nodes bear matching forms, those that have a parent on both sides or on none are
evaluated in step. -/
theorem simulates_of_forms {S : NodeId → NodeId → Prop} (ht : Forest t) (hu : Forest u)
    (hS : ∀ k k', S k k' → ∃ n n', t.get? k = some n ∧ u.get? k' = some n' ∧ R n.span n'.span ∧
      n.form.Matches id S n'.form) :
    t.Simulates u id R fun k k' => S k k' ∧ (u.parent? k').isNone = (t.parent? k).isNone where
  node := by
    rintro k k' ⟨h, hparent⟩
    obtain ⟨n, n', hn, hn', hspan, hform⟩ := hS k k' h
    rw [parent?, parent?, hn, hn', Option.bind_some, Option.bind_some] at hparent
    refine ⟨n, n', hn, hn', hspan, hparent, hform.imp fun l hl l' hl' h => ⟨h, ?_⟩⟩
    rw [hu.parent?_of_mem hn' hl', ht.parent?_of_mem hn hl]
    rfl

/-- Nodes that say the same part of a program, and have a parent on both sides or on none. -/
def Partner (t u : Tree) (R : Span → Span → Prop) (k k' : NodeId) : Prop :=
  Counterpart t u R k k' ∧ (u.parent? k').isNone = (t.parent? k).isNone

theorem simulates_partner (ht : Forest t) (hu : Forest u) :
    t.Simulates u id R (Partner t u R) := by
  apply simulates_of_forms ht hu
  intro k k' h
  obtain ⟨s, s', f, f', ⟨n, hn, rfl, rfl⟩, ⟨n', hn', rfl, rfl⟩, hspan, hform⟩ := h.corresponds
  exact ⟨n, n', hn, hn', hspan, hform⟩

end Tree

end

end TeachLang
