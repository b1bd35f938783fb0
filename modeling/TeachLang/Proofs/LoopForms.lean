import TeachLang.Proofs.Mimicry
import TeachLang.Proofs.ScopeNames

/-!
# Loops in two forms

A loop with an initial statement and a step does the same as the initial statement with a loop
behind it whose body is a scope with the old body in it and the step behind that. The step then runs
in an inner scope, which makes a difference only to a name that it would bind there; and the body
runs with an empty scope around it, which makes none.
-/

namespace TeachLang

open TeachLang.Tree Eval

variable {t u : Tree} {id k l : NodeId} {span place : Span} {m m' m₁ : Machine}
  {r r' : Except Error Unit}

/-! ### Names that are bound -/

def Machine.Bound (o : Option String) (m : Machine) : Prop :=
  ∀ x ∈ o, (m.scopes.get? x).isSome = true

theorem Scopes.isSome_get? (s : Scopes) (x : String) :
    (s.get? x).isSome = s.frames.any (·.has x) := by
  unfold get?
  induction s.frames with
  | nil => rfl
  | cons f fs ih =>
    rw [List.findSome?_cons, List.any_cons, ← ih, Frame.has]
    cases f.get? x <;> rfl

theorem Scopes.any_has_of_sameNames {fs gs : List Frame} (h : List.Forall₂ Frame.SameNames fs gs)
    (x : String) : fs.any (·.has x) = gs.any (·.has x) := by
  induction h with
  | nil => rfl
  | cons hf _ ih => rw [List.any_cons, List.any_cons, hf x, ih]

theorem Scopes.KeepsNames.isSome_get? {s s' : Scopes} (h : s.KeepsNames s') {x : String}
    (hx : (s.get? x).isSome = true) : (s'.get? x).isSome = true := by
  rw [Scopes.isSome_get?, frames, List.any_cons, Bool.or_eq_true] at hx ⊢
  rw [← any_has_of_sameNames h.outer]
  exact hx.imp_left (h.inner x)

/-- What is bound stays bound. -/
theorem Evaluates.bound {ks : List NodeId} {o : Option String}
    (h : Evaluates t (.sequence ks) m r m') (hm : m.Bound o) : m'.Bound o := by
  obtain ⟨least, hrun⟩ := h.reaches
  have hkeeps := maintained_names.forM (maintained_names.exec t least) ks m r m'
    (hrun least (Nat.le_refl least))
  exact fun x hx => hkeeps.isSome_get? (hm x hx)

def SameBound (o : Option String) (m m' : Machine) : Prop := m = m' ∧ m.Bound o

instance (o : Option String) : Std.Symm (SameBound o) where
  symm := by
    rintro m _ ⟨rfl, hbound⟩
    exact ⟨rfl, hbound⟩

namespace Tree.Mimicked

variable {M : Machine → Machine → Prop} {ks ks' : List NodeId} {task task' : Task}
  {o : Option String}

theorem bound (h : Mimicked M t (.sequence ks) u task') :
    Mimicked (fun m m' => M m m' ∧ m.Bound o) t (.sequence ks) u task' := by
  rintro m m' r m₁ ⟨hm, hbound⟩ heval
  obtain ⟨r', m₁', heval', hr, hm₁⟩ := h hm heval
  exact ⟨r', m₁', heval', hr, hm₁, heval.bound hbound⟩

theorem bound_right (h : Mimicked M t task u (.sequence ks)) :
    Mimicked (fun m m' => M m m' ∧ m'.Bound o) t task u (.sequence ks) := by
  rintro m m' r m₁ ⟨hm, hbound⟩ heval
  obtain ⟨r', m₁', heval', hr, hm₁⟩ := h hm heval
  exact ⟨r', m₁', heval', hr, hm₁, heval'.bound hbound⟩

/-- Tasks that do the same after nodes that do the same. -/
theorem after (h : Mimicked Eq t (.sequence ks) u (.sequence ks'))
    (h' : Mimicked (SameBound o) t task u task')
    (hbound : ∀ m₁, Evaluates t (.sequence ks) m (.ok ()) m₁ → m₁.Bound o)
    (heval : t.EvaluatesAfter ks task m r m') : ∃ r', u.EvaluatesAfter ks' task' m r' m' ∧
      Eval.Ends Error.Same Eq r r' := by
  rcases heval with ⟨e, hks, rfl⟩ | ⟨m₁, hks, hrest⟩
  · obtain ⟨r', _, hks', hr, rfl⟩ := h rfl hks
    cases hr with
    | error he => exact ⟨_, .inl ⟨_, hks', rfl⟩, .error he⟩
  · obtain ⟨r', _, hks', hr, rfl⟩ := h rfl hks
    obtain ⟨r'', _, hrest', hr', rfl, -⟩ := h' ⟨rfl, hbound m₁ hks⟩ hrest
    cases hr with
    | ok => exact ⟨r'', .inr ⟨m₁, hks', hrest'⟩, hr'⟩

end Tree.Mimicked

theorem Tree.Matched.bound {M : Machine → Machine → Prop} {ks ks' : List NodeId}
    (h : Matched M t (.sequence ks) u (.sequence ks')) (o : Option String) :
    Matched (fun m m' => M m m' ∧ m.Bound o) t (.sequence ks) u (.sequence ks') :=
  ⟨h.1.bound, h.2.bound_right⟩

/-! ### Simple statements in an inner scope -/

def Simple.target? : Simple → Option String
  | assign _ _ x _ | input _ _ x => some x
  | expr _ => none

def Machine.pushed (m : Machine) : Machine := { m with scopes := m.scopes.push }

/-- The node leaves the scopes as they are, and does the same in others where the names have the
same values. -/
def Tree.Rescopes (t : Tree) (k : NodeId) : Prop :=
  ∀ ⦃m r m₁ s⦄, (∀ x, s.get? x = m.scopes.get? x) → Evaluates t (.node k) m r m₁ →
    m₁.scopes = m.scopes ∧ Evaluates t (.node k) { m with scopes := s } r { m₁ with scopes := s }

namespace Tree

variable {m₂ : Machine} {s : Scopes}

/-- One node and then another one. -/
theorem Rescopes.pair (hk : t.Rescopes k) (hl : t.Rescopes l)
    (hs : ∀ x, s.get? x = m.scopes.get? x) (h : Evaluates t (.node k) m r m₁)
    (h' : Evaluates t (.node l) m₁ r' m₂) :
    m₂.scopes = m.scopes ∧
      Evaluates t (.node k) { m with scopes := s } r { m₁ with scopes := s } ∧
      Evaluates t (.node l) { m₁ with scopes := s } r' { m₂ with scopes := s } := by
  obtain ⟨hm₁, hk⟩ := hk hs h
  obtain ⟨hm₂, hl⟩ := hl (fun x => by rw [hs, hm₁]) h'
  exact ⟨hm₂.trans hm₁, hk, hl⟩

theorem rescopes_reference {x : String} (hb : t.Bears id span (.reference x)) :
    t.Rescopes id := by
  intro m r m₁ s hs heval
  cases heval with
  | reference hb' hx =>
    cases (hb.unique hb').2
    exact ⟨rfl, .reference hb ((hs x).trans hx)⟩
  | undefined hb' hx =>
    cases (hb.unique hb').2
    exact ⟨rfl, .undefined hb' ((hs x).trans hx)⟩
  | _ => cases (hb.unique ‹t.Bears id _ _›).2

theorem rescopes_unary {op : UnaryOperator} (hb : t.Bears id span (.unary op (some k)))
    (hk : t.Rescopes k) : t.Rescopes id := by
  intro m r m₁ s hs heval
  cases heval with
  | unaryError hb' h =>
    cases (hb.unique hb').2
    exact (hk hs h).imp_right (.unaryError hb)
  | unary hb' h =>
    cases (hb.unique hb').2
    exact (hk hs h).imp_right (.unary hb)
  | _ => cases (hb.unique ‹t.Bears id _ _›).2

theorem rescopes_arithmetic {op : ArithmeticOperator}
    (hb : t.Bears id span (.arithmetic op (some k) (some l))) (hk : t.Rescopes k)
    (hl : t.Rescopes l) : t.Rescopes id := by
  intro m r m₁ s hs heval
  cases heval with
  | arithmeticLeftError hb' h =>
    cases (hb.unique hb').2
    exact (hk hs h).imp_right (.arithmeticLeftError hb)
  | arithmeticRightError hb' h h' =>
    cases (hb.unique hb').2
    exact (hk.pair hl hs h h').imp_right fun ⟨h, h'⟩ => .arithmeticRightError hb h h'
  | divisionByZero hb' h h' hv =>
    cases (hb.unique hb').2
    exact (hk.pair hl hs h h').imp_right fun ⟨h, h'⟩ => .divisionByZero hb' h h' hv
  | arithmetic hb' h h' hv =>
    cases (hb.unique hb').2
    exact (hk.pair hl hs h h').imp_right fun ⟨h, h'⟩ => .arithmetic hb h h' hv
  | arithmeticMissing hb' hmissing =>
    cases (hb.unique hb').2
    rcases hmissing with hmissing | hmissing <;> cases hmissing
  | _ => cases (hb.unique ‹t.Bears id _ _›).2

theorem rescopes_logic {op : LogicOperator}
    (hb : t.Bears id span (.logic op (some k) (some l))) (hk : t.Rescopes k)
    (hl : t.Rescopes l) : t.Rescopes id := by
  intro m r m₁ s hs heval
  cases heval with
  | logicLeftError hb' h =>
    cases (hb.unique hb').2
    exact (hk hs h).imp_right (.logicLeftError hb)
  | andFalse hb' h hv =>
    cases (hb.unique hb').2
    obtain ⟨hm₁, h⟩ := hk hs h
    exact ⟨hm₁, .andFalse hb h hv⟩
  | orTrue hb' h hv =>
    cases (hb.unique hb').2
    obtain ⟨hm₁, h⟩ := hk hs h
    exact ⟨hm₁, .orTrue hb h hv⟩
  | logicRightError hb' h hneeds h' =>
    cases (hb.unique hb').2
    exact (hk.pair hl hs h h').imp_right fun ⟨h, h'⟩ => .logicRightError hb h hneeds h'
  | logic hb' h hneeds h' =>
    cases (hb.unique hb').2
    exact (hk.pair hl hs h h').imp_right fun ⟨h, h'⟩ => .logic hb h hneeds h'
  | _ => cases (hb.unique ‹t.Bears id _ _›).2

end Tree

theorem Expr.StandsAt.rescopes {e : Expr} (h : e.StandsAt t k) : t.Rescopes k := by
  induction e generalizing k with
  | literal span v =>
    intro m r m₁ s hs heval
    have hrun := Evaluates.literal (m := m) (show t.Bears k span (.literal v) from h)
    obtain ⟨rfl, rfl⟩ := heval.unique hrun
    exact ⟨rfl, .literal h⟩
  | reference span x => exact rescopes_reference h
  | unary span op a ih =>
    obtain ⟨l, ha, hb⟩ := h
    exact rescopes_unary hb (ih ha)
  | binary span op a b iha ihb =>
    obtain ⟨l, ha, l', hb, h⟩ := h
    cases op with
    | arithmetic op => exact rescopes_arithmetic h (iha ha) (ihb hb)
    | logic op => exact rescopes_logic h (iha ha) (ihb hb)

theorem Scopes.push_assign {s : Scopes} {x : String} (hx : (s.get? x).isSome = true) (v : Int64) :
    s.push.assign x v = (s.assign x v).push := by
  apply eq_of_frames_eq
  rw [frames_assign, push, frames, update?]
  rcases exists_first_frame x s.frames with h | ⟨before, f, rest, hs, hbefore, hf⟩
  · rw [isSome_get?, List.any_eq_true] at hx
    obtain ⟨f, hf, hx⟩ := hx
    cases (h f hf).symm.trans hx
  · have hupdate : update? x v s.frames = some (before ++ f.set x v :: rest) := by
      rw [hs, update?_eq_some hbefore hf]
    change ((update? x v s.frames).map ([] :: ·)).getD _ = [] :: (s.assign x v).frames
    rw [frames_assign, hupdate]
    rfl

namespace Simple

variable {b : Simple}

/-- A simple statement changes the scopes by an assignment at most, and it does the same where the
names have the same values. -/
theorem StandsAt.rescoped (h : b.StandsAt t k) {s : Scopes}
    (hs : ∀ x, s.get? x = m.scopes.get? x) (heval : Evaluates t (.node k) m r m₁) :
    (m₁.scopes = m.scopes ∧
      Evaluates t (.node k) { m with scopes := s } r { m₁ with scopes := s }) ∨
    ∃ x ∈ b.target?, ∃ v, m₁.scopes = m.scopes.assign x v ∧
      Evaluates t (.node k) { m with scopes := s } r { m₁ with scopes := s.assign x v } := by
  cases b with
  | expr e => exact .inl (Expr.StandsAt.rescopes h hs heval)
  | assign span nameSpan x e =>
    obtain ⟨l, hl, l', he, hb⟩ := h
    rcases (evaluates_assign_iff hb hl).1 heval with ⟨e, hvalue, rfl⟩ | ⟨m₂, hvalue, rfl, rfl⟩
    · obtain ⟨hscopes, hvalue'⟩ := he.rescopes hs hvalue
      exact .inl ⟨hscopes, .assignError hb hl hvalue'⟩
    · obtain ⟨hscopes, hvalue'⟩ := he.rescopes hs hvalue
      refine .inr ⟨x, rfl, m₂.register, by rw [← hscopes], ?_⟩
      exact (evaluates_assign_iff hb hl).2 (.inr ⟨{ m₂ with scopes := s }, hvalue', rfl, rfl⟩)
  | input span nameSpan x =>
    obtain ⟨l, hl, hb⟩ := h
    cases heval with
    | inputError hb' hl' hread =>
      cases (hb.unique hb').2
      exact .inl ⟨rfl, .inputError hb' hl' hread⟩
    | inputFormat hb' hl' hread =>
      cases (hb.unique hb').2
      exact .inl ⟨rfl, .inputFormat hb' hl' hread⟩
    | input hb' hl' hread hassigns =>
      cases (hb.unique hb').2
      cases (hl.unique hl').2
      refine .inr ⟨x, rfl, _, Scopes.assigns_iff.1 hassigns, ?_⟩
      exact .input hb hl hread (Scopes.assigns_iff.2 rfl)
    | inputTargetInvalid hb' hf hkind =>
      cases (hb.unique hb').2
      cases (hl.unique hf).2
      exact absurd rfl hkind
    | _ => cases (hb.unique ‹t.Bears k _ _›).2

end Simple

def Pushed (o : Option String) (m m' : Machine) : Prop := m' = m.pushed ∧ m.Bound o

namespace Simple

variable {b : Simple}

theorem StandsAt.matched_pushed (h : b.StandsAt t k) :
    Matched (Pushed b.target?) t (.sequence [k]) t (.sequence [k]) := by
  constructor
  · rintro m _ r m₁ ⟨rfl, hbound⟩ heval
    have hbound₁ := heval.bound hbound
    rcases h.rescoped (s := m.scopes.push) (fun _ => rfl) (evaluates_singleton_iff.1 heval) with
      ⟨hscopes, heval'⟩ | ⟨x, hx, v, hscopes, heval'⟩
    · refine ⟨r, _, evaluates_singleton_iff.2 heval', ends_same r, ?_, hbound₁⟩
      rw [← hscopes]
      rfl
    · refine ⟨r, _, evaluates_singleton_iff.2 heval', ends_same r, ?_, hbound₁⟩
      rw [Scopes.push_assign (hbound x hx), ← hscopes]
      rfl
  · rintro m' m r m₁' ⟨rfl, hbound⟩ heval
    have heval : Evaluates t (.node k) m.pushed r m₁' := evaluates_singleton_iff.1 heval
    rcases h.rescoped (m := m.pushed) (s := m.scopes) (fun _ => rfl) heval with
      ⟨hscopes, heval'⟩ | ⟨x, hx, v, hscopes, heval'⟩
    · have heval' := evaluates_singleton_iff.2 heval'
      refine ⟨r, _, heval', ends_same r, ?_, heval'.bound hbound⟩
      change m₁' = { m₁' with scopes := m.scopes.push }
      rw [show m.scopes.push = m₁'.scopes from hscopes.symm]
    · have heval' := evaluates_singleton_iff.2 heval'
      refine ⟨r, _, heval', ends_same r, ?_, heval'.bound hbound⟩
      change m₁' = { m₁' with scopes := (m.scopes.assign x v).push }
      rw [← Scopes.push_assign (hbound x hx), show m.scopes.push.assign x v = m₁'.scopes from
        hscopes.symm]

end Simple

/-! ### Loops -/

theorem Eval.Padded.pushed {s s' : Scopes} (h : Padded 0 m m') (hpop : m.scopes.pop = .ok s)
    (hpop' : m'.scopes.pop = .ok s') :
    { m' with scopes := s' } = Machine.pushed { m with scopes := s } := by
  obtain ⟨-, rfl⟩ := h
  obtain ⟨⟨inner, _ | ⟨f, fs⟩⟩, register, reader, sink⟩ := m
  · cases hpop
  · cases hpop
    cases hpop'
    rfl

namespace Tree

theorem matched_expression (hb : t.Bears l span (.expression (some k))) :
    Matched Eq t (.sequence [k]) t (.sequence [l]) := by
  refine matched_of_iff fun m r m' => ?_
  rw [evaluates_singleton_iff, evaluates_singleton_iff, evaluates_expression_iff hb]

/-- Statements in a scope of their own do the same as without it in a new scope. -/
theorem matched_scope {ks ls : List NodeId} {o : Option String} (hb : u.Bears l span (.scope ls))
    (hparent : u.parent? l ≠ none)
    (h : Matched (Pushed o) t (.sequence ks) u (.sequence ls)) :
    Matched (SameBound o) t (.sequence ks) u (.sequence [l]) := by
  constructor
  · rintro m _ r m₁ ⟨rfl, hbound⟩ heval
    obtain ⟨r', _, heval', hr, rfl, hbound₁⟩ := h.1 ⟨rfl, hbound⟩ heval
    have hscope := (evaluates_scope_iff hb hparent).2 ⟨_, _, heval', Scopes.pop_push _, rfl⟩
    exact ⟨r', m₁, evaluates_singleton_iff.2 hscope, hr, rfl, hbound₁⟩
  · rintro m _ r m₁ ⟨rfl, hbound⟩ heval
    obtain ⟨m₂, s, hls, hpop, rfl⟩ :=
      (evaluates_scope_iff hb hparent).1 (evaluates_singleton_iff.1 heval)
    obtain ⟨r', m₁', heval', hr, rfl, hbound₁⟩ := h.2 ⟨rfl, hbound⟩ hls
    cases hpop
    exact ⟨r', m₁', heval', hr, rfl, hbound₁⟩

section

variable {f : Form} {i : Option NodeId} {ks ks' ls : List NodeId} {a a' : Option Simple}
  {l' : NodeId} {place' : Span} (hf : Forest t) (hu : Forest u)
include hf hu

/-- A simple statement does the same within a loop as on its own. -/
theorem matched_simple (ha : Option.Rel (Simple.Alike Span.Any) a a') (hb : t.Bears id place f)
    (hi : ∀ k ∈ i, k ∈ f.children) (h : Option.Rel (·.StandsAt t ·) a i)
    (h' : Stmt.AllStandAt u (a'.toList.map (Stmt.simple span)) ls) :
    Matched Eq t (.sequence i.toList) u (.sequence ls) := by
  cases ha with
  | none =>
    cases h
    cases h'
    exact ⟨.nil, .nil⟩
  | some ha =>
    cases h with
    | some h =>
      obtain ⟨l, ⟨k', hk', hb'⟩, _, rfl, rfl⟩ := h'
      have hmatched := (matched_of_children hf hu hb hb' (by simpa using hi)
        (by simp [Form.children, Form.roles]) (.cons (.simple h hk' ha) .nil)).1
      exact hmatched.comp_eq (matched_expression hb')

/-- A body does the same in an inner scope, where it has an empty scope around it. -/
theorem matched_body (hb : t.Bears l place (.scope ks)) (hparent : t.parent? l ≠ none)
    (hb' : u.Bears l' place' (.scope ks')) (hparent' : u.parent? l' ≠ none)
    (h : List.Forall₂ (Counterpart t u Span.Any) ks ks') (o : Option String) :
    Matched (Pushed o) t (.sequence [l]) u (.sequence [l']) := by
  have hpadded := (matched_of_children hf hu hb hb' (by simp [Form.children, Form.roles])
    (by simp [Form.children, Form.roles]) h).2
  have hpushed : Matched (fun m m' => m' = m.pushed) t (.sequence [l]) u (.sequence [l']) := by
    constructor
    · refine .singleton (.scope hb hparent hb' hparent' ?_ ?_ hpadded.1)
      · rintro m _ rfl
        exact ⟨Nat.zero_le _, rfl⟩
      · exact fun _ _ _ _ hm hpop hpop' => hm.pushed hpop hpop'
    · refine .singleton (.scope hb' hparent' hb hparent ?_ ?_ hpadded.2)
      · rintro _ m rfl
        exact ⟨Nat.zero_le _, rfl⟩
      · exact fun _ _ _ _ hm hpop hpop' => hm.pushed hpop' hpop
  exact hpushed.bound o

/-- The rounds of the two loops. In the second one the body and the step stand in a scope, and the
body in one more. -/
theorem matched_rounds {id' k' : NodeId} {i s : Option NodeId} {b b' : Option Simple}
    {c c' : Expr} {ss ss' : List Stmt} {span' p q : Span}
    (hb : t.Bears id span (.forLoop i (some k) s (some l))) (hc : c.StandsAt t k)
    (hs : Option.Rel (·.StandsAt t ·) b s) (hks : Stmt.AllStandAt t ss ks)
    (hl : t.Bears l place (.scope ks))
    (hb' : u.Bears id' span' (.whileLoop (some k') (some l'))) (hc' : c'.StandsAt u k')
    (hls : Stmt.AllStandAt u (.block p ss' :: b'.toList.map (.simple q)) ls)
    (hl' : u.Bears l' place' (.scope ls)) (hac : c.Alike Span.Any c')
    (hab : Option.Rel (Simple.Alike Span.Any) b b') (hass : Stmt.AllAlike Span.Any ss ss') :
    Matched (SameBound (b.bind Simple.target?)) t (.rounds k l s) u (.rounds k' l' none) := by
  have hcondition : Matched Eq t (.sequence [k]) u (.sequence [k']) :=
    (matched_of_children hf hu hb hb' (by simp [Form.children, Form.roles])
      (by simp [Form.children, Form.roles]) (.cons (.expr hc hc' hac) .nil)).1
  have hcondition := hcondition.bound (b.bind Simple.target?)
  have hparent : t.parent? l ≠ none :=
    hf.parent?_ne_none hb (by simp [Form.children, Form.roles])
  have hparent' : u.parent? l' ≠ none :=
    hu.parent?_ne_none hb' (by simp [Form.children, Form.roles])
  obtain ⟨blk, ⟨ks', hks', hblk⟩, js, hjs, rfl⟩ := hls
  have hinner : u.parent? blk ≠ none :=
    hu.parent?_ne_none hl' (by simp [Form.children, Form.roles])
  have hbody := matched_body hf hu hl hparent hblk hinner (hass.counterparts hks hks')
    (b.bind Simple.target?)
  have hchild : ∀ j ∈ s, j ∈ (Form.forLoop i (some k) s (some l)).children := by
    rintro j rfl
    simp [Form.children, Form.roles]
  have hstep := matched_simple hf hu hab hb hchild hs hjs
  have hpushed : Matched (Pushed (b.bind Simple.target?)) t (.sequence s.toList) t
      (.sequence s.toList) := by
    cases hs with
    | none => exact ⟨.nil, .nil⟩
    | some hs => exact hs.matched_pushed
  have hround := matched_scope hl' hparent' (hbody.cons (hpushed.comp_eq hstep))
  constructor
  · refine .rounds ?_ hcondition.1.of_singleton hround.1
    rintro m _ ⟨rfl, -⟩
    rfl
  · refine .rounds ?_ hcondition.2.of_singleton hround.2
    rintro _ m ⟨rfl, -⟩
    rfl

/-- A loop with an initial statement and a step does the same as the statement before a loop whose
body ends with the step. -/
theorem matched_loops {p₁ p₂ p₃ p₄ p₅ p₆ p₇ : Span} {b b' : Option Simple} {c c' : Expr}
    {ss ss' : List Stmt} (h : (Stmt.forLoop p₁ a c b p₂ ss).StandsAt t k)
    (h' : Stmt.AllStandAt u (a'.toList.map (.simple p₃)) ks)
    (hl : (Stmt.whileLoop p₄ c' p₅ (.block p₆ ss' :: b'.toList.map (.simple p₇))).StandsAt u l)
    (haa : Option.Rel (Simple.Alike Span.Any) a a') (hac : c.Alike Span.Any c')
    (hab : Option.Rel (Simple.Alike Span.Any) b b') (hass : Stmt.AllAlike Span.Any ss ss')
    (hbound : ∀ m₁, Evaluates u (.sequence ks) m (.ok ()) m₁ → m₁.Bound (b.bind Simple.target?)) :
    (∀ r m', Evaluates t (.sequence [k]) m r m' →
      ∃ r', Evaluates u (.sequence (ks ++ [l])) m r' m' ∧ Eval.Ends Error.Same Eq r r') ∧
    ∀ r m', Evaluates u (.sequence (ks ++ [l])) m r m' →
      ∃ r', Evaluates t (.sequence [k]) m r' m' ∧ Eval.Ends Error.Same Eq r r' := by
  obtain ⟨i, hi, kc, hkc, s, hs, body, ⟨ids, hids, hbody⟩, hb⟩ := h
  obtain ⟨kc', hkc', body', ⟨ids', hids', hbody'⟩, hb'⟩ := hl
  have hchild : ∀ j ∈ i, j ∈ (Form.forLoop i (some kc) s (some body)).children := by
    rintro j rfl
    simp [Form.children, Form.roles]
  have hinit := matched_simple hf hu haa hb hchild hi h'
  have hrounds := matched_rounds hf hu hb hkc hs hids hbody hb' hkc' hids' hbody' hac hab hass
  obtain ⟨_, _, hcond, hkind⟩ := hkc.exists_evaluable
  obtain ⟨_, _, hcond', hkind'⟩ := hkc'.exists_evaluable
  have hloop : Matched Eq u (.rounds kc' body' none) u (.sequence [l]) := by
    refine matched_of_iff fun m r m' => ?_
    rw [evaluates_singleton_iff, evaluates_whileLoop_iff hb' hcond' hkind' hbody' rfl]
  have hrounds := hrounds.comp_eq hloop
  have hfor : ∀ r m', Evaluates t (.sequence [k]) m r m' ↔
      t.EvaluatesAfter i.toList (.rounds kc body s) m r m' := by
    intro r m'
    rw [evaluates_singleton_iff, evaluates_forLoop_iff hb hcond hkind hbody rfl]
  constructor
  · intro r m' heval
    have hafter := (hfor r m').1 heval
    have hbound' : ∀ m₁, Evaluates t (.sequence i.toList) m (.ok ()) m₁ →
        m₁.Bound (b.bind Simple.target?) := by
      intro m₁ heval
      obtain ⟨r', _, heval', hr, rfl⟩ := hinit.1 rfl heval
      cases hr
      exact hbound m₁ heval'
    obtain ⟨r', heval', hr⟩ := hinit.1.after hrounds.1 hbound' hafter
    exact ⟨r', evaluates_append_iff.2 heval', hr⟩
  · intro r m' heval
    obtain ⟨r', heval', hr⟩ :=
      hinit.symm.1.after hrounds.symm.1 hbound (evaluates_append_iff.1 heval)
    exact ⟨r', (hfor r' m').2 heval', hr⟩

end

end Tree

end TeachLang
