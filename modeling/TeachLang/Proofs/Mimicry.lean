import TeachLang.Proofs.EmptyScopes

/-!
# Tasks that do the same

A task does the same as another one, perhaps of another tree, if it ends wherever that one ends, in
the same way but for places, and leaves a machine that is related to the one that is left there, as
the machines were at the beginning. This passes from the parts of a task to the whole.
-/

namespace TeachLang

open TeachLang.Tree Eval

variable {t u : Tree} {id k l : NodeId} {span place : Span} {m m' m₁ : Machine}
  {r r' : Except Error Unit}

/-! ### Nodes taken apart -/

theorem Tree.Forest.parent?_ne_none {f : Form} (hf : Forest t) (hb : t.Bears id span f)
    (hk : k ∈ f.children) : t.parent? k ≠ none := by
  obtain ⟨n, hn, rfl, -⟩ := hb
  rw [hf.parent?_of_mem hn hk]
  exact Option.some_ne_none id

theorem Expr.StandsAt.exists_evaluable {e : Expr} (h : e.StandsAt t k) :
    ∃ place f, t.Bears k place f ∧ f.kind.evaluable = true := by
  cases e with
  | literal | reference => exact ⟨_, _, h, rfl⟩
  | unary =>
    obtain ⟨_, _, hb⟩ := h
    exact ⟨_, _, hb, rfl⟩
  | binary span op =>
    obtain ⟨_, _, _, _, hb⟩ := h
    cases op <;> exact ⟨_, _, hb, rfl⟩

theorem evaluates_singleton_iff :
    Evaluates t (.sequence [k]) m r m' ↔ Evaluates t (.node k) m r m' := by
  constructor
  · intro h
    cases h with
    | consError hk => exact hk
    | cons hk hs =>
      cases hs
      exact hk
  · intro h
    cases r with
    | error e => exact .consError h
    | ok v => exact .cons h .nil

namespace Tree

/-! What a node does, by its form. -/

theorem evaluates_expression_iff (hb : t.Bears id span (.expression (some k))) :
    Evaluates t (.node id) m r m' ↔ Evaluates t (.node k) m r m' := by
  constructor
  · intro h
    cases h with
    | expression hb' hk =>
      cases (hb.unique hb').2
      exact hk
    | _ => cases (hb.unique ‹t.Bears id _ _›).2
  · exact .expression hb

theorem evaluates_scope_iff {ids : List NodeId} (hb : t.Bears id span (.scope ids))
    (hparent : t.parent? id ≠ none) :
    Evaluates t (.node id) m r m' ↔ ∃ m₁ s, Evaluates t (.sequence ids)
      { m with scopes := m.scopes.push } r m₁ ∧ m₁.scopes.pop = .ok s ∧
        m' = { m₁ with scopes := s } := by
  obtain ⟨p, hp⟩ := Option.ne_none_iff_exists'.1 hparent
  constructor
  · intro h
    cases h with
    | innerScope hb' _ hs hpop =>
      cases (hb.unique hb').2
      exact ⟨_, _, hs, hpop, rfl⟩
    | scope _ hnone => exact absurd hnone hparent
    | _ => cases (hb.unique ‹t.Bears id _ _›).2
  · rintro ⟨m₁, s, hs, hpop, rfl⟩
    exact .innerScope hb hp hs hpop

theorem evaluates_assign_iff {x : String} (hb : t.Bears id span (.assign (some k) (some l)))
    (hk : t.Bears k place (.reference x)) :
    Evaluates t (.node id) m r m' ↔
      (∃ e, Evaluates t (.node l) m (.error e) m' ∧ r = .error e) ∨
      ∃ m₁, Evaluates t (.node l) m (.ok ()) m₁ ∧ r = .ok () ∧
        m' = { m₁ with scopes := m₁.scopes.assign x m₁.register } := by
  constructor
  · intro h
    cases h with
    | assignError hb' _ hl =>
      cases (hb.unique hb').2
      exact .inl ⟨_, hl, rfl⟩
    | assign hb' hk' hl hs =>
      cases (hb.unique hb').2
      cases (hk.unique hk').2
      exact .inr ⟨_, hl, rfl, by rw [Scopes.assigns_iff.1 hs]⟩
    | assignTargetInvalid hb' hf hkind =>
      cases (hb.unique hb').2
      cases (hk.unique hf).2
      exact absurd rfl hkind
    | _ => cases (hb.unique ‹t.Bears id _ _›).2
  · rintro (⟨e, hl, rfl⟩ | ⟨m₁, hl, rfl, rfl⟩)
    · exact .assignError hb hk hl
    · exact .assign hb hk hl (Scopes.assigns_iff.2 rfl)

theorem evaluates_whileLoop_iff {f g : Form} {place' : Span}
    (hb : t.Bears id span (.whileLoop (some k) (some l))) (hk : t.Bears k place f)
    (hkind : f.kind.evaluable = true) (hl : t.Bears l place' g) (hkind' : g.kind = .scope) :
    Evaluates t (.node id) m r m' ↔ Evaluates t (.rounds k l none) m r m' := by
  constructor
  · intro h
    cases h with
    | whileLoop hb' _ _ _ _ hr =>
      cases (hb.unique hb').2
      exact hr
    | whileConditionInvalid hb' hf' hkind' =>
      cases (hb.unique hb').2
      cases (hk.unique hf').2
      cases hkind.symm.trans hkind'
    | whileBodyInvalid hb' _ _ hg' hkind'' =>
      cases (hb.unique hb').2
      cases (hl.unique hg').2
      exact absurd hkind' hkind''
    | _ => cases (hb.unique ‹t.Bears id _ _›).2
  · exact .whileLoop hb hk hkind hl hkind'

def EvaluatesAfter (t : Tree) (ks : List NodeId) (task : Task) (m : Machine) (r : Except Error Unit)
    (m' : Machine) : Prop :=
  (∃ e, Evaluates t (.sequence ks) m (.error e) m' ∧ r = .error e) ∨
  ∃ m₁, Evaluates t (.sequence ks) m (.ok ()) m₁ ∧ Evaluates t task m₁ r m'

theorem evaluates_forLoop_iff {i s : Option NodeId} {f g : Form} {place' : Span}
    (hb : t.Bears id span (.forLoop i (some k) s (some l))) (hk : t.Bears k place f)
    (hkind : f.kind.evaluable = true) (hl : t.Bears l place' g) (hkind' : g.kind = .scope) :
    Evaluates t (.node id) m r m' ↔ t.EvaluatesAfter i.toList (.rounds k l s) m r m' := by
  constructor
  · intro h
    cases h with
    | forInitError hb' _ _ _ _ hi =>
      cases (hb.unique hb').2
      exact .inl ⟨_, hi, rfl⟩
    | forLoop hb' _ _ _ _ hi hr =>
      cases (hb.unique hb').2
      exact .inr ⟨_, hi, hr⟩
    | forConditionInvalid hb' hf' hkind' =>
      cases (hb.unique hb').2
      cases (hk.unique hf').2
      cases hkind.symm.trans hkind'
    | forBodyInvalid hb' _ _ hg' hkind'' =>
      cases (hb.unique hb').2
      cases (hl.unique hg').2
      exact absurd hkind' hkind''
    | _ => cases (hb.unique ‹t.Bears id _ _›).2
  · rintro (⟨e, hi, rfl⟩ | ⟨m₁, hi, hr⟩)
    · exact .forInitError hb hk hkind hl hkind' hi
    · exact .forLoop hb hk hkind hl hkind' hi hr

theorem evaluates_append_iff {ks ls : List NodeId} :
    Evaluates t (.sequence (ks ++ ls)) m r m' ↔ t.EvaluatesAfter ks (.sequence ls) m r m' := by
  induction ks generalizing m with
  | nil =>
    constructor
    · exact fun h => .inr ⟨m, .nil, h⟩
    · rintro (⟨e, h, _⟩ | ⟨m₁, h, hls⟩)
      · cases h
      · cases h
        exact hls
  | cons k ks ih =>
    constructor
    · intro h
      cases h with
      | consError hk => exact .inl ⟨_, .consError hk, rfl⟩
      | cons hk hs =>
        rcases ih.1 hs with ⟨e, hks, rfl⟩ | ⟨m₂, hks, hls⟩
        · exact .inl ⟨e, .cons hk hks, rfl⟩
        · exact .inr ⟨m₂, .cons hk hks, hls⟩
    · rintro (⟨e, h, rfl⟩ | ⟨m₁, h, hls⟩)
      · cases h with
        | consError hk => exact .consError hk
        | cons hk hks => exact .cons hk (ih.2 (.inl ⟨e, hks, rfl⟩))
      · cases h with
        | cons hk hks => exact .cons hk (ih.2 (.inr ⟨m₁, hks, hls⟩))

/-! ### Tasks that do the same -/

theorem ends_same (r : Except Error Unit) : Eval.Ends Error.Same Eq r r := by
  cases r with
  | ok v => exact .ok rfl
  | error e => exact .error rfl

/-- Whenever the first task ends, on a machine that is related to another one, the second task ends
in the same way on that one, but for places, and leaves a machine that is related to what the first
one leaves. -/
def Mimicked (M : Machine → Machine → Prop) (t : Tree) (task : Task) (u : Tree) (task' : Task) :
    Prop :=
  ∀ ⦃m m' r m₁⦄, M m m' → Evaluates t task m r m₁ →
    ∃ r' m₁', Evaluates u task' m' r' m₁' ∧ Eval.Ends Error.Same Eq r r' ∧ M m₁ m₁'

namespace Mimicked

variable {M N : Machine → Machine → Prop} {w : Tree} {k' l' : NodeId} {ks ks' : List NodeId}
  {task task' task'' : Task} {s s' : Option NodeId}

theorem comp (h : Mimicked M t task u task') (h' : Mimicked N u task' w task'') :
    Mimicked (Relation.Comp M N) t task w task'' := by
  rintro m m' r m₁ ⟨m₂, hm, hm'⟩ heval
  obtain ⟨r', m₃, heval', hr, hm₁⟩ := h hm heval
  obtain ⟨r'', m₁', heval'', hr', hm₁'⟩ := h' hm' heval'
  refine ⟨r'', m₁', heval'', ?_, m₃, hm₁, hm₁'⟩
  cases hr with
  | ok h =>
    cases h
    exact hr'
  | error he =>
    cases hr' with
    | error he' => exact .error (Eq.trans he he')

theorem nil : Mimicked M t (.sequence []) u (.sequence []) := by
  intro m m' r m₁ hm heval
  cases heval
  exact ⟨_, m', .nil, .ok rfl, hm⟩

theorem cons (hk : Mimicked M t (.node k) u (.node k'))
    (hks : Mimicked M t (.sequence ks) u (.sequence ks')) :
    Mimicked M t (.sequence (k :: ks)) u (.sequence (k' :: ks')) := by
  intro m m' r m₁ hm heval
  cases heval with
  | consError heval =>
    obtain ⟨r', m₁', heval', hr, hm₁⟩ := hk hm heval
    cases hr with
    | error he => exact ⟨_, m₁', .consError heval', .error he, hm₁⟩
  | cons heval hrest =>
    obtain ⟨r', m₂', heval', hr, hm₂⟩ := hk hm heval
    cases hr with
    | ok =>
      obtain ⟨r', m₁', hrest', hr, hm₁⟩ := hks hm₂ hrest
      exact ⟨r', m₁', .cons heval' hrest', hr, hm₁⟩

theorem singleton (h : Mimicked M t (.node k) u (.node k')) :
    Mimicked M t (.sequence [k]) u (.sequence [k']) :=
  h.cons .nil

theorem of_singleton (h : Mimicked M t (.sequence [k]) u (.sequence [k'])) :
    Mimicked M t (.node k) u (.node k') := by
  intro m m' r m₁ hm heval
  obtain ⟨r', m₁', heval', hr, hm₁⟩ := h hm (evaluates_singleton_iff.2 heval)
  exact ⟨r', m₁', evaluates_singleton_iff.1 heval', hr, hm₁⟩

/-- Loops do the same if their conditions and rounds do. -/
theorem rounds (hM : ∀ ⦃m m'⦄, M m m' → m'.register = m.register)
    (hk : Mimicked M t (.node k) u (.node k'))
    (hl : Mimicked M t (.sequence (l :: s.toList)) u (.sequence (l' :: s'.toList))) :
    Mimicked M t (.rounds k l s) u (.rounds k' l' s') := by
  intro m m' r m₁ hm heval
  -- On the derivation: what a round leaves is related, so that the others go on from there.
  generalize htask : Task.rounds k l s = task at heval
  induction heval generalizing m' with
  | roundsConditionError heval =>
    cases htask
    obtain ⟨r', m₁', heval', hr, hm₁⟩ := hk hm heval
    cases hr with
    | error he => exact ⟨_, m₁', .roundsConditionError heval', .error he, hm₁⟩
  | roundsEnd heval hv =>
    cases htask
    obtain ⟨r', m₁', heval', hr, hm₁⟩ := hk hm heval
    cases hr with
    | ok => exact ⟨_, m₁', .roundsEnd heval' ((hM hm₁).trans hv), .ok rfl, hm₁⟩
  | roundsError heval hv hround =>
    cases htask
    obtain ⟨r', m₁', heval', hr, hm₁⟩ := hk hm heval
    cases hr with
    | ok =>
      obtain ⟨r', m₂', hround', hr, hm₂⟩ := hl hm₁ hround
      cases hr with
      | error he =>
        refine ⟨_, m₂', .roundsError heval' ?_ hround', .error he, hm₂⟩
        rwa [hM hm₁]
  | roundsAgain heval hv hround _ _ _ ih =>
    cases htask
    obtain ⟨r', m₁', heval', hr, hm₁⟩ := hk hm heval
    cases hr with
    | ok =>
      obtain ⟨r', m₂', hround', hr, hm₂⟩ := hl hm₁ hround
      cases hr with
      | ok =>
        obtain ⟨r', m₃', hrest, hr, hm₃⟩ := ih hm₂ rfl
        refine ⟨r', m₃', .roundsAgain heval' ?_ hround' hrest, hr, hm₃⟩
        rwa [hM hm₁]
  | _ => cases htask

/-- Scopes do the same if their statements do. -/
theorem scope (hb : t.Bears k span (.scope ks)) (hparent : t.parent? k ≠ none)
    (hb' : u.Bears k' place (.scope ks')) (hparent' : u.parent? k' ≠ none)
    (hpush : ∀ ⦃m m'⦄, M m m' → N { m with scopes := m.scopes.push }
      { m' with scopes := m'.scopes.push })
    (hpop : ∀ ⦃m m' s s'⦄, N m m' → m.scopes.pop = .ok s → m'.scopes.pop = .ok s' →
      M { m with scopes := s } { m' with scopes := s' })
    (h : Mimicked N t (.sequence ks) u (.sequence ks')) :
    Mimicked M t (.node k) u (.node k') := by
  intro m m' r m₁ hm heval
  obtain ⟨m₂, s, hks, hs, rfl⟩ := (evaluates_scope_iff hb hparent).1 heval
  obtain ⟨r', m₂', hks', hr, hm₂⟩ := h (hpush hm) hks
  have hdepth : 1 < m₂'.scopes.depth := by
    rw [hks'.depth_eq, Scopes.depth_push]
    exact Nat.succ_lt_succ (Nat.succ_pos _)
  obtain ⟨s', hs'⟩ := Scopes.pop_of_depth hdepth
  have hscope := (evaluates_scope_iff hb' hparent').2 ⟨m₂', s', hks', hs', rfl⟩
  exact ⟨r', _, hscope, hr, hpop hm₂ hs hs'⟩

theorem of_agree (hu : Forest u) (hks' : ∀ k ∈ ks', u.contains k = true)
    (h : ∀ bound, Agree M Error.Same Eq (ks.forM (t.exec bound)) (ks'.forM (u.exec bound))) :
    Mimicked M t (.sequence ks) u (.sequence ks') := by
  intro m m' r m₁ hm heval
  obtain ⟨least, hrun⟩ := heval.reaches
  have hends := h least m m' hm
  have hrun : ks.forM (t.exec least) m = some (r, m₁) := hrun least (Nat.le_refl least)
  rw [hrun] at hends
  generalize hrun' : ks'.forM (u.exec least) m' = p' at hends
  cases hends with
  | @some _ p' hp =>
    obtain ⟨r', m₁'⟩ := p'
    exact ⟨r', m₁', (hu.follows least).sequence hks' hrun', hp.1, hp.2⟩

end Mimicked

theorem agree_symm {α : Type} {M : Machine → Machine → Prop} {x x' : Eval α}
    (h : Agree M Error.Same Eq x x') : Agree (flip M) Error.Same Eq x' x := by
  intro m' m hm
  have hends := h m m' hm
  generalize x m = p at hends ⊢
  generalize x' m' = p' at hends ⊢
  cases hends with
  | none => exact .none
  | @some p p' hp =>
    obtain ⟨r, m₁⟩ := p
    obtain ⟨r', m₁'⟩ := p'
    obtain ⟨hr, hm₁⟩ := hp
    cases hr with
    | ok ha => exact .some ⟨.ok (Eq.symm ha), hm₁⟩
    | error he => exact .some ⟨.error (Eq.symm he), hm₁⟩

def Matched (M : Machine → Machine → Prop) (t : Tree) (task : Task) (u : Tree) (task' : Task) :
    Prop :=
  Mimicked M t task u task' ∧ Mimicked (flip M) u task' t task

namespace Matched

variable {M : Machine → Machine → Prop} {w : Tree} {task task' task'' : Task}

theorem symm [Std.Symm M] (h : Matched M t task u task') : Matched M u task' t task := by
  unfold Matched at h ⊢
  rw [Std.Symm.flip_eq] at h ⊢
  exact h.symm

theorem cons {k' : NodeId} {ks ks' : List NodeId}
    (h : Matched M t (.sequence [k]) u (.sequence [k']))
    (h' : Matched M t (.sequence ks) u (.sequence ks')) :
    Matched M t (.sequence (k :: ks)) u (.sequence (k' :: ks')) :=
  ⟨h.1.of_singleton.cons h'.1, h.2.of_singleton.cons h'.2⟩

theorem comp_eq (h : Matched M t task u task') (h' : Matched Eq u task' w task'') :
    Matched M t task w task'' := by
  have hto := h.1.comp h'.1
  have hfrom := h'.2.comp h.2
  rw [Relation.comp_eq] at hto
  rw [Std.Symm.flip_eq, Relation.eq_comp] at hfrom
  exact ⟨hto, hfrom⟩

end Matched

theorem matched_of_iff {task task' : Task}
    (h : ∀ m r m', Evaluates t task m r m' ↔ Evaluates u task' m r m') :
    Matched Eq t task u task' := by
  constructor
  · rintro m _ r m₁ rfl heval
    exact ⟨r, m₁, (h m r m₁).1 heval, ends_same r, rfl⟩
  · rintro _ m r m₁ rfl heval
    exact ⟨r, m₁, (h m r m₁).2 heval, ends_same r, rfl⟩

section

variable {M : Machine → Machine → Prop} {k' : NodeId} {ks ks' : List NodeId} {f f' : Form}
  {place' : Span} (hf : Forest t) (hu : Forest u)
include hf hu

theorem matched_of_agree (hks : ∀ k ∈ ks, t.contains k = true)
    (hks' : ∀ k ∈ ks', u.contains k = true)
    (h : ∀ bound, Agree M Error.Same Eq (ks.forM (t.exec bound)) (ks'.forM (u.exec bound))) :
    Matched M t (.sequence ks) u (.sequence ks') :=
  ⟨.of_agree hu hks' h, .of_agree hf hks fun bound => agree_symm (h bound)⟩

/-- Parts of nodes that say the same part of a program. -/
theorem partners_of_children (hb : t.Bears k place f) (hb' : u.Bears k' place' f')
    (hks : ∀ l ∈ ks, l ∈ f.children) (hks' : ∀ l ∈ ks', l ∈ f'.children)
    (h : List.Forall₂ (Counterpart t u Span.Any) ks ks') :
    List.Forall₂ (Partner t u Span.Any) ks ks' := by
  obtain ⟨n, hn, rfl, -⟩ := hb
  obtain ⟨n', hn', rfl, -⟩ := hb'
  refine forall₂_imp_of_mem h fun l hl l' hl' hcounterpart => ⟨hcounterpart, ?_⟩
  rw [hf.parent?_of_mem hn (hks l hl), hu.parent?_of_mem hn' (hks' l' hl')]
  rfl

/-- Such parts do the same, and so they do with an empty scope in between. -/
theorem matched_of_children (hb : t.Bears k place f) (hb' : u.Bears k' place' f')
    (hks : ∀ l ∈ ks, l ∈ f.children) (hks' : ∀ l ∈ ks', l ∈ f'.children)
    (h : List.Forall₂ (Counterpart t u Span.Any) ks ks') :
    Matched Eq t (.sequence ks) u (.sequence ks') ∧
      Matched (Padded 0) t (.sequence ks) u (.sequence ks') := by
  have hsim := simulates_partner (R := Span.Any) hf hu
  have hpartners := partners_of_children hf hu hb hb' hks hks' h
  have hcontains : ∀ l ∈ ks, t.contains l = true := fun l hl => hf.contains_of_bears hb (hks l hl)
  have hcontains' : ∀ l ∈ ks', u.contains l = true := fun l hl =>
    hu.contains_of_bears hb' (hks' l hl)
  have hmirror : Mirror id Span.Any Error.Same Eq := mirror_self same_io fun _ _ => rfl
  constructor
  · exact matched_of_agree hf hu hcontains hcontains' fun bound =>
      hmirror.congruence.forM (agree_exec hmirror hsim bound) hpartners
  · exact matched_of_agree hf hu hcontains hcontains' fun bound =>
      congruence_padded.forM (congruence_padded.exec (congruence_padded.node_of_simulates hsim)
        agreePadded_write agreePadded_takeInteger bound) hpartners 0

end

/-! ### Programs -/

def Leaves (t : Tree) (m m' : Machine) : Prop :=
  ∃ root, t.root = some root ∧ ∃ bound, t.exec bound root m = some (.ok (), m')

section

variable {ks ls : List NodeId} (hf : Forest t)
include hf

theorem exec_root_iff (hks : t.HasStatements ks) {root : NodeId} (hroot : t.root = some root) :
    (∃ bound, t.exec bound root m = some (r, m')) ↔ Evaluates t (.sequence ks) m r m' := by
  obtain ⟨_, span, hroot', hb⟩ := hks
  cases hroot.symm.trans hroot'
  obtain ⟨hcontains, hparent⟩ := hf.root_parentless root hroot
  rw [exec_iff hf hcontains]
  constructor
  · intro h
    cases h with
    | scope hb' _ hs =>
      cases (hb.unique hb').2
      exact hs
    | innerScope _ hsome => cases hparent.symm.trans hsome
    | _ => cases (hb.unique ‹t.Bears root _ _›).2
  · exact .scope hb hparent

theorem leaves_iff (hks : t.HasStatements ks) :
    t.Leaves m m' ↔ Evaluates t (.sequence ks) m (.ok ()) m' := by
  obtain ⟨root, span, hroot, hb⟩ := hks
  constructor
  · rintro ⟨_, hroot', h⟩
    cases hroot.symm.trans hroot'
    exact (exec_root_iff hf ⟨root, span, hroot, hb⟩ hroot).1 h
  · exact fun h => ⟨root, hroot, (exec_root_iff hf ⟨root, span, hroot, hb⟩ hroot).2 h⟩

theorem ends_iff (hks : t.HasStatements ks) : t.Ends m r m' ↔
    ∃ r', Evaluates t (.sequence ks) m r' m' ∧ r = m'.sink.flush.bind fun _ => r' := by
  obtain ⟨root, span, hroot, hb⟩ := hks
  have hrun : ∀ bound, t.run bound m = some (r, m') ↔ ∃ r', t.exec bound root m = some (r', m') ∧
      r = m'.sink.flush.bind fun _ => r' := by
    intro bound
    rw [run_apply, hroot]
    simp only [Option.map_eq_some_iff, Prod.exists, Prod.mk.injEq]
    constructor
    · rintro ⟨r', m₁, hexec, hr, rfl⟩
      exact ⟨r', hexec, hr.symm⟩
    · rintro ⟨r', hexec, rfl⟩
      exact ⟨r', m', hexec, rfl, rfl⟩
  simp only [Ends, hrun, ← exec_root_iff hf ⟨root, span, hroot, hb⟩ hroot]
  constructor
  · rintro ⟨bound, r', hexec, hr⟩
    exact ⟨r', ⟨bound, hexec⟩, hr⟩
  · rintro ⟨r', ⟨bound, hexec⟩, hr⟩
    exact ⟨bound, r', hexec, hr⟩

/-- Programs whose statements do the same end in the same way. -/
theorem EndsUpTo.of_evaluates (hu : Forest u) (hks : t.HasStatements ks) (hls : u.HasStatements ls)
    (h : ∀ r m', Evaluates t (.sequence ks) m r m' →
      ∃ r', Evaluates u (.sequence ls) m r' m' ∧ Eval.Ends Error.Same Eq r r')
    (hend : t.EndsUpTo Error.unplaced m r m') : u.EndsUpTo Error.unplaced m r m' := by
  obtain ⟨r₀, hend, rfl⟩ := hend
  obtain ⟨r₁, heval, rfl⟩ := (ends_iff hf hks).1 hend
  obtain ⟨r₁', heval', hr⟩ := h r₁ m' heval
  refine ⟨_, (ends_iff hu hls).2 ⟨r₁', heval', rfl⟩, ?_⟩
  cases m'.sink.flush with
  | error e => rfl
  | ok v =>
    cases hr with
    | ok => rfl
    | error he => exact congrArg Except.error he.symm

end

end Tree

end TeachLang
