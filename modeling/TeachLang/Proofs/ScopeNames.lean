import TeachLang.Proofs.EvalComplete
import TeachLang.Proofs.Maintained

/-!
# The names in the scopes

However an evaluation ends, as many scopes are open as before, those around the innermost one have
the names they had, and the innermost one has lost none. What runs in a scope of its own adds none
there either, and finds that scope still open when it is to be left.
-/

namespace TeachLang

def Frame.SameNames (f g : Frame) : Prop := ∀ x, f.has x = g.has x

theorem Frame.has_set (f : Frame) (x : String) (v : Int64) (y : String) :
    (f.set x v).has y = (decide (x = y) || f.has y) := by
  unfold has
  rw [get?_set]
  by_cases hy : x = y <;> simp [hy]

theorem Frame.sameNames_set {f : Frame} {x : String} (h : f.has x = true) (v : Int64) :
    f.SameNames (f.set x v) := by
  intro y
  rw [has_set]
  by_cases hy : x = y
  · rw [← hy, h]
    simp
  · simp [hy]

namespace Scopes

def SameNames (s s' : Scopes) : Prop := List.Forall₂ Frame.SameNames s.frames s'.frames

/-- The scopes around the innermost one have the names they had; that one has them still. -/
structure KeepsNames (s s' : Scopes) : Prop where
  inner : ∀ x, s.inner.has x = true → s'.inner.has x = true
  outer : List.Forall₂ Frame.SameNames s.outer s'.outer

theorem forall₂_sameNames_refl (fs : List Frame) : List.Forall₂ Frame.SameNames fs fs :=
  List.forall₂_same.2 fun _ _ _ => rfl

theorem forall₂_sameNames_trans {fs gs hs : List Frame} (h : List.Forall₂ Frame.SameNames fs gs)
    (h' : List.Forall₂ Frame.SameNames gs hs) : List.Forall₂ Frame.SameNames fs hs := by
  induction h generalizing hs with
  | nil => exact h'
  | cons hf _ ih =>
    obtain _ | ⟨hg, h'⟩ := h'
    exact .cons (fun x => (hf x).trans (hg x)) (ih h')

variable {s s' s₁ : Scopes}

theorem KeepsNames.refl (s : Scopes) : s.KeepsNames s := ⟨fun _ h => h, forall₂_sameNames_refl _⟩

theorem KeepsNames.trans (h : s.KeepsNames s₁) (h' : s₁.KeepsNames s') : s.KeepsNames s' :=
  ⟨fun x hx => h'.inner x (h.inner x hx), forall₂_sameNames_trans h.outer h'.outer⟩

theorem KeepsNames.depth_eq (h : s.KeepsNames s') : s'.depth = s.depth := by
  unfold depth
  rw [h.outer.length_eq]

theorem keepsNames_set (s : Scopes) (x : String) (v : Int64) :
    s.KeepsNames { s with inner := s.inner.set x v } := by
  refine ⟨fun y hy => ?_, forall₂_sameNames_refl _⟩
  rw [Frame.has_set, hy, Bool.or_true]

theorem forall₂_sameNames_update? {x : String} {v : Int64} {fs gs : List Frame}
    (h : update? x v fs = some gs) : List.Forall₂ Frame.SameNames fs gs := by
  induction fs generalizing gs with
  | nil => cases h
  | cons f fs ih =>
    unfold update? at h
    by_cases hf : f.has x = true
    · rw [if_pos hf] at h
      cases h
      exact .cons (Frame.sameNames_set hf v) (forall₂_sameNames_refl fs)
    · rw [if_neg hf] at h
      obtain ⟨gs', hgs', rfl⟩ := Option.map_eq_some_iff.1 h
      exact .cons (fun _ => rfl) (ih hgs')

theorem keepsNames_assign (s : Scopes) (x : String) (v : Int64) :
    s.KeepsNames (s.assign x v) := by
  unfold assign
  by_cases hx : s.declaredInner x = true
  · rw [if_pos hx]
    exact s.keepsNames_set x v
  · rw [if_neg hx]
    cases hu : update? x v s.outer with
    | some outer => exact ⟨fun _ h => h, forall₂_sameNames_update? hu⟩
    | none => exact s.keepsNames_set x v

theorem keepsNames_declare {x : String} {v : Int64} (h : s.declare x v = .ok s') :
    s.KeepsNames s' := by
  unfold declare at h
  by_cases hx : s.declaredInner x = true
  · rw [if_pos hx] at h
    cases h
  · rw [if_neg hx] at h
    cases h
    exact s.keepsNames_set x v

/-- What keeps the names of a scope opened anew leaves a scope to go back to. -/
theorem KeepsNames.pop (h : s.push.KeepsNames s₁) : ∃ s', s₁.pop = .ok s' ∧ s.SameNames s' := by
  obtain ⟨inner, _ | ⟨f, fs⟩⟩ := s₁
  · cases h.outer
  · exact ⟨⟨f, fs⟩, rfl, h.outer⟩

theorem SameNames.keepsNames (h : s.SameNames s') : s.KeepsNames s' := by
  obtain _ | ⟨hinner, houter⟩ := h
  exact ⟨fun x hx => (hinner x).symm.trans hx, houter⟩

end Scopes

namespace Eval

theorem maintained_names : Maintained fun m m' => m.scopes.KeepsNames m'.scopes where
  refl m := .refl m.scopes
  trans h h' := h.trans h'
  register m _ := .refl m.scopes
  assign m x v := m.scopes.keepsNames_assign x v
  declare _ _ _ _ h := Scopes.keepsNames_declare h
  reader m := .refl m.scopes
  sink m _ := .refl m.scopes
  scope h := by
    obtain ⟨s', hpop, hs'⟩ := h.pop
    simp only [hpop]
    exact hs'.keepsNames

/-- A step in a scope of its own finds that scope when it is to be left, and adds no name to the
scopes around it. -/
theorem inScope_sameNames {α : Type} {x : Eval α}
    (hx : Maintains (fun m m' => m.scopes.KeepsNames m'.scopes) x) {m m' : Machine}
    {r : Except Error α} (h : inScope x m = some (r, m')) :
    m.scopes.SameNames m'.scopes ∧ ∃ m₁, x { m with scopes := m.scopes.push } = some (r, m₁) ∧
      m₁.scopes.pop = .ok m'.scopes := by
  obtain ⟨m₁, hrun, rfl⟩ := inScope_eq_some.1 h
  have hkept : m.scopes.push.KeepsNames m₁.scopes := hx _ r m₁ hrun
  obtain ⟨s', hpop, hs'⟩ := hkept.pop
  simp only [hpop]
  exact ⟨hs', m₁, hrun, hpop⟩

/-- What can be done with a machine from outside: nodes and trees are evaluated, in scopes opened
for it or not, and what comes of it decides in whatever way how to go on. -/
inductive Client : {α : Type} → Eval α → Prop
  | pure {α : Type} (a : α) : Client (Pure.pure a : Eval α)
  | throw {α : Type} (e : Error) : Client (MonadExcept.throw e : Eval α)
  | get : Client (MonadState.get : Eval Machine)
  | bind {α β : Type} {x : Eval α} {f : α → Eval β} (hx : Client x) (hf : ∀ a, Client (f a)) :
      Client (x >>= f)
  | outcome {α : Type} {x : Eval α} (hx : Client x) : Client (outcome x)
  | evaluate {t : Tree} (ht : t.Built) (bound : Nat) (id : NodeId) : Client (t.evaluate bound id)
  | run {t : Tree} (ht : t.Built) (bound : Nat) : Client (t.run bound)
  | inScope {α : Type} {x : Eval α} (hx : Client x) : Client (inScope x)

theorem Client.maintains {α : Type} {x : Eval α} {K : Machine → Machine → Prop} (hx : Client x)
    (hK : Maintained K) : Maintains K x := by
  induction hx with
  | pure a => exact hK.pure a
  | throw e => exact hK.throw e
  | get => exact hK.get
  | bind _ _ ihx ihf => exact hK.bind ihx ihf
  | outcome _ ih => exact ih.outcome
  | evaluate _ bound id => exact hK.evaluate _ bound id
  | run _ bound => exact hK.run _ bound
  | inScope _ ih => exact hK.inScope ih

/-- However evaluations end, the scopes are as many as before and have lost no name, and only the
innermost one may have gained some. A scope opened for evaluations, by a client or by a scope that
has a parent, is still open when it is to be left, and no other has gained a name by then. -/
theorem scopes_released :
    (∀ {α : Type} {x : Eval α}, Client x → ∀ m r m', x m = some (r, m') →
      m'.scopes.depth = m.scopes.depth ∧ m.scopes.KeepsNames m'.scopes) ∧
    (∀ {α : Type} {x : Eval α}, Client x → ∀ m r m', inScope x m = some (r, m') →
      m'.scopes.depth = m.scopes.depth ∧ m.scopes.SameNames m'.scopes ∧
        ∃ m₁, x { m with scopes := m.scopes.push } = some (r, m₁) ∧
          m₁.scopes.pop = .ok m'.scopes) ∧
    ∀ {t : Tree}, t.Built → ∀ {id p : NodeId} {span : Span} {ids : List NodeId},
      t.Bears id span (.scope ids) → t.parent? id = some p →
      ∀ bound m r m', t.evaluate bound id m = some (r, m') →
        m'.scopes.depth = m.scopes.depth ∧ m.scopes.SameNames m'.scopes ∧
          ∃ b r' m₁, ids.forM (t.exec b) { m with scopes := m.scopes.push } = some (r', m₁) ∧
            m₁.scopes.pop = .ok m'.scopes := by
  have hscope : ∀ {α : Type} {x : Eval α},
      Maintains (fun m m' => m.scopes.KeepsNames m'.scopes) x → ∀ m r m',
      inScope x m = some (r, m') → m'.scopes.depth = m.scopes.depth ∧
        m.scopes.SameNames m'.scopes ∧
        ∃ m₁, x { m with scopes := m.scopes.push } = some (r, m₁) ∧
          m₁.scopes.pop = .ok m'.scopes := by
    intro α x hx m r m' h
    obtain ⟨hnames, hbody⟩ := inScope_sameNames hx h
    exact ⟨hnames.keepsNames.depth_eq, hnames, hbody⟩
  refine ⟨fun hx m r m' h => ?_, fun hx => hscope (hx.maintains maintained_names), ?_⟩
  · have hkept := hx.maintains maintained_names m r m' h
    exact ⟨hkept.depth_eq, hkept⟩
  · intro t _ id p span ids hb hparent bound m r m' h
    obtain ⟨r', hexec⟩ : ∃ r', t.exec bound id m = some (r', m') := by
      cases r with
      | ok v => exact ⟨_, (Tree.evaluate_eq_ok.1 h).1⟩
      | error e => exact ⟨_, Tree.evaluate_eq_error.1 h⟩
    cases bound with
    | zero => cases hexec
    | succ b =>
      rw [Tree.exec_of_bears hb] at hexec
      have hinScope : inScope (ids.forM (t.exec b)) m = some (r', m') := by
        simpa [Tree.step, Eval.scope, hparent] using hexec
      obtain ⟨hdepth, hnames, hbody⟩ :=
        hscope (maintained_names.forM (maintained_names.exec t b) ids) m r' m' hinScope
      exact ⟨hdepth, hnames, b, r', hbody⟩

/-- A fault three scopes deep leaves all three; only the value bound further out is changed. -/
theorem scopes_released_of_fault :
    let t := [Tree.Operation.add (.reference "y"), .add (.print (some 0)), .add (.scope [1]),
      .add (.literal 5), .add (.reference "c"), .add (.assign (some 4) (some 3)),
      .add (.scope [5, 2]), .add (.declaration "a" none), .add (.scope [7, 6]),
      .add (.scope [8])].foldl Tree.Operation.apply {}
    let m : Machine := { scopes := ⟨[("a", 1)], [[("c", 2)]]⟩ }
    let m' : Machine := { scopes := ⟨[("a", 1)], [[("c", 5)]]⟩, register := 5 }
    t.Built ∧ t.Bears 8 {} (.scope [7, 6]) ∧ t.parent? 8 = some 9 ∧
      t.evaluate 9 8 m = some (.error (.runtime ⟨.undefinedVariable "y", none⟩), m') ∧
      m.scopes.SameNames m'.scopes := by
  intro t m m'
  have hbuilt : t.Built := Tree.Built.empty.operateAll _ (by simp)
  have hb : t.Bears 8 {} (.scope [7, 6]) := ⟨⟨.scope [7, 6], some 9, {}⟩, by decide, rfl, rfl⟩
  have hparent : t.parent? 8 = some 9 := by decide
  have hrun : t.evaluate 9 8 m = some (.error (.runtime ⟨.undefinedVariable "y", none⟩), m') := by
    decide
  exact ⟨hbuilt, hb, hparent, hrun, (scopes_released.2.2 hbuilt hb hparent 9 m _ m' hrun).2.1⟩

end Eval

end TeachLang
