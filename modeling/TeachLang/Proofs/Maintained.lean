import TeachLang.Proofs.Congruence

/-!
# What every evaluation maintains

An evaluation does no more than a few kinds of things to the machine: it sets the register, binds
names, takes an integer, writes a text, and opens and leaves scopes. A relation between machines
that each of these maintains is maintained by the evaluation of any node of any tree, however it
ends.
-/

namespace TeachLang

namespace Eval

variable {α α' β : Type} {K : Machine → Machine → Prop}

/-- However the step ends, the machine that it leaves is related to the one it began with. -/
def Maintains (K : Machine → Machine → Prop) (x : Eval α) : Prop :=
  ∀ m r m', x m = some (r, m') → K m m'

def Keeps (K : Machine → Machine → Prop) (A : α → α' → Prop) (x : Eval α) (_ : Eval α') : Prop :=
  ∀ m r m', x m = some (r, m') → K m m' ∧ ∀ a, r = .ok a → ∃ a', A a a'

theorem Maintains.keeps {x x' : Eval α} (hx : Maintains K x) : Keeps K Eq x x' :=
  fun m r m' hr => ⟨hx m r m' hr, fun a _ => ⟨a, rfl⟩⟩

structure Maintained (K : Machine → Machine → Prop) : Prop where
  refl (m : Machine) : K m m
  trans {m m₁ m₂ : Machine} (h : K m m₁) (h' : K m₁ m₂) : K m m₂
  register (m : Machine) (v : Int64) : K m { m with register := v }
  assign (m : Machine) (x : String) (v : Int64) : K m { m with scopes := m.scopes.assign x v }
  declare (m : Machine) {x : String} {s : Scopes} (v : Int64) (h : m.scopes.declare x v = .ok s) :
    K m { m with scopes := s }
  reader (m : Machine) : K m { m with reader := m.reader.takeInteger.2 }
  sink (m : Machine) (text : String) : K m { m with sink := (m.sink.write text).2 }
  scope {m m₁ : Machine} (h : K { m with scopes := m.scopes.push } m₁) :
    K m { m₁ with scopes := m₁.scopes.pop.toOption.getD m₁.scopes }

theorem Maintains.outcome {x : Eval α} (hx : Maintains K x) : Maintains K (outcome x) := by
  intro m r m' h
  unfold Eval.outcome at h
  split at h
  · cases h
  · next hr =>
    cases h
    exact hx m _ m' hr

namespace Maintained

variable (hK : Maintained K)
include hK

theorem pure (a : α) : Maintains K (pure a) := by
  intro m r m' h
  cases h
  exact hK.refl m

theorem throw (e : Error) : Maintains K (throw e : Eval α) := by
  intro m r m' h
  cases h
  exact hK.refl m

theorem get : Maintains K (get : Eval Machine) := by
  intro m r m' h
  cases h
  exact hK.refl m

theorem bind {x : Eval α} {f : α → Eval β} (hx : Maintains K x) (hf : ∀ a, Maintains K (f a)) :
    Maintains K (x >>= f) := by
  intro m r m' h
  rcases bind_eq_some.1 h with ⟨e, he, _⟩ | ⟨a, m₁, ha, h⟩
  · exact hx m _ m' he
  · exact hK.trans (hx m _ m₁ ha) (hf a m₁ r m' h)

theorem setRegister (v : Int64) : Maintains K (setRegister v) := by
  intro m r m' h
  cases h
  exact hK.register m v

theorem asked : Maintains K Eval.register := hK.bind hK.get fun m => hK.pure m.register

theorem lookup (x : String) (span : Span) : Maintains K (lookup x span) := by
  refine hK.bind hK.get fun m => ?_
  cases m.scopes.lookup x with
  | ok v => exact hK.pure v
  | error fault => exact hK.throw _

theorem assigned (x : String) (v : Int64) : Maintains K (Eval.assign x v) := by
  intro m r m' h
  cases h
  exact hK.assign m x v

theorem declared (x : String) (v : Int64) (span : Span) : Maintains K (Eval.declare x v span) := by
  intro m r m' h
  rw [Eval.declare, bind_apply, get_apply] at h
  cases hs : m.scopes.declare x v with
  | ok s =>
    simp only [hs] at h
    cases h
    exact hK.declare m v hs
  | error fault =>
    simp only [hs] at h
    cases h
    exact hK.refl m

theorem takeInteger : Maintains K takeInteger := by
  intro m r m' h
  rw [takeInteger_apply] at h
  cases h
  exact hK.reader m

theorem write (text : String) : Maintains K (write text) := by
  intro m r m' h
  rw [write_apply] at h
  cases h
  exact hK.sink m text

theorem flush : Maintains K flush := by
  intro m r m' h
  cases h
  exact hK.refl m

theorem inScope {x : Eval α} (hx : Maintains K x) : Maintains K (inScope x) := by
  intro m r m' h
  obtain ⟨m₁, hrun, rfl⟩ := inScope_eq_some.1 h
  exact hK.scope (hx _ r m₁ hrun)

theorem forM {run : NodeId → Eval Unit} (hrun : ∀ k, Maintains K (run k)) (ks : List NodeId) :
    Maintains K (ks.forM run) := by
  induction ks with
  | nil => exact hK.pure ()
  | cons k ks ih => exact hK.bind (hrun k) fun _ => ih

theorem congruence : Congruence id Eq (Keeps K) where
  pure h m r m' hr := by
    cases hr
    refine ⟨hK.refl m, fun a ha => ?_⟩
    cases ha
    exact ⟨_, h⟩
  bind hx hf m r m' hr := by
    rcases bind_eq_some.1 hr with ⟨e, he, rfl⟩ | ⟨a, m₁, ha, hr⟩
    · exact ⟨(hx m _ m' he).1, nofun⟩
    · obtain ⟨hkept, hanswer⟩ := hx m _ m₁ ha
      obtain ⟨a', ha'⟩ := hanswer a rfl
      obtain ⟨hkept', hanswer'⟩ := hf a a' ha' m₁ r m' hr
      exact ⟨hK.trans hkept hkept', hanswer'⟩
  unbounded _ _ _ hr := by cases hr
  raise _ f m r m' hr := by
    cases hr
    exact ⟨hK.refl m, nofun⟩
  register := hK.asked.keeps
  setRegister v := (hK.setRegister v).keeps
  lookup _ x := (hK.lookup x _).keeps
  assign x v := (hK.assigned x v).keeps
  declare _ x v := (hK.declared x v _).keeps
  inScope hx m r m' hr := by
    obtain ⟨m₁, hrun, rfl⟩ := inScope_eq_some.1 hr
    obtain ⟨hkept, hanswer⟩ := hx _ r m₁ hrun
    exact ⟨hK.scope hkept, hanswer⟩

theorem keeps_throw {A : α → α' → Prop} (e : Error) :
    Keeps K A (MonadExcept.throw e) (MonadExcept.throw e) := by
  intro m r m' hr
  cases hr
  exact ⟨hK.refl m, nofun⟩

theorem exec (t : Tree) (bound : Nat) (id : NodeId) : Maintains K (t.exec bound id) := by
  have hkeeps := hK.congruence.exec_self hK.keeps_throw (fun text => (hK.write text).keeps)
    hK.takeInteger.keeps t
  exact fun m r m' hr => (hkeeps bound id m r m' hr).1

theorem evaluate (t : Tree) (bound : Nat) (id : NodeId) : Maintains K (t.evaluate bound id) :=
  hK.bind (hK.exec t bound id) fun _ => hK.asked

theorem run (t : Tree) (bound : Nat) : Maintains K (t.run bound) := by
  unfold Tree.run
  cases t.root with
  | none => exact hK.pure ()
  | some root =>
    refine hK.bind (hK.exec t bound root).outcome fun r => hK.bind hK.flush fun _ => ?_
    cases r with
    | ok v => exact hK.pure ()
    | error e => exact hK.throw e

end Maintained

end Eval

end TeachLang
