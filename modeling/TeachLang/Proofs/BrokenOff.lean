import TeachLang.Proofs.Maintained
import TeachLang.Proofs.Simulation

/-!
# Evaluation that is broken off

An evaluation may be broken off as soon as its output is of some kind. Up to there it is what it
would be, and it ends there even if it would go on for ever otherwise.
-/

namespace TeachLang

namespace Sink

def Precedes (s s' : Sink) : Prop := ∃ more, s'.written = s.written ++ more

theorem Precedes.refl (s : Sink) : s.Precedes s := ⟨.empty, by rw [ByteArray.append_empty]⟩

theorem Precedes.trans {s s' s'' : Sink} (h : s.Precedes s') (h' : s'.Precedes s'') :
    s.Precedes s'' := by
  obtain ⟨more, h⟩ := h
  obtain ⟨more', h'⟩ := h'
  exact ⟨more ++ more', by rw [h', h, ByteArray.append_assoc]⟩

/-- What a sink has taken stays in front. -/
theorem Precedes.extract_eq {s s' : Sink} (h : s.Precedes s') {n : Nat}
    (hn : n ≤ s.written.size) : s'.written.extract 0 n = s.written.extract 0 n := by
  obtain ⟨more, h⟩ := h
  have hempty : more.extract (0 - s.written.size) (n - s.written.size) = .empty := by
    rw [ByteArray.extract_eq_empty_iff]
    omega
  rw [h, ByteArray.extract_append, hempty, ByteArray.append_empty]

theorem Precedes.size_le {s s' : Sink} (h : s.Precedes s') : s.written.size ≤ s'.written.size := by
  obtain ⟨more, h⟩ := h
  rw [h, ByteArray.size_append]
  omega

theorem precedes_write (s : Sink) (text : String) : s.Precedes (s.write text).2 :=
  ⟨_, s.written_write text⟩

end Sink

namespace Eval

def breakIf (p : ByteArray → Bool) : Eval Unit := do
  if p (← get).sink.written then throw (.io "broken off")

end Eval

namespace Tree

open Eval

/-- Evaluation of a node that is broken off behind the first one that leaves the output as `p` says.
It ends where it is broken off, even if the evaluation by itself would go on for ever. -/
def execUntil (t : Tree) (p : ByteArray → Bool) : Nat → NodeId → Eval Unit
  | 0, _ => unbounded
  | bound + 1, id => do
    let n ← node t id
    t.step bound (t.execUntil p bound) n
    breakIf p

/-- Whether the run ever ends or not, at some time its output is as `p` says, and when it is so for
the first time, the machine is this one. -/
def ComesTo (t : Tree) (p : ByteArray → Bool) (m m' : Machine) : Prop :=
  p m'.sink.written = true ∧
    ∃ root bound r, t.root = some root ∧ t.execUntil p bound root m = some (r, m')

end Tree

namespace Eval

variable {α α' β β' : Type} {A : α → α' → Prop} {B : β → β' → Prop} {p q : ByteArray → Bool}
  {m m' : Machine}

theorem breakIf_of_true (h : p m.sink.written = true) :
    breakIf p m = some (.error (.io "broken off"), m) := by
  rw [breakIf, bind_apply, get_apply]
  simp only [h]
  rfl

theorem breakIf_of_false (h : p m.sink.written = false) : breakIf p m = some (.ok (), m) := by
  rw [breakIf, bind_apply, get_apply]
  simp only [h]
  rfl

theorem breakIf_eq_some {r : Except Error Unit} (h : breakIf p m = some (r, m')) : m' = m := by
  cases hp : p m.sink.written with
  | true =>
    rw [breakIf_of_true hp] at h
    cases h
    rfl
  | false =>
    rw [breakIf_of_false hp] at h
    cases h
    rfl

/-- Evaluation is what is never broken off. -/
theorem exec_eq_execUntil (t : Tree) (bound : Nat) (k : NodeId) :
    t.exec bound k = t.execUntil (fun _ => false) bound k := by
  induction bound generalizing k with
  | zero => rfl
  | succ bound ih =>
    have hnever : breakIf (fun _ => false) = Pure.pure () := funext fun _ => breakIf_of_false rfl
    have hrun : t.exec bound = t.execUntil (fun _ => false) bound := funext ih
    rw [Tree.exec, Tree.execUntil, hnever, hrun]
    simp only [bind_pure_unit]

theorem Maintained.breakIf {K : Machine → Machine → Prop} (hK : Maintained K)
    (p : ByteArray → Bool) : Maintains K (breakIf p) := by
  intro m r m' h
  rw [breakIf_eq_some h]
  exact hK.refl m

/-- Evaluations of one tree that are broken off at different times. -/
theorem StreamCongruence.execUntil {Q : {α α' : Type} → (α → α' → Prop) → Eval α → Eval α' → Prop}
    (hQ : StreamCongruence Q)
    (hwrite : ∀ text, Q Eq (write text >>= fun _ => breakIf p) (write text >>= fun _ => breakIf q))
    (hbreak : Q Eq (breakIf p) (breakIf q)) (t : Tree) (bound : Nat) (k : NodeId) :
    Q Eq (t.execUntil p bound k) (t.execUntil q bound k) := by
  have hnode := hQ.node_self t
  induction bound generalizing k with
  | zero => exact hQ.unbounded
  | succ bound ih =>
    refine hQ.bind (hnode k k rfl) fun n n' hn =>
      hQ.congruence.step_bind hnode ?_ hwrite hbreak bound hn fun _ => hQ.takeInteger
    rintro k _ rfl
    exact ih k

/-- The evaluations have the same answer, if the second one is not broken off at `p`; then the first
one goes on from the machine that it leaves. -/
inductive Broken (p : ByteArray → Bool) (A : α → α' → Prop) :
    Option (Except Error α × Machine) → Option (Except Error α' × Machine) → Prop
  | unbounded : Broken p A none none
  | kept {r : Except Error α} {r' : Except Error α'} {m : Machine} (hr : Ends Eq A r r')
      (hp : p m.sink.written = false) : Broken p A (some (r, m)) (some (r', m))
  | stopped {o : Option (Except Error α × Machine)} (e : Error) {m' : Machine}
      (hp : p m'.sink.written = true)
      (ho : ∀ r m, o = some (r, m) → m'.sink.Precedes m.sink) : Broken p A o (some (.error e, m'))

theorem maintained_precedes : Maintained fun m m' => m.sink.Precedes m'.sink where
  refl m := .refl m.sink
  trans h h' := h.trans h'
  register m _ := .refl m.sink
  assign m _ _ := .refl m.sink
  declare m _ _ _ _ := .refl m.sink
  reader m := .refl m.sink
  sink m text := m.sink.precedes_write text
  scope h := h

def BreaksOff (p : ByteArray → Bool) (A : α → α' → Prop) (x : Eval α) (x' : Eval α') : Prop :=
  Keeps (fun m m' => m.sink.Precedes m'.sink) A x x' ∧
    ∀ m, p m.sink.written = false → Broken p A (x m) (x' m)

theorem breaksOff_of_sink_eq {x : Eval α} (hx : ∀ m r m', x m = some (r, m') → m'.sink = m.sink) :
    BreaksOff p Eq x x := by
  refine ⟨fun m r m' hr => ⟨?_, fun a _ => ⟨a, rfl⟩⟩, fun m hp => ?_⟩
  · dsimp only
    rw [hx m r m' hr]
    exact .refl m.sink
  · cases hr : x m with
    | none => exact .unbounded
    | some q =>
      refine .kept (ends_eq_iff.2 rfl) ?_
      rwa [hx m q.1 q.2 hr]

theorem breaksOff_throw (e : Error) :
    BreaksOff p A (MonadExcept.throw e) (MonadExcept.throw e) :=
  ⟨maintained_precedes.keeps_throw e, fun _ hp => .kept (.error rfl) hp⟩

theorem BreaksOff.bind {x : Eval α} {x' : Eval α'} {f : α → Eval β} {f' : α' → Eval β'}
    (hx : BreaksOff p A x x') (hf : ∀ a a', A a a' → BreaksOff p B (f a) (f' a')) :
    BreaksOff p B (x >>= f) (x' >>= f') := by
  refine ⟨maintained_precedes.congruence.bind hx.1 fun a a' h => (hf a a' h).1, fun m hp => ?_⟩
  have hbroken := hx.2 m hp
  rw [bind_apply, bind_apply]
  generalize ho : x m = o at hbroken ⊢
  generalize x' m = o' at hbroken ⊢
  cases hbroken with
  | unbounded => exact .unbounded
  | kept hr hp =>
    cases hr with
    | ok h => exact (hf _ _ h).2 _ hp
    | error h =>
      subst h
      exact .kept (.error rfl) hp
  | stopped e hp hprecedes =>
    refine .stopped e hp fun r m₂ h => ?_
    rcases o with _ | ⟨e' | a, m₁⟩
    · cases h
    · cases h
      exact hprecedes _ _ rfl
    · obtain ⟨a', ha⟩ := (hx.1 m _ m₁ ho).2 a rfl
      exact (hprecedes _ _ rfl).trans ((hf a a' ha).1 m₁ r m₂ h).1

theorem BreaksOff.inScope {x : Eval α} {x' : Eval α'} (hx : BreaksOff p A x x') :
    BreaksOff p A (inScope x) (inScope x') := by
  refine ⟨maintained_precedes.congruence.inScope hx.1, fun m hp => ?_⟩
  have hbroken := hx.2 { m with scopes := m.scopes.push } hp
  unfold Eval.inScope
  generalize x { m with scopes := m.scopes.push } = o at hbroken ⊢
  generalize x' { m with scopes := m.scopes.push } = o' at hbroken ⊢
  cases hbroken with
  | unbounded => exact .unbounded
  | kept hr hp => exact .kept hr hp
  | stopped e hp hprecedes =>
    refine .stopped e hp fun r m₂ h => ?_
    rcases o with _ | ⟨r', m₁⟩
    · cases h
    · cases h
      exact hprecedes r m₁ rfl

theorem congruence_breaksOff (p : ByteArray → Bool) : StreamCongruence (BreaksOff p) where
  pure h := ⟨maintained_precedes.congruence.pure h, fun _ hp => .kept (.ok h) hp⟩
  bind := BreaksOff.bind
  unbounded := ⟨maintained_precedes.congruence.unbounded, fun _ _ => .unbounded⟩
  throw := breaksOff_throw
  confined hx := breaksOff_of_sink_eq fun _ _ _ => hx.sink_eq
  takeInteger := by
    refine breaksOff_of_sink_eq fun m r m' hr => ?_
    rw [takeInteger_apply] at hr
    cases hr
    rfl
  inScope := BreaksOff.inScope

/-- Where the output is not as `p` says, both look at it for `q`. -/
theorem breakIf_or (hp : p m.sink.written = false) :
    breakIf (fun bytes => q bytes || p bytes) m = breakIf q m := by
  unfold breakIf
  simp only [bind_apply, get_apply, hp, Bool.or_false]

theorem broken_breakIf (m : Machine) :
    Broken p Eq (breakIf q m) (breakIf (fun bytes => q bytes || p bytes) m) := by
  cases hp : p m.sink.written with
  | true =>
    have hor : (q m.sink.written || p m.sink.written) = true := Bool.or_eq_true_iff.2 (.inr hp)
    rw [breakIf_of_true (p := fun bytes => q bytes || p bytes) hor]
    refine .stopped _ hp fun r m₁ h => ?_
    rw [breakIf_eq_some h]
    exact .refl m.sink
  | false =>
    rw [breakIf_or hp]
    generalize hr : breakIf q m = o
    rcases o with _ | ⟨r, m₁⟩
    · exact .unbounded
    · rw [breakIf_eq_some hr]
      exact .kept (ends_eq_iff.2 rfl) hp

/-- Behind a text that is written the output is looked at. -/
theorem breaksOff_write (text : String) :
    BreaksOff p Eq (write text >>= fun _ => breakIf q)
      (write text >>= fun _ => breakIf fun bytes => q bytes || p bytes) := by
  have hK := maintained_precedes
  refine ⟨(hK.bind (hK.write text) fun _ => hK.breakIf q).keeps, fun m _ => ?_⟩
  rw [bind_apply, bind_apply, write_apply]
  generalize { m with sink := (m.sink.write text).2 } = m₁
  cases (m.sink.write text).1 with
  | ok v => exact broken_breakIf m₁
  | error e =>
    cases hp : p m₁.sink.written with
    | true =>
      refine .stopped e hp fun r m₂ h => ?_
      cases h
      exact .refl m₁.sink
    | false => exact .kept (.error rfl) hp

/-- If it may be broken off at `p` too, an evaluation is the same as far as that. -/
theorem breaksOff_execUntil (t : Tree) (bound : Nat) (k : NodeId) :
    BreaksOff p Eq (t.execUntil q bound k)
      (t.execUntil (fun bytes => q bytes || p bytes) bound k) := by
  refine (congruence_breaksOff p).execUntil breaksOff_write ?_ t bound k
  exact ⟨(maintained_precedes.breakIf q).keeps, fun m _ => broken_breakIf m⟩

theorem execUntil_precedes {t : Tree} {bound : Nat} {k : NodeId} {r : Except Error Unit}
    (h : t.execUntil q bound k m = some (r, m')) : m.sink.Precedes m'.sink := by
  have hbreaks : BreaksOff (fun _ => false) Eq (t.execUntil q bound k) _ :=
    breaksOff_execUntil t bound k
  exact (hbreaks.1 m r m' h).1

end Eval

end TeachLang
