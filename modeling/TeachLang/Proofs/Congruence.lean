import Mathlib.Data.List.Forall2
import Mathlib.Data.Option.Basic
import TeachLang.Proofs.Steps

/-!
# Evaluations related part by part

Two trees whose nodes correspond, form by form and role by role, are evaluated by steps that
correspond. So a relation between steps relates the evaluations of such trees if it relates whatever
an evaluation does to the machine, or asks of it, and passes from parts to what they make up. What
the relation says of the machines is left open.
-/

namespace TeachLang

def Fault.rename (r : String → String) : Fault → Fault
  | undefinedVariable x => undefinedVariable (r x)
  | duplicateDeclaration x => duplicateDeclaration (r x)
  | f => f

@[simp] theorem Fault.rename_id (f : Fault) : f.rename id = f := by cases f <;> rfl

/-- The forms are the same but for names, and related nodes stand in the same roles. -/
inductive Form.Matches (r : String → String) (S : NodeId → NodeId → Prop) : Form → Form → Prop
  | arithmetic (op : ArithmeticOperator) {k l k' l' : Option NodeId} (hk : Option.Rel S k k')
      (hl : Option.Rel S l l') : Matches r S (.arithmetic op k l) (.arithmetic op k' l')
  | logic (op : LogicOperator) {k l k' l' : Option NodeId} (hk : Option.Rel S k k')
      (hl : Option.Rel S l l') : Matches r S (.logic op k l) (.logic op k' l')
  | unary (op : UnaryOperator) {k k' : Option NodeId} (hk : Option.Rel S k k') :
      Matches r S (.unary op k) (.unary op k')
  | scope {ks ks' : List NodeId} (hks : List.Forall₂ S ks ks') :
      Matches r S (.scope ks) (.scope ks')
  | literal (v : Int64) : Matches r S (.literal v) (.literal v)
  | print {k k' : Option NodeId} (hk : Option.Rel S k k') : Matches r S (.print k) (.print k')
  | assign {k l k' l' : Option NodeId} (hk : Option.Rel S k k') (hl : Option.Rel S l l') :
      Matches r S (.assign k l) (.assign k' l')
  | reference (x : String) : Matches r S (.reference x) (.reference (r x))
  | declaration (x : String) {k k' : Option NodeId} (hk : Option.Rel S k k') :
      Matches r S (.declaration x k) (.declaration (r x) k')
  | expression {k k' : Option NodeId} (hk : Option.Rel S k k') :
      Matches r S (.expression k) (.expression k')
  | ifElse {c a b c' a' b' : Option NodeId} (hc : Option.Rel S c c') (ha : Option.Rel S a a')
      (hb : Option.Rel S b b') : Matches r S (.ifElse c a b) (.ifElse c' a' b')
  | whileLoop {c b c' b' : Option NodeId} (hc : Option.Rel S c c') (hb : Option.Rel S b b') :
      Matches r S (.whileLoop c b) (.whileLoop c' b')
  | forLoop {i c s b i' c' s' b' : Option NodeId} (hi : Option.Rel S i i')
      (hc : Option.Rel S c c') (hs : Option.Rel S s s') (hb : Option.Rel S b b') :
      Matches r S (.forLoop i c s b) (.forLoop i' c' s' b')
  | input {k k' : Option NodeId} (hk : Option.Rel S k k') : Matches r S (.input k) (.input k')

theorem Form.Matches.kind_eq {r : String → String} {S : NodeId → NodeId → Prop} {f f' : Form}
    (h : f.Matches r S f') : f'.kind = f.kind := by
  cases h <;> rfl

def Form.rename (r : String → String) : Form → Form
  | reference x => reference (r x)
  | declaration x k => declaration (r x) k
  | f => f

@[simp] theorem Form.rename_id (f : Form) : f.rename id = f := by cases f <;> rfl

def RolesMatch (S : NodeId → NodeId → Prop) (rs rs' : List (Slot × Option NodeId)) : Prop :=
  List.Forall₂ (fun p p' => p'.1 = p.1 ∧ Option.Rel S p.2 p'.2) rs rs'

theorem Form.matches_iff {r : String → String} {S : NodeId → NodeId → Prop} {f f' : Form} :
    f.Matches r S f' ↔ f'.bare = f.bare.rename r ∧ RolesMatch S f.roles f'.roles := by
  unfold RolesMatch
  constructor
  · intro h
    cases h <;> simp [bare, rename, roles, *]
  · rintro ⟨hbare, hroles⟩
    cases f <;> cases f' <;> simp [bare, rename] at hbare <;> simp [roles] at hroles
    all_goals (subst_vars; constructor <;> simp_all)

theorem forall₂_imp_of_mem {α β : Type} {S S' : α → β → Prop} {as : List α} {bs : List β}
    (h : List.Forall₂ S as bs) (hS : ∀ a ∈ as, ∀ b ∈ bs, S a b → S' a b) :
    List.Forall₂ S' as bs := by
  refine List.forall₂_iff_zip.2 ⟨h.length_eq, fun hab => ?_⟩
  obtain ⟨ha, hb⟩ := List.of_mem_zip hab
  exact hS _ ha _ hb (List.forall₂_zip h hab)

theorem RolesMatch.imp {S S' : NodeId → NodeId → Prop} {rs rs' : List (Slot × Option NodeId)}
    (h : RolesMatch S rs rs') (hS : ∀ k ∈ rs.filterMap Prod.snd, ∀ k' ∈ rs'.filterMap Prod.snd,
      S k k' → S' k k') : RolesMatch S' rs rs' := by
  refine forall₂_imp_of_mem h fun (s, o) hp (s', o') hp' ⟨hs, ho⟩ => ⟨hs, ?_⟩
  cases ho with
  | none => exact .none
  | some hk =>
    exact .some (hS _ (List.mem_filterMap.2 ⟨_, hp, rfl⟩) _ (List.mem_filterMap.2 ⟨_, hp', rfl⟩) hk)

theorem rolesMatch_self {S : NodeId → NodeId → Prop} (hS : ∀ k, S k k)
    (rs : List (Slot × Option NodeId)) : RolesMatch S rs rs := by
  induction rs with
  | nil => exact .nil
  | cons r rs ih =>
    obtain ⟨s, _ | k⟩ := r
    · exact .cons ⟨rfl, .none⟩ ih
    · exact .cons ⟨rfl, .some (hS k)⟩ ih

theorem Form.Matches.imp {r : String → String} {S S' : NodeId → NodeId → Prop} {f f' : Form}
    (h : f.Matches r S f') (hS : ∀ k ∈ f.children, ∀ k' ∈ f'.children, S k k' → S' k k') :
    f.Matches r S' f' := by
  obtain ⟨hbare, hroles⟩ := matches_iff.1 h
  exact matches_iff.2 ⟨hbare, hroles.imp hS⟩

structure Node.Matches (r : String → String) (R : Span → Span → Prop)
    (S : NodeId → NodeId → Prop) (n n' : Node) : Prop where
  span : R n.span n'.span
  parent : n'.parent.isNone = n.parent.isNone
  form : n.form.Matches r S n'.form

theorem Form.matches_rename (r : String → String) (f : Form) : f.Matches r Eq (f.rename r) := by
  refine matches_iff.2 ⟨?_, ?_⟩
  · cases f <;> rfl
  · have hroles : (f.rename r).roles = f.roles := by cases f <;> rfl
    rw [hroles]
    exact rolesMatch_self (fun _ => rfl) _

theorem Node.matches_self (n : Node) : n.Matches id Eq Eq n where
  span := rfl
  parent := rfl
  form := by
    have h := n.form.matches_rename id
    rwa [Form.rename_id] at h

namespace Tree

/-- Related nodes are there on both sides, and they match. -/
structure Simulates (t u : Tree) (r : String → String) (R : Span → Span → Prop)
    (S : NodeId → NodeId → Prop) : Prop where
  node {k k' : NodeId} (h : S k k') :
    ∃ n n', t.get? k = some n ∧ u.get? k' = some n' ∧ n.Matches r R S n'

end Tree

namespace Eval

/-- Equal effects are related, or such as differ in names and spans alone, and what related steps
make up is related, if their values are. Writing and taking input are left out: only `print` does
the one, and only `input` the other. -/
structure Congruence (r : String → String) (R : Span → Span → Prop)
    (Q : {α α' : Type} → (α → α' → Prop) → Eval α → Eval α' → Prop) : Prop where
  pure {α α' : Type} {A : α → α' → Prop} {a : α} {a' : α'} (h : A a a') : Q A (pure a) (pure a')
  bind {α α' β β' : Type} {A : α → α' → Prop} {B : β → β' → Prop} {x : Eval α} {x' : Eval α'}
    {f : α → Eval β} {f' : α' → Eval β'} (hx : Q A x x') (hf : ∀ a a', A a a' → Q B (f a) (f' a')) :
    Q B (x >>= f) (x' >>= f')
  unbounded {α α' : Type} {A : α → α' → Prop} : Q A unbounded unbounded
  raise {α α' : Type} {A : α → α' → Prop} {s s' : Span} (h : R s s') (f : Fault) :
    Q A (raise f s) (raise (f.rename r) s')
  register : Q Eq register register
  setRegister (v : Int64) : Q Eq (setRegister v) (setRegister v)
  lookup {s s' : Span} (h : R s s') (x : String) : Q Eq (lookup x s) (lookup (r x) s')
  assign (x : String) (v : Int64) : Q Eq (assign x v) (assign (r x) v)
  declare {s s' : Span} (h : R s s') (x : String) (v : Int64) :
    Q Eq (declare x v s) (declare (r x) v s')
  inScope {α α' : Type} {A : α → α' → Prop} {x : Eval α} {x' : Eval α'} (hx : Q A x x') :
    Q A (inScope x) (inScope x')

namespace Congruence

variable {α α' β β' : Type} {A : α → α' → Prop} {r : String → String} {R : Span → Span → Prop}
  {Q : {α α' : Type} → (α → α' → Prop) → Eval α → Eval α' → Prop} {S : NodeId → NodeId → Prop}
  {run run' : NodeId → Eval Unit} {t u : Tree} {s s' : Span}

section

variable (hQ : Congruence r R Q)
include hQ

theorem orRaise (h : R s s') {o : Option α} {o' : Option α'} (ho : Option.Rel A o o') (f : Fault) :
    Q A (orRaise o f s) (orRaise o' (f.rename r) s') := by
  cases ho with
  | none => exact hQ.raise h f
  | some ha => exact hQ.pure ha

theorem loop {condition condition' : Eval Int64} {round round' : Eval Unit}
    (hc : Q Eq condition condition') (hr : Q Eq round round') (bound : Nat) :
    Q Eq (loop condition round bound) (loop condition' round' bound) := by
  induction bound with
  | zero => exact hQ.unbounded
  | succ bound ih =>
    refine hQ.bind hc ?_
    rintro v _ rfl
    by_cases hv : v ≠ 0
    · simp only [if_pos hv]
      exact hQ.bind hr fun _ _ _ => ih
    · simp only [if_neg hv]
      exact hQ.pure rfl

variable (hrun : ∀ k k', S k k' → Q Eq (run k) (run' k'))
include hrun

theorem forM {ks ks' : List NodeId} (hks : List.Forall₂ S ks ks') :
    Q Eq (ks.forM run) (ks'.forM run') := by
  induction hks with
  | nil => exact hQ.pure rfl
  | cons hk _ ih => exact hQ.bind (hrun _ _ hk) fun _ _ _ => ih

theorem optional {o o' : Option NodeId} (ho : Option.Rel S o o') :
    Q Eq (optional run o) (optional run' o') := by
  cases ho with
  | none => exact hQ.pure rfl
  | some hk => exact hrun _ _ hk

theorem value (k k' : NodeId) (hk : S k k') :
    Q Eq (do run k; Eval.register) (do run' k'; Eval.register) :=
  hQ.bind (hrun k k' hk) fun _ _ _ => hQ.register

theorem arithmetic (h : R s s') (op : ArithmeticOperator) {k k' l l' : Option NodeId}
    (hk : Option.Rel S k k') (hl : Option.Rel S l l') :
    Q Eq (arithmetic (fun k => do run k; Eval.register) s op k l)
      (arithmetic (fun k => do run' k; Eval.register) s' op k' l') := by
  refine hQ.bind (hQ.orRaise h hk (.missingOperand .arithmetic)) fun k k' hk =>
    hQ.bind (hQ.orRaise h hl (.missingOperand .arithmetic)) fun l l' hl =>
      hQ.bind (hQ.value hrun k k' hk) ?_
  rintro a _ rfl
  refine hQ.bind (hQ.value hrun l l' hl) ?_
  rintro b _ rfl
  refine hQ.bind (hQ.orRaise h (optionRel_self (fun _ => rfl) (op.apply a b)) .divisionByZero) ?_
  rintro v _ rfl
  exact hQ.setRegister v

theorem logic (h : R s s') (op : LogicOperator) {k k' l l' : Option NodeId}
    (hk : Option.Rel S k k') (hl : Option.Rel S l l') :
    Q Eq (logic (fun k => do run k; Eval.register) s op k l)
      (logic (fun k => do run' k; Eval.register) s' op k' l') := by
  refine hQ.bind (hQ.orRaise h hk (.missingOperand .logic)) fun k k' hk =>
    hQ.bind (hQ.value hrun k k' hk) ?_
  rintro a _ rfl
  cases op.settledBy a with
  | some v => exact hQ.setRegister v
  | none =>
    refine hQ.bind (hQ.orRaise h hl (.missingOperand .logic)) fun l l' hl =>
      hQ.bind (hQ.value hrun l l' hl) ?_
    rintro b _ rfl
    exact hQ.setRegister _

theorem unary (h : R s s') (op : UnaryOperator) {k k' : Option NodeId} (hk : Option.Rel S k k') :
    Q Eq (unary (fun k => do run k; Eval.register) s op k)
      (unary (fun k => do run' k; Eval.register) s' op k') := by
  refine hQ.bind (hQ.orRaise h hk (.missingOperand .unary)) fun k k' hk =>
    hQ.bind (hQ.value hrun k k' hk) ?_
  rintro v _ rfl
  exact hQ.setRegister _

theorem declaration (h : R s s') (x : String) {k k' : Option NodeId} (hk : Option.Rel S k k') :
    Q Eq (declaration (fun k => do run k; Eval.register) s x k)
      (declaration (fun k => do run' k; Eval.register) s' (r x) k') := by
  have hdeclare : ∀ v v', v = v' → Q Eq (do Eval.setRegister v; Eval.declare x v s)
      (do Eval.setRegister v'; Eval.declare (r x) v' s') := by
    rintro v _ rfl
    exact hQ.bind (hQ.setRegister v) fun _ _ _ => hQ.declare h x v
  cases hk with
  | none => exact hQ.bind (hQ.pure rfl) hdeclare
  | some hk => exact hQ.bind (hQ.value hrun _ _ hk) hdeclare

theorem scope {p p' : Option NodeId} (hp : p'.isNone = p.isNone) {ks ks' : List NodeId}
    (hks : List.Forall₂ S ks ks') : Q Eq (scope run p ks) (scope run' p' ks') := by
  rw [Eval.scope, Eval.scope, hp]
  split
  · exact hQ.forM hrun hks
  · exact hQ.inScope (hQ.forM hrun hks)

end

/-- Nodes that are there on both sides. -/
theorem node_of_simulates (hQ : Congruence r R Q) (h : t.Simulates u r R S) (k k' : NodeId)
    (hk : S k k') : Q (Node.Matches r R S) (node t k) (node u k') := by
  obtain ⟨n, n', hn, hn', hmatch⟩ := h.node hk
  rw [node_eq hn, node_eq hn']
  exact hQ.pure hmatch

/-- Nodes at the same place of trees of one layout, whatever the links in it. -/
theorem node_of_get? (hQ : Congruence r R Q)
    (h : ∀ k, Option.Rel (Node.Matches r R Eq) (t.get? k) (u.get? k))
    (hforeign : ∀ k, Q (Node.Matches r R Eq) (throw (.construction (.foreignNode k)))
      (throw (.construction (.foreignNode k)))) (k k' : NodeId) (hk : k = k') :
    Q (Node.Matches r R Eq) (node t k) (node u k') := by
  subst hk
  have hget := h k
  unfold Eval.node Tree.find
  generalize t.get? k = n at hget ⊢
  generalize u.get? k = n' at hget ⊢
  cases hget with
  | none => exact hforeign k
  | some hmatch => exact hQ.pure hmatch

section

variable (hQ : Congruence r R Q)
  (ht : ∀ k k', S k k' → Q (Node.Matches r R S) (node t k) (node u k'))
include hQ ht

theorem targetName (h : R s s') {k k' : Option NodeId} (hk : Option.Rel S k k')
    {fault : Option Kind → Fault} (hfault : ∀ kind, (fault kind).rename r = fault kind) :
    Q (fun x x' => x' = r x) (targetName t s k fault) (targetName u s' k' fault) := by
  have horRaise := hQ.orRaise h hk (fault none)
  rw [hfault] at horRaise
  refine hQ.bind horRaise fun k k' hk => hQ.bind (ht _ _ hk) ?_
  rintro ⟨f, p, q⟩ ⟨f', p', q'⟩ ⟨hspan, _, hform⟩
  have hraise := hQ.raise (A := fun x x' => x' = r x) hspan (fault (some f.kind))
  rw [hfault] at hraise
  cases hform with
  | reference x => exact hQ.pure rfl
  | _ => exact hraise

theorem checkCondition {k k' : NodeId} (hk : S k k') :
    Q Eq (checkCondition t k) (checkCondition u k') := by
  refine hQ.bind (ht _ _ hk) fun n n' hn => ?_
  have hkind : n'.kind = n.kind := hn.form.kind_eq
  rw [hkind]
  split
  · exact hQ.raise hn.span (.invalidCondition n.kind)
  · exact hQ.pure rfl

theorem checkBody {k k' : NodeId} (hk : S k k') : Q Eq (checkBody t k) (checkBody u k') := by
  refine hQ.bind (ht _ _ hk) fun n n' hn => ?_
  have hkind : n'.kind = n.kind := hn.form.kind_eq
  rw [hkind]
  split
  · exact hQ.raise hn.span (.invalidBody n.kind)
  · exact hQ.pure rfl

theorem loopParts (h : R s s') (kind : Kind) {c c' b b' : Option NodeId} (hc : Option.Rel S c c')
    (hb : Option.Rel S b b') :
    Q (fun p p' => S p.1 p'.1 ∧ S p.2 p'.2) (loopParts t s kind c b)
      (loopParts u s' kind c' b') :=
  hQ.bind (hQ.orRaise h hc (.missingCondition kind)) fun _ _ hk =>
    hQ.bind (hQ.orRaise h hb (.missingBody kind)) fun _ _ hl =>
      hQ.bind (hQ.checkCondition ht hk) fun _ _ _ =>
        hQ.bind (hQ.checkBody ht hl) fun _ _ _ => hQ.pure ⟨hk, hl⟩

theorem input (hread : Q Eq takeInteger takeInteger) (h : R s s') {k k' : Option NodeId}
    (hk : Option.Rel S k k') : Q Eq (input t s k) (input u s' k') := by
  refine hQ.bind (hQ.targetName ht h hk fun _ => rfl) ?_
  rintro x _ rfl
  refine hQ.bind hread ?_
  rintro v _ rfl
  refine hQ.bind (hQ.orRaise h (optionRel_self (fun _ => rfl) v) .inputFormat) ?_
  rintro v _ rfl
  exact hQ.assign x v

variable (hrun : ∀ k k', S k k' → Q Eq (run k) (run' k'))
include hrun

theorem assignment (h : R s s') {k k' l l' : Option NodeId} (hk : Option.Rel S k k')
    (hl : Option.Rel S l l') :
    Q Eq (assignment (fun k => do run k; Eval.register) t s k l)
      (assignment (fun k => do run' k; Eval.register) u s' k' l') := by
  refine hQ.bind (hQ.targetName ht h hk fun _ => rfl) ?_
  rintro x _ rfl
  refine hQ.bind (hQ.orRaise h hl (.missingOperand .assign)) fun l l' hl =>
    hQ.bind (hQ.value hrun l l' hl) ?_
  rintro v _ rfl
  exact hQ.assign x v

theorem ifElse (h : R s s') {c c' a a' b b' : Option NodeId} (hc : Option.Rel S c c')
    (ha : Option.Rel S a a') (hb : Option.Rel S b b') :
    Q Eq (ifElse (fun k => do run k; Eval.register) run t s c a b)
      (ifElse (fun k => do run' k; Eval.register) run' u s' c' a' b') := by
  refine hQ.bind (hQ.orRaise h hc (.missingCondition .ifElse)) fun k k' hk =>
    hQ.bind (hQ.checkCondition ht hk) fun _ _ _ => hQ.bind (hQ.value hrun k k' hk) ?_
  rintro v _ rfl
  split
  · exact hQ.bind (hQ.orRaise h ha .missingThenBranch) hrun
  · cases hb with
    | none => exact hQ.pure rfl
    | some hl => exact hrun _ _ hl

theorem whileLoop (h : R s s') (bound : Nat) {c c' b b' : Option NodeId}
    (hc : Option.Rel S c c') (hb : Option.Rel S b b') :
    Q Eq (whileLoop (fun k => do run k; Eval.register) run t bound s c b)
      (whileLoop (fun k => do run' k; Eval.register) run' u bound s' c' b') :=
  hQ.bind (hQ.loopParts ht h .whileLoop hc hb) fun _ _ hkl =>
    hQ.loop (hQ.value hrun _ _ hkl.1) (hrun _ _ hkl.2) bound

theorem forLoop (h : R s s') (bound : Nat) {i i' c c' a a' b b' : Option NodeId}
    (hi : Option.Rel S i i') (hc : Option.Rel S c c') (ha : Option.Rel S a a')
    (hb : Option.Rel S b b') :
    Q Eq (forLoop (fun k => do run k; Eval.register) run t bound s i c a b)
      (forLoop (fun k => do run' k; Eval.register) run' u bound s' i' c' a' b') :=
  hQ.bind (hQ.loopParts ht h .forLoop hc hb) fun _ _ hkl =>
    hQ.bind (hQ.optional hrun hi) fun _ _ _ =>
      hQ.loop (hQ.value hrun _ _ hkl.1)
        (hQ.bind (hrun _ _ hkl.2) fun _ _ _ => hQ.optional hrun ha) bound

section

variable {B : β → β' → Prop} {f : Unit → Eval β} {f' : Unit → Eval β'}
  (hwrite : ∀ text, Q B (write text >>= f) (write text >>= f'))
include hwrite

/-- What is printed is written last, together with what comes behind. -/
theorem print_bind (h : R s s') {k k' : Option NodeId} (hk : Option.Rel S k k') :
    Q B (Eval.print (fun k => do run k; Eval.register) t s k >>= f)
      (Eval.print (fun k => do run' k; Eval.register) u s' k' >>= f') := by
  simp only [Eval.print, bind_assoc]
  refine hQ.bind (hQ.orRaise h hk (.missingExpression .print)) fun k k' hk =>
    hQ.bind (ht _ _ hk) fun n n' hn => ?_
  have hkind : n'.kind = n.kind := hn.form.kind_eq
  rw [hkind]
  split
  · simp only [bind_assoc]
    refine hQ.bind (hrun k k' hk) fun _ _ _ => hQ.bind hQ.register ?_
    rintro v _ rfl
    exact hwrite _
  · rw [raise_bind, raise_bind]
    exact hQ.raise hn.span (.invalidExpression n.kind)

theorem step_bind (hf : Q B (f ()) (f' ())) (bound : Nat) {n n' : Node}
    (hn : n.Matches r R S n') (hread : n.kind = .input → Q Eq takeInteger takeInteger) :
    Q B (t.step bound run n >>= f) (u.step bound run' n' >>= f') := by
  obtain ⟨form, p, q⟩ := n
  obtain ⟨form', p', q'⟩ := n'
  obtain ⟨h, hparent, hform⟩ := hn
  have hthen : ∀ {x x' : Eval Unit}, Q Eq x x' → Q B (x >>= f) (x' >>= f') := fun hx =>
    hQ.bind hx fun _ _ _ => hf
  cases hform with
  | arithmetic op hk hl => exact hthen (hQ.arithmetic hrun h op hk hl)
  | logic op hk hl => exact hthen (hQ.logic hrun h op hk hl)
  | unary op hk => exact hthen (hQ.unary hrun h op hk)
  | scope hks => exact hthen (hQ.scope hrun hparent hks)
  | literal v => exact hthen (hQ.setRegister v)
  | print hk => exact hQ.print_bind ht hrun hwrite h hk
  | assign hk hl => exact hthen (hQ.assignment ht hrun h hk hl)
  | reference x =>
    refine hthen (hQ.bind (hQ.lookup h x) ?_)
    rintro v _ rfl
    exact hQ.setRegister v
  | declaration x hk => exact hthen (hQ.declaration hrun h x hk)
  | expression hk =>
    exact hthen (hQ.bind (hQ.orRaise h hk (.missingExpression .expression)) hrun)
  | ifElse hc ha hb => exact hthen (hQ.ifElse ht hrun h hc ha hb)
  | whileLoop hc hb => exact hthen (hQ.whileLoop ht hrun h bound hc hb)
  | forLoop hi hc hs hb => exact hthen (hQ.forLoop ht hrun h bound hi hc hs hb)
  | input hk => exact hthen (hQ.input ht (hread rfl) h hk)

end

theorem step (hwrite : ∀ text, Q Eq (write text) (write text)) (bound : Nat) {n n' : Node}
    (hn : n.Matches r R S n') (hread : n.kind = .input → Q Eq takeInteger takeInteger) :
    Q Eq (t.step bound run n) (u.step bound run' n') := by
  have hstep : Q Eq (t.step bound run n >>= Pure.pure) (u.step bound run' n' >>= Pure.pure) := by
    refine hQ.step_bind ht hrun ?_ (hQ.pure rfl) bound hn hread
    simpa only [bind_pure] using hwrite
  rwa [bind_pure, bind_pure] at hstep

omit hrun in
theorem exec (hwrite : ∀ text, Q Eq (write text) (write text))
    (hread : Q Eq takeInteger takeInteger) (bound : Nat) (k k' : NodeId) (hk : S k k') :
    Q Eq (t.exec bound k) (u.exec bound k') := by
  induction bound generalizing k k' with
  | zero => exact hQ.unbounded
  | succ bound ih =>
    exact hQ.bind (ht _ _ hk) fun _ _ hn => hQ.step ht ih hwrite bound hn fun _ => hread

end

section

variable (hQ : Congruence id Eq Q) (hthrow : ∀ e, Q (Node.Matches id Eq Eq) (throw e) (throw e))
include hQ hthrow

theorem node_self (t : Tree) (k k' : NodeId) (hk : k = k') :
    Q (Node.Matches id Eq Eq) (node t k) (node t k') := by
  have hself := fun k => optionRel_self Node.matches_self (t.get? k)
  exact hQ.node_of_get? hself (fun _ => hthrow _) k k' hk

theorem exec_self (hwrite : ∀ text, Q Eq (write text) (write text))
    (hread : Q Eq takeInteger takeInteger) (t : Tree) (bound : Nat) (k : NodeId) :
    Q Eq (t.exec bound k) (t.exec bound k) :=
  hQ.exec (hQ.node_self hthrow t) hwrite hread bound k k rfl

end

end Congruence

/-! ### Steps that leave the streams alone -/

section

variable {α : Type}

/-- The step does nothing to the streams, and does the same when they are others. -/
def Confined (x : Eval α) : Prop :=
  ∀ m reader sink, x { m with reader := reader, sink := sink } =
    (x m).map fun p => (p.1, { p.2 with reader := reader, sink := sink })

theorem confined_register : Confined register := fun _ _ _ => rfl

theorem confined_setRegister (v : Int64) : Confined (setRegister v) := fun _ _ _ => rfl

theorem confined_assign (x : String) (v : Int64) : Confined (assign x v) := fun _ _ _ => rfl

theorem confined_lookup (x : String) (span : Span) : Confined (lookup x span) := by
  intro m reader sink
  simp only [lookup, bind_apply, get_apply]
  cases m.scopes.lookup x <;> rfl

theorem confined_declare (x : String) (v : Int64) (span : Span) : Confined (declare x v span) := by
  intro m reader sink
  simp only [declare, bind_apply, get_apply]
  cases m.scopes.declare x v <;> rfl

theorem Confined.apply_eq {x : Eval α} (h : Confined x) {m m' : Machine} {r : Except Error α}
    (hr : x m = some (r, m')) (reader : Reader) (sink : Sink) :
    x { m with reader := reader, sink := sink } =
      some (r, { m' with reader := reader, sink := sink }) := by
  rw [h m reader sink, hr]
  rfl

theorem Confined.reader_eq {x : Eval α} (h : Confined x) {m m' : Machine} {r : Except Error α}
    (hr : x m = some (r, m')) : m'.reader = m.reader := by
  have hself := hr.symm.trans (h.apply_eq hr m.reader m.sink)
  have heq := congrArg Machine.reader (Prod.mk.inj (Option.some.inj hself)).2
  exact heq

theorem Confined.sink_eq {x : Eval α} (h : Confined x) {m m' : Machine} {r : Except Error α}
    (hr : x m = some (r, m')) : m'.sink = m.sink := by
  have hself := hr.symm.trans (h.apply_eq hr m.reader m.sink)
  have heq := congrArg Machine.sink (Prod.mk.inj (Option.some.inj hself)).2
  exact heq

end

/-- Of the steps that make up an evaluation it is only those on the streams, and scopes, of which a
relation has to be shown by itself, if what leaves the streams alone is related to itself. -/
structure StreamCongruence (Q : {α α' : Type} → (α → α' → Prop) → Eval α → Eval α' → Prop) :
    Prop where
  pure {α α' : Type} {A : α → α' → Prop} {a : α} {a' : α'} (h : A a a') : Q A (pure a) (pure a')
  bind {α α' β β' : Type} {A : α → α' → Prop} {B : β → β' → Prop} {x : Eval α} {x' : Eval α'}
    {f : α → Eval β} {f' : α' → Eval β'} (hx : Q A x x') (hf : ∀ a a', A a a' → Q B (f a) (f' a')) :
    Q B (x >>= f) (x' >>= f')
  unbounded {α α' : Type} {A : α → α' → Prop} : Q A unbounded unbounded
  throw {α α' : Type} {A : α → α' → Prop} (e : Error) : Q A (throw e) (throw e)
  confined {α : Type} {x : Eval α} (hx : Confined x) : Q Eq x x
  takeInteger : Q Eq takeInteger takeInteger
  inScope {α α' : Type} {A : α → α' → Prop} {x : Eval α} {x' : Eval α'} (hx : Q A x x') :
    Q A (inScope x) (inScope x')

namespace StreamCongruence

variable {Q : {α α' : Type} → (α → α' → Prop) → Eval α → Eval α' → Prop}
  (hQ : StreamCongruence Q)
include hQ

theorem congruence : Congruence id Eq Q where
  pure := hQ.pure
  bind := hQ.bind
  unbounded := hQ.unbounded
  raise := by
    rintro _ _ _ s _ rfl f
    rw [Fault.rename_id]
    exact hQ.throw _
  register := hQ.confined confined_register
  setRegister v := hQ.confined (confined_setRegister v)
  lookup := by
    rintro s _ rfl x
    exact hQ.confined (confined_lookup x s)
  assign x v := hQ.confined (confined_assign x v)
  declare := by
    rintro s _ rfl x v
    exact hQ.confined (confined_declare x v s)
  inScope := hQ.inScope

theorem node_self (t : Tree) (k k' : NodeId) (hk : k = k') :
    Q (Node.Matches id Eq Eq) (node t k) (node t k') :=
  hQ.congruence.node_self (fun e => hQ.throw e) t k k' hk

theorem exec (hwrite : ∀ text, Q Eq (write text) (write text)) (t : Tree) (bound : Nat)
    (k : NodeId) : Q Eq (t.exec bound k) (t.exec bound k) :=
  hQ.congruence.exec_self (fun e => hQ.throw e) hwrite hQ.takeInteger t bound k

end StreamCongruence

end Eval

end TeachLang
