import TeachLang.Proofs.Descent
import TeachLang.Proofs.EvalComplete

/-!
# Recursion ends

Evaluation is a recursion to the children but for the rounds of loops. So what has no loop in it
comes to an answer, on whatever machine, and all other recursions in a tree that is built end too.
-/

namespace TeachLang

/-! ### Steps that have an answer -/

namespace Eval

variable {α β : Type} {run : NodeId → Eval Unit} {k : NodeId}

def Answers (x : Eval α) : Prop := ∀ m, ∃ r m', x m = some (r, m')

theorem answers_pure (a : α) : Answers (pure a) := fun m => ⟨.ok a, m, rfl⟩

theorem answers_throw (e : Error) : Answers (throw e : Eval α) := fun m => ⟨.error e, m, rfl⟩

theorem answers_raise (fault : Fault) (span : Span) : Answers (raise fault span : Eval α) :=
  answers_throw _

theorem answers_register : Answers register := fun m => ⟨_, m, rfl⟩

theorem answers_setRegister (v : Int64) : Answers (setRegister v) := fun _ => ⟨_, _, rfl⟩

theorem answers_assign (x : String) (v : Int64) : Answers (assign x v) := fun _ => ⟨_, _, rfl⟩

theorem answers_takeInteger : Answers takeInteger := fun _ => ⟨_, _, rfl⟩

theorem answers_write (text : String) : Answers (write text) := fun _ => ⟨_, _, rfl⟩

theorem Answers.bind {x : Eval α} {f : α → Eval β} (hx : Answers x) (hf : ∀ a, Answers (f a)) :
    Answers (x >>= f) := by
  intro m
  obtain ⟨r, m₁, h⟩ := hx m
  rw [bind_apply, h]
  cases r with
  | ok a => exact hf a m₁
  | error e => exact ⟨.error e, m₁, rfl⟩

theorem answers_lookup (x : String) (span : Span) : Answers (lookup x span) := by
  refine Answers.bind (fun m => ⟨_, m, rfl⟩) fun m => ?_
  cases m.scopes.lookup x with
  | ok v => exact answers_pure v
  | error fault => exact answers_raise fault span

theorem answers_declare (x : String) (v : Int64) (span : Span) : Answers (declare x v span) := by
  refine Answers.bind (fun m => ⟨_, m, rfl⟩) fun m => ?_
  cases m.scopes.declare x v with
  | ok s => exact fun _ => ⟨_, _, rfl⟩
  | error fault => exact answers_raise fault span

theorem Answers.inScope {x : Eval α} (hx : Answers x) : Answers (inScope x) := by
  intro m
  obtain ⟨r, m₁, h⟩ := hx { m with scopes := m.scopes.push }
  exact ⟨r, _, inScope_eq_some.2 ⟨m₁, h, rfl⟩⟩

/-- What is asked for may be missing, and then the step ends at once. -/
theorem answers_orRaise {o : Option α} {f : α → Eval β} (h : ∀ a ∈ o, Answers (f a)) (fault : Fault)
    (span : Span) : Answers (orRaise o fault span >>= f) := by
  cases o with
  | none =>
    rw [orRaise, raise_bind]
    exact answers_raise fault span
  | some a => exact h a rfl

theorem answers_forM {ks : List NodeId} (h : ∀ k ∈ ks, Answers (run k)) :
    Answers (ks.forM run) := by
  induction ks with
  | nil => exact answers_pure ()
  | cons k ks ih =>
    exact (h k List.mem_cons_self).bind fun _ => ih fun l hl => h l (List.mem_cons_of_mem k hl)

theorem answers_node (t : Tree) (id : NodeId) : Answers (node t id) := by
  unfold node
  cases t.find id with
  | ok n => exact answers_pure n
  | error e => exact answers_throw _

theorem answers_targetName (t : Tree) (span : Span) (target : Option NodeId)
    (fault : Option Kind → Fault) : Answers (targetName t span target fault) := by
  refine answers_orRaise (fun k _ => (answers_node t k).bind fun n => ?_) _ span
  split
  · exact answers_pure _
  · exact answers_raise _ _

theorem answers_checkCondition (t : Tree) (k : NodeId) : Answers (checkCondition t k) := by
  refine (answers_node t k).bind fun n => ?_
  split
  · exact answers_raise _ _
  · exact answers_pure ()

/-! ### Forms other than loops -/

theorem answers_value (h : Answers (run k)) : Answers (do run k; register) :=
  h.bind fun _ => answers_register

theorem answers_arithmetic (span : Span) (op : ArithmeticOperator) {left right : Option NodeId}
    (hleft : ∀ k ∈ left, Answers (run k)) (hright : ∀ k ∈ right, Answers (run k)) :
    Answers (arithmetic (fun k => do run k; register) span op left right) := by
  refine answers_orRaise (fun k hk => answers_orRaise (fun l hl => ?_) _ span) _ span
  refine (answers_value (hleft k hk)).bind fun a => (answers_value (hright l hl)).bind fun b => ?_
  exact answers_orRaise (fun v _ => answers_setRegister v) _ span

theorem answers_logic (span : Span) (op : LogicOperator) {left right : Option NodeId}
    (hleft : ∀ k ∈ left, Answers (run k)) (hright : ∀ k ∈ right, Answers (run k)) :
    Answers (logic (fun k => do run k; register) span op left right) := by
  refine answers_orRaise (fun k hk => (answers_value (hleft k hk)).bind fun a => ?_) _ span
  cases op.settledBy a with
  | some v => exact answers_setRegister v
  | none =>
    refine answers_orRaise (fun l hl => (answers_value (hright l hl)).bind fun b => ?_) _ span
    exact answers_setRegister _

theorem answers_print (t : Tree) (span : Span) {expr : Option NodeId}
    (hexpr : ∀ k ∈ expr, Answers (run k)) :
    Answers (print (fun k => do run k; register) t span expr) := by
  refine answers_orRaise (fun k hk => (answers_node t k).bind fun n => ?_) _ span
  split
  · exact (answers_value (hexpr k hk)).bind fun v => answers_write _
  · exact answers_raise _ _

theorem answers_assignment (t : Tree) (span : Span) (target : Option NodeId) {rhs : Option NodeId}
    (hrhs : ∀ k ∈ rhs, Answers (run k)) :
    Answers (assignment (fun k => do run k; register) t span target rhs) := by
  refine (answers_targetName t span target _).bind fun x => answers_orRaise (fun k hk => ?_) _ span
  exact (answers_value (hrhs k hk)).bind fun v => answers_assign x v

theorem answers_declaration (span : Span) (x : String) {initializer : Option NodeId}
    (h : ∀ k ∈ initializer, Answers (run k)) :
    Answers (declaration (fun k => do run k; register) span x initializer) := by
  have hdeclare : ∀ v, Answers (do setRegister v; declare x v span) := fun v =>
    (answers_setRegister v).bind fun _ => answers_declare x v span
  cases initializer with
  | some k => exact (answers_value (h k rfl)).bind hdeclare
  | none => exact (answers_pure 0).bind hdeclare

theorem answers_input (t : Tree) (span : Span) (target : Option NodeId) :
    Answers (input t span target) := by
  refine (answers_targetName t span target _).bind fun x => answers_takeInteger.bind fun v => ?_
  exact answers_orRaise (fun v _ => answers_assign x v) _ span

theorem answers_scope (parent : Option NodeId) {ks : List NodeId}
    (h : ∀ k ∈ ks, Answers (run k)) : Answers (scope run parent ks) := by
  unfold scope
  split
  · exact answers_forM h
  · exact (answers_forM h).inScope

theorem answers_ifElse (t : Tree) (span : Span) {condition thenBranch elseBranch : Option NodeId}
    (hcondition : ∀ k ∈ condition, Answers (run k)) (hthen : ∀ k ∈ thenBranch, Answers (run k))
    (helse : ∀ k ∈ elseBranch, Answers (run k)) :
    Answers (ifElse (fun k => do run k; register) run t span condition thenBranch elseBranch) := by
  refine answers_orRaise (fun k hk => (answers_checkCondition t k).bind fun _ => ?_) _ span
  refine (answers_value (hcondition k hk)).bind fun v => ?_
  split
  · exact answers_orRaise hthen _ span
  · cases elseBranch with
    | some l => exact helse l rfl
    | none => exact answers_pure ()

end Eval

namespace Tree

open Eval

variable {t u : Tree} {id : NodeId} {n : Node} {ids : List NodeId} {bound : Nat} {m : Machine}

/-- Without loops, a node has an answer if its children have one. -/
theorem answers_step {run : NodeId → Eval Unit} (bound : Nat) (hwhile : n.kind ≠ .whileLoop)
    (hfor : n.kind ≠ .forLoop) (hchildren : ∀ c ∈ n.form.children, Answers (run c)) :
    Answers (t.step bound run n) := by
  obtain ⟨form, parent, span⟩ := n
  have hroles : ∀ r ∈ form.roles, ∀ c ∈ r.2, Answers (run c) := fun r hr c hc =>
    hchildren c (List.mem_filterMap.2 ⟨r, hr, hc⟩)
  cases form <;> simp only [Form.roles, List.forall_mem_cons] at hroles
  case arithmetic op left right => exact answers_arithmetic span op hroles.1 hroles.2.1
  case logic op left right => exact answers_logic span op hroles.1 hroles.2.1
  case unary op operand =>
    refine answers_orRaise (fun k hk => (answers_value (hroles.1 k hk)).bind fun v => ?_) _ span
    exact answers_setRegister _
  case scope ks =>
    refine answers_scope parent fun k hk => hroles (.statement, some k) ?_ k rfl
    exact List.mem_map_of_mem hk
  case literal v => exact answers_setRegister v
  case print expr => exact answers_print t span hroles.1
  case assign target rhs => exact answers_assignment t span target hroles.2.1
  case reference x => exact (answers_lookup x span).bind fun v => answers_setRegister v
  case declaration x initializer => exact answers_declaration span x hroles.1
  case expression expr => exact answers_orRaise hroles.1 _ span
  case ifElse condition thenBranch elseBranch =>
    exact answers_ifElse t span hroles.1 hroles.2.1 hroles.2.2.1
  case whileLoop => exact absurd rfl hwhile
  case forLoop => exact absurd rfl hfor
  case input target => exact answers_input t span target

def LoopFree (t : Tree) (id : NodeId) : Prop :=
  ∀ k n, t.Above id k → t.get? k = some n → n.kind ≠ .whileLoop ∧ n.kind ≠ .forLoop

theorem Forest.answers_exec (hf : Forest t) (h : t.preorder id = .ok ids)
    (hid : t.contains id = true) (hfree : t.LoopFree id) (hbound : ids.length ≤ bound) :
    Answers (t.exec bound id) := by
  refine hf.descend_lists (motive := fun bound id => t.LoopFree id → Answers (t.exec bound id))
    (fun bound id n hn hchildren hfree => ?_) h hid hbound hfree
  rw [exec_succ hn]
  obtain ⟨hwhile, hfor⟩ := hfree id n .refl hn
  refine answers_step bound hwhile hfor fun c hc => hchildren c hc fun k n' habove hn' => ?_
  have hparent : t.Above id c := .single (hf.parent?_of_mem hn hc)
  exact hfree k n' (hparent.trans habove) hn'

/-- However many levels more an evaluation may go down, its answer is the same. -/
theorem Forest.exec_unique (hf : Forest t) (hid : t.contains id = true) {bound' : Nat}
    {r r' : Except Error Unit} {m₁ m₁' : Machine} (h : t.exec bound id m = some (r, m₁))
    (h' : t.exec bound' id m = some (r', m₁')) : r = r' ∧ m₁ = m₁' :=
  (hf.follows bound id hid m r m₁ h).unique (hf.follows bound' id hid m r' m₁' h')

theorem Forest.exists_exec (hf : Forest t) (h : t.preorder id = .ok ids)
    (hid : t.contains id = true) (hfree : t.LoopFree id) (m : Machine) :
    ∃ r m', ∀ bound, ids.length ≤ bound → t.exec bound id m = some (r, m') := by
  obtain ⟨r, m', hleast⟩ := hf.answers_exec h hid hfree le_rfl m
  refine ⟨r, m', fun bound hbound => ?_⟩
  obtain ⟨r', m'', hexec⟩ := hf.answers_exec h hid hfree hbound m
  obtain ⟨rfl, rfl⟩ := hf.exec_unique hid hleast hexec
  exact hexec

theorem Forest.exists_evaluate (hf : Forest t) (h : t.preorder id = .ok ids)
    (hid : t.contains id = true) (hfree : t.LoopFree id) (m : Machine) :
    ∃ r m', ∀ bound, ids.length ≤ bound → t.evaluate bound id m = some (r, m') := by
  obtain ⟨r, m', hexec⟩ := hf.exists_exec h hid hfree m
  cases r with
  | ok _ =>
    exact ⟨.ok m'.register, m', fun bound hbound => evaluate_eq_ok.2 ⟨hexec bound hbound, rfl⟩⟩
  | error e => exact ⟨.error e, m', fun bound hbound => evaluate_eq_error.2 (hexec bound hbound)⟩

theorem Forest.exists_run (hf : Forest t) (hfree : ∀ root, t.root = some root → t.LoopFree root)
    (m : Machine) :
    ∃ r m', ∀ bound, t.reachable.length ≤ bound → t.run bound m = some (r, m') := by
  simp only [run_apply]
  cases hroot : t.root with
  | none => exact ⟨.ok (), m, fun _ _ => rfl⟩
  | some root =>
    have hid := (hf.root_parentless root hroot).1
    obtain ⟨ids, hpreorder, -⟩ := hf.exists_preorder hid
    obtain ⟨r, m', hexec⟩ := hf.exists_exec hpreorder hid (hfree root hroot) m
    rw [reachable_of_preorder hroot hpreorder]
    refine ⟨m'.sink.flush.bind fun _ => r, m', fun bound hbound => ?_⟩
    simp only [hexec bound hbound, Option.map_some]

theorem Lists.loopFree_iff (h : t.Lists id ids) : t.LoopFree id ↔
    ∀ k ∈ ids, ∀ n ∈ t.get? k, n.kind ≠ .whileLoop ∧ n.kind ≠ .forLoop := by
  simp only [h.mem_iff]
  exact ⟨fun hfree k habove n hn => hfree k n habove hn,
    fun hall k n habove hn => hall k habove n hn⟩

/-- Whatever operations a tree comes from, and in whatever order its nodes were attached: the search
for the topmost ancestor ends after fewer links than there are nodes. There is no infinite way down.
From a node that is there, to list, to visit, to compare and to copy what hangs from it each come to
a result, and go down no more levels than there are nodes below. Evaluation does so too where no
loop hangs from the node, whatever the machine it starts on and however it ends. -/
theorem recursion_ends (ht : Built t) :
    (∀ id, t.contains id = true → ∃ links, links < t.size ∧ t.Climbs links id (t.top id)) ∧
    (WellFounded fun c id => ∃ n, t.get? id = some n ∧ c ∈ n.form.children) ∧
    (∀ id, t.contains id = true → ∃ ids, t.Lists id ids ∧ ids.length ≤ t.size ∧
      (∀ bound, ids.length ≤ bound → t.preorderWithin bound id = .ok ids ∧
        (∀ u b, sameWithin t u bound id b = t.same? id u b) ∧
        Build.copyWithin t bound id = Build.copy t id) ∧
      (∀ {σ : Type} (v : Visitor σ), t.walk id v.visit = ids.forM fun k => t.accept k v.visit) ∧
      (∀ u, Built u → ∀ b, u.contains b = true → ∃ r, t.same? id u b = some r) ∧
      (∀ u, Built u → ∃ u', (Build.copy t id).run u = (.ok u.size, u')) ∧
      (t.LoopFree id → ∀ m, ∃ r m', ∀ bound, ids.length ≤ bound →
        t.evaluate bound id m = some (r, m'))) ∧
    (∀ root, t.root = some root → t.preorder root = .ok t.reachable) ∧
    ((∀ root, t.root = some root → t.LoopFree root) → ∀ m, ∃ r m', ∀ bound,
      t.reachable.length ≤ bound → t.run bound m = some (r, m')) := by
  have hf := ht.forest
  refine ⟨fun id hid => hf.exists_climbs hid, hf.wellFounded_children, fun id hid => ?_,
    fun root hroot => ?_, hf.exists_run⟩
  · obtain ⟨ids, h, hlists, hsize⟩ := hf.exists_lists hid
    refine ⟨ids, hlists, hsize, fun bound hbound => ⟨?_, ?_, ?_⟩, fun v => walk_eq_forM h,
      fun u hu b hb => hf.exists_same? hu.forest hid hb, fun u hu => ?_,
      hf.exists_evaluate h hid⟩
    · rw [hf.preorderWithin_eq h hid hbound, h]
    · exact hf.sameWithin_eq h hid hbound
    · exact hf.copyWithin_eq h hid hbound
    · obtain ⟨_, u', -, -, hrun, -⟩ := exists_imports hu.forest hf hid
      exact ⟨u', hrun⟩
  · obtain ⟨ids, h, -⟩ := hf.exists_preorder (hf.root_parentless root hroot).1
    rw [h, reachable_of_preorder hroot h]

/-- Every child comes behind its parent, and a loop stands by itself. The program divides by zero.
-/
theorem recursion_ends_of_quotient :
    let t := [Operation.add (.scope []), .setRoot 0, .add (.print none), .attach 0 .statement 1,
      .add (.arithmetic .div none none), .attach 1 .expr 2, .add (.literal 0),
      .attach 2 .right 3, .add (.literal 5), .attach 2 .left 4,
      .add (.whileLoop (some 0) none)].foldl Operation.apply {}
    Built t ∧ t.contains 4 = true ∧ t.size = 6 ∧ (∃ links, links < 6 ∧ t.Climbs links 4 0) ∧
      (∀ root, t.root = some root → t.LoopFree root) ∧
      ∀ bound, 5 ≤ bound →
        t.run bound {} = some (.error (.runtime ⟨.divisionByZero, none⟩), {}) := by
  intro t
  have ht : Built t := Built.empty.operateAll _ (by simp)
  have hid : t.contains 4 = true := by decide
  have hpreorder : t.preorder 0 = .ok [0, 1, 2, 4, 3] := by rfl
  have hreachable : t.reachable = [0, 1, 2, 4, 3] := reachable_of_preorder rfl hpreorder
  have hfree : ∀ root, t.root = some root → t.LoopFree root := by
    rintro _ ⟨⟩
    have hlists : t.Lists 0 t.reachable := ht.forest.lists_reachable rfl
    rw [hlists.loopFree_iff, hreachable]
    decide
  obtain ⟨hclimbs, -, -, -, hrun⟩ := recursion_ends ht
  obtain ⟨r, m', hrun⟩ := hrun hfree {}
  rw [hreachable] at hrun
  refine ⟨ht, hid, by decide, hclimbs 4 hid, hfree, fun bound hbound => ?_⟩
  have hfive : t.run 5 {} = some (.error (.runtime ⟨.divisionByZero, none⟩), {}) := by decide
  rw [hrun bound hbound, ← hrun 5 le_rfl, hfive]

end Tree

end TeachLang
