import TeachLang.Proofs.EvalSound

/-!
# What the rules derive is computed

A derivation is finite, so an evaluation with a large enough bound carries it out, and so does one
with any larger bound. With the converse, evaluation and the rules are the same.
-/

namespace TeachLang

open TeachLang.Tree Eval

def Settles {α : Type} (x : Nat → Eval α) (m : Machine) (r : Except Error α) (m' : Machine) :
    Prop :=
  ∃ least, ∀ bound, least ≤ bound → x bound m = some (r, m')

section

variable {α β : Type} {m m' m₁ : Machine}

theorem settles_of_eq {x : Nat → Eval α} {r : Except Error α}
    (h : ∀ bound, x bound m = some (r, m')) : Settles x m r m' :=
  ⟨0, fun bound _ => h bound⟩

theorem Settles.bind {x : Nat → Eval α} {f : Nat → α → Eval β} {a : α} {r : Except Error β}
    (hx : Settles x m (.ok a) m₁) (hf : Settles (fun bound => f bound a) m₁ r m') :
    Settles (fun bound => x bound >>= f bound) m r m' := by
  obtain ⟨least, hx⟩ := hx
  obtain ⟨least', hf⟩ := hf
  refine ⟨max least least', fun bound h => ?_⟩
  have hle := Nat.max_le.1 h
  exact bind_eq_some.2 (.inr ⟨a, m₁, hx bound hle.1, hf bound hle.2⟩)

theorem Settles.bind_error {x : Nat → Eval α} {f : Nat → α → Eval β} {e : Error}
    (hx : Settles x m (.error e) m') :
    Settles (fun bound => x bound >>= f bound) m (.error e) m' := by
  obtain ⟨least, hx⟩ := hx
  exact ⟨least, fun bound h => bind_eq_some.2 (.inl ⟨e, hx bound h, rfl⟩)⟩

theorem Settles.inScope {x : Nat → Eval α} {r : Except Error α} {s : Scopes}
    (hx : Settles x { m with scopes := m.scopes.push } r m₁) (hpop : m₁.scopes.pop = .ok s) :
    Settles (fun bound => inScope (x bound)) m r { m₁ with scopes := s } := by
  obtain ⟨least, hx⟩ := hx
  refine ⟨least, fun bound h => inScope_eq_some.2 ⟨m₁, hx bound h, ?_⟩⟩
  rw [hpop]
  rfl

/-- A loop that ends needs no more rounds. -/
theorem loop_mono {condition : Eval Int64} {round : Eval Unit} {c d : Nat} (hcd : c ≤ d)
    {r : Except Error Unit} (h : loop condition round c m = some (r, m')) :
    loop condition round d m = some (r, m') := by
  induction c generalizing m d with
  | zero => cases h
  | succ c ih =>
    obtain ⟨d, rfl⟩ := Nat.exists_eq_add_of_lt hcd
    rw [loop] at h ⊢
    rcases bind_eq_some.1 h with ⟨e, hc, rfl⟩ | ⟨v, m₁, hc, h⟩
    · exact bind_eq_some.2 (.inl ⟨e, hc, rfl⟩)
    · refine bind_eq_some.2 (.inr ⟨v, m₁, hc, ?_⟩)
      by_cases hv : v = 0
      · rw [if_neg (not_not.2 hv)] at h ⊢
        exact h
      · rw [if_pos hv] at h ⊢
        rcases bind_eq_some.1 h with ⟨e, hr, rfl⟩ | ⟨_, m₂, hr, h⟩
        · exact bind_eq_some.2 (.inl ⟨e, hr, rfl⟩)
        · exact bind_eq_some.2 (.inr ⟨_, m₂, hr, ih (Nat.le_add_right c d) h⟩)

theorem Settles.loop {condition : Nat → Eval Int64} {round : Nat → Eval Unit} {c : Nat}
    {r : Except Error Unit}
    (h : Settles (fun bound => Eval.loop (condition bound) (round bound) c) m r m') :
    Settles (fun bound => Eval.loop (condition bound) (round bound) bound) m r m' := by
  obtain ⟨least, h⟩ := h
  refine ⟨max least c, fun bound hbound => ?_⟩
  have hle := Nat.max_le.1 hbound
  exact loop_mono hle.2 (h bound hle.1)

end

section

variable {t : Tree} {id k : NodeId} {span : Span} {form : Form} {m m₁ m' : Machine}

theorem settles_of_bears {r : Except Error Unit} (h : t.Bears id span form)
    (hstep : Settles (fun bound => t.step bound (t.exec bound) ⟨form, t.parent? id, span⟩) m r m') :
    Settles (fun bound => t.exec bound id) m r m' := by
  obtain ⟨least, hstep⟩ := hstep
  refine ⟨least + 1, fun bound hbound => ?_⟩
  cases bound with
  | zero => exact absurd hbound (Nat.not_succ_le_zero least)
  | succ bound =>
    change t.exec (bound + 1) id m = _
    rw [exec_of_bears h]
    exact hstep bound (Nat.le_of_succ_le_succ hbound)

theorem Settles.value {f : Nat → Int64 → Eval Unit} {r : Except Error Unit}
    (hk : Settles (fun bound => t.exec bound k) m (.ok ()) m₁)
    (hf : Settles (fun bound => f bound m₁.register) m₁ r m') :
    Settles (fun bound => t.evaluate bound k >>= f bound) m r m' :=
  (hk.bind (f := fun _ _ => register) (settles_of_eq fun _ => rfl)).bind hf

theorem Settles.value_error {f : Nat → Int64 → Eval Unit} {e : Error}
    (hk : Settles (fun bound => t.exec bound k) m (.error e) m') :
    Settles (fun bound => t.evaluate bound k >>= f bound) m (.error e) m' :=
  (hk.bind_error (f := fun _ _ => register)).bind_error

variable {l : NodeId} {place place' : Span} {f g : Form} {r : Except Error Unit}

theorem settles_arithmetic {op : ArithmeticOperator}
    (h : t.Bears id span (.arithmetic op (some k) (some l)))
    (hs : Settles (fun bound => do
      let a ← t.evaluate bound k
      let b ← t.evaluate bound l
      setRegister (← orRaise (op.apply a b) .divisionByZero span)) m r m') :
    Settles (fun bound => t.exec bound id) m r m' := by
  refine settles_of_bears h ?_
  simp only [Tree.step, Eval.arithmetic, orRaise, pure_bind]
  exact hs

theorem settles_ifElse {thenBranch elseBranch : Option NodeId}
    (h : t.Bears id span (.ifElse (some k) thenBranch elseBranch)) (hf : t.Bears k place f)
    (hkind : f.kind.evaluable = true)
    (hs : Settles (fun bound => do
      if (← t.evaluate bound k) ≠ 0 then
        t.exec bound (← orRaise thenBranch .missingThenBranch span)
      else optional (t.exec bound) elseBranch) m r m') :
    Settles (fun bound => t.exec bound id) m r m' := by
  refine settles_of_bears h ?_
  simp only [Tree.step, Eval.ifElse, checkCondition_of_bears hf, if_pos hkind, orRaise, pure_bind]
  exact hs

theorem settles_whileLoop (h : t.Bears id span (.whileLoop (some k) (some l)))
    (hf : t.Bears k place f) (hkind : f.kind.evaluable = true) (hg : t.Bears l place' g)
    (hkind' : g.kind = .scope)
    (hs : Settles (fun bound => loop (t.evaluate bound k) (t.exec bound l) bound) m r m') :
    Settles (fun bound => t.exec bound id) m r m' := by
  refine settles_of_bears h ?_
  simp only [Tree.step, Eval.whileLoop, loopParts_of_bears hf, checkBody_of_bears hg, if_pos hkind,
    if_pos hkind', pure_bind]
  exact hs

theorem settles_forLoop {init step : Option NodeId}
    (h : t.Bears id span (.forLoop init (some k) step (some l))) (hf : t.Bears k place f)
    (hkind : f.kind.evaluable = true) (hg : t.Bears l place' g) (hkind' : g.kind = .scope)
    (hs : Settles (fun bound => do
      init.toList.forM (t.exec bound)
      loop (t.evaluate bound k) ((l :: step.toList).forM (t.exec bound)) bound) m r m') :
    Settles (fun bound => t.exec bound id) m r m' := by
  refine settles_of_bears h ?_
  simp only [Tree.step, Eval.forLoop, loopParts_of_bears hf, checkBody_of_bears hg, if_pos hkind,
    if_pos hkind', pure_bind, optional_eq]
  exact hs

end

/-- With every large enough bound, the evaluation of the task ends so. A loop needs but some number
of rounds, so that one may be put in front. -/
def Tree.Reaches (t : Tree) : Task → Machine → Except Error Unit → Machine → Prop
  | .node id => Settles fun bound => t.exec bound id
  | .sequence ids => Settles fun bound => ids.forM (t.exec bound)
  | .rounds k l step => fun m r m' => ∃ c, Settles (fun bound =>
      loop (t.evaluate bound k) ((l :: step.toList).forM (t.exec bound)) c) m r m'

theorem Evaluates.reaches {t : Tree} {task : Task} {m m' : Machine} {r : Except Error Unit}
    (h : Evaluates t task m r m') : t.Reaches task m r m' := by
  -- On the derivation: a bound that serves all premises serves the rule, one deeper for a node.
  induction h with
  | literal h => exact settles_of_bears h (settles_of_eq fun _ => rfl)
  | reference h hx =>
    refine settles_of_bears h (settles_of_eq fun _ => ?_)
    exact bind_eq_some.2 (.inr ⟨_, _, lookup_of_some hx _, rfl⟩)
  | undefined h hx =>
    refine settles_of_bears h (settles_of_eq fun _ => ?_)
    exact bind_eq_some.2 (.inl ⟨_, lookup_of_none hx _, rfl⟩)
  | unaryMissing h => exact settles_of_bears h (settles_of_eq fun _ => rfl)
  | unaryError h hk ih =>
    refine settles_of_bears h ?_
    simp only [Tree.step, Eval.unary, orRaise, pure_bind]
    exact ih.value_error
  | unary h hk ih =>
    refine settles_of_bears h ?_
    simp only [Tree.step, Eval.unary, orRaise, pure_bind]
    exact ih.value (settles_of_eq fun _ => rfl)
  | @arithmeticMissing id span op left right m h hmissing =>
    refine settles_of_bears h (settles_of_eq fun _ => ?_)
    rcases hmissing with rfl | rfl
    · rfl
    · cases left <;> rfl
  | arithmeticLeftError h hk ih =>
    exact settles_arithmetic h ih.value_error
  | arithmeticRightError h hk hl ihk ihl =>
    exact settles_arithmetic h (ihk.value ihl.value_error)
  | divisionByZero h hk hl hv ihk ihl =>
    refine settles_arithmetic h (ihk.value (ihl.value (settles_of_eq fun _ => ?_)))
    rw [hv]
    rfl
  | arithmetic h hk hl hv ihk ihl =>
    refine settles_arithmetic h (ihk.value (ihl.value (settles_of_eq fun _ => ?_)))
    rw [hv]
    rfl
  | logicLeftMissing h => exact settles_of_bears h (settles_of_eq fun _ => rfl)
  | logicLeftError h hk ih =>
    refine settles_of_bears h ?_
    simp only [Tree.step, Eval.logic, orRaise, pure_bind]
    exact ih.value_error
  | andFalse h hk hv ih =>
    refine settles_of_bears h ?_
    simp only [Tree.step, Eval.logic, orRaise, pure_bind]
    refine ih.value (settles_of_eq fun _ => ?_)
    rw [hv]
    rfl
  | orTrue h hk hv ih =>
    refine settles_of_bears h ?_
    simp only [Tree.step, Eval.logic, orRaise, pure_bind]
    refine ih.value (settles_of_eq fun _ => ?_)
    rw [LogicOperator.settledBy, if_neg hv]
    rfl
  | logicRightMissing h hk hneeds ih =>
    refine settles_of_bears h ?_
    simp only [Tree.step, Eval.logic, orRaise, pure_bind]
    refine ih.value (settles_of_eq fun _ => ?_)
    rw [hneeds.settledBy_eq]
    rfl
  | logicRightError h hk hneeds hl ihk ihl =>
    refine settles_of_bears h ?_
    simp only [Tree.step, Eval.logic, orRaise, pure_bind]
    refine ihk.value ?_
    simp only [hneeds.settledBy_eq]
    exact ihl.value_error
  | logic h hk hneeds hl ihk ihl =>
    refine settles_of_bears h ?_
    simp only [Tree.step, Eval.logic, orRaise, pure_bind]
    refine ihk.value ?_
    simp only [hneeds.settledBy_eq]
    exact ihl.value (settles_of_eq fun _ => rfl)
  | expressionMissing h => exact settles_of_bears h (settles_of_eq fun _ => rfl)
  | expression h hk ih =>
    refine settles_of_bears h ?_
    simp only [Tree.step, orRaise, pure_bind]
    exact ih
  | printMissing h => exact settles_of_bears h (settles_of_eq fun _ => rfl)
  | printInvalid h hf hkind =>
    refine settles_of_bears h (settles_of_eq fun _ => ?_)
    simp only [Tree.step, print_of_bears hf, hkind]
    rfl
  | printError h hf hkind hk ih =>
    refine settles_of_bears h ?_
    simp only [Tree.step, print_of_bears hf, if_pos hkind]
    exact ih.value_error
  | print h hf hkind hk hwrite ih =>
    refine settles_of_bears h ?_
    simp only [Tree.step, print_of_bears hf, if_pos hkind]
    refine ih.value (settles_of_eq fun _ => ?_)
    simp only [write_apply, hwrite]
  | assignTargetMissing h => exact settles_of_bears h (settles_of_eq fun _ => rfl)
  | assignTargetInvalid h hf hkind =>
    refine settles_of_bears h (settles_of_eq fun _ => ?_)
    simp only [Tree.step, assignment, targetName_of_bears hf hkind]
    rfl
  | assignValueMissing h hk =>
    refine settles_of_bears h (settles_of_eq fun _ => ?_)
    simp only [Tree.step, assignment, targetName_of_reference hk, pure_bind]
    rfl
  | assignError h hk hl ih =>
    refine settles_of_bears h ?_
    simp only [Tree.step, assignment, targetName_of_reference hk, orRaise, pure_bind]
    exact ih.value_error
  | assign h hk hl hs ih =>
    refine settles_of_bears h ?_
    simp only [Tree.step, assignment, targetName_of_reference hk, orRaise, pure_bind]
    refine ih.value (settles_of_eq fun _ => ?_)
    rw [Scopes.assigns_iff.1 hs]
    rfl
  | declarationError h hk ih =>
    refine settles_of_bears h ?_
    simp only [Tree.step, Eval.declaration]
    exact ih.value_error
  | declaration h hk hx ih =>
    refine settles_of_bears h ?_
    simp only [Tree.step, Eval.declaration]
    exact ih.value (settles_of_eq fun _ => setRegister_declare_of_not_has hx _ _)
  | duplicate h hk hx ih =>
    refine settles_of_bears h ?_
    simp only [Tree.step, Eval.declaration]
    exact ih.value (settles_of_eq fun _ => setRegister_declare_of_has hx _ _)
  | zeroDeclaration h hx =>
    exact settles_of_bears h (settles_of_eq fun _ => setRegister_declare_of_not_has hx _ _)
  | zeroDuplicate h hx =>
    exact settles_of_bears h (settles_of_eq fun _ => setRegister_declare_of_has hx _ _)
  | inputTargetMissing h => exact settles_of_bears h (settles_of_eq fun _ => rfl)
  | inputTargetInvalid h hf hkind =>
    refine settles_of_bears h (settles_of_eq fun _ => ?_)
    simp only [Tree.step, Eval.input, targetName_of_bears hf hkind]
    rfl
  | inputError h hk hread =>
    refine settles_of_bears h (settles_of_eq fun _ => ?_)
    simp only [Tree.step, Eval.input, targetName_of_reference hk, pure_bind, bind_apply,
      takeInteger_apply, hread]
  | inputFormat h hk hread =>
    refine settles_of_bears h (settles_of_eq fun _ => ?_)
    simp only [Tree.step, Eval.input, targetName_of_reference hk, pure_bind, bind_apply,
      takeInteger_apply, hread]
    rfl
  | input h hk hread hs =>
    refine settles_of_bears h (settles_of_eq fun _ => ?_)
    simp only [Tree.step, Eval.input, targetName_of_reference hk, pure_bind, bind_apply,
      takeInteger_apply, hread]
    rw [Scopes.assigns_iff.1 hs]
    rfl
  | ifConditionMissing h => exact settles_of_bears h (settles_of_eq fun _ => rfl)
  | ifConditionInvalid h hf hkind =>
    refine settles_of_bears h (settles_of_eq fun _ => ?_)
    simp only [Tree.step, Eval.ifElse, orRaise, pure_bind, checkCondition_of_bears hf, hkind]
    rfl
  | ifConditionError h hf hkind hk ih =>
    exact settles_ifElse h hf hkind ih.value_error
  | thenMissing h hf hkind hk hv ih =>
    refine settles_ifElse h hf hkind (ih.value (settles_of_eq fun _ => ?_))
    rw [if_pos hv]
    rfl
  | ifThen h hf hkind hk hv hl ihk ihl =>
    refine settles_ifElse h hf hkind (ihk.value ?_)
    simp only [if_pos hv]
    exact ihl
  | elseMissing h hf hkind hk hv ih =>
    refine settles_ifElse h hf hkind (ih.value (settles_of_eq fun _ => ?_))
    rw [if_neg (not_not.2 hv)]
    rfl
  | ifElse h hf hkind hk hv hl ihk ihl =>
    refine settles_ifElse h hf hkind (ihk.value ?_)
    simp only [if_neg (not_not.2 hv)]
    exact ihl
  | whileConditionMissing h => exact settles_of_bears h (settles_of_eq fun _ => rfl)
  | whileBodyMissing h => exact settles_of_bears h (settles_of_eq fun _ => rfl)
  | whileConditionInvalid h hf hkind =>
    refine settles_of_bears h (settles_of_eq fun _ => ?_)
    simp only [Tree.step, Eval.whileLoop, loopParts_of_bears hf, hkind]
    rfl
  | whileBodyInvalid h hf hkind hg hkind' =>
    refine settles_of_bears h (settles_of_eq fun _ => ?_)
    simp only [Tree.step, Eval.whileLoop, loopParts_of_bears hf, checkBody_of_bears hg,
      if_pos hkind, if_neg hkind']
    rfl
  | whileLoop h hf hkind hg hkind' hr ih =>
    obtain ⟨c, ih⟩ := ih
    simp only [Option.toList_none, forM_singleton] at ih
    exact settles_whileLoop h hf hkind hg hkind' ih.loop
  | forConditionMissing h => exact settles_of_bears h (settles_of_eq fun _ => rfl)
  | forBodyMissing h => exact settles_of_bears h (settles_of_eq fun _ => rfl)
  | forConditionInvalid h hf hkind =>
    refine settles_of_bears h (settles_of_eq fun _ => ?_)
    simp only [Tree.step, Eval.forLoop, loopParts_of_bears hf, hkind]
    rfl
  | forBodyInvalid h hf hkind hg hkind' =>
    refine settles_of_bears h (settles_of_eq fun _ => ?_)
    simp only [Tree.step, Eval.forLoop, loopParts_of_bears hf, checkBody_of_bears hg,
      if_pos hkind, if_neg hkind']
    rfl
  | forInitError h hf hkind hg hkind' hi ih =>
    exact settles_forLoop h hf hkind hg hkind' ih.bind_error
  | forLoop h hf hkind hg hkind' hi hr ihi ihr =>
    obtain ⟨c, ihr⟩ := ihr
    exact settles_forLoop h hf hkind hg hkind' (ihi.bind ihr.loop)
  | scope h hparent hs ih =>
    refine settles_of_bears h ?_
    simp only [Tree.step, Eval.scope, hparent]
    exact ih
  | innerScope h hparent hs hpop ih =>
    refine settles_of_bears h ?_
    simp only [Tree.step, Eval.scope, hparent]
    exact ih.inScope hpop
  | nil => exact settles_of_eq fun _ => rfl
  | consError hk ih => exact ih.bind_error
  | cons hk hs ihk ihs => exact ihk.bind ihs
  | roundsConditionError hk ih => exact ⟨1, ih.value_error⟩
  | roundsEnd hk hv ih =>
    refine ⟨1, ih.value (settles_of_eq fun _ => ?_)⟩
    rw [if_neg (not_not.2 hv)]
    rfl
  | roundsError hk hv hs ihk ihs =>
    refine ⟨1, ihk.value ?_⟩
    simp only [if_pos hv]
    exact ihs.bind_error
  | roundsAgain hk hv hs hr ihk ihs ihr =>
    obtain ⟨c, ihr⟩ := ihr
    refine ⟨c + 1, ihk.value ?_⟩
    simp only [if_pos hv]
    exact ihs.bind ihr

/-- However a task ends, it ends so each time. -/
theorem Evaluates.unique {t : Tree} {id : NodeId} {m m' m'' : Machine} {r r' : Except Error Unit}
    (h : Evaluates t (.node id) m r m') (h' : Evaluates t (.node id) m r' m'') :
    r = r' ∧ m' = m'' := by
  obtain ⟨least, h⟩ := h.reaches
  obtain ⟨least', h'⟩ := h'.reaches
  have heq := h (max least least') (Nat.le_max_left _ _)
  rw [h' (max least least') (Nat.le_max_right _ _)] at heq
  cases heq
  exact ⟨rfl, rfl⟩

namespace Tree

variable {t : Tree} {id : NodeId} {m m' : Machine}

theorem exec_iff (hf : Forest t) (hid : t.contains id = true) {r : Except Error Unit} :
    (∃ bound, t.exec bound id m = some (r, m')) ↔ Evaluates t (.node id) m r m' := by
  constructor
  · rintro ⟨bound, h⟩
    exact hf.follows bound id hid m r m' h
  · intro h
    obtain ⟨least, h⟩ := h.reaches
    exact ⟨least, h least (Nat.le_refl least)⟩

theorem evaluate_eq_ok {bound : Nat} {v : Int64} :
    t.evaluate bound id m = some (.ok v, m') ↔
      t.exec bound id m = some (.ok (), m') ∧ v = m'.register := by
  rw [evaluate, bind_eq_some]
  constructor
  · rintro (⟨e, _, h⟩ | ⟨_, m₁, h, hv⟩)
    · cases h
    · cases hv
      exact ⟨h, rfl⟩
  · rintro ⟨h, rfl⟩
    exact .inr ⟨(), m', h, rfl⟩

theorem evaluate_eq_error {bound : Nat} {e : Error} :
    t.evaluate bound id m = some (.error e, m') ↔ t.exec bound id m = some (.error e, m') := by
  rw [evaluate, bind_eq_some]
  constructor
  · rintro (⟨e, h, he⟩ | ⟨_, m₁, _, h⟩)
    · cases he
      exact h
    · cases h
  · intro h
    exact .inl ⟨e, h, rfl⟩

/-- The evaluation of a node ends exactly as the rules say, from whatever machine. -/
theorem evaluate_iff (ht : Built t) (hid : t.contains id = true) (m m' : Machine) :
    (∀ v, (∃ bound, t.evaluate bound id m = some (.ok v, m')) ↔
      Evaluates t (.node id) m (.ok ()) m' ∧ v = m'.register) ∧
    ∀ e, (∃ bound, t.evaluate bound id m = some (.error e, m')) ↔
      Evaluates t (.node id) m (.error e) m' := by
  constructor
  · intro v
    rw [← exec_iff ht.forest hid]
    simp only [evaluate_eq_ok, exists_and_right]
  · intro e
    rw [← exec_iff ht.forest hid]
    simp only [evaluate_eq_error]

/-- A scope stands where an operand is expected, and its variable is gone with it. -/
theorem evaluate_iff_of_scope_operand :
    let t := [Operation.add (.reference "x"), .add (.literal 0), .add (.assign (some 0) (some 1)),
      .add (.scope [2]), .add (.unary .not (some 3))].foldl Operation.apply {}
    Built t ∧ t.contains 4 = true ∧ Evaluates t (.node 4) {} (.ok ()) { register := 1 } := by
  intro t
  have hbuilt : Built t := Built.empty.operateAll _ (by simp)
  have hid : t.contains 4 = true := by decide
  have hrun : t.evaluate 5 4 {} = some (.ok 1, { register := 1 }) := by decide
  exact ⟨hbuilt, hid, (((evaluate_iff hbuilt hid _ _).1 1).1 ⟨5, hrun⟩).1⟩

end Tree

end TeachLang
