import TeachLang.Proofs.ScopeNames

/-!
# What an evaluation leaves alone

Only assignments, inputs and declarations bind names. A name that none of them binds at a node and
below it has in each scope the binding, or the lack of one, that it had before the node was
evaluated. A declaration at the head of a block takes its name out of reach: whatever the rest of
the block does to that name, it does to the declared variable or to one further in.
-/

namespace TeachLang

open TeachLang.Tree

namespace Scopes

/-- The bindings of a name, from the innermost scope to the global one. -/
def column (s : Scopes) (x : String) : List (Option Int64) := s.frames.map (·.get? x)

variable {s s' : Scopes} {x y : String} {v : Int64}

theorem column_set_inner (h : y ≠ x) :
    ({ s with inner := s.inner.set y v } : Scopes).column x = s.column x := by
  simp [column, frames, Frame.get?_set, h]

theorem Assigns.column_eq (h : s.Assigns y v s') (hxy : y ≠ x) : s'.column x = s.column x := by
  cases h with
  | nearest hs hbefore hf hs' => simp [column, hs, hs', Frame.get?_set, hxy]
  | create h => exact column_set_inner hxy

theorem column_push (s : Scopes) (x : String) : s.push.column x = none :: s.column x := rfl

theorem column_pop (h : s.pop = .ok s') : s.column x = s.inner.get? x :: s'.column x := by
  obtain ⟨inner, _ | ⟨f, fs⟩⟩ := s
  · cases h
  · cases h
    rfl

end Scopes

inductive Tree.Binds (t : Tree) (id : NodeId) (x : String) : Prop
  | assign {span place : Span} {k : NodeId} {value : Option NodeId}
      (h : t.Bears id span (.assign (some k) value)) (hk : t.Bears k place (.reference x))
  | input {span place : Span} {k : NodeId} (h : t.Bears id span (.input (some k)))
      (hk : t.Bears k place (.reference x))
  | declaration {span : Span} {initializer : Option NodeId}
      (h : t.Bears id span (.declaration x initializer))

def Tree.boundName? (t : Tree) (id : NodeId) : Option String :=
  match (t.get? id).map Node.form with
  | some (.declaration x _) => some x
  | some (.assign (some k) _) | some (.input (some k)) =>
    match (t.get? k).map Node.form with
    | some (.reference x) => some x
    | _ => none
  | _ => none

theorem Tree.binds_iff {t : Tree} {id : NodeId} {x : String} :
    t.Binds id x ↔ t.boundName? id = some x := by
  constructor
  · intro h
    cases h with
    | assign h hk | input h hk =>
      obtain ⟨n, hn, hform, -⟩ := h
      obtain ⟨n', hn', hform', -⟩ := hk
      simp [boundName?, hn, hform, hn', hform']
    | declaration h =>
      obtain ⟨n, hn, hform, -⟩ := h
      simp [boundName?, hn, hform]
  · intro h
    unfold boundName? at h
    split at h
    · next y i hget =>
      cases h
      obtain ⟨n, hn, hform⟩ := Option.map_eq_some_iff.1 hget
      exact .declaration ⟨n, hn, hform, rfl⟩
    · next k v hget =>
      obtain ⟨n, hn, hform⟩ := Option.map_eq_some_iff.1 hget
      split at h
      · next y hget' =>
        cases h
        obtain ⟨n', hn', hform'⟩ := Option.map_eq_some_iff.1 hget'
        exact .assign ⟨n, hn, hform, rfl⟩ ⟨n', hn', hform', rfl⟩
      · cases h
    · next k hget =>
      obtain ⟨n, hn, hform⟩ := Option.map_eq_some_iff.1 hget
      split at h
      · next y hget' =>
        cases h
        obtain ⟨n', hn', hform'⟩ := Option.map_eq_some_iff.1 hget'
        exact .input ⟨n, hn, hform, rfl⟩ ⟨n', hn', hform', rfl⟩
      · cases h
    · cases h

def Task.Within (P : NodeId → Prop) : Task → Prop
  | node id => P id
  | sequence ids => ∀ id ∈ ids, P id
  | rounds condition body step => P condition ∧ ∀ id ∈ body :: step.toList, P id

variable {t : Tree} {m m' : Machine} {r : Except Error Unit} {x : String}

theorem Form.mem_children_forLoop {init step : Option NodeId} {c b k : NodeId} :
    k ∈ (forLoop init (some c) step (some b)).children ↔
      k ∈ init.toList ∨ k = c ∨ k ∈ step.toList ∨ k = b := by
  cases init <;> cases step <;> simp [children, roles]

/-- Where no node binds the name, no task changes a binding of it. -/
theorem Evaluates.column_eq {P : NodeId → Prop} {task : Task}
    (hdown : ∀ {id k : NodeId} {span : Span} {f : Form}, P id → t.Bears id span f →
      k ∈ f.children → P k)
    (hfree : ∀ id y, P id → t.Binds id y → y ≠ x) (h : Evaluates t task m r m')
    (hP : task.Within P) : m'.scopes.column x = m.scopes.column x := by
  induction h with
  | assign h hk hl hs ih =>
    have hcolumn := ih (hdown hP h (by simp [Form.children, Form.roles]))
    exact (hs.column_eq (hfree _ _ hP (.assign h hk))).trans hcolumn
  | input h hk hread hs => exact hs.column_eq (hfree _ _ hP (.input h hk))
  | declaration h hk hx ih =>
    have hcolumn := ih (hdown hP h (by simp [Form.children, Form.roles]))
    exact (Scopes.column_set_inner (hfree _ _ hP (.declaration h))).trans hcolumn
  | zeroDeclaration h hx => exact Scopes.column_set_inner (hfree _ _ hP (.declaration h))
  | innerScope h hparent hs hpop ih =>
    have hcolumn := ih fun k hk => hdown hP h (by simpa [Form.children, Form.roles] using hk)
    rw [Scopes.column_pop hpop, Scopes.column_push] at hcolumn
    exact (List.cons.inj hcolumn).2
  | scope h hparent hs ih =>
    exact ih fun k hk => hdown hP h (by simpa [Form.children, Form.roles] using hk)
  | unaryError h hk ih | unary h hk ih | arithmeticLeftError h hk ih | logicLeftError h hk ih
  | andFalse h hk hv ih | orTrue h hk hv ih | logicRightMissing h hk hneeds ih
  | expression h hk ih | printError h hf hkind hk ih | print h hf hkind hk hwrite ih
  | assignError h hk hl ih | declarationError h hk ih | duplicate h hk hx ih
  | ifConditionError h hf hkind hk ih | thenMissing h hf hkind hk hv ih
  | elseMissing h hf hkind hk hv ih =>
    exact ih (hdown hP h (by simp [Form.children, Form.roles]))
  | arithmeticRightError h hk hl ihk ihl | divisionByZero h hk hl hv ihk ihl
  | arithmetic h hk hl hv ihk ihl | logicRightError h hk hneeds hl ihk ihl
  | logic h hk hneeds hl ihk ihl | ifThen h hf hkind hk hv hl ihk ihl
  | ifElse h hf hkind hk hv hl ihk ihl =>
    have hcolumn := ihk (hdown hP h (by simp [Form.children, Form.roles]))
    exact (ihl (hdown hP h (by simp [Form.children, Form.roles]))).trans hcolumn
  | whileLoop h hf hkind hg hkind' hr ih =>
    have hchild := fun k => hdown hP h (k := k)
    exact ih ⟨hchild _ (by simp [Form.children, Form.roles]),
      fun k hk => hchild k (by simp_all [Form.children, Form.roles])⟩
  | forInitError h hf hkind hg hkind' hi ih =>
    exact ih fun k hk => hdown hP h (Form.mem_children_forLoop.2 (.inl hk))
  | forLoop h hf hkind hg hkind' hi hr ihi ihr =>
    have hchild := fun k hk => hdown hP h (k := k) (Form.mem_children_forLoop.2 hk)
    have hcolumn := ihi fun k hk => hchild k (.inl hk)
    refine (ihr ⟨hchild _ (.inr (.inl rfl)), ?_⟩).trans hcolumn
    exact List.forall_mem_cons.2 ⟨hchild _ (.inr (.inr (.inr rfl))),
      fun k hk => hchild k (.inr (.inr (.inl hk)))⟩
  | cons hk hs ihk ihs =>
    have hall := List.forall_mem_cons.1 hP
    exact (ihs hall.2).trans (ihk hall.1)
  | consError hk ih => exact ih (List.forall_mem_cons.1 hP).1
  | roundsConditionError hk ih | roundsEnd hk hv ih => exact ih hP.1
  | roundsError hk hv hs ihk ihs => exact (ihs hP.2).trans (ihk hP.1)
  | roundsAgain hk hv hs hr ihk ihs ihr => exact (ihr hP).trans ((ihs hP.2).trans (ihk hP.1))
  | _ => rfl

/-! ### Behind a binding -/

/-- Whatever has changed, it is the nearest binding of a name or nearer: bindings may be new where
there was none, but those behind the nearest are the same. -/
inductive Shielded : List (Option Int64) → List (Option Int64) → Prop
  | nil : Shielded [] []
  | bound (v w : Int64) (behind : List (Option Int64)) :
      Shielded (some v :: behind) (some w :: behind)
  | free (o : Option Int64) {c c' : List (Option Int64)} (h : Shielded c c') :
      Shielded (none :: c) (o :: c')

namespace Shielded

variable {c c' c'' : List (Option Int64)}

theorem refl (c : List (Option Int64)) : Shielded c c := by
  induction c with
  | nil => exact .nil
  | cons o c ih =>
    cases o with
    | none => exact .free none ih
    | some v => exact .bound v v c

theorem trans (h : Shielded c c') (h' : Shielded c' c'') : Shielded c c'' := by
  induction h generalizing c'' with
  | nil => exact h'
  | bound v w behind =>
    cases h' with
    | bound _ u => exact .bound v u behind
  | free o h ih =>
    cases h' with
    | bound _ u => exact .free (some u) h
    | free o' h' => exact .free o' (ih h')

theorem length_eq (h : Shielded c c') : c'.length = c.length := by
  induction h with
  | nil | bound => rfl
  | free o h ih => exact congrArg (· + 1) ih

theorem update? {x : String} {v : Int64} {fs gs : List Frame}
    (h : Scopes.update? x v fs = some gs) : Shielded (fs.map (·.get? x)) (gs.map (·.get? x)) := by
  induction fs generalizing gs with
  | nil => cases h
  | cons f fs ih =>
    unfold Scopes.update? at h
    by_cases hf : f.has x = true
    · rw [if_pos hf] at h
      cases h
      obtain ⟨w, hw⟩ := Option.isSome_iff_exists.1 hf
      simp only [List.map_cons, hw, Frame.get?_set, if_true]
      exact .bound w v _
    · rw [if_neg hf] at h
      obtain ⟨gs, hgs, rfl⟩ := Option.map_eq_some_iff.1 h
      rw [Bool.not_eq_true, Frame.has, Option.isSome_eq_false_iff, Option.isNone_iff_eq_none] at hf
      simp only [List.map_cons, hf]
      exact .free none (ih hgs)

end Shielded

namespace Scopes

theorem shielded_set_inner (s : Scopes) (x y : String) (v : Int64) :
    Shielded (s.column x) (column { s with inner := s.inner.set y v } x) := by
  by_cases hy : y = x
  · subst hy
    simp only [column, frames, List.map_cons, Frame.get?_set, if_true]
    cases s.inner.get? y with
    | none => exact .free (some v) (.refl _)
    | some w => exact .bound w v _
  · rw [column_set_inner hy]
    exact .refl _

theorem shielded_assign (s : Scopes) (x y : String) (v : Int64) :
    Shielded (s.column x) ((s.assign y v).column x) := by
  by_cases hy : y = x
  · subst hy
    rw [column, column, frames_assign]
    cases hu : Scopes.update? y v s.frames with
    | none => exact s.shielded_set_inner y y v
    | some gs => exact .update? hu
  · have hassigns : s.Assigns y v (s.assign y v) := assigns_iff.2 rfl
    rw [hassigns.column_eq hy]
    exact .refl _

theorem shielded_declare {s s' : Scopes} {x y : String} {v : Int64} (h : s.declare y v = .ok s') :
    Shielded (s.column x) (s'.column x) := by
  unfold declare at h
  split at h
  · cases h
  · cases h
    exact s.shielded_set_inner x y v

end Scopes

namespace Eval

theorem maintained_shielded (x : String) :
    Maintained fun m m' => Shielded (m.scopes.column x) (m'.scopes.column x) where
  refl m := .refl _
  trans h h' := h.trans h'
  register m _ := .refl _
  assign m y v := m.scopes.shielded_assign x y v
  declare _ _ _ _ h := Scopes.shielded_declare h
  reader m := .refl _
  sink m _ := .refl _
  scope {m m₁} h := by
    obtain ⟨⟨inner, _ | ⟨f, fs⟩⟩, register, reader, sink⟩ := m₁
    · rw [Scopes.column_push] at h
      cases h.length_eq
    · cases h with
      | free o h => exact h

/-- After a declaration that has not failed the innermost scope has a binding of the name. -/
theorem column_of_declaration {t : Tree} {b : Nat} {span : Span} {x : String}
    {initializer : Option NodeId} {m m' : Machine} {r : Except Error Unit}
    (hinit : ∀ l ∈ initializer, ∀ r m', t.exec b l m = some (r, m') →
      m'.scopes.column x = m.scopes.column x)
    (h : declaration (t.evaluate b) span x initializer m = some (r, m')) :
    ∃ o, m'.scopes.column x = o :: (m.scopes.column x).tail ∧ (r = .ok () → o.isSome = true) := by
  -- What the initializer leaves, and the declaration after it.
  obtain ⟨m₁, hcolumn, h⟩ : ∃ m₁, m₁.scopes.column x = m.scopes.column x ∧
      ((∃ e, r = .error e ∧ m' = m₁) ∨
        ∃ v, (do setRegister v; declare x v span) m₁ = some (r, m')) := by
    cases initializer with
    | none =>
      rw [declaration, pure_bind] at h
      exact ⟨m, rfl, .inr ⟨0, h⟩⟩
    | some l =>
      rcases bind_eq_some.1 h with ⟨e, he, rfl⟩ | ⟨v, m₁, hv, h⟩
      · exact ⟨m', hinit l rfl _ _ (Tree.evaluate_eq_error.1 he), .inl ⟨e, rfl, rfl⟩⟩
      · exact ⟨m₁, hinit l rfl _ _ (Tree.evaluate_eq_ok.1 hv).1, .inr ⟨v, h⟩⟩
  rw [← hcolumn]
  rcases h with ⟨e, rfl, rfl⟩ | ⟨v, h⟩
  · exact ⟨m'.scopes.inner.get? x, rfl, nofun⟩
  · by_cases hx : m₁.scopes.inner.has x = true
    · rw [setRegister_declare_of_has hx] at h
      cases h
      exact ⟨m₁.scopes.inner.get? x, rfl, fun _ => hx⟩
    · rw [Bool.not_eq_true] at hx
      rw [setRegister_declare_of_not_has hx] at h
      cases h
      refine ⟨some v, ?_, fun _ => rfl⟩
      simp [Scopes.column, Scopes.frames, Frame.get?_set]

end Eval

namespace Tree

def Evaluable (t : Tree) (id : NodeId) : Prop :=
  ∀ k span f, t.Above id k → t.Bears k span f → f.kind.evaluable = true

theorem Evaluable.not_binds {id k : NodeId} {x : String} (h : t.Evaluable id)
    (hk : t.Above id k) : ¬ t.Binds k x := by
  intro hbinds
  cases hbinds with
  | assign hb | input hb | declaration hb => cases h k _ _ hk hb

theorem Forest.column_of_exec (hf : Forest t) {id : NodeId} (hid : t.contains id = true)
    (hfree : ∀ k, t.Above id k → ¬ t.Binds k x) {bound : Nat}
    (h : t.exec bound id m = some (r, m')) : m'.scopes.column x = m.scopes.column x := by
  refine (hf.follows bound id hid m r m' h).column_eq (P := t.Above id) ?_ ?_ .refl
  · rintro k l span _ hk ⟨n, hn, rfl, -⟩ hl
    exact hk.of_parent (hf.parent?_of_mem hn hl)
  · rintro k y hk hbinds rfl
    exact hfree k hk hbinds

/-- The declaration makes a binding in the scope of the block, and nothing gets behind it. -/
theorem Forest.column_of_block (hf : Forest t) {d : NodeId} {rest : List NodeId} {place : Span}
    {initializer : Option NodeId} (hb : t.Bears d place (.declaration x initializer))
    (hinit : ∀ l ∈ initializer, t.Evaluable l) {bound : Nat}
    (h : Eval.inScope ((d :: rest).forM (t.exec bound)) m = some (r, m')) :
    m'.scopes.column x = m.scopes.column x := by
  obtain ⟨m₁, hrun, rfl⟩ := Eval.inScope_eq_some.1 h
  suffices ∃ o, m₁.scopes.column x = o :: m.scopes.column x by
    obtain ⟨o, ho⟩ := this
    obtain ⟨⟨inner, _ | ⟨f, fs⟩⟩, register, reader, sink⟩ := m₁
    · cases congrArg List.length ho
    · exact (List.cons.inj ho).2
  have hdeclared : ∀ r m₂, t.exec bound d { m with scopes := m.scopes.push } = some (r, m₂) →
      ∃ o, m₂.scopes.column x = o :: m.scopes.column x ∧ (r = .ok () → o.isSome = true) := by
    intro r m₂ hd
    cases bound with
    | zero => cases hd
    | succ bound =>
      rw [exec_of_bears hb] at hd
      refine Eval.column_of_declaration ?_ hd
      rintro l rfl r m₃ hl
      have hid := hf.contains_of_bears hb (k := l) (by simp [Form.children, Form.roles])
      exact hf.column_of_exec hid (fun k hk => (hinit l rfl).not_binds hk) hl
  rcases Eval.bind_eq_some.1 hrun with ⟨e, hd, -⟩ | ⟨_, m₂, hd, hrest⟩
  · obtain ⟨o, ho, -⟩ := hdeclared _ _ hd
    exact ⟨o, ho⟩
  · obtain ⟨o, ho, hbound⟩ := hdeclared _ _ hd
    obtain ⟨v, rfl⟩ := Option.isSome_iff_exists.1 (hbound rfl)
    have hK := Eval.maintained_shielded x
    have hshielded : Shielded (m₂.scopes.column x) (m₁.scopes.column x) :=
      hK.forM (hK.exec t bound) rest m₂ r m₁ hrest
    rw [ho] at hshielded
    generalize m₁.scopes.column x = c at hshielded ⊢
    cases hshielded with
    | bound _ w => exact ⟨some w, rfl⟩

theorem exec_of_evaluate {bound : Nat} {id : NodeId} {r : Except Error Int64}
    (h : t.evaluate bound id m = some (r, m')) : ∃ r', t.exec bound id m = some (r', m') := by
  cases r with
  | ok v => exact ⟨_, (evaluate_eq_ok.1 h).1⟩
  | error e => exact ⟨_, evaluate_eq_error.1 h⟩

/-- However the evaluation of a node ends, the scopes have the bindings they had of each name that
no node there binds. And if the node is a block that begins with the declaration of a name, they
have the bindings they had of this name as well. -/
theorem bindings_framed (ht : Built t) {id : NodeId} (hid : t.contains id = true) {bound : Nat}
    {r : Except Error Int64} (h : t.evaluate bound id m = some (r, m')) :
    (∀ x, (∀ k, t.Above id k → ¬ t.Binds k x) → m'.scopes.column x = m.scopes.column x) ∧
    ∀ p span d rest place x initializer, t.parent? id = some p →
      t.Bears id span (.scope (d :: rest)) → t.Bears d place (.declaration x initializer) →
      (∀ l ∈ initializer, t.Evaluable l) → m'.scopes.column x = m.scopes.column x := by
  obtain ⟨r', hexec⟩ := exec_of_evaluate h
  refine ⟨fun x hfree => ht.forest.column_of_exec hid hfree hexec, ?_⟩
  intro p span d rest place x initializer hparent hb hd hinit
  cases bound with
  | zero => cases hexec
  | succ bound =>
    have hscope : Eval.inScope ((d :: rest).forM (t.exec bound)) m = some (r', m') := by
      rw [exec_of_bears hb] at hexec
      simpa [Tree.step, Eval.scope, hparent] using hexec
    exact ht.forest.column_of_block hd hinit hscope

/-- The block fails after it has assigned to its own variable and to one further out. -/
theorem outer_binding_shadowed :
    let t := [Operation.add (.reference "y"), .add (.declaration "x" (some 0)),
      .add (.reference "x"), .add (.literal 7), .add (.assign (some 2) (some 3)),
      .add (.reference "y"), .add (.reference "x"), .add (.assign (some 5) (some 6)),
      .add (.reference "z"), .add (.print (some 8)), .add (.scope [1, 4, 7, 9]),
      .add (.scope [10])].foldl Operation.apply {}
    let m : Machine := { scopes := ⟨[("x", 1)], [[("x", 2), ("y", 3)]]⟩ }
    let m' : Machine := { scopes := ⟨[("x", 1)], [[("x", 2), ("y", 7)]]⟩, register := 7 }
    Built t ∧ t.contains 10 = true ∧
      t.evaluate 9 10 m = some (.error (.runtime ⟨.undefinedVariable "z", none⟩), m') ∧
      m'.scopes.column "x" = m.scopes.column "x" ∧ m'.scopes.column "z" = m.scopes.column "z" := by
  intro t m m'
  have hbuilt : Built t := Built.empty.operateAll _ (by simp)
  have hid : t.contains 10 = true := by decide
  have hrun : t.evaluate 9 10 m = some (.error (.runtime ⟨.undefinedVariable "z", none⟩), m') := by
    decide
  obtain ⟨hfree, hblock⟩ := bindings_framed hbuilt hid hrun
  refine ⟨hbuilt, hid, hrun, ?_, ?_⟩
  · refine hblock 11 {} 1 [4, 7, 9] {} "x" (some 0) (by decide) ⟨_, rfl, rfl, rfl⟩
      ⟨_, rfl, rfl, rfl⟩ ?_
    rintro l ⟨⟩ k span f hk hf
    rcases Relation.ReflTransGen.cases_tail hk with rfl | ⟨j, -, hj⟩
    · obtain ⟨-, rfl⟩ := hf.unique (⟨_, rfl, rfl, rfl⟩ : t.Bears 0 {} (.reference "y"))
      rfl
    · have hleaf : ∀ j < 12, t.parent? j ≠ some 0 := by decide
      exact absurd hj (hleaf j ((contains_iff_lt j).1 (contains_of_parent? hj)))
  · refine hfree "z" fun k _ hbinds => ?_
    have hall : ∀ k < 12, t.boundName? k ≠ some "z" := by decide
    refine hall k ?_ (binds_iff.1 hbinds)
    cases hbinds with
    | assign h | input h | declaration h =>
      obtain ⟨n, hn, -⟩ := h
      exact (contains_iff_lt k).1 ((t.contains_iff k).2 ⟨n, hn⟩)

end Tree

end TeachLang
