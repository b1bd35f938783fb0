import TeachLang.Proofs.Cloning

/-!
# What hangs from a node, as a term

The subtree at a node unfolds into a term, in which the children stand themselves instead of their
positions. A term has no positions, spans or parents. Two nodes are the same when compared exactly
if they unfold into the same term, so comparison is an equivalence, of nodes and of whole trees.
-/

namespace TeachLang

inductive Unfolding where
  | arithmetic (op : ArithmeticOperator) (left right : Option Unfolding)
  | logic (op : LogicOperator) (left right : Option Unfolding)
  | unary (op : UnaryOperator) (operand : Option Unfolding)
  | scope (statements : List Unfolding)
  | literal (value : Int64)
  | print (expr : Option Unfolding)
  | assign (target value : Option Unfolding)
  | reference (name : String)
  | declaration (name : String) (initializer : Option Unfolding)
  | expression (expr : Option Unfolding)
  | ifElse (condition thenBranch elseBranch : Option Unfolding)
  | whileLoop (condition body : Option Unfolding)
  | forLoop (init condition step body : Option Unfolding)
  | input (target : Option Unfolding)
  deriving Inhabited

namespace Form

def withTerms (x : NodeId → Unfolding) : Form → Unfolding
  | arithmetic op l r => .arithmetic op (l.map x) (r.map x)
  | logic op l r => .logic op (l.map x) (r.map x)
  | unary op e => .unary op (e.map x)
  | scope ss => .scope (ss.map x)
  | literal v => .literal v
  | print e => .print (e.map x)
  | assign t v => .assign (t.map x) (v.map x)
  | reference y => .reference y
  | declaration y e => .declaration y (e.map x)
  | expression e => .expression (e.map x)
  | ifElse c t e => .ifElse (c.map x) (t.map x) (e.map x)
  | whileLoop c b => .whileLoop (c.map x) (b.map x)
  | forLoop i c s b => .forLoop (i.map x) (c.map x) (s.map x) (b.map x)
  | input t => .input (t.map x)

def unfold (g : NodeId → Option Unfolding) : Form → Option Unfolding
  | arithmetic op l r => return .arithmetic op (← l.mapM g) (← r.mapM g)
  | logic op l r => return .logic op (← l.mapM g) (← r.mapM g)
  | unary op e => return .unary op (← e.mapM g)
  | scope ss => return .scope (← ss.mapM g)
  | literal v => return .literal v
  | print e => return .print (← e.mapM g)
  | assign t v => return .assign (← t.mapM g) (← v.mapM g)
  | reference y => return .reference y
  | declaration y e => return .declaration y (← e.mapM g)
  | expression e => return .expression (← e.mapM g)
  | ifElse c t e => return .ifElse (← c.mapM g) (← t.mapM g) (← e.mapM g)
  | whileLoop c b => return .whileLoop (← c.mapM g) (← b.mapM g)
  | forLoop i c s b => return .forLoop (← i.mapM g) (← c.mapM g) (← s.mapM g) (← b.mapM g)
  | input t => return .input (← t.mapM g)

variable {f f' : Form} {x y : NodeId → Unfolding} {g : NodeId → Option Unfolding}

theorem mapM_role {o : Option NodeId} (h : ∀ c ∈ o, g c = some (x c)) :
    o.mapM g = some (o.map x) := by
  cases o with
  | none => rfl
  | some c => simp [h c rfl]

theorem mapM_statements {ss : List NodeId} (h : ∀ c ∈ ss, g c = some (x c)) :
    ss.mapM g = some (ss.map x) := by
  induction ss with
  | nil => rfl
  | cons c ss ih =>
    rw [List.mapM_cons, h c List.mem_cons_self, ih fun d hd => h d (List.mem_cons_of_mem c hd)]
    rfl

theorem unfold_eq (h : ∀ c ∈ f.children, g c = some (x c)) : f.unfold g = some (f.withTerms x) := by
  have hroles : ∀ r ∈ f.roles, r.2.mapM g = some (r.2.map x) := fun r hr =>
    mapM_role fun c hc => h c (List.mem_filterMap.2 ⟨r, hr, hc⟩)
  cases f with
  | scope ss =>
    have hss : ss.mapM g = some (ss.map x) :=
      mapM_statements fun c hc => h c (by simpa [children, roles] using hc)
    rw [unfold, hss]
    rfl
  | _ =>
    simp only [roles, List.forall_mem_cons] at hroles
    simp [unfold, withTerms, hroles]

theorem exists_of_mapM_role {o : Option NodeId} {o' : Option Unfolding} (h : o.mapM g = some o') :
    ∀ c ∈ o, ∃ e, g c = some e := by
  rintro c rfl
  cases hc : g c with
  | none => simp [hc] at h
  | some e => exact ⟨e, rfl⟩

theorem exists_of_mapM_statements {ss : List NodeId} {es : List Unfolding}
    (h : ss.mapM g = some es) : ∀ c ∈ ss, ∃ e, g c = some e := by
  induction ss generalizing es with
  | nil => simp
  | cons c ss ih =>
    simp only [List.mapM_cons, Option.bind_eq_bind, Option.bind_eq_some_iff] at h
    obtain ⟨e, he, es', hes, -⟩ := h
    exact List.forall_mem_cons.2 ⟨⟨e, he⟩, ih hes⟩

theorem exists_of_unfold {e : Unfolding} (h : f.unfold g = some e) :
    ∀ c ∈ f.children, ∃ e', g c = some e' := by
  have hroles : ∀ r ∈ f.roles, ∀ c ∈ r.2, ∃ e', g c = some e' := by
    cases f with
    | scope ss =>
      obtain ⟨es, hes, -⟩ := Option.bind_eq_some_iff.1 h
      simpa [roles] using exists_of_mapM_statements hes
    | _ =>
      simp only [unfold, Option.bind_eq_bind, Option.bind_eq_some_iff] at h
      simp only [roles, List.forall_mem_cons]
      grind [exists_of_mapM_role]
  intro c hc
  obtain ⟨r, hr, hc⟩ := List.mem_filterMap.1 hc
  exact hroles r hr c hc

/-- A form unfolds if there is a term for every child, and then into the form with these terms. -/
theorem unfold_eq_some_iff {e : Unfolding} : f.unfold g = some e ↔
    ∃ x : NodeId → Unfolding, (∀ c ∈ f.children, g c = some (x c)) ∧ e = f.withTerms x := by
  constructor
  · intro h
    choose! x hx using exists_of_unfold h
    exact ⟨x, hx, Option.some.inj (h.symm.trans (unfold_eq hx))⟩
  · rintro ⟨x, hx, rfl⟩
    exact unfold_eq hx

theorem optionRel_map {o o' : Option NodeId} :
    Option.Rel (fun c c' => x c = y c') o o' ↔ o.map x = o'.map y := by
  cases o <;> cases o' <;> simp

theorem forall₂_map {ss ss' : List NodeId} :
    List.Forall₂ (fun c c' => x c = y c') ss ss' ↔ ss.map x = ss'.map y := by
  rw [← List.forall₂_eq_eq_eq, List.forall₂_map_left_iff, List.forall₂_map_right_iff]

theorem withTerms_eq_iff :
    f.withTerms x = f'.withTerms y ↔ f.Matches id (fun c c' => x c = y c') f' := by
  constructor
  · intro h
    cases f <;> cases f' <;> simp only [withTerms, reduceCtorEq] at h
    all_goals grind [Matches, optionRel_map, forall₂_map]
  · intro h
    cases h <;> simp_all [withTerms, optionRel_map, forall₂_map]

end Form

namespace Tree

def unfoldWithin (t : Tree) : Nat → NodeId → Option Unfolding
  | 0, _ => none
  | bound + 1, id => do (← t.get? id).form.unfold (t.unfoldWithin bound)

def unfold (t : Tree) (id : NodeId) : Option Unfolding := t.unfoldWithin t.size id

def unfolding (t : Tree) : Option Unfolding := t.root.bind t.unfold

variable {t u v : Tree} {a b c : NodeId} {x y : Unfolding} {bound bound' depth : Nat}

theorem unfoldWithin_eq_some : t.unfoldWithin (bound + 1) a = some x ↔ ∃ n below,
    t.get? a = some n ∧ (∀ c ∈ n.form.children, t.unfoldWithin bound c = some (below c)) ∧
      x = n.form.withTerms below := by
  rw [unfoldWithin]
  cases hn : t.get? a with
  | none => simp
  | some n =>
    change n.form.unfold _ = _ ↔ _
    simp [Form.unfold_eq_some_iff]

/-- A term depends on the forms of nodes alone, and on neither their spans nor their parents. -/
theorem unfold_mapIdx {g : NodeId → Node → Node} (hg : ∀ k n, (g k n).form = n.form) (a : NodeId) :
    ({ t with nodes := t.nodes.mapIdx g } : Tree).unfold a = t.unfold a := by
  have hwithin : ∀ bound a, ({ t with nodes := t.nodes.mapIdx g } : Tree).unfoldWithin bound a =
      t.unfoldWithin bound a := by
    intro bound
    induction bound with
    | zero => exact fun _ => rfl
    | succ bound ih =>
      intro a
      rw [unfoldWithin, unfoldWithin, funext ih, get?, get?, Array.getElem?_mapIdx]
      cases t.nodes[a]? with
      | none => rfl
      | some n => exact congrArg (Form.unfold _) (hg a n)
  rw [unfold, unfold, hwithin, size, Array.size_mapIdx]

/-- In a forest there is a term for every node. -/
theorem Forest.exists_unfold (hf : Forest t) (h : t.contains a = true) :
    ∃ x, t.unfold a = some x := by
  refine hf.descend (motive := fun bound id => ∃ x, t.unfoldWithin bound id = some x)
    (fun bound id n hn hchildren => ?_) h
  choose! below hbelow using hchildren
  exact ⟨_, unfoldWithin_eq_some.2 ⟨n, below, hn, hbelow, rfl⟩⟩

/-! ### Comparison of terms -/

theorem Resembles.unfold_eq {R : Span → Span → Prop} (h : t.Resembles u R depth a b)
    (hx : t.unfoldWithin bound a = some x) (hy : u.unfoldWithin bound' b = some y) : x = y := by
  induction depth generalizing a b bound bound' x y with
  | zero => exact h.elim
  | succ depth ih =>
    obtain ⟨n, n', hn, hn', -, hform⟩ := h
    cases bound with
    | zero => cases hx
    | succ bound =>
      cases bound' with
      | zero => cases hy
      | succ bound' =>
        obtain ⟨m, below, hm, hbelow, rfl⟩ := unfoldWithin_eq_some.1 hx
        obtain ⟨m', below', hm', hbelow', rfl⟩ := unfoldWithin_eq_some.1 hy
        cases hn.symm.trans hm
        cases hn'.symm.trans hm'
        refine Form.withTerms_eq_iff.2 (hform.imp fun c hc c' hc' h => ?_)
        exact ih h (hbelow c hc) (hbelow' c' hc')

theorem resembles_of_unfold (hx : t.unfoldWithin bound a = some x)
    (hy : u.unfoldWithin bound' b = some x) : t.Resembles u Span.Any bound a b := by
  induction bound generalizing a b bound' x with
  | zero => cases hx
  | succ bound ih =>
    cases bound' with
    | zero => cases hy
    | succ bound' =>
      obtain ⟨n, below, hn, hbelow, rfl⟩ := unfoldWithin_eq_some.1 hx
      obtain ⟨n', below', hn', hbelow', hform⟩ := unfoldWithin_eq_some.1 hy
      refine ⟨n, n', hn, hn', trivial, (Form.withTerms_eq_iff.1 hform).imp ?_⟩
      intro c hc c' hc' h
      exact ih (hbelow c hc) (h ▸ hbelow' c' hc')

theorem exists_sameRoles {same : NodeId → NodeId → Option Bool}
    {rs rs' : List (Slot × Option NodeId)} (h : ∀ c ∈ rs.filterMap Prod.snd,
      ∀ c' ∈ rs'.filterMap Prod.snd, ∃ r, same c c' = some r) :
    ∃ r, sameRoles same rs rs' = some r := by
  fun_induction sameRoles same rs rs' with
  | case1 => exact ⟨true, rfl⟩
  | case2 a as s b bs ih =>
    obtain ⟨r, hr⟩ := h a List.mem_cons_self b List.mem_cons_self
    rw [hr]
    cases r with
    | false => exact ⟨false, rfl⟩
    | true => exact ih fun c hc c' hc' => h c (.tail a hc) c' (.tail b hc')
  | case4 as s bs ih => exact ih h
  | case3 | case5 | case6 => exact ⟨false, rfl⟩

/-- The comparison of nodes that are there has an answer. -/
theorem Forest.exists_same? (ht : Forest t) (hu : Forest u) (ha : t.contains a = true)
    (hb : u.contains b = true) : ∃ r, t.same? a u b = some r := by
  refine ht.descend (motive := fun bound a => ∀ b, u.contains b = true →
    ∃ r, sameWithin t u bound a b = some r) (fun bound a n hn hchildren b hb => ?_) ha b hb
  obtain ⟨n', hn'⟩ := (u.contains_iff b).1 hb
  rw [sameWithin, hn, hn']
  change ∃ r, (if n.form.samePayload n'.form then _ else some false) = some r
  by_cases hpayload : n.form.samePayload n'.form = true
  · rw [if_pos hpayload]
    refine exists_sameRoles fun c hc c' hc' => hchildren c hc c' ?_
    exact contains_of_parent? (hu.parent?_of_mem hn' hc')
  · rw [if_neg hpayload]
    exact ⟨false, rfl⟩

theorem Forest.same?_iff (ht : Forest t) (hu : Forest u) (ha : t.contains a = true)
    (hb : u.contains b = true) :
    t.same? a u b = some true ↔ t.unfold a = u.unfold b := by
  obtain ⟨x, hx⟩ := ht.exists_unfold ha
  obtain ⟨y, hy⟩ := hu.exists_unfold hb
  rw [hx, hy, Option.some_inj]
  constructor
  · intro h
    exact (sameWithin_eq_true.1 h).unfold_eq hx hy
  · rintro rfl
    exact sameWithin_eq_true.2 (resembles_of_unfold hx hy)

theorem Forest.same_iff (ht : Forest t) (hu : Forest u) :
    t.same u = true ↔ t.unfolding = u.unfolding := by
  unfold same unfolding
  cases hroot : t.root with
  | none =>
    cases hroot' : u.root with
    | none => simp
    | some b =>
      obtain ⟨y, hy⟩ := hu.exists_unfold (hu.root_parentless b hroot').1
      simp [hy]
  | some a =>
    have ha := (ht.root_parentless a hroot).1
    cases hroot' : u.root with
    | none =>
      obtain ⟨x, hx⟩ := ht.exists_unfold ha
      simp [hx]
    | some b => simpa using ht.same?_iff hu ha (hu.root_parentless b hroot').1

theorem Forest.same?_comm (ht : Forest t) (hu : Forest u) (ha : t.contains a = true)
    (hb : u.contains b = true) : t.same? a u b = u.same? b t a := by
  obtain ⟨r, hr⟩ := ht.exists_same? hu ha hb
  obtain ⟨r', hr'⟩ := hu.exists_same? ht hb ha
  have hiff := ht.same?_iff hu ha hb
  have hiff' := hu.same?_iff ht hb ha
  rw [hr, Option.some_inj] at hiff
  rw [hr', Option.some_inj, @eq_comm _ (u.unfold b)] at hiff'
  rw [hr, hr', Bool.eq_iff_iff.2 (hiff.trans hiff'.symm)]

/-- Nodes of trees that are built are the same exactly if they unfold into the same term, and trees
are if their roots do or neither has one. So both are equivalences, whatever the trees. A term is
not changed by anything that leaves the forms of nodes alone. -/
theorem same_exact (ht : Built t) (hu : Built u) (hv : Built v) :
    (∀ a b, t.contains a = true → u.contains b = true → ∃ x y r, t.unfold a = some x ∧
      u.unfold b = some y ∧ t.same? a u b = some r ∧ (r = true ↔ x = y)) ∧
    (t.same u = true ↔ t.unfolding = u.unfolding) ∧
    (∀ a, t.contains a = true → t.same? a t a = some true) ∧
    (∀ a b, t.contains a = true → u.contains b = true → t.same? a u b = u.same? b t a) ∧
    (∀ a b c, t.contains a = true → u.contains b = true → v.contains c = true →
      t.same? a u b = some true → u.same? b v c = some true → t.same? a v c = some true) ∧
    t.same t = true ∧ t.same u = u.same t ∧
    (t.same u = true → u.same v = true → t.same v = true) ∧
    ∀ g : NodeId → Node → Node, (∀ k n, (g k n).form = n.form) →
      ∀ a, ({ t with nodes := t.nodes.mapIdx g } : Tree).unfold a = t.unfold a := by
  have ht := ht.forest
  have hu := hu.forest
  have hv := hv.forest
  refine ⟨fun a b ha hb => ?_, ht.same_iff hu, fun a ha => (ht.same?_iff ht ha ha).2 rfl,
    fun a b ha hb => ht.same?_comm hu ha hb, fun a b c ha hb hc hab hbc => ?_,
    (ht.same_iff ht).2 rfl, ?_, fun htu huv => ?_, fun g hg a => unfold_mapIdx hg a⟩
  · obtain ⟨x, hx⟩ := ht.exists_unfold ha
    obtain ⟨y, hy⟩ := hu.exists_unfold hb
    obtain ⟨r, hr⟩ := ht.exists_same? hu ha hb
    have hiff := ht.same?_iff hu ha hb
    rw [hr, hx, hy, Option.some_inj, Option.some_inj] at hiff
    exact ⟨x, y, r, hx, hy, hr, hiff⟩
  · have hab := (ht.same?_iff hu ha hb).1 hab
    exact (ht.same?_iff hv ha hc).2 (hab.trans ((hu.same?_iff hv hb hc).1 hbc))
  · exact Bool.eq_iff_iff.2 ((ht.same_iff hu).trans (eq_comm.trans (hu.same_iff ht).symm))
  · exact (ht.same_iff hv).2 (((ht.same_iff hu).1 htu).trans ((hu.same_iff hv).1 huv))

/-- Two blocks print the same sum, the one with other positions, a place and a parent. In a third
block the sum lacks an operand. -/
theorem same_exact_of_sums :
    let t := [Operation.add (.literal 1), .add (.reference "x"),
      .add (.arithmetic .add (some 0) (some 1)), .add (.print (some 2)), .add (.scope [3]),
      .setRoot 4].foldl Operation.apply {}
    let u := [Operation.add (.scope []), .add (.print none), .add (.reference "x"),
      .add (.arithmetic .add none (some 2)), .add (.literal 1), .attach 3 .left 4,
      .attach 1 .expr 3, .attach 0 .statement 1, .setSpan 3 ⟨none, 1, 1, 1, 5⟩,
      .add (.scope [0])].foldl Operation.apply {}
    let v := [Operation.add (.reference "x"), .add (.arithmetic .add none (some 0)),
      .add (.print (some 1)), .add (.scope [2]), .setRoot 3].foldl Operation.apply {}
    Built t ∧ Built u ∧ Built v ∧ t.contains 4 = true ∧ u.contains 0 = true ∧
      t.same? 4 u 0 = some true ∧ u.same? 0 t 4 = some true ∧ t.unfolding ≠ v.unfolding ∧
      t.unfold 4 = some (.scope [.print (some
        (.arithmetic .add (some (.literal 1)) (some (.reference "x"))))]) := by
  intro t u v
  have ht : Built t := Built.empty.operateAll _ (by simp)
  have hu : Built u := Built.empty.operateAll _ (by simp)
  have hv : Built v := Built.empty.operateAll _ (by simp)
  have ha : t.contains 4 = true := by decide
  have hb : u.contains 0 = true := by decide
  have hsame : t.same? 4 u 0 = some true := by decide
  have hunlike : t.same v = false := by decide
  obtain ⟨-, -, -, hcomm, -⟩ := same_exact ht hu hv
  obtain ⟨-, hiff, -⟩ := same_exact ht hv hu
  refine ⟨ht, hu, hv, ha, hb, hsame, (hcomm 4 0 ha hb).symm.trans hsame, fun h => ?_, rfl⟩
  rw [hiff.2 h] at hunlike
  cases hunlike

end Tree

end TeachLang
