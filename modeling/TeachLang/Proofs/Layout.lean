import TeachLang.Proofs.Adding
import TeachLang.Program.Layout

/-!
# What the layout of a program leaves

Layout cannot fail on a tree without a root. It adds nodes that say, part by part, what the program
says, and gives every new node a parent but for the ones it answers with. So a program becomes a
tree in which the root alone has no parent. Every node is right behind what hangs from it.
-/

namespace TeachLang

namespace Tree

def Bears (t : Tree) (id : NodeId) (span : Span) (form : Form) : Prop :=
  ∃ n, t.get? id = some n ∧ n.form = form ∧ n.span = span

def Keeps (t u : Tree) : Prop := ∀ id span form, t.Bears id span form → u.Bears id span form

theorem Bears.unique {t : Tree} {id : NodeId} {s s' : Span} {f f' : Form} (h : t.Bears id s f)
    (h' : t.Bears id s' f') : s = s' ∧ f = f' := by
  obtain ⟨n, hn, rfl, rfl⟩ := h
  obtain ⟨n', hn', rfl, rfl⟩ := h'
  cases hn.symm.trans hn'
  exact ⟨rfl, rfl⟩

theorem Keeps.trans {t u v : Tree} (h : Keeps t u) (h' : Keeps u v) : Keeps t v :=
  fun id span form hb => h' id span form (h id span form hb)

theorem keeps_of_old {t u : Tree} (h : ∀ k, k < t.size → u.get? k = t.get? k) : Keeps t u := by
  rintro id span form ⟨n, hn, hform⟩
  have hid : id < t.size := (contains_iff_lt id).1 ((t.contains_iff id).2 ⟨n, hn⟩)
  exact ⟨n, by rw [h id hid, hn], hform⟩

/-- The nodes from `b` up to `e` are those in `ids` and what hangs from them, in this order and
every node right behind what hangs from it. -/
inductive Fills (t : Tree) : Nat → List NodeId → Nat → Prop
  | nil (b : Nat) : Fills t b [] b
  | cons {b id e : Nat} {span : Span} {form : Form} {others : List NodeId}
    (hid : t.Bears id span form) (hchildren : Fills t b form.children id)
    (hothers : Fills t (id + 1) others e) : Fills t b (id :: others) e

theorem Fills.keeps {t u : Tree} {b e : Nat} {ids : List NodeId} (h : t.Fills b ids e)
    (hkeeps : Keeps t u) : u.Fills b ids e := by
  induction h with
  | nil b => exact .nil b
  | cons hid _ _ ihchildren ihothers => exact .cons (hkeeps _ _ _ hid) ihchildren ihothers

theorem Fills.append {t : Tree} {b m e : Nat} {ids ids' : List NodeId} (h : t.Fills b ids m)
    (h' : t.Fills m ids' e) : t.Fills b (ids ++ ids') e := by
  induction h with
  | nil b => exact h'
  | cons hid hchildren _ _ ih => exact .cons hid hchildren (ih h')

/-- `u` is `t` with nodes behind the others, of which those in `ids` have no parent and the rest
hangs from these. -/
structure Grows (t u : Tree) (ids : List NodeId) : Prop where
  size_le : t.size ≤ u.size
  root_eq : u.root = t.root
  old : ∀ k, k < t.size → u.get? k = t.get? k
  mem_iff : ∀ k, k ∈ ids ↔ t.size ≤ k ∧ k < u.size ∧ u.parent? k = none
  nodup : ids.Nodup
  fills : u.Fills t.size ids u.size

def Packed (t : Tree) : Prop := ∃ root, t.root = some root ∧ t.Fills 0 [root] t.size

variable {t u v : Tree} {ids ids' : List NodeId}

theorem Grows.refl (t : Tree) : Grows t t [] where
  size_le := Nat.le_refl _
  root_eq := rfl
  old _ _ := rfl
  mem_iff k := by
    constructor
    · intro h
      cases h
    · rintro ⟨hle, hlt, _⟩
      exact absurd hlt (Nat.not_lt.2 hle)
  nodup := List.nodup_nil
  fills := .nil t.size

theorem Grows.append (h : Grows t u ids) (h' : Grows u v ids') : Grows t v (ids ++ ids') where
  size_le := Nat.le_trans h.size_le h'.size_le
  root_eq := h'.root_eq.trans h.root_eq
  old k hk := by rw [h'.old k (Nat.lt_of_lt_of_le hk h.size_le), h.old k hk]
  mem_iff k := by
    rw [List.mem_append, h.mem_iff, h'.mem_iff]
    by_cases hk : k < u.size
    · have hparent : v.parent? k = u.parent? k := by rw [parent?, parent?, h'.old k hk]
      have hkv : k < v.size := Nat.lt_of_lt_of_le hk h'.size_le
      simp only [hk, hkv, hparent, Nat.not_le.2 hk, true_and, false_and, or_false]
    · have hkt : t.size ≤ k := Nat.le_trans h.size_le (Nat.not_lt.1 hk)
      simp only [hk, hkt, Nat.not_lt.1 hk, true_and, false_and, and_false, false_or]
  nodup := by
    refine List.nodup_append.2 ⟨h.nodup, h'.nodup, fun a ha b hb => ?_⟩
    have halt := ((h.mem_iff a).1 ha).2.1
    have hble := ((h'.mem_iff b).1 hb).1
    exact Nat.ne_of_lt (Nat.lt_of_lt_of_le halt hble)
  fills := (h.fills.keeps (keeps_of_old h'.old)).append h'.fills

theorem Grows.free (h : Grows t u ids) (hroot : t.root = none) {k : NodeId} (hk : k ∈ ids) :
    u.Free k := by
  obtain ⟨_, hlt, hparent⟩ := (h.mem_iff k).1 hk
  refine ⟨(contains_iff_lt k).2 hlt, hparent, ?_⟩
  rw [h.root_eq, hroot]
  exact nofun

theorem Adds.setSpan {f : Form} {s : Span} (h : Adds t u f s) (span : Span) :
    Adds t (u.setSpan t.size span) f span where
  size_eq := by rw [size_setSpan, h.size_eq]
  root_eq := h.root_eq
  new := by
    rw [get?_setSpan, h.new]
    simp
  old k hk := by
    rw [get?_setSpan, h.old k hk, Option.map_map]
    simp only [Function.comp_def, if_neg (Nat.ne_of_gt hk)]

theorem Adds.keeps {f : Form} {s : Span} (h : Adds t u f s) : Keeps t u := by
  rintro id span form ⟨n, hn, hform⟩
  have hid : id < t.size := (contains_iff_lt id).1 ((t.contains_iff id).2 ⟨n, hn⟩)
  have hold := h.old id hid
  rw [hn, Option.map_some] at hold
  exact ⟨_, hold, hform⟩

theorem Adds.grows {f : Form} {s : Span} (h : Adds u v f s) (hg : Grows t u f.children) :
    Grows t v [u.size] where
  size_le := by
    rw [h.size_eq]
    exact Nat.le_succ_of_le hg.size_le
  root_eq := h.root_eq.trans hg.root_eq
  old k hk := by
    have hnot : k ∉ f.children := fun hmem => Nat.not_le.2 hk ((hg.mem_iff k).1 hmem).1
    rw [h.old k (Nat.lt_of_lt_of_le hk hg.size_le), hg.old k hk]
    simp only [if_neg hnot]
    cases t.get? k <;> rfl
  mem_iff k := by
    have hparent : k < u.size → v.parent? k =
        if k ∈ f.children then some u.size else u.parent? k := by
      intro hk
      obtain ⟨n, hn⟩ := (u.contains_iff k).1 ((contains_iff_lt k).2 hk)
      simp [parent?, h.old k hk, hn]
    rw [List.mem_singleton, h.size_eq]
    constructor
    · rintro rfl
      refine ⟨hg.size_le, Nat.lt_succ_self _, ?_⟩
      simp [parent?, h.new]
    · rintro ⟨hle, hlt, hnone⟩
      refine (Nat.lt_succ_iff_lt_or_eq.1 hlt).resolve_left fun hk => ?_
      rw [hparent hk] at hnone
      by_cases hmem : k ∈ f.children
      · rw [if_pos hmem] at hnone
        cases hnone
      · rw [if_neg hmem] at hnone
        exact hmem ((hg.mem_iff k).2 ⟨hle, hk, hnone⟩)
  nodup := by simp
  fills := by
    rw [h.size_eq]
    exact .cons ⟨_, h.new, rfl, rfl⟩ (hg.fills.keeps h.keeps) (.nil _)

end Tree

namespace Build

open TeachLang.Tree

variable {α β : Type} {given : List NodeId}

/-- The change succeeds on a tree without a root to which nodes have been added, of which those in
`given` have no parent. Then those in `ids` of its answer have none, and `P` holds of the answer
for as long as the nodes keep what they say. -/
def Lays (given : List NodeId) (x : Build α) (ids : α → List NodeId) (P : Tree → α → Prop) : Prop :=
  ∀ t u, t.root = none → Grows t u given → ∃ a v, x.run u = (.ok a, v) ∧ Grows t v (ids a) ∧
    Keeps u v ∧ ∀ w, Keeps v w → P w a

theorem Lays.bind {x : Build α} {f : α → Build β} {ids : α → List NodeId}
    {ids' : β → List NodeId} {P : Tree → α → Prop} {Q : α → Tree → β → Prop}
    (hx : Lays [] x ids P) (hf : ∀ a, Lays (given ++ ids a) (f a) ids' (Q a)) :
    Lays given (x >>= f) ids' fun t b => ∃ a, P t a ∧ Q a t b := by
  intro t u ht hg
  obtain ⟨a, v, hrun, hgrows, hkeeps, ha⟩ := hx u u (hg.root_eq.trans ht) (.refl u)
  obtain ⟨b, w, hrun', hgrows', hkeeps', hb⟩ := hf a t v ht (hg.append hgrows)
  refine ⟨b, w, run_bind_eq_ok.2 ⟨a, v, hrun, hrun'⟩, hgrows', hkeeps.trans hkeeps', fun z hz => ?_⟩
  exact ⟨a, ha z (hkeeps'.trans hz), hb z hz⟩

theorem lays_pure (a : α) {ids : α → List NodeId} (h : ids a = given) :
    Lays given (pure a) ids fun _ b => b = a := by
  intro t u _ hg
  exact ⟨a, u, rfl, h ▸ hg, fun _ _ _ hb => hb, fun _ _ => rfl⟩

theorem lays_place (span : Span) (f : Form) (h : f.children = given) :
    Lays given (place span f) (fun id => [id]) fun t id => t.Bears id span f := by
  intro t u ht hg
  rw [← h] at hg
  obtain ⟨w, hrun, hadds⟩ := run_add_of_free (fun c hc => hg.free ht hc) hg.nodup
  have hfind : w.find u.size = .ok { form := f } := (w.find_eq_ok).2 hadds.new
  have hv := hadds.setSpan span
  refine ⟨u.size, w.setSpan u.size span, ?_, hv.grows hg, hv.keeps, fun z hz => ?_⟩
  · simp only [place, run_bind, hrun, run_setSpan, hfind, run_pure]
  · exact hz _ _ _ ⟨_, hv.new, rfl, rfl⟩

theorem Lays.scope {x : Build (List NodeId)} {P : Tree → List NodeId → Prop}
    (hx : Lays [] x id P) (span : Span) :
    Lays [] (Build.scope span x) (fun id => [id]) fun t id =>
      ∃ ks, P t ks ∧ t.Bears id span (.scope ks) :=
  hx.bind fun ks => lays_place span (.scope ks) (by simp [Form.children, Form.roles])

theorem lays_optional {layout : α → Build NodeId} {P : α → Tree → NodeId → Prop}
    (h : ∀ a, Lays [] (layout a) (fun id => [id]) (P a)) (o : Option α) :
    Lays [] (optional layout o) Option.toList fun t o' => Option.Rel (P · t ·) o o' := by
  cases o with
  | none =>
    intro t u ht hg
    exact ⟨none, u, rfl, hg, fun _ _ _ hb => hb, fun _ _ => .none⟩
  | some a =>
    intro t u ht hg
    obtain ⟨id, v, hrun, hgrows, hkeeps, hid⟩ := h a t u ht hg
    exact ⟨some id, v, run_bind_eq_ok.2 ⟨id, v, hrun, rfl⟩, hgrows, hkeeps,
      fun w hw => .some (hid w hw)⟩

end Build

open TeachLang.Tree Build

namespace Expr

def StandsAt (t : Tree) : Expr → NodeId → Prop
  | literal span value, id => t.Bears id span (.literal value)
  | reference span name, id => t.Bears id span (.reference name)
  | unary span op operand, id =>
    ∃ k, operand.StandsAt t k ∧ t.Bears id span (.unary op (some k))
  | binary span op left right, id =>
    ∃ k, left.StandsAt t k ∧ ∃ l, right.StandsAt t l ∧ t.Bears id span (op.form k l)

theorem lays_layout (e : Expr) : Lays [] e.layout (fun id => [id]) fun t id => e.StandsAt t id := by
  induction e with
  | literal span value => exact lays_place span _ rfl
  | reference span name => exact lays_place span _ rfl
  | unary span op operand ih => exact ih.bind fun k => lays_place span _ rfl
  | binary span op left right ihl ihr =>
    refine ihl.bind fun k => ihr.bind fun l => lays_place span _ ?_
    cases op <;> rfl

theorem StandsAt.unique {t : Tree} {e e' : Expr} {id : NodeId} (h : e.StandsAt t id)
    (h' : e'.StandsAt t id) : e = e' := by
  induction e generalizing e' id with
  | binary span op left right ihl ihr =>
    cases op <;> cases e' with
    | binary span' op' left' right' =>
      cases op' <;> grind [StandsAt, Bears.unique, BinaryOperator.form]
    | _ => grind [StandsAt, Bears.unique, BinaryOperator.form]
  | _ =>
    cases e' with
    | binary span' op' left' right' =>
      cases op' <;> grind [StandsAt, Bears.unique, BinaryOperator.form]
    | _ => grind [StandsAt, Bears.unique]

end Expr

namespace Simple

def StandsAt (t : Tree) : Simple → NodeId → Prop
  | assign span nameSpan name value, id =>
    ∃ k, t.Bears k nameSpan (.reference name) ∧ ∃ l, value.StandsAt t l ∧
      t.Bears id span (.assign (some k) (some l))
  | input span nameSpan name, id =>
    ∃ k, t.Bears k nameSpan (.reference name) ∧ t.Bears id span (.input (some k))
  | expr value, id => value.StandsAt t id

theorem lays_layout (s : Simple) :
    Lays [] s.layout (fun id => [id]) fun t id => s.StandsAt t id := by
  cases s with
  | assign span nameSpan name value =>
    exact (lays_place nameSpan (.reference name) rfl).bind fun k => value.lays_layout.bind fun l =>
      lays_place span _ rfl
  | input span nameSpan name =>
    exact (lays_place nameSpan (.reference name) rfl).bind fun k => lays_place span _ rfl
  | expr value => exact value.lays_layout

theorem StandsAt.unique {t : Tree} {s s' : Simple} {id : NodeId} (h : s.StandsAt t id)
    (h' : s'.StandsAt t id) : s = s' := by
  -- An expression may have any form but those of the two other kinds.
  have hexpr : ∀ {e : Expr} {span : Span} {f : Form}, e.StandsAt t id → t.Bears id span f →
      f.kind ≠ .assign ∧ f.kind ≠ .input := by
    intro e span f he hf
    cases e with
    | binary span op left right =>
      cases op <;> grind [Expr.StandsAt, Bears.unique, BinaryOperator.form, Form.kind]
    | _ => grind [Expr.StandsAt, Bears.unique, Form.kind]
  cases s <;> cases s' <;> grind [StandsAt, Bears.unique, Expr.StandsAt.unique, Form.kind]

end Simple

theorem optionRel_self {α : Type} {R : α → α → Prop} (hR : ∀ a, R a a) (o : Option α) :
    Option.Rel R o o := by
  cases o with
  | none => exact .none
  | some a => exact .some (hR a)

theorem optionRel_unique {α β : Type} {R : α → β → Prop}
    (hR : ∀ {a a' b}, R a b → R a' b → a = a') {o o' : Option α} {p : Option β}
    (h : Option.Rel R o p) (h' : Option.Rel R o' p) : o = o' := by
  cases h with
  | none =>
    cases h'
    rfl
  | some h =>
    cases h' with
    | some h' => rw [hR h h']

namespace Stmt

mutual

def StandsAt (t : Tree) : Stmt → NodeId → Prop
  | block span body, id => ∃ ks, AllStandAt t body ks ∧ t.Bears id span (.scope ks)
  | ifThen span condition thenBranch, id =>
    ∃ k, condition.StandsAt t k ∧ ∃ l, thenBranch.StandsAt t l ∧
      t.Bears id span (.ifElse (some k) (some l) none)
  | ifElse span condition thenBranch elseBranch, id =>
    ∃ k, condition.StandsAt t k ∧ ∃ l, thenBranch.StandsAt t l ∧ ∃ m, elseBranch.StandsAt t m ∧
      t.Bears id span (.ifElse (some k) (some l) (some m))
  | whileLoop span condition bodySpan body, id =>
    ∃ k, condition.StandsAt t k ∧
      ∃ l, (∃ ks, AllStandAt t body ks ∧ t.Bears l bodySpan (.scope ks)) ∧
      t.Bears id span (.whileLoop (some k) (some l))
  | forLoop span init condition step bodySpan body, id =>
    ∃ i, Option.Rel (·.StandsAt t ·) init i ∧ ∃ k, condition.StandsAt t k ∧
      ∃ s, Option.Rel (·.StandsAt t ·) step s ∧
      ∃ l, (∃ ks, AllStandAt t body ks ∧ t.Bears l bodySpan (.scope ks)) ∧
      t.Bears id span (.forLoop i (some k) s (some l))
  | print span value, id =>
    ∃ k, value.StandsAt t k ∧ t.Bears id span (.print (some k))
  | declare span name initializer, id =>
    ∃ i, Option.Rel (·.StandsAt t ·) initializer i ∧ t.Bears id span (.declaration name i)
  | simple span statement, id =>
    ∃ k, statement.StandsAt t k ∧ t.Bears id span (.expression (some k))

def AllStandAt (t : Tree) : List Stmt → List NodeId → Prop
  | [], ids => ids = []
  | s :: rest, ids => ∃ id, s.StandsAt t id ∧ ∃ others, AllStandAt t rest others ∧
      ids = id :: others

end

mutual

theorem lays_layout : (s : Stmt) →
    Lays [] s.layout (fun id => [id]) fun t id => s.StandsAt t id
  | block span body => (lays_layoutAll body).scope span
  | ifThen span condition thenBranch =>
    condition.lays_layout.bind fun k => (lays_layout thenBranch).bind fun l => lays_place span _ rfl
  | ifElse span condition thenBranch elseBranch =>
    condition.lays_layout.bind fun k => (lays_layout thenBranch).bind fun l =>
      (lays_layout elseBranch).bind fun m => lays_place span _ rfl
  | whileLoop span condition bodySpan body =>
    condition.lays_layout.bind fun k =>
      ((lays_layoutAll body).scope bodySpan).bind fun l =>
        lays_place span _ rfl
  | forLoop span init condition step bodySpan body => by
    refine (lays_optional Simple.lays_layout init).bind fun i => ?_
    refine condition.lays_layout.bind fun k => ?_
    refine (lays_optional Simple.lays_layout step).bind fun s => ?_
    refine ((lays_layoutAll body).scope bodySpan).bind fun l => lays_place span _ ?_
    cases i <;> cases s <;> rfl
  | print span value => value.lays_layout.bind fun k => lays_place span _ rfl
  | declare span name initializer => by
    refine (lays_optional Expr.lays_layout initializer).bind fun i => lays_place span _ ?_
    cases i <;> rfl
  | simple span statement => statement.lays_layout.bind fun k => lays_place span _ rfl

theorem lays_layoutAll : (ss : List Stmt) →
    Lays [] (layoutAll ss) id fun t ids => AllStandAt t ss ids
  | [] => lays_pure [] rfl
  | s :: rest => (lays_layout s).bind fun id => (lays_layoutAll rest).bind fun others =>
      lays_pure (id :: others) rfl

end

mutual

theorem StandsAt.unique {t : Tree} : (s : Stmt) → ∀ {s' : Stmt} {id : NodeId},
    s.StandsAt t id → s'.StandsAt t id → s = s'
  | block span body, s', id, h, h' => by
    cases s' <;> grind [StandsAt, Bears.unique, AllStandAt.unique body]
  | ifThen span c a, s', id, h, h' => by
    cases s' <;> grind [StandsAt, Bears.unique, StandsAt.unique a, Expr.StandsAt.unique]
  | ifElse span c a b, s', id, h, h' => by
    cases s' <;>
      grind [StandsAt, Bears.unique, StandsAt.unique a, StandsAt.unique b, Expr.StandsAt.unique]
  | whileLoop span c bodySpan body, s', id, h, h' => by
    cases s' <;> grind [StandsAt, Bears.unique, AllStandAt.unique body, Expr.StandsAt.unique]
  | forLoop span i c u bodySpan body, s', id, h, h' => by
    cases s' <;> grind [StandsAt, Bears.unique, AllStandAt.unique body, Expr.StandsAt.unique,
      Simple.StandsAt.unique, optionRel_unique]
  | print span value, s', id, h, h' => by
    cases s' <;> grind [StandsAt, Bears.unique, Expr.StandsAt.unique]
  | declare span x i, s', id, h, h' => by
    cases s' <;> grind [StandsAt, Bears.unique, Expr.StandsAt.unique, optionRel_unique]
  | simple span statement, s', id, h, h' => by
    cases s' <;> grind [StandsAt, Bears.unique, Simple.StandsAt.unique]

theorem AllStandAt.unique {t : Tree} : (ss : List Stmt) → ∀ {ss' : List Stmt} {ids : List NodeId},
    AllStandAt t ss ids → AllStandAt t ss' ids → ss = ss'
  | [], ss', _, h, h' => by cases ss' <;> grind [AllStandAt]
  | s :: ss, ss', _, h, h' => by
    cases ss' <;> grind [AllStandAt, StandsAt.unique s, AllStandAt.unique ss]

end

end Stmt

namespace Program

def StandsIn (t : Tree) (p : Program) : Prop :=
  ∃ root, t.root = some root ∧
    (∃ ks, Stmt.AllStandAt t p.statements ks ∧ t.Bears root p.span (.scope ks)) ∧
    ∀ id, t.contains id = true → (t.parent? id = none ↔ id = root)

theorem run_layout_packed (p : Program) :
    ∃ t, p.layout.run {} = (.ok (), t) ∧ p.StandsIn t ∧ t.Packed := by
  obtain ⟨id, t, hrun, hg, _, hp⟩ :=
    (Stmt.lays_layoutAll p.statements).scope p.span {} {} rfl (.refl {})
  obtain ⟨_, hlt, hparent⟩ := (hg.mem_iff id).1 (List.mem_singleton_self id)
  obtain ⟨n, hn⟩ := (t.contains_iff id).1 ((Tree.contains_iff_lt id).2 hlt)
  have hfind := (t.find_eq_ok).2 hn
  rw [Tree.parent?, hn, Option.bind_some] at hparent
  have hkeeps : Keeps t { t with root := some id } := fun _ _ _ hb => hb
  refine ⟨{ t with root := some id }, ?_, ⟨id, rfl, hp _ hkeeps, fun k hk => ?_⟩, id, rfl,
    hg.fills.keeps hkeeps⟩
  · have hroot : (setRoot id).run t = (.ok (), { t with root := some id }) := by
      rw [run_setRoot, hfind]
      simp [hparent]
    exact run_bind_eq_ok.2 ⟨id, t, hrun, hroot⟩
  · have hiff := hg.mem_iff k
    rw [List.mem_singleton] at hiff
    rw [hiff]
    exact ⟨fun h => ⟨Nat.zero_le k, (Tree.contains_iff_lt k).1 hk, h⟩, fun h => h.2.2⟩

theorem run_layout (p : Program) : ∃ t, p.layout.run {} = (.ok (), t) ∧ p.StandsIn t := by
  obtain ⟨t, hrun, hstands, _⟩ := p.run_layout_packed
  exact ⟨t, hrun, hstands⟩

theorem StandsIn.unique {t : Tree} {p q : Program} (hp : p.StandsIn t) (hq : q.StandsIn t) :
    p = q := by
  obtain ⟨root, hroot, ⟨ks, hks, hspan⟩, _⟩ := hp
  obtain ⟨root', hroot', ⟨ks', hks', hspan'⟩, _⟩ := hq
  cases hroot.symm.trans hroot'
  obtain ⟨hp, hform⟩ := hspan.unique hspan'
  cases hform
  cases p
  cases q
  cases hp
  cases Stmt.AllStandAt.unique _ hks hks'
  rfl

end Program

end TeachLang
