import TeachLang.Proofs.EvalComplete

/-!
# What expressions denote

A node below which there are only literals, references and operations, none of them without an
operand, is an expression. Where variables have integers as values it denotes an integer: that of
exact arithmetic, brought back into the range of words. Or it has a first part that fails, among
those that no short circuit skips. Its evaluation always ends, with the one or the other, and does
no more to the machine than set the register.
-/

namespace TeachLang

open TeachLang.Tree

/-- The word-sized integer that is the same modulo the number of words. -/
def wrap (n : Int) : Int := n.bmod UInt64.size

/-! ### Operators on integers -/

/-- The result of an operation, which a division by zero does not have. Division truncates toward
zero and a remainder has the sign of what is divided. -/
def ArithmeticOperator.denote : ArithmeticOperator → Int → Int → Option Int
  | add, a, b => some (wrap (a + b))
  | sub, a, b => some (wrap (a - b))
  | mul, a, b => some (wrap (a * b))
  | div, a, b => if b = 0 then none else some (wrap (a.tdiv b))
  | mod, a, b => if b = 0 then none else some (a.tmod b)

def UnaryOperator.denote : UnaryOperator → Int → Int
  | negate, a => wrap (-a)
  | identity, a => a
  | not, a => if a = 0 then 1 else 0

namespace LogicOperator

def settled : LogicOperator → Int → Option Int
  | and, a => if a = 0 then some 0 else none
  | or, a => if a = 0 then none else some 1
  | _, _ => none

def denote : LogicOperator → Int → Int → Int
  | greater, a, b => if a > b then 1 else 0
  | less, a, b => if a < b then 1 else 0
  | greaterEqual, a, b => if a ≥ b then 1 else 0
  | lessEqual, a, b => if a ≤ b then 1 else 0
  | equal, a, b => if a = b then 1 else 0
  | notEqual, a, b => if a ≠ b then 1 else 0
  | and, a, b => if a ≠ 0 ∧ b ≠ 0 then 1 else 0
  | or, a, b => if a ≠ 0 ∨ b ≠ 0 then 1 else 0
  | xor, a, b => (BitVec.ofInt 64 a ^^^ BitVec.ofInt 64 b).toInt

end LogicOperator

theorem toInt_eq_zero_iff {a : Int64} : a.toInt = 0 ↔ a = 0 := by
  rw [← Int64.toInt_zero, Int64.toInt_inj]

theorem toInt_truth (p : Prop) [Decidable p] : (truth p).toInt = if p then 1 else 0 := by
  by_cases hp : p
  · rw [truth, if_pos (decide_eq_true hp), if_pos hp, Int64.toInt_one]
  · simp [truth, hp]

theorem ArithmeticOperator.toInt_apply (op : ArithmeticOperator) (a b : Int64) :
    (op.apply a b).map Int64.toInt = op.denote a.toInt b.toInt := by
  cases op with
  | add => exact congrArg some (Int64.toInt_add a b)
  | sub => exact congrArg some (Int64.toInt_sub a b)
  | mul => exact congrArg some (Int64.toInt_mul a b)
  | div =>
    by_cases hb : b = 0
    · simp [apply, denote, hb]
    · rw [apply, denote, if_neg hb, if_neg (mt toInt_eq_zero_iff.1 hb)]
      exact congrArg some (Int64.toInt_div a b)
  | mod =>
    by_cases hb : b = 0
    · simp [apply, denote, hb]
    · rw [apply, denote, if_neg hb, if_neg (mt toInt_eq_zero_iff.1 hb)]
      exact congrArg some (Int64.toInt_mod a b)

/-- The one quotient out of range comes back to the least word; nothing remains of it. -/
example : ArithmeticOperator.div.denote Int64.minValue.toInt (-1) = some Int64.minValue.toInt ∧
    ArithmeticOperator.mod.denote Int64.minValue.toInt (-1) = some 0 := by decide

theorem UnaryOperator.toInt_apply (op : UnaryOperator) (a : Int64) :
    (op.apply a).toInt = op.denote a.toInt := by
  cases op with
  | negate => exact Int64.toInt_neg a
  | identity => rfl
  | not => simp only [apply, denote, toInt_truth, toInt_eq_zero_iff]

namespace LogicOperator

theorem toInt_settledBy (op : LogicOperator) (a : Int64) :
    (op.settledBy a).map Int64.toInt = op.settled a.toInt := by
  by_cases ha : a = 0 <;> cases op <;> simp [settledBy, settled, ha, toInt_eq_zero_iff]

theorem toInt_apply (op : LogicOperator) (a b : Int64) :
    (op.apply a b).toInt = op.denote a.toInt b.toInt := by
  cases op with
  | xor =>
    change (a ^^^ b).toBitVec.toInt = _
    simp only [denote, Int64.toBitVec_xor, Int64.toInt, BitVec.ofInt_toInt]
  | _ =>
    simp only [apply, denote, toInt_truth, gt_iff_lt, ge_iff_le, Int64.lt_iff_toInt_lt,
      Int64.le_iff_toInt_le, Int64.toInt_inj, ne_eq, toInt_eq_zero_iff]

end LogicOperator

/-! ### Expressions -/

namespace Expr

variable (env : String → Option Int)

def value : Expr → Option Int
  | literal _ v => some v.toInt
  | reference _ x => env x
  | unary _ op e => (e.value).map op.denote
  | binary _ (.arithmetic op) l r => do op.denote (← l.value) (← r.value)
  | binary _ (.logic op) l r => do
    let a ← l.value
    match op.settled a with
    | some v => return v
    | none => return op.denote a (← r.value)

def skips (op : BinaryOperator) (left : Expr) : Bool :=
  match op with
  | .arithmetic _ => false
  | .logic op => ((left.value env).bind op.settled).isSome

/-- The parts that no short circuit skips, operands before operations and from left to right. -/
def visited : Expr → List Expr
  | literal span v => [literal span v]
  | reference span x => [reference span x]
  | unary span op e => e.visited ++ [unary span op e]
  | binary span op l r =>
    l.visited ++ (if skips env op l then [] else r.visited) ++ [binary span op l r]

def ownFault : Expr → Option (Fault × Span)
  | reference span x => if env x = none then some (.undefinedVariable x, span) else none
  | binary span (.arithmetic .div) _ r | binary span (.arithmetic .mod) _ r =>
    if r.value env = some 0 then some (.divisionByZero, span) else none
  | _ => none

def firstFault (e : Expr) : Option (Fault × Span) := (e.visited env).findSome? (ownFault env)

variable {env}

theorem firstFault_unary (span : Span) (op : UnaryOperator) (e : Expr) :
    (unary span op e).firstFault env = e.firstFault env := by
  simp [firstFault, visited, List.findSome?_append, ownFault]

theorem firstFault_of_left {span : Span} {op : BinaryOperator} {l r : Expr} {f : Fault × Span}
    (h : l.firstFault env = some f) : (binary span op l r).firstFault env = some f := by
  rw [firstFault] at h
  simp [firstFault, visited, List.findSome?_append, h]

theorem firstFault_of_skips {span : Span} {op : LogicOperator} {l r : Expr}
    (hl : l.firstFault env = none) (hskips : skips env (.logic op) l = true) :
    (binary span (.logic op) l r).firstFault env = none := by
  rw [firstFault] at hl
  simp [firstFault, visited, List.findSome?_append, hl, hskips, ownFault]

theorem firstFault_of_not_skips (span : Span) {op : BinaryOperator} {l : Expr} (r : Expr)
    (hl : l.firstFault env = none) (hskips : skips env op l = false) :
    (binary span op l r).firstFault env =
      (r.firstFault env).or (ownFault env (binary span op l r)) := by
  rw [firstFault] at hl
  simp [firstFault, visited, List.findSome?_append, hl, hskips]

/-- An expression that has a value has no fault. -/
theorem firstFault_of_value {e : Expr} {n : Int} (h : e.value env = some n) :
    e.firstFault env = none := by
  induction e generalizing n with
  | literal span v => rfl
  | reference span x =>
    have hx : env x = some n := h
    simp [firstFault, visited, ownFault, hx]
  | unary span op e ih =>
    rw [value, Option.map_eq_some_iff] at h
    obtain ⟨a, ha, -⟩ := h
    rw [firstFault_unary, ih ha]
  | binary span op l r ihl ihr =>
    cases op with
    | arithmetic op =>
      obtain ⟨a, ha, h⟩ := Option.bind_eq_some_iff.1 h
      obtain ⟨b, hb, h⟩ := Option.bind_eq_some_iff.1 h
      have hzero : op = .div ∨ op = .mod → r.value env ≠ some 0 := by
        rw [hb]
        rintro (rfl | rfl) hr
        · cases hr
          cases h
        · cases hr
          cases h
      rw [firstFault_of_not_skips span r (ihl ha) rfl, ihr hb, Option.none_or]
      cases op with
      | div => exact if_neg (hzero (.inl rfl))
      | mod => exact if_neg (hzero (.inr rfl))
      | _ => rfl
    | logic op =>
      obtain ⟨a, ha, h⟩ := Option.bind_eq_some_iff.1 h
      cases hsettled : op.settled a with
      | some v => exact firstFault_of_skips (ihl ha) (by simp [skips, ha, hsettled])
      | none =>
        rw [hsettled] at h
        obtain ⟨b, hb, -⟩ := Option.bind_eq_some_iff.1 h
        rw [firstFault_of_not_skips span r (ihl ha) (by simp [skips, ha, hsettled]), ihr hb]
        rfl

end Expr

def Machine.env (m : Machine) (x : String) : Option Int := (m.scopes.get? x).map Int64.toInt

variable {t : Tree}

/-- The evaluation of the node ends, with no more done to the machine than that the register is set:
with what the expression denotes, or with its first fault. -/
inductive Denotes (t : Tree) (id : NodeId) (m : Machine) (e : Expr) : Prop
  | value (v : Int64) (hfault : e.firstFault m.env = none) (hv : e.value m.env = some v.toInt)
      (h : Evaluates t (.node id) m (.ok ()) { m with register := v })
  | fault (f : Fault) (span : Span) (v : Int64) (hf : e.firstFault m.env = some (f, span))
      (h : Evaluates t (.node id) m (faultAt f span) { m with register := v })

namespace Expr

theorem denotes_reference {id : NodeId} {span : Span} {x : String}
    (h : t.Bears id span (.reference x)) (m : Machine) : Denotes t id m (.reference span x) := by
  cases hx : m.scopes.get? x with
  | some v =>
    have hv : m.env x = some v.toInt := by rw [Machine.env, hx, Option.map_some]
    exact .value v (by simp [firstFault, visited, ownFault, hv]) hv (.reference h hx)
  | none =>
    have hv : m.env x = none := by rw [Machine.env, hx, Option.map_none]
    exact .fault _ span m.register (by simp [firstFault, visited, ownFault, hv]) (.undefined h hx)

theorem denotes_unary {id k : NodeId} {span : Span} {op : UnaryOperator} {e : Expr} {m : Machine}
    (h : t.Bears id span (.unary op (some k))) (he : Denotes t k m e) :
    Denotes t id m (.unary span op e) := by
  cases he with
  | value v hfault hv he =>
    refine .value (op.apply v) ?_ ?_ (.unary h he)
    · rw [firstFault_unary, hfault]
    · rw [value, hv, Option.map_some, op.toInt_apply]
  | fault f place v hf he =>
    exact .fault f place v (by rw [firstFault_unary, hf]) (.unaryError h he)

theorem ownFault_arithmetic {env : String → Option Int} {span : Span} {op : ArithmeticOperator}
    {l r : Expr} {a b : Int64} (h : r.value env = some b.toInt) :
    ownFault env (binary span (.arithmetic op) l r) =
      if op.apply a b = none then some (.divisionByZero, span) else none := by
  cases op <;> simp [ownFault, h, ArithmeticOperator.apply, toInt_eq_zero_iff]

theorem denotes_arithmetic {id k l : NodeId} {span : Span} {op : ArithmeticOperator} {a b : Expr}
    {m : Machine} (h : t.Bears id span (.arithmetic op (some k) (some l)))
    (ha : Denotes t k m a) (hb : ∀ v, Denotes t l { m with register := v } b) :
    Denotes t id m (.binary span (.arithmetic op) a b) := by
  cases ha with
  | fault f place v hf ha =>
    exact .fault f place v (firstFault_of_left hf) (.arithmeticLeftError h ha)
  | value v hfault hv ha =>
    have hskips : skips m.env (.arithmetic op) a = false := rfl
    have hfirst := firstFault_of_not_skips span b hfault hskips
    cases hb v with
    | fault f place w hf hb =>
      refine .fault f place w ?_ (.arithmeticRightError h ha hb)
      rw [hfirst]
      exact congrArg (Option.or · _) hf
    | value w hfault' hw hb =>
      change b.firstFault m.env = none at hfault'
      change b.value m.env = some w.toInt at hw
      rw [hfault', Option.none_or, ownFault_arithmetic hw] at hfirst
      cases hvalue : op.apply v w with
      | none =>
        have hrun := Evaluates.divisionByZero h ha hb hvalue
        exact .fault .divisionByZero span w (hfirst.trans (if_pos hvalue)) hrun
      | some u =>
        have hrun := Evaluates.arithmetic h ha hb hvalue
        refine .value u (hfirst.trans ?_) ?_ hrun
        · rw [hvalue]
          rfl
        · simp [value, hv, hw, ← op.toInt_apply, hvalue]

theorem denotes_logic {id k l : NodeId} {span : Span} {op : LogicOperator} {a b : Expr}
    {m : Machine} (h : t.Bears id span (.logic op (some k) (some l)))
    (ha : Denotes t k m a) (hb : ∀ v, Denotes t l { m with register := v } b) :
    Denotes t id m (.binary span (.logic op) a b) := by
  cases ha with
  | fault f place v hf ha =>
    exact .fault f place v (firstFault_of_left hf) (.logicLeftError h ha)
  | value v hfault hv ha =>
    have hsettled := op.toInt_settledBy v
    rcases op.settledBy_cases v with ⟨rfl, hzero, hs⟩ | ⟨rfl, hone, hs⟩ | ⟨hneeds, hs⟩
    · rw [hs] at hsettled
      have hrun := Evaluates.andFalse h ha hzero
      refine .value 0 (firstFault_of_skips hfault ?_) ?_ hrun
      · simp [skips, hv, ← hsettled]
      · simp [value, hv, ← hsettled]
    · rw [hs] at hsettled
      have hrun := Evaluates.orTrue h ha hone
      refine .value 1 (firstFault_of_skips hfault ?_) ?_ hrun
      · simp [skips, hv, ← hsettled]
      · simp [value, hv, ← hsettled]
    · rw [hs] at hsettled
      have hskips : skips m.env (.logic op) a = false := by simp [skips, hv, ← hsettled]
      have hfirst := firstFault_of_not_skips span b hfault hskips
      cases hb v with
      | fault f place w hf hb =>
        refine .fault f place w ?_ (.logicRightError h ha hneeds hb)
        rw [hfirst]
        exact congrArg (Option.or · _) hf
      | value w hfault' hw hb =>
        change b.value m.env = some w.toInt at hw
        have hrun := Evaluates.logic h ha hneeds hb
        refine .value (op.apply v w) ?_ ?_ hrun
        · rw [hfirst]
          exact congrArg (Option.or · _) hfault'
        · simp [value, hv, hw, ← hsettled, op.toInt_apply]

/-- On the expression: the right operand finds the same variables, as the left one has set the
register only. -/
theorem StandsAt.denotes {e : Expr} {id : NodeId} (h : e.StandsAt t id) (m : Machine) :
    Denotes t id m e := by
  induction e generalizing id m with
  | literal span v => exact .value v rfl rfl (.literal h)
  | reference span x => exact denotes_reference h m
  | unary span op e ih =>
    obtain ⟨k, hk, hb⟩ := h
    exact denotes_unary hb (ih hk m)
  | binary span op a b iha ihb =>
    obtain ⟨k, hk, l, hl, hb⟩ := h
    cases op with
    | arithmetic op =>
      exact denotes_arithmetic hb (iha hk m) fun v => ihb hl { m with register := v }
    | logic op => exact denotes_logic hb (iha hk m) fun v => ihb hl { m with register := v }

end Expr

def Form.complete : Form → Bool
  | literal _ | reference _ | unary _ (some _) => true
  | arithmetic _ (some _) (some _) | logic _ (some _) (some _) => true
  | _ => false

def Tree.Pure (t : Tree) (id : NodeId) : Prop :=
  ∀ k span f, t.Above id k → t.Bears k span f → f.complete = true

namespace Tree

theorem Pure.child {id k : NodeId} (h : t.Pure id) (hk : t.parent? k = some id) : t.Pure k :=
  fun j span f hj hb => h j span f (.tail hj hk) hb

/-- Down to the leaves, each node says what an expression says whose operands stand below it. -/
theorem Forest.exists_expr (hf : Forest t) {id : NodeId} (hid : t.contains id = true)
    (hpure : t.Pure id) : ∃ e : Expr, e.StandsAt t id := by
  refine hf.descend (motive := fun _ id => t.Pure id → ∃ e : Expr, e.StandsAt t id)
    (fun bound id n hn ih hpure => ?_) hid hpure
  have hb : t.Bears id n.span n.form := ⟨n, hn, rfl, rfl⟩
  have hcomplete := hpure id _ _ .refl hb
  have hchild : ∀ k ∈ n.form.children, ∃ e : Expr, e.StandsAt t k := fun k hk =>
    ih k hk (hpure.child (hf.parent?_of_mem hn hk))
  obtain ⟨form, parent, span⟩ := n
  cases form with
  | literal v => exact ⟨.literal span v, hb⟩
  | reference x => exact ⟨.reference span x, hb⟩
  | unary op operand =>
    obtain _ | k := operand
    · cases hcomplete
    obtain ⟨e, he⟩ := hchild k (by simp [Form.children, Form.roles])
    exact ⟨.unary span op e, k, he, hb⟩
  | arithmetic op left right =>
    obtain _ | k := left
    · cases hcomplete
    obtain _ | l := right
    · cases hcomplete
    obtain ⟨e, he⟩ := hchild k (by simp [Form.children, Form.roles])
    obtain ⟨e', he'⟩ := hchild l (by simp [Form.children, Form.roles])
    exact ⟨.binary span (.arithmetic op) e e', k, he, l, he', hb⟩
  | logic op left right =>
    obtain _ | k := left
    · cases hcomplete
    obtain _ | l := right
    · cases hcomplete
    obtain ⟨e, he⟩ := hchild k (by simp [Form.children, Form.roles])
    obtain ⟨e', he'⟩ := hchild l (by simp [Form.children, Form.roles])
    exact ⟨.binary span (.logic op) e e', k, he, l, he', hb⟩
  | _ => cases hcomplete

/-- An expression is evaluated with every large enough bound, from whatever machine, and only the
register is changed. The outcome is what the expression denotes or else its first fault. -/
theorem evaluate_denotes (ht : Built t) {id : NodeId} (hid : t.contains id = true)
    (hpure : t.Pure id) :
    ∃ e : Expr, e.StandsAt t id ∧ ∀ m : Machine, ∃ (v : Int64) (r : Except Error Int64),
      Settles (fun bound => t.evaluate bound id) m r { m with register := v } ∧
      match e.firstFault m.env with
      | none => r = .ok v ∧ e.value m.env = some v.toInt
      | some (f, span) => r = .error (.runtime (.located f span)) := by
  obtain ⟨e, he⟩ := ht.forest.exists_expr hid hpure
  refine ⟨e, he, fun m => ?_⟩
  cases he.denotes m with
  | value v hfault hv h =>
    obtain ⟨least, h⟩ := h.reaches
    refine ⟨v, .ok v, ⟨least, fun bound hbound => ?_⟩, ?_⟩
    · exact evaluate_eq_ok.2 ⟨h bound hbound, rfl⟩
    · rw [hfault]
      exact ⟨rfl, hv⟩
  | fault f span v hf h =>
    obtain ⟨least, h⟩ := h.reaches
    refine ⟨v, .error (.runtime (.located f span)), ⟨least, fun bound hbound => ?_⟩, ?_⟩
    · exact evaluate_eq_error.2 (h bound hbound)
    · rw [hf]

/-- Both operands of the quotient are settled by their left sides, so that the unbound variables on
the right are skipped and the division is the first to fail. -/
theorem division_fails_behind_short_circuits :
    let span : Span := ⟨none, 1, 1, 1, 20⟩
    let t := [Operation.add (.reference "a"), .add (.reference "b"),
      .add (.logic .or (some 0) (some 1)), .add (.reference "c"), .add (.reference "d"),
      .add (.logic .and (some 3) (some 4)), .add (.arithmetic .div (some 2) (some 5)),
      .setSpan 6 span].foldl Operation.apply {}
    let m : Machine := { scopes := ⟨[("a", 5)], [[("c", 0)]]⟩ }
    Built t ∧ t.contains 6 = true ∧ t.Pure 6 ∧ ∃ v, Settles (fun bound => t.evaluate bound 6) m
      (.error (.runtime ⟨.divisionByZero, some span⟩)) { m with register := v } := by
  intro span t m
  have hbuilt : Built t := Built.empty.operateAll _ (by simp)
  have hid : t.contains 6 = true := by decide
  have hpure : t.Pure 6 := by
    have hall : ∀ k < 7, (t.get? k).all (·.form.complete) = true := by decide
    rintro k span f - ⟨n, hn, rfl, -⟩
    have hk : k < 7 := (contains_iff_lt k).1 ((t.contains_iff k).2 ⟨n, hn⟩)
    simpa [hn] using hall k hk
  obtain ⟨e, he, hrun⟩ := evaluate_denotes hbuilt hid hpure
  obtain ⟨v, r, hr, hfault⟩ := hrun m
  let quotient : Expr := .binary span (.arithmetic .div)
    (.binary {} (.logic .or) (.reference {} "a") (.reference {} "b"))
    (.binary {} (.logic .and) (.reference {} "c") (.reference {} "d"))
  have hquotient : quotient.StandsAt t 6 :=
    ⟨2, ⟨0, ⟨_, rfl, rfl, rfl⟩, 1, ⟨_, rfl, rfl, rfl⟩, _, rfl, rfl, rfl⟩,
      5, ⟨3, ⟨_, rfl, rfl, rfl⟩, 4, ⟨_, rfl, rfl, rfl⟩, _, rfl, rfl, rfl⟩, _, rfl, rfl, rfl⟩
  obtain rfl := he.unique hquotient
  have hfirst : quotient.firstFault m.env = some (.divisionByZero, span) := by decide
  rw [hfirst] at hfault
  exact ⟨hbuilt, hid, hpure, v, hfault ▸ hr⟩

end Tree

end TeachLang
