import TeachLang.Proofs.Denotation
import TeachLang.Proofs.Excerpts
import TeachLang.Proofs.IntegerLines
import TeachLang.Proofs.Mimicry
import TeachLang.Proofs.Overflow
import TeachLang.Proofs.Rendering

/-!
# The texts of an integer

What a program writes are lines of integers, so it can be read back. The text of an integer is also
an expression for it, with a minus sign as an operator; but there is no literal for the integer that
is farthest from zero, and so none of its text.
-/

namespace TeachLang

open TeachLang.Tree

namespace Sink

structure Open (s : Sink) : Prop where
  free : s.capacity = none
  flushes : s.flushError = none

def print (s : Sink) (vs : List Int64) : Sink :=
  { s with written := s.written ++ (printed vs).toUTF8 }

theorem print_nil (s : Sink) : s.print [] = s := by
  have hempty : (printed []).toUTF8 = ByteArray.empty := rfl
  rw [print, hempty, ByteArray.append_empty]

theorem print_append (s : Sink) (vs ws : List Int64) :
    s.print (vs ++ ws) = (s.print vs).print ws := by
  simp only [print, printed_append, String.toUTF8_eq_toByteArray, String.toByteArray_append,
    ByteArray.append_assoc]

theorem write_line {s : Sink} (h : s.capacity = none) (v : Int64) :
    s.write (Text.integerText v ++ "\n") = (.ok (), s.print [v]) := by
  rw [write_unlimited h, print, printed_singleton]

def Gains (s s' : Sink) : Prop := s.capacity = none → ∃ vs, s' = s.print vs

theorem Gains.refl (s : Sink) : Gains s s := fun _ => ⟨[], s.print_nil.symm⟩

theorem Gains.trans {s s₁ s₂ : Sink} (h : Gains s s₁) (h' : Gains s₁ s₂) : Gains s s₂ := by
  intro hfree
  obtain ⟨vs, rfl⟩ := h hfree
  obtain ⟨ws, rfl⟩ := h' hfree
  exact ⟨vs ++ ws, (s.print_append vs ws).symm⟩

end Sink

/-- However a task ends, it has written lines of integers. -/
theorem Evaluates.gains {t : Tree} {task : Task} {m m' : Machine} {r : Except Error Unit}
    (h : Evaluates t task m r m') : m.sink.Gains m'.sink := by
  induction h with
  | @print _ _ _ _ _ _ m m₁ sink h hf hkind hk hwrite ih =>
    refine ih.trans fun hfree => ⟨[m₁.register], ?_⟩
    rw [Sink.write_line hfree] at hwrite
    exact (Prod.mk.inj hwrite).2.symm
  | literal | reference | undefined | unaryMissing | arithmeticMissing | logicLeftMissing
  | expressionMissing | printMissing | printInvalid | assignTargetMissing | assignTargetInvalid
  | assignValueMissing | zeroDeclaration | zeroDuplicate | inputTargetMissing | inputTargetInvalid
  | inputError | inputFormat | input | ifConditionMissing | ifConditionInvalid
  | whileConditionMissing | whileBodyMissing | whileConditionInvalid | whileBodyInvalid
  | forConditionMissing | forBodyMissing | forConditionInvalid | forBodyInvalid | nil =>
    exact .refl _
  | arithmeticRightError h hk hl ihk ihl | divisionByZero h hk hl hv ihk ihl
  | arithmetic h hk hl hv ihk ihl | logicRightError h hk hneeds hl ihk ihl
  | logic h hk hneeds hl ihk ihl | ifThen h hf hkind hk hv hl ihk ihl
  | ifElse h hf hkind hk hv hl ihk ihl | forLoop h hf hkind hg hkind' hi hr ihk ihl
  | cons hk hs ihk ihl | roundsError hk hv hs ihk ihl => exact ihk.trans ihl
  | roundsAgain hk hv hs hr ihk ihs ihr => exact ihk.trans (ihs.trans ihr)
  | _ => assumption

namespace Tree

variable {t : Tree} {m m' m'' : Machine} {r r' : Except Error Unit} {k : NodeId} {v : Int64}
  {ks : List NodeId} {vs : List Int64}

theorem Ends.unique (hf : Forest t) (h : t.Ends m r m') (h' : t.Ends m r' m'') :
    r = r' ∧ m' = m'' := by
  obtain ⟨least, hrun⟩ := h.settles hf
  obtain ⟨least', hrun'⟩ := h'.settles hf
  have heq := hrun (max least least') (Nat.le_max_left _ _)
  rw [hrun' (max least least') (Nat.le_max_right _ _)] at heq
  cases heq
  exact ⟨rfl, rfl⟩

theorem Ends.gains (hf : Forest t) (h : t.Ends m r m') : m.sink.Gains m'.sink := by
  obtain ⟨bound, h⟩ := h
  rw [run_apply] at h
  cases hroot : t.root with
  | none =>
    rw [hroot] at h
    cases h
    exact .refl _
  | some root =>
    rw [hroot] at h
    obtain ⟨⟨r₁, m₁⟩, hexec, heq⟩ := Option.map_eq_some_iff.1 h
    cases heq
    have heval := (exec_iff hf (hf.root_parentless root hroot).1).1 ⟨bound, hexec⟩
    exact heval.gains

def Outputs (t : Tree) (m : Machine) (vs : List Int64) : Prop :=
  ∃ m₁, m₁.sink = m.sink.print vs ∧ ∀ r m', t.Ends m r m' ↔ r = .ok () ∧ m' = m₁

def Prints (t : Tree) (env : String → Option Int) (k : NodeId) (v : Int64) : Prop :=
  ∃ (span : Span) (l : NodeId) (e : Expr), t.Bears k span (.print (some l)) ∧ e.StandsAt t l ∧
    e.value env = some v.toInt

theorem Prints.evaluates (h : t.Prints m.env k v) (hfree : m.sink.capacity = none) :
    Evaluates t (.node k) m (.ok ()) { m with register := v, sink := m.sink.print [v] } := by
  obtain ⟨span, l, e, hb, hstands, hv⟩ := h
  obtain ⟨n, hn, hkind⟩ := hstands.evaluable
  cases hstands.denotes m with
  | value w _ hw hrun =>
    rw [hv, Option.some_inj, Int64.toInt_inj] at hw
    subst hw
    exact .print hb ⟨n, hn, rfl, rfl⟩ hkind hrun (Sink.write_line hfree v)
  | fault f place w hf =>
    rw [Expr.firstFault_of_value hv] at hf
    cases hf

theorem evaluates_prints (h : List.Forall₂ (t.Prints m.env) ks vs)
    (hfree : m.sink.capacity = none) :
    ∃ m', Evaluates t (.sequence ks) m (.ok ()) m' ∧ m'.sink = m.sink.print vs := by
  generalize henv : m.env = env at h
  induction h generalizing m with
  | nil => exact ⟨m, .nil, m.sink.print_nil.symm⟩
  | @cons k v ks vs hk _ ih =>
    subst henv
    -- To print changes neither the variables nor that there is room.
    obtain ⟨m', hrest, hsink⟩ :=
      ih (m := { m with register := v, sink := m.sink.print [v] }) hfree rfl
    refine ⟨m', .cons (hk.evaluates hfree) hrest, ?_⟩
    rw [hsink, ← Sink.print_append]
    rfl

/-- A program of statements that print outputs what they print. -/
theorem outputs_of_prints (hf : Forest t) (hks : t.HasStatements ks) (hopen : m.sink.Open)
    (h : List.Forall₂ (t.Prints m.env) ks vs) : t.Outputs m vs := by
  obtain ⟨m₁, heval, hsink⟩ := evaluates_prints h hopen.free
  have hflush : m₁.sink.flush = .ok () := by
    rw [hsink, Sink.flush, Sink.print, hopen.flushes]
  have hends : t.Ends m (.ok ()) m₁ := (ends_iff hf hks).2 ⟨.ok (), heval, by rw [hflush]; rfl⟩
  refine ⟨m₁, hsink, fun r m' => ?_⟩
  constructor
  · exact fun h => h.unique hf hends
  · rintro ⟨rfl, rfl⟩
    exact hends

theorem prints_of_allStandAt
    (h : Stmt.AllStandAt t (vs.map fun v => .print {} (.literal {} v)) ks)
    (env : String → Option Int) : List.Forall₂ (t.Prints env) ks vs := by
  induction vs generalizing ks with
  | nil =>
    obtain rfl := h
    exact .nil
  | cons v vs ih =>
    obtain ⟨k, ⟨l, hl, hb⟩, ks, hrest, rfl⟩ := h
    exact .cons ⟨{}, l, .literal {} v, hb, hl, rfl⟩ (ih hrest)

/-- Any values can be printed, whatever the variables. -/
theorem exists_prints (vs : List Int64) :
    ∃ t ks, Built t ∧ t.HasStatements ks ∧ ∀ env, List.Forall₂ (t.Prints env) ks vs := by
  let p : Program := ⟨{}, vs.map fun v => .print {} (.literal {} v)⟩
  obtain ⟨t, hrun, hstands⟩ := p.run_layout
  obtain ⟨ks, hks, hall⟩ := hstands.hasStatements
  exact ⟨t, ks, Program.built_of_run_layout hrun, hks, prints_of_allStandAt hall⟩

end Tree

/-! ### The text of an integer in a source -/

open Lexer

theorem Expr.Alike.value_eq {R : Span → Span → Prop} {e e' : Expr} (h : e.Alike R e')
    (env : String → Option Int) : e'.value env = e.value env := by
  induction h with
  | literal v _ => rfl
  | reference x _ => rfl
  | unary op _ _ ih => rw [value, value, ih]
  | binary op _ _ _ iha ihb =>
    cases op with
    | arithmetic op => rw [value, value, iha, ihb]
    | logic op => rw [value, value, iha, ihb]

namespace Text

variable {v : Int64}

/-- The negation of an integer is in range, but for the least one. -/
theorem toInt_neg_of_ne (hv : v ≠ Int64.minValue) : (-v).toInt = -v.toInt := by
  have hmin : Int64.minValue.toInt = -2 ^ 63 := rfl
  have hmax : Int64.maxValue.toInt = 2 ^ 63 - 1 := rfl
  have hne : v.toInt ≠ Int64.minValue.toInt := fun h => hv (Int64.toInt_inj.1 h)
  have hle := v.minValue_le_toInt
  have hge := v.toInt_le
  rw [Int64.toInt_neg]
  apply Int.bmod_eq_of_le
  · omega
  · omega

theorem integerText_of_neg (hneg : v.toInt < 0) (hv : v ≠ Int64.minValue) :
    (integerText v).toList = '-' :: (integerText (-v)).toList := by
  have htoInt := toInt_neg_of_ne hv
  have habs : (-v).toInt.natAbs = v.toInt.natAbs := by rw [htoInt, Int.natAbs_neg]
  have hpos : ¬(-v).toInt < 0 := by omega
  simp only [integerText, String.toList_ofList, integerChars, if_pos hneg, if_neg hpos, habs]

end Text

/-- The text of an integer is an expression with that value, but for the least one. -/
theorem exists_spelled_integerText {v : Int64} (hv : v ≠ Int64.minValue) :
    ∃ (ts : List Located) (e : Expr), e.Spelled 7 ts ∧
      Lexemes false (Text.integerText v).toList (ts.map Located.token) false ∧
      ∀ env, e.value env = some v.toInt := by
  have hdigits : ∀ {w : Int64}, 0 ≤ w →
      Lexemes false (Text.integerText w).toList [.number w] false := by
    intro w hw
    have hword := Lexemes.word (spells_integerText hw) (edge_nil.head _) (.nil false)
    rwa [List.append_nil] at hword
  by_cases hneg : v.toInt < 0
  · have hpos : 0 ≤ -v := by
      rw [Int64.le_iff_toInt_le, Text.toInt_neg_of_ne hv, Int64.toInt_zero]
      omega
    have hmem : (Token.minus, UnaryOperator.negate) ∈ unaryOperators := by decide
    have hminus : Token.minus.Spells ['-'] := .lexeme rfl
    refine ⟨_, _, (Expr.Spelled.unary {} hmem (.number {} (-v))).topmost, ?_, fun env => ?_⟩
    · rw [Text.integerText_of_neg hneg hv]
      exact .word hminus (fun _ _ => rfl) (hdigits hpos)
    · rw [Expr.value, Expr.value, Option.map_some, ← UnaryOperator.toInt_apply]
      exact congrArg (some ∘ Int64.toInt) Int64.neg_neg
  · have hpos : 0 ≤ v := by
      rw [Int64.le_iff_toInt_le, Int64.toInt_zero]
      omega
    exact ⟨_, _, (Expr.Spelled.number {} v).topmost, hdigits hpos, fun _ => rfl⟩

theorem Tree.outputs_integerText {v : Int64} (hv : v ≠ Int64.minValue) (file : Option String) :
    ∃ t, ofSource ("print " ++ Text.integerText v ++ ";") file = .ok t ∧
      ∀ m, m.sink.Open → t.Outputs m [v] := by
  obtain ⟨ts, e, he, htext, hvalue⟩ := exists_spelled_integerText hv
  obtain ⟨t, p, span, k, e', ht, hf, hks, hb, hk, halike⟩ := he.printed htext file
  refine ⟨t, ht, fun m hopen => outputs_of_prints hf hks hopen (.cons ?_ .nil)⟩
  exact ⟨span, k, e', hb, hk, by rw [halike.value_eq, hvalue]⟩

/-- The digits of the least integer are beyond the greatest one. -/
theorem scan_least (file : Option String) :
    scan ("print " ++ Text.integerText Int64.minValue ++ ";") file =
      .error ⟨.invalidNumber "9223372036854775808", .point file 1 8⟩ := by
  have htext : "print " ++ Text.integerText Int64.minValue ++ ";" =
      "print -9223372036854775808;" := by decide +kernel
  rw [htext]
  rfl

/-- What is printed can be read. There is a program that prints the values one wants, all programs
that do output their lines, and from these lines the values are read back in order, and no more;
what other programs output are lines of integers too. A single one can also be printed by the text
of its line. The exception is the least integer, as its digits alone are no number. -/
theorem integer_texts_agree :
    (∀ vs, (∃ t ks, Built t ∧ t.HasStatements ks ∧ ∀ env, List.Forall₂ (t.Prints env) ks vs) ∧
      (∀ t ks m, Built t → t.HasStatements ks → m.sink.Open →
        List.Forall₂ (t.Prints m.env) ks vs → t.Outputs m vs) ∧
      ∀ k, (Reader.takeIntegers k { unread := (printed vs).toUTF8.data.toList }).1 =
        (List.range k).map fun i => .ok vs[i]?) ∧
    (∀ t m r m', Built t → m.sink.capacity = none → t.Ends m r m' →
      ∃ vs, m'.sink = m.sink.print vs) ∧
    (∀ v file, v ≠ Int64.minValue →
      ∃ t, ofSource ("print " ++ Text.integerText v ++ ";") file = .ok t ∧
        ∀ m, m.sink.Open → t.Outputs m [v]) ∧
    ∀ file, scan ("print " ++ Text.integerText Int64.minValue ++ ";") file =
      .error ⟨.invalidNumber "9223372036854775808", .point file 1 8⟩ := by
  refine ⟨fun vs => ⟨exists_prints vs, fun t ks m ht hks hopen h => ?_, fun k => ?_⟩,
    fun t m r m' ht hfree hends => ?_, fun v file hv => outputs_integerText hv file, scan_least⟩
  · exact outputs_of_prints ht.forest hks hopen h
  · exact Reader.takeIntegers_printed vs k
  · exact hends.gains ht.forest hfree

/-- A literal that no source has, and a negation. -/
theorem integer_texts_agree_of_least :
    let t := [Operation.add (.literal Int64.minValue), .add (.print (some 0)), .add (.literal 1),
      .add (.unary .negate (some 2)), .add (.print (some 3)), .add (.scope [1, 4]),
      .setRoot 5].foldl Operation.apply {}
    let m : Machine := {}
    let vs := [Int64.minValue, -1]
    Built t ∧ t.HasStatements [1, 4] ∧ m.sink.Open ∧ List.Forall₂ (t.Prints m.env) [1, 4] vs ∧
      t.Outputs m vs ∧ (∃ m' ws, t.Ends m (.ok ()) m' ∧ m'.sink = m.sink.print ws) ∧
      printed vs = "-9223372036854775808\n-1\n" ∧
      (Reader.takeIntegers 3 { unread := "-9223372036854775808\n-1\n".toUTF8.data.toList }).1 =
        [.ok (some Int64.minValue), .ok (some (-1)), .ok none] ∧
      (-7 : Int64) ≠ Int64.minValue ∧
      ∃ u, ofSource ("print " ++ Text.integerText (-7) ++ ";") none = .ok u ∧
        u.Outputs m [-7] := by
  intro t m vs
  have hbuilt : Built t := Built.empty.operateAll _ (by simp)
  have hks : t.HasStatements [1, 4] := ⟨5, {}, rfl, _, rfl, rfl, rfl⟩
  have hopen : m.sink.Open := ⟨rfl, rfl⟩
  have hleast : t.Prints m.env 1 Int64.minValue :=
    ⟨{}, 0, .literal {} Int64.minValue, ⟨_, rfl, rfl, rfl⟩, ⟨_, rfl, rfl, rfl⟩, rfl⟩
  have hminus : t.Prints m.env 4 (-1) :=
    ⟨{}, 3, .unary {} .negate (.literal {} 1), ⟨_, rfl, rfl, rfl⟩,
      ⟨2, ⟨_, rfl, rfl, rfl⟩, ⟨_, rfl, rfl, rfl⟩⟩, rfl⟩
  have hprints : List.Forall₂ (t.Prints m.env) [1, 4] vs := .cons hleast (.cons hminus .nil)
  have hprinted : printed vs = "-9223372036854775808\n-1\n" := by decide +kernel
  have hseven : (-7 : Int64) ≠ Int64.minValue := by decide
  obtain ⟨hall, hgains, htexts, -⟩ := integer_texts_agree
  obtain ⟨-, houtputs, hread⟩ := hall vs
  have hread := hread 3
  rw [hprinted] at hread
  obtain ⟨m', hsink, hends⟩ := houtputs t [1, 4] m hbuilt hks hopen hprints
  have hend : t.Ends m (.ok ()) m' := (hends _ _).2 ⟨rfl, rfl⟩
  obtain ⟨ws, hws⟩ := hgains t m _ m' hbuilt hopen.free hend
  obtain ⟨u, hu, huout⟩ := htexts (-7) none hseven
  exact ⟨hbuilt, hks, hopen, hprints, ⟨m', hsink, hends⟩, ⟨m', ws, hend, hws⟩, hprinted, hread,
    hseven, u, hu, huout m hopen⟩

end TeachLang
