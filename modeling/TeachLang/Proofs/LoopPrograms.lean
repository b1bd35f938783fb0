import TeachLang.Proofs.LoopForms
import TeachLang.Proofs.LoopTexts

/-!
# Programs with loops in two forms

The two texts of a loop with an initial statement and a step run alike, on whatever machine, if the
name that the step may bind means something once the initial statement has been executed. The texts
have the tokens of the two loops, as none of their parts ends with a comment, and spans do not
matter to a parser.
-/

namespace TeachLang

open TeachLang.Tree Eval Lexer

namespace Tree

variable {t u : Tree} {ks ks' ls ls' : List NodeId} {ss ss' : List Stmt} {m m' : Machine}
  {r : Except Error Unit} {source : String} {file : Option String}

/-- Statements that are alike do the same where they stand in programs. -/
theorem matched_of_alike (hf : Forest t) (hu : Forest u) (hss : Stmt.AllAlike Span.Any ss ss')
    (h : Stmt.AllStandAt t ss ks) (h' : Stmt.AllStandAt u ss' ks') (hls : t.HasStatements ls)
    (hls' : u.HasStatements ls') (hsub : ∀ k ∈ ks, k ∈ ls) (hsub' : ∀ k ∈ ks', k ∈ ls') :
    Matched Eq t (.sequence ks) u (.sequence ks') := by
  obtain ⟨root, span, -, hb⟩ := hls
  obtain ⟨root', span', -, hb'⟩ := hls'
  have hchildren : ∀ ids : List NodeId, (Form.scope ids).children = ids := by
    simp [Form.children, Form.roles]
  refine (matched_of_children hf hu hb hb' ?_ ?_ (hss.counterparts h h')).1
  · exact fun k hk => (hchildren ls).symm ▸ hsub k hk
  · exact fun k hk => (hchildren ls').symm ▸ hsub' k hk

theorem Matched.endsUpTo_iff (h : Matched Eq t (.sequence ks) u (.sequence ls)) (hf : Forest t)
    (hu : Forest u) (hks : t.HasStatements ks) (hls : u.HasStatements ls) :
    t.EndsUpTo Error.unplaced m r m' ↔ u.EndsUpTo Error.unplaced m r m' := by
  constructor
  · refine EndsUpTo.of_evaluates hf hu hks hls fun r m' heval => ?_
    obtain ⟨r', _, heval', hr, rfl⟩ := h.1 rfl heval
    exact ⟨r', heval', hr⟩
  · refine EndsUpTo.of_evaluates hu hf hls hks fun r m' heval => ?_
    obtain ⟨r', _, heval', hr, rfl⟩ := h.2 rfl heval
    exact ⟨r', heval', hr⟩

/-- A text with the tokens of statements makes a tree in which statements stand that are alike. -/
theorem exists_tree_alike {tokens : List Located} (hss : Stmt.AllSpelled true tokens ss) {o : Bool}
    (hlexemes : Lexemes false source.toList (tokens.map Located.token) o) (file : Option String) :
    ∃ t ss' ks, ofSource source file = .ok t ∧ Stmt.AllAlike Span.Any ss ss' ∧
      Stmt.AllStandAt t ss' ks ∧ t.HasStatements ks ∧ Forest t := by
  obtain ⟨us, hscan, hus⟩ := scan_of_lexemes hlexemes file
  obtain ⟨ss', hss', halike⟩ := hss.alike (R := Span.Any) (fun _ _ _ _ _ _ => trivial)
    (show Span.Any {} {} from trivial) (forall₂_alike hus)
  obtain ⟨t, ks, ht, hks, hhas, hf⟩ := hss'.exists_tree
  exact ⟨t, ss', ks, ofSource_eq_ok.2 ⟨us, hscan, ht⟩, halike, hks, hhas, hf⟩

/-- So does every other text with these tokens, and the trees run alike. -/
theorem endsUpTo_iff_of_lexemes {tokens : List Located} (hss : Stmt.AllSpelled true tokens ss)
    {o : Bool} (hlexemes : Lexemes false source.toList (tokens.map Located.token) o)
    (ht : ofSource source file = .ok t) (h : Stmt.AllStandAt u ss ls) (hls : u.HasStatements ls)
    (hu : Forest u) : t.EndsUpTo Error.unplaced m r m' ↔ u.EndsUpTo Error.unplaced m r m' := by
  obtain ⟨_, ss', ks, ht', halike, hks, hhas, hf⟩ := exists_tree_alike hss hlexemes file
  cases ht.symm.trans ht'
  have hmatched := matched_of_alike hu hf halike h hks hls hhas (fun _ => id) fun _ => id
  exact (hmatched.endsUpTo_iff hu hf hls hhas).symm

/-- A text with these tokens leaves what the statements leave in a longer program. -/
theorem exists_leaves_of_lexemes {tokens : List Located} (hss : Stmt.AllSpelled true tokens ss)
    {o : Bool} (hlexemes : Lexemes false source.toList (tokens.map Located.token) o)
    (file : Option String) (h : Stmt.AllStandAt u ss ks) (hls : u.HasStatements ls) (hu : Forest u)
    (hsub : ∀ k ∈ ks, k ∈ ls) (heval : Evaluates u (.sequence ks) m (.ok ()) m') :
    ∃ w, ofSource source file = .ok w ∧ w.Leaves m m' := by
  obtain ⟨w, ss', ids, hw, halike, hids, hhas, hf⟩ := exists_tree_alike hss hlexemes file
  have hmatched := matched_of_alike hu hf halike h hids hls hhas hsub fun _ => id
  obtain ⟨r', _, heval', hr, rfl⟩ := hmatched.1 rfl heval
  cases hr
  exact ⟨w, hw, (leaves_iff hf hhas).2 heval'⟩

end Tree

inductive Simple.Written : String → Option Simple → Prop
  | none : Written "" none
  | some {A : String} {file : Option String} {ls : List Located} {a : Simple}
      (h : scan A file = .ok ls) (ha : a.Spelled ls) : Written A (some a)

/-- What is written as a part of a loop, and what it is as a statement of its own. -/
theorem Simple.Written.exists_part {A : String} {a : Option Simple} (h : Simple.Written A a) :
    ∃ (p : Part A.toList) (ls us : List Located) (span : Span), OptionSpelled ls a ∧
      p.seen false = ls.map Located.token ∧
      Stmt.AllSpelled true us (a.toList.map (.simple span)) ∧
      (p.ends false = false → endedTokens p false = us.map Located.token) ∧
      (A = "" ∧ p.seen false = [] ∨ ∃ (as : List Located) (a : Simple), a.Spelled as ∧
        p.seen false = as.map Located.token) := by
  cases h with
  | none =>
    obtain ⟨p, hseen, -⟩ := (Lexemes.nil false).exists_part
    refine ⟨p, [], [], {}, .none, hseen, .nil, fun _ => rfl, .inl ⟨rfl, hseen⟩⟩
  | @some _ _ ls a hscan ha =>
    obtain ⟨b, hlexemes⟩ := lexemes_of_scan hscan
    obtain ⟨p, hseen, -⟩ := hlexemes.exists_part
    refine ⟨p, ls, ls ++ [⟨.semicolon, {}⟩] ++ [], _, .some ha, hseen, .cons (.simple {} ha) .nil,
      fun hends => ?_, .inr ⟨ls, a, ha, hseen⟩⟩
    have hne : A ≠ "" := by
      rintro rfl
      rw [endedTokens_empty rfl, eq_comm, List.map_eq_nil_iff] at hseen
      exact ha.opens.ne_nil hseen
    simp [endedTokens, hne, hends, hseen]

section

variable {A c B S : String} {a b : Option Simple} {e : Expr} {ss : List Stmt}
  {is cs us ts is' us' : List Located} {p q : Span}

/-- The tokens of a loop in one piece. -/
theorem spelled_for (ha : Simple.OptionSpelled is a) (he : e.Spelled 7 cs)
    (hb : Simple.OptionSpelled us b) (hss : Stmt.AllSpelled true ts ss) :
    ∃ (ls : List Located) (span place : Span),
      Stmt.AllSpelled true ls [.forLoop span a e b place ss] ∧
      ls.map Located.token = .forWord :: .leftParen :: (is.map Located.token ++ .semicolon ::
        (cs.map Located.token ++ .semicolon :: (us.map Located.token ++ .rightParen :: .leftBrace ::
          (ts.map Located.token ++ [.rightBrace])))) :=
  ⟨_, _, _, .cons (.forLoop {} {} {} {} {} ha he hb (.block {} {} hss)) .nil, by simp⟩

/-- The tokens of a loop in two pieces. -/
theorem spelled_while (ha : Stmt.AllSpelled true is' (a.toList.map (.simple p)))
    (he : e.Spelled 7 cs) (hb : Stmt.AllSpelled true us' (b.toList.map (.simple q)))
    (hss : Stmt.AllSpelled true ts ss) :
    ∃ (ls : List Located) (span place inner : Span),
      Stmt.AllSpelled true ls (a.toList.map (.simple p) ++
        [.whileLoop span e place (.block inner ss :: b.toList.map (.simple q))]) ∧
      ls.map Located.token = is'.map Located.token ++ .whileWord :: .leftParen ::
        (cs.map Located.token ++ .rightParen :: .leftBrace :: .leftBrace ::
          (ts.map Located.token ++ .rightBrace :: (us'.map Located.token ++ [.rightBrace]))) :=
  ⟨_, _, _, _, ha.append (.cons (.whileLoop {} {} {} he (.block {} {}
    (.cons (.block {} {} hss) hb))) .nil), by simp⟩

end

namespace Tree

variable {A c B S : String} {file : Option String} {a b : Option Simple} {e : Expr}
  {ss : List Stmt} {cs ts : List Located} {t u : Tree} {m : Machine}

theorem spelled_of_lexemes {source : String} {tokens : List Token} {o : Bool}
    (h : Lexemes false source.toList tokens o) (ht : ofSource source file = .ok t) :
    ∃ ls ss, Stmt.AllSpelled true ls ss ∧ ls.map Located.token = tokens := by
  obtain ⟨ls, ss, _, hscan, hss, -⟩ := ofSource_stands ht
  obtain ⟨_, hscan', htokens⟩ := scan_of_lexemes h file
  cases hscan.symm.trans hscan'
  exact ⟨ls, ss, hss, htokens⟩

/-- Where both texts of a loop are programs, no part hides anything. -/
theorem closed_of_texts {pA : Part A.toList} {pc : Part c.toList} {pB : Part B.toList}
    {pS : Part S.toList} (hparts : LoopParts pA pc pB pS)
    (ht : ofSource (forText A c B S) file = .ok t)
    (hu : ofSource (whileText A c B S) file = .ok u) :
    pA.ends false = false ∧ pc.ends false = false ∧ pB.ends false = false ∧
      pS.ends false = false := by
  obtain ⟨ls, ss₁, hls, htokens⟩ := spelled_of_lexemes (lexemes_forText pA pc pB pS) ht
  obtain ⟨ls', ss₂, hls', htokens'⟩ := spelled_of_lexemes (lexemes_whileText pA pc pB pS) hu
  exact parts_closed hparts hls htokens (step_closed hparts hls htokens hls' htokens')

theorem exists_of_toOption {ε α β : Type} {x : Except ε α} {f : α → Option β} {b : β}
    (h : x.toOption.bind f = some b) : ∃ a, x = .ok a ∧ f a = some b := by
  cases x with
  | error e => cases h
  | ok a => exact ⟨a, rfl, h⟩

/-- The loop in one piece and the loop in two pieces end in the same way, on the same machine, up to
the place of a fault: one of them ends if and only if the other one does. The name that the step may
bind must mean something once the initial statement has been executed on its own. -/
theorem loopForms_endsUpTo_iff (hA : Simple.Written A a) (hc : scan c file = .ok cs)
    (he : e.Spelled 7 cs) (hB : Simple.Written B b) (hS : scan S file = .ok ts)
    (hss : Stmt.AllSpelled true ts ss) (ht : ofSource (forText A c B S) file = .ok t)
    (hu : ofSource (whileText A c B S) file = .ok u)
    (hbound : ∀ w m₁, ofSource (ended A) file = .ok w → w.Leaves m m₁ →
      m₁.Bound (b.bind Simple.target?)) (r : Except Error Unit) (m' : Machine) :
    t.EndsUpTo Error.unplaced m r m' ↔ u.EndsUpTo Error.unplaced m r m' := by
  obtain ⟨pA, is, is', p, hsA, hseenA, hsA', hendsA, hinit⟩ := hA.exists_part
  obtain ⟨pB, us, us', q, hsB, hseenB, hsB', hendsB, -⟩ := hB.exists_part
  obtain ⟨_, hlexemes⟩ := lexemes_of_scan hc
  obtain ⟨pc, hseenc, -⟩ := hlexemes.exists_part
  obtain ⟨_, hlexemes⟩ := lexemes_of_scan hS
  obtain ⟨pS, hseenS, -⟩ := hlexemes.exists_part
  have hparts : LoopParts pA pc pB pS := {
    init := hinit
    initInner := hseenA ▸ hsA.toInner
    condition := hseenc ▸ he.toInner
    step := hseenB ▸ hsB.toInner
    body := fun _ _ => hseenS ▸ hss.balanced }
  obtain ⟨hendsA', hendsc, hendsB', hendsS⟩ := closed_of_texts hparts ht hu
  -- So the texts have the tokens of the two loops, and trees of these run alike.
  have hfor := lexemes_forText pA pc pB pS
  have hwhile := lexemes_whileText pA pc pB pS
  obtain ⟨ls, span, place, hls, htokens⟩ := spelled_for hsA he hsB hss
  obtain ⟨ls', span', place', inner, hls', htokens'⟩ := spelled_while hsA' he hsB' hss
  simp only [forTokens, hendsA', hendsc, hendsB', hendsS, hseenA, hseenc, hseenB, hseenS,
    shown_false, List.cons_append, List.nil_append] at hfor
  rw [← htokens] at hfor
  simp only [whileTokens, hendsA', hendsc, hendsB', hendsS, hseenc, hseenS, hendsA hendsA',
    hendsB hendsB', shown_false, List.cons_append, List.nil_append] at hwhile
  rw [← htokens'] at hwhile
  obtain ⟨t₀, _, -, ⟨k, hk, _, rfl, rfl⟩, hhas, hf⟩ := hls.exists_tree
  obtain ⟨u₀, _, -, hall, hhas', hf'⟩ := hls'.exists_tree
  rw [endsUpTo_iff_of_lexemes hls hfor ht ⟨k, hk, _, rfl, rfl⟩ hhas hf,
    endsUpTo_iff_of_lexemes hls' hwhile hu hall hhas' hf']
  obtain ⟨ks, _, rfl, hks, l, hl, _, rfl, rfl⟩ := Stmt.allStandAt_append hall
  -- What the initial statement leaves, it leaves as a program too.
  have hended : Lexemes false (ended A).toList (is'.map Located.token) (pA.ends false) := by
    have h := lexemes_ended pA (.nil (pA.ends false))
    rwa [List.append_nil, List.append_nil, hendsA hendsA'] at h
  have hready : ∀ m₁, Evaluates u₀ (.sequence ks) m (.ok ()) m₁ →
      m₁.Bound (b.bind Simple.target?) := by
    intro m₁ heval
    obtain ⟨w, hw, hleaves⟩ := exists_leaves_of_lexemes hsA' hended file hks hhas' hf'
      (fun _ => List.mem_append_left _) heval
    exact hbound w m₁ hw hleaves
  have halike : ∀ o : Option Simple, Option.Rel (Simple.Alike Span.Any) o o :=
    optionRel_self (Simple.alike_self fun _ => trivial)
  obtain ⟨hto, hfrom⟩ := matched_loops hf hf' hk hks hl (halike a) (e.alike_self fun _ => trivial)
    (halike b) (Stmt.allAlike_self (fun _ => trivial) ss) hready
  exact ⟨.of_evaluates hf hf' hhas hhas' hto, .of_evaluates hf' hf hhas' hhas hfrom⟩

/-- A body that declares a variable anew in each round, and a step that counts. -/
theorem loopForms_endsUpTo_iff_of_counting :
    let S := "var t = i * 10; print t;"
    let m : Machine := { scopes := ⟨[("i", 3)], []⟩, sink := { written := "0\n10\n20\n".toUTF8 } }
    ∃ t u, ofSource (forText "i = 0" "i < 3" "i = i + 1" S) none = .ok t ∧
      ofSource (whileText "i = 0" "i < 3" "i = i + 1" S) none = .ok u ∧
      t.Ends {} (.ok ()) m ∧ u.EndsUpTo Error.unplaced {} (.ok ()) m := by
  intro S m
  let x : Located := ⟨.ident "i", ⟨none, 1, 1, 1, 1⟩⟩
  have hA : Simple.Written "i = 0" _ := .some
    (show scan "i = 0" none = .ok [x, ⟨.assign, ⟨none, 1, 3, 1, 3⟩⟩,
      ⟨.number 0, ⟨none, 1, 5, 1, 5⟩⟩] by decide +kernel)
    (.assign _ _ "i" (Expr.Spelled.number _ 0).topmost)
  have hc : scan "i < 3" none = .ok [x, ⟨.less, ⟨none, 1, 3, 1, 3⟩⟩,
      ⟨.number 3, ⟨none, 1, 5, 1, 5⟩⟩] := by decide +kernel
  have he : Expr.Spelled 7 [x, ⟨.less, ⟨none, 1, 3, 1, 3⟩⟩, ⟨.number 3, ⟨none, 1, 5, 1, 5⟩⟩] _ :=
    (Expr.Spelled.binary _ ((Expr.Spelled.name _ "i").raise (Nat.zero_le 3))
      (show (Token.less, .logic .less) ∈ operators 3 by decide)
      ((Expr.Spelled.number _ 3).raise (Nat.zero_le 2))).topmost
  have hB : Simple.Written "i = i + 1" _ := .some
    (show scan "i = i + 1" none = .ok [x, ⟨.assign, ⟨none, 1, 3, 1, 3⟩⟩,
      ⟨.ident "i", ⟨none, 1, 5, 1, 5⟩⟩, ⟨.plus, ⟨none, 1, 7, 1, 7⟩⟩,
      ⟨.number 1, ⟨none, 1, 9, 1, 9⟩⟩] by decide +kernel)
    (.assign _ _ "i" (Expr.Spelled.binary _ ((Expr.Spelled.name _ "i").raise (Nat.zero_le 2))
      (show (Token.plus, .arithmetic .add) ∈ operators 2 by decide)
      ((Expr.Spelled.number _ 1).raise (Nat.zero_le 1))).topmost)
  obtain ⟨_, hbody, -⟩ := exists_of_toOption
    (show (ofSource S none).toOption.bind (fun _ => some ()) = some () by decide +kernel)
  obtain ⟨ts, ss, -, hS, hss, -⟩ := ofSource_stands hbody
  obtain ⟨t, ht, hrun⟩ := exists_of_toOption
    (show (ofSource (forText "i = 0" "i < 3" "i = i + 1" S) none).toOption.bind (·.run 12 {}) =
      some (.ok (), m) by decide +kernel)
  obtain ⟨u, hu, -⟩ := exists_of_toOption
    (show (ofSource (whileText "i = 0" "i < 3" "i = i + 1" S) none).toOption.bind
      (fun _ => some ()) = some () by decide +kernel)
  obtain ⟨w, hw, hinit⟩ := exists_of_toOption
    (show (ofSource (ended "i = 0") none).toOption.bind (fun w => w.root.bind (w.exec 4 · {})) =
      some (.ok (), { scopes := ⟨[("i", 0)], []⟩ }) by decide +kernel)
  have hends : t.Ends {} (.ok ()) m := ⟨12, hrun⟩
  refine ⟨t, u, ht, hu, hends, ?_⟩
  refine (loopForms_endsUpTo_iff hA hc he hB hS hss ht hu ?_ _ _).1 ⟨_, hends, rfl⟩
  rintro v m₁ hv ⟨root, hroot, bound, hexec⟩
  cases hv.symm.trans hw
  rw [hroot] at hinit
  obtain ⟨_, _, _, -, -, -, -, hf⟩ := ofSource_stands hv
  have hcontains := (hf.root_parentless root hroot).1
  obtain ⟨-, rfl⟩ := ((exec_iff hf hcontains).1 ⟨bound, hexec⟩).unique
    ((exec_iff hf hcontains).1 ⟨4, hinit⟩)
  rintro x ⟨⟩
  rfl

/-- Where the name means nothing yet, the step makes a binding that only the one form keeps. -/
example :
    let m : Machine := { scopes := ⟨[("j", 1)], []⟩ }
    let bound := fun source => (ofSource source none).toOption.bind fun t =>
      (t.run 12 m).map fun p => p.2.scopes.get? "i"
    bound (forText "" "j" "i = 1" "j = 0;") = some (some 1) ∧
      bound (whileText "" "j" "i = 1" "j = 0;") = some none := by decide +kernel

end Tree

end TeachLang
