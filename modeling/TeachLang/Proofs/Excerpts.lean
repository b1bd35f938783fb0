import TeachLang.Proofs.Extents

/-!
# Excerpts of a source

What the extent of some tokens covers of the source consists of these tokens. So the text of an
expression can be taken out and read on its own, and gives the same expression.
-/

namespace TeachLang

open TeachLang.Tree

variable {file : Option String} {p : Position} {rest text : List Char} {ts ms : List Located}

theorem Span.ofWord_through {word : List Char} (hne : word ≠ []) (file : Option String)
    (p : Position) (first front : List Char) :
    (ofWord file p first).through (ofWord file (p.past front) word) =
      ofWord file p (front ++ word) := by
  unfold ofWord through
  rw [List.dropLast_append_of_ne_nil hne, Position.past_append]

namespace Lexer

/-- The text in front of some tokens can be left out. -/
theorem Tiles.drop (h : Tiles file rest p text (ts ++ ms)) :
    ∃ front behind, text = front ++ behind ∧
    Tiles file rest (p.past front) behind ms := by
  induction ts generalizing p text with
  | nil => exact ⟨[], text, rfl, h⟩
  | cons l ts ih =>
    cases h with
    | @token _ gap word text t _ _ _ _ _ h =>
      obtain ⟨front, behind, rfl, hbehind⟩ := ih h
      refine ⟨gap ++ word ++ front, behind, by simp, ?_⟩
      rwa [Position.past_append p (gap ++ word)]

/-- Behind a gap the text begins that the first tokens consist of, and their extent is where it
stands. -/
theorem Tiles.take (h : Tiles file rest p text (ms ++ ts)) (hne : ms ≠ []) :
    ∃ gap s behind, text = gap ++ s ++ behind ∧ s ≠ [] ∧ Lexemes false gap [] false ∧
      Lexemes false s (ms.map Located.token) false ∧ extent ms = .ofWord file (p.past gap) s := by
  induction ms generalizing p text with
  | nil => exact absurd rfl hne
  | cons l ms ih =>
    cases h with
    | @token _ gap word text t _ hgap hword hlongest hcomment h =>
      rw [List.append_assoc] at hgap hlongest hcomment
      have hfront := hgap.lexemes_word hword
      have hjoins := joins_of_longest hword hlongest hcomment
      rcases ms with _ | ⟨m, ms⟩
      · have hspelled : Lexemes false (word ++ []) [t] false := .word hword nofun (.nil false)
        rw [List.append_nil] at hspelled
        exact ⟨gap, word, text, rfl, hword.ne_nil, hfront, hspelled, rfl⟩
      · obtain ⟨gap', s, behind, rfl, hs, hgap', hlexemes, hextent⟩ := ih h (List.cons_ne_nil m ms)
        have hspelled : Lexemes false (word ++ (gap' ++ s)) (t :: (m :: ms).map Located.token)
            false := by
          rw [List.append_assoc _ behind] at hjoins
          exact .word hword (fun d hd => hjoins d (List.mem_head?_append_of_mem_head? hd))
            (hgap'.append nofun hlexemes)
        have hspan := extent_append (List.cons_ne_nil m ms) ⟨t, .ofWord file (p.past gap) word⟩ []
        have hplace : (p.past (gap ++ word)).past gap' = (p.past gap).past (word ++ gap') := by
          rw [← Position.past_append, ← Position.past_append, List.append_assoc]
        refine ⟨gap, word ++ (gap' ++ s), behind, by simp, by simp [hs], hfront, hspelled,
          hspan.trans ?_⟩
        rw [hextent, hplace, Span.ofWord_through hs, List.append_assoc]

/-- What the extent of some tokens covers consists of these tokens. -/
theorem Tiles.excerpt {before behind : List Located}
    (h : Tiles file rest p text (before ++ ms ++ behind)) (hne : ms ≠ [])
    (hp : p.Room text.length) :
    Lexemes false ((extent ms).characters p text) (ms.map Located.token) false := by
  rw [List.append_assoc] at h
  obtain ⟨front, _, rfl, htail⟩ := h.drop
  obtain ⟨gap, s, back, rfl, hs, _, hlexemes, hextent⟩ := htail.take hne
  rw [← List.append_assoc, ← List.append_assoc] at hp ⊢
  rw [hextent, ← Position.past_append, Span.characters_ofWord hs hp]
  exact hlexemes

/-- A text that consists of an expression, between what makes up a statement. -/
theorem Lexemes.printed {ts : List Token} (h : Lexemes false text ts false) :
    Lexemes false ("print ".toList ++ (text ++ ";".toList)) (.printWord :: (ts ++ [.semicolon]))
      false := by
  have hedge : Edge ";".toList := edge_cons (by decide) (by decide) (by decide) []
  have hsemicolon : Lexemes false (";".toList ++ []) [.semicolon] false :=
    .word (Token.spells_lexeme rfl) nofun (.nil false)
  have hspace : Lexemes false (' ' :: (text ++ ";".toList)) (ts ++ [.semicolon]) false :=
    .blank rfl (h.append (fun t _ => hedge.head t) hsemicolon)
  have hprint : Lexemes false ("print".toList ++ ' ' :: (text ++ ";".toList))
      (.printWord :: (ts ++ [.semicolon])) false :=
    .word (Token.spells_lexeme rfl) (fun d hd => by cases hd; rfl) hspace
  exact hprint

end Lexer

open Lexer

/-- The text of an expression can be printed, and is read as the same expression. -/
theorem Expr.Spelled.printed {e : Expr} (h : e.Spelled 7 ts) {s : String}
    (hs : Lexemes false s.toList (ts.map Located.token) false) (file : Option String) :
    ∃ u p q k e', ofSource ("print " ++ s ++ ";") file = .ok u ∧ u.Forest ∧ u.HasStatements [p] ∧
      u.Bears p q (.print (some k)) ∧ e'.StandsAt u k ∧ e.Alike Span.Any e' := by
  have htext : Lexemes false ("print " ++ s ++ ";").toList
      (.printWord :: (ts.map Located.token ++ [.semicolon])) false := by
    rw [String.toList_append, String.toList_append, List.append_assoc]
    exact hs.printed
  obtain ⟨us, hscan, hus⟩ := scan_of_lexemes htext file
  have hspelled : Stmt.AllSpelled true (⟨.printWord, {}⟩ :: ts ++ [⟨.semicolon, {}⟩] ++ []) _ :=
    .cons (.print {} {} h) .nil
  have htokens : us.map Located.token =
      (⟨.printWord, {}⟩ :: ts ++ [⟨.semicolon, {}⟩] ++ [] : List Located).map Located.token := by
    simp [hus]
  obtain ⟨ss, hss, halike⟩ := hspelled.alike (R := Span.Any) (fun _ _ _ _ _ _ => trivial)
    (show Span.Any {} {} from trivial) (forall₂_alike htokens)
  obtain ⟨u, ids, hu, hids, hhas, hf⟩ := hss.exists_tree
  cases halike with
  | cons hprint hnil =>
    cases hnil
    cases hprint with
    | @print _ q _ e' _ he =>
      obtain ⟨p, ⟨k, hk, hb⟩, _, rfl, rfl⟩ := hids
      exact ⟨u, p, q, k, e', ofSource_eq_ok.2 ⟨us, hscan, hu⟩, hf, hhas, hb, hk, he⟩

theorem ordered_of_scan {source : String} (h : scan source file = .ok ts)
    (hlength : source.length < UInt32.size - 1) : Ordered ts := by
  have htiles : Tiles file [] {} source.toList ts := tokens_eq_ok_iff.1 h
  have hp : Position.Room source.toList.length {} := Position.room_start hlength
  refine ⟨htiles.pairwise hp, fun l hl => ?_⟩
  obtain ⟨before, word, behind, htext, _, hspan⟩ := htiles.exists_word l hl
  rw [htext] at hp
  rw [hspan]
  exact Position.not_before_past (hp.part.mono (List.dropLast_sublist word).length_le)

namespace Tree

variable {t : Tree} {source : String} {tokens : List Located} {id : NodeId} {span : Span} {f : Form}

/-- An expression of the tree is read from the text that its span covers. -/
theorem Forest.same_printed (hf : Forest t) (hscan : scan source file = .ok tokens)
    (hlength : source.length < UInt32.size - 1) {before mid behind : List Located}
    (htokens : tokens = before ++ mid ++ behind) {n : Nat} {e : Expr} (he : e.Spelled n mid)
    (hstands : e.StandsAt t id)
    (hparent : t.parent? id ≠ none) (file' : Option String) :
    ∃ u p k s,
      ofSource ("print " ++ String.ofList ((extent mid).characters {} source.toList) ++ ";") file' =
        .ok u ∧
      u.HasStatements [p] ∧ u.Bears p s (.print (some k)) ∧ t.same? id u k = some true := by
  have htiles : Tiles file [] {} source.toList tokens := tokens_eq_ok_iff.1 hscan
  rw [htokens] at htiles
  have hexcerpt := htiles.excerpt he.opens.ne_nil (Position.room_start hlength)
  rw [← String.toList_ofList (l := (extent mid).characters {} source.toList)] at hexcerpt
  obtain ⟨u, p, q, k, e', hu, hfu, hhas, hb, hk, halike⟩ := he.topmost.printed hexcerpt file'
  refine ⟨u, p, k, q, hu, hhas, hb, ?_⟩
  have hparent' : u.parent? k = some p := by
    obtain ⟨m, hm, hform, -⟩ := hb
    exact hfu.parent?_of_mem hm (by rw [hform]; exact List.mem_cons_self)
  have hparents : (u.parent? k).isNone = (t.parent? id).isNone := by
    obtain ⟨up, hup⟩ := Option.ne_none_iff_exists'.1 hparent
    rw [hparent', hup]
    rfl
  exact (simulates_partner hf hfu).same? hf ⟨.expr hstands hk halike, hparents⟩

theorem Bears.contains (hb : t.Bears id span f) : t.contains id = true := by
  obtain ⟨n, hn, -⟩ := hb
  exact (t.contains_iff id).2 ⟨n, hn⟩

theorem parent?_ne_none_of_ofSource (ht : ofSource source file = .ok t) (hb : t.Bears id span f)
    (hf : f.kind.ofExpr = true) : t.parent? id ≠ none := by
  obtain ⟨_, _, htokens⟩ := ofSource_eq_ok.1 ht
  obtain ⟨p, _, ⟨root, hroot, ⟨ks, _, hscope⟩, halone⟩, _⟩ := ofTokens_stands htokens
  intro hnone
  obtain rfl := (halone id hb.contains).1 hnone
  obtain ⟨-, rfl⟩ := hb.unique hscope
  cases hf

/-- The span of each node of a parsed tree goes from one token to another, which is the same or a
later one. It holds the spans of the children, and each of them ends before the next begins. What
the span of an expression covers of the source can be printed, and is read as this expression. -/
theorem spans_exact (hscan : scan source file = .ok tokens) (hne : tokens ≠ [])
    (hlength : source.length < UInt32.size - 1) (ht : ofSource source file = .ok t) :
    ∀ id span f, t.Bears id span f →
      (∃ (i j : Nat) (l l' : Located), i ≤ j ∧ tokens[i]? = some l ∧ tokens[j]? = some l' ∧
        span = l.span.through l'.span) ∧
      (∀ k ∈ f.children, ∃ s g, t.Bears k s g ∧ s.Within span) ∧
      (f.children.Pairwise fun k l => ∀ s g s' g', t.Bears k s g → t.Bears l s' g' →
        s.last.Before s'.first) ∧
      (f.kind.ofExpr = true → ∀ file', ∃ u p k s,
        ofSource ("print " ++ String.ofList (span.characters {} source.toList) ++ ";") file' =
          .ok u ∧
        u.HasStatements [p] ∧ u.Bears p s (.print (some k)) ∧ t.same? id u k = some true) := by
  intro id span f hb
  have hf : Forest t := by
    obtain ⟨_, _, htokens⟩ := ofSource_eq_ok.1 ht
    obtain ⟨_, _, _, hbuilt⟩ := ofTokens_stands htokens
    exact hbuilt.forest
  obtain ⟨before, mid, behind, htokens, hfits⟩ := ofSource_fits hscan hne ht hb.contains
  have hordered : Ordered mid := by
    have htail := ordered_of_scan hscan hlength
    rw [htokens] at htail
    exact htail.of_append.1.of_append.2
  cases hfits with
  | node hmid hbears hchildren hexpr =>
    obtain ⟨rfl, rfl⟩ := hb.unique hbears
    refine ⟨?_, ?_, hchildren.pairwise hordered, ?_⟩
    · rw [htokens]
      exact exists_through hmid before behind
    · intro k hk
      obtain ⟨front, part, back, hpart, hfits⟩ := hchildren.exists_fits hk
      cases hfits with
      | @node _ _ g hne' hg =>
        refine ⟨extent part, g, hg, hordered.within hne' ?_⟩
        rw [hpart]
        exact (List.infix_append front part back).subset
    · intro hkind file'
      obtain ⟨n, e, he, hstands⟩ := hexpr hkind
      exact hf.same_printed hscan hlength htokens he hstands
        (parent?_ne_none_of_ofSource ht hb hkind) file'

theorem spans_exact_of_parentheses : ∃ tokens t, scan "x = (1 + y) * 2;" none = .ok tokens ∧
    tokens ≠ [] ∧ "x = (1 + y) * 2;".length < UInt32.size - 1 ∧
    ofSource "x = (1 + y) * 2;" none = .ok t ∧
    t.Bears 3 ⟨none, 1, 6, 1, 10⟩ (.arithmetic .add (some 1) (some 2)) ∧
    ∃ u p k s, ofSource "print 1 + y;" none = .ok u ∧ u.HasStatements [p] ∧
      u.Bears p s (.print (some k)) ∧ t.same? 3 u k = some true := by
  have hnode : (ofSource "x = (1 + y) * 2;" none).map (fun t => (t.get? 3).map
      fun n => (n.form, n.span)) =
      .ok (some (.arithmetic .add (some 1) (some 2), ⟨none, 1, 6, 1, 10⟩)) := by decide +kernel
  cases ht : ofSource "x = (1 + y) * 2;" none with
  | error e =>
    rw [ht] at hnode
    cases hnode
  | ok t =>
    rw [ht] at hnode
    obtain ⟨n, hn, hfields⟩ := Option.map_eq_some_iff.1 (Except.ok.inj hnode)
    obtain ⟨hform, hspan⟩ := Prod.mk.inj hfields
    obtain ⟨tokens, hscan, _⟩ := ofSource_eq_ok.1 ht
    have hne : tokens ≠ [] := by
      rintro rfl
      exact absurd hscan (by decide +kernel)
    have hb : t.Bears 3 ⟨none, 1, 6, 1, 10⟩ (.arithmetic .add (some 1) (some 2)) :=
      ⟨n, hn, hform, hspan⟩
    have hlength : "x = (1 + y) * 2;".length < UInt32.size - 1 := by decide
    obtain ⟨-, -, -, hprinted⟩ := spans_exact hscan hne hlength ht 3 _ _ hb
    obtain ⟨u, p, k, s, hu, hhas, hbears, hsame⟩ := hprinted rfl none
    have htext : "print " ++ String.ofList (Span.characters ⟨none, 1, 6, 1, 10⟩ {}
        "x = (1 + y) * 2;".toList) ++ ";" = "print 1 + y;" := by decide +kernel
    rw [htext] at hu
    exact ⟨tokens, t, hscan, hne, hlength, rfl, hb, u, p, k, s, hu, hhas, hbears, hsame⟩

end Tree

end TeachLang
