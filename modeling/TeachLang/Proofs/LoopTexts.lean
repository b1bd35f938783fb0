import TeachLang.Proofs.Brackets
import TeachLang.Proofs.OpenComments

/-!
# The texts of loops in two forms

A loop with an initial statement and a step is written in one piece, or in two: the initial
statement on its own, and then a loop with the step at the end of its body. Where both texts are
programs, none of their parts ends with a comment. For that would hide brackets or a semicolon of
the one text or of the other one, and what it lets be seen of the parts does not make up for them in
both.
-/

namespace TeachLang

open Lexer

/-! ### How the texts are read -/

def ended (A : String) : String := if A = "" then "" else A ++ "; "

def forText (A c B S : String) : String :=
  "for (" ++ A ++ "; " ++ c ++ "; " ++ B ++ ") \x7b " ++ S ++ " \x7d"

def whileText (A c B S : String) : String :=
  ended A ++ "while (" ++ c ++ ") \x7b \x7b " ++ S ++ " \x7d " ++ ended B ++ "\x7d"

variable {A c B S : String}

section

variable {text rest : List Char} {us : List Token} {b o : Bool}

theorem edge_of {s : String} (hs : s = "; " ∨ s = ") \x7b " ∨ s = " \x7d" ∨ s = ") \x7b \x7b " ∨
    s = " \x7d ") (rest : List Char) : Edge (s.toList ++ rest) := by
  rcases hs with rfl | rfl | rfl | rfl | rfl <;>
    exact edge_cons (by decide) (by decide) (by decide) _

theorem lexemes_semicolon (h : Lexemes b rest us o) :
    Lexemes b ("; ".toList ++ rest) (shown b [.semicolon] ++ us) o :=
  .front (by decide) (fun _ h => .spaced (t := .semicolon) (s := ";") rfl h) h

theorem lexemes_forHead (h : Lexemes false rest us o) :
    Lexemes false ("for (".toList ++ rest) (.forWord :: .leftParen :: us) o :=
  .spaced (t := .forWord) (s := "for") rfl
    (.mark (t := .leftParen) (s := "(") rfl (fun _ => rfl) h)

theorem lexemes_whileHead (h : Lexemes b rest us o) :
    Lexemes b ("while (".toList ++ rest) (shown b [.whileWord, .leftParen] ++ us) o :=
  .front (by decide) (fun _ h => .spaced (t := .whileWord) (s := "while") rfl
    (.mark (t := .leftParen) (s := "(") rfl (fun _ => rfl) h)) h

theorem lexemes_body (h : Lexemes b rest us o) :
    Lexemes b (") \x7b ".toList ++ rest) (shown b [.rightParen, .leftBrace] ++ us) o :=
  .front (by decide) (fun _ h => .spaced (t := .rightParen) (s := ")") rfl
    (.spaced (t := .leftBrace) (s := "\x7b") rfl h)) h

theorem lexemes_innerBody (h : Lexemes b rest us o) :
    Lexemes b (") \x7b \x7b ".toList ++ rest)
      (shown b [.rightParen, .leftBrace, .leftBrace] ++ us) o :=
  .front (by decide) (fun _ h => .spaced (t := .rightParen) (s := ")") rfl
    (.spaced (t := .leftBrace) (s := "\x7b") rfl
      (.spaced (t := .leftBrace) (s := "\x7b") rfl h))) h

theorem lexemes_innerEnd (h : Lexemes b rest us o) :
    Lexemes b (" \x7d ".toList ++ rest) (shown b [.rightBrace] ++ us) o :=
  .front (by decide) (fun _ h => .blank rfl (.spaced (t := .rightBrace) (s := "\x7d") rfl h)) h

theorem lexemes_end (b : Bool) : Lexemes b "\x7d".toList (shown b [.rightBrace]) b := by
  cases b with
  | false => exact .mark (t := .rightBrace) (s := "\x7d") rfl (fun _ => rfl) (.nil false)
  | true => exact Lexemes.through (show '\n' ∉ "\x7d".toList by decide) (.nil true)

theorem lexemes_spacedEnd (b : Bool) : Lexemes b " \x7d".toList (shown b [.rightBrace]) b := by
  cases b with
  | false => exact .blank rfl (lexemes_end false)
  | true => exact Lexemes.through (show '\n' ∉ " \x7d".toList by decide) (.nil true)

def endedTokens (p : Part A.toList) (b : Bool) : List Token :=
  if A = "" then [] else p.seen b ++ shown (p.ends b) [.semicolon]

theorem lexemes_ended (p : Part A.toList) (h : Lexemes (p.ends b) rest us o) :
    Lexemes b ((ended A).toList ++ rest) (endedTokens p b ++ us) o := by
  unfold ended endedTokens
  by_cases hA : A = ""
  · subst hA
    rwa [(p.lexemes b).of_nil.2] at h
  · rw [if_neg hA, if_neg hA, String.toList_append, List.append_assoc, List.append_assoc]
    exact p.append (edge_of (.inl rfl) rest) (lexemes_semicolon h)

variable (pA : Part A.toList) (pc : Part c.toList) (pB : Part B.toList) (pS : Part S.toList)

def forTokens : List Token :=
  let a := pA.ends false
  let b := pc.ends a
  let o := pB.ends b
  .forWord :: .leftParen :: (pA.seen false ++ (shown a [.semicolon] ++ (pc.seen a ++
    (shown b [.semicolon] ++ (pB.seen b ++ (shown o [.rightParen, .leftBrace] ++
      (pS.seen o ++ shown (pS.ends o) [.rightBrace])))))))

theorem lexemes_forText : Lexemes false (forText A c B S).toList (forTokens pA pc pB pS)
    (pS.ends (pB.ends (pc.ends (pA.ends false)))) := by
  simp only [forText, String.toList_append, List.append_assoc]
  refine lexemes_forHead (pA.append (edge_of (by simp) _) (lexemes_semicolon ?_))
  refine pc.append (edge_of (by simp) _) (lexemes_semicolon ?_)
  refine pB.append (edge_of (by simp) _) (lexemes_body ?_)
  exact pS.append (by simpa using edge_of (s := " \x7d") (by simp) []) (lexemes_spacedEnd _)

def whileTokens : List Token :=
  let a := pA.ends false
  let b := pc.ends a
  let o := pS.ends b
  endedTokens pA false ++ (shown a [.whileWord, .leftParen] ++ (pc.seen a ++
    (shown b [.rightParen, .leftBrace, .leftBrace] ++ (pS.seen b ++ (shown o [.rightBrace] ++
      (endedTokens pB o ++ shown (pB.ends o) [.rightBrace]))))))

theorem lexemes_whileText : Lexemes false (whileText A c B S).toList (whileTokens pA pc pB pS)
    (pB.ends (pS.ends (pc.ends (pA.ends false)))) := by
  simp only [whileText, String.toList_append, List.append_assoc]
  refine lexemes_ended pA (lexemes_whileHead (pc.append (edge_of (by simp) _) ?_))
  refine lexemes_innerBody (pS.append (edge_of (by simp) _) (lexemes_innerEnd ?_))
  exact lexemes_ended pB (lexemes_end _)

end

/-! ### Comments in the parts -/

theorem excess_of_inner {ts : List Token} (h : ∀ t ∈ ts, t.inner = true) (b : Nat) :
    excess 0 b ts = 0 := by
  induction ts with
  | nil => rfl
  | cons t ts ih =>
    obtain ⟨ht, hts⟩ := List.forall_mem_cons.1 h
    rw [excess_cons, ih hts]
    cases t <;> first | rfl | cases ht

theorem Lexer.Part.inner {text : List Char} {p : Part text} (h : Inner (p.seen false)) (b : Bool) :
    ∀ t ∈ p.seen b, t.inner = true := by
  cases b with
  | false => exact h.inner
  | true => exact fun t ht => h.inner t (p.late.subset ht)

/-- A condition goes on with one part and then another one up to a semicolon, and with these parts
in the other order up to a parenthesis that closes it. Of the first part only an end is seen: it
opens no bracket that it does not close. That cannot be. -/
theorem false_of_heads {cs us ts es xs ys : List Token} {is : List Token} (hc : Inner cs)
    (hu : ∀ t ∈ us, t.inner = true) (hexcess : excess 1 0 us ≤ 0) (hi : Inner is) (he : Inner es)
    (h : cs ++ (us ++ ts) = is ++ .semicolon :: xs)
    (h' : cs ++ (ts ++ us) = es ++ .rightParen :: ys) : False := by
  -- What is in front of the semicolon goes beyond the condition and the step.
  obtain ⟨vs, rfl⟩ := prefix_of_not_mem ⟨_, h⟩ (semicolon_not_mem hc.inner)
  rw [List.append_assoc] at h
  have h := List.append_cancel_left h
  obtain ⟨ws, rfl⟩ := prefix_of_not_mem ⟨_, h⟩ (semicolon_not_mem hu)
  rw [List.append_assoc] at h
  obtain rfl := List.append_cancel_left h
  -- So the parenthesis stands in front of the semicolon too, and closes nothing.
  have hall : es ++ [.rightParen] <+: cs ++ ws ++ .semicolon :: (xs ++ us) :=
    ⟨ys, by simpa using h'.symm⟩
  have hparen := prefix_of_not_mem hall (by simpa using semicolon_not_mem he.inner)
  have hminus : excess 1 0 (es ++ [.rightParen]) = -1 := by
    rw [excess_append, (he.balanced 1 0).total]
    rfl
  rcases List.prefix_or_prefix_of_prefix hparen (List.prefix_append cs ws) with hcs | ⟨vs, hvs⟩
  · have hnonneg := (hc.balanced 1 0).prefix_nonneg hcs
    omega
  · rw [← hvs, List.prefix_append_right_inj] at hparen
    have hfront : cs ++ (us ++ vs) <+: cs ++ (us ++ ws) := by
      rwa [List.prefix_append_right_inj, List.prefix_append_right_inj]
    have hnonneg := (hi.balanced 1 0).prefix_nonneg hfront
    rw [← hvs, excess_append, (hc.balanced 1 0).total] at hminus
    rw [excess_append, excess_append, (hc.balanced 1 0).total] at hnonneg
    omega

section

variable {pA : Part A.toList} {pc : Part c.toList} {pB : Part B.toList} {pS : Part S.toList}
  {ls ls' : List Located} {ss ss' : List Stmt}

structure LoopParts (pA : Part A.toList) (pc : Part c.toList) (pB : Part B.toList)
    (pS : Part S.toList) : Prop where
  init : A = "" ∧ pA.seen false = [] ∨
    ∃ (as : List Located) (a : Simple), a.Spelled as ∧ pA.seen false = as.map Located.token
  initInner : Inner (pA.seen false)
  condition : Inner (pc.seen false)
  step : Inner (pB.seen false)
  body (p b : Nat) : Balanced p b (pS.seen false)

theorem excess_shown (p q : Nat) (a : Bool) (ts : List Token) :
    excess p q (shown a ts) = bif a then 0 else excess p q ts := by
  cases a <;> rfl

theorem endedTokens_empty (hB : B = "") (b : Bool) : pB.seen b = [] := by
  subst hB
  exact (pB.lexemes b).of_nil.1

theorem excess_endedTokens (p q : Nat) (b : Bool) :
    excess p q (endedTokens pB b) = excess p q (pB.seen b) := by
  unfold endedTokens
  by_cases hB : B = ""
  · rw [if_pos hB, endedTokens_empty hB]
  · rw [if_neg hB, excess_append, excess_shown]
    cases pB.ends b <;> simp [Token.weight]

/-! The brackets that are seen of the texts. -/

section

variable (hparts : LoopParts pA pc pB pS) {a b o : Bool} (ha : pA.ends false = a)
  (hb : pc.ends a = b)

section

include ha hb

theorem excess_forTokens (ho : pB.ends b = o) (p q : Nat) :
    excess p q (forTokens pA pc pB pS) =
      p + excess p q (pA.seen false) + excess p q (pc.seen a) + excess p q (pB.seen b) +
        (bif o then 0 else (q : Int) - p) + excess p q (pS.seen o) -
          bif pS.ends o then 0 else (q : Int) := by
  subst ha hb ho
  simp only [forTokens, excess_cons, excess_append, excess_shown, excess_nil, Token.weight,
    Int.add_zero, Bool.cond_self]
  cases pB.ends _ <;> cases pS.ends _ <;> simp only [cond_true, cond_false] <;> omega

theorem excess_whileTokens (ho : pS.ends b = o) (p q : Nat) :
    excess p q (whileTokens pA pc pB pS) =
      (bif a then 0 else (p : Int)) + excess p q (pA.seen false) + excess p q (pc.seen a) +
        (bif b then 0 else 2 * (q : Int) - p) + excess p q (pS.seen b) -
          (bif o then 0 else (q : Int)) + excess p q (pB.seen o) -
            bif pB.ends o then 0 else (q : Int) := by
  subst ha hb ho
  simp only [whileTokens, excess_cons, excess_append, excess_shown, excess_nil, Token.weight,
    excess_endedTokens, Int.add_zero]
  cases pA.ends false <;> cases pc.ends _ <;> cases pS.ends _ <;> cases pB.ends _ <;>
    simp only [cond_true, cond_false] <;> omega

end

include hparts ha hb

theorem braces_forTokens (ho : pB.ends b = o) : excess 0 1 (forTokens pA pc pB pS) =
    (bif o then 0 else 1) + excess 0 1 (pS.seen o) - bif pS.ends o then 0 else 1 := by
  rw [excess_forTokens ha hb ho, excess_of_inner hparts.initInner.inner,
    excess_of_inner (Part.inner hparts.condition a), excess_of_inner (Part.inner hparts.step b)]
  simp

theorem parens_forTokens (ho : pB.ends b = o) : excess 1 0 (forTokens pA pc pB pS) =
    1 + excess 1 0 (pc.seen a) + excess 1 0 (pB.seen b) - (bif o then 0 else 1) +
      excess 1 0 (pS.seen o) := by
  rw [excess_forTokens ha hb ho, (hparts.initInner.balanced 1 0).total]
  cases o <;> simp [Int.sub_eq_add_neg]

theorem braces_whileTokens (ho : pS.ends b = o) : excess 0 1 (whileTokens pA pc pB pS) =
    (bif b then 0 else 2) + excess 0 1 (pS.seen b) - (bif o then 0 else 1) -
      bif pB.ends o then 0 else 1 := by
  rw [excess_whileTokens ha hb ho, excess_of_inner hparts.initInner.inner,
    excess_of_inner (Part.inner hparts.condition a), excess_of_inner (Part.inner hparts.step o)]
  simp

theorem parens_whileTokens (ho : pS.ends b = o) : excess 1 0 (whileTokens pA pc pB pS) =
    (bif a then 0 else 1) + excess 1 0 (pc.seen a) - (bif b then 0 else 1) +
      excess 1 0 (pS.seen b) + excess 1 0 (pB.seen o) := by
  rw [excess_whileTokens ha hb ho, (hparts.initInner.balanced 1 0).total]
  cases b <;> simp [Int.sub_eq_add_neg]

end

theorem endedTokens_of_open {b : Bool} (h : pB.ends b = true) : endedTokens pB b = pB.seen b := by
  unfold endedTokens
  by_cases hB : B = ""
  · rw [if_pos hB, endedTokens_empty hB]
  · rw [if_neg hB, h, shown_true, List.append_nil]

/-- Behind the initial statement stands the head of a loop. -/
theorem LoopParts.of_while (hparts : LoopParts pA pc pB pS) (h : Stmt.AllSpelled true ls ss)
    (hinit : pA.ends false = false) {rest : List Token}
    (hls : ls.map Located.token = endedTokens pA false ++ .whileWord :: .leftParen :: rest) :
    ∃ cs ts, rest = cs ++ .rightParen :: ts ∧ Inner cs := by
  unfold endedTokens at hls
  by_cases hA : A = ""
  · rw [if_pos hA] at hls
    exact h.of_while hls
  · obtain ⟨as, a, ha, has⟩ := hparts.init.resolve_left fun hempty => hA hempty.1
    rw [if_neg hA, hinit, has, shown_false, List.append_assoc] at hls
    obtain ⟨us, ss', hus, hrest⟩ := h.of_simple ha hls
    exact hus.of_while hrest

/-- The step leaves no comment open: it would hide brackets that are missing then. -/
theorem step_closed (hparts : LoopParts pA pc pB pS) (h : Stmt.AllSpelled true ls ss)
    (hls : ls.map Located.token = forTokens pA pc pB pS) (h' : Stmt.AllSpelled true ls' ss')
    (hls' : ls'.map Located.token = whileTokens pA pc pB pS) :
    pB.ends (pc.ends (pA.ends false)) = false := by
  have hfor : ∀ p q, excess p q (forTokens pA pc pB pS) = 0 := fun p q => hls ▸ h.balanced.total
  have hwhile : ∀ p q, excess p q (whileTokens pA pc pB pS) = 0 := fun p q =>
    hls' ▸ h'.balanced.total
  by_contra hstep
  rw [Bool.not_eq_false] at hstep
  -- The last brace of the one text is hidden, as the first one is.
  have hbody : pS.ends true = true := by
    have hlate := (hparts.body 0 1).suffix pS.late
    have hbraces := hfor 0 1
    rw [braces_forTokens hparts rfl rfl hstep] at hbraces
    by_contra hbody
    rw [Bool.not_eq_true] at hbody
    simp only [hbody, cond_true, cond_false] at hbraces
    omega
  -- The first two braces of the other one are hidden, as one of the last two is.
  have hcondition : pc.ends (pA.ends false) = true := by
    have hbraces := hwhile 0 1
    rw [braces_whileTokens hparts rfl rfl rfl] at hbraces
    by_contra hcondition
    rw [Bool.not_eq_true] at hcondition
    rw [hcondition] at hbraces hstep
    have htotal := (hparts.body 0 1).total
    cases hinner : pS.ends false with
    | true =>
      simp only [hinner, cond_true, cond_false] at hbraces
      generalize pB.ends true = o at hbraces
      cases o <;> simp only [cond_true, cond_false] at hbraces <;> omega
    | false =>
      simp only [hinner, hstep, cond_true, cond_false] at hbraces
      omega
  rw [hcondition] at hstep
  -- Each text needs an opening parenthesis for what is seen of the same parts.
  have hinit : pA.ends false = false := by
    have hparens := hfor 1 0
    have hparens' := hwhile 1 0
    rw [parens_forTokens hparts rfl hcondition hstep] at hparens
    rw [parens_whileTokens hparts rfl hcondition hbody] at hparens'
    by_contra hinit
    rw [Bool.not_eq_false] at hinit
    simp only [hinit, cond_true] at hparens hparens'
    omega
  rw [hinit] at hcondition
  simp only [forTokens, hinit, hcondition, hstep, hbody, shown_true, shown_false, List.nil_append,
    List.cons_append, List.append_nil] at hls
  simp only [whileTokens, hinit, hcondition, hstep, hbody, shown_true, shown_false,
    endedTokens_of_open hstep, List.nil_append, List.cons_append, List.append_nil] at hls'
  obtain ⟨is, cs, _, _, hrest, hi, hc, _⟩ := h.of_for hls
  obtain ⟨es, ys, hrest', he⟩ := hparts.of_while h' hinit hls'
  have hinj := append_cons_inj hrest (semicolon_not_mem hparts.initInner.inner)
    (semicolon_not_mem hi.inner)
  exact false_of_heads hparts.condition (Part.inner hparts.step true)
    ((hparts.step.balanced 1 0).suffix pB.late) hc he hinj.2 hrest'

/-- Two semicolons stand in front of the body. -/
theorem semicolons_shown (hparts : LoopParts pA pc pB pS) {a b : Bool} {rest : List Token}
    (h : Stmt.AllSpelled true ls ss)
    (hls : ls.map Located.token = .forWord :: .leftParen :: (pA.seen false ++
      (shown a [.semicolon] ++ (pc.seen a ++ (shown b [.semicolon] ++ (pB.seen b ++
        .rightParen :: .leftBrace :: rest)))))) : a = false ∧ b = false := by
  obtain ⟨is, cs, us, ts, hrest, hi, hc, hu⟩ := h.of_for hls
  have hcount : ∀ {vs : List Token}, (∀ t ∈ vs, t.inner = true) → vs.count .semicolon = 0 :=
    fun hvs => List.count_eq_zero.2 (semicolon_not_mem hvs)
  have hbrace : ∀ {vs : List Token}, (∀ t ∈ vs, t.inner = true) → .leftBrace ∉ vs := by
    intro vs hvs hmem
    cases hvs _ hmem
  have hall : is ++ .semicolon :: (cs ++ .semicolon :: us) <+:
      pA.seen false ++ (shown a [.semicolon] ++ (pc.seen a ++ (shown b [.semicolon] ++
        (pB.seen b ++ [.rightParen])))) ++ .leftBrace :: rest :=
    ⟨.rightParen :: ts, by simpa using hrest.symm⟩
  have hfront := prefix_of_not_mem hall
    (by simp [hbrace hi.inner, hbrace hc.inner, hbrace hu.inner])
  have hle := hfront.sublist.count_le .semicolon
  simp only [List.count_append, List.count_cons, hcount hi.inner, hcount hc.inner, hcount hu.inner,
    hcount hparts.initInner.inner, hcount (Part.inner hparts.condition a),
    hcount (Part.inner hparts.step b)] at hle
  cases a <;> cases b <;> simp at hle ⊢

/-- No part leaves a comment open: it would hide a semicolon too. -/
theorem parts_closed (hparts : LoopParts pA pc pB pS) (h : Stmt.AllSpelled true ls ss)
    (hls : ls.map Located.token = forTokens pA pc pB pS)
    (hstep : pB.ends (pc.ends (pA.ends false)) = false) :
    pA.ends false = false ∧ pc.ends false = false ∧ pB.ends false = false ∧
      pS.ends false = false := by
  have hbody : pS.ends false = false := by
    have hbraces : excess 0 1 (forTokens pA pc pB pS) = 0 := hls ▸ h.balanced.total
    have htotal := (hparts.body 0 1).total
    rw [braces_forTokens hparts rfl rfl hstep] at hbraces
    by_contra hbody
    rw [Bool.not_eq_false] at hbody
    simp only [hbody, cond_true, cond_false] at hbraces
    omega
  simp only [forTokens, hstep, shown_false, List.cons_append, List.nil_append] at hls
  obtain ⟨hinit, hcondition⟩ := semicolons_shown hparts h hls
  rw [hinit] at hcondition hstep
  rw [hcondition] at hstep
  exact ⟨hinit, hcondition, hstep, hbody⟩

end

end TeachLang
