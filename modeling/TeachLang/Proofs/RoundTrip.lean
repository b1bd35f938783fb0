import TeachLang.Proofs.Rendering

/-!
# Reading back what was written

What is parsed has the shape of a parsed tree, and every tree of this shape is read back from its
text.
-/

namespace TeachLang

namespace Tree

variable {t : Tree}

theorem sourceWithin_of_bears {k : NodeId} {s : Span} {f : Form} (h : t.Bears k s f)
    (bound : Nat) : t.sourceWithin (bound + 1) k = f.source (t.sourceWithin bound) := by
  obtain ⟨n, hn, rfl, rfl⟩ := h
  rw [sourceWithin, hn]
  rfl

structure Renders (t : Tree) (bound : Nat) (k : NodeId) : Prop where
  name : ∀ {s x}, t.Bears k s (.reference x) → t.sourceWithin bound k = x
  expr : t.IsExpr k → t.ReadsExpr k (t.sourceWithin bound k)
  simple : t.IsSimple k → t.ReadsSimple k (t.sourceWithin bound k)
  block : ∀ {s ks}, t.Bears k s (.scope ks) → (∀ l ∈ ks, t.IsStmt l) →
    t.ReadsBlock k (t.sourceWithin bound k)
  stmt : t.IsStmt k → t.ReadsStmt k (t.sourceWithin bound k)

section

variable {bound : Nat} {k : NodeId}
  (hbelow : ∀ {s f}, t.Bears k s f → ∀ l ∈ f.children, t.Renders bound l)
include hbelow

theorem readsExpr_succ (h : t.IsExpr k) : t.ReadsExpr k (t.sourceWithin (bound + 1) k) := by
  cases h with
  | literal h hv =>
    rw [sourceWithin_of_bears h]
    exact readsExpr_literal h hv
  | reference h hx =>
    rw [sourceWithin_of_bears h]
    exact readsExpr_reference h hx
  | @unary _ l _ op h hl =>
    have hoperand := (hbelow h l (by simp [Form.children, Form.roles])).expr hl
    rw [sourceWithin_of_bears h]
    exact .unary h hoperand
  | @binary _ l m _ op h hl hm =>
    have hchildren : (op.form l m).children = [l, m] := by cases op <;> rfl
    have hleft := (hbelow h l (by simp [hchildren])).expr hl
    have hright := (hbelow h m (by simp [hchildren])).expr hm
    have hread := ReadsExpr.binary h hleft hright
    rw [sourceWithin_of_bears h]
    cases op <;> exact hread

theorem readsSimple_succ (h : t.IsSimple k) : t.ReadsSimple k (t.sourceWithin (bound + 1) k) := by
  cases h with
  | @assign l m _ h hl hm =>
    obtain ⟨p, x, hp, hx⟩ := hl
    have hname := (hbelow h l (by simp [Form.children, Form.roles])).name hp
    have hvalue := (hbelow h m (by simp [Form.children, Form.roles])).expr hm
    rw [sourceWithin_of_bears h, Form.source, Form.part, Option.map_some, Option.getD_some, hname]
    exact .assign h hp hx hvalue
  | @input l _ h hl =>
    obtain ⟨p, x, hp, hx⟩ := hl
    have hname := (hbelow h l (by simp [Form.children, Form.roles])).name hp
    rw [sourceWithin_of_bears h, Form.source, Form.part, Option.map_some, Option.getD_some, hname]
    exact .input h hp hx
  | expr h => exact (readsExpr_succ hbelow h).simple

theorem readsBlock_succ {s : Span} {ks : List NodeId} (h : t.Bears k s (.scope ks))
    (hks : ∀ l ∈ ks, t.IsStmt l) : t.ReadsBlock k (t.sourceWithin (bound + 1) k) := by
  rw [sourceWithin_of_bears h]
  refine (readsAll_lines fun l hl => (hbelow h l ?_).stmt (hks l hl)).block h
  simpa [Form.children, Form.roles] using hl

theorem readsStmt_succ (h : t.IsStmt k) : t.ReadsStmt k (t.sourceWithin (bound + 1) k) := by
  cases h with
  | scope h hks => exact (readsBlock_succ hbelow h hks).stmt
  | @ifThen _ c a _ h hc ha =>
    have hcondition := (hbelow h c (by simp [Form.children, Form.roles])).expr hc
    have hthen := (hbelow h a (by simp [Form.children, Form.roles])).stmt ha
    rw [sourceWithin_of_bears h]
    exact .ifThen h hcondition hthen
  | @ifElse _ c a b _ h hc ha hd hb =>
    have hcondition := (hbelow h c (by simp [Form.children, Form.roles])).expr hc
    have hthen := (hbelow h a (by simp [Form.children, Form.roles])).stmt ha
    have helse := (hbelow h b (by simp [Form.children, Form.roles])).stmt hb
    rw [sourceWithin_of_bears h]
    exact .ifElse h hcondition hthen hd helse
  | @whileLoop _ c b _ _ _ h hc hb hks =>
    have hcondition := (hbelow h c (by simp [Form.children, Form.roles])).expr hc
    have hbody := (hbelow h b (by simp [Form.children, Form.roles])).block hb hks
    rw [sourceWithin_of_bears h]
    exact .whileLoop h hcondition hbody
  | @forLoop _ c b i u _ _ _ h hi hc hu hb hks =>
    have hchild : ∀ l, l ∈ i ∨ l = c ∨ l ∈ u ∨ l = b → t.Renders bound l := by
      intro l hl
      refine hbelow h l ?_
      cases i <;> cases u <;> simp [Form.children, Form.roles] at hl ⊢ <;> grind
    have hinit : t.ReadsOptional i (Form.part (t.sourceWithin bound) i) :=
      readsOptional_part fun l hl => (hchild l (.inl hl)).simple (hi l hl)
    have hcondition := (hchild c (.inr (.inl rfl))).expr hc
    have hstep : t.ReadsOptional u (Form.part (t.sourceWithin bound) u) :=
      readsOptional_part fun l hl => (hchild l (.inr (.inr (.inl hl)))).simple (hu l hl)
    have hbody := (hchild b (.inr (.inr (.inr rfl)))).block hb hks
    rw [sourceWithin_of_bears h]
    exact .forLoop h hinit hcondition hstep hbody
  | @print _ l _ h hl =>
    have hvalue := (hbelow h l (by simp [Form.children, Form.roles])).expr hl
    rw [sourceWithin_of_bears h]
    exact .print h hvalue
  | @declaration _ _ x i h hx hi =>
    rw [sourceWithin_of_bears h]
    cases i with
    | none => exact .declareBare h hx
    | some l =>
      have hvalue := (hbelow h l (by simp [Form.children, Form.roles])).expr (hi l rfl)
      exact .declare h hx hvalue
  | @expression _ l _ h hl =>
    have hstatement := (hbelow h l (by simp [Form.children, Form.roles])).simple hl
    rw [sourceWithin_of_bears h]
    exact .expression h hstatement

end

theorem Forest.renders (hf : Forest t) {k : NodeId} (hk : t.contains k = true) :
    t.Renders t.size k := by
  refine hf.descend (fun bound k n hn hchildren => ?_) hk
  have hbelow : ∀ {s f}, t.Bears k s f → ∀ l ∈ f.children, t.Renders bound l := by
    rintro s _ ⟨m, hm, rfl, -⟩
    cases hn.symm.trans hm
    exact hchildren
  exact ⟨fun h => sourceWithin_of_bears h bound, readsExpr_succ hbelow, readsSimple_succ hbelow,
    readsBlock_succ hbelow, readsStmt_succ hbelow⟩

theorem SourceShaped.readsAll (hf : Forest t) (h : t.SourceShaped) :
    ∃ ks, t.HasStatements ks ∧ t.ReadsAll ks t.source := by
  obtain ⟨root, s, ks, hroot, hb, hks⟩ := h
  have hsource : t.source = Form.lines (t.sourceWithin t.size) ks := by
    obtain ⟨n, hn, hform, -⟩ := hb
    rw [source, hroot, Option.bind_some, hn, Option.map_some, hform]
  refine ⟨ks, ⟨root, s, hroot, hb⟩, ?_⟩
  rw [hsource]
  refine readsAll_lines fun k hk => (hf.renders (hf.contains_of_bears hb ?_)).stmt (hks k hk)
  simpa [Form.children, Form.roles] using hk

end Tree

open TeachLang.Tree

theorem Tree.sourceShaped_of_ofSource {source : String} {file : Option String} {t : Tree}
    (h : ofSource source file = .ok t) : t.SourceShaped := by
  obtain ⟨tokens, ss, ks, hscan, hspelled, hks, ⟨root, s, hroot, hb⟩, _⟩ := ofSource_stands h
  exact ⟨root, s, ks, hroot, hb, hspelled.isStmt (spells_of_mem_scan hscan) hks⟩

/-- What is parsed has the shape of a parsed tree, and a tree of this shape is read back from its
text. -/
theorem Tree.ofSource_source :
    (∀ source file t, ofSource source file = .ok t → t.SourceShaped) ∧
    ∀ t, Built t → t.SourceShaped → ∀ file,
      ∃ u, ofSource t.source file = .ok u ∧ t.same u = true := by
  constructor
  · exact fun source file t h => sourceShaped_of_ofSource h
  · intro t ht hshape file
    have hf := ht.forest
    obtain ⟨ks, ⟨root, s, hroot, hb⟩, ss, ss', ls, hks, halike, hspelled, hw⟩ := hshape.readsAll hf
    obtain ⟨us, hscan, hus⟩ := scan_of_writes hw file
    obtain ⟨ss'', hspelled', halike'⟩ := hspelled.alike (R := Span.Any)
      (fun _ _ _ _ _ _ => trivial) (show Span.Any {} {} from trivial) hus
    obtain ⟨u, ids, hu, hids, ⟨root', s', hroot', hb'⟩, hfu⟩ := hspelled'.exists_tree
    refine ⟨u, ofSource_eq_ok.2 ⟨us, hscan, hu⟩, ?_⟩
    have hblock : Counterpart t u Span.Any root root' :=
      .body ⟨ks, hks, hb⟩ ⟨ids, hids, hb'⟩ trivial
        (halike.trans (fun _ _ _ _ _ => trivial) halike')
    have hparents : (u.parent? root').isNone = (t.parent? root).isNone := by
      rw [(hf.root_parentless root hroot).2, (hfu.root_parentless root' hroot').2]
    have hsame := (simulates_partner ht.forest hfu).same? hf ⟨hblock, hparents⟩
    rw [same, hroot, hroot']
    exact decide_eq_true hsame

theorem Tree.ofSource_source_of_inner_if :
    ∃ t u, ofSource "if (x) \x7bif (-y < 1) print 1;\x7d else z = ?;" none = .ok t ∧
      t.source = "if (x) \x7b\nif (((-y) < 1)) print 1;\n\x7d else z = ?;\n" ∧
      ofSource t.source none = .ok u ∧ t.same u = true := by
  have htext : (ofSource "if (x) \x7bif (-y < 1) print 1;\x7d else z = ?;" none).map source =
      .ok "if (x) \x7b\nif (((-y) < 1)) print 1;\n\x7d else z = ?;\n" := by decide +kernel
  cases ht : ofSource "if (x) \x7bif (-y < 1) print 1;\x7d else z = ?;" none with
  | error e =>
    rw [ht] at htext
    cases htext
  | ok t =>
    rw [ht] at htext
    obtain ⟨tokens, _, htokens⟩ := ofSource_eq_ok.1 ht
    obtain ⟨_, _, _, hbuilt⟩ := ofTokens_stands htokens
    have hshape := ofSource_source.1 _ none t ht
    obtain ⟨u, hu, hsame⟩ := ofSource_source.2 t hbuilt hshape none
    exact ⟨t, u, rfl, Except.ok.inj htext, hu, hsame⟩

end TeachLang
