import TeachLang.Proofs.Drawings
import TeachLang.Proofs.Lines
import TeachLang.Proofs.RoundTrip

/-!
# Names in a drawing

Names are written into the labels of a drawing as they are. So a newline in a name breaks the line
of its record in two, and a quote in it ends the string that is the label, unless a backslash stands
in front of the quote. Nothing else does harm: where no name that is drawn is of this kind, there is
one line for each record, and each label is one string. No name in a source text is of this kind;
names that are given by hand may be.
-/

namespace TeachLang

/-! ### Text between quotes -/

namespace Text

variable {cs ds : List Char}

/-- Takes a character that stands behind an opening quote; `escaped` if a backslash is in front of
it. An unescaped quote closes the string, so that there is no going on. -/
def readQuoted (escaped : Bool) (c : Char) : Option Bool :=
  if escaped then some false else if c = '"' then none else some (c = '\\')

/-- The text may stand between two quotes: none of its own quotes is unescaped, and no backslash at
its end escapes the quote that follows. -/
def Quotable (cs : List Char) : Prop := cs.foldlM readQuoted false = some false

def Unquotes (cs : List Char) : Prop := cs.foldlM readQuoted false = none

instance : DecidablePred Quotable := fun _ => inferInstanceAs (Decidable (_ = _))

instance : DecidablePred Unquotes := fun _ => inferInstanceAs (Decidable (_ = _))

def isPlain (c : Char) : Bool := c ≠ '\n' && c ≠ '"' && c ≠ '\\'

def Plain (cs : List Char) : Prop := cs.all isPlain = true

instance : DecidablePred Plain := fun _ => inferInstanceAs (Decidable (_ = true))

theorem plain_iff : Plain cs ↔ ∀ c ∈ cs, c ≠ '\n' ∧ c ≠ '"' ∧ c ≠ '\\' := by
  simp only [Plain, List.all_eq_true, isPlain, Bool.and_eq_true, decide_eq_true_eq, and_assoc]

theorem plain_of_forall {p : Char → Bool} (h : ∀ c ∈ cs, p c = true) (hnewline : p '\n' = false)
    (hquote : p '"' = false) (hbackslash : p '\\' = false) : Plain cs := by
  have hne : ∀ c ∈ cs, ∀ d, p d = false → c ≠ d := by
    rintro c hc d hd rfl
    cases hd.symm.trans (h c hc)
  exact plain_iff.2 fun c hc => ⟨hne c hc _ hnewline, hne c hc _ hquote, hne c hc _ hbackslash⟩

theorem Plain.append (hcs : Plain cs) (hds : Plain ds) : Plain (cs ++ ds) := by
  rw [Plain, List.all_append, hcs, hds, Bool.and_self]

theorem Plain.newlines_eq (h : Plain cs) : newlines cs = 0 :=
  newlines_eq_zero.2 fun hmem => (plain_iff.1 h _ hmem).1 rfl

theorem Plain.readQuoted_eq (h : Plain cs) : cs.foldlM readQuoted false = some false := by
  rw [plain_iff] at h
  induction cs with
  | nil => rfl
  | cons c cs ih =>
    obtain ⟨-, hquote, hbackslash⟩ := h c List.mem_cons_self
    have hstep : readQuoted false c = some false := by simp [readQuoted, hquote, hbackslash]
    rw [List.foldlM_cons, hstep]
    exact ih fun d hd => h d (.tail c hd)

theorem Plain.not_unquotes (h : Plain cs) : ¬ Unquotes cs := by
  rw [Unquotes, h.readQuoted_eq]
  nofun

/-- Behind the two characters of a line break nothing is escaped, whatever is in front of them. -/
theorem readQuoted_break (escaped : Bool) : ['\\', 'n'].foldlM readQuoted escaped = some false := by
  cases escaped <;> rfl

theorem Plain.readQuoted_append (hcs : Plain cs) (ds : List Char) :
    (cs ++ ds).foldlM readQuoted false = ds.foldlM readQuoted false := by
  rw [List.foldlM_append, hcs.readQuoted_eq]
  rfl

theorem unquotes_append (hcs : Plain cs) (text : List Char) :
    Unquotes (cs ++ text) ↔ Unquotes text := by
  rw [Unquotes, Unquotes, hcs.readQuoted_append]

/-- What stands between line breaks is a string exactly if none of its quotes is unescaped. -/
theorem quotable_between (hcs : Plain cs) (hds : Plain ds) (text : List Char) :
    Quotable (cs ++ (['\\', 'n'] ++ (text ++ (['\\', 'n'] ++ ds)))) ↔ ¬ Unquotes text := by
  rw [Quotable, Unquotes, hcs.readQuoted_append, List.foldlM_append, readQuoted_break,
    Option.bind_eq_bind, Option.bind_some, List.foldlM_append]
  cases text.foldlM readQuoted false with
  | none => simp
  | some escaped =>
    rw [Option.bind_eq_bind, Option.bind_some, List.foldlM_append, readQuoted_break]
    exact iff_of_true hds.readQuoted_eq nofun

theorem plain_toDigits (n : Nat) : Plain (Nat.toDigits 10 n) :=
  plain_of_forall (fun _ => isDigit_of_mem_toDigits) rfl rfl rfl

theorem plain_integerChars (v : Int64) : Plain (integerChars v) := by
  have hsign : Plain ['-'] := by decide
  have hdigits := plain_toDigits v.toInt.natAbs
  unfold integerChars
  by_cases hv : v.toInt < 0
  · rw [if_pos hv]
    exact hsign.append hdigits
  · rwa [if_neg hv]

end Text

open Text

/-! ### Labels -/

theorem Kind.plain_name (k : Kind) : Plain k.name.toList := by
  cases k <;> decide

theorem NodeId.plain_text (id : NodeId) : Plain id.text.toList := by
  rw [NodeId.text, String.toList_append, Nat.toString_eq_repr, Nat.toList_repr]
  exact Plain.append (by decide) (plain_toDigits id)

namespace Form

def name? : Form → Option String
  | reference x => some x
  | declaration x _ => some x
  | _ => none

/-- In what a node says only its name is of any text. -/
theorem exists_payload_eq (f : Form) :
    ∃ front : String, Plain front.toList ∧ f.payload = front ++ f.name?.getD "" := by
  cases f with
  | reference x => exact ⟨"", by decide, String.empty_append.symm⟩
  | declaration x e => exact ⟨"var_decl ", by decide, rfl⟩
  | literal v =>
    refine ⟨integerText v, ?_, String.append_empty.symm⟩
    rw [integerText, String.toList_ofList]
    exact plain_integerChars v
  | arithmetic op l r => exact ⟨op.symbol, by cases op <;> decide, String.append_empty.symm⟩
  | logic op l r => exact ⟨op.symbol, by cases op <;> decide, String.append_empty.symm⟩
  | unary op e => exact ⟨op.symbol, by cases op <;> decide, String.append_empty.symm⟩
  | _ =>
    refine ⟨payload _, ?_, String.append_empty.symm⟩
    simp only [payload]
    decide

end Form

namespace Tree

variable {t : Tree} {id : NodeId} {n : Node}

def nameAt (t : Tree) (id : NodeId) : String := ((t.get? id).bind (·.form.name?)).getD ""

theorem exists_payload_eq (hn : t.get? id = some n) :
    ∃ front : String, Plain front.toList ∧ n.form.payload = front ++ t.nameAt id := by
  rw [nameAt, hn]
  exact n.form.exists_payload_eq

theorem quotable_label (hn : t.get? id = some n) :
    Quotable (Draw.label id n).toList ↔ ¬ Unquotes (t.nameAt id).toList := by
  obtain ⟨front, hfront, hpayload⟩ := exists_payload_eq hn
  have hlabel : (Draw.label id n).toList = n.kind.name.toList ++ (['\\', 'n'] ++
      (n.form.payload.toList ++ (['\\', 'n'] ++ id.text.toList))) := by
    have hbreak : "\\n".toList = ['\\', 'n'] := by decide
    simp only [Draw.label, String.toList_append, List.append_assoc, hbreak]
  rw [hlabel, quotable_between n.kind.plain_name id.plain_text, hpayload, String.toList_append,
    unquotes_append hfront]

end Tree

/-! ### Lines -/

namespace Draw

theorem newlines_line_edge (k c : Nat) : newlines (Record.edge k c).line.toList = 1 := by
  have hfront : newlines "  n".toList = 0 := by decide
  have harrow : newlines " -> n".toList = 0 := by decide
  have hend : newlines "\n".toList = 1 := by decide
  simp only [Record.line, String.toList_append, newlines_append, Nat.toString_eq_repr,
    Nat.toList_repr, (plain_toDigits _).newlines_eq, hfront, harrow, hend]

theorem newlines_line_node (k : Nat) (id : NodeId) (kind : Kind) (payload : String) :
    newlines (Record.node k id kind payload).line.toList = newlines payload.toList + 1 := by
  have hfront : newlines "  n".toList = 0 := by decide
  have hopen : newlines " [shape=box,label=\"".toList = 0 := by decide
  have hbreak : newlines "\\n".toList = 0 := by decide
  have hend : newlines "\"]\n".toList = 1 := by decide
  simp only [Record.line, String.toList_append, newlines_append, Nat.toString_eq_repr,
    Nat.toList_repr, (plain_toDigits _).newlines_eq, kind.plain_name.newlines_eq,
    id.plain_text.newlines_eq, hfront, hopen, hbreak, hend, Nat.zero_add, Nat.add_zero]

theorem newlines_edges (k : Nat) (number : NodeId → Nat) (cs : List NodeId) :
    newlines ((cs.map fun c => Record.edge k (number c)).flatMap (·.line.toList)) = cs.length := by
  induction cs with
  | nil => rfl
  | cons c cs ih =>
    rw [List.map_cons, List.flatMap_cons, newlines_append, newlines_line_edge, ih,
      List.length_cons, Nat.add_comm]

end Draw

open Draw

namespace Tree

variable {t : Tree} {id root : NodeId} {n : Node}

theorem newlines_recordsAt (hn : t.get? id = some n) :
    newlines ((t.recordsAt id).flatMap (·.line.toList)) =
      (t.recordsAt id).length + newlines (t.nameAt id).toList := by
  obtain ⟨front, hfront, hpayload⟩ := exists_payload_eq hn
  rw [recordsAt_eq hn, List.flatMap_cons, newlines_append, newlines_line_node, newlines_edges,
    hpayload, String.toList_append, newlines_append, hfront.newlines_eq, List.length_cons,
    List.length_map]
  omega

namespace Forest

variable (hf : Forest t)
include hf

/-- Besides the line that each record is, the text has those that end within names. -/
theorem newlines_records : newlines (String.join (t.records.map Record.line)).toList =
    t.records.length + newlines (t.reachable.flatMap fun id => (t.nameAt id).toList) := by
  have hbody : ∀ ids ⊆ t.reachable,
      newlines ((ids.flatMap t.recordsAt).flatMap (·.line.toList)) =
        (ids.flatMap t.recordsAt).length +
          newlines (ids.flatMap fun id => (t.nameAt id).toList) := by
    intro ids hids
    induction ids with
    | nil => rfl
    | cons id ids ih =>
      obtain ⟨n, hn⟩ := hf.exists_of_mem_reachable (hids List.mem_cons_self)
      have hrest := ih fun k hk => hids (.tail id hk)
      rw [List.flatMap_cons, List.flatMap_append, newlines_append, newlines_recordsAt hn, hrest,
        List.length_append, List.flatMap_cons, newlines_append]
      omega
  have hopening : newlines Record.opening.line.toList = 1 := by decide
  have hclosing : newlines Record.closing.line.toList = 1 := by decide
  rw [String.toList_join, List.flatMap_map, records, List.flatMap_cons, List.flatMap_append,
    List.flatMap_singleton, newlines_append, newlines_append, hopening, hclosing,
    hbody _ (List.Subset.refl _), List.length_cons, List.length_append, List.length_singleton]
  omega

theorem mem_childrenAt_iff (hid : id ∈ t.reachable) {c : NodeId} :
    c ∈ t.childrenAt id ↔ t.parent? c = some id := by
  obtain ⟨n, hn⟩ := hf.exists_of_mem_reachable hid
  rw [childrenAt_eq hn, hf.mem_children_iff hn]

theorem nodup_childrenAt (hid : id ∈ t.reachable) : (t.childrenAt id).Nodup := by
  obtain ⟨n, hn⟩ := hf.exists_of_mem_reachable hid
  rw [childrenAt_eq hn]
  exact hf.nodup_children hn

/-- What is reached is the root, and each child of what is reached. -/
theorem perm_reachable (hroot : t.root = some root) :
    (root :: t.reachable.flatMap t.childrenAt).Perm t.reachable := by
  have hlists := hf.lists_reachable hroot
  have hmem : ∀ k, k ∈ t.reachable.flatMap t.childrenAt ↔
      ∃ id ∈ t.reachable, t.parent? k = some id := by
    intro k
    rw [List.mem_flatMap]
    exact exists_congr fun id => and_congr_right fun hid => hf.mem_childrenAt_iff hid
  have hnodup : (t.reachable.flatMap t.childrenAt).Nodup := by
    rw [List.nodup_flatMap]
    refine ⟨fun id => hf.nodup_childrenAt, hf.nodup_reachable.imp_of_mem ?_⟩
    intro id k hid hk hne c hc hc'
    have hparent := (hf.mem_childrenAt_iff hid).1 hc
    have hparent' := (hf.mem_childrenAt_iff hk).1 hc'
    exact hne (Option.some.inj (hparent.symm.trans hparent'))
  have hnew : root ∉ t.reachable.flatMap t.childrenAt := by
    rw [hmem]
    rintro ⟨id, -, hid⟩
    cases (hf.root_parentless root hroot).2.symm.trans hid
  refine (List.perm_ext_iff_of_nodup (List.nodup_cons.2 ⟨hnew, hnodup⟩) hlists.nodup).2 fun k => ?_
  rw [List.mem_cons, hmem]
  constructor
  · rintro (rfl | ⟨id, hid, hk⟩)
    · exact (hlists.mem_iff k).2 .refl
    · exact hf.mem_reachable_of_parent? hid hk
  · intro hk
    rcases Relation.ReflTransGen.cases_head ((hlists.mem_iff k).1 hk) with rfl | ⟨id, hid, habove⟩
    · exact .inl rfl
    · exact .inr ⟨id, (hlists.mem_iff id).2 habove, hid⟩

theorem length_records (hroot : t.root = some root) :
    t.records.length = 2 * t.reachable.length + 1 := by
  have hbody : ∀ ids ⊆ t.reachable, (ids.flatMap t.recordsAt).length =
      ids.length + (ids.flatMap t.childrenAt).length := by
    intro ids hids
    induction ids with
    | nil => rfl
    | cons id ids ih =>
      obtain ⟨n, hn⟩ := hf.exists_of_mem_reachable (hids List.mem_cons_self)
      have hrest := ih fun k hk => hids (.tail id hk)
      rw [List.flatMap_cons, List.flatMap_cons, List.length_append, List.length_append, hrest,
        recordsAt_eq hn, childrenAt_eq hn, List.length_cons, List.length_cons, List.length_map]
      omega
  have hchildren := (hf.perm_reachable hroot).length_eq
  rw [List.length_cons] at hchildren
  rw [records, List.length_cons, List.length_append, List.length_singleton,
    hbody _ (List.Subset.refl _)]
  omega

end Forest

/-! ### Names in a source -/

def IsPart (t : Tree) (k : NodeId) : Prop := t.IsStmt k ∨ t.IsSimple k

theorem IsExpr.isPart {k : NodeId} (h : t.IsExpr k) : t.IsPart k := .inr (.expr h)

theorem IsTarget.isPart {k : NodeId} : t.IsTarget k → t.IsPart k
  | ⟨_, _, hk, hx⟩ => (IsExpr.reference hk hx).isPart

structure OfSource (t : Tree) (f : Form) : Prop where
  name : ∀ x ∈ f.name?, IsName x
  parts : ∀ c ∈ f.children, t.IsPart c

variable {k : NodeId}

theorem OfSource.nameless {f : Form} (hname : f.name? = none)
    (hparts : ∀ c ∈ f.children, t.IsPart c) : t.OfSource f :=
  ⟨by simp [hname], hparts⟩

theorem IsExpr.ofSource (h : t.IsExpr k) : ∃ s f, t.Bears k s f ∧ t.OfSource f := by
  cases h with
  | literal h hv => exact ⟨_, _, h, .nameless rfl (by simp [Form.children, Form.roles])⟩
  | reference h hx =>
    exact ⟨_, _, h, by simpa [Form.name?] using hx, by simp [Form.children, Form.roles]⟩
  | unary h hl =>
    exact ⟨_, _, h, .nameless rfl (by simpa [Form.children, Form.roles] using hl.isPart)⟩
  | @binary _ _ _ _ op h hl hm =>
    refine ⟨_, _, h, .nameless (by cases op <;> rfl) ?_⟩
    cases op <;> simp [BinaryOperator.form, Form.children, Form.roles, hl.isPart, hm.isPart]

theorem IsSimple.ofSource (h : t.IsSimple k) : ∃ s f, t.Bears k s f ∧ t.OfSource f := by
  cases h with
  | assign h hl hm =>
    refine ⟨_, _, h, .nameless rfl ?_⟩
    simpa [Form.children, Form.roles] using ⟨hl.isPart, hm.isPart⟩
  | input h hl =>
    exact ⟨_, _, h, .nameless rfl (by simpa [Form.children, Form.roles] using hl.isPart)⟩
  | expr h => exact h.ofSource

theorem IsStmt.ofSource (h : t.IsStmt k) : ∃ s f, t.Bears k s f ∧ t.OfSource f := by
  cases h with
  | scope h hks =>
    refine ⟨_, _, h, .nameless rfl fun c hc => .inl (hks c ?_)⟩
    simpa [Form.children, Form.roles] using hc
  | ifThen h hc ha =>
    refine ⟨_, _, h, .nameless rfl ?_⟩
    simpa [Form.children, Form.roles] using ⟨hc.isPart, .inl ha⟩
  | ifElse h hc ha hd hb =>
    refine ⟨_, _, h, .nameless rfl ?_⟩
    simpa [Form.children, Form.roles] using ⟨hc.isPart, .inl ha, .inl hb⟩
  | whileLoop h hc hb hks =>
    refine ⟨_, _, h, .nameless rfl ?_⟩
    simpa [Form.children, Form.roles] using ⟨hc.isPart, .inl (.scope hb hks)⟩
  | @forLoop _ c b i u _ _ _ h hi hc hu hb hks =>
    refine ⟨_, _, h, .nameless rfl fun l hl => ?_⟩
    have hl : l ∈ i ∨ l = c ∨ l ∈ u ∨ l = b := by
      cases i <;> cases u <;> simp [Form.children, Form.roles] at hl ⊢ <;> grind
    rcases hl with hl | rfl | hl | rfl
    · exact .inr (hi l hl)
    · exact hc.isPart
    · exact .inr (hu l hl)
    · exact .inl (.scope hb hks)
  | print h hl =>
    exact ⟨_, _, h, .nameless rfl (by simpa [Form.children, Form.roles] using hl.isPart)⟩
  | @declaration _ _ _ i h hx hi =>
    refine ⟨_, _, h, by simpa [Form.name?] using hx, fun l hl => (hi l ?_).isPart⟩
    cases i <;> simp_all [Form.children, Form.roles]
  | expression h hl =>
    exact ⟨_, _, h, .nameless rfl (by simpa [Form.children, Form.roles] using .inr hl)⟩

theorem IsPart.ofSource (h : t.IsPart k) : ∃ s f, t.Bears k s f ∧ t.OfSource f :=
  h.elim IsStmt.ofSource IsSimple.ofSource

theorem SourceShaped.isPart (hf : Forest t) (h : t.SourceShaped) (hid : id ∈ t.reachable) :
    t.IsPart id := by
  obtain ⟨root, s, ks, hroot, hb, hks⟩ := h
  have habove := ((hf.lists_reachable hroot).mem_iff id).1 hid
  refine Relation.ReflTransGen.head_induction_on habove (.inl (.scope hb hks)) ?_
  intro k up hup _ hpart
  obtain ⟨s, _, ⟨n, hn, rfl, -⟩, hform⟩ := hpart.ofSource
  exact hform.parts k ((hf.mem_children_iff hn).2 hup)

end Tree

/-! ### Drawings in order -/

def Harmless (x : String) : Prop := '\n' ∉ x.toList ∧ ¬ Unquotes x.toList

instance : DecidablePred Harmless := fun _ => inferInstanceAs (Decidable (_ ∧ _))

theorem IsName.harmless {x : String} (h : IsName x) : Harmless x := by
  obtain ⟨c, cs, rfl, hc, hcs, -⟩ := h
  have hplain : Plain (c :: cs) := by
    refine plain_of_forall (p := fun d => Lexer.isNameStart d || Lexer.isNamePart d) ?_ rfl rfl rfl
    intro d hd
    rcases List.mem_cons.1 hd with rfl | hd
    · simp [hc]
    · simp [hcs d hd]
  rw [Harmless, String.toList_ofList]
  exact ⟨newlines_eq_zero.1 hplain.newlines_eq, hplain.not_unquotes⟩

namespace Tree

/-- Each record is one line, and each label one string. -/
structure WellDrawn (t : Tree) : Prop where
  records : ∀ r ∈ t.records, newlines r.line.toList = 1
  lines : newlines (String.join (t.records.map Record.line)).toList = 2 * t.reachable.length + 1
  labels : ∀ id ∈ t.reachable, ∀ n, t.get? id = some n → Quotable (Draw.label id n).toList

variable {t : Tree} {id root : NodeId} {n : Node}

theorem SourceShaped.harmless (hf : Forest t) (h : t.SourceShaped) (hid : id ∈ t.reachable) :
    Harmless (t.nameAt id) := by
  obtain ⟨s, _, ⟨n, hn, rfl, -⟩, hform⟩ := (h.isPart hf hid).ofSource
  rw [nameAt, hn, Option.bind_some]
  cases hname : n.form.name? with
  | none => exact ⟨by decide, by decide⟩
  | some x => exact (hform.name x hname).harmless

theorem Forest.newlines_line (hf : Forest t) {r : Record} (hr : r ∈ t.records)
    (hnames : ∀ id ∈ t.reachable, '\n' ∉ (t.nameAt id).toList) : newlines r.line.toList = 1 := by
  cases r with
  | opening => decide
  | closing => decide
  | edge k c => exact newlines_line_edge k c
  | node k id kind payload =>
    obtain ⟨hid, -, n, hn, -, rfl⟩ := hf.node_mem_records_iff.1 hr
    obtain ⟨front, hfront, hpayload⟩ := exists_payload_eq hn
    rw [newlines_line_node, hpayload, String.toList_append, newlines_append, hfront.newlines_eq,
      newlines_eq_zero.2 (hnames id hid)]

theorem Forest.wellDrawn_iff (hf : Forest t) (hroot : t.root = some root) :
    t.WellDrawn ↔ ∀ id ∈ t.reachable, Harmless (t.nameAt id) := by
  have hlines := hf.newlines_records
  have hnone : newlines (t.reachable.flatMap fun id => (t.nameAt id).toList) = 0 ↔
      ∀ id ∈ t.reachable, '\n' ∉ (t.nameAt id).toList := by
    rw [newlines_eq_zero, List.mem_flatMap]
    simp only [not_exists, not_and]
  rw [hf.length_records hroot] at hlines
  constructor
  · intro h id hid
    have hcount := h.lines
    obtain ⟨n, hn⟩ := hf.exists_of_mem_reachable hid
    exact ⟨hnone.1 (by omega) id hid, (quotable_label hn).1 (h.labels id hid n hn)⟩
  · intro h
    have hnames : ∀ id ∈ t.reachable, '\n' ∉ (t.nameAt id).toList := fun id hid => (h id hid).1
    refine ⟨fun r hr => hf.newlines_line hr hnames, ?_, fun id hid n hn => ?_⟩
    · rw [hlines, hnone.2 hnames, Nat.add_zero]
    · exact (quotable_label hn).2 (h id hid).2

/-- The drawing is one record behind the other, `2n + 1` of them for `n` nodes. Lines that are more
than these come from newlines in names, and the label of a node is one string exactly if no quote in
the node's name is unescaped. So the drawing is in order exactly if all names in it are harmless, as
they are where the tree comes from a source. -/
theorem drawing_lines_and_labels (ht : Built t) (hroot : t.root = some root) :
    let text := String.join (t.records.map Record.line)
    ((Draw.tree t).run {}).1 = .ok () ∧ t.drawing = text.toUTF8 ∧
    t.records.length = 2 * t.reachable.length + 1 ∧
    newlines text.toList =
      t.records.length + newlines (t.reachable.flatMap fun id => (t.nameAt id).toList) ∧
    (∀ k id kind payload, .node k id kind payload ∈ t.records → ∃ n, t.get? id = some n ∧
      (Record.node k id kind payload).line =
        "  n" ++ toString k ++ " [shape=box,label=\"" ++ Draw.label id n ++ "\"]\n" ∧
      (Quotable (Draw.label id n).toList ↔ ¬ Unquotes (t.nameAt id).toList)) ∧
    (t.WellDrawn ↔ ∀ id ∈ t.reachable, Harmless (t.nameAt id)) ∧
    ∀ source file, ofSource source file = .ok t → t.WellDrawn := by
  intro text
  have hf := ht.forest
  have hrun := hf.run_draw_tree (d := {}) rfl
  refine ⟨by rw [hrun]; rfl, ?_, hf.length_records hroot, hf.newlines_records,
    fun k id kind payload h => ?_, hf.wellDrawn_iff hroot, fun source file h => ?_⟩
  · rw [drawing, hrun]
    exact ByteArray.empty_append
  · obtain ⟨-, -, n, hn, rfl, rfl⟩ := hf.node_mem_records_iff.1 h
    refine ⟨n, hn, ?_, quotable_label hn⟩
    simp only [Record.line, Draw.label, String.append_assoc]
  · have hshape := sourceShaped_of_ofSource h
    exact (hf.wellDrawn_iff hroot).2 fun id => hshape.harmless hf

/-- A quote behind a backslash does no harm, be it in a name that no source has. -/
theorem drawing_lines_and_labels_of_escape :
    let t := [Operation.add (.reference "a\\\"b"), .add (.print (some 0)), .add (.scope [1]),
      .setRoot 2].foldl Operation.apply {}
    (Built t ∧ t.root = some 2 ∧ t.WellDrawn ∧ t.records.length = 7) ∧
      ∃ u, ofSource "a = ?;" none = .ok u ∧ Built u ∧ u.root.isSome = true ∧ u.WellDrawn := by
  intro t
  have ht : Built t := Built.empty.operateAll _ (by simp)
  have hroot : t.root = some 2 := by decide
  have hnames : ∀ id ∈ t.reachable, Harmless (t.nameAt id) := by decide
  obtain ⟨-, -, hlength, -, -, hiff, -⟩ := drawing_lines_and_labels ht hroot
  refine ⟨⟨ht, hroot, hiff.2 hnames, hlength⟩, ?_⟩
  cases hu : ofSource "a = ?;" none with
  | error e =>
    have hok : (ofSource "a = ?;" none).isOk = true := by decide +kernel
    rw [hu] at hok
    cases hok
  | ok u =>
    obtain ⟨tokens, -, htokens⟩ := ofSource_eq_ok.1 hu
    obtain ⟨_, _, _, hbuilt⟩ := ofTokens_stands htokens
    obtain ⟨root, _, _, hroot, -⟩ := sourceShaped_of_ofSource hu
    obtain ⟨-, -, -, -, -, -, hparsed⟩ := drawing_lines_and_labels hbuilt hroot
    exact ⟨u, rfl, hbuilt, Option.isSome_of_eq_some hroot, hparsed _ none hu⟩

/-- One label ends at a quote in a name, and another is broken in two. -/
theorem drawing_of_quote_and_newline :
    let t := [Operation.add (.reference "a\"b"), .add (.reference "c\nd"),
      .add (.assign (some 0) (some 1)), .setRoot 2].foldl Operation.apply {}
    Built t ∧ t.root = some 2 ∧ t.reachable.length = 3 ∧
      newlines (String.join (t.records.map Record.line)).toList = 8 ∧
      (∃ n, t.get? 0 = some n ∧ (Draw.label 0 n).toList = "var\\na\"b\\n#0".toList ∧
        ¬ Quotable (Draw.label 0 n).toList) ∧ ¬ t.WellDrawn := by
  intro t
  have ht : Built t := Built.empty.operateAll _ (by simp)
  have hlines : newlines (String.join (t.records.map Record.line)).toList = 8 := by decide +kernel
  refine ⟨ht, by decide, by decide, hlines, ⟨_, rfl, by decide, by decide⟩, fun h => ?_⟩
  have hlength : t.reachable.length = 3 := by decide
  have hwell := h.lines
  rw [hlines, hlength] at hwell
  cases hwell

end Tree

end TeachLang
