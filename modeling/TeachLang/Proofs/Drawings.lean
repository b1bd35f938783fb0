import Mathlib.Data.Set.Function
import TeachLang.Proofs.Walks
import TeachLang.Tree.Graph

/-!
# What is drawn

A drawing is a list of records between an opening and a closing one: for each node that hangs from
the root one record, and one for each of its children. Records speak of nodes by number, and the
number of a node is how many others are mentioned before it, be it by a record of their own or as
somebody's child. So the numbers are settled by the order of the mentions alone, whatever was drawn
before, and a number that was given once is never given again.
-/

namespace TeachLang

open TeachLang.Tree

/-! ### First mentions -/

section Mentions

variable {α : Type} [BEq α] [LawfulBEq α] {a : α} {l m : List α}

theorem nodup_eraseDups : (l : List α) → l.eraseDups.Nodup
  | [] => List.nodup_nil
  | a :: l => by
    rw [List.eraseDups_cons, List.nodup_cons, List.mem_eraseDups, List.mem_filter]
    exact ⟨by simp, nodup_eraseDups _⟩
termination_by l => l.length
decreasing_by exact Nat.lt_succ_of_le (List.length_filter_le _ l)

theorem eraseDups_concat_of_mem (h : a ∈ l) : (l ++ [a]).eraseDups = l.eraseDups := by
  rw [List.eraseDups_append]
  simp [List.removeAll, h]

theorem eraseDups_concat_of_not_mem (h : a ∉ l) : (l ++ [a]).eraseDups = l.eraseDups ++ [a] := by
  rw [List.eraseDups_append]
  simp [List.removeAll, List.eraseDups_cons, h]

/-- What is mentioned later does not change the number of what has been mentioned. -/
theorem idxOf_eraseDups (h : l <+: m) (ha : a ∈ l) :
    l.eraseDups.idxOf a = m.eraseDups.idxOf a := by
  obtain ⟨rest, rfl⟩ := h
  rw [List.eraseDups_append, List.idxOf_append_of_mem (List.mem_eraseDups.2 ha)]

end Mentions

/-! ### Records -/

namespace Draw

inductive Record
  | opening
  | node (number : Nat) (id : NodeId) (kind : Kind) (payload : String)
  | edge (number child : Nat)
  | closing
  deriving DecidableEq

def Record.line : Record → String
  | opening => "digraph AST \x7b\n"
  | node k id kind payload =>
    "  n" ++ toString k ++ " [shape=box,label=\"" ++ kind.name ++ "\\n" ++ payload ++ "\\n" ++
      id.text ++ "\"]\n"
  | edge k c => "  n" ++ toString k ++ " -> n" ++ toString c ++ "\n"
  | closing => "\x7d\n"

end Draw

open Draw

def Drawing.after (d : Drawing) (mentions : List NodeId) (rs : List Record) : Drawing where
  sink := { d.sink with written := d.sink.written ++ (String.join (rs.map Record.line)).toUTF8 }
  mentioned := mentions.eraseDups

namespace Draw

variable {all ids ids' : List NodeId} {rs rs' : List Record} {id : NodeId}

/-! ### What a step draws -/

theorem run_number (d : Drawing) (id : NodeId) : (number id).run d =
    (.ok (d.mentioned.idxOf id),
      if id ∈ d.mentioned then d else { d with mentioned := d.mentioned ++ [id] }) := by
  change (Except.ok (Prod.fst _), Prod.snd _) = _
  rw [List.idxOf_eq_getD_idxOf?]
  cases h : d.mentioned.idxOf? id with
  | none =>
    rw [if_neg (List.idxOf?_eq_none_iff.1 h)]
    rfl
  | some k =>
    have hid : id ∈ d.mentioned := by
      by_contra hid
      rw [List.idxOf?_eq_none_iff.2 hid] at h
      cases h
    rw [if_pos hid]
    rfl

theorem run_number_after (d : Drawing) (before : List NodeId) (rs : List Record) (id : NodeId) :
    (number id).run (d.after before rs) =
      (.ok ((before ++ [id]).eraseDups.idxOf id), d.after (before ++ [id]) rs) := by
  rw [run_number]
  unfold Drawing.after
  simp only [List.mem_eraseDups]
  by_cases h : id ∈ before
  · rw [if_pos h, eraseDups_concat_of_mem h]
  · have hnew : id ∉ before.eraseDups := mt List.mem_eraseDups.1 h
    rw [if_neg h, eraseDups_concat_of_not_mem h, List.idxOf_append_of_notMem hnew,
      List.idxOf_of_notMem hnew, List.idxOf_cons_self, Nat.add_zero]

theorem run_line {d : Drawing} (h : d.sink.capacity = none) (text : String) : (line text).run d =
    (.ok (), { d with sink :=
      { d.sink with written := d.sink.written ++ (text ++ "\n").toUTF8 } }) := by
  change (do
    modify fun d' => { d' with sink := (d.sink.write (text ++ "\n")).2 }
    liftM (d.sink.write (text ++ "\n")).1 : Draw Unit).run d = _
  rw [Sink.write_unlimited h]
  rfl

theorem run_flush (d : Drawing) : flush.run d = (d.sink.flush, d) := by
  change (liftM d.sink.flush : Draw Unit).run d = _
  cases d.sink.flush <;> rfl

/-- The step mentions these nodes and makes these records, at whatever place in a drawing that
mentions `all` in the end. -/
def Draws (all : List NodeId) (x : Draw Unit) (ids : List NodeId) (rs : List Record) : Prop :=
  ∀ (d : Drawing) (before : List NodeId) (made : List Record), d.sink.capacity = none →
    before ++ ids <+: all →
    x.run (d.after before made) = (.ok (), d.after (before ++ ids) (made ++ rs))

theorem draws_line {text : String} {r : Record} (h : text ++ "\n" = r.line) :
    Draws all (line text) [] [r] := by
  intro d before made hd _
  have hafter : (d.after before made).sink.capacity = none := hd
  rw [run_line hafter, h, Drawing.after, Drawing.after, List.append_nil, List.map_append,
    List.map_singleton, String.join_append, String.join_cons, String.join_nil, String.append_empty]
  simp only [String.toUTF8_eq_toByteArray, String.toByteArray_append, ByteArray.append_assoc]

theorem draws_pure : Draws all (pure ()) [] [] := by
  intro d before made _ _
  rw [List.append_nil, List.append_nil]
  rfl

theorem Draws.andThen {x y : Draw Unit} (hx : Draws all x ids rs) (hy : Draws all y ids' rs') :
    Draws all (x >>= fun _ => y) (ids ++ ids') (rs ++ rs') := by
  intro d before made hd hall
  rw [← List.append_assoc] at hall
  rw [Visit.run_bind, hx d before made hd ((List.prefix_append _ ids').trans hall)]
  rw [← List.append_assoc, ← List.append_assoc]
  exact hy d (before ++ ids) (made ++ rs) hd hall

/-- The number that a node gets is the one that it has in the end. -/
theorem Draws.number {f : Nat → Draw Unit} (hf : Draws all (f (all.eraseDups.idxOf id)) ids rs) :
    Draws all (number id >>= f) (id :: ids) rs := by
  intro d before made hd hall
  rw [List.append_cons] at hall ⊢
  have hnumber := idxOf_eraseDups ((List.prefix_append _ ids).trans hall)
    (List.mem_append_right before List.mem_cons_self)
  rw [Visit.run_bind, run_number_after, hnumber]
  exact hf d (before ++ [id]) made hd hall

theorem draws_edges (k : Nat) (cs : List NodeId) :
    Draws all (edges k cs) cs (cs.map fun c => .edge k (all.eraseDups.idxOf c)) := by
  induction cs with
  | nil => exact draws_pure
  | cons c cs ih =>
    refine Draws.number ((draws_line ?_).andThen ih)
    simp only [Record.line, String.append_assoc]

theorem draws_node {n : Node} :
    Draws all (node id n) (id :: n.form.children)
      (.node (all.eraseDups.idxOf id) id n.kind n.form.payload ::
        n.form.children.map fun c => .edge (all.eraseDups.idxOf id) (all.eraseDups.idxOf c)) := by
  refine Draws.number ((draws_line ?_).andThen (draws_edges _ _))
  have hclose : "\"]" ++ "\n" = "\"]\n" := rfl
  simp only [Record.line, label, String.append_assoc, hclose]

/-! ### The records of a tree -/

def Record.subject? : Record → Option Nat
  | node k _ _ _ => some k
  | edge k _ => some k
  | _ => none

end Draw

namespace Tree

variable {t : Tree} {id k : NodeId} {n : Node}

def childrenAt (t : Tree) (id : NodeId) : List NodeId := ((t.get? id).map (·.form.children)).getD []

/-- The nodes in the order in which a drawing mentions them: those of the walk from the root, each
with its children behind it. -/
def mentions (t : Tree) : List NodeId := t.reachable.flatMap fun id => id :: t.childrenAt id

def number (t : Tree) (id : NodeId) : Nat := t.mentions.eraseDups.idxOf id

def recordsAt (t : Tree) (id : NodeId) : List Record :=
  match t.get? id with
  | some n => .node (t.number id) id n.kind n.form.payload ::
      n.form.children.map fun c => .edge (t.number id) (t.number c)
  | none => []

def records (t : Tree) : List Record := .opening :: (t.reachable.flatMap t.recordsAt ++ [.closing])

theorem childrenAt_eq (hn : t.get? id = some n) : t.childrenAt id = n.form.children := by
  rw [childrenAt, hn, Option.map_some, Option.getD_some]

theorem recordsAt_eq (hn : t.get? id = some n) : t.recordsAt id =
    .node (t.number id) id n.kind n.form.payload ::
      n.form.children.map fun c => .edge (t.number id) (t.number c) := by
  simp only [recordsAt, hn]

theorem mem_records_iff {r : Record} (hr : r.subject? ≠ none) :
    r ∈ t.records ↔ ∃ id ∈ t.reachable, r ∈ t.recordsAt id := by
  have hopening : r ≠ .opening := fun h => hr (h ▸ rfl)
  have hclosing : r ≠ .closing := fun h => hr (h ▸ rfl)
  rw [records, List.mem_cons, List.mem_append, List.mem_flatMap, List.mem_singleton]
  simp only [hopening, hclosing, false_or, or_false]

theorem draws_accept (hn : t.get? id = some n) :
    Draws t.mentions (t.accept id Draw.node) (id :: t.childrenAt id) (t.recordsAt id) := by
  rw [accept_eq hn, childrenAt_eq hn, recordsAt_eq hn]
  exact draws_node

theorem draws_nodes {ids : List NodeId} (hids : ∀ k ∈ ids, ∃ n, t.get? k = some n) :
    Draws t.mentions (ids.forM fun k => t.accept k Draw.node)
      (ids.flatMap fun k => k :: t.childrenAt k) (ids.flatMap t.recordsAt) := by
  induction ids with
  | nil => exact draws_pure
  | cons k ids ih =>
    obtain ⟨n, hn⟩ := hids k List.mem_cons_self
    rw [List.flatMap_cons, List.flatMap_cons]
    exact (draws_accept hn).andThen (ih fun l hl => hids l (.tail k hl))

namespace Forest

variable (hf : Forest t)
include hf

theorem draw_tree_eq : Draw.tree t = (do
    modify fun d => { d with mentioned := [] }
    (do
      line "digraph AST \x7b"
      t.reachable.forM fun k => t.accept k Draw.node
      line "\x7d")
    flush) := by
  unfold Draw.tree
  simp only [bind_assoc]
  cases hroot : t.root with
  | none =>
    rw [reachable_of_rootless hroot]
    rfl
  | some root =>
    obtain ⟨ids, hpreorder, -⟩ := hf.exists_preorder (hf.root_parentless root hroot).1
    rw [reachable_of_preorder hroot hpreorder, ← walk_eq_forM hpreorder]

/-- Whatever was drawn before, the records of the tree are written behind it. -/
theorem run_draw_tree {d : Drawing} (hd : d.sink.capacity = none) :
    (Draw.tree t).run d = (d.sink.flush, d.after t.mentions t.records) := by
  have hstart : { d with mentioned := [] } = d.after [] [] := by
    rw [Drawing.after, List.map_nil, String.join_nil, String.toUTF8_eq_toByteArray,
      String.toByteArray_empty, ByteArray.append_empty]
    rfl
  have hdraws : Draws t.mentions (do
      line "digraph AST \x7b"
      t.reachable.forM fun k => t.accept k Draw.node
      line "\x7d") (t.mentions ++ []) t.records :=
    (draws_line (r := .opening) rfl).andThen
      ((draws_nodes fun _ => hf.exists_of_mem_reachable).andThen (draws_line rfl))
  rw [List.append_nil] at hdraws
  have hbody := hdraws d [] [] hd List.prefix_rfl
  rw [hf.draw_tree_eq, Visit.run_bind]
  change (_ >>= fun _ => flush).run { d with mentioned := [] } = _
  rw [hstart, Visit.run_bind, hbody]
  exact run_flush _

/-! ### Numbers -/

theorem mem_mentions_iff : k ∈ t.mentions ↔ k ∈ t.reachable := by
  rw [mentions, List.mem_flatMap]
  constructor
  · rintro ⟨id, hid, hk⟩
    obtain ⟨n, hn⟩ := hf.exists_of_mem_reachable hid
    rw [childrenAt_eq hn] at hk
    rcases List.mem_cons.1 hk with rfl | hk
    · exact hid
    · exact hf.mem_reachable_of_parent? hid (hf.parent?_of_mem hn hk)
  · exact fun hk => ⟨k, hk, List.mem_cons_self⟩

theorem perm_eraseDups_mentions : t.mentions.eraseDups.Perm t.reachable := by
  refine (List.perm_ext_iff_of_nodup (nodup_eraseDups _) hf.nodup_reachable).2 fun k => ?_
  rw [List.mem_eraseDups, hf.mem_mentions_iff]

theorem number_inj (hid : id ∈ t.reachable) : t.number id = t.number k ↔ id = k :=
  List.idxOf_inj (hf.perm_eraseDups_mentions.mem_iff.2 hid)

theorem bijOn_number :
    Set.BijOn t.number {id | id ∈ t.reachable} {k | k < t.reachable.length} := by
  have hperm := hf.perm_eraseDups_mentions
  refine ⟨fun id hid => ?_, fun id hid k _ h => (hf.number_inj hid).1 h, fun k hk => ?_⟩
  · change t.number id < _
    rw [← hperm.length_eq]
    exact List.idxOf_lt_length_of_mem (hperm.mem_iff.2 hid)
  · have hlt : k < t.mentions.eraseDups.length := hperm.length_eq.symm ▸ hk
    exact ⟨_, hperm.mem_iff.1 (List.getElem_mem hlt), (nodup_eraseDups _).idxOf_getElem k hlt⟩

theorem number_root {root : NodeId} (hroot : t.root = some root) : t.number root = 0 := by
  obtain ⟨rest, hrest⟩ : ∃ rest, t.reachable = root :: rest := by
    have hhead := (hf.lists_reachable hroot).head
    cases h : t.reachable with
    | nil => simp [h] at hhead
    | cons first rest => simp_all
  rw [number, mentions, hrest, List.flatMap_cons, List.cons_append, List.eraseDups_cons,
    List.idxOf_cons_self]

/-! ### Each record once -/

theorem mem_recordsAt_iff (hn : t.get? id = some n) {r : Record} : r ∈ t.recordsAt id ↔
    r = .node (t.number id) id n.kind n.form.payload ∨
      ∃ c, t.parent? c = some id ∧ r = .edge (t.number id) (t.number c) := by
  rw [recordsAt_eq hn, List.mem_cons, List.mem_map]
  refine or_congr_right (exists_congr fun c => and_congr ?_ eq_comm)
  exact hf.mem_children_iff hn

theorem subject?_of_mem (hid : id ∈ t.reachable) {r : Record} (h : r ∈ t.recordsAt id) :
    r.subject? = some (t.number id) := by
  obtain ⟨n, hn⟩ := hf.exists_of_mem_reachable hid
  rcases (hf.mem_recordsAt_iff hn).1 h with rfl | ⟨c, -, rfl⟩ <;> rfl

theorem node_mem_records_iff {number : Nat} {kind : Kind} {payload : String} :
    .node number id kind payload ∈ t.records ↔ id ∈ t.reachable ∧ number = t.number id ∧
      ∃ n, t.get? id = some n ∧ kind = n.kind ∧ payload = n.form.payload := by
  rw [mem_records_iff (by simp [Record.subject?])]
  constructor
  · rintro ⟨k, hk, h⟩
    obtain ⟨n, hn⟩ := hf.exists_of_mem_reachable hk
    rcases (hf.mem_recordsAt_iff hn).1 h with h | ⟨c, -, h⟩
    · cases h
      exact ⟨hk, rfl, n, hn, rfl, rfl⟩
    · cases h
  · rintro ⟨hid, rfl, n, hn, rfl, rfl⟩
    exact ⟨id, hid, (hf.mem_recordsAt_iff hn).2 (.inl rfl)⟩

theorem edge_mem_records_iff {number child : Nat} :
    .edge number child ∈ t.records ↔ ∃ p c, p ∈ t.reachable ∧ t.parent? c = some p ∧
      number = t.number p ∧ child = t.number c := by
  rw [mem_records_iff (by simp [Record.subject?])]
  constructor
  · rintro ⟨p, hp, h⟩
    obtain ⟨n, hn⟩ := hf.exists_of_mem_reachable hp
    rcases (hf.mem_recordsAt_iff hn).1 h with h | ⟨c, hc, h⟩
    · cases h
    · cases h
      exact ⟨p, c, hp, hc, rfl, rfl⟩
  · rintro ⟨p, c, hp, hc, rfl, rfl⟩
    obtain ⟨n, hn⟩ := hf.exists_of_mem_reachable hp
    exact ⟨p, hp, (hf.mem_recordsAt_iff hn).2 (.inr ⟨c, hc, rfl⟩)⟩

theorem nodup_recordsAt (hid : id ∈ t.reachable) : (t.recordsAt id).Nodup := by
  obtain ⟨n, hn⟩ := hf.exists_of_mem_reachable hid
  rw [recordsAt_eq hn, List.nodup_cons]
  refine ⟨by simp, (hf.nodup_children hn).map_on fun c hc d _ h => ?_⟩
  have hc := hf.mem_reachable_of_parent? hid (hf.parent?_of_mem hn hc)
  exact (hf.number_inj hc).1 (Record.edge.inj h).2

theorem nodup_records : t.records.Nodup := by
  have hbody : (t.reachable.flatMap t.recordsAt).Nodup := by
    rw [List.nodup_flatMap]
    refine ⟨fun id => hf.nodup_recordsAt, hf.nodup_reachable.imp_of_mem ?_⟩
    intro id k hid hk hne r hr hr'
    have hsubject := (hf.subject?_of_mem hid hr).symm.trans (hf.subject?_of_mem hk hr')
    exact hne ((hf.number_inj hid).1 (Option.some.inj hsubject))
  have hends : ∀ r, r.subject? = none → r ∉ t.reachable.flatMap t.recordsAt := by
    intro r hr hmem
    obtain ⟨id, hid, h⟩ := List.mem_flatMap.1 hmem
    cases hr.symm.trans (hf.subject?_of_mem hid h)
  rw [records, List.nodup_cons, List.mem_append, List.mem_singleton]
  refine ⟨not_or.2 ⟨hends _ rfl, nofun⟩, hbody.append (List.nodup_singleton _) ?_⟩
  rw [List.disjoint_singleton]
  exact hends _ rfl

/-- One record tells of a node that is reached, and of no other node by the same number. -/
theorem exists_described (hid : id ∈ t.reachable) : ∃ n, t.get? id = some n ∧
    ∀ id' kind payload, .node (t.number id) id' kind payload ∈ t.records ↔
      id' = id ∧ kind = n.kind ∧ payload = n.form.payload := by
  obtain ⟨n, hn⟩ := hf.exists_of_mem_reachable hid
  refine ⟨n, hn, fun id' kind payload => ?_⟩
  rw [hf.node_mem_records_iff]
  constructor
  · rintro ⟨-, hnumber, n', hn', hkind, hpayload⟩
    obtain rfl := (hf.number_inj hid).1 hnumber
    cases hn.symm.trans hn'
    exact ⟨rfl, hkind, hpayload⟩
  · rintro ⟨rfl, hkind, hpayload⟩
    exact ⟨hid, rfl, n, hn, hkind, hpayload⟩

end Forest

/-- A drawing to a sink without limit writes the records of the tree behind what was there: those of
the nodes below the root in the order of the walk, each with an edge for every child. No record
comes twice. Numbers go one-to-one with these nodes, the root's is 0, and whatever number is at an
end of an edge has one record of a node, which tells the position of the node. -/
theorem drawing_exact (ht : Built t) :
    (∀ d : Drawing, d.sink.capacity = none →
      (Draw.tree t).run d = (d.sink.flush, d.after t.mentions t.records)) ∧
    (t.root = none → t.reachable = []) ∧
    (∀ root, t.root = some root → t.Ordered root t.reachable ∧ t.number root = 0) ∧
    Set.BijOn t.number {id | id ∈ t.reachable} {k | k < t.reachable.length} ∧
    t.records.Nodup ∧
    (∀ k c, .edge k c ∈ t.records ↔ ∃ id child, id ∈ t.reachable ∧ t.parent? child = some id ∧
      k = t.number id ∧ c = t.number child) ∧
    (∀ k c number, .edge k c ∈ t.records → number = k ∨ number = c →
      ∃ id n, t.get? id = some n ∧ number = t.number id ∧
        ∀ id' kind payload, .node number id' kind payload ∈ t.records ↔
          id' = id ∧ kind = n.kind ∧ payload = n.form.payload) := by
  have hf := ht.forest
  refine ⟨fun d hd => hf.run_draw_tree hd, reachable_of_rootless,
    fun root hroot => ⟨hf.ordered_reachable hroot, hf.number_root hroot⟩, hf.bijOn_number,
    hf.nodup_records, fun k c => hf.edge_mem_records_iff, fun k c number h hnumber => ?_⟩
  have hreached : ∃ id ∈ t.reachable, number = t.number id := by
    obtain ⟨id, child, hid, hchild, rfl, rfl⟩ := hf.edge_mem_records_iff.1 h
    rcases hnumber with rfl | rfl
    · exact ⟨id, hid, rfl⟩
    · exact ⟨child, hf.mem_reachable_of_parent? hid hchild, rfl⟩
  obtain ⟨id, hid, rfl⟩ := hreached
  obtain ⟨n, hn, hiff⟩ := hf.exists_described hid
  exact ⟨id, n, hn, rfl, hiff⟩

/-- What was drawn before stays, and of its numbers nothing is left. The sink fails when it is
flushed, which comes after the writing. -/
theorem drawing_exact_of_print :
    let t := [Operation.add (.literal 7), .add (.reference "x"), .add (.print (some 0)),
      .add (.scope [2]), .setRoot 3].foldl Operation.apply {}
    let d : Drawing :=
      { sink := { written := "first\n".toUTF8, flushError := some "gone" }, mentioned := [2, 9] }
    Built t ∧ d.sink.capacity = none ∧ t.root = some 3 ∧
      ((Draw.tree t).run d).1 = .error (.io "gone") ∧
      ((Draw.tree t).run d).2.sink.written = "first\n".toUTF8 ++ ("digraph AST \x7b\n" ++
        "  n0 [shape=box,label=\"scope\\nscope\\n#3\"]\n" ++ "  n0 -> n1\n" ++
        "  n1 [shape=box,label=\"print\\nprint\\n#2\"]\n" ++ "  n1 -> n2\n" ++
        "  n2 [shape=box,label=\"value\\n7\\n#0\"]\n" ++ "\x7d\n").toUTF8 ∧
      t.number 3 = 0 ∧ t.records.Nodup := by
  intro t d
  have ht : Built t := Built.empty.operateAll _ (by simp)
  have hd : d.sink.capacity = none := rfl
  have hroot : t.root = some 3 := by decide
  obtain ⟨hrun, -, hfirst, -, hnodup, -⟩ := drawing_exact ht
  rw [hrun d hd]
  refine ⟨ht, hd, hroot, rfl, ?_, (hfirst 3 hroot).2, hnodup⟩
  have hrecords : t.records = [.opening, .node 0 3 .scope "scope", .edge 0 1,
      .node 1 2 .print "print", .edge 1 2, .node 2 0 .literal "7", .closing] := by decide
  change d.sink.written ++ (String.join (t.records.map Record.line)).toUTF8 = _
  rw [hrecords]
  rfl

end Tree

end TeachLang
