import TeachLang.Proofs.Lexemes
import TeachLang.Proofs.Preorder
import TeachLang.Proofs.Sequel

/-!
# The extents of nodes

Each node of a parsed tree has its part of the tokens: an interval of them, from the beginning of
the first to the end of the last of which its span goes. Within this interval its children have
theirs, in the order of their roles and apart from each other. The interval of an expression spells
it; the parentheses around it lie outside, though within that of a parent they count.
-/

namespace TeachLang

open TeachLang.Tree

def Kind.ofExpr : Kind → Bool
  | arithmetic | logic | unary | literal | reference => true
  | _ => false

/-! ### Spans of intervals -/

theorem through_extent {ts : List Located} (h : ts ≠ []) (s p : Span) :
    s.through (extent ts) = s.through (lastSpan p ts) := by
  cases ts with
  | nil => exact absurd rfl h
  | cons l ts => rfl

/-- What ends with some tokens ends where they do. -/
theorem extent_append {us : List Located} (h : us ≠ []) (l : Located) (ts : List Located) :
    extent (l :: ts ++ us) = l.span.through (extent us) := by
  rw [through_extent h l.span (lastSpan l.span ts), ← lastSpan_append]
  rfl

theorem extent_closed (l : Located) (ts : List Located) (m : Located) :
    extent (l :: ts ++ [m]) = l.span.through m.span :=
  extent_append (List.cons_ne_nil m []) l ts

theorem extent_append_of_ne_nil {ts us : List Located} (hts : ts ≠ []) (h : us ≠ [])
    (ms : List Located) : extent (ts ++ ms ++ us) = (extent ts).through (extent us) := by
  obtain ⟨l, ts, rfl⟩ := List.exists_cons_of_ne_nil hts
  rw [List.cons_append, extent_append h]
  rfl

/-! ### Parts of the tokens -/

mutual

inductive Fits (t : Tree) : List Located → NodeId → Prop
  | node {ts : List Located} {id : NodeId} {f : Form} (hne : ts ≠ [])
      (hb : t.Bears id (extent ts) f) (hchildren : FitsWithin t ts f.children)
      (hexpr : f.kind.ofExpr = true → ∃ n e, Expr.Spelled n ts e ∧ e.StandsAt t id) :
      Fits t ts id

/-- Among the tokens are those of each node, one after another. -/
inductive FitsWithin (t : Tree) : List Located → List NodeId → Prop
  | nil (ts : List Located) : FitsWithin t ts []
  | cons (before : List Located) {ts rest : List Located} {id : NodeId} {ids : List NodeId}
      (h : Fits t ts id) (hrest : FitsWithin t rest ids) :
      FitsWithin t (before ++ ts ++ rest) (id :: ids)

end

variable {t : Tree} {ts us : List Located} {id : NodeId} {ids : List NodeId}

namespace FitsWithin

theorem behind (h : FitsWithin t ts ids) (before : List Located) :
    FitsWithin t (before ++ ts) ids := by
  cases h with
  | nil => exact .nil _
  | cons front h hrest =>
    rw [← List.append_assoc, ← List.append_assoc]
    exact .cons (before ++ front) h hrest

theorem append (h : FitsWithin t ts ids) {ids' : List NodeId} (h' : FitsWithin t us ids') :
    FitsWithin t (ts ++ us) (ids ++ ids') := by
  induction ids generalizing ts with
  | nil => exact h'.behind ts
  | cons id ids ih =>
    cases h with
    | cons before h hrest =>
      rw [List.append_assoc]
      exact .cons before h (ih hrest)

theorem before (h : FitsWithin t ts ids) (rest : List Located) :
    FitsWithin t (ts ++ rest) ids := by
  have happend := h.append (.nil rest)
  rwa [List.append_nil] at happend

theorem exists_fits (h : FitsWithin t ts ids) (hid : id ∈ ids) :
    ∃ before mid rest, ts = before ++ mid ++ rest ∧ Fits t mid id := by
  induction ids generalizing ts with
  | nil => cases hid
  | cons k ids ih =>
    cases h with
    | @cons before mid rest _ _ h hrest =>
      rcases List.mem_cons.1 hid with rfl | hid
      · exact ⟨before, mid, rest, rfl, h⟩
      · obtain ⟨front, part, behind, rfl, hpart⟩ := ih hrest hid
        exact ⟨before ++ mid ++ front, part, behind, by simp, hpart⟩

end FitsWithin

/-- What is no expression has but its extent and its children. -/
theorem fits_of_kind {f : Form} (hkind : f.kind.ofExpr = false) (hne : ts ≠ [])
    (hb : t.Bears id (extent ts) f) (hchildren : FitsWithin t ts f.children) : Fits t ts id := by
  refine .node hne hb hchildren fun h => ?_
  rw [hkind] at h
  cases h

theorem Fits.within (h : Fits t ts id) : FitsWithin t ts [id] := by
  have hcons := FitsWithin.cons [] h (.nil [])
  rwa [List.nil_append, List.append_nil] at hcons

theorem Fits.extent_eq {s : Span} {f : Form} (h : Fits t ts id) (hb : t.Bears id s f) :
    ts ≠ [] ∧ s = extent ts := by
  cases h with
  | node hne hbears => exact ⟨hne, (hb.unique hbears).1⟩

/-! ### The parts of a program -/

theorem Expr.Spelled.fitsWithin {n : Nat} {e : Expr} (h : e.Spelled n ts) (he : e.StandsAt t id) :
    FitsWithin t ts [id] := by
  induction h generalizing id with
  | number p v =>
    have hb : t.Bears id (extent [⟨.number v, p⟩]) (.literal v) := he
    exact (Fits.node (List.cons_ne_nil _ _) hb (.nil _) fun _ => ⟨0, _, .number p v, he⟩).within
  | name p x =>
    have hb : t.Bears id (extent [⟨.ident x, p⟩]) (.reference x) := he
    exact (Fits.node (List.cons_ne_nil _ _) hb (.nil _) fun _ => ⟨0, _, .name p x, he⟩).within
  | parens p q h ih => exact ((ih he).behind [_]).before [_]
  | operand h ih => exact ih he
  | @unary ts e tok op p ht h ih =>
    have hspelled := Expr.Spelled.unary p ht h
    have hextent : extent (⟨tok, p⟩ :: ts) = p.through (extent ts) :=
      extent_append h.opens.ne_nil ⟨tok, p⟩ []
    have hstands := he
    obtain ⟨k, hk, hb⟩ := he
    rw [← hextent] at hb
    exact (Fits.node (List.cons_ne_nil _ _) hb ((ih hk).behind [_])
      fun _ => ⟨0, _, hspelled, hstands⟩).within
  | @binary n ts us a b tok op p ha ht hb iha ihb =>
    have hspelled := Expr.Spelled.binary p ha ht hb
    have hextent : extent (ts ++ ⟨tok, p⟩ :: us) = (extent ts).through (extent us) := by
      rw [← extent_append_of_ne_nil ha.opens.ne_nil hb.opens.ne_nil [⟨tok, p⟩], List.append_assoc]
      rfl
    have hstands := he
    obtain ⟨k, hk, l, hl, hbears⟩ := he
    rw [← hextent] at hbears
    have hchildren : FitsWithin t (ts ++ ⟨tok, p⟩ :: us) (op.form k l).children := by
      have happend := (iha hk).append ((ihb hl).behind [⟨tok, p⟩])
      cases op <;> exact happend
    exact (Fits.node (by simp) hbears hchildren fun _ => ⟨n + 1, _, hspelled, hstands⟩).within

theorem fits_name {p : Span} {x : String} (h : t.Bears id p (.reference x)) :
    Fits t [⟨.ident x, p⟩] id :=
  .node (List.cons_ne_nil _ _) h (.nil _) fun _ => ⟨0, .reference p x, .name p x, h⟩

theorem Simple.Spelled.fitsWithin {s : Simple} (h : s.Spelled ts) (hs : s.StandsAt t id) :
    FitsWithin t ts [id] := by
  cases h with
  | input p q r x =>
    obtain ⟨k, hk, hb⟩ := hs
    exact (fits_of_kind rfl (List.cons_ne_nil _ _) hb ((fits_name hk).within.before _)).within
  | @assign ts e p q x h =>
    obtain ⟨k, hk, l, hl, hb⟩ := hs
    have hextent : extent (⟨.ident x, p⟩ :: ⟨.assign, q⟩ :: ts) = p.through (extent ts) :=
      extent_append h.opens.ne_nil ⟨.ident x, p⟩ [⟨.assign, q⟩]
    rw [← hextent] at hb
    have hvalue := (h.fitsWithin hl).behind [⟨.assign, q⟩]
    exact (fits_of_kind rfl (List.cons_ne_nil _ _) hb ((fits_name hk).within.append hvalue)).within
  | expr h => exact h.fitsWithin hs

theorem Simple.OptionSpelled.fitsWithin {o : Option Simple} {i : Option NodeId}
    (h : OptionSpelled ts o) (hi : Option.Rel (·.StandsAt t ·) o i) :
    FitsWithin t ts i.toList := by
  cases h with
  | none =>
    cases hi
    exact .nil []
  | some h =>
    cases hi with
    | some hs => exact h.fitsWithin hs

namespace Stmt

variable {nearest d : Bool}

theorem Spelled.ne_nil {s : Stmt} (h : Spelled nearest d ts s) : ts ≠ [] := h.opens.ne_nil

theorem Spelled.span_eq {s : Stmt} (h : Spelled nearest d ts s) : s.span = extent ts := by
  cases h with
  | block p q h => exact (extent_closed ⟨.leftBrace, p⟩ _ ⟨.rightBrace, q⟩).symm
  | @ifThen cs ts _ _ _ p q r hc hs =>
    exact (extent_append hs.ne_nil ⟨.ifWord, p⟩ (⟨.leftParen, q⟩ :: cs ++ [⟨.rightParen, r⟩])).symm
  | @ifElse cs ts us _ _ _ _ _ p q r e hc hs hd hs' =>
    have hextent := extent_append hs'.ne_nil ⟨.ifWord, p⟩
      (⟨.leftParen, q⟩ :: cs ++ [⟨.rightParen, r⟩] ++ ts ++ [⟨.elseWord, e⟩])
    rw [List.cons_append, List.append_assoc] at hextent
    exact hextent.symm
  | @whileLoop cs ts _ _ _ p q r hc hs =>
    exact (extent_append hs.ne_nil ⟨.whileWord, p⟩
      (⟨.leftParen, q⟩ :: cs ++ [⟨.rightParen, r⟩])).symm
  | @forLoop is cs us ts _ _ _ _ _ p q r r' q' hi hc hu hs =>
    have hextent := extent_append hs.ne_nil ⟨.forWord, p⟩ (⟨.leftParen, q⟩ :: is ++
      ⟨.semicolon, r⟩ :: cs ++ ⟨.semicolon, r'⟩ :: us ++ [⟨.rightParen, q'⟩])
    rw [List.cons_append, List.append_assoc] at hextent
    exact hextent.symm
  | print p q h => exact (extent_closed ⟨.printWord, p⟩ _ ⟨.semicolon, q⟩).symm
  | declare p q r x => rfl
  | @declareAs ts _ p q q' r x h =>
    exact (extent_closed ⟨.varWord, p⟩ (⟨.ident x, q⟩ :: ⟨.assign, q'⟩ :: ts) ⟨.semicolon, r⟩).symm
  | @simple ts _ q h =>
    have hextent := extent_append_of_ne_nil h.opens.ne_nil (List.cons_ne_nil ⟨.semicolon, q⟩ []) []
    rw [List.append_nil] at hextent
    exact hextent.symm

theorem Spelled.bears {s : Stmt} (h : Spelled nearest d ts s) {span : Span} {f : Form}
    (hspan : span = s.span) (hb : t.Bears id span f) : t.Bears id (extent ts) f := by
  rwa [hspan, h.span_eq] at hb

theorem asBody_fst (s : Stmt) : s.asBody.1 = s.span := by cases s <;> rfl

theorem Spelled.fits_body {s : Stmt} {l : NodeId} (h : Spelled nearest d ts s)
    (hfits : ∀ id, s.StandsAt t id → Fits t ts id)
    (hl : ∃ ks, AllStandAt t s.asBody.2 ks ∧ t.Bears l s.asBody.1 (.scope ks)) : Fits t ts l := by
  obtain ⟨ks, hks, hb⟩ := hl
  have hextent := h.bears s.asBody_fst hb
  cases s with
  | block span body => exact hfits l ⟨ks, hks, hb⟩
  | _ =>
    obtain ⟨k, hk, _, rfl, rfl⟩ := hks
    exact fits_of_kind rfl h.ne_nil hextent (hfits k hk).within

theorem children_scope (ks : List NodeId) : (Form.scope ks).children = ks := by
  simp [Form.children, Form.roles]

theorem children_forLoop (i s : Option NodeId) (k l : NodeId) :
    (Form.forLoop i (some k) s (some l)).children = i.toList ++ [k] ++ s.toList ++ [l] := by
  cases i <;> cases s <;> rfl

mutual

theorem Spelled.fits {d : Bool} {ts : List Located} {s : Stmt} :
    Spelled nearest d ts s → ∀ id, s.StandsAt t id → Fits t ts id
  | .block p q h, _, ⟨ks, hks, hb⟩ => by
    have hspelled := Spelled.block p q h
    refine fits_of_kind rfl hspelled.ne_nil (hspelled.bears rfl hb) ?_
    rw [children_scope]
    exact ((h.fitsWithin ks hks).behind [_]).before [_]
  | .ifThen p q r hc hs, _, ⟨k, hk, l, hl, hb⟩ => by
    have hspelled := Spelled.ifThen p q r hc hs
    have hcondition := ((hc.fitsWithin hk).behind [⟨.ifWord, p⟩, ⟨.leftParen, q⟩]).before
      [⟨.rightParen, r⟩]
    exact fits_of_kind rfl hspelled.ne_nil (hspelled.bears rfl hb)
      (hcondition.append (hs.fits l hl).within)
  | .ifElse p q r e hc hs hd hs', _, ⟨k, hk, l, hl, m, hm, hb⟩ => by
    have hspelled := Spelled.ifElse p q r e hc hs hd hs'
    have hcondition := ((hc.fitsWithin hk).behind [⟨.ifWord, p⟩, ⟨.leftParen, q⟩]).before
      [⟨.rightParen, r⟩]
    have helse := (hs'.fits m hm).within.behind [⟨.elseWord, e⟩]
    exact fits_of_kind rfl hspelled.ne_nil (hspelled.bears rfl hb)
      ((hcondition.append (hs.fits l hl).within).append helse)
  | .whileLoop p q r hc hs, _, ⟨k, hk, l, hl, hb⟩ => by
    have hspelled := Spelled.whileLoop p q r hc hs
    have hcondition := ((hc.fitsWithin hk).behind [⟨.whileWord, p⟩, ⟨.leftParen, q⟩]).before
      [⟨.rightParen, r⟩]
    exact fits_of_kind rfl hspelled.ne_nil (hspelled.bears rfl hb)
      (hcondition.append (hs.fits_body hs.fits hl).within)
  | .forLoop p q r r' q' hi hc hu hs, _, ⟨i, hi₁, k, hk, u, hu₁, l, hl, hb⟩ => by
    have hspelled := Spelled.forLoop p q r r' q' hi hc hu hs
    have hinit := (hi.fitsWithin hi₁).behind [⟨.forWord, p⟩, ⟨.leftParen, q⟩]
    have hcondition := (hc.fitsWithin hk).behind [⟨.semicolon, r⟩]
    have hstep := (hu.fitsWithin hu₁).behind [⟨.semicolon, r'⟩]
    have hbody := (hs.fits_body hs.fits hl).within.behind [⟨.rightParen, q'⟩]
    refine fits_of_kind rfl hspelled.ne_nil (hspelled.bears rfl hb) ?_
    rw [children_forLoop]
    exact ((hinit.append hcondition).append hstep).append hbody
  | .print p q h, _, ⟨k, hk, hb⟩ => by
    have hspelled : Spelled nearest false _ _ := .print p q h
    exact fits_of_kind rfl hspelled.ne_nil (hspelled.bears rfl hb)
      (((h.fitsWithin hk).behind [_]).before [_])
  | .declare p q r x, _, ⟨i, hi, hb⟩ => by
    have hspelled : Spelled nearest false _ _ := .declare p q r x
    cases hi
    exact fits_of_kind rfl hspelled.ne_nil (hspelled.bears rfl hb) (.nil _)
  | .declareAs p q q' r x h, _, ⟨i, hi, hb⟩ => by
    have hspelled : Spelled nearest false _ _ := .declareAs p q q' r x h
    cases hi with
    | some hk =>
      have hvalue := (h.fitsWithin hk).behind [⟨.varWord, p⟩, ⟨.ident x, q⟩, ⟨.assign, q'⟩]
      exact fits_of_kind rfl hspelled.ne_nil (hspelled.bears rfl hb) (hvalue.before [_])
  | .simple q h, _, ⟨k, hk, hb⟩ => by
    have hspelled : Spelled nearest false _ _ := .simple q h
    exact fits_of_kind rfl hspelled.ne_nil (hspelled.bears rfl hb) ((h.fitsWithin hk).before [_])

theorem AllSpelled.fitsWithin {ts : List Located} {ss : List Stmt} :
    AllSpelled nearest ts ss → ∀ ids, AllStandAt t ss ids → FitsWithin t ts ids
  | .nil, ids, h => by
    cases h
    exact .nil []
  | .cons hs hss, ids, h => by
    obtain ⟨id, hid, others, hothers, rfl⟩ := h
    exact (hs.fits id hid).within.append (hss.fitsWithin others hothers)

end

end Stmt

/-! ### Intervals in order -/

def Span.Within (s s' : Span) : Prop := ¬s.first.Before s'.first ∧ ¬s'.last.Before s.last

instance (s s' : Span) : Decidable (s.Within s') :=
  inferInstanceAs (Decidable (¬s.first.Before s'.first ∧ ¬s'.last.Before s.last))

def Ordered (ts : List Located) : Prop :=
  ts.Pairwise (fun l m => l.span.last.Before m.span.first) ∧
    ∀ l ∈ ts, ¬l.span.last.Before l.span.first

/-- The extent of tokens goes from one of them to another, which is the same or a later one. -/
theorem exists_through {ms : List Located} (h : ms ≠ []) (before rest : List Located) :
    ∃ (i j : Nat) (l l' : Located), i ≤ j ∧ (before ++ ms ++ rest)[i]? = some l ∧
      (before ++ ms ++ rest)[j]? = some l' ∧ extent ms = l.span.through l'.span := by
  obtain ⟨l, ls, rfl⟩ := List.exists_cons_of_ne_nil h
  rcases List.eq_nil_or_concat' ls with rfl | ⟨us, l', rfl⟩
  · exact ⟨before.length, before.length, l, l, Nat.le_refl _, by simp, by simp, rfl⟩
  · refine ⟨before.length, before.length + (us.length + 1), l, l', Nat.le_add_right _ _, by simp,
      ?_, extent_closed l us l'⟩
    rw [List.append_assoc, List.getElem?_append_right (Nat.le_add_right _ _)]
    simp

theorem exists_mem_extent (h : ts ≠ []) :
    ∃ l ∈ ts, ∃ l' ∈ ts, (extent ts).first = l.span.first ∧ (extent ts).last = l'.span.last := by
  obtain ⟨i, j, l, l', _, hl, hl', hextent⟩ := exists_through h [] []
  rw [List.nil_append, List.append_nil] at hl hl'
  rw [hextent]
  exact ⟨l, List.mem_of_getElem? hl, l', List.mem_of_getElem? hl', rfl, rfl⟩

theorem extent_last (l : Located) (ts : List Located) :
    (extent (ts ++ [l])).last = l.span.last := by
  cases ts with
  | nil => rfl
  | cons m ts => rw [extent_closed]; rfl

namespace Ordered

theorem of_append (h : Ordered (ts ++ us)) : Ordered ts ∧ Ordered us := by
  obtain ⟨hpairwise, hspans⟩ := h
  obtain ⟨hts, hus, -⟩ := List.pairwise_append.1 hpairwise
  exact ⟨⟨hts, fun l hl => hspans l (List.mem_append_left us hl)⟩,
    ⟨hus, fun l hl => hspans l (List.mem_append_right ts hl)⟩⟩

/-- The tokens of the one part end before those of the other begin. -/
theorem apart (h : Ordered (ts ++ us)) (hts : ts ≠ []) (hus : us ≠ []) :
    (extent ts).last.Before (extent us).first := by
  obtain ⟨-, -, l, hl, -, hlast⟩ := exists_mem_extent hts
  obtain ⟨m, hm, -, -, hfirst, -⟩ := exists_mem_extent hus
  rw [hlast, hfirst]
  exact (List.pairwise_append.1 h.1).2.2 l hl m hm

theorem not_before_extent (h : Ordered ts) {l : Located} (hl : l ∈ ts) :
    ¬l.span.first.Before (extent ts).first := by
  cases ts with
  | nil => cases hl
  | cons m ts =>
    intro hbefore
    rcases List.mem_cons.1 hl with rfl | hmem
    · exact Position.Before.irrefl _ hbefore
    · have hlast := (List.pairwise_cons.1 h.1).1 l hmem
      exact h.2 m List.mem_cons_self (hlast.trans hbefore)

theorem not_extent_before (h : Ordered ts) {l : Located} (hl : l ∈ ts) :
    ¬(extent ts).last.Before l.span.last := by
  rcases List.eq_nil_or_concat' ts with rfl | ⟨us, m, rfl⟩
  · cases hl
  · intro hbefore
    rw [extent_last] at hbefore
    rcases List.mem_append.1 hl with hmem | hmem
    · have hlast := (List.pairwise_append.1 h.1).2.2 l hmem m List.mem_cons_self
      exact h.2 m (List.mem_append_right us List.mem_cons_self) (hbefore.trans hlast)
    · obtain rfl := List.mem_singleton.1 hmem
      exact Position.Before.irrefl _ hbefore

/-- The extent of a part lies within that of the whole. -/
theorem within (h : Ordered ts) (hus : us ≠ []) (hsub : us ⊆ ts) :
    (extent us).Within (extent ts) := by
  obtain ⟨l, hl, m, hm, hfirst, hlast⟩ := exists_mem_extent hus
  unfold Span.Within
  rw [hfirst, hlast]
  exact ⟨h.not_before_extent (hsub hl), h.not_extent_before (hsub hm)⟩

end Ordered

/-- Of nodes that have their parts of the tokens one after another, each ends before the next
begins. -/
theorem FitsWithin.pairwise (h : FitsWithin t ts ids) (hordered : Ordered ts) :
    ids.Pairwise fun k l =>
      ∀ s f s' g, t.Bears k s f → t.Bears l s' g → s.last.Before s'.first := by
  induction ids generalizing ts with
  | nil => exact .nil
  | cons k ids ih =>
    cases h with
    | @cons before ms rest _ _ hk hrest =>
      rw [List.append_assoc] at hordered
      have htail := hordered.of_append.2
      refine .cons ?_ (ih hrest htail.of_append.2)
      intro l hl s f s' g hbk hbl
      obtain ⟨front, part, behind, hpart, hfits⟩ := hrest.exists_fits hl
      have hsub : part ⊆ rest := by
        rw [hpart]
        exact (List.infix_append front part behind).subset
      obtain ⟨hne, rfl⟩ := hk.extent_eq hbk
      obtain ⟨hne', rfl⟩ := hfits.extent_eq hbl
      have hrestne : rest ≠ [] := fun hnil => hne' (List.subset_nil.1 (hnil ▸ hsub))
      exact (htail.apart hne hrestne).trans_not (htail.of_append.2.within hne' hsub).1

/-! ### All nodes -/

namespace Tree

theorem Above.contains (hf : Forest t) {k : NodeId} (hk : t.contains k = true)
    (h : t.Above id k) : t.contains id = true := by
  rcases Relation.ReflTransGen.cases_tail h with rfl | ⟨c, -, hc⟩
  · exact hk
  · obtain ⟨i, hi⟩ := (hf.parent_iff c id).1 hc
    exact contains_of_holds hi

/-- Where the root alone has no parent, it stands above all nodes. -/
theorem Forest.above_root (hf : Forest t) {root : NodeId}
    (halone : ∀ id, t.contains id = true → (t.parent? id = none ↔ id = root))
    (hid : t.contains id = true) : t.Above root id := by
  have htop : t.Above (t.top id) id := above_topWithin t.size id
  have hroot := (halone _ (htop.contains hf hid)).1 (hf.parent?_top id)
  rwa [← hroot]

theorem Forest.fits_below (hf : Forest t) {root : NodeId} (h : Fits t ts root)
    (hid : t.Above root id) : ∃ before mid rest, ts = before ++ mid ++ rest ∧ Fits t mid id := by
  induction hid using Relation.ReflTransGen.head_induction_on with
  | refl => exact ⟨[], ts, [], by simp, h⟩
  | @head id up hup _ ih =>
    obtain ⟨before, mid, rest, rfl, hfits⟩ := ih
    cases hfits with
    | node hne hb hchildren hexpr =>
      obtain ⟨n, hn, rfl, -⟩ := hb
      obtain ⟨front, part, behind, rfl, hpart⟩ :=
        hchildren.exists_fits ((hf.mem_children_iff hn).2 hup)
      exact ⟨before ++ front, part, behind ++ rest, by simp, hpart⟩

end Tree

/-- Every node of a parsed tree has its part of the tokens. -/
theorem Tree.ofSource_fits {source : String} {file : Option String} {tokens : List Located}
    (hscan : scan source file = .ok tokens) (hne : tokens ≠ []) (ht : ofSource source file = .ok t)
    (hid : t.contains id = true) :
    ∃ before mid rest, tokens = before ++ mid ++ rest ∧ Fits t mid id := by
  obtain ⟨_, hscan', htokens⟩ := ofSource_eq_ok.1 ht
  cases hscan.symm.trans hscan'
  obtain ⟨p, hp, ⟨root, hroot, ⟨ks, hks, hb⟩, halone⟩, hbuilt⟩ := ofTokens_stands htokens
  have hfree : EndFree tokens := by
    intro l hl
    obtain ⟨word, hword⟩ := spells_of_mem_scan hscan l hl
    exact hword.ne_endOfInput
  have hspan := hp.span_eq
  have hspelled := hp.statements
  rw [uptoEnd_of_endFree hfree] at hspan hspelled
  have hextent : p.span = extent tokens := by
    obtain ⟨l, ls, rfl⟩ := List.exists_cons_of_ne_nil hne
    exact hspan
  rw [hextent] at hb
  have hchildren : FitsWithin t tokens (Form.scope ks).children := by
    rw [Stmt.children_scope]
    exact hspelled.fitsWithin ks hks
  have hfits := fits_of_kind rfl hne hb hchildren
  exact hbuilt.forest.fits_below hfits (hbuilt.forest.above_root halone hid)

end TeachLang
