import TeachLang.Proofs.EqualTrees
import TeachLang.Proofs.FirstError

/-!
# Where the tokens lie

The parser and the evaluator hand spans on and never look at one. So token lists that differ in
their spans alone are rejected behind the same token, or give trees that differ in their spans
alone, and such trees run alike.
-/

namespace TeachLang

namespace Tree

def unplaced (t : Tree) : Tree := { t with nodes := t.nodes.map fun n => { n with span := {} } }

variable {t u : Tree}

theorem get?_unplaced (t : Tree) (k : NodeId) :
    t.unplaced.get? k = (t.get? k).map fun n => { n with span := {} } := by
  simp only [unplaced, get?, Array.getElem?_map]

@[simp] theorem size_unplaced (t : Tree) : t.unplaced.size = t.size := by simp [unplaced, size]

theorem parent?_unplaced (t : Tree) (k : NodeId) : t.unplaced.parent? k = t.parent? k := by
  rw [parent?, parent?, get?_unplaced]
  cases t.get? k <;> rfl

theorem top_unplaced (t : Tree) (k : NodeId) : t.unplaced.top k = t.top k := by
  have hwithin : ∀ bound k, t.unplaced.topWithin bound k = t.topWithin bound k := by
    intro bound
    induction bound with
    | zero => exact fun _ => rfl
    | succ bound ih =>
      intro k
      simp only [topWithin, parent?_unplaced, ih]
  rw [top, top, size_unplaced, hwithin]

theorem obstacle?_unplaced (t : Tree) (p : NodeId) (s : Slot) (c : NodeId) :
    t.unplaced.obstacle? p s c = t.obstacle? p s c := by
  simp only [obstacle?, get?_unplaced, top_unplaced]
  cases t.get? p <;> cases t.get? c <;> rfl

theorem unplaced_add (t : Tree) (n : Node) :
    (t.add n).unplaced = t.unplaced.add { n with span := {} } := by
  simp only [unplaced, add, Array.map_push]

theorem unplaced_setSpan (t : Tree) (k : NodeId) (span : Span) :
    (t.setSpan k span).unplaced = t.unplaced := by
  refine ext_get? (fun l => ?_) rfl
  rw [get?_unplaced, get?_unplaced, get?_setSpan, Option.map_map]
  cases t.get? l with
  | none => rfl
  | some n => by_cases hl : k = l <;> simp [hl]

theorem unplaced_link (t : Tree) (p : NodeId) (s : Slot) (c : NodeId) :
    (t.link p s c).unplaced = t.unplaced.link p s c := by
  refine ext_get? (fun l => ?_) rfl
  simp only [link, get?_unplaced, get?_setParent, get?_setForm, Option.map_map]
  cases t.get? l with
  | none => rfl
  | some n => by_cases hl : c = l <;> by_cases hl' : p = l <;> simp [hl, hl']

/-- At one id of trees that differ in their spans alone stand the same nodes, but for spans. -/
theorem get?_of_unplaced (h : u.unplaced = t.unplaced) (k : NodeId) :
    Option.Rel (fun n n' => n'.form = n.form ∧ n'.parent = n.parent) (t.get? k) (u.get? k) := by
  have hget := get?_unplaced u k
  rw [h, get?_unplaced] at hget
  generalize t.get? k = n at hget ⊢
  generalize u.get? k = n' at hget ⊢
  cases n with
  | none =>
    cases n' with
    | none => exact .none
    | some n' => cases hget
  | some n =>
    cases n' with
    | none => cases hget
    | some n' =>
      obtain ⟨hform, hparent, _⟩ := Node.mk.inj (Option.some.inj hget)
      exact .some ⟨hform.symm, hparent.symm⟩

theorem simulates_of_unplaced (hf : Forest t) (h : u.unplaced = t.unplaced) :
    t.Simulates u id Span.Any fun k k' => k' = k ∧ t.contains k = true where
  node := by
    rintro k k' ⟨rfl, hk⟩
    obtain ⟨n, hn⟩ := (t.contains_iff k').1 hk
    have hget := get?_of_unplaced h k'
    rw [hn] at hget
    generalize hn' : u.get? k' = n' at hget
    cases hget with
    | some hsame =>
      obtain ⟨hform, hparent⟩ := hsame
      refine ⟨n, _, hn, rfl, trivial, by rw [hparent], ?_⟩
      rw [hform, Form.matches_iff, Form.rename_id]
      refine ⟨rfl, (rolesMatch_self (fun _ => rfl) n.form.roles).imp fun c hc _ _ h => ⟨h.symm, ?_⟩⟩
      exact contains_of_parent? (hf.parent?_of_mem hn hc)

theorem root_of_unplaced (hf : Forest t) (h : u.unplaced = t.unplaced) :
    Option.Rel (fun k k' => k' = k ∧ t.contains k = true) t.root u.root := by
  have hroot : u.root = t.root := (Tree.mk.inj h).2
  rw [hroot]
  cases hr : t.root with
  | none => exact .none
  | some k => exact .some ⟨rfl, (hf.root_parentless k hr).1⟩

end Tree

namespace Build

open TeachLang.Tree

/-- On trees that differ in their spans alone the changes do the same, but for spans. -/
def Agree {α : Type} (x x' : Build α) : Prop := ∀ t u : Tree, u.unplaced = t.unplaced →
  (x'.run u).1 = (x.run t).1 ∧ (x'.run u).2.unplaced = (x.run t).2.unplaced

variable {α β : Type}

theorem Agree.bind {x x' : Build α} {f f' : α → Build β} (hx : Agree x x')
    (hf : ∀ a, Agree (f a) (f' a)) : Agree (x >>= f) (x' >>= f') := by
  intro t u h
  obtain ⟨hresult, htree⟩ := hx t u h
  rw [run_bind, run_bind]
  generalize x.run t = p at hresult htree ⊢
  generalize x'.run u = p' at hresult htree ⊢
  obtain ⟨r, t'⟩ := p
  obtain ⟨r', u'⟩ := p'
  obtain rfl : r' = r := hresult
  cases r' with
  | ok a => exact hf a t' u' htree
  | error e => exact ⟨rfl, htree⟩

theorem agree_attach (p : NodeId) (s : Slot) (c : NodeId) :
    Agree (attach p s c) (attach p s c) := by
  intro t u h
  have hobstacle : u.obstacle? p s c = t.obstacle? p s c := by
    rw [← obstacle?_unplaced, h, obstacle?_unplaced]
  rw [run_attach, run_attach, hobstacle]
  cases t.obstacle? p s c with
  | some e => exact ⟨rfl, h⟩
  | none => exact ⟨rfl, by rw [unplaced_link, unplaced_link, h]⟩

theorem agree_attachAll (p : NodeId) (rs : List (Slot × Option NodeId)) :
    Agree (attachAll p rs) (attachAll p rs) := by
  induction rs with
  | nil => exact fun _ _ h => ⟨rfl, h⟩
  | cons r rs ih =>
    obtain ⟨s, _ | c⟩ := r
    · exact ih
    · exact (agree_attach p s c).bind fun _ => ih

theorem agree_add (f : Form) : Agree (add f) (add f) := by
  intro t u h
  have hsize : u.size = t.size := by rw [← size_unplaced, h, size_unplaced]
  have hadd : (u.add { form := f.bare }).unplaced = (t.add { form := f.bare }).unplaced := by
    rw [unplaced_add, unplaced_add, h]
  have hattached := agree_attachAll t.size f.roles _ _ hadd
  rw [run_add, run_add, hsize]
  generalize (attachAll t.size f.roles).run (t.add { form := f.bare }) = p at hattached ⊢
  generalize (attachAll t.size f.roles).run (u.add { form := f.bare }) = p' at hattached ⊢
  obtain ⟨r, t'⟩ := p
  obtain ⟨r', u'⟩ := p'
  obtain ⟨rfl, htree⟩ : r' = r ∧ _ := hattached
  cases r' <;> exact ⟨rfl, htree⟩

/-- What was found out about a node stays true when the spans change. -/
theorem congruence_agree : Congruence Span.Any Agree where
  pure _ _ _ h := ⟨rfl, h⟩
  bind := Agree.bind
  add := agree_add
  setSpan := by
    intro s s' _ id t u h
    have hget := get?_of_unplaced h id
    rw [run_setSpan, run_setSpan, find, find]
    generalize t.get? id = n at hget ⊢
    generalize u.get? id = n' at hget ⊢
    cases hget with
    | none => exact ⟨rfl, h⟩
    | some _ => exact ⟨rfl, by rw [unplaced_setSpan, unplaced_setSpan, h]⟩
  setRoot := by
    intro id t u h
    have hget := get?_of_unplaced h id
    rw [run_setRoot, run_setRoot, find, find]
    generalize t.get? id = n at hget ⊢
    generalize u.get? id = n' at hget ⊢
    cases hget with
    | none => exact ⟨rfl, h⟩
    | some hsame =>
      obtain ⟨hform, hparent⟩ := hsame
      simp only [Node.kind, hform, hparent]
      split
      · exact ⟨rfl, h⟩
      · exact ⟨rfl, congrArg (fun t => { t with root := some id }) h⟩

end Build

/-! ### Lists that are rejected -/

def Cursor.behind (ts : List Located) (k : Nat) : Cursor := ⟨ts.drop k, lastSpan {} (ts.take k)⟩

variable {ts us : List Located}

theorem Stmt.Spellings.of_tokens (h : Spellings ts)
    (hts : us.map Located.token = ts.map Located.token) : Spellings us := by
  obtain ⟨ss, hss⟩ := h
  obtain ⟨ss', hss'⟩ := hss.toNearest
  have hstart : Span.Any {} {} := trivial
  obtain ⟨ss'', hss'', _⟩ := hss'.alike (R := Span.Any) (fun _ _ _ _ _ _ => trivial) hstart
    (forall₂_alike hts)
  exact ⟨ss'', hss''.ofNearest⟩

theorem Viable.of_tokens (h : Viable ts) (hts : us.map Located.token = ts.map Located.token) :
    Viable us := by
  obtain ⟨vs, hvs⟩ := h
  exact ⟨vs, hvs.of_tokens (by rw [List.map_append, List.map_append, hts])⟩

theorem Viable.take (h : Viable ts) (k : Nat) : Viable (ts.take k) := by
  obtain ⟨vs, hvs⟩ := h
  exact ⟨ts.drop k ++ vs, by rwa [← List.append_assoc, List.take_append_drop]⟩

namespace FirstError

variable {e e' : SyntaxError} {k k' : Nat} {want want' : Expected}

theorem le_length (h : FirstError ts e k want) : k ≤ ts.length := by
  rcases h.found with ⟨l, hl, _⟩ | ⟨rfl, _⟩
  · exact Nat.le_of_lt (List.getElem?_eq_some_iff.1 hl).1
  · exact Nat.le_refl _

theorem eq_missing (h : FirstError ts e k want) : e = (Cursor.behind ts k).missing want := by
  rcases h.found with ⟨l, hl, rfl, _⟩ | ⟨rfl, _, l, hl, rfl⟩
  · have hdrop : ts.drop k = l :: ts.drop (k + 1) := List.drop_eq_getElem?_toList_append ▸ by
      simp [hl]
    rw [Cursor.behind, hdrop]
    rfl
  · have hne : ts ≠ [] := by
      rintro rfl
      cases hl
    obtain ⟨l', hl', hspan⟩ := getLast?_eq_lastSpan hne {}
    obtain rfl : l = l' := Option.some.inj (hl.symm.trans hl')
    rw [Cursor.behind, List.drop_length, List.take_length, hspan]
    rfl

/-- The first error of one list does not lie behind that of another one with the same tokens. -/
theorem le_of_tokens (h : FirstError ts e k want) (h' : FirstError us e' k' want')
    (hts : us.map Located.token = ts.map Located.token) : k' ≤ k := by
  have hlen : us.length = ts.length := by simpa using congrArg List.length hts
  rcases h.found with ⟨l, hl, _, hnot⟩ | ⟨rfl, _⟩
  · by_contra hlt
    have hviable := h'.viable.take (k + 1)
    rw [List.take_take, Nat.min_eq_left (by omega)] at hviable
    refine hnot (hviable.of_tokens ?_)
    rw [List.map_take, List.map_take, hts]
  · exact hlen ▸ h'.le_length

end FirstError

/-- A list is rejected behind as many tokens, and for the same cause, however its tokens lie. -/
theorem parse_error_behind {e : SyntaxError} (h : parse ts = .error e) :
    ∃ k want, k ≤ ts.length ∧ ∀ us : List Located, us.map Located.token = ts.map Located.token →
      parse us = .error ((Cursor.behind us k).missing want) := by
  obtain ⟨k, want, hfirst⟩ := parse_error_first h
  refine ⟨k, want, hfirst.le_length, fun us hts => ?_⟩
  obtain ⟨p, q, hp, _⟩ | ⟨cause, s, s', hts', hus⟩ := parse_alike hts
  · cases hp.symm.trans h
  · obtain ⟨k', want', hfirst'⟩ := parse_error_first hus
    obtain rfl : k' = k :=
      Nat.le_antisymm (hfirst.le_of_tokens hfirst' hts) (hfirst'.le_of_tokens hfirst hts.symm)
    have hmissing := hfirst'.eq_missing
    have hmissing' := hfirst.eq_missing
    cases hts'.symm.trans h
    have htext : want'.text = want.text := by
      have hcause := congrArg SyntaxError.cause hmissing
      rw [congrArg SyntaxError.cause hmissing'] at hcause
      exact (SyntaxCause.unexpected.inj hcause).1.symm
    rw [hus, hmissing, Cursor.missing, Cursor.missing, htext]

namespace Tree

/-- Lists with the same tokens, wherever these lie, both become trees, which have the same nodes at
the same ids, are equal when compared and end every run in the same way, but for places. Or else all
lists with these tokens are rejected behind the same number of them, for the same cause. -/
theorem ofTokens_placed (h : us.map Located.token = ts.map Located.token) :
    (∃ t u, ofTokens ts = .ok t ∧ ofTokens us = .ok u ∧ u.unplaced = t.unplaced ∧
      t.same u = true ∧
      ∀ m r m', t.EndsUpTo Error.unplaced m r m' ↔ u.EndsUpTo Error.unplaced m r m') ∨
    ∃ k want, k ≤ ts.length ∧ ∀ vs : List Located, vs.map Located.token = ts.map Located.token →
      ofTokens vs = .error (.malformed ((Cursor.behind vs k).missing want)) := by
  obtain ⟨p, q, hp, hq, halike⟩ | ⟨cause, s, _, hts, _⟩ := parse_alike h
  · obtain ⟨t, ht, _⟩ := p.run_layout
    obtain ⟨u, hu, _⟩ := q.run_layout
    have htree := ofTokens_of_parse hp ht
    obtain ⟨_, _, _, hbuilt⟩ := ofTokens_stands htree
    have hunplaced : u.unplaced = t.unplaced := by
      have hlayout := (Build.congruence_agree.program halike {} {} rfl).2
      rwa [ht, hu] at hlayout
    have hsimulates := simulates_of_unplaced hbuilt.forest hunplaced
    have hroot := root_of_unplaced hbuilt.forest hunplaced
    refine .inl ⟨t, u, htree, ofTokens_of_parse hq hu, hunplaced, ?_, fun m r m' => ?_⟩
    · exact same_of_simulates hbuilt.forest hsimulates hroot
    · exact endsUpTo_of_simulates hsimulates hroot fun _ _ => rfl
  · obtain ⟨k, want, hk, hall⟩ := parse_error_behind hts
    refine .inr ⟨k, want, hk, fun vs hvs => ?_⟩
    unfold ofTokens
    rw [hall vs hvs]
    rfl

/-- The statement `print x;` on one line, and with its parts nowhere or far away. -/
theorem ofTokens_placed_of_print :
    let ts : List Located := [⟨.printWord, ⟨none, 1, 1, 1, 5⟩⟩, ⟨.ident "x", ⟨none, 1, 7, 1, 7⟩⟩,
      ⟨.semicolon, ⟨none, 1, 8, 1, 8⟩⟩]
    let us : List Located := [⟨.printWord, {}⟩, ⟨.ident "x", {}⟩,
      ⟨.semicolon, ⟨some "far", 9, 2, 9, 2⟩⟩]
    us.map Located.token = ts.map Located.token ∧
      ∃ t u, ofTokens ts = .ok t ∧ ofTokens us = .ok u ∧ u.unplaced = t.unplaced ∧
        t.Ends {} (.error (.runtime ⟨.undefinedVariable "x", some ⟨none, 1, 7, 1, 7⟩⟩)) {} ∧
        u.EndsUpTo Error.unplaced {} (.error (.runtime ⟨.undefinedVariable "x", none⟩)) {} := by
  intro ts us
  let t : Tree := ⟨#[⟨.reference "x", some 1, ⟨none, 1, 7, 1, 7⟩⟩,
    ⟨.print (some 0), some 2, ⟨none, 1, 1, 1, 8⟩⟩, ⟨.scope [1], none, ⟨none, 1, 1, 1, 8⟩⟩], some 2⟩
  have h : us.map Located.token = ts.map Located.token := by decide
  have ht : ofTokens ts = .ok t := by decide
  have hends : t.Ends {} (.error (.runtime ⟨.undefinedVariable "x", some ⟨none, 1, 7, 1, 7⟩⟩)) {} :=
    ⟨4, rfl⟩
  obtain ⟨_, u, ht', hu, hunplaced, _, hrun⟩ | ⟨k, want, _, hall⟩ := ofTokens_placed h
  · cases ht.symm.trans ht'
    exact ⟨h, t, u, ht, hu, hunplaced, hends, (hrun _ _ _).1 ⟨_, hends, rfl⟩⟩
  · cases ht.symm.trans (hall ts rfl)

end Tree

end TeachLang
