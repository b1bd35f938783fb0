import TeachLang.Proofs.Copies
import TeachLang.Proofs.Preorder

/-!
# How copies are numbered

A copy is made of new nodes, one for each node that a walk meets, and numbered in that order.
-/

namespace TeachLang

open TeachLang.Tree

/-- The number of `k` is `k'` if the list is counted on from `first`. -/
def Numbers (ids : List NodeId) (first : Nat) (k k' : NodeId) : Prop := (k, k') ∈ ids.zipIdx first

theorem numbers_append {ids ids' : List NodeId} {first : Nat} {k k' : NodeId} :
    Numbers (ids ++ ids') first k k' ↔
      Numbers ids first k k' ∨ Numbers ids' (first + ids.length) k k' := by
  rw [Numbers, List.zipIdx_append, List.mem_append]
  rfl

theorem numbers_cons {ids : List NodeId} {id : NodeId} {first : Nat} {k k' : NodeId} :
    Numbers (id :: ids) first k k' ↔ k = id ∧ k' = first ∨ Numbers ids (first + 1) k k' := by
  rw [Numbers, List.zipIdx_cons, List.mem_cons, Prod.mk.injEq]
  rfl

theorem numbers_iff {ids : List NodeId} {first : Nat} {k k' : NodeId} :
    Numbers ids first k k' ↔ ∃ i, ids[i]? = some k ∧ k' = first + i := by
  rw [Numbers, List.mk_mem_zipIdx_iff_le_and_getElem?_sub]
  constructor
  · rintro ⟨hle, hget⟩
    exact ⟨k' - first, hget, (Nat.add_sub_cancel' hle).symm⟩
  · rintro ⟨i, hget, rfl⟩
    exact ⟨Nat.le_add_right first i, by rwa [Nat.add_sub_cancel_left]⟩

def numberOf (ids : List NodeId) (first : Nat) (k : NodeId) : NodeId := first + ids.idxOf k

theorem numberOf_getElem? {ids : List NodeId} (h : ids.Nodup) (first : Nat) {i : Nat} {k : NodeId}
    (hi : ids[i]? = some k) : numberOf ids first k = first + i := by
  obtain ⟨hlt, rfl⟩ := List.getElem?_eq_some_iff.1 hi
  rw [numberOf, h.idxOf_getElem i hlt]

theorem eq_numberOf {ids : List NodeId} (h : ids.Nodup) {first : Nat} {k k' : NodeId}
    (hk : Numbers ids first k k') : k' = numberOf ids first k := by
  obtain ⟨i, hi, rfl⟩ := numbers_iff.1 hk
  rw [numberOf_getElem? h first hi]

namespace Form

def renumber (g : NodeId → NodeId) : Form → Form
  | arithmetic op l r => arithmetic op (l.map g) (r.map g)
  | logic op l r => logic op (l.map g) (r.map g)
  | unary op e => unary op (e.map g)
  | scope ss => scope (ss.map g)
  | literal v => literal v
  | print e => print (e.map g)
  | assign t v => assign (t.map g) (v.map g)
  | reference x => reference x
  | declaration x e => declaration x (e.map g)
  | expression e => expression (e.map g)
  | ifElse c t e => ifElse (c.map g) (t.map g) (e.map g)
  | whileLoop c b => whileLoop (c.map g) (b.map g)
  | forLoop i c s b => forLoop (i.map g) (c.map g) (s.map g) (b.map g)
  | input t => input (t.map g)

variable {f f' : Form} {g : NodeId → NodeId}

theorem bare_renumber (g : NodeId → NodeId) (f : Form) : (f.renumber g).bare = f.bare := by
  cases f <;> rfl

theorem roles_renumber (g : NodeId → NodeId) (f : Form) :
    (f.renumber g).roles = f.roles.map fun r => (r.1, r.2.map g) := by
  cases f <;> simp [renumber, roles]

theorem Matches.eq_renumber (h : f.Matches id (fun k k' => k' = g k) f') : f' = f.renumber g := by
  obtain ⟨hbare, hroles⟩ := matches_iff.1 h
  rw [rename_id] at hbare
  refine eq_of_roles (hbare.trans (bare_renumber g f).symm) ?_
  rw [roles_renumber]
  generalize f.roles = rs at hroles ⊢
  generalize f'.roles = rs' at hroles ⊢
  induction hroles with
  | nil => rfl
  | @cons r r' rs rs' hr _ ih =>
    obtain ⟨s, o⟩ := r
    obtain ⟨s', o'⟩ := r'
    obtain ⟨hs, ho⟩ := hr
    obtain rfl : s' = s := hs
    rw [ih, List.map_cons]
    cases ho with
    | none => rfl
    | some hk =>
      subst hk
      rfl

end Form

namespace Tree

variable {s t u v : Tree} {S S' : NodeId → NodeId → Prop} {k k' : NodeId}

def Transcribes (s u : Tree) (S : NodeId → NodeId → Prop) (k k' : NodeId) : Prop :=
  ∃ n m, s.get? k = some n ∧ u.get? k' = some m ∧ m.span = n.span ∧ n.form.Matches id S m.form

theorem Transcribes.imp (h : s.Transcribes u S k k') (hS : ∀ k k', S k k' → S' k k') :
    s.Transcribes u S' k k' := by
  obtain ⟨n, m, hn, hm, hspan, hform⟩ := h
  exact ⟨n, m, hn, hm, hspan, hform.imp fun _ _ _ _ => hS _ _⟩

/-- `u` is `t` with copies of the nodes of the list behind the others. -/
structure Appends (s t u : Tree) (ids : List NodeId) : Prop where
  size_eq : u.size = t.size + ids.length
  copy : ∀ k k', Numbers ids t.size k k' → s.Transcribes u (Numbers ids t.size) k k'

end Tree

namespace Build

variable {s t u : Tree} {bound : Nat}

/-- What is copied for `p` leaves the copies of other nodes as they are. -/
theorem transcribes_stays {S : NodeId → NodeId → Prop} {p k k' c : NodeId} {slot : Slot}
    {rs : List (Slot × Option NodeId)} {v : Tree} (hp : p < u.size)
    (hrun : (copyRoles (copyWithin s bound) p rs).run (u.link p slot c) = (.ok (), v))
    (hne : k' ≠ p) (h : s.Transcribes u S k k') : s.Transcribes v S k k' := by
  obtain ⟨n, m, hn, hm, hspan, hform⟩ := h
  obtain ⟨m', hm', hsame, hspan'⟩ := copyRoles_stays hp hrun hne hm
  exact ⟨n, m', hn, hm', hspan'.trans hspan, hsame ▸ hform⟩

theorem copyRoles_appends {list : NodeId → List NodeId} {p : NodeId}
    {rs : List (Slot × Option NodeId)}
    (hlist : ∀ c ∈ rs.filterMap Prod.snd, (list c)[0]? = some c ∧
      ∀ t k u, (copyWithin s bound c).run t = (.ok k, u) → s.Appends t u (list c))
    {n : Node} (hp : t.get? p = some n)
    (h : (copyRoles (copyWithin s bound) p rs).run t = (.ok (), u)) :
    s.Appends t u ((rs.filterMap Prod.snd).flatMap list) ∧
      ∃ m rs', u.get? p = some m ∧ m.span = n.span ∧ m.form = n.form.fillAll rs' ∧
        RolesMatch (Numbers ((rs.filterMap Prod.snd).flatMap list) t.size) rs rs' := by
  induction rs generalizing t n with
  | nil =>
    cases h
    exact ⟨⟨rfl, nofun⟩, n, [], hp, rfl, rfl, .nil⟩
  | cons r rs ih =>
    obtain ⟨slot, _ | c⟩ := r
    · obtain ⟨happends, m, rs', hm, hspan, hform, hmatch⟩ := ih hlist hp h
      exact ⟨happends, m, (slot, none) :: rs', hm, hspan, hform, .cons ⟨rfl, .none⟩ hmatch⟩
    · simp only [copyRoles, run_bind_eq_ok] at h
      obtain ⟨k, t₁, hcopy, _, t₂, hattach, hrest⟩ := h
      obtain ⟨hhead, hfirst⟩ := hlist c List.mem_cons_self
      have hfirst := hfirst t k t₁ hcopy
      obtain ⟨rfl, hlt, _, hold⟩ := copyWithin_frame s bound c hcopy
      obtain ⟨_, rfl⟩ := run_attach_eq_ok.1 hattach
      have hpt : p < t.size := (contains_iff_lt p).1 ((t.contains_iff p).2 ⟨n, hp⟩)
      have hp₂ : (t₁.link p slot t.size).get? p =
          some { n with form := n.form.fill slot t.size } := by
        rw [get?_link, hold p hpt, hp]
        simp [Nat.ne_of_gt hpt]
      -- The copies of the other children come behind those of this one.
      obtain ⟨happends, m, rs', hm, hspan, hform, hmatch⟩ :=
        ih (fun d hd => hlist d (List.mem_cons_of_mem c hd)) hp₂ hrest
      have hsize : (t₁.link p slot t.size).size = t.size + (list c).length := by
        rw [size_link, hfirst.size_eq]
      rw [hsize] at hmatch
      have hstays : ∀ k k', Numbers (list c) t.size k k' →
          s.Transcribes u (Numbers (list c) t.size) k k' := by
        intro k k' hk
        obtain ⟨i, -, rfl⟩ := numbers_iff.1 hk
        have hne : t.size + i ≠ p := Nat.ne_of_gt (Nat.lt_add_right i hpt)
        exact transcribes_stays (Nat.lt_trans hpt hlt) hrest hne (hfirst.copy k _ hk)
      have hkids : (((slot, some c) :: rs).filterMap Prod.snd).flatMap list =
          list c ++ (rs.filterMap Prod.snd).flatMap list := rfl
      rw [hkids]
      refine ⟨⟨?_, fun k k' hk => ?_⟩, m, (slot, some t.size) :: rs', hm, hspan, hform, ?_⟩
      · rw [happends.size_eq, hsize, List.length_append, Nat.add_assoc]
      · rcases numbers_append.1 hk with hk | hk
        · exact (hstays k k' hk).imp fun _ _ h => numbers_append.2 (.inl h)
        · rw [← hsize] at hk
          refine (happends.copy k k' hk).imp fun _ _ h => numbers_append.2 (.inr ?_)
          rwa [hsize] at h
      · have hfirstChild : Numbers (list c) t.size c t.size := numbers_iff.2 ⟨0, hhead, rfl⟩
        refine .cons ⟨rfl, .some (numbers_append.2 (.inl hfirstChild))⟩ ?_
        exact hmatch.imp fun _ _ _ _ h => numbers_append.2 (.inr h)

/-- A copy has the nodes of a walk in the order of the walk. -/
theorem exists_copyWithin_appends (hs : Forest s) {id : NodeId} (hid : s.contains id = true) :
    ∃ ids, s.preorder id = .ok ids ∧ ids[0]? = some id ∧
      ∀ t k u, (copy s id).run t = (.ok k, u) → s.Appends t u ids := by
  refine hs.descend (motive := fun bound id => ∃ ids, s.preorderWithin bound id = .ok ids ∧
    ids[0]? = some id ∧ ∀ t k u, (copyWithin s bound id).run t = (.ok k, u) → s.Appends t u ids)
    (fun bound id n hn hchildren => ?_) hid
  choose! list hpreorder hlist using hchildren
  refine ⟨_, preorderWithin_succ hn hpreorder, rfl, fun t k u h => ?_⟩
  simp only [copyWithin, run_bind_eq_ok, run_liftM_eq_ok, run_push_eq_ok, run_pure_eq_ok] at h
  obtain ⟨n', _, ⟨hn', rfl⟩, _, _, ⟨rfl, rfl⟩, _, _, hroles, rfl, rfl⟩ := h
  cases hn.symm.trans ((s.find_eq_ok).1 hn')
  have hnew : (t.add { form := n.form.bare, span := n.span }).get? t.size =
      some { form := n.form.bare, span := n.span } := by
    rw [get?_add, if_pos rfl]
  obtain ⟨happends, m, rs', hm, hspan, hform, hmatch⟩ := copyRoles_appends hlist hnew hroles
  rw [size_add] at hmatch
  have hbehind : ∀ k k', Numbers (n.form.children.flatMap list) (t.size + 1) k k' →
      Numbers (id :: n.form.children.flatMap list) t.size k k' :=
    fun k k' h => numbers_cons.2 (.inr h)
  refine ⟨?_, fun k k' hk => ?_⟩
  · rw [happends.size_eq, size_add, List.length_cons]
    exact Nat.add_right_comm _ _ _
  · rcases numbers_cons.1 hk with ⟨rfl, rfl⟩ | hk
    · refine ⟨n, m, hn, hm, hspan, Form.matches_iff.2 ⟨?_, ?_⟩⟩
      · rw [hform, Form.bare_fillAll, Form.bare_bare, Form.rename_id]
      · rw [hform, Form.roles_fillAll hmatch]
        exact hmatch.imp fun _ _ _ _ => hbehind _ _
    · have hcopy := happends.copy k k'
      rw [size_add] at hcopy
      exact (hcopy hk).imp hbehind

end Build

namespace Tree

variable {s t u : Tree} {id : NodeId} {ids : List NodeId}

structure Imports (s t u : Tree) (ids : List NodeId) : Prop where
  size_eq : u.size = t.size + ids.length
  root_eq : u.root = t.root
  old : ∀ k, k < t.size → u.get? k = t.get? k
  copy : ∀ (i : Nat) k, ids[i]? = some k → ∃ n, s.get? k = some n ∧ u.get? (t.size + i) = some
    { form := n.form.renumber (numberOf ids t.size)
      parent := if i = 0 then none else n.parent.map (numberOf ids t.size)
      span := n.span }

/-- Where the children are copied, the links to their parents are copied too. -/
theorem Forest.parent?_copy (hs : Forest s) (hu : Forest u) {g : NodeId → NodeId} {p k : NodeId}
    {m n : Node} (hn : s.get? p = some n) (hm : u.get? (g p) = some m)
    (hform : m.form = n.form.renumber g) (hk : s.parent? k = some p) :
    u.parent? (g k) = some (g p) := by
  obtain ⟨i, n', slot, hn', hi⟩ := (hs.parent_iff k p).1 hk
  cases hn.symm.trans hn'
  refine (hu.parent_iff (g k) (g p)).2 ⟨i, m, slot, hm, ?_⟩
  rw [hform, Form.roles_renumber, List.getElem?_map, hi]
  rfl

/-- Below the first node of the list every parent is in the list. -/
theorem Lists.exists_parent (h : s.Lists id ids) {i : Nat} {k : NodeId} (hi : ids[i]? = some k)
    (hne : i ≠ 0) : ∃ p, s.parent? k = some p ∧ p ∈ ids := by
  have habove := (h.mem_iff k).1 (List.mem_of_getElem? hi)
  rcases Relation.ReflTransGen.cases_head habove with rfl | ⟨p, hp, hup⟩
  · have hsame := numberOf_getElem? h.nodup 0 hi
    rw [numberOf_getElem? h.nodup 0 h.head, Nat.add_left_cancel_iff] at hsame
    exact absurd hsame.symm hne
  · exact ⟨p, hp, (h.mem_iff p).2 hup⟩

theorem Appends.get?_copy (h : s.Appends t u ids) (hnodup : ids.Nodup) {k : NodeId}
    (hk : k ∈ ids) : ∃ n m, s.get? k = some n ∧ u.get? (numberOf ids t.size k) = some m ∧
      m.span = n.span ∧ m.form = n.form.renumber (numberOf ids t.size) := by
  obtain ⟨i, hi⟩ := List.getElem?_of_mem hk
  rw [numberOf_getElem? hnodup t.size hi]
  obtain ⟨n, m, hn, hm, hspan, hmatch⟩ := h.copy k _ (numbers_iff.2 ⟨i, hi, rfl⟩)
  refine ⟨n, m, hn, hm, hspan, Form.Matches.eq_renumber ?_⟩
  exact hmatch.imp fun _ _ _ _ h => eq_numberOf hnodup h

theorem imports_of_appends (hs : Forest s) (hu : Forest u) (hlists : s.Lists id ids)
    (h : s.Appends t u ids) (hcopied : Build.Copied t u t.size) (hroot : u.root = t.root) :
    s.Imports t u ids where
  size_eq := h.size_eq
  root_eq := hroot
  old := hcopied.old
  copy := by
    intro i k hi
    obtain ⟨n, m, hn, hm, hspan, hform⟩ := h.get?_copy hlists.nodup (List.mem_of_getElem? hi)
    have hnumber := numberOf_getElem? hlists.nodup t.size hi
    have hparent : m.parent = if i = 0 then none else n.parent.map (numberOf ids t.size) := by
      have hself : u.parent? (t.size + i) = m.parent := by
        rw [parent?, ← hnumber, hm, Option.bind_some]
      rw [← hself]
      by_cases hzero : i = 0
      · rw [if_pos hzero, hzero]
        exact hcopied.parentless
      · obtain ⟨p, hp, hmem⟩ := hlists.exists_parent hi hzero
        obtain ⟨n', m', hn', hm', -, hform'⟩ := h.get?_copy hlists.nodup hmem
        have hnode : n.parent = some p := by rwa [parent?, hn, Option.bind_some] at hp
        rw [if_neg hzero, hnode, ← hnumber]
        exact hs.parent?_copy hu hn' hm' hform' hp
    refine ⟨n, hn, ?_⟩
    rw [← hnumber, hm, ← hform, ← hparent, ← hspan]

/-- Every node of a forest can be copied to any forest. -/
theorem exists_imports (ht : Forest t) (hs : Forest s) (hid : s.contains id = true) :
    ∃ ids u, s.preorder id = .ok ids ∧ s.Lists id ids ∧
      (Build.copy s id).run t = (.ok t.size, u) ∧ s.Imports t u ids := by
  obtain ⟨ids, hpreorder, hlists⟩ := hs.exists_preorder hid
  obtain ⟨ids', hpreorder', -, happends⟩ := Build.exists_copyWithin_appends hs hid
  cases hpreorder.symm.trans hpreorder'
  obtain ⟨u, hrun, hroot, -⟩ := Build.copies_of_forest hs hid t ht
  have hsteps := Build.proceeds_copy s id t
  have hu : Forest u := by
    rw [Build.copy, hrun] at hsteps
    exact ht.steps hsteps
  have hcopied := Build.copyWithin_frame s s.size id hrun
  exact ⟨ids, u, hpreorder, hlists, hrun,
    imports_of_appends hs hu hlists (happends t _ u hrun) hcopied hroot⟩

end Tree

end TeachLang
