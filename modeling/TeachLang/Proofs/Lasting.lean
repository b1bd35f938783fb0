import TeachLang.Proofs.Built

/-!
# What lasts in a tree

A tree only grows. Whatever is done to it, and whether that succeeds or fails, a node keeps its
position, its payload, its parent and the children at their places. Its span alone can be changed,
and only by asking for that.
-/

namespace TeachLang

theorem Form.slot?_eq_some_iff {f : Form} {s : Slot} {c : NodeId} :
    f.slot? s = some (some c) ↔ s ≠ .statement ∧ (s, some c) ∈ f.roles := by
  cases f <;> cases s <;> simp [slot?, roles, eq_comm]

/-- Filling a role leaves the children in the others. -/
theorem Form.role_fill {f : Form} {s r : Slot} {c d : NodeId} {i : Nat} (h : f.slot? s = some none)
    (hi : f.roles[i]? = some (r, some d)) : (f.fill s c).roles[i]? = some (r, some d) := by
  have hne : i ≠ f.place s := by
    rintro rfl
    exact f.place_vacant s r d hi
  rw [roles_fill h, if_neg hne, hi]

structure Node.Lasts (n m : Node) : Prop where
  bare_eq : m.form.bare = n.form.bare
  parent_eq : ∀ p, n.parent = some p → m.parent = some p
  role_eq : ∀ (i : Nat) s c,
    n.form.roles[i]? = some (s, some c) → m.form.roles[i]? = some (s, some c)

namespace Node.Lasts

variable {n m k : Node}

theorem refl (n : Node) : n.Lasts n := ⟨rfl, fun _ h => h, fun _ _ _ h => h⟩

theorem trans (h : n.Lasts m) (h' : m.Lasts k) : n.Lasts k where
  bare_eq := h'.bare_eq.trans h.bare_eq
  parent_eq p hp := h'.parent_eq p (h.parent_eq p hp)
  role_eq i s c hi := h'.role_eq i s c (h.role_eq i s c hi)

theorem slot?_eq (h : n.Lasts m) {s : Slot} {c : NodeId} (hs : n.form.slot? s = some (some c)) :
    m.form.slot? s = some (some c) := by
  obtain ⟨hne, hmem⟩ := Form.slot?_eq_some_iff.1 hs
  obtain ⟨i, hi⟩ := List.getElem?_of_mem hmem
  exact Form.slot?_eq_some_iff.2 ⟨hne, List.mem_of_getElem? (h.role_eq i s c hi)⟩

theorem statements (h : n.Lasts m) {ss : List NodeId} (hn : n.form = .scope ss) :
    ∃ ss', m.form = .scope ss' ∧ ss <+: ss' := by
  obtain ⟨ss', hm⟩ : ∃ ss', m.form = .scope ss' := by
    have hbare := h.bare_eq
    rw [hn] at hbare
    generalize m.form = f at hbare ⊢
    cases f with
    | scope ss' => exact ⟨ss', rfl⟩
    | _ => cases hbare
  refine ⟨ss', hm, List.prefix_iff_getElem?.2 fun i hi => ?_⟩
  have hrole := h.role_eq i .statement ss[i]
  rw [hn, hm] at hrole
  simpa [Form.roles, hi] using hrole

end Node.Lasts

namespace Tree

variable {t u v : Tree}

def LastsIn (t u : Tree) : Prop :=
  ∀ id n, t.get? id = some n → ∃ m, u.get? id = some m ∧ n.Lasts m ∧ m.span = n.span

theorem LastsIn.refl (t : Tree) : t.LastsIn t := fun _ n hn => ⟨n, hn, .refl n, rfl⟩

theorem LastsIn.trans (h : t.LastsIn u) (h' : u.LastsIn v) : t.LastsIn v := by
  intro id n hn
  obtain ⟨m, hm, hlasts, hspan⟩ := h id n hn
  obtain ⟨k, hk, hlasts', hspan'⟩ := h' id m hm
  exact ⟨k, hk, hlasts.trans hlasts', hspan'.trans hspan⟩

theorem lastsIn_add (t : Tree) (n : Node) : t.LastsIn (t.add n) := by
  intro id m hm
  have hne : id ≠ t.size := Nat.ne_of_lt ((contains_iff_lt id).1 ((t.contains_iff id).2 ⟨m, hm⟩))
  exact ⟨m, by rw [get?_add, if_neg hne, hm], .refl m, rfl⟩

/-- A link goes from a node that had no parent to a place that was vacant. -/
theorem lastsIn_link {p c : NodeId} {s : Slot} (h : t.obstacle? p s c = none) :
    t.LastsIn (t.link p s c) := by
  obtain ⟨n, m, hn, hm, hfree, -, -, hslot⟩ := obstacle?_eq_none_iff.1 h
  intro id k hk
  have hget := get?_link (t := t) p s c id
  rw [hk, Option.map_some] at hget
  refine ⟨_, hget, ⟨?_, ?_, ?_⟩, rfl⟩
  · by_cases hp : p = id
    · simp [hp]
    · simp [hp]
  · intro q hq
    have hne : c ≠ id := by
      rintro rfl
      cases hm.symm.trans hk
      cases hfree.symm.trans hq
    rw [if_neg hne, hq]
  · intro i r d hi
    by_cases hp : p = id
    · subst hp
      cases hn.symm.trans hk
      rw [if_pos rfl]
      exact Form.role_fill hslot hi
    · rwa [if_neg hp]

theorem admits_lastsIn : Build.Admits LastsIn where
  refl := .refl
  trans := .trans
  push t _ _ := lastsIn_add t _
  link := lastsIn_link

/-- What one operation leaves of a node. -/
theorem Operation.lasts (o : Operation) {id : NodeId} {n : Node} (hn : t.get? id = some n) :
    ∃ m, (o.apply t).get? id = some m ∧ n.Lasts m ∧
      (m.span = n.span ∨ o = .setSpan id m.span) := by
  have hkept : ∀ u, t.LastsIn u → ∃ m, u.get? id = some m ∧ n.Lasts m ∧
      (m.span = n.span ∨ o = .setSpan id m.span) := by
    intro u h
    obtain ⟨m, hm, hlasts, hspan⟩ := h id n hn
    exact ⟨m, hm, hlasts, .inl hspan⟩
  cases o with
  | add form => exact hkept _ (admits_lastsIn.add form t)
  | attach p s c => exact hkept _ (admits_lastsIn.attach p s c t)
  | copy source k => exact hkept _ (admits_lastsIn.copyWithin source source.size k t)
  | setRoot k =>
    apply hkept
    rw [apply, Build.run_setRoot]
    split
    · split <;> exact .refl t
    · exact .refl t
  | setSpan k span =>
    rw [apply, Build.run_setSpan]
    split
    · by_cases hk : k = id
      · subst hk
        exact ⟨{ n with span := span }, by simp [get?_setSpan, hn], ⟨rfl, fun _ h => h,
          fun _ _ _ h => h⟩, .inr rfl⟩
      · exact ⟨n, by simp [get?_setSpan, hn, hk], .refl n, .inl rfl⟩
    · exact ⟨n, hn, .refl n, .inl rfl⟩

theorem lasts_operateAll (os : List Operation) {id : NodeId} {n : Node} (hn : t.get? id = some n) :
    ∃ m, (os.foldl Operation.apply t).get? id = some m ∧ n.Lasts m ∧
      (m.span = n.span ∨ .setSpan id m.span ∈ os) := by
  induction os generalizing t n with
  | nil => exact ⟨n, hn, .refl n, .inl rfl⟩
  | cons o os ih =>
    obtain ⟨m, hm, hlasts, hspan⟩ := o.lasts hn
    obtain ⟨k, hk, hlasts', hspan'⟩ := ih hm
    refine ⟨k, hk, hlasts.trans hlasts', ?_⟩
    rcases hspan' with hsame | hmem
    · rcases hspan with hspan | rfl
      · exact .inl (hsame.trans hspan)
      · rw [hsame]
        exact .inr List.mem_cons_self
    · exact .inr (List.mem_cons_of_mem o hmem)

/-- However a tree goes on, each of its nodes stays where it is and what it is, under its parent and
over its children. Another span is one that was asked for. -/
theorem nodes_last (t : Tree) (os : List Operation) {id : NodeId} {n : Node}
    (hn : t.get? id = some n) :
    ∃ m, (os.foldl Operation.apply t).get? id = some m ∧ m.form.bare = n.form.bare ∧
      (∀ p, n.parent = some p → m.parent = some p) ∧
      (∀ s c, n.form.slot? s = some (some c) → m.form.slot? s = some (some c)) ∧
      (∀ ss, n.form = .scope ss → ∃ ss', m.form = .scope ss' ∧ ss <+: ss') ∧
      (m.span = n.span ∨ .setSpan id m.span ∈ os) := by
  obtain ⟨m, hm, hlasts, hspan⟩ := lasts_operateAll os hn
  exact ⟨m, hm, hlasts.bare_eq, hlasts.parent_eq, fun _ _ => hlasts.slot?_eq,
    fun _ => hlasts.statements, hspan⟩

/-- The second print statement fails to get the literal, and is added all the same. -/
theorem nodes_last_of_taken :
    let t := [Operation.add (.literal 5), .add (.print (some 0)), .add (.scope [1])].foldl
      Operation.apply {}
    let os := [Operation.add (.print (some 0)), .attach 2 .statement 3, .copy t 1, .setSpan 1 {}]
    t.get? 2 = some { form := .scope [1] } ∧
      ∃ m, (os.foldl Operation.apply t).get? 2 = some m ∧ m.span = {} ∧
        ∃ ss, m.form = .scope ss ∧ [1] <+: ss := by
  intro t os
  have hn : t.get? 2 = some { form := .scope [1] } := by decide
  obtain ⟨m, hm, -, -, -, hstatements, hspan⟩ := nodes_last t os hn
  refine ⟨hn, m, hm, ?_, hstatements [1] rfl⟩
  apply hspan.resolve_right
  intro hmem
  simp [os] at hmem

end Tree

end TeachLang
