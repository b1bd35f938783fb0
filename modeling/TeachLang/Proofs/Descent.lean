import TeachLang.Proofs.Unfolding
import TeachLang.Proofs.Walks

/-!
# The ways up and down

The position of a node tells nothing about what hangs from it: a child may have been added before
its parent or after it. What makes a recursion along links end is that the tree is a forest. So the
way up from a node has fewer links than there are nodes, and a recursion to the children goes down
no more levels than there are nodes below the one where it starts.
-/

namespace TeachLang.Tree

variable {t u : Tree} {id k : NodeId} {n : Node} {ids : List NodeId} {bound : Nat}

/-! ### Upwards -/

/-- The way up from a node to the one above it that has no parent, with its number of links. -/
inductive Climbs (t : Tree) : Nat → NodeId → NodeId → Prop
  | stop {id : NodeId} (h : t.parent? id = none) : Climbs t 0 id id
  | up {id parent top : NodeId} {links : Nat} (hp : t.parent? id = some parent)
      (h : Climbs t links parent top) : Climbs t (links + 1) id top

theorem Climbs.topWithin_eq {links : Nat} {top : NodeId} (h : t.Climbs links id top)
    (hbound : links ≤ bound) : t.topWithin bound id = top := by
  induction h generalizing bound with
  | stop h => cases bound <;> simp [topWithin, h]
  | up hp _ ih =>
    obtain ⟨bound, rfl⟩ := Nat.exists_eq_add_of_lt hbound
    rw [topWithin, hp]
    exact ih (Nat.le_add_right _ _)

/-- No node comes twice on the way up, so the way is shorter than the number of nodes. -/
theorem Forest.exists_climbs (hf : Forest t) (h : t.contains id = true) :
    ∃ links, links < t.size ∧ t.Climbs links id (t.top id) := by
  have hup : ∀ below : List NodeId, below.Nodup → (∀ k ∈ below, t.contains k = true) →
      (∀ k ∈ below, t.StrictlyAbove id k) →
      ∃ links top, below.length + links < t.size ∧ t.Climbs links id top := by
    induction id using hf.acyclic.induction with
    | _ id ih =>
      intro below hnodup hcontained hbelow
      have hfresh : id ∉ below := fun hmem => hf.not_strictlyAbove_self id (hbelow id hmem)
      have hnodup' := List.nodup_cons.2 ⟨hfresh, hnodup⟩
      have hcontained' : ∀ k ∈ id :: below, t.contains k = true :=
        List.forall_mem_cons.2 ⟨h, hcontained⟩
      cases hp : t.parent? id with
      | none => exact ⟨0, id, length_le_size hnodup' hcontained', .stop hp⟩
      | some parent =>
        obtain ⟨i, hi⟩ := (hf.parent_iff id parent).1 hp
        have hbelow' : ∀ k ∈ id :: below, t.StrictlyAbove parent k :=
          List.forall_mem_cons.2 ⟨.single hp, fun k hk => .head hp (hbelow k hk)⟩
        obtain ⟨links, top, hlt, hclimbs⟩ :=
          ih parent hp (contains_of_holds hi) (id :: below) hnodup' hcontained' hbelow'
        refine ⟨links + 1, top, ?_, .up hp hclimbs⟩
        rw [List.length_cons] at hlt
        omega
  obtain ⟨links, top, hlt, hclimbs⟩ := hup [] List.nodup_nil (by simp) (by simp)
  rw [List.length_nil, Nat.zero_add] at hlt
  refine ⟨links, hlt, ?_⟩
  rwa [Tree.top, hclimbs.topWithin_eq (Nat.le_of_lt hlt)]

/-! ### Downwards -/

/-- There is no infinite way down, from whatever node. -/
theorem Forest.wellFounded_children (hf : Forest t) :
    WellFounded fun c id => ∃ n, t.get? id = some n ∧ c ∈ n.form.children := by
  refine ⟨fun id => ?_⟩
  cases h : t.contains id with
  | true =>
    refine hf.descend (motive := fun _ id => Acc _ id) (fun _ id n hn hchildren => ⟨id, ?_⟩) h
    rintro c ⟨m, hm, hc⟩
    cases hn.symm.trans hm
    exact hchildren c hc
  | false =>
    refine ⟨id, ?_⟩
    rintro c ⟨n, hn, -⟩
    rw [(t.contains_iff id).2 ⟨n, hn⟩] at h
    cases h

/-- A recursion to the children that is bounded by the number of nodes below comes to the leaves
before its bound is used up. -/
theorem Forest.descend_lists (hf : Forest t) {motive : Nat → NodeId → Prop}
    (step : ∀ bound id n, t.get? id = some n → (∀ c ∈ n.form.children, motive bound c) →
      motive (bound + 1) id)
    (h : t.preorder id = .ok ids) (hid : t.contains id = true) (hbound : ids.length ≤ bound) :
    motive bound id := by
  obtain ⟨n, hn⟩ := (t.contains_iff id).1 hid
  induction bound generalizing id n ids with
  | zero =>
    obtain ⟨below, -, hids⟩ := hf.preorder_eq hn
    cases h.symm.trans hids
    cases hbound
  | succ bound ih =>
    obtain ⟨below, hbelow, hids⟩ := hf.preorder_eq hn
    cases h.symm.trans hids
    refine step bound id n hn fun c hc => ?_
    have hcontains := contains_of_parent? (hf.parent?_of_mem hn hc)
    obtain ⟨m, hm⟩ := (t.contains_iff c).1 hcontains
    refine ih (hbelow c hc) hcontains ?_ m hm
    have hsub : (below c).Sublist (n.form.children.flatMap below) := by
      rw [List.flatMap_def]
      exact List.sublist_flatten_of_mem (List.mem_map_of_mem hc)
    exact hsub.length_le.trans (Nat.le_of_succ_le_succ hbound)

theorem Forest.exists_lists (hf : Forest t) (h : t.contains id = true) :
    ∃ ids, t.preorder id = .ok ids ∧ t.Lists id ids ∧ ids.length ≤ t.size := by
  obtain ⟨ids, hpreorder, hlists⟩ := hf.exists_preorder h
  exact ⟨ids, hpreorder, hlists, length_le_size hlists.nodup (hlists.contains h)⟩

/-- Where a recursion gives for a node what depends on its bound only as far as what it gives for
the children does, it gives the same with every bound from the number of nodes below on. -/
theorem Forest.eq_of_length_le {α : Type} (hf : Forest t) {f : Nat → NodeId → α}
    (step : ∀ bound bound' id n, t.get? id = some n →
      (∀ c ∈ n.form.children, f bound c = f bound' c) → f (bound + 1) id = f (bound' + 1) id)
    (h : t.preorder id = .ok ids) (hid : t.contains id = true) (hbound : ids.length ≤ bound) :
    f bound id = f t.size id := by
  have hsettled : ∀ bound', ids.length ≤ bound' → f bound' id = f ids.length id := by
    refine hf.descend_lists (motive := fun depth id => ∀ bound', depth ≤ bound' →
      f bound' id = f depth id) (fun depth id n hn hchildren bound' hle => ?_) h hid le_rfl
    obtain ⟨bound', rfl⟩ := Nat.exists_eq_add_of_lt hle
    exact step _ _ id n hn fun c hc => hchildren c hc _ (Nat.le_add_right _ _)
  obtain ⟨ids', h', -, hsize⟩ := hf.exists_lists hid
  cases h.symm.trans h'
  rw [hsettled bound hbound, hsettled t.size hsize]

theorem sameRoles_congr {same same' : NodeId → NodeId → Option Bool}
    {rs rs' : List (Slot × Option NodeId)} (h : ∀ c ∈ rs.filterMap Prod.snd, same c = same' c) :
    sameRoles same rs rs' = sameRoles same' rs rs' := by
  fun_induction sameRoles same rs rs' with
  | case1 => rfl
  | case2 a as s b bs ih =>
    rw [sameRoles, if_pos rfl, h a List.mem_cons_self, ih fun c hc => h c (.tail a hc)]
  | case3 r a as s b bs hs => rw [sameRoles, if_neg hs]
  | case4 as s bs ih => rw [sameRoles, if_pos rfl, ih h]
  | case5 r as s bs hs => rw [sameRoles, if_neg hs]
  | case6 => rw [sameRoles] <;> assumption

section Bounds

variable (hf : Forest t) (h : t.preorder id = .ok ids) (hid : t.contains id = true)
  (hbound : ids.length ≤ bound)
include hf h hid hbound

theorem Forest.preorderWithin_eq : t.preorderWithin bound id = t.preorder id := by
  refine hf.descend_lists (motive := fun bound id => t.preorderWithin bound id = t.preorder id)
    (fun bound id n hn hchildren => ?_) h hid hbound
  obtain ⟨below, hbelow, hids⟩ := hf.preorder_eq hn
  rw [hids]
  exact preorderWithin_succ hn fun c hc => (hchildren c hc).trans (hbelow c hc)

theorem Forest.sameWithin_eq (u : Tree) (b : NodeId) :
    sameWithin t u bound id b = t.same? id u b := by
  refine congrFun (hf.eq_of_length_le (f := sameWithin t u) (fun bound bound' id n hn hchildren =>
    ?_) h hid hbound) b
  funext b
  rw [sameWithin, sameWithin, hn]
  change (do
    let y ← u.get? b
    if n.form.samePayload y.form then
      sameRoles (sameWithin t u bound) n.form.roles y.form.roles
    else return false) = _
  simp only [sameRoles_congr hchildren]
  rfl

theorem Forest.copyWithin_eq : Build.copyWithin t bound id = Build.copy t id := by
  refine hf.eq_of_length_le (fun bound bound' id n hn hchildren => ?_) h hid hbound
  have hroles : RolesMatch (fun c c' => Build.copyWithin t bound c = Build.copyWithin t bound' c')
      n.form.roles n.form.roles :=
    (rolesMatch_self (S := Eq) (fun _ => rfl) n.form.roles).imp fun c hc _ _ heq =>
      heq ▸ hchildren c hc
  rw [Build.copyWithin_succ hn, Build.copyWithin_succ hn]
  simp only [Build.copyRoles_congr hroles]

end Bounds

end TeachLang.Tree
