import TeachLang.Proofs.Forest
import TeachLang.Tree.Copy

/-!
# Trees that are built

A tree comes from the empty one by operations, each of which may fail and then leaves what it has
done before. Whatever an operation does is a sequence of four kinds of steps, so what every step
keeps holds of all trees that are built: in particular they are forests.
-/

namespace TeachLang

namespace Tree

inductive Step (t : Tree) : Tree → Prop
  | push (form : Form) (span : Span) : Step t (t.add { form := form.bare, span := span })
  | link {p c : NodeId} {s : Slot} (h : t.obstacle? p s c = none) : Step t (t.link p s c)
  | span (id : NodeId) (span : Span) : Step t (t.setSpan id span)
  | root {id : NodeId} (hc : t.contains id = true) (hp : t.parent? id = none) :
      Step t { t with root := some id }

abbrev Steps : Tree → Tree → Prop := Relation.ReflTransGen Step

variable {t u : Tree}

theorem Forest.step (hf : Forest t) (h : Step t u) : Forest u := by
  cases h with
  | push form span => exact hf.add rfl form.bare_bare
  | link h => exact hf.link h
  | span id span =>
    have hget : ∀ k, ((t.setSpan id span).get? k).map (fun n => (n.form, n.parent)) =
        (t.get? k).map fun n => (n.form, n.parent) := by
      intro k
      rw [get?_setSpan]
      cases t.get? k with
      | none => rfl
      | some n => by_cases hk : id = k <;> simp [hk]
    refine hf.congr ?_ ?_ ?_ rfl
    · intro k hk
      rwa [contains_iff_lt, size_setSpan, ← contains_iff_lt]
    · intro k
      have := hget k
      unfold parent?
      cases h₁ : (t.setSpan id span).get? k <;> cases h₂ : t.get? k <;> simp_all
    · intro p i c
      have := hget p
      unfold Holds
      cases h₁ : (t.setSpan id span).get? p <;> cases h₂ : t.get? p <;> simp_all
  | root hc hp => exact hf.setRoot hc hp

theorem Forest.steps (hf : Forest t) (h : Steps t u) : Forest u := by
  induction h with
  | refl => exact hf
  | tail _ h ih => exact ih.step h

end Tree

namespace Build

open TeachLang.Tree

variable {α β : Type} {R : Tree → Tree → Prop}

def Leads (R : Tree → Tree → Prop) (x : Build α) : Prop := ∀ t, R t (x.run t).2

structure Admits (R : Tree → Tree → Prop) : Prop where
  refl (t : Tree) : R t t
  trans {t u v : Tree} (h : R t u) (h' : R u v) : R t v
  push (t : Tree) (form : Form) (span : Span) : R t (t.add { form := form.bare, span := span })
  link {t : Tree} {p c : NodeId} {s : Slot} (h : t.obstacle? p s c = none) : R t (t.link p s c)

namespace Admits

variable (hR : Admits R)
include hR

theorem bind {x : Build α} {f : α → Build β} (hx : Leads R x) (hf : ∀ a, Leads R (f a)) :
    Leads R (x >>= f) := by
  intro t
  have ht := hx t
  rw [run_bind]
  rcases hr : x.run t with ⟨e | a, u⟩ <;> rw [hr] at ht
  · exact ht
  · exact hR.trans ht (hf a u)

theorem attach (p : NodeId) (s : Slot) (c : NodeId) : Leads R (attach p s c) := by
  intro t
  rw [run_attach]
  cases h : t.obstacle? p s c with
  | some e => exact hR.refl t
  | none => exact hR.link h

theorem attachAll (p : NodeId) (rs : List (Slot × Option NodeId)) : Leads R (attachAll p rs) := by
  induction rs with
  | nil => exact hR.refl
  | cons r rs ih =>
    obtain ⟨s, _ | c⟩ := r
    · exact ih
    · exact hR.bind (hR.attach p s c) fun _ => ih

theorem add (form : Form) : Leads R (add form) :=
  hR.bind (fun t => hR.push t form {}) fun id =>
    hR.bind (hR.attachAll id form.roles) fun _ => hR.refl

theorem copyRoles {copy : NodeId → Build NodeId} (hcopy : ∀ id, Leads R (copy id)) (p : NodeId)
    (rs : List (Slot × Option NodeId)) : Leads R (copyRoles copy p rs) := by
  induction rs with
  | nil => exact hR.refl
  | cons r rs ih =>
    obtain ⟨s, _ | c⟩ := r
    · exact ih
    · exact hR.bind (hcopy c) fun k => hR.bind (hR.attach p s k) fun _ => ih

theorem copyWithin (source : Tree) (bound : Nat) (id : NodeId) :
    Leads R (copyWithin source bound id) := by
  induction bound generalizing id with
  | zero => exact hR.refl
  | succ bound ih =>
    exact hR.bind (fun t => hR.refl t) fun n => hR.bind (fun t => hR.push t n.form n.span) fun k =>
      hR.bind (hR.copyRoles ih k n.form.roles) fun _ => hR.refl

end Admits

/-- The change proceeds by steps, also when it fails half-way. -/
def Proceeds (x : Build α) : Prop := ∀ t, Steps t (x.run t).2

theorem admits_steps : Admits Steps where
  refl _ := .refl
  trans := .trans
  push _ form span := .single (.push form span)
  link h := .single (.link h)

theorem proceeds_setSpan (id : NodeId) (span : Span) : Proceeds (setSpan id span) := by
  intro t
  rw [run_setSpan]
  cases t.find id with
  | error e => exact .refl
  | ok n => exact .single (.span id span)

theorem proceeds_setRoot (id : NodeId) : Proceeds (setRoot id) := by
  intro t
  rw [run_setRoot]
  cases h : t.find id with
  | error e => exact .refl
  | ok n =>
    have hget := (t.find_eq_ok).1 h
    by_cases hp : n.parent.isSome
    · simp only [if_pos hp]
      exact .refl
    · simp only [if_neg hp]
      refine .single (.root ((t.contains_iff id).2 ⟨n, hget⟩) ?_)
      simpa [parent?, hget] using hp

theorem proceeds_copyWithin (source : Tree) (bound : Nat) (id : NodeId) :
    Proceeds (copyWithin source bound id) := admits_steps.copyWithin source bound id

theorem proceeds_copy (source : Tree) (id : NodeId) : Proceeds (copy source id) :=
  proceeds_copyWithin source source.size id

/-- A copy is made of new nodes: it leaves all others alone, and nothing owns its top. -/
structure Copied (t u : Tree) (top : NodeId) : Prop where
  top_eq : top = t.size
  size_lt : t.size < u.size
  parentless : u.parent? top = none
  old : ∀ k, k < t.size → u.get? k = t.get? k

theorem copyRoles_frame {copy : NodeId → Build NodeId}
    (hcopy : ∀ id t k u, (copy id).run t = (.ok k, u) → Copied t u k) (p : NodeId)
    (rs : List (Slot × Option NodeId)) {t u : Tree} (hp : p < t.size)
    (h : (copyRoles copy p rs).run t = (.ok (), u)) :
    t.size ≤ u.size ∧ u.parent? p = t.parent? p ∧
      ∀ k, k < t.size → k ≠ p → u.get? k = t.get? k := by
  induction rs generalizing t with
  | nil =>
    cases h
    exact ⟨Nat.le_refl _, rfl, fun _ _ _ => rfl⟩
  | cons r rs ih =>
    obtain ⟨s, _ | c⟩ := r
    · exact ih hp h
    · simp only [copyRoles, run_bind_eq_ok] at h
      obtain ⟨k, t₁, hc, _, t₂, hattach, hrest⟩ := h
      obtain ⟨rfl, hlt, _, hold⟩ := hcopy c t k t₁ hc
      obtain ⟨_, rfl⟩ := run_attach_eq_ok.1 hattach
      have hcontains : t₁.contains t.size = true := (contains_iff_lt _).2 hlt
      have hpt₁ : p < (t₁.link p s t.size).size := by
        rw [size_link]
        exact Nat.lt_trans hp hlt
      obtain ⟨hsize, hparent, hget⟩ := ih hpt₁ hrest
      rw [size_link] at hsize
      refine ⟨Nat.le_trans (Nat.le_of_lt hlt) hsize, ?_, ?_⟩
      · rw [hparent, parent?_link hcontains, if_neg (Nat.ne_of_gt hp), parent?, parent?, hold p hp]
      · intro k hk hkp
        have hkt₁ : k < (t₁.link p s t.size).size := by
          rw [size_link]
          exact Nat.lt_trans hk hlt
        rw [hget k hkt₁ hkp, get?_link, hold k hk]
        cases t.get? k <;> simp [Nat.ne_of_gt hk, hkp.symm]

theorem copyWithin_frame (source : Tree) (bound : Nat) (id : NodeId) {t u : Tree} {top : NodeId}
    (h : (copyWithin source bound id).run t = (.ok top, u)) : Copied t u top := by
  induction bound generalizing id t u top with
  | zero => cases h
  | succ bound ih =>
    simp only [copyWithin, run_bind_eq_ok, run_liftM_eq_ok, run_push_eq_ok, run_pure_eq_ok] at h
    obtain ⟨n, _, ⟨_, rfl⟩, _, _, ⟨rfl, rfl⟩, _, _, hroles, rfl, rfl⟩ := h
    have hlt : t.size < (t.add { form := n.form.bare, span := n.span }).size := by simp
    obtain ⟨hsize, hparent, hget⟩ :=
      copyRoles_frame (fun id t k u => ih id) t.size n.form.roles hlt hroles
    refine ⟨rfl, Nat.lt_of_lt_of_le hlt hsize, ?_, ?_⟩
    · rw [hparent, parent?_add rfl, parent?, not_contains_size, Option.bind_none]
    · intro k hk
      rw [hget k (Nat.lt_trans hk hlt) (Nat.ne_of_lt hk), get?_add, if_neg (Nat.ne_of_lt hk)]

end Build

namespace Tree

variable {t u : Tree}

theorem forest_copy_root (source : Tree) (id : NodeId) {top : NodeId}
    (h : (Build.copy source id).run {} = (.ok top, u)) : Forest { u with root := some top } := by
  have hsteps := Build.proceeds_copy source id {}
  rw [h] at hsteps
  have hcopied := Build.copyWithin_frame source source.size id h
  refine (forest_empty.steps hsteps).setRoot ?_ hcopied.parentless
  rw [contains_iff_lt, hcopied.top_eq]
  exact hcopied.size_lt

inductive Operation where
  | add (form : Form)
  | attach (parent : NodeId) (slot : Slot) (child : NodeId)
  | setSpan (id : NodeId) (span : Span)
  | setRoot (id : NodeId)
  | copy (source : Tree) (id : NodeId)

def Operation.apply (t : Tree) : Operation → Tree
  | add form => ((Build.add form).run t).2
  | attach parent slot child => ((Build.attach parent slot child).run t).2
  | setSpan id span => ((Build.setSpan id span).run t).2
  | setRoot id => ((Build.setRoot id).run t).2
  | copy source id => ((Build.copy source id).run t).2

inductive Built : Tree → Prop
  | empty : Built {}
  | operate {t : Tree} (o : Operation) (ht : Built t)
      (hsource : ∀ s id, o = .copy s id → Built s) : Built (o.apply t)
  | clone {t : Tree} (ht : Built t) : Built t.clone
  | duplicate {t u : Tree} (ht : Built t) (h : t.duplicate = .ok u) : Built u
  | copySubtree {t u : Tree} (id : NodeId) (ht : Built t) (h : t.copySubtree id = .ok u) : Built u

theorem Built.operateAll {t : Tree} (ht : Built t) (os : List Operation)
    (hsource : ∀ s id, .copy s id ∈ os → Built s) : Built (os.foldl Operation.apply t) := by
  induction os generalizing t with
  | nil => exact ht
  | cons o os ih =>
    refine ih (ht.operate o ?_) fun s id hmem => hsource s id (List.mem_cons_of_mem o hmem)
    rintro s id rfl
    exact hsource s id List.mem_cons_self

theorem Operation.steps_apply (t : Tree) (o : Operation) : Steps t (o.apply t) := by
  cases o with
  | add form => exact Build.admits_steps.add form t
  | attach parent slot child => exact Build.admits_steps.attach parent slot child t
  | setSpan id span => exact Build.proceeds_setSpan id span t
  | setRoot id => exact Build.proceeds_setRoot id t
  | copy source id => exact Build.proceeds_copy source id t

theorem forest_copySubtree {id : NodeId} (h : t.copySubtree id = .ok u) : Forest u := by
  unfold copySubtree at h
  split at h
  · next root copy hcopy =>
    cases h
    exact forest_copy_root t id hcopy
  · cases h

theorem forest_clone (t : Tree) : Forest t.clone := by
  unfold clone
  split
  · next root _ =>
    split
    · next id copy hcopy => exact forest_copy_root t root hcopy
    · next e copy hcopy =>
      have hsteps := Build.proceeds_copy t root {}
      rw [hcopy] at hsteps
      exact forest_empty.steps hsteps
  · exact forest_empty

theorem Built.forest (h : Built t) : Forest t := by
  induction h with
  | empty => exact forest_empty
  | @operate t o _ _ ih _ => exact ih.steps (o.steps_apply t)
  | @clone t _ _ => exact forest_clone t
  | duplicate _ h _ =>
    unfold Tree.duplicate at h
    split at h
    · exact forest_copySubtree h
    · cases h
      exact forest_empty
  | copySubtree _ _ h _ => exact forest_copySubtree h

/-- Whatever operations a tree comes from, with whatever ids, and whether they succeeded or not. -/
theorem links_agree (h : Built t) :
    (∀ p i c, t.Holds p i c → t.contains c = true) ∧
      (∀ c p, t.parent? c = some p ↔ ∃ i, t.Holds p i c) ∧
      (∀ p i q j c, t.Holds p i c → t.Holds q j c → p = q ∧ i = j) ∧
      (WellFounded fun up id => t.parent? id = some up) ∧
      ∀ r, t.root = some r → t.contains r = true ∧ t.parent? r = none := by
  obtain ⟨hcontained, hparent, hunique, hacyclic, hroot⟩ := h.forest
  exact ⟨hcontained, hparent, hunique, hacyclic, hroot⟩

/-- The second operand of the sum is taken, and so is its first one later. -/
theorem links_agree_of_half_built :
    let t := [Operation.add (.literal 5), .add (.unary .negate (some 0)),
      .add (.arithmetic .add (some 1) (some 0)), .setRoot 2, .attach 2 .right 1].foldl
        Operation.apply {}
    Built t ∧ t.root = some 2 ∧ t.parent? 1 = some 2 ∧ ∃ i, t.Holds 2 i 1 := by
  intro t
  have hbuilt : Built t := Built.empty.operateAll _ (by simp)
  have hparent : t.parent? 1 = some 2 := by decide
  exact ⟨hbuilt, by decide, hparent, ((links_agree hbuilt).2.1 1 2).1 hparent⟩

end Tree

end TeachLang
