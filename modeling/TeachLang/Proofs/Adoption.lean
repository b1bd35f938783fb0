import Mathlib.Data.List.Induction
import Mathlib.Data.List.Nodup
import TeachLang.Proofs.Adding

/-!
# What a new node adopts

A new node is given its children one after another, and nothing is taken back when one of them
cannot be attached. So the node stays with the children before that one. A child can be attached if
it was free before the node came, and if the node does not have it already.
-/

namespace TeachLang

namespace Form

def heldIn (rs : List (Slot × Option NodeId)) : List (Slot × NodeId) :=
  rs.filterMap fun r => r.2.map (r.1, ·)

def held (f : Form) : List (Slot × NodeId) := heldIn f.roles

theorem heldIn_children (rs : List (Slot × Option NodeId)) :
    (heldIn rs).map Prod.snd = rs.filterMap Prod.snd := by
  unfold heldIn
  rw [List.map_filterMap]
  congr 1
  funext r
  cases r.2 <;> rfl

theorem held_children (f : Form) : f.held.map Prod.snd = f.children := heldIn_children f.roles

/-- Before each child that is held stand the roles of those held before it. -/
theorem exists_roles_of_held {f : Form} {before after : List (Slot × NodeId)} {s : Slot}
    {c : NodeId} (h : f.held = before ++ (s, c) :: after) :
    ∃ rs rs', f.roles = rs ++ (s, some c) :: rs' ∧ heldIn rs = before := by
  obtain ⟨front, back, hroles, hfront, hback⟩ := List.filterMap_eq_append_iff.1 h
  obtain ⟨empty, ⟨s', o⟩, rs', rfl, hempty, hr, -⟩ := List.filterMap_eq_cons_iff.1 hback
  obtain ⟨c', rfl, hc⟩ := Option.map_eq_some_iff.1 hr
  cases hc
  refine ⟨front ++ empty, rs', ?_, ?_⟩
  · rw [hroles, List.append_assoc]
  · rw [heldIn, List.filterMap_append, hfront, List.filterMap_eq_nil_iff.2 hempty, List.append_nil]

theorem Fits.of_append {f : Form} {rs rs' : List (Slot × Option NodeId)} (h : f.Fits (rs ++ rs')) :
    f.Fits rs := by
  induction rs generalizing f with
  | nil => trivial
  | cons r rs ih =>
    obtain ⟨s, _ | c⟩ := r
    · exact ih h
    · exact ⟨h.1, ih h.2⟩

theorem held_fillAll_take (f : Form) (i : Nat) :
    (f.bare.fillAll (f.roles.take i)).held = heldIn (f.roles.take i) := by
  cases f with
  | scope ss =>
    have hroles : (scope ss).roles.take i = (ss.take i).map fun c => (.statement, some c) := by
      rw [roles, List.map_take]
    rw [hroles, bare, fillAll_statements]
    rfl
  | literal _ | reference _ => simp [roles, bare, fillAll, held]
  | unary _ a | print a | declaration _ a | expression a | input a =>
    rcases i with _ | i <;> cases a <;> simp [roles, bare, fillAll, fill, held, heldIn]
  | arithmetic _ a b | logic _ a b | assign a b | whileLoop a b =>
    rcases i with _ | _ | i <;> cases a <;> cases b <;>
      simp [roles, bare, fillAll, fill, held, heldIn]
  | ifElse a b c =>
    rcases i with _ | _ | _ | i <;> cases a <;> cases b <;> cases c <;>
      simp [roles, bare, fillAll, fill, held, heldIn]
  | forLoop a b c d =>
    rcases i with _ | _ | _ | _ | i <;> cases a <;> cases b <;> cases c <;> cases d <;>
      simp [roles, bare, fillAll, fill, held, heldIn]

end Form

namespace Tree

variable {t u : Tree} {p c : NodeId} {s : Slot}

def Usable (t : Tree) (cs : List NodeId) : Prop := (∀ c ∈ cs, t.Free c) ∧ cs.Nodup

theorem usable_append_singleton {cs : List NodeId} (h : t.Usable cs) :
    t.Usable (cs ++ [c]) ↔ t.Free c ∧ c ∉ cs := by
  have hnodup : (cs ++ [c]).Nodup ↔ c ∉ cs := by
    rw [← List.concat_eq_append, List.nodup_concat]
    exact and_iff_left h.2
  rw [Usable, List.forall_mem_append, hnodup, List.forall_mem_singleton]
  exact and_congr_left fun _ => and_iff_right h.1

/-- Of children that are not all usable there is a first that is not. -/
theorem exists_first_unusable {hs : List (Slot × NodeId)} (h : ¬ t.Usable (hs.map Prod.snd)) :
    ∃ before s c after, hs = before ++ (s, c) :: after ∧ t.Usable (before.map Prod.snd) ∧
      ¬ (t.Free c ∧ c ∉ before.map Prod.snd) := by
  induction hs using List.reverseRecOn with
  | nil => exact absurd ⟨nofun, List.nodup_nil⟩ h
  | append_singleton hs r ih =>
    by_cases hhs : t.Usable (hs.map Prod.snd)
    · rw [List.map_append, List.map_singleton, usable_append_singleton hhs] at h
      exact ⟨hs, r.1, r.2, [], rfl, hhs, h⟩
    · obtain ⟨before, s, c, after, rfl, hbefore, hc⟩ := ih hhs
      exact ⟨before, s, c, after ++ [r], by simp, hbefore, hc⟩

/-- A node that was not free, or has been adopted since, cannot be attached to the node that
adopted. -/
theorem Adopts.obstacle?_ne_none {fill : Form → Form} {cs : List NodeId} {n : Node}
    (h : Adopts t u p fill cs) (hp : t.get? p = some n) (hparentless : n.parent = none)
    (hcs : p ∉ cs) (hc : t.Free c → c ≠ p → c ∈ cs) : u.obstacle? p s c ≠ none := by
  intro hnone
  obtain ⟨_, m, -, hm, hfree, hroot, htop, -⟩ := obstacle?_eq_none_iff.1 hnone
  have htop' : u.top p = p := by
    apply top_of_parentless
    rw [parent?, h.get?_eq, hp]
    simp [hcs, hparentless]
  rw [h.get?_eq] at hm
  obtain ⟨m', hm', rfl⟩ := Option.map_eq_some_iff.1 hm
  have hnot : c ∉ cs := by
    intro hmem
    simp [hmem] at hfree
  refine hnot (hc ⟨(t.contains_iff c).2 ⟨m', hm'⟩, ?_, h.root_eq ▸ hroot⟩ ?_)
  · simpa [parent?, hm', hnot] using hfree
  · rintro rfl
    exact htop htop'

end Tree

namespace Build

open TeachLang.Tree

theorem run_attachAll_append (p : NodeId) (rs rs' : List (Slot × Option NodeId)) (t : Tree) :
    (attachAll p (rs ++ rs')).run t =
      match (attachAll p rs).run t with
      | (.ok _, u) => (attachAll p rs').run u
      | (.error e, u) => (.error e, u) := by
  induction rs generalizing t with
  | nil => rfl
  | cons r rs ih =>
    obtain ⟨s, _ | c⟩ := r
    · exact ih t
    · simp only [List.cons_append, attachAll, run_bind]
      rcases (attach p s c).run t with ⟨e | _, u⟩
      · rfl
      · exact ih u

/-- The new node keeps the children before the first that cannot be used, and its tree is the one
in which the attempt to attach that one failed. -/
theorem run_add_of_unusable {t : Tree} {f : Form} {before after : List (Slot × Option NodeId)}
    {s : Slot} {c : NodeId} (hroles : f.roles = before ++ (s, some c) :: after)
    (hbefore : t.Usable (before.filterMap Prod.snd))
    (hc : ¬ (t.Free c ∧ c ∉ before.filterMap Prod.snd)) :
    ∃ e u g, (add f).run t = (.error e, u) ∧ u.obstacle? t.size s c = some e ∧
      g.bare = f.bare ∧ g.held = Form.heldIn before ∧ t.Adds u g {} := by
  have hnew : (t.add { form := f.bare }).get? t.size = some { form := f.bare } := by
    rw [get?_add, if_pos rfl]
  have hfits : f.bare.Fits before := by
    have h := f.fits_roles
    rw [hroles] at h
    exact h.of_append
  obtain ⟨u, hrun, hadopts⟩ := run_attachAll t.size before hnew rfl hfits
    (fun k hk => (hbefore.1 k hk).add rfl) hbefore.2
  have hheld : (f.bare.fillAll before).held = Form.heldIn before := by
    have h := f.held_fillAll_take before.length
    rwa [hroles, List.take_left] at h
  have hchildren : (f.bare.fillAll before).children = before.filterMap Prod.snd := by
    rw [← Form.held_children, hheld, Form.heldIn_children]
  have hfresh : t.size ∉ before.filterMap Prod.snd := fun hmem =>
    ((hbefore.1 t.size hmem).add (n := { form := f.bare }) rfl).2 rfl
  have hobstacle : u.obstacle? t.size s c ≠ none := by
    refine hadopts.obstacle?_ne_none hnew rfl hfresh fun hfree hne => ?_
    by_contra hnot
    refine hc ⟨⟨?_, ?_, hfree.not_root⟩, hnot⟩
    · have hlt := (contains_iff_lt c).1 hfree.contained
      rw [size_add] at hlt
      rw [contains_iff_lt]
      exact Nat.lt_of_le_of_ne (Nat.le_of_lt_succ hlt) hne
    · rw [← parent?_add (n := { form := f.bare }) rfl, hfree.parentless]
  obtain ⟨e, he⟩ := Option.ne_none_iff_exists'.1 hobstacle
  refine ⟨e, u, f.bare.fillAll before, ?_, he, ?_, hheld, ?_⟩
  · simp only [run_add, hroles, run_attachAll_append, hrun, attachAll, run_bind, run_attach, he]
  · rw [Form.bare_fillAll, Form.bare_bare]
  · rw [← hchildren] at hadopts
    exact hadopts.adds rfl fun k hk => hbefore.1 k (hchildren ▸ hk)

/-- When the children are not all usable, the new node has those before the first that is not. -/
theorem exists_run_add_of_not_usable {t : Tree} {f : Form} (h : ¬ t.Usable f.children) :
    ∃ before s c after e u g, f.held = before ++ (s, c) :: after ∧
      t.Usable (before.map Prod.snd) ∧ ¬ t.Usable (before.map Prod.snd ++ [c]) ∧
      (add f).run t = (.error e, u) ∧ u.obstacle? t.size s c = some e ∧
      g.bare = f.bare ∧ g.held = before ∧ t.Adds u g {} := by
  rw [← f.held_children] at h
  obtain ⟨before, s, c, after, hheld, hbefore, hc⟩ := exists_first_unusable h
  obtain ⟨rs, rs', hroles, hrs⟩ := Form.exists_roles_of_held hheld
  have hkids : rs.filterMap Prod.snd = before.map Prod.snd := by
    rw [← hrs, Form.heldIn_children]
  have hc' : ¬ t.Usable (before.map Prod.snd ++ [c]) := by
    rwa [usable_append_singleton hbefore]
  rw [← hkids] at hbefore hc
  obtain ⟨e, u, g, hrun, he, hbare, hg, hadds⟩ := run_add_of_unusable hroles hbefore hc
  rw [hkids] at hbefore
  exact ⟨before, s, c, after, e, u, g, hheld, hbefore, hc', hrun, he, hbare, hg.trans hrs, hadds⟩

end Build

namespace Tree

/-- A node is added with the children it was asked to have if they are usable, and otherwise with
those before the first that is not. In either case nothing else changes but their parents. -/
theorem add_exact (t : Tree) (f : Form) :
    let r := (Build.add f).run t
    ((∃ id, r.1 = .ok id) ↔ t.Usable f.children) ∧
      (t.Usable f.children → r.1 = .ok t.size ∧ t.Adds r.2 f {}) ∧
      (¬ t.Usable f.children → ∃ before s c after g, f.held = before ++ (s, c) :: after ∧
        t.Usable (before.map Prod.snd) ∧ ¬ t.Usable (before.map Prod.snd ++ [c]) ∧
        g.bare = f.bare ∧ g.held = before ∧ t.Adds r.2 g {}) := by
  dsimp only
  have hgood : t.Usable f.children →
      ((Build.add f).run t).1 = .ok t.size ∧ t.Adds ((Build.add f).run t).2 f {} := by
    rintro ⟨hfree, hnodup⟩
    obtain ⟨u, hrun, hadds⟩ := Build.run_add_of_free hfree hnodup
    rw [hrun]
    exact ⟨rfl, hadds⟩
  refine ⟨⟨?_, fun h => ⟨_, (hgood h).1⟩⟩, hgood, fun h => ?_⟩
  · rintro ⟨id, hok⟩
    by_contra h
    obtain ⟨_, _, _, _, _, _, _, _, _, _, hrun, -⟩ := Build.exists_run_add_of_not_usable h
    rw [hrun] at hok
    cases hok
  · obtain ⟨before, s, c, after, _, u, g, hheld, hbefore, hc, hrun, -, hbare, hg, hadds⟩ :=
      Build.exists_run_add_of_not_usable h
    rw [hrun]
    exact ⟨before, s, c, after, g, hheld, hbefore, hc, hbare, hg, hadds⟩

end Tree

end TeachLang
