import TeachLang.Proofs.Forest
import TeachLang.Tree.Build

/-!
# Adding a node to its children

A node can be added above any nodes that are there, are free and are named once. It becomes the last
node, with the form it was asked to have and no parent, and nothing else changes but the parents of
its children.
-/

namespace TeachLang

namespace Tree

variable {t u : Tree}

theorem top_of_parentless {id : NodeId} (h : t.parent? id = none) : t.top id = id := by
  unfold top
  cases t.size with
  | zero => rfl
  | succ bound => simp [topWithin, h]

structure Free (t : Tree) (id : NodeId) : Prop where
  contained : t.contains id = true
  parentless : t.parent? id = none
  not_root : t.root ≠ some id

theorem obstacle?_eq_none {p c : NodeId} {s : Slot} {n : Node} (hp : t.get? p = some n)
    (hparentless : n.parent = none) (hs : n.form.slot? s = some none) (hc : t.Free c)
    (hne : c ≠ p) : t.obstacle? p s c = none := by
  obtain ⟨m, hm⟩ := (t.contains_iff c).1 hc.contained
  have hfree := hc.parentless
  rw [parent?, hm, Option.bind_some] at hfree
  have htop : t.top p = p := top_of_parentless (by simp [parent?, hp, hparentless])
  exact obstacle?_eq_none_iff.2 ⟨n, m, hp, hm, hfree, hc.not_root, by rwa [htop, ne_comm], hs⟩

/-- `u` is `t` with `f` made of the form of `p`, and `p` made the parent of `cs`. -/
structure Adopts (t u : Tree) (p : NodeId) (f : Form → Form) (cs : List NodeId) : Prop where
  size_eq : u.size = t.size
  root_eq : u.root = t.root
  get?_eq : ∀ k, u.get? k = (t.get? k).map fun m =>
    { m with
      form := if p = k then f m.form else m.form
      parent := if k ∈ cs then some p else m.parent }

end Tree

namespace Build

open TeachLang.Tree

theorem run_attachAll (p : NodeId) (rs : List (Slot × Option NodeId)) {t : Tree} {n : Node}
    (hp : t.get? p = some n) (hparentless : n.parent = none) (hfits : n.form.Fits rs)
    (hfree : ∀ c ∈ rs.filterMap Prod.snd, t.Free c ∧ c ≠ p)
    (hnodup : (rs.filterMap Prod.snd).Nodup) :
    ∃ u, (attachAll p rs).run t = (.ok (), u) ∧
      Adopts t u p (·.fillAll rs) (rs.filterMap Prod.snd) := by
  induction rs generalizing t n with
  | nil =>
    refine ⟨t, rfl, rfl, rfl, fun k => ?_⟩
    cases t.get? k <;> simp [Form.fillAll]
  | cons r rs ih =>
    obtain ⟨s, _ | c⟩ := r
    · exact ih hp hparentless hfits hfree hnodup
    · obtain ⟨hslot, hfits⟩ := hfits
      have hkids : ((s, some c) :: rs).filterMap Prod.snd = c :: rs.filterMap Prod.snd := rfl
      rw [hkids] at hfree hnodup ⊢
      obtain ⟨hcfree, hcp⟩ := hfree c List.mem_cons_self
      obtain ⟨hfresh, hnodup⟩ := List.nodup_cons.1 hnodup
      have hobstacle := obstacle?_eq_none hp hparentless hslot hcfree hcp
      have hp₁ : (t.link p s c).get? p = some { n with form := n.form.fill s c } := by
        rw [get?_link, hp]
        simp [hcp]
      have hfree₁ : ∀ k ∈ rs.filterMap Prod.snd, (t.link p s c).Free k ∧ k ≠ p := by
        intro k hk
        obtain ⟨⟨hcontained, hfreek, hroot⟩, hkp⟩ := hfree k (List.mem_cons_of_mem c hk)
        refine ⟨⟨?_, ?_, hroot⟩, hkp⟩
        · rwa [contains_iff_lt, size_link, ← contains_iff_lt]
        · rw [parent?_link hcfree.contained, if_neg (fun he : c = k => hfresh (he ▸ hk)), hfreek]
      obtain ⟨u, hrun, hsize, hroot, hget⟩ := ih hp₁ hparentless hfits hfree₁ hnodup
      refine ⟨u, ?_, ?_, hroot, fun k => ?_⟩
      · exact run_bind_eq_ok.2 ⟨(), _, run_attach_eq_ok.2 ⟨hobstacle, rfl⟩, hrun⟩
      · rw [hsize, size_link]
      · rw [hget k, get?_link, Option.map_map]
        congr 1
        funext m
        have hmem : k ∈ c :: rs.filterMap Prod.snd ↔ c = k ∨ k ∈ rs.filterMap Prod.snd := by
          rw [List.mem_cons, eq_comm]
        by_cases hkp : p = k
        · subst hkp
          simp only [hmem, hcp, false_or, if_true, if_false, Function.comp_apply, Form.fillAll]
        · by_cases hkc : c = k
          · subst hkc
            simp only [hmem, hkp, true_or, if_true, if_false, ite_self, Function.comp_apply]
          · simp only [hmem, hkp, hkc, false_or, if_false, Function.comp_apply]

end Build

namespace Tree

variable {t u : Tree}

structure Adds (t u : Tree) (f : Form) (span : Span) : Prop where
  size_eq : u.size = t.size + 1
  root_eq : u.root = t.root
  new : u.get? t.size = some { form := f, span := span }
  old : ∀ k, k < t.size → u.get? k = (t.get? k).map fun m =>
    { m with parent := if k ∈ f.children then some t.size else m.parent }

theorem Free.add {id : NodeId} (h : t.Free id) {n : Node} (hn : n.parent = none) :
    (t.add n).Free id ∧ id ≠ t.size := by
  have hlt : id < t.size := (contains_iff_lt id).1 h.contained
  refine ⟨⟨?_, ?_, h.not_root⟩, Nat.ne_of_lt hlt⟩
  · rw [contains_iff_lt, size_add]
    exact Nat.lt_succ_of_lt hlt
  · rw [parent?_add hn, h.parentless]

/-- What a new node adopts is all that it holds. -/
theorem Adopts.adds {f g : Form} {fill : Form → Form}
    (h : Adopts (t.add { form := f }) u t.size fill g.children) (hfill : fill f = g)
    (hfree : ∀ c ∈ g.children, t.Free c) : Adds t u g {} where
  size_eq := by rw [h.size_eq, size_add]
  root_eq := h.root_eq
  new := by
    have hself : t.size ∉ g.children := fun hmem =>
      ((hfree t.size hmem).add (n := { form := f }) rfl).2 rfl
    rw [h.get?_eq, get?_add, if_pos rfl]
    simp only [Option.map_some, if_true, if_neg hself, hfill]
  old k hk := by
    rw [h.get?_eq, get?_add, if_neg (Nat.ne_of_lt hk)]
    simp only [Nat.ne_of_gt hk, if_false]

end Tree

namespace Build

open TeachLang.Tree

theorem run_add_of_free {t : Tree} {f : Form} (hfree : ∀ c ∈ f.children, t.Free c)
    (hnodup : f.children.Nodup) : ∃ u, (add f).run t = (.ok t.size, u) ∧ Adds t u f {} := by
  have hnew : (t.add { form := f.bare }).get? t.size = some { form := f.bare } := by
    rw [get?_add, if_pos rfl]
  obtain ⟨u, hrun, hadopts⟩ := run_attachAll t.size f.roles hnew rfl f.fits_roles
    (fun c hc => (hfree c hc).add rfl) hnodup
  refine ⟨u, ?_, hadopts.adds f.fillAll_roles hfree⟩
  rw [run_add, hrun]

end Build

end TeachLang
