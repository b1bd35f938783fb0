import TeachLang.Proofs.Adding
import TeachLang.Proofs.Built
import TeachLang.Proofs.Resemblance

/-!
# Copies

Every node of a forest can be copied, and so can what hangs from the root. The copy looks the same,
and its spans are those of the original.
-/

namespace TeachLang

section

variable {S : NodeId → NodeId → Prop} {rs rs' : List (Slot × Option NodeId)}

theorem rolesMatch_nil : RolesMatch S [] rs' ↔ rs' = [] := List.forall₂_nil_left_iff

theorem rolesMatch_cons {s : Slot} {o : Option NodeId} : RolesMatch S ((s, o) :: rs) rs' ↔
    ∃ o' rs'', rs' = (s, o') :: rs'' ∧ Option.Rel S o o' ∧ RolesMatch S rs rs'' := by
  constructor
  · rintro (_ | ⟨⟨rfl, ho⟩, hrs⟩)
    exact ⟨_, _, rfl, ho, hrs⟩
  · rintro ⟨o', rs'', rfl, ho, hrs⟩
    exact .cons ⟨rfl, ho⟩ hrs

theorem rolesMatch_statements {ks : List NodeId}
    (h : RolesMatch S (ks.map fun k => (.statement, some k)) rs) :
    ∃ ks' : List NodeId, rs = ks'.map fun k => (.statement, some k) := by
  induction ks generalizing rs with
  | nil => exact ⟨[], rolesMatch_nil.1 h⟩
  | cons k ks ih =>
    obtain ⟨o, rs, rfl, ho, hrs⟩ := rolesMatch_cons.1 h
    obtain ⟨ks', rfl⟩ := ih hrs
    cases ho with
    | @some _ k' => exact ⟨k' :: ks', rfl⟩

namespace Form

theorem roles_fillAll {f : Form} (h : RolesMatch S f.roles rs) :
    (f.bare.fillAll rs).roles = rs := by
  cases f with
  | scope ks =>
    obtain ⟨ks', rfl⟩ := rolesMatch_statements h
    rw [bare, fillAll_statements]
    rfl
  | literal _ | reference _ =>
    obtain rfl := rolesMatch_nil.1 h
    rfl
  | unary _ _ | print _ | declaration _ _ | expression _ | input _ =>
    simp only [roles, rolesMatch_cons, rolesMatch_nil] at h
    obtain ⟨k, _, rfl, _, rfl⟩ := h
    cases k <;> rfl
  | arithmetic _ _ _ | logic _ _ _ | assign _ _ | whileLoop _ _ =>
    simp only [roles, rolesMatch_cons, rolesMatch_nil] at h
    obtain ⟨k, _, rfl, _, l, _, rfl, _, rfl⟩ := h
    cases k <;> cases l <;> rfl
  | ifElse _ _ _ =>
    simp only [roles, rolesMatch_cons, rolesMatch_nil] at h
    obtain ⟨c, _, rfl, _, a, _, rfl, _, b, _, rfl, _, rfl⟩ := h
    cases c <;> cases a <;> cases b <;> rfl
  | forLoop _ _ _ _ =>
    simp only [roles, rolesMatch_cons, rolesMatch_nil] at h
    obtain ⟨i, _, rfl, _, c, _, rfl, _, a, _, rfl, _, b, _, rfl, _, rfl⟩ := h
    cases i <;> cases c <;> cases a <;> cases b <;> rfl

/-- A form can have other nodes in its roles. -/
theorem exists_of_match {f : Form} (h : RolesMatch S f.roles rs) :
    ∃ g : Form, g.bare = f.bare ∧ g.roles = rs := by
  refine ⟨f.bare.fillAll rs, ?_, roles_fillAll h⟩
  rw [bare_fillAll, bare_bare]

end Form

end

namespace Build

open TeachLang.Tree

/-- Whatever forest the node is copied to, the copy comes behind the nodes there and looks the
same. -/
def Copies (s : Tree) (bound : Nat) (id : NodeId) : Prop :=
  ∀ t, Forest t → ∃ u, (copyWithin s bound id).run t = (.ok t.size, u) ∧ u.root = t.root ∧
    s.Resembles u Eq bound id t.size

variable {s t u : Tree} {bound : Nat}

theorem obstacle?_copy {p : NodeId} {slot : Slot} {n : Node} (ht : Forest t)
    (hp : t.get? p = some n) (hparentless : n.parent = none) (hslot : n.form.slot? slot = some none)
    (hu : Copied t u t.size) (hroot : u.root = t.root) :
    u.obstacle? p slot t.size = none := by
  have hlt : p < t.size := (contains_iff_lt p).1 ((t.contains_iff p).2 ⟨n, hp⟩)
  have hfree : u.Free t.size := by
    refine ⟨(contains_iff_lt _).2 hu.size_lt, hu.parentless, ?_⟩
    rw [hroot]
    intro h
    have hcontains := (ht.root_parentless _ h).1
    rw [contains_iff_lt] at hcontains
    exact Nat.lt_irrefl _ hcontains
  have hp' : u.get? p = some n := by rw [hu.old p hlt, hp]
  exact obstacle?_eq_none hp' hparentless hslot hfree (Nat.ne_of_gt hlt)

/-- A node other than `p` stays as it is, but for its parent, when children are copied for `p`. -/
theorem copyRoles_stays {p k : NodeId} {slot : Slot} {rs : List (Slot × Option NodeId)} {v : Tree}
    (hp : p < u.size)
    (hrun : (copyRoles (copyWithin s bound) p rs).run (u.link p slot k) = (.ok (), v))
    {l : NodeId} {n : Node} (hl : l ≠ p) (hn : u.get? l = some n) :
    ∃ m, v.get? l = some m ∧ m.form = n.form ∧ m.span = n.span := by
  have hlt : p < (u.link p slot k).size := by rwa [size_link]
  obtain ⟨_, _, hget⟩ := copyRoles_frame (fun id t k u => copyWithin_frame s bound id) p rs hlt hrun
  have hcontains : l < (u.link p slot k).size := by
    rw [size_link]
    exact (contains_iff_lt l).1 ((u.contains_iff l).2 ⟨n, hn⟩)
  rw [hget l hcontains hl, get?_link, hn]
  exact ⟨_, rfl, if_neg hl.symm, rfl⟩

/-- What hangs from a node that is no ancestor of `p` stays as it is when children are copied for
`p`. -/
theorem Copied.frame {p k : NodeId} {slot : Slot} {c : NodeId} {rs : List (Slot × Option NodeId)}
    {v : Tree} (hu : Forest u) (hp : p < u.size) (hparentless : u.parent? p = none) (hk : k ≠ p)
    (hrun : (copyRoles (copyWithin s bound) p rs).run (u.link p slot k) = (.ok (), v))
    (h : s.Resembles u Eq bound c k) : s.Resembles v Eq bound c k := by
  apply h.frame (K := (· ≠ p)) _ _ hk
  · intro l n _ hn d hd hdp
    have hparent := hu.parent?_of_mem hn hd
    rw [hdp, hparentless] at hparent
    cases hparent
  · exact fun l n hl hn => copyRoles_stays hp hrun hl hn

theorem run_copyRoles {p : NodeId} {n : Node} {rs : List (Slot × Option NodeId)}
    (hcopies : ∀ c ∈ rs.filterMap Prod.snd, Copies s bound c) (ht : Forest t)
    (hp : t.get? p = some n) (hparentless : n.parent = none)
    (hfits : ∀ rs', RolesMatch (fun _ _ => True) rs rs' → n.form.Fits rs') :
    ∃ u rs', (copyRoles (copyWithin s bound) p rs).run t = (.ok (), u) ∧ u.root = t.root ∧
      u.get? p = some { n with form := n.form.fillAll rs' } ∧
      RolesMatch (s.Resembles u Eq bound) rs rs' := by
  induction rs generalizing t n with
  | nil => exact ⟨t, [], rfl, rfl, hp, .nil⟩
  | cons r rs ih =>
    obtain ⟨slot, o⟩ := r
    cases o with
    | none =>
      have hfits' : ∀ rs', RolesMatch (fun _ _ => True) rs rs' → n.form.Fits rs' :=
        fun rs' h => hfits ((slot, none) :: rs') (.cons ⟨rfl, .none⟩ h)
      obtain ⟨u, rs', hrun, hroot, hget, hmatch⟩ := ih hcopies ht hp hparentless hfits'
      exact ⟨u, (slot, none) :: rs', hrun, hroot, hget, .cons ⟨rfl, .none⟩ hmatch⟩
    | some c =>
      obtain ⟨t₁, hcopy, hroot₁, hlooks⟩ := hcopies c List.mem_cons_self t ht
      have hcopied := copyWithin_frame s bound c hcopy
      have hsteps := proceeds_copyWithin s bound c t
      rw [hcopy] at hsteps
      have ht₁ : Forest t₁ := ht.steps hsteps
      have hpt : p < t.size := (contains_iff_lt p).1 ((t.contains_iff p).2 ⟨n, hp⟩)
      have hp₁ : t₁.get? p = some n := by rw [hcopied.old p hpt, hp]
      have hne : t.size ≠ p := Nat.ne_of_gt hpt
      have hfilled : ∀ rs', RolesMatch (fun _ _ => True) rs rs' →
          n.form.slot? slot = some none ∧ (n.form.fill slot t.size).Fits rs' :=
        fun rs' h => hfits ((slot, some t.size) :: rs') (.cons ⟨rfl, .some trivial⟩ h)
      -- Whether a role is vacant does not depend on the nodes that come to stand in the others.
      have hslot : n.form.slot? slot = some none :=
        (hfilled rs (rolesMatch_self (fun _ => trivial) rs)).1
      have hobstacle := obstacle?_copy ht hp hparentless hslot hcopied hroot₁
      have hp₂ : (t₁.link p slot t.size).get? p =
          some { n with form := n.form.fill slot t.size } := by
        rw [get?_link, hp₁]
        simp [hne]
      obtain ⟨u, rs', hrun, hroot, hget, hmatch⟩ :=
        ih (fun d hd => hcopies d (List.mem_cons_of_mem c hd)) (ht₁.link hobstacle) hp₂ hparentless
          (fun rs' h => (hfilled rs' h).2)
      refine ⟨u, (slot, some t.size) :: rs', ?_, hroot.trans hroot₁, hget, ?_⟩
      · simp only [copyRoles, run_bind_eq_ok]
        exact ⟨t.size, t₁, hcopy, (), _, run_attach_eq_ok.2 ⟨hobstacle, rfl⟩, hrun⟩
      · have hparent : t₁.parent? p = none := by
          rw [parent?, hp₁, Option.bind_some, hparentless]
        have hpt₁ : p < t₁.size := Nat.lt_trans hpt hcopied.size_lt
        exact .cons ⟨rfl, .some (Copied.frame ht₁ hpt₁ hparent hne hrun hlooks)⟩ hmatch

theorem copies_succ {id : NodeId} {n : Node} (hn : s.get? id = some n)
    (hcopies : ∀ c ∈ n.form.children, Copies s bound c) : Copies s (bound + 1) id := by
  intro t ht
  have ht₁ : Forest (t.add { form := n.form.bare, span := n.span }) := ht.add rfl n.form.bare_bare
  have hp : (t.add { form := n.form.bare, span := n.span }).get? t.size =
      some { form := n.form.bare, span := n.span } := by
    rw [get?_add, if_pos rfl]
  have hfits : ∀ rs', RolesMatch (fun _ _ => True) n.form.roles rs' → n.form.bare.Fits rs' := by
    intro rs' h
    obtain ⟨g, hbare, rfl⟩ := Form.exists_of_match h
    rw [← hbare]
    exact g.fits_roles
  obtain ⟨u, rs', hrun, hroot, hget, hmatch⟩ := run_copyRoles hcopies ht₁ hp rfl hfits
  refine ⟨u, ?_, hroot, n, _, hn, hget, rfl, Form.matches_iff.2 ?_⟩
  · simp only [copyWithin, run_bind_eq_ok, run_liftM_eq_ok, run_push_eq_ok, run_pure_eq_ok]
    exact ⟨n, t, ⟨(s.find_eq_ok).2 hn, rfl⟩, t.size, _, ⟨rfl, rfl⟩, (), u, hrun, rfl, rfl⟩
  · obtain ⟨g, hbare, rfl⟩ := Form.exists_of_match hmatch
    dsimp only
    rw [← hbare, g.fillAll_roles, Form.rename_id]
    exact ⟨rfl, hmatch⟩

/-- Every node of a forest can be copied. -/
theorem copies_of_forest (hs : Forest s) {id : NodeId} (hid : s.contains id = true) :
    Copies s s.size id :=
  hs.descend (motive := Copies s) (fun _ _ _ hn => copies_succ hn) hid

end Build

namespace Tree

variable {t : Tree}

/-- Copying what hangs from the root does not fail, and the copy looks the same from there on. -/
theorem duplicate_of_forest (ht : Forest t) : t.duplicate = .ok t.clone ∧
    Option.Rel (fun k k' => ∃ bound, t.Resembles t.clone Eq bound k k') t.root t.clone.root := by
  unfold duplicate clone
  cases hroot : t.root with
  | none => exact ⟨rfl, .none⟩
  | some root =>
    obtain ⟨u, hrun, -, hlooks⟩ :=
      Build.copies_of_forest ht (ht.root_parentless root hroot).1 {} forest_empty
    have hcopy : (Build.copy t root).run {} = (.ok 0, u) := hrun
    simp only [copySubtree, hcopy]
    refine ⟨trivial, .some ⟨t.size, ?_⟩⟩
    exact hlooks.frame (K := fun _ => True) (fun _ _ _ _ _ _ => trivial)
      (fun k n _ hn => ⟨n, hn, rfl, rfl⟩) trivial

end Tree

end TeachLang
