import TeachLang.Proofs.Roles
import TeachLang.Tree
import Mathlib.Data.List.Perm.Subperm
import Mathlib.Logic.Relation
import Mathlib.Order.RelClasses

/-!
# Trees as forests

A tree is a `Forest` when its two records of a link agree, in the roles of the parent and in the
child, no node hangs from two places, and no chain of parents goes on for ever. In a forest the
bounded search for the topmost ancestor finds it, so the test for a cycle is exact. Adding a node
with no role filled, attaching where nothing stands in the way, moving a span and choosing a root
keep a tree a forest.
-/

namespace TeachLang.Tree

/-- The child `c` stands at place `i` among the roles of `p`. -/
def Holds (t : Tree) (p : NodeId) (i : Nat) (c : NodeId) : Prop :=
  ∃ n s, t.get? p = some n ∧ n.form.roles[i]? = some (s, some c)

structure Forest (t : Tree) : Prop where
  contained : ∀ p i c, t.Holds p i c → t.contains c = true
  parent_iff : ∀ c p, t.parent? c = some p ↔ ∃ i, t.Holds p i c
  unique : ∀ p i q j c, t.Holds p i c → t.Holds q j c → p = q ∧ i = j
  acyclic : WellFounded fun up id => t.parent? id = some up
  root_parentless : ∀ r, t.root = some r → t.contains r = true ∧ t.parent? r = none

variable {t u : Tree}

theorem contains_of_parent? {c p : NodeId} (h : t.parent? c = some p) : t.contains c = true := by
  obtain ⟨n, hn, _⟩ := Option.bind_eq_some_iff.1 h
  exact (t.contains_iff c).2 ⟨n, hn⟩

theorem holds_iff {p c : NodeId} {i : Nat} {n : Node} (hp : t.get? p = some n) :
    t.Holds p i c ↔ ∃ s, n.form.roles[i]? = some (s, some c) := by
  simp [Holds, hp]

theorem contains_of_holds {p c : NodeId} {i : Nat} (h : t.Holds p i c) : t.contains p = true := by
  obtain ⟨n, _, hn, _⟩ := h
  exact (t.contains_iff p).2 ⟨n, hn⟩

theorem not_contains_size : t.get? t.size = none := by simp [get?]

theorem contains_iff_lt (id : NodeId) : t.contains id = true ↔ id < t.size := by simp [contains]

theorem ext_get? (hget : ∀ k, t.get? k = u.get? k) (hroot : t.root = u.root) : t = u := by
  obtain ⟨nodes, root⟩ := t
  obtain ⟨nodes', root'⟩ := u
  obtain rfl : nodes = nodes' := Array.ext_getElem? hget
  obtain rfl : root = root' := hroot
  rfl

/-- What is a forest depends on the links and the root alone. -/
theorem Forest.congr (hf : Forest t) (hcontains : ∀ k, t.contains k = true → u.contains k = true)
    (hparent : ∀ k, u.parent? k = t.parent? k) (hholds : ∀ p i c, u.Holds p i c ↔ t.Holds p i c)
    (hroot : u.root = t.root) : Forest u where
  contained p i c h := hcontains c (hf.contained p i c ((hholds p i c).1 h))
  parent_iff c p := by simp only [hparent, hholds, hf.parent_iff]
  unique p i q j c hp hq := hf.unique p i q j c ((hholds p i c).1 hp) ((hholds q j c).1 hq)
  acyclic := by simpa only [hparent] using hf.acyclic
  root_parentless r hr := by
    obtain ⟨hc, hp⟩ := hf.root_parentless r (hroot ▸ hr)
    exact ⟨hcontains r hc, (hparent r).trans hp⟩

theorem forest_empty : Forest {} where
  contained p i c h := by simpa [contains, size] using contains_of_holds h
  parent_iff c p := by
    constructor
    · intro h
      simpa [contains, size] using contains_of_parent? h
    · rintro ⟨i, h⟩
      simpa [contains, size] using contains_of_holds h
  unique p i q j c h _ := by simpa [contains, size] using contains_of_holds h
  acyclic := ⟨fun id => ⟨id, fun up h => by simpa [contains, size] using contains_of_parent? h⟩⟩
  root_parentless r h := by cases h

/-! ### The topmost ancestor -/

/-- `a` is `id` or stands above it. -/
def Above (t : Tree) (a id : NodeId) : Prop := Relation.ReflTransGen (t.parent? · = some ·) id a

theorem Above.of_parent {a id p : NodeId} (h : t.Above a p) (hp : t.parent? id = some p) :
    t.Above a id := Relation.ReflTransGen.head hp h

theorem Above.contains_below {a id : NodeId} (h : t.Above a id) (ha : t.contains a = true) :
    t.contains id = true := by
  rcases Relation.ReflTransGen.cases_head h with rfl | ⟨up, hup, -⟩
  · exact ha
  · exact contains_of_parent? hup

/-- Only one node above a node has no parent. -/
theorem Above.eq_of_parentless {a b id : NodeId} (ha : t.Above a id) (hb : t.Above b id)
    (hpa : t.parent? a = none) (hpb : t.parent? b = none) : a = b := by
  induction ha using Relation.ReflTransGen.head_induction_on with
  | refl =>
    rcases Relation.ReflTransGen.cases_head hb with rfl | ⟨p, hp, _⟩
    · rfl
    · simp [hpa] at hp
  | head hp _ ih =>
    rcases Relation.ReflTransGen.cases_head hb with rfl | ⟨q, hq, hqb⟩
    · simp [hpb] at hp
    · obtain rfl : _ = q := Option.some.inj (hp.symm.trans hq)
      exact ih hqb

theorem above_topWithin (bound : Nat) (id : NodeId) : t.Above (t.topWithin bound id) id := by
  induction bound generalizing id with
  | zero => exact .refl
  | succ bound ih =>
    unfold topWithin
    cases hp : t.parent? id with
    | none => exact .refl
    | some up => exact (ih up).of_parent hp

def StrictlyAbove (t : Tree) (a id : NodeId) : Prop :=
  Relation.TransGen (fun up id => t.parent? id = some up) a id

theorem Forest.not_strictlyAbove_self (hf : Forest t) (id : NodeId) : ¬ t.StrictlyAbove id id :=
  fun h => hf.acyclic.transGen.asymmetric id id h h

theorem length_le_size {ks : List NodeId} (hnodup : ks.Nodup)
    (hcontained : ∀ k ∈ ks, t.contains k = true) : ks.length ≤ t.size := by
  have hsub : ks ⊆ List.range t.size := by
    intro k hk
    rw [List.mem_range, ← contains_iff_lt]
    exact hcontained k hk
  have hle := (List.subperm_of_subset hnodup hsub).length_le
  rwa [List.length_range] at hle

/-- Along a chain of parents no node comes twice, so a chain that has met as many nodes as there are
has ended. -/
theorem Forest.parent?_topWithin (hf : Forest t) (bound : Nat) (id : NodeId) (below : List NodeId)
    (hnodup : below.Nodup) (hcontained : ∀ k ∈ below, t.contains k = true)
    (hbelow : ∀ k ∈ below, t.StrictlyAbove id k)
    (hbound : t.size ≤ below.length + bound) : t.parent? (t.topWithin bound id) = none := by
  induction bound generalizing id below with
  | zero =>
    by_contra hne
    obtain ⟨up, hup⟩ := Option.ne_none_iff_exists'.1 hne
    have hfresh : id ∉ below := fun hmem => hf.not_strictlyAbove_self id (hbelow id hmem)
    have hle := length_le_size (List.nodup_cons.2 ⟨hfresh, hnodup⟩)
      (List.forall_mem_cons.2 ⟨contains_of_parent? hup, hcontained⟩)
    rw [List.length_cons] at hle
    omega
  | succ bound ih =>
    unfold topWithin
    cases hp : t.parent? id with
    | none => exact hp
    | some up =>
      have hfresh : id ∉ below := fun hmem => hf.not_strictlyAbove_self id (hbelow id hmem)
      refine ih up (id :: below) (List.nodup_cons.2 ⟨hfresh, hnodup⟩) ?_ ?_ ?_
      · exact List.forall_mem_cons.2 ⟨contains_of_parent? hp, hcontained⟩
      · intro k hk
        rcases List.mem_cons.1 hk with rfl | hk
        · exact .single hp
        · exact .head hp (hbelow k hk)
      · rw [List.length_cons]
        omega

theorem Forest.parent?_top (hf : Forest t) (id : NodeId) : t.parent? (t.top id) = none :=
  hf.parent?_topWithin t.size id [] List.nodup_nil (by simp) (by simp) (by simp)

/-- The test for a cycle is exact. -/
theorem Forest.top_eq_iff (hf : Forest t) {p c : NodeId} (hc : t.parent? c = none) :
    t.top p = c ↔ t.Above c p := by
  constructor
  · rintro rfl
    exact above_topWithin t.size p
  · intro h
    exact (above_topWithin t.size p).eq_of_parentless h (hf.parent?_top p) hc

/-! ### The way down -/

theorem Forest.parent?_of_mem (hf : Forest t) {id c : NodeId} {n : Node} (hn : t.get? id = some n)
    (hc : c ∈ n.form.children) : t.parent? c = some id := by
  obtain ⟨⟨s, o⟩, hmem, rfl⟩ := List.mem_filterMap.1 hc
  obtain ⟨i, hi⟩ := List.getElem?_of_mem hmem
  exact (hf.parent_iff c id).2 ⟨i, n, s, hn, hi⟩

/-- A recursion to the children that is bounded by the number of nodes comes to the leaves before
its bound is used up. -/
theorem Forest.descend (hf : Forest t) {motive : Nat → NodeId → Prop}
    (step : ∀ bound id n, t.get? id = some n → (∀ c ∈ n.form.children, motive bound c) →
      motive (bound + 1) id) {id : NodeId} (h : t.contains id = true) : motive t.size id := by
  have hdown : ∀ bound id (above : List NodeId), above.Nodup → t.contains id = true →
      (∀ k ∈ above, t.contains k = true) → (∀ k ∈ above, t.StrictlyAbove k id) →
      t.size ≤ above.length + bound → motive bound id := by
    intro bound
    induction bound with
    | zero =>
      intro id above hnodup hid hcontained habove hbound
      have hfresh : id ∉ above := fun hmem => hf.not_strictlyAbove_self id (habove id hmem)
      have hle := length_le_size (List.nodup_cons.2 ⟨hfresh, hnodup⟩)
        (List.forall_mem_cons.2 ⟨hid, hcontained⟩)
      rw [List.length_cons] at hle
      omega
    | succ bound ih =>
      intro id above hnodup hid hcontained habove hbound
      obtain ⟨n, hn⟩ := (t.contains_iff id).1 hid
      have hfresh : id ∉ above := fun hmem => hf.not_strictlyAbove_self id (habove id hmem)
      refine step bound id n hn fun c hc => ?_
      have hparent := hf.parent?_of_mem hn hc
      refine ih c (id :: above) (List.nodup_cons.2 ⟨hfresh, hnodup⟩) (contains_of_parent? hparent)
        (List.forall_mem_cons.2 ⟨hid, hcontained⟩) ?_ ?_
      · exact List.forall_mem_cons.2 ⟨.single hparent, fun k hk => .tail (habove k hk) hparent⟩
      · rw [List.length_cons]
        omega
  exact hdown t.size id [] List.nodup_nil h (by simp) (by simp) (by simp)

/-! ### Changes that keep a forest -/

/-- What there is to attach: a vacant role, and a node that is free and not above it. -/
theorem obstacle?_eq_none_iff {p c : NodeId} {s : Slot} :
    t.obstacle? p s c = none ↔ ∃ n m, t.get? p = some n ∧ t.get? c = some m ∧ m.parent = none ∧
      t.root ≠ some c ∧ t.top p ≠ c ∧ n.form.slot? s = some none := by
  unfold obstacle?
  cases hp : t.get? p with
  | none => simp
  | some n =>
    cases hc : t.get? c with
    | none => simp
    | some m =>
      simp only [Option.some.injEq, exists_and_left, exists_eq_left']
      cases m.parent with
      | some q => simp
      | none =>
        by_cases hr : t.root = some c
        · simp [hr]
        · by_cases ht : t.top p = c
          · simp [hr, ht]
          · rcases n.form.slot? s with _ | _ | _ <;> simp [hr, ht]

theorem get?_link (p : NodeId) (s : Slot) (c k : NodeId) :
    (t.link p s c).get? k = (t.get? k).map fun n =>
      { n with
        form := if p = k then n.form.fill s c else n.form
        parent := if c = k then some p else n.parent } := by
  unfold link
  rw [get?_setParent, get?_setForm, Option.map_map]
  congr 1
  funext n
  by_cases hp : p = k <;> by_cases hc : c = k <;> simp [hp, hc]

theorem parent?_link {p c : NodeId} {s : Slot} (hc : t.contains c = true) (k : NodeId) :
    (t.link p s c).parent? k = if c = k then some p else t.parent? k := by
  unfold parent?
  rw [get?_link]
  by_cases hck : c = k
  · obtain ⟨m, hm⟩ := (t.contains_iff c).1 hc
    simp [← hck, hm]
  · cases t.get? k <;> simp [hck]

theorem holds_link {p c : NodeId} {s : Slot} {n : Node} (hp : t.get? p = some n)
    (hs : n.form.slot? s = some none) (q : NodeId) (i : Nat) (k : NodeId) :
    (t.link p s c).Holds q i k ↔ t.Holds q i k ∨ q = p ∧ i = n.form.place s ∧ k = c := by
  by_cases hqp : q = p
  · subst hqp
    have hlinked := get?_link (t := t) q s c q
    rw [hp, Option.map_some, if_pos rfl] at hlinked
    rw [holds_iff hlinked, holds_iff hp]
    simp only [Form.roles_fill hs]
    by_cases hi : i = n.form.place s
    · subst hi
      simp [n.form.place_vacant, eq_comm]
    · simp [hi]
  · unfold Holds
    rw [get?_link]
    cases t.get? q <;> simp [hqp, Ne.symm hqp]

theorem acyclic_link {p c : NodeId} {s : Slot}
    (hacyclic : WellFounded fun up id => t.parent? id = some up) (hc : t.contains c = true)
    (hnotAbove : ¬ t.Above c p) :
    WellFounded fun up id => (t.link p s c).parent? id = some up := by
  -- Nodes not below `c` keep their chains: so `p` is accessible, and with it `c` and all else.
  have hother : ∀ k, ¬ t.Above c k →
      Acc (fun up id => (t.link p s c).parent? id = some up) k := by
    intro k
    induction k using hacyclic.induction with
    | _ k ih =>
      intro hk
      refine ⟨k, fun up hup => ?_⟩
      rw [parent?_link hc, if_neg (fun he : c = k => hk (he ▸ .refl))] at hup
      exact ih up hup fun ha => hk (ha.of_parent hup)
  refine ⟨fun k => ?_⟩
  induction k using hacyclic.induction with
  | _ k ih =>
    refine ⟨k, fun up hup => ?_⟩
    rw [parent?_link hc] at hup
    by_cases hk : c = k
    · rw [if_pos hk] at hup
      exact Option.some.inj hup ▸ hother p hnotAbove
    · rw [if_neg hk] at hup
      exact ih up hup

theorem Forest.link (hf : Forest t) {p c : NodeId} {s : Slot} (h : t.obstacle? p s c = none) :
    Forest (t.link p s c) := by
  obtain ⟨n, m, hp, hc, hfree, hroot, htop, hs⟩ := obstacle?_eq_none_iff.1 h
  have hcontained : t.contains c = true := (t.contains_iff c).2 ⟨m, hc⟩
  have hparentless : t.parent? c = none := by simp [parent?, hc, hfree]
  have hunheld : ∀ q i, ¬ t.Holds q i c := by
    intro q i hq
    have := (hf.parent_iff c q).2 ⟨i, hq⟩
    simp [hparentless] at this
  have hnotAbove : ¬ t.Above c p := fun ha => htop ((hf.top_eq_iff hparentless).2 ha)
  refine ⟨?_, ?_, ?_, ?_, ?_⟩
  · intro q i k hk
    rw [contains_iff_lt, size_link, ← contains_iff_lt]
    rcases (holds_link hp hs q i k).1 hk with hk | ⟨_, _, rfl⟩
    · exact hf.contained q i k hk
    · exact hcontained
  · intro k q
    rw [parent?_link hcontained]
    simp only [holds_link hp hs]
    by_cases hk : c = k
    · subst hk
      rw [if_pos rfl]
      constructor
      · intro hq
        exact ⟨n.form.place s, .inr ⟨(Option.some.inj hq).symm, rfl, rfl⟩⟩
      · rintro ⟨i, hq | ⟨rfl, _, _⟩⟩
        · exact absurd hq (hunheld q i)
        · rfl
    · rw [if_neg hk, hf.parent_iff]
      exact exists_congr fun i => ⟨.inl, fun hq => hq.resolve_right fun hq => hk hq.2.2.symm⟩
  · intro q i q' j k hq hq'
    rcases (holds_link hp hs q i k).1 hq with hq | ⟨hqp, hi, rfl⟩ <;>
      rcases (holds_link hp hs q' j k).1 hq' with hq' | ⟨hqp', hj, hk⟩
    · exact hf.unique q i q' j k hq hq'
    · exact absurd (hk ▸ hq) (hunheld q i)
    · exact absurd hq' (hunheld q' j)
    · exact ⟨hqp.trans hqp'.symm, hi.trans hj.symm⟩
  · exact acyclic_link hf.acyclic hcontained hnotAbove
  · intro r hr
    obtain ⟨hrc, hrp⟩ := hf.root_parentless r hr
    refine ⟨?_, ?_⟩
    · rwa [contains_iff_lt, size_link, ← contains_iff_lt]
    · rw [parent?_link hcontained, if_neg (fun he : c = r => hroot (he ▸ hr)), hrp]

theorem parent?_add {n : Node} (hn : n.parent = none) (k : NodeId) :
    (t.add n).parent? k = t.parent? k := by
  unfold parent?
  rw [get?_add]
  split
  · next hk => simp [hk, hn, not_contains_size]
  · rfl

theorem holds_add {n : Node} (hn : n.form.bare = n.form) (p : NodeId)
    (i : Nat) (c : NodeId) : (t.add n).Holds p i c ↔ t.Holds p i c := by
  unfold Holds
  rw [get?_add]
  split
  · next hp =>
    have hvacant := n.form.roles_bare i
    rw [hn] at hvacant
    simp [hp, hvacant, not_contains_size]
  · rfl

theorem Forest.add (hf : Forest t) {n : Node} (hparent : n.parent = none)
    (hbare : n.form.bare = n.form) : Forest (t.add n) := by
  refine hf.congr ?_ (parent?_add hparent) (holds_add hbare) rfl
  intro k hk
  rw [contains_iff_lt] at hk ⊢
  rw [size_add]
  exact Nat.lt_succ_of_lt hk

theorem Forest.setRoot (hf : Forest t) {id : NodeId} (hc : t.contains id = true)
    (hp : t.parent? id = none) : Forest { t with root := some id } where
  contained := hf.contained
  parent_iff := hf.parent_iff
  unique := hf.unique
  acyclic := hf.acyclic
  root_parentless _ hr := Option.some.inj hr ▸ ⟨hc, hp⟩

end TeachLang.Tree
