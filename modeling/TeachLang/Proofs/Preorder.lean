import Mathlib.Data.List.Nodup
import TeachLang.Proofs.Forest
import TeachLang.Tree.Walk

/-!
# The nodes of a subtree

In a forest the walk from a node comes to an end. It meets the nodes that the node stands above,
itself among them, and each of them once.
-/

namespace TeachLang

theorem mapM_eq_ok {ε α β : Type} {f : α → Except ε β} {g : α → β} {as : List α}
    (h : ∀ a ∈ as, f a = .ok (g a)) : as.mapM f = .ok (as.map g) := by
  induction as with
  | nil => rfl
  | cons a as ih =>
    rw [List.mapM_cons, h a List.mem_cons_self, ih fun b hb => h b (List.mem_cons_of_mem a hb)]
    rfl

namespace Tree

variable {t : Tree} {id k : NodeId} {n : Node}

theorem preorderWithin_succ {bound : Nat} {below : NodeId → List NodeId} (hn : t.get? id = some n)
    (hbelow : ∀ c ∈ n.form.children, t.preorderWithin bound c = .ok (below c)) :
    t.preorderWithin (bound + 1) id = .ok (id :: n.form.children.flatMap below) := by
  rw [preorderWithin, (t.find_eq_ok).2 hn]
  change (do return id :: (← n.form.children.mapM (t.preorderWithin bound)).flatten) = _
  rw [mapM_eq_ok hbelow]
  rfl

/-! ### Children and siblings -/

theorem Above.trans {a b : NodeId} (h : t.Above a b) (h' : t.Above b id) : t.Above a id :=
  Relation.ReflTransGen.trans h' h

namespace Forest

variable (hf : Forest t)
include hf

theorem mem_children_iff (hn : t.get? id = some n) {c : NodeId} :
    c ∈ n.form.children ↔ t.parent? c = some id := by
  constructor
  · exact hf.parent?_of_mem hn
  · intro hc
    obtain ⟨i, _, s, hn', hi⟩ := (hf.parent_iff c id).1 hc
    cases hn.symm.trans hn'
    exact List.mem_filterMap.2 ⟨(s, some c), List.mem_of_getElem? hi, rfl⟩

/-- No node is held at two places. -/
theorem nodup_children (hn : t.get? id = some n) : n.form.children.Nodup := by
  unfold Form.children List.Nodup
  rw [List.pairwise_filterMap, List.pairwise_iff_getElem]
  rintro i j hi hj hlt c hc _ hd rfl
  have hholds : ∀ l (hl : l < n.form.roles.length), n.form.roles[l].2 = some c →
      t.Holds id l c := by
    intro l hl hrole
    refine ⟨n, n.form.roles[l].1, hn, ?_⟩
    rw [List.getElem?_eq_getElem hl, ← hrole]
  have heq := (hf.unique id i id j c (hholds i hi hc) (hholds j hj hd)).2
  exact Nat.ne_of_lt hlt heq

theorem above_iff (hn : t.get? id = some n) :
    t.Above id k ↔ k = id ∨ ∃ c ∈ n.form.children, t.Above c k := by
  constructor
  · intro h
    rcases Relation.ReflTransGen.cases_tail h with rfl | ⟨c, hc, hparent⟩
    · exact .inl rfl
    · exact .inr ⟨c, (hf.mem_children_iff hn).2 hparent, hc⟩
  · rintro (rfl | ⟨c, hc, habove⟩)
    · exact .refl
    · exact .tail habove ((hf.mem_children_iff hn).1 hc)

/-- A node does not stand below its own child. -/
theorem not_above_of_mem (hn : t.get? id = some n) {c : NodeId} (hc : c ∈ n.form.children) :
    ¬ t.Above c id := by
  intro h
  have hparent := (hf.mem_children_iff hn).1 hc
  exact hf.not_strictlyAbove_self c (Relation.transGen_swap.2 (.head' hparent h))

/-- Of two siblings neither stands above the other, so nothing hangs from both. -/
theorem eq_of_above (hn : t.get? id = some n) {c d : NodeId} (hc : c ∈ n.form.children)
    (hd : d ∈ n.form.children) (hck : t.Above c k) (hdk : t.Above d k) : c = d := by
  have hside : ∀ {a b}, a ∈ n.form.children → b ∈ n.form.children → t.Above b a → a = b := by
    intro a b ha hb h
    rcases Relation.ReflTransGen.cases_head h with rfl | ⟨up, hup, habove⟩
    · rfl
    · cases ((hf.mem_children_iff hn).1 ha).symm.trans hup
      exact absurd habove (hf.not_above_of_mem hn hb)
  have hunique : Relator.RightUnique (t.parent? · = some ·) := by
    intro a b b' hb hb'
    exact Option.some.inj (hb.symm.trans hb')
  rcases Relation.ReflTransGen.total_of_right_unique hunique hck hdk with h | h
  · exact hside hc hd h
  · exact (hside hd hc h).symm

end Forest

/-! ### The walk -/

/-- The list begins with the node, and has in it what hangs from the node, each node once. -/
structure Lists (t : Tree) (id : NodeId) (ids : List NodeId) : Prop where
  head : ids[0]? = some id
  nodup : ids.Nodup
  mem_iff : ∀ k, k ∈ ids ↔ t.Above id k

theorem Forest.lists (hf : Forest t) (hn : t.get? id = some n) {below : NodeId → List NodeId}
    (hbelow : ∀ c ∈ n.form.children, t.Lists c (below c)) :
    t.Lists id (id :: n.form.children.flatMap below) where
  head := rfl
  nodup := by
    rw [List.nodup_cons, List.nodup_flatMap, List.mem_flatMap]
    refine ⟨?_, fun c hc => (hbelow c hc).nodup, ?_⟩
    · rintro ⟨c, hc, hmem⟩
      exact hf.not_above_of_mem hn hc (((hbelow c hc).mem_iff id).1 hmem)
    · refine (hf.nodup_children hn).imp_of_mem fun {c d} hc hd hne k hkc hkd => hne ?_
      exact hf.eq_of_above hn hc hd (((hbelow c hc).mem_iff k).1 hkc)
        (((hbelow d hd).mem_iff k).1 hkd)
  mem_iff k := by
    rw [List.mem_cons, List.mem_flatMap, hf.above_iff hn]
    exact or_congr_right (exists_congr fun c => and_congr_right fun hc => (hbelow c hc).mem_iff k)

/-- The walk from a node of a forest ends. -/
theorem Forest.exists_preorder (hf : Forest t) (h : t.contains id = true) :
    ∃ ids, t.preorder id = .ok ids ∧ t.Lists id ids := by
  refine hf.descend (motive := fun bound id => ∃ ids, t.preorderWithin bound id = .ok ids ∧
    t.Lists id ids) (fun bound id n hn hchildren => ?_) h
  choose! below hpreorder hlists using hchildren
  exact ⟨_, preorderWithin_succ hn hpreorder, hf.lists hn hlists⟩

theorem reachable_of_preorder {root : NodeId} {ids : List NodeId} (hroot : t.root = some root)
    (h : t.preorder root = .ok ids) : t.reachable = ids := by
  simp only [reachable, hroot, h]
  rfl

theorem reachable_of_rootless (h : t.root = none) : t.reachable = [] := by
  rw [reachable, h]

theorem Forest.lists_reachable (hf : Forest t) {root : NodeId} (hroot : t.root = some root) :
    t.Lists root t.reachable := by
  obtain ⟨ids, hpreorder, hlists⟩ := hf.exists_preorder (hf.root_parentless root hroot).1
  rwa [reachable_of_preorder hroot hpreorder]

section Reachable

variable (hf : Forest t)
include hf

theorem Forest.mem_reachable_iff :
    k ∈ t.reachable ↔ ∃ root, t.root = some root ∧ t.Above root k := by
  cases hroot : t.root with
  | none => simp [reachable_of_rootless hroot]
  | some root => simp [(hf.lists_reachable hroot).mem_iff]

theorem Forest.nodup_reachable : t.reachable.Nodup := by
  cases hroot : t.root with
  | none =>
    rw [reachable_of_rootless hroot]
    exact List.nodup_nil
  | some root => exact (hf.lists_reachable hroot).nodup

theorem Forest.exists_of_mem_reachable (hk : k ∈ t.reachable) : ∃ n, t.get? k = some n := by
  obtain ⟨root, hroot, habove⟩ := hf.mem_reachable_iff.1 hk
  exact (t.contains_iff k).1 (habove.contains_below (hf.root_parentless root hroot).1)

theorem Forest.mem_reachable_of_parent? (hid : id ∈ t.reachable) (hk : t.parent? k = some id) :
    k ∈ t.reachable := by
  obtain ⟨root, hroot, habove⟩ := hf.mem_reachable_iff.1 hid
  exact hf.mem_reachable_iff.2 ⟨root, hroot, habove.of_parent hk⟩

end Reachable

/-- The walk from the root reaches the nodes whose topmost ancestor is the root. -/
theorem Forest.length_reachable_eq (hf : Forest t) {root : NodeId} (hroot : t.root = some root) :
    t.reachable.length = (List.range t.size).countP fun k => t.top k = root := by
  obtain ⟨hcontained, hparentless⟩ := hf.root_parentless root hroot
  have hlists := hf.lists_reachable hroot
  have hmem : ∀ k, k ∈ t.reachable ↔ k ∈ (List.range t.size).filter fun k => t.top k = root := by
    intro k
    rw [hlists.mem_iff, List.mem_filter, decide_eq_true_iff, hf.top_eq_iff hparentless,
      List.mem_range, ← contains_iff_lt, iff_and_self]
    exact fun habove => habove.contains_below hcontained
  have hperm := (List.perm_ext_iff_of_nodup hlists.nodup (List.nodup_range.filter _)).2 hmem
  rw [hperm.length_eq, List.countP_eq_length_filter]

end Tree

end TeachLang
