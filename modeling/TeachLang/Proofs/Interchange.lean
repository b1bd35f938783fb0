import TeachLang.Proofs.Attaching
import TeachLang.Proofs.Preorder

/-!
# Attaching in another order

Two attachments that succeed one after the other succeed in the other order too, and the tree is
the same, unless both put a statement behind those of one scope. For a link keeps what another
needs: the later one was possible before, and could the earlier one not be made after it, then the
two together would have closed a cycle. So any number of attachments may be made in any order that
keeps the statements of each scope in theirs, and the children of a node stand in the order of their
roles.
-/

namespace TeachLang

namespace Form

variable {f : Form} {r s : Slot} {c d : NodeId}

def childrenIn (f : Form) (s : Slot) : List NodeId :=
  f.roles.flatMap fun r => if r.1 = s then r.2.toList else []

theorem children_eq_flatMap (f : Form) : f.children = f.kind.slots.flatMap f.childrenIn := by
  cases f with
  | scope ss =>
    have hstatements : (scope ss).childrenIn .statement = (scope ss).children := by
      simp [childrenIn, children, roles, List.flatMap_map]
    rw [← hstatements]
    exact (List.append_nil _).symm
  | literal _ | reference _ => rfl
  | unary _ a | print a | declaration _ a | expression a | input a => cases a <;> rfl
  | arithmetic _ a b | logic _ a b | assign a b | whileLoop a b => cases a <;> cases b <;> rfl
  | ifElse a b c => cases a <;> cases b <;> cases c <;> rfl
  | forLoop a b c d => cases a <;> cases b <;> cases c <;> cases d <;> rfl

theorem childrenIn_fill (hs : f.slot? s = some none) (c : NodeId) (r : Slot) :
    (f.fill s c).childrenIn r = f.childrenIn r ++ if r = s then [c] else [] := by
  cases f with
  | scope ss =>
    cases s <;> cases hs
    cases r <;> simp [childrenIn, fill, roles]
  | _ =>
    cases s <;> simp only [slot?, reduceCtorEq, Option.some.injEq] at hs
    all_goals
      subst hs
      cases r <;> simp [childrenIn, fill, roles]

/-- A form with room for a statement has no other role. -/
theorem eq_statement (hs : f.slot? .statement = some none) (hr : f.slot? r = some none) :
    r = .statement := by
  cases f <;> cases hs
  cases r <;> first | rfl | cases hr

theorem mem_roles_fill (hs : f.slot? s = some none) :
    (r, some d) ∈ (f.fill s c).roles ↔ r = s ∧ d = c ∨ (r, some d) ∈ f.roles := by
  simp only [List.mem_iff_getElem?, roles_fill hs]
  constructor
  · rintro ⟨i, hi⟩
    by_cases h : i = f.place s
    · rw [if_pos h] at hi
      cases hi
      exact .inl ⟨rfl, rfl⟩
    · rw [if_neg h] at hi
      exact .inr ⟨i, hi⟩
  · rintro (⟨rfl, rfl⟩ | ⟨i, hi⟩)
    · exact ⟨_, if_pos rfl⟩
    · have h : i ≠ f.place s := by
        rintro rfl
        exact f.place_vacant s r d hi
      exact ⟨i, by rw [if_neg h, hi]⟩

/-- Of the other roles none becomes vacant or full when one is filled. -/
theorem slot?_fill_iff (hs : f.slot? s = some none) :
    (f.fill s c).slot? r = some none ↔ f.slot? r = some none ∧ (r = s → s = .statement) := by
  rw [slot?_eq_vacant_iff, slot?_eq_vacant_iff, kind_fill, and_assoc]
  refine and_congr_right fun _ => ?_
  unfold Vacant
  simp only [mem_roles_fill hs, not_or, forall_and]
  by_cases hstatement : r = .statement
  · simp [hstatement, eq_comm]
  · by_cases h : r = s
    · simp [← h, hstatement]
    · simp [h, hstatement]

/-- Two roles may be filled in either order. -/
theorem fill_comm (hs : f.slot? s = some none) (hr : f.slot? r = some none) (hne : r ≠ s)
    (c d : NodeId) : (f.fill s c).fill r d = (f.fill r d).fill s c := by
  have hs' : s ≠ .statement := by
    rintro rfl
    exact hne (eq_statement hs hr)
  have hr' : r ≠ .statement := by
    rintro rfl
    exact hne (eq_statement hr hs).symm
  have hrs := (slot?_fill_iff hs (c := c)).2 ⟨hr, fun h => absurd h hne⟩
  have hsr := (slot?_fill_iff hr (c := d)).2 ⟨hs, fun h => absurd h.symm hne⟩
  refine eq_of_roles (by simp only [bare_fill]) ?_
  rw [(gains_fill hrs d).roles_eq, (gains_fill hs c).roles_eq, (gains_fill hsr c).roles_eq,
    (gains_fill hr d).roles_eq]
  simp only [if_neg hs', if_neg hr', List.map_map]
  congr 1
  funext role
  by_cases h : role.1 = s
  · simp [h, hne.symm]
  · by_cases h' : role.1 = r <;> simp [h, h', hne]

end Form

/-! ### Two attachments -/

namespace Tree

variable {t : Tree} {p q c d a id : NodeId} {s r : Slot}

/-- A link under a node that had no parent lengthens the chains that end there. -/
theorem above_link (hc : t.contains c = true) (hfree : t.parent? c = none) :
    (t.link p s c).Above a id ↔ t.Above a id ∨ t.Above c id ∧ t.Above a p := by
  constructor
  · intro h
    induction h using Relation.ReflTransGen.head_induction_on with
    | refl => exact .inl .refl
    | @head id up hup _ ih =>
      rw [parent?_link hc] at hup
      by_cases hid : c = id
      · rw [if_pos hid] at hup
        obtain rfl : p = up := Option.some.inj hup
        exact .inr ⟨hid ▸ .refl, ih.elim (fun h => h) (·.2)⟩
      · rw [if_neg hid] at hup
        exact ih.imp (·.of_parent hup) fun h => ⟨h.1.of_parent hup, h.2⟩
  · have hkept : ∀ {a id}, t.Above a id → (t.link p s c).Above a id := by
      intro a id h
      refine Relation.ReflTransGen.mono (fun k up hup => ?_) _ _ h
      have hne : c ≠ k := by
        rintro rfl
        cases hfree.symm.trans hup
      rwa [parent?_link hc, if_neg hne]
    rintro (h | ⟨hid, hp⟩)
    · exact hkept h
    · have hlinked : (t.link p s c).parent? c = some p := by rw [parent?_link hc, if_pos rfl]
      exact ((hkept hp).of_parent hlinked).trans (hkept hid)

theorem free_link (hc : t.contains c = true) :
    (t.link p s c).Free d ↔ t.Free d ∧ c ≠ d := by
  have hcontains : (t.link p s c).contains d = t.contains d := by
    rw [contains, contains, size_link]
  have hparent := parent?_link (p := p) (s := s) hc d
  constructor
  · rintro ⟨hcontained, hfree, hroot⟩
    have hne : c ≠ d := by
      intro h
      rw [hparent, if_pos h] at hfree
      cases hfree
    rw [hparent, if_neg hne] at hfree
    exact ⟨⟨hcontains ▸ hcontained, hfree, hroot⟩, hne⟩
  · rintro ⟨⟨hcontained, hfree, hroot⟩, hne⟩
    refine ⟨hcontains.trans hcontained, ?_, hroot⟩
    rw [hparent, if_neg hne, hfree]

def Vacant (t : Tree) (p : NodeId) (s : Slot) : Prop :=
  ∃ n, t.get? p = some n ∧ n.form.slot? s = some none

theorem vacant_link (h : t.Vacant p s) :
    (t.link p s c).Vacant q r ↔ t.Vacant q r ∧ (p = q → r = s → s = .statement) := by
  unfold Vacant
  rw [get?_link]
  by_cases hpq : p = q
  · subst hpq
    obtain ⟨n, hn, hs⟩ := h
    simp [hn, Form.slot?_fill_iff hs]
  · cases t.get? q <;> simp [hpq]

theorem attachable_iff :
    t.Attachable p s c ↔ t.Free c ∧ ¬ t.Above c p ∧ t.Vacant p s := by
  have hvacant : (∃ n, t.get? p = some n ∧ s ∈ n.kind.slots ∧ n.form.Vacant s) ↔ t.Vacant p s :=
    exists_congr fun n => and_congr_right fun _ => Form.slot?_eq_vacant_iff.symm
  rw [← hvacant]
  exact ⟨fun ⟨hfree, hnot, hroom⟩ => ⟨hfree, hnot, hroom⟩,
    fun ⟨hfree, hnot, hroom⟩ => ⟨hfree, hnot, hroom⟩⟩

/-- What can be attached behind a link could be attached before it, and does not stand in the way of
it: neither are the two children one, nor would the two links close a cycle, nor is it the same
role that is filled. -/
theorem attachable_link (h : t.Attachable p s c) :
    (t.link p s c).Attachable q r d ↔ t.Attachable q r d ∧ c ≠ d ∧
      ¬ (t.Above c q ∧ t.Above d p) ∧ (p = q → r = s → s = .statement) := by
  obtain ⟨hfree, hnot, hroom⟩ := attachable_iff.1 h
  rw [attachable_iff, attachable_iff, free_link hfree.contained,
    above_link hfree.contained hfree.parentless, vacant_link hroom]
  tauto

theorem link_comm (hs : t.Vacant p s) (hr : t.Vacant q r) (hcd : c ≠ d)
    (hne : p = q → r ≠ s) : (t.link p s c).link q r d = (t.link q r d).link p s c := by
  refine ext_get? (fun k => ?_) rfl
  simp only [get?_link, Option.map_map]
  cases hn : t.get? k with
  | none => rfl
  | some n =>
    have hform : (if q = k then (if p = k then n.form.fill s c else n.form).fill r d
        else if p = k then n.form.fill s c else n.form) =
        if p = k then (if q = k then n.form.fill r d else n.form).fill s c
        else if q = k then n.form.fill r d else n.form := by
      by_cases hp : p = k
      · by_cases hq : q = k
        · obtain ⟨_, hn', hs⟩ := hs
          obtain ⟨_, hn'', hr⟩ := hr
          cases (hp ▸ hn').symm.trans hn
          cases (hq ▸ hn'').symm.trans hn
          simp only [hp, hq, if_true]
          exact Form.fill_comm hs hr (hne (hp.trans hq.symm)) c d
        · simp only [hp, hq, if_true, if_false]
      · simp only [hp, if_false]
    have hparent : (if d = k then some q else if c = k then some p else n.parent) =
        if c = k then some p else if d = k then some q else n.parent := by
      by_cases hc : c = k
      · have hd : d ≠ k := fun h => hcd (hc.trans h.symm)
        simp only [hc, hd, if_true, if_false]
      · simp only [hc, if_false]
    simp only [Option.map_some, Function.comp_apply, hform, hparent]

/-- Two attachments that can be made one after the other can be made in the other order. -/
theorem attachable_swap (ha : t.Attachable p s c) (hb : (t.link p s c).Attachable q r d)
    (hne : ¬ (p = q ∧ s = .statement ∧ r = .statement)) :
    t.Attachable q r d ∧ (t.link q r d).Attachable p s c ∧
      (t.link q r d).link p s c = (t.link p s c).link q r d := by
  obtain ⟨hb, hchildren, hcycle, hrole⟩ := (attachable_link ha).1 hb
  have hroles : p = q → r ≠ s := by
    intro hparent hslot
    have hstatement := hrole hparent hslot
    exact hne ⟨hparent, hstatement, hslot.trans hstatement⟩
  refine ⟨hb, (attachable_link hb).2 ⟨ha, hchildren.symm, fun hc => hcycle hc.symm, ?_⟩, ?_⟩
  · exact fun hparent hslot => absurd hslot.symm (hroles hparent.symm)
  · exact (link_comm (attachable_iff.1 ha).2.2 (attachable_iff.1 hb).2.2 hchildren hroles).symm

theorem Forest.attach (hf : t.Forest) (h : t.Attachable p s c) : (t.link p s c).Forest :=
  hf.link (hf.obstacle?_eq_none_iff_attachable.2 h)

theorem Forest.run_attach_eq_ok (hf : t.Forest) {u : Tree} :
    (Build.attach p s c).run t = (.ok (), u) ↔ t.Attachable p s c ∧ u = t.link p s c := by
  rw [Build.run_attach_eq_ok, hf.obstacle?_eq_none_iff_attachable]

theorem Forest.run_attach_bind_eq_ok (hf : t.Forest) {x : Build Unit} {u : Tree} :
    (Build.attach p s c >>= fun _ => x).run t = (.ok (), u) ↔
      t.Attachable p s c ∧ x.run (t.link p s c) = (.ok (), u) := by
  rw [Build.run_bind_eq_ok]
  simp only [hf.run_attach_eq_ok]
  constructor
  · rintro ⟨_, _, ⟨h, rfl⟩, hx⟩
    exact ⟨h, hx⟩
  · rintro ⟨h, hx⟩
    exact ⟨(), _, ⟨h, rfl⟩, hx⟩

end Tree

/-! ### Any number of attachments -/

structure Attachment where
  parent : NodeId
  slot : Slot
  child : NodeId

namespace Attachment

open TeachLang.Tree

def make (a : Attachment) : Build Unit := Build.attach a.parent a.slot a.child

def appendsTo (p : NodeId) (a : Attachment) : Bool := a.parent = p ∧ a.slot = .statement

def goesTo (p : NodeId) (s : Slot) (a : Attachment) : Bool := a.parent = p ∧ a.slot = s

variable {t u : Tree} {a b : Attachment} {as bs cs : List Attachment}

theorem run_cons_eq_ok (hf : t.Forest) :
    ((a :: as).forM make).run t = (.ok (), u) ↔ t.Attachable a.parent a.slot a.child ∧
      (as.forM make).run (t.link a.parent a.slot a.child) = (.ok (), u) :=
  hf.run_attach_bind_eq_ok

/-- Both children are to stand behind the other statements of one scope. -/
def Rivals (a b : Attachment) : Prop :=
  a.parent = b.parent ∧ a.slot = .statement ∧ b.slot = .statement

theorem rivals_iff : a.Rivals b ↔ ∃ p, a.appendsTo p = true ∧ b.appendsTo p = true := by
  simp only [Rivals, appendsTo, decide_eq_true_eq]
  constructor
  · rintro ⟨hparent, ha, hb⟩
    exact ⟨b.parent, ⟨hparent, ha⟩, rfl, hb⟩
  · rintro ⟨p, ⟨rfl, ha⟩, hparent, hb⟩
    exact ⟨hparent.symm, ha, hb⟩

/-- Neighbours that are no rivals may change places. -/
theorem run_swap (hf : t.Forest) (hne : ¬ a.Rivals b)
    (h : ((a :: b :: as).forM make).run t = (.ok (), u)) :
    ((b :: a :: as).forM make).run t = (.ok (), u) := by
  obtain ⟨ha, h⟩ := (run_cons_eq_ok hf).1 h
  obtain ⟨hb, h⟩ := (run_cons_eq_ok (hf.attach ha)).1 h
  obtain ⟨hb', ha', heq⟩ := attachable_swap ha hb hne
  rw [← heq] at h
  exact (run_cons_eq_ok hf).2 ⟨hb', (run_cons_eq_ok (hf.attach hb')).2 ⟨ha', h⟩⟩

theorem run_to_front (hf : t.Forest) (hne : ∀ a ∈ as, ¬ a.Rivals b)
    (h : ((as ++ b :: cs).forM make).run t = (.ok (), u)) :
    ((b :: (as ++ cs)).forM make).run t = (.ok (), u) := by
  induction as generalizing t with
  | nil => exact h
  | cons a as ih =>
    obtain ⟨ha, hrest⟩ := (run_cons_eq_ok hf).1 h
    have hfront := ih (hf.attach ha) (fun c hc => hne c (.tail a hc)) hrest
    exact run_swap hf (hne a List.mem_cons_self) ((run_cons_eq_ok hf).2 ⟨ha, hfront⟩)

/-- Any order will do that keeps the statements of each scope in theirs. -/
theorem run_perm (hf : t.Forest) (hperm : bs.Perm as)
    (hscopes : ∀ p, bs.filter (appendsTo p) = as.filter (appendsTo p))
    (h : (as.forM make).run t = (.ok (), u)) : (bs.forM make).run t = (.ok (), u) := by
  induction bs generalizing t as with
  | nil => rwa [hperm.nil_eq]
  | cons b bs ih =>
    obtain ⟨front, back, rfl, hfirst⟩ :=
      List.eq_append_cons_of_mem (hperm.mem_iff.1 List.mem_cons_self)
    -- Of the statements for the scope of `b`, if it is one, `b` is the first in both lists.
    have hne : ∀ a ∈ front, ¬ a.Rivals b := by
      intro a ha hrivals
      obtain ⟨p, hap, hbp⟩ := rivals_iff.1 hrivals
      have hp := hscopes p
      rw [List.filter_cons_of_pos hbp, List.filter_append] at hp
      cases hfront : front.filter (appendsTo p) with
      | nil => exact List.filter_eq_nil_iff.1 hfront a ha hap
      | cons first rest =>
        rw [hfront] at hp
        obtain rfl : b = first := (List.cons.inj hp).1
        exact hfirst (List.mem_of_mem_filter (hfront ▸ List.mem_cons_self))
    obtain ⟨hb, hrest⟩ := (run_cons_eq_ok hf).1 (run_to_front hf hne h)
    refine (run_cons_eq_ok hf).2 ⟨hb, ih (hf.attach hb) ?_ (fun p => ?_) hrest⟩
    · exact (hperm.trans List.perm_middle).cons_inv
    · have hp := hscopes p
      by_cases hbp : b.appendsTo p = true
      · have hfront : front.filter (appendsTo p) = [] :=
          List.filter_eq_nil_iff.2 fun a ha hap => hne a ha (rivals_iff.2 ⟨p, hap, hbp⟩)
        rw [List.filter_append, hfront, List.filter_cons_of_pos hbp,
          List.filter_cons_of_pos hbp] at hp
        rw [List.filter_append, hfront]
        exact (List.cons.inj hp).2
      · rwa [List.filter_cons_of_neg hbp, List.filter_append, List.filter_cons_of_neg hbp,
          ← List.filter_append] at hp

theorem childrenIn_link {p q c : NodeId} {s : Slot} {n : Node} (h : t.Vacant p s)
    (hn : t.get? q = some n) : ∃ m, (t.link p s c).get? q = some m ∧ m.kind = n.kind ∧
      ∀ r, m.form.childrenIn r = n.form.childrenIn r ++ if p = q ∧ s = r then [c] else [] := by
  refine ⟨_, by rw [get?_link, hn, Option.map_some], ?_, fun r => ?_⟩
  · by_cases hpq : p = q <;> simp [Node.kind, hpq]
  · by_cases hpq : p = q
    · subst hpq
      obtain ⟨_, hn', hs⟩ := h
      cases hn'.symm.trans hn
      simp [Form.childrenIn_fill hs, eq_comm]
    · simp [hpq]

/-- A node gains the children that are for it, in each role those that are for the role. -/
theorem childrenIn_of_run (hf : t.Forest) (h : (as.forM make).run t = (.ok (), u)) {p : NodeId}
    {n : Node} (hn : t.get? p = some n) : ∃ m, u.get? p = some m ∧ m.kind = n.kind ∧
      ∀ s, m.form.childrenIn s = n.form.childrenIn s ++ (as.filter (goesTo p s)).map child := by
  induction as generalizing t n with
  | nil =>
    cases h
    exact ⟨n, hn, rfl, fun s => (List.append_nil _).symm⟩
  | cons a as ih =>
    obtain ⟨ha, hrest⟩ := (run_cons_eq_ok hf).1 h
    obtain ⟨m, hm, hkind, hchildren⟩ := childrenIn_link (attachable_iff.1 ha).2.2 hn
    obtain ⟨k, hk, hkind', hchildren'⟩ := ih (hf.attach ha) hrest hm
    refine ⟨k, hk, hkind'.trans hkind, fun s => ?_⟩
    rw [hchildren', hchildren, List.append_assoc]
    congr 1
    by_cases hs : a.parent = p ∧ a.slot = s
    · rw [if_pos hs, List.filter_cons_of_pos (by simpa [goesTo] using hs)]
      rfl
    · rw [if_neg hs, List.filter_cons_of_neg (by simpa [goesTo] using hs)]
      rfl

end Attachment

namespace Tree

variable {t : Tree}

/-- Two attachments that succeed in one order do so in the other, with the same tree, unless both
put a statement behind those of one scope. So do any number of them, in every order that keeps the
statements of each scope in theirs; and the children of a node come role by role, behind those that
it had in a role the ones attached in this role, whatever was attached between them. -/
theorem attach_interchange (ht : Built t) :
    (∀ p₁ s₁ c₁ p₂ s₂ c₂ u, ¬ (p₁ = p₂ ∧ s₁ = .statement ∧ s₂ = .statement) →
      (do Build.attach p₁ s₁ c₁; Build.attach p₂ s₂ c₂).run t = (.ok (), u) →
      (do Build.attach p₂ s₂ c₂; Build.attach p₁ s₁ c₁).run t = (.ok (), u)) ∧
    ∀ (as : List Attachment) (u : Tree), (as.forM Attachment.make).run t = (.ok (), u) →
      (∀ bs : List Attachment, bs.Perm as →
        (∀ p, bs.filter (·.appendsTo p) = as.filter (·.appendsTo p)) →
        (bs.forM Attachment.make).run t = (.ok (), u)) ∧
      ∀ p n, t.get? p = some n → ∃ m, u.get? p = some m ∧ m.kind = n.kind ∧
        m.form.children = n.kind.slots.flatMap fun s =>
          n.form.childrenIn s ++ (as.filter (·.goesTo p s)).map Attachment.child := by
  have hf := ht.forest
  refine ⟨fun p₁ s₁ c₁ p₂ s₂ c₂ u hne h => ?_, fun as u h => ⟨fun bs hperm hscopes => ?_,
    fun p n hn => ?_⟩⟩
  · obtain ⟨ha, h⟩ := hf.run_attach_bind_eq_ok.1 h
    obtain ⟨hb, rfl⟩ := (hf.attach ha).run_attach_eq_ok.1 h
    obtain ⟨hb', ha', heq⟩ := attachable_swap ha hb hne
    exact hf.run_attach_bind_eq_ok.2 ⟨hb', (hf.attach hb').run_attach_eq_ok.2 ⟨ha', heq.symm⟩⟩
  · exact Attachment.run_perm hf hperm hscopes h
  · obtain ⟨m, hm, hkind, hchildren⟩ := Attachment.childrenIn_of_run hf h hn
    refine ⟨m, hm, hkind, ?_⟩
    rw [m.form.children_eq_flatMap]
    change m.kind.slots.flatMap _ = _
    rw [hkind, funext hchildren]

/-- A loop and its body are filled from above or from below, with the same tree. -/
theorem attach_interchange_of_nested :
    let t := [Operation.add (.reference "c"), .add (.literal 1), .add (.scope []), .add (.scope []),
      .add (.whileLoop none none), .add (.print none)].foldl Operation.apply {}
    let as : List Attachment := [⟨4, .body, 2⟩, ⟨2, .statement, 5⟩, ⟨5, .expr, 1⟩,
      ⟨4, .condition, 0⟩, ⟨3, .statement, 4⟩]
    let u := ((as.forM Attachment.make).run t).2
    Built t ∧ (as.forM Attachment.make).run t = (.ok (), u) ∧
      (as.reverse.forM Attachment.make).run t = (.ok (), u) ∧
      (∃ v, (do Build.attach 4 .body 2; Build.attach 2 .statement 5).run t = (.ok (), v) ∧
        (do Build.attach 2 .statement 5; Build.attach 4 .body 2).run t = (.ok (), v)) ∧
      ∃ m, u.get? 4 = some m ∧ m.form.children = [0, 2] := by
  intro t as u
  have ht : Built t := Built.empty.operateAll _ (by simp)
  obtain ⟨hpair, hall⟩ := attach_interchange ht
  have hrun : @Eq (Except BuildError Unit × Tree) ((as.forM Attachment.make).run t)
      (.ok (), u) := by
    decide
  have hscopes : ∀ p, as.reverse.filter (·.appendsTo p) = as.filter (·.appendsTo p) := by
    intro p
    by_cases h : 3 = p
    · simp [as, Attachment.appendsTo, ← h]
    · by_cases h' : 2 = p <;> simp [as, Attachment.appendsTo, h, h']
  obtain ⟨horder, hchildren⟩ := hall as u hrun
  obtain ⟨m, hm, -, hm'⟩ := hchildren 4 { form := .whileLoop none none } rfl
  have hchild : m.form.children = [0, 2] := hm'.trans (by decide)
  refine ⟨ht, hrun, horder _ as.reverse_perm hscopes, ⟨_, rfl, ?_⟩, m, hm, hchild⟩
  exact hpair _ _ _ _ _ _ _ (by decide) rfl

end Tree

end TeachLang
