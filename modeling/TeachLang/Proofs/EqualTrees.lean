import TeachLang.Proofs.Copies
import TeachLang.Proofs.Sequel

/-!
# Equal trees

Trees that are equal when compared run alike, on whatever machine: both runs end or neither does,
and they end in the same way but for the place of a fault. A copy has its faults at the same places
too.
-/

namespace TeachLang

namespace Eval

variable {α α' : Type}

/-- The answers are the same as far as `g` keeps of the errors. -/
theorem Agree.map_eq {g : Error → Error} {x x' : Eval α}
    (h : Agree Eq (fun e e' => g e = g e') Eq x x') (m : Machine) :
    (x m).map (fun p => (p.1.mapError g, p.2)) = (x' m).map fun p => (p.1.mapError g, p.2) := by
  have hends := h m m rfl
  generalize x m = p at hends ⊢
  generalize x' m = p' at hends ⊢
  cases hends with
  | none => rfl
  | @some p p' h =>
    obtain ⟨r, m₁⟩ := p
    obtain ⟨r', m₁'⟩ := p'
    obtain ⟨hr, hm⟩ := h
    obtain rfl : m₁ = m₁' := hm
    cases hr with
    | ok ha =>
      cases ha
      rfl
    | error he =>
      rw [Option.map_some, Option.map_some, Except.mapError, Except.mapError, he]

end Eval

namespace Tree

open Eval

variable {t u : Tree} {R : Span → Span → Prop} {g : Error → Error} {m m' : Machine}
  {r : Except Error Unit}

/-- The run ends so when no more than `g` keeps of its error is looked at. -/
def EndsUpTo (g : Error → Error) (t : Tree) (m : Machine) (r : Except Error Unit) (m' : Machine) :
    Prop :=
  ∃ r', t.Ends m r' m' ∧ r'.mapError g = r

theorem endsUpTo_iff : t.EndsUpTo g m r m' ↔
    ∃ bound, (t.run bound m).map (fun p => (p.1.mapError g, p.2)) = some (r, m') := by
  constructor
  · rintro ⟨r', ⟨bound, h⟩, rfl⟩
    exact ⟨bound, by rw [h]; rfl⟩
  · rintro ⟨bound, h⟩
    obtain ⟨⟨r', m₁⟩, hrun, hp⟩ := Option.map_eq_some_iff.1 h
    obtain ⟨hr, rfl⟩ := Prod.mk.inj hp
    exact ⟨r', ⟨bound, hrun⟩, hr⟩

theorem endsUpTo_id : t.EndsUpTo id m r m' ↔ t.Ends m r m' := by
  have hid : ∀ r' : Except Error Unit, r'.mapError id = r' := by
    intro r'
    cases r' <;> rfl
  constructor
  · rintro ⟨r', h, rfl⟩
    rwa [hid]
  · intro h
    exact ⟨r, h, hid r⟩

/-- Trees whose nodes correspond, from the root down, end in the same way. -/
theorem endsUpTo_of_simulates {S : NodeId → NodeId → Prop} (h : t.Simulates u id R S)
    (hroot : Option.Rel S t.root u.root)
    (hfault : ∀ {s s'}, R s s' → ∀ f,
      g (.runtime (.located f s)) = g (.runtime (.located f s'))) :
    t.EndsUpTo g m r m' ↔ u.EndsUpTo g m r m' := by
  have hmirror : Mirror id R (fun e e' => g e = g e') Eq := mirror_self (fun _ => rfl) hfault
  have hrun : ∀ bound, Agree Eq (fun e e' => g e = g e') Eq (t.run bound) (u.run bound) := by
    intro bound
    refine agree_run ?_ (agree_exec hmirror h bound) hroot
    rintro m _ rfl
    refine .self ?_ _ m.sink.flush_error
    intro text
    rfl
  rw [endsUpTo_iff, endsUpTo_iff]
  simp only [(hrun _).map_eq]

/-- Trees that look the same from the root down end in the same way. -/
theorem endsUpTo_congr (ht : Forest t) (hu : Forest u)
    (hroot : Option.Rel (fun k k' => ∃ bound, t.Resembles u R bound k k') t.root u.root)
    (hfault : ∀ {s s'}, R s s' → ∀ f,
      g (.runtime (.located f s)) = g (.runtime (.located f s'))) :
    t.EndsUpTo g m r m' ↔ u.EndsUpTo g m r m' :=
  endsUpTo_of_simulates (simulates_twin ht hu) (twin_root ht hu hroot) hfault

theorem resembles_of_same (h : t.same u = true) :
    Option.Rel (fun k k' => ∃ bound, t.Resembles u Span.Any bound k k') t.root u.root := by
  unfold same at h
  split at h
  · next hroot hroot' =>
    rw [hroot, hroot']
    exact .some ⟨t.size, sameWithin_eq_true.1 (of_decide_eq_true h)⟩
  · next hroot hroot' =>
    rw [hroot, hroot']
    exact .none
  · cases h

/-- Trees whose nodes correspond, from the root down, are equal. -/
theorem same_of_simulates {S : NodeId → NodeId → Prop} (ht : Forest t) (h : t.Simulates u id R S)
    (hroot : Option.Rel S t.root u.root) : t.same u = true := by
  unfold same
  generalize t.root = root at hroot ⊢
  generalize u.root = root' at hroot ⊢
  cases hroot with
  | none => rfl
  | some hk => exact decide_eq_true (h.same? ht hk)

/-- Trees that look the same from the root down are equal. -/
theorem same_of_resembles (ht : Forest t) (hu : Forest u)
    (h : Option.Rel (fun k k' => ∃ bound, t.Resembles u R bound k k') t.root u.root) :
    t.same u = true :=
  same_of_simulates ht (simulates_twin ht hu) (twin_root ht hu h)

/-- A run of a tree and a run of an equal one end in the same way, on the same machine, up to the
place of a fault. A copy of the tree is equal to it, and its faults have the same places. -/
theorem run_same (ht : Built t) :
    (∀ u, Built u → t.same u = true → ∀ m r m',
      t.EndsUpTo Error.unplaced m r m' ↔ u.EndsUpTo Error.unplaced m r m') ∧
    t.duplicate = .ok t.clone ∧ t.same t.clone = true ∧
      ∀ m r m', t.Ends m r m' ↔ t.clone.Ends m r m' := by
  obtain ⟨hduplicate, hlooks⟩ := duplicate_of_forest ht.forest
  have hclone := forest_clone t
  have hroot := twin_root ht.forest hclone hlooks
  refine ⟨?_, hduplicate, same_of_simulates ht.forest (simulates_twin ht.forest hclone) hroot, ?_⟩
  · intro u hu hsame m r m'
    exact endsUpTo_congr ht.forest hu.forest (resembles_of_same hsame) fun _ _ => rfl
  · intro m r m'
    rw [← endsUpTo_id, ← endsUpTo_id]
    apply endsUpTo_congr ht.forest hclone hlooks
    rintro s _ rfl f
    rfl

/-- In the second tree the nodes come in another order, one of them hangs nowhere, and the variable
has no place. -/
theorem run_same_of_reordered :
    let t := [Operation.add (.reference "x"), .setSpan 0 ⟨none, 1, 7, 1, 7⟩,
      .add (.print (some 0)), .add (.scope [1]), .setRoot 2].foldl Operation.apply {}
    let u := [Operation.add (.literal 3), .add (.scope []), .add (.print none),
      .attach 1 .statement 2, .add (.reference "x"), .attach 2 .expr 3, .setRoot 1].foldl
        Operation.apply {}
    Built t ∧ Built u ∧ t.same u = true ∧
      t.Ends {} (.error (.runtime ⟨.undefinedVariable "x", some ⟨none, 1, 7, 1, 7⟩⟩)) {} ∧
      u.EndsUpTo Error.unplaced {} (.error (.runtime ⟨.undefinedVariable "x", none⟩)) {} := by
  intro t u
  have ht : Built t := Built.empty.operateAll _ (by simp)
  have hu : Built u := Built.empty.operateAll _ (by simp)
  have hsame : t.same u = true := by decide
  have hends : t.Ends {} (.error (.runtime ⟨.undefinedVariable "x", some ⟨none, 1, 7, 1, 7⟩⟩)) {} :=
    ⟨4, rfl⟩
  obtain ⟨hequal, -⟩ := run_same ht
  exact ⟨ht, hu, hsame, hends, (hequal u hu hsame _ _ _).1 ⟨_, hends, rfl⟩⟩

end Tree

end TeachLang
