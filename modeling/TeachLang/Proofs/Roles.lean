import TeachLang.Form

/-!
# The places of a form

The roles of a form stand in a list, and a child is put at one place of it: the first vacant one of
its role, or behind the others for a statement. Filling a role changes nothing at any other place.
-/

namespace TeachLang.Form

def place (f : Form) (s : Slot) : Nat := f.roles.findIdx fun r => r = (s, none)

theorem place_vacant (f : Form) (s r : Slot) (c : NodeId) :
    f.roles[f.place s]? ≠ some (r, some c) := by
  intro h
  obtain ⟨hlt, hget⟩ := List.getElem?_eq_some_iff.1 h
  have hfound := List.findIdx_getElem (p := fun r => decide (r = (s, none))) (w := hlt)
  rw [decide_eq_true_eq] at hfound
  cases hfound.symm.trans hget

theorem place_scope (ss : List NodeId) (s : Slot) : (scope ss).place s = ss.length := by
  unfold place
  rw [List.findIdx_eq_length.2] <;> simp [roles]

theorem roles_fill {f : Form} {s : Slot} (h : f.slot? s = some none) (c : NodeId) (i : Nat) :
    (f.fill s c).roles[i]? = if i = f.place s then some (s, some c) else f.roles[i]? := by
  cases f with
  | scope ss =>
    cases s <;> simp only [slot?, reduceCtorEq] at h
    rw [place_scope]
    simp only [fill, roles, List.map_append]
    by_cases hi : i = ss.length
    · subst hi
      simp
    · rw [if_neg hi]
      by_cases hlt : i < ss.length
      · rw [List.getElem?_append_left (by simpa using hlt)]
      · rw [List.getElem?_append_right (by simp; omega), List.getElem?_eq_none (by simp; omega),
          List.getElem?_eq_none (by simp; omega)]
  | _ =>
    cases s <;> simp only [slot?, reduceCtorEq, Option.some.injEq] at h
    all_goals
      subst h
      rcases i with _ | _ | _ | _ | i <;> simp [fill, roles, place, List.findIdx_cons]

theorem roles_bare (f : Form) (i : Nat) (s : Slot) (c : NodeId) :
    f.bare.roles[i]? ≠ some (s, some c) := by
  intro h
  have hmem := List.mem_of_getElem? h
  cases f <;> simp [bare, roles] at hmem

def fillAll : Form → List (Slot × Option NodeId) → Form
  | f, [] => f
  | f, (s, some c) :: rs => fillAll (f.fill s c) rs
  | f, (_, none) :: rs => fillAll f rs

theorem bare_fillAll (f : Form) (rs : List (Slot × Option NodeId)) :
    (f.fillAll rs).bare = f.bare := by
  induction rs generalizing f with
  | nil => rfl
  | cons r rs ih =>
    obtain ⟨s, _ | c⟩ := r
    · exact ih f
    · rw [fillAll, ih, bare_fill]

def Fits : Form → List (Slot × Option NodeId) → Prop
  | _, [] => True
  | f, (s, some c) :: rs => f.slot? s = some none ∧ Fits (f.fill s c) rs
  | f, (_, none) :: rs => Fits f rs

theorem fits_statements (before ss : List NodeId) :
    (scope before).Fits (ss.map fun c => (.statement, some c)) := by
  induction ss generalizing before with
  | nil => trivial
  | cons c ss ih => exact ⟨rfl, ih _⟩

theorem fillAll_statements (before ss : List NodeId) :
    (scope before).fillAll (ss.map fun c => (.statement, some c)) = scope (before ++ ss) := by
  induction ss generalizing before with
  | nil => rw [List.append_nil]; rfl
  | cons c ss ih =>
    have := ih (before ++ [c])
    rwa [List.append_assoc, List.singleton_append] at this

theorem fits_roles (f : Form) : f.bare.Fits f.roles := by
  cases f with
  | scope ss => exact fits_statements [] ss
  | arithmetic _ l r | logic _ l r | assign l r | whileLoop l r =>
    cases l <;> cases r <;> simp [bare, roles, Fits, slot?, fill]
  | unary _ e | print e | declaration _ e | expression e | input e =>
    cases e <;> simp [bare, roles, Fits, slot?]
  | ifElse c t e => cases c <;> cases t <;> cases e <;> simp [bare, roles, Fits, slot?, fill]
  | forLoop i c s b =>
    cases i <;> cases c <;> cases s <;> cases b <;> simp [bare, roles, Fits, slot?, fill]
  | literal _ | reference _ => trivial

theorem fillAll_roles (f : Form) : f.bare.fillAll f.roles = f := by
  cases f with
  | scope ss => exact fillAll_statements [] ss
  | arithmetic _ l r | logic _ l r | assign l r | whileLoop l r => cases l <;> cases r <;> rfl
  | unary _ e | print e | declaration _ e | expression e | input e => cases e <;> rfl
  | ifElse c t e => cases c <;> cases t <;> cases e <;> rfl
  | forLoop i c s b => cases i <;> cases c <;> cases s <;> cases b <;> rfl
  | literal _ | reference _ => rfl

theorem eq_of_roles {f g : Form} (hbare : f.bare = g.bare) (hroles : f.roles = g.roles) :
    f = g := by
  rw [← f.fillAll_roles, ← g.fillAll_roles, hbare, hroles]

end TeachLang.Form
