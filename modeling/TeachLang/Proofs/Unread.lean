import TeachLang.Proofs.Built
import TeachLang.Proofs.Sequel

/-!
# Input that is not read

Lines are read only when they are needed, and to their ends. So a run that leaves some input depends
on the lines in front of it alone: whatever comes behind these is left instead.
-/

namespace TeachLang

def Text.Ended (bytes : List UInt8) : Prop := bytes = [] ∨ ∃ body, bytes = body ++ [10]

theorem Text.Ended.append {bytes bytes' : List UInt8} (h : Ended bytes) (h' : Ended bytes') :
    Ended (bytes ++ bytes') := by
  rcases h' with rfl | ⟨body, rfl⟩
  · rwa [List.append_nil]
  · exact .inr ⟨bytes ++ body, by rw [List.append_assoc]⟩

theorem Text.Ended.cons {bytes : List UInt8} (h : Ended bytes) (hne : bytes ≠ []) (b : UInt8) :
    Ended (b :: bytes) := by
  obtain ⟨body, rfl⟩ := h.resolve_left hne
  exact .inr ⟨b :: body, rfl⟩

namespace Reader

open Text

def withInput (r : Reader) (bytes : List UInt8) (broken : Option String) : Reader :=
  { r with unread := bytes, broken := broken }

/-- Lines are taken to their ends, and what stands behind them has no influence, unless nothing
does. -/
theorem takeLines_unread {broken : Option String} {line bytes rest : List UInt8}
    {r : Except Error (List (List Char))} (h : takeLines broken line bytes = (r, rest)) :
    ∃ front, bytes = front ++ rest ∧ (rest ≠ [] → front ≠ [] ∧ Ended front ∧
      ∀ rest' broken', takeLines broken' line (front ++ rest') = (r, rest')) := by
  induction bytes generalizing line with
  | nil =>
    unfold takeLines at h
    cases broken <;> cases h <;> exact ⟨[], rfl, fun hne => absurd rfl hne⟩
  | cons b bytes ih =>
    rw [takeLines] at h
    by_cases hb : b = 10
    · rw [if_pos hb] at h
      cases hwords : wordsOf line.reverse with
      | nil =>
        simp only [hwords] at h
        obtain ⟨front, rfl, hfront⟩ := ih h
        refine ⟨b :: front, rfl, fun hne => ?_⟩
        obtain ⟨hne', hended, hall⟩ := hfront hne
        refine ⟨List.cons_ne_nil b front, hended.cons hne' b, fun rest' broken' => ?_⟩
        rw [List.cons_append, takeLines, if_pos hb]
        simp only [hwords, hall]
      | cons word words =>
        simp only [hwords] at h
        cases h
        refine ⟨[b], rfl, fun _ => ⟨List.cons_ne_nil b [], .inr ⟨[], by rw [hb]; rfl⟩, ?_⟩⟩
        intro rest' broken'
        rw [List.cons_append, takeLines, if_pos hb]
        simp only [hwords, List.nil_append]
    · rw [if_neg hb] at h
      obtain ⟨front, rfl, hfront⟩ := ih h
      refine ⟨b :: front, rfl, fun hne => ?_⟩
      obtain ⟨hne', hended, hall⟩ := hfront hne
      refine ⟨List.cons_ne_nil b front, hended.cons hne' b, fun rest' broken' => ?_⟩
      rw [List.cons_append, takeLines, if_neg hb, hall]

/-- What is taken from the reader depends on what it takes of its bytes alone, unless it takes
all. -/
def Leaves {α : Type} (take : Reader → α × Reader) (r : Reader) : Prop :=
  ∃ front, r.unread = front ++ (take r).2.unread ∧ ((take r).2.unread ≠ [] → Ended front ∧
    ∀ rest broken, take (r.withInput (front ++ rest) broken) =
      ((take r).1, (take r).2.withInput rest broken))

theorem leaves_takeWord (r : Reader) : Leaves takeWord r := by
  unfold Leaves
  obtain ⟨unread, broken, pending⟩ := r
  cases pending with
  | cons word words => exact ⟨[], rfl, fun _ => ⟨.inl rfl, fun _ _ => rfl⟩⟩
  | nil =>
    rcases hlines : takeLines broken [] unread with ⟨e | _ | ⟨word, words⟩, rest⟩
    all_goals
      obtain ⟨front, hfront, hall⟩ := takeLines_unread hlines
      simp only [takeWord, withInput, hlines]
      refine ⟨front, hfront, fun hne => ?_⟩
      obtain ⟨_, hended, hall⟩ := hall hne
      exact ⟨hended, fun rest broken => by simp only [hall]⟩

theorem unread_takeInteger (r : Reader) : r.takeInteger.2.unread = r.takeWord.2.unread := by
  unfold takeInteger
  rcases r.takeWord with ⟨e | _ | word, r'⟩
  · rfl
  · rfl
  · dsimp only
    cases integer? word <;> rfl

theorem leaves_takeInteger (r : Reader) : Leaves takeInteger r := by
  obtain ⟨front, hfront, hall⟩ := leaves_takeWord r
  rw [← unread_takeInteger] at hfront hall
  refine ⟨front, hfront, fun hne => ?_⟩
  obtain ⟨hended, hall⟩ := hall hne
  refine ⟨hended, fun rest broken => ?_⟩
  unfold takeInteger
  rw [hall]
  rcases r.takeWord with ⟨e | _ | word, r'⟩
  · rfl
  · rfl
  · dsimp only
    cases integer? word <;> rfl

end Reader

def Machine.withInput (m : Machine) (bytes : List UInt8) (broken : Option String) : Machine :=
  { m with reader := m.reader.withInput bytes broken }

namespace Eval

open Text

variable {α α' β β' : Type} {A : α → α' → Prop} {B : β → β' → Prop}

/-- The first step takes some bytes from the front of its input. If it leaves any, these are ended
lines, and behind them the second step leaves any other bytes, and does the same. -/
def Spares (A : α → α' → Prop) (x : Eval α) (x' : Eval α') : Prop :=
  ∀ m r m₁, x m = some (r, m₁) → ∃ front r', m.reader.unread = front ++ m₁.reader.unread ∧
    Ends Eq A r r' ∧ (m₁.reader.unread ≠ [] → Ended front ∧ ∀ rest broken,
      x' (m.withInput (front ++ rest) broken) = some (r', m₁.withInput rest broken))

theorem spares_pure {a : α} {a' : α'} (h : A a a') : Spares A (pure a) (pure a') := by
  intro m r m₁ hr
  cases hr
  exact ⟨[], .ok a', rfl, .ok h, fun _ => ⟨.inl rfl, fun _ _ => rfl⟩⟩

theorem spares_throw (e : Error) : Spares A (throw e) (throw e) := by
  intro m r m₁ hr
  cases hr
  exact ⟨[], .error e, rfl, .error rfl, fun _ => ⟨.inl rfl, fun _ _ => rfl⟩⟩

theorem spares_of_confined {x : Eval α} (h : Confined x) : Spares Eq x x := by
  rintro m r ⟨scopes, register, reader, sink⟩ hr
  obtain rfl : reader = m.reader := h.reader_eq hr
  obtain rfl : sink = m.sink := h.sink_eq hr
  exact ⟨[], r, rfl, ends_eq_iff.2 rfl, fun _ => ⟨.inl rfl, fun _ _ => h.apply_eq hr _ m.sink⟩⟩

theorem Spares.bind {x : Eval α} {x' : Eval α'} {f : α → Eval β} {f' : α' → Eval β'}
    (hx : Spares A x x') (hf : ∀ a a', A a a' → Spares B (f a) (f' a')) :
    Spares B (x >>= f) (x' >>= f') := by
  intro m r m₂ hr
  rcases bind_eq_some.1 hr with ⟨e, he, rfl⟩ | ⟨a, m₁, ha, hr⟩
  · obtain ⟨front, _, hfront, hends, hall⟩ := hx m _ m₂ he
    cases hends with
    | error h =>
      subst h
      refine ⟨front, .error e, hfront, .error rfl, fun hne => ?_⟩
      obtain ⟨hended, hall⟩ := hall hne
      exact ⟨hended, fun rest broken => bind_eq_some.2 (.inl ⟨e, hall rest broken, rfl⟩)⟩
  · obtain ⟨front, _, hfront, hends, hall⟩ := hx m _ m₁ ha
    cases hends with
    | @ok _ a' h =>
      obtain ⟨front', r', hfront', hends', hall'⟩ := hf a a' h m₁ r m₂ hr
      have hboth : m.reader.unread = (front ++ front') ++ m₂.reader.unread := by
        rw [hfront, hfront', List.append_assoc]
      refine ⟨front ++ front', r', hboth, hends', fun hne => ?_⟩
      obtain ⟨hended', hall'⟩ := hall' hne
      have hne' : m₁.reader.unread ≠ [] := by
        rw [hfront']
        exact List.append_ne_nil_of_right_ne_nil front' hne
      obtain ⟨hended, hall⟩ := hall hne'
      refine ⟨hended.append hended', fun rest broken => ?_⟩
      rw [List.append_assoc]
      exact bind_eq_some.2 (.inr ⟨a', _, hall (front' ++ rest) broken, hall' rest broken⟩)

theorem Spares.inScope {x : Eval α} {x' : Eval α'} (hx : Spares A x x') :
    Spares A (inScope x) (inScope x') := by
  intro m r m₁ hr
  obtain ⟨m₂, hrun, rfl⟩ := inScope_eq_some.1 hr
  obtain ⟨front, r', hfront, hends, hall⟩ := hx _ r m₂ hrun
  refine ⟨front, r', hfront, hends, fun hne => ?_⟩
  obtain ⟨hended, hall⟩ := hall hne
  exact ⟨hended, fun rest broken => inScope_eq_some.2 ⟨_, hall rest broken, rfl⟩⟩

theorem spares_takeInteger : Spares Eq takeInteger takeInteger := by
  intro m r m₁ hr
  rw [takeInteger_apply] at hr
  cases hr
  obtain ⟨front, hfront, hall⟩ := m.reader.leaves_takeInteger
  refine ⟨front, _, hfront, ends_eq_iff.2 rfl, fun hne => ?_⟩
  obtain ⟨hended, hall⟩ := hall hne
  refine ⟨hended, fun rest broken => ?_⟩
  have hrun := hall rest broken
  rw [takeInteger_apply]
  simp only [Machine.withInput, hrun]

theorem spares_write (text : String) : Spares Eq (write text) (write text) := by
  intro m r m₁ hr
  rw [write_apply] at hr
  cases hr
  exact ⟨[], _, rfl, ends_eq_iff.2 rfl, fun _ => ⟨.inl rfl, fun _ _ => rfl⟩⟩

theorem congruence_spares : StreamCongruence Spares where
  pure := spares_pure
  bind := Spares.bind
  unbounded _ _ _ h := by cases h
  throw := spares_throw
  confined := spares_of_confined
  takeInteger := spares_takeInteger
  inScope := Spares.inScope

end Eval

namespace Tree

open Eval Text

theorem spares_run (t : Tree) (bound : Nat) : Spares Eq (t.run bound) (t.run bound) := by
  intro m r m₁ h
  rw [run_apply] at h
  cases hroot : t.root with
  | none =>
    simp only [hroot] at h
    cases h
    refine ⟨[], .ok (), rfl, .ok rfl, fun _ => ⟨.inl rfl, fun rest broken => ?_⟩⟩
    rw [run_apply, hroot]
    rfl
  | some root =>
    simp only [hroot] at h
    obtain ⟨⟨r₀, m₂⟩, hexec, heq⟩ := Option.map_eq_some_iff.1 h
    obtain ⟨rfl, rfl⟩ := Prod.mk.inj heq
    have hspares := congruence_spares.exec spares_write t bound root
    obtain ⟨front, _, hfront, hends, hall⟩ := hspares m r₀ m₂ hexec
    obtain rfl := ends_eq_iff.1 hends
    refine ⟨front, _, hfront, ends_eq_iff.2 rfl, fun hne => ?_⟩
    obtain ⟨hended, hall⟩ := hall hne
    refine ⟨hended, fun rest broken => ?_⟩
    rw [run_apply, hroot]
    simp only [hall rest broken]
    rfl

/-- Of its input a run needs no more than the lines that it takes: if it leaves any, these lines are
ended, and with any other input behind them, and any other end of it, the run ends in the same way
and leaves that. -/
theorem run_unread (t : Tree) {m m' : Machine} {front rest : List UInt8} {broken : Option String}
    {r : Except Error Unit} (hrest : rest ≠ [])
    (h : t.Ends (m.withInput (front ++ rest) broken) r m') (hm' : m'.reader.unread = rest) :
    (front = [] ∨ ∃ body, front = body ++ [10]) ∧ ∀ rest' broken',
      t.Ends (m.withInput (front ++ rest') broken') r (m'.withInput rest' broken') := by
  obtain ⟨bound, hrun⟩ := h
  obtain ⟨front', _, hfront, hends, hall⟩ := t.spares_run bound _ r m' hrun
  obtain rfl := ends_eq_iff.1 hends
  rw [hm'] at hfront hall
  obtain rfl : front = front' := List.append_cancel_right hfront
  obtain ⟨hended, hall⟩ := hall hrest
  exact ⟨hended, fun rest' broken' => ⟨bound, hall rest' broken'⟩⟩

/-- Of the line `1 9` one word is taken, and nothing is asked of what comes behind. -/
theorem run_unread_of_line :
    let t := [Operation.add (.reference "x"), .add (.input (some 0)), .add (.reference "x"),
      .add (.print (some 2)), .add (.scope [1, 3]), .setRoot 4].foldl Operation.apply {}
    let m : Machine := {}
    let m' : Machine := ⟨⟨[("x", 1)], []⟩, 1, ⟨[50], none, [['9']]⟩, ⟨"1\n".toUTF8, none, none⟩⟩
    [50] ≠ ([] : List UInt8) ∧ t.Ends (m.withInput ([49, 32, 57, 10] ++ [50]) none) (.ok ()) m' ∧
      m'.reader.unread = [50] ∧
      ∀ rest, t.Ends (m.withInput ([49, 32, 57, 10] ++ rest) (some "gone")) (.ok ())
        (m'.withInput rest (some "gone")) := by
  intro t m m'
  have hne : [50] ≠ ([] : List UInt8) := List.cons_ne_nil 50 []
  have hends : t.Ends (m.withInput ([49, 32, 57, 10] ++ [50]) none) (.ok ()) m' := ⟨5, by decide⟩
  obtain ⟨_, hall⟩ := run_unread t hne hends rfl
  exact ⟨hne, hends, rfl, fun rest => hall rest (some "gone")⟩

end Tree

end TeachLang
