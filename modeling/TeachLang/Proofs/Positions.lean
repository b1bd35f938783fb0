import Mathlib.Data.List.DropRight
import TeachLang.Token.Lexer

/-!
# Places in a text

Where the counters wrap around, places say nothing about the order of characters. In a text of fewer
than `2 ^ 32 - 1` characters they do not: the line of a place is then one more than the lines that
have ended, its column one more than the characters in front of it on the line, and what comes later
stands at a later place.
-/

namespace TeachLang

def newlines (cs : List Char) : Nat := cs.count '\n'

@[simp] theorem newlines_nil : newlines [] = 0 := rfl

theorem newlines_cons (c : Char) (cs : List Char) :
    newlines (c :: cs) = newlines cs + if c = '\n' then 1 else 0 := by
  simp [newlines, List.count_cons]

theorem newlines_append (cs ds : List Char) : newlines (cs ++ ds) = newlines cs + newlines ds :=
  List.count_append

theorem newlines_eq_zero {cs : List Char} : newlines cs = 0 ↔ '\n' ∉ cs := List.count_eq_zero

theorem newlines_le_length (cs : List Char) : newlines cs ≤ cs.length := List.count_le_length

namespace Position

variable {p q r : Position} {cs : List Char} {n m : Nat}

/-- The place behind some characters, when the first of them stands at `p`. -/
def past (p : Position) (cs : List Char) : Position := cs.foldl after p

def down (n : Nat) (p : Position) : Position := { p with line := p.line + .ofNat n }

def Before (p q : Position) : Prop := p.line < q.line ∨ p.line = q.line ∧ p.column < q.column

instance (p q : Position) : Decidable (p.Before q) :=
  inferInstanceAs (Decidable (p.line < q.line ∨ p.line = q.line ∧ p.column < q.column))

/-! ### Moving on -/

@[simp] theorem past_nil (p : Position) : p.past [] = p := rfl

@[simp] theorem past_cons (p : Position) (c : Char) (cs : List Char) :
    p.past (c :: cs) = (p.after c).past cs :=
  rfl

theorem past_append (p : Position) (cs ds : List Char) :
    p.past (cs ++ ds) = (p.past cs).past ds :=
  List.foldl_append

theorem after_of_ne {c : Char} (h : c ≠ '\n') (p : Position) : p.after c = p.right 1 := if_neg h

theorem right_right (n m : Nat) (p : Position) : (p.right n).right m = p.right (n + m) := by
  rw [right, right, right, UInt32.ofNat_add, UInt32.add_assoc]

theorem right_zero (p : Position) : p.right 0 = p :=
  congrArg (Position.mk p.line) (UInt32.add_zero p.column)

theorem past_of_not_mem (h : '\n' ∉ cs) (p : Position) : p.past cs = p.right cs.length := by
  induction cs generalizing p with
  | nil => exact (right_zero p).symm
  | cons c cs ih =>
    simp only [List.mem_cons, not_or] at h
    rw [past_cons, ih h.2, after_of_ne (Ne.symm h.1), right_right, List.length_cons, Nat.add_comm 1]

theorem right_down (n m : Nat) (p : Position) : (p.down n).right m = (p.right m).down n := rfl

theorem down_zero (p : Position) : p.down 0 = p :=
  congrArg (fun line => (⟨line, p.column⟩ : Position)) (UInt32.add_zero p.line)

theorem down_down (n m : Nat) (p : Position) : (p.down n).down m = p.down (n + m) := by
  rw [down, down, down, UInt32.ofNat_add, UInt32.add_assoc]

theorem down_after (n : Nat) (p : Position) (c : Char) :
    (p.down n).after c = (p.after c).down n := by
  unfold after
  split
  · rw [down, down, UInt32.add_assoc, UInt32.add_comm (.ofNat n), ← UInt32.add_assoc]
  · rfl

theorem line_after (p : Position) (c : Char) :
    (p.after c).line = p.line + .ofNat (if c = '\n' then 1 else 0) := by
  unfold after
  split
  · rfl
  · exact (UInt32.add_zero p.line).symm

/-! ### Room for more characters -/

/-- On the next `n` characters the counters do not wrap around. -/
def Room (n : Nat) (p : Position) : Prop :=
  p.line.toNat + n < UInt32.size ∧ p.column.toNat + n < UInt32.size

theorem room_start (h : n < UInt32.size - 1) : Room n {} := by
  have hline : ({} : Position).line.toNat = 1 := rfl
  have hcolumn : ({} : Position).column.toNat = 1 := rfl
  unfold Room
  omega

theorem Room.mono (h : Room n p) (hle : m ≤ n) : Room m p := by
  unfold Room at *
  omega

theorem toNat_succ {a : UInt32} (h : a.toNat + 1 < UInt32.size) : (a + 1).toNat = a.toNat + 1 := by
  rw [UInt32.toNat_add]
  exact Nat.mod_eq_of_lt h

theorem Room.after (h : Room (n + 1) p) (c : Char) : Room n (p.after c) := by
  obtain ⟨hline, hcolumn⟩ := h
  unfold Position.after Room
  split
  · have hnext : (p.line + 1).toNat = p.line.toNat + 1 := toNat_succ (by omega)
    have hnewline : (1 : UInt32).toNat = 1 := rfl
    dsimp only
    omega
  · have hnext : (p.column + 1).toNat = p.column.toNat + 1 := toNat_succ (by omega)
    dsimp only
    omega

theorem Room.past (h : Room (cs.length + n) p) : Room n (p.past cs) := by
  induction cs generalizing p with
  | nil => rwa [List.length_nil, Nat.zero_add] at h
  | cons c cs ih =>
    rw [List.length_cons, Nat.add_right_comm] at h
    exact ih (h.after c)

/-- In front of a part of a text there is room for the part. -/
theorem Room.part {before word behind : List Char} (h : p.Room (before ++ word ++ behind).length) :
    (p.past before).Room word.length := by
  rw [List.length_append] at h
  have hfront := h.mono (Nat.le_add_right _ _)
  rw [List.length_append] at hfront
  exact hfront.past

/-! ### Reading order -/

theorem Before.irrefl (p : Position) : ¬p.Before p := by
  unfold Before
  grind

theorem Before.trans (h : p.Before q) (h' : q.Before r) : p.Before r := by
  unfold Before at *
  grind

theorem Before.trans_not (h : p.Before q) (h' : ¬r.Before q) : p.Before r := by
  unfold Before at *
  grind

theorem before_after (h : Room 1 p) (c : Char) : p.Before (p.after c) := by
  unfold Before Position.after
  split
  · refine .inl ?_
    rw [UInt32.lt_iff_toNat_lt, toNat_succ h.1]
    exact Nat.lt_succ_self _
  · refine .inr ⟨rfl, ?_⟩
    rw [UInt32.lt_iff_toNat_lt, toNat_succ h.2]
    exact Nat.lt_succ_self _

theorem not_before_past (h : Room cs.length p) : ¬(p.past cs).Before p := by
  induction cs generalizing p with
  | nil => exact Before.irrefl p
  | cons c cs ih =>
    intro hbefore
    rw [List.length_cons] at h
    exact ih (h.after c) (hbefore.trans (before_after (h.mono (Nat.le_add_left 1 _)) c))

theorem before_past (hne : cs ≠ []) (h : Room cs.length p) : p.Before (p.past cs) := by
  cases cs with
  | nil => exact absurd rfl hne
  | cons c cs =>
    rw [List.length_cons] at h
    exact (before_after (h.mono (Nat.le_add_left 1 _)) c).trans_not (not_before_past (h.after c))

/-! ### What the counters say -/

/-- In a text that is short enough, lines and columns are counted from 1. -/
theorem past_start (h : cs.length < UInt32.size - 1) :
    (past {} cs).line.toNat = newlines cs + 1 ∧
      (past {} cs).column.toNat = (cs.rtakeWhile (· ≠ '\n')).length + 1 := by
  induction cs using List.reverseRecOn with
  | nil => exact ⟨rfl, rfl⟩
  | append_singleton cs c ih =>
    rw [List.length_append, List.length_singleton] at h
    obtain ⟨hline, hcolumn⟩ := ih (by omega)
    have hlines := newlines_le_length cs
    have hcolumns := (List.rtakeWhile_suffix (· ≠ '\n') cs).length_le
    have hpast : past {} (cs ++ [c]) = (past {} cs).after c := past_append {} cs [c]
    rw [hpast, newlines_append, newlines_cons, newlines_nil, Position.after]
    by_cases hc : c = '\n'
    · rw [if_pos hc, if_pos hc, toNat_succ (by omega), hline,
        List.rtakeWhile_concat_neg _ _ _ (by simp [hc])]
      exact ⟨by omega, rfl⟩
    · rw [if_neg hc, if_neg hc, toNat_succ (by omega), hcolumn,
        List.rtakeWhile_concat_pos _ _ _ (by simp [hc]), List.length_append]
      exact ⟨by omega, rfl⟩

end Position

namespace Span

def down (n : Nat) (s : Span) : Span :=
  { s with beginLine := s.beginLine + .ofNat n, endLine := s.endLine + .ofNat n }

def first (s : Span) : Position := ⟨s.beginLine, s.beginColumn⟩

def last (s : Span) : Position := ⟨s.endLine, s.endColumn⟩

def Covers (s : Span) (p : Position) : Prop := ¬p.Before s.first ∧ ¬s.last.Before p

instance (s : Span) (p : Position) : Decidable (s.Covers p) :=
  inferInstanceAs (Decidable (¬p.Before s.first ∧ ¬s.last.Before p))

/-- From the first character of a word to its last one, when the word stands at `p`. -/
def ofWord (file : Option String) (p : Position) (word : List Char) : Span :=
  ⟨file, p.line, p.column, (p.past word.dropLast).line, (p.past word.dropLast).column⟩

/-- The second span is the first one moved down by some lines, as they are counted without end. -/
structure Lower (n : Nat) (s s' : Span) : Prop where
  file_eq : s'.file = s.file
  beginLine_eq : s'.beginLine.toNat = s.beginLine.toNat + n
  beginColumn_eq : s'.beginColumn = s.beginColumn
  endLine_eq : s'.endLine.toNat = s.endLine.toNat + n
  endColumn_eq : s'.endColumn = s.endColumn

def characters (s : Span) (p : Position) : List Char → List Char
  | [] => []
  | c :: cs => if s.Covers p then c :: s.characters (p.after c) cs else s.characters (p.after c) cs

theorem Lower.through {n : Nat} {s s' e e' : Span} (h : Lower n s s') (h' : Lower n e e') :
    Lower n (s.through e) (s'.through e') :=
  ⟨h.file_eq, h.beginLine_eq, h.beginColumn_eq, h'.endLine_eq, h'.endColumn_eq⟩

theorem Lower.unique {n : Nat} {s t u : Span} (h : Lower n s t) (h' : Lower n s u) : t = u := by
  obtain ⟨file, beginLine, beginColumn, endLine, endColumn⟩ := t
  obtain ⟨file', beginLine', beginColumn', endLine', endColumn'⟩ := u
  obtain ⟨rfl, hbegin, rfl, hend, rfl⟩ := h
  obtain ⟨rfl, hbegin', rfl, hend', rfl⟩ := h'
  obtain rfl : beginLine = beginLine' := UInt32.toNat_inj.1 (hbegin.trans hbegin'.symm)
  obtain rfl : endLine = endLine' := UInt32.toNat_inj.1 (hend.trans hend'.symm)
  rfl

theorem toNat_add_ofNat {a : UInt32} {n : Nat} (h : a.toNat + n < UInt32.size) :
    (a + .ofNat n).toNat = a.toNat + n := by
  have hn : n < UInt32.size := Nat.lt_of_le_of_lt (Nat.le_add_left n _) h
  rw [UInt32.toNat_add, UInt32.toNat_ofNat_of_lt' hn]
  exact Nat.mod_eq_of_lt h

theorem lower_down {n : Nat} {s : Span} (hbegin : s.beginLine.toNat + n < UInt32.size)
    (hend : s.endLine.toNat + n < UInt32.size) : Lower n s (s.down n) :=
  ⟨rfl, toNat_add_ofNat hbegin, rfl, toNat_add_ofNat hend, rfl⟩

variable {s : Span} {p : Position} {cs : List Char}

theorem characters_append (s : Span) (p : Position) (cs ds : List Char) :
    s.characters p (cs ++ ds) = s.characters p cs ++ s.characters (p.past cs) ds := by
  induction cs generalizing p with
  | nil => rfl
  | cons c cs ih =>
    rw [List.cons_append, characters, characters, ih, Position.past_cons]
    split
    · rfl
    · rfl

theorem characters_in_front (hp : p.Room cs.length) (h : ¬s.first.Before (p.past cs)) :
    s.characters p cs = [] := by
  induction cs generalizing p with
  | nil => rfl
  | cons c cs ih =>
    have hbefore := Position.before_past (List.cons_ne_nil c cs) hp
    rw [characters, if_neg fun hcovers => hcovers.1 (hbefore.trans_not h), ih (hp.after c) h]

theorem characters_behind (hp : p.Room cs.length) (h : s.last.Before p) :
    s.characters p cs = [] := by
  induction cs generalizing p with
  | nil => rfl
  | cons c cs ih =>
    rw [List.length_cons] at hp
    have hafter := Position.before_after (hp.mono (Nat.le_add_left 1 _)) c
    rw [characters, if_neg fun hcovers => hcovers.2 h]
    exact ih (hp.after c) (h.trans hafter)

theorem characters_between (hp : p.Room cs.length) (hfirst : ¬p.Before s.first) (hne : cs ≠ [])
    (hlast : s.last = p.past cs.dropLast) : s.characters p cs = cs := by
  induction cs generalizing p with
  | nil => exact absurd rfl hne
  | cons c cs ih =>
    have hcovers : s.Covers p := by
      refine ⟨hfirst, ?_⟩
      rw [hlast]
      exact Position.not_before_past (hp.mono (List.dropLast_sublist _).length_le)
    rw [characters, if_pos hcovers]
    cases cs with
    | nil => rfl
    | cons d cs =>
      rw [List.length_cons] at hp
      have hbefore := Position.before_after (hp.mono (Nat.le_add_left 1 _)) c
      have hafter : ¬(p.after c).Before s.first := fun h => hfirst (hbefore.trans h)
      rw [ih (hp.after c) hafter (List.cons_ne_nil d cs) hlast]

variable {word before behind : List Char}

theorem last_ofWord_before (hne : word ≠ []) (hp : p.Room word.length) (file : Option String) :
    (ofWord file p word).last.Before (p.past word) := by
  have hsplit : word.dropLast ++ [word.getLast hne] = word := List.dropLast_append_getLast hne
  have hlast : p.past word = (p.past word.dropLast).past [word.getLast hne] := by
    rw [← Position.past_append, hsplit]
  rw [← hsplit, List.length_append] at hp
  rw [hlast]
  exact Position.before_past (List.cons_ne_nil _ _) hp.past

/-- The span of a word covers the characters of the word. -/
theorem characters_ofWord (hne : word ≠ []) (hp : p.Room (before ++ word ++ behind).length)
    (file : Option String) :
    (ofWord file (p.past before) word).characters p (before ++ word ++ behind) = word := by
  have hword := hp.part
  rw [List.length_append] at hp
  have hrest := hp.past
  rw [List.length_append, Nat.add_assoc] at hp
  have hfront := hp.mono (Nat.le_add_right _ _)
  have hfirst : ¬(ofWord file (p.past before) word).first.Before (p.past before) :=
    Position.Before.irrefl _
  have hinside : ¬(p.past before).Before (ofWord file (p.past before) word).first :=
    Position.Before.irrefl _
  have hbehind : (ofWord file (p.past before) word).last.Before (p.past (before ++ word)) := by
    rw [Position.past_append]
    exact last_ofWord_before hne hword file
  rw [characters_append, characters_append, characters_in_front hfront hfirst,
    characters_between hword hinside hne rfl, characters_behind hrest hbehind, List.nil_append,
    List.append_nil]

/-- A word on one line does not end before it begins. -/
theorem columns_ofWord (hword : '\n' ∉ word) (hp : p.Room word.length) (file : Option String) :
    (ofWord file p word).beginColumn ≤ (ofWord file p word).endColumn := by
  have hlast : '\n' ∉ word.dropLast := fun h => hword (List.dropLast_subset word h)
  have hbefore := Position.not_before_past (hp.mono (List.dropLast_sublist word).length_le)
  rw [Position.past_of_not_mem hlast] at hbefore
  rw [ofWord, Position.past_of_not_mem hlast]
  exact UInt32.not_lt.1 fun h => hbefore (.inr ⟨rfl, h⟩)

end Span

end TeachLang
