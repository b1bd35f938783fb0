import Mathlib.Data.List.Basic
import TeachLang.Reader

/-!
# Integers from lines

What a reader gives is told by the lines of its input: the values of the words in order, where a
word that is no integer gives nothing and takes the rest of its line with it. When a value has been
given, the bytes behind the line of its word are unread.
-/

namespace TeachLang

namespace Text

inductive Denotes : List Char → Int64 → Prop
  | unsigned {digits : List Char} {v : Int64} (hne : digits ≠ [])
      (hdigits : ∀ d ∈ digits, d.isDigit = true) (hv : v.toInt = digitsValue digits) :
      Denotes digits v
  | plus {digits : List Char} {v : Int64} (hne : digits ≠ [])
      (hdigits : ∀ d ∈ digits, d.isDigit = true) (hv : v.toInt = digitsValue digits) :
      Denotes ('+' :: digits) v
  | minus {digits : List Char} {v : Int64} (hne : digits ≠ [])
      (hdigits : ∀ d ∈ digits, d.isDigit = true) (hv : v.toInt = -(digitsValue digits : Int)) :
      Denotes ('-' :: digits) v

theorem word?_eq_some {n : Int} {v : Int64} : word? n = some v ↔ v.toInt = n := by
  constructor
  · exact toInt_of_word?
  · intro h
    rw [← h, word?_toInt]

theorem natural?_eq_some {cs : List Char} {n : Nat} :
    natural? cs = some n ↔ cs ≠ [] ∧ (∀ d ∈ cs, d.isDigit = true) ∧ digitsValue cs = n := by
  unfold natural?
  by_cases h : (cs.isEmpty || !cs.all Char.isDigit) = true
  · rw [if_pos h]
    simp only [reduceCtorEq, false_iff]
    rintro ⟨hne, hdigits, _⟩
    have hall : cs.all Char.isDigit = true := List.all_eq_true.2 hdigits
    simp [hall, hne] at h
  · rw [if_neg h]
    simp only [Bool.or_eq_true, List.isEmpty_iff, Bool.not_eq_true', not_or, Bool.not_eq_false,
      List.all_eq_true] at h
    simp only [Option.some.injEq]
    exact ⟨fun hn => ⟨h.1, h.2, hn⟩, fun hn => hn.2.2⟩

/-- A word is taken as an integer when it denotes one. -/
theorem integer?_eq_some_iff {word : List Char} {v : Int64} :
    integer? word = some v ↔ Denotes word v := by
  constructor
  · intro h
    unfold integer? at h
    split at h
    · obtain ⟨n, hn, hv⟩ := Option.bind_eq_some_iff.1 h
      obtain ⟨hne, hdigits, rfl⟩ := natural?_eq_some.1 hn
      exact .minus hne hdigits (word?_eq_some.1 hv)
    · obtain ⟨n, hn, hv⟩ := Option.bind_eq_some_iff.1 h
      obtain ⟨hne, hdigits, rfl⟩ := natural?_eq_some.1 hn
      exact .plus hne hdigits (word?_eq_some.1 hv)
    · obtain ⟨n, hn, hv⟩ := Option.bind_eq_some_iff.1 h
      obtain ⟨hne, hdigits, rfl⟩ := natural?_eq_some.1 hn
      exact .unsigned hne hdigits (word?_eq_some.1 hv)
  · intro h
    cases h with
    | unsigned hne hdigits hv =>
      rw [integer?_of_all_isDigit hdigits]
      exact Option.bind_eq_some_iff.2
        ⟨_, natural?_eq_some.2 ⟨hne, hdigits, rfl⟩, word?_eq_some.2 hv⟩
    | plus hne hdigits hv =>
      exact Option.bind_eq_some_iff.2
        ⟨_, natural?_eq_some.2 ⟨hne, hdigits, rfl⟩, word?_eq_some.2 hv⟩
    | minus hne hdigits hv =>
      exact Option.bind_eq_some_iff.2
        ⟨_, natural?_eq_some.2 ⟨hne, hdigits, rfl⟩, word?_eq_some.2 hv⟩

/-! ### Lines -/

/-- The lines of some bytes, each with the newline at its end; the last one may have none. -/
def lines : List UInt8 → List (List UInt8)
  | [] => []
  | b :: bs =>
    if b = 10 then [b] :: lines bs
    else match lines bs with
      | [] => [[b]]
      | line :: others => (b :: line) :: others

theorem flatten_lines (bs : List UInt8) : (lines bs).flatten = bs := by
  induction bs with
  | nil => rfl
  | cons b bs ih =>
    rw [lines]
    by_cases hb : b = 10
    · rw [if_pos hb, List.flatten_cons, ih]
      rfl
    · rw [if_neg hb]
      cases hlines : lines bs with
      | nil =>
        rw [hlines] at ih
        simp [← ih]
      | cons line others =>
        rw [hlines] at ih
        simp [← ih]

theorem lines_append_newline {body : List UInt8} (h : 10 ∉ body) (rest : List UInt8) :
    lines (body ++ 10 :: rest) = (body ++ [10]) :: lines rest := by
  induction body with
  | nil => rfl
  | cons b body ih =>
    simp only [List.mem_cons, not_or] at h
    rw [List.cons_append, lines, if_neg (Ne.symm h.1), ih h.2]
    rfl

theorem lines_of_not_mem {body : List UInt8} (hne : body ≠ []) (h : 10 ∉ body) :
    lines body = [body] := by
  induction body with
  | nil => exact absurd rfl hne
  | cons b body ih =>
    simp only [List.mem_cons, not_or] at h
    rw [lines, if_neg (Ne.symm h.1)]
    cases body with
    | nil => rfl
    | cons c body => rw [ih (List.cons_ne_nil c body) h.2]

/-- The bytes have one line at most, or there is a first line that is ended by a newline. -/
theorem exists_first_line (bs : List UInt8) :
    10 ∉ bs ∨ ∃ body rest, bs = body ++ 10 :: rest ∧ 10 ∉ body := by
  by_cases h : 10 ∈ bs
  · exact .inr (List.eq_append_cons_of_mem h)
  · exact .inl h

/-! ### The newline at the end of a line -/

def HighNext (o : Option Sequence) : Prop := ∀ s ∈ o, 0x80 ≤ s.low

theorem highNext_ofLead? (b : UInt8) : HighNext (Sequence.ofLead? b) := by
  intro s hs
  unfold Sequence.ofLead? at hs
  split_ifs at hs <;> cases hs
  all_goals
    dsimp only
    decide

theorem highNext_decodeLead (b : UInt8) : HighNext (decodeLead b).2 := by
  intro s hs
  unfold decodeLead at hs
  split at hs
  · cases hs
  · split at hs
    · next hlead =>
      cases hs
      exact highNext_ofLead? b s hlead
    · cases hs

theorem highNext_decodeByte (o : Option Sequence) (b : UInt8) : HighNext (decodeByte o b).2 := by
  intro s hs
  unfold decodeByte at hs
  split at hs
  · exact highNext_decodeLead b s hs
  · split at hs
    · dsimp only at hs
      split at hs
      · cases hs
      · cases hs
        exact UInt8.le_refl _
    · exact highNext_decodeLead b s hs

theorem decodeFrom_singleton (o : Option Sequence) (b : UInt8) :
    decodeFrom o [b] = (decodeByte o b).1 ++ decodeFrom (decodeByte o b).2 [] :=
  rfl

theorem decodeFrom_append_newline {o : Option Sequence} (ho : HighNext o) (bs : List UInt8) :
    decodeFrom o (bs ++ [10]) = decodeFrom o bs ++ ['\n'] := by
  induction bs generalizing o with
  | nil =>
    cases o with
    | none => rfl
    | some s =>
      have hlow : 0x80 ≤ s.low := ho s rfl
      have hnext : ¬(s.low ≤ 10 ∧ 10 ≤ s.high) := by
        rintro ⟨h, _⟩
        exact absurd (UInt8.le_trans hlow h) (by decide)
      have hbyte : decodeByte (some s) 10 = ([replacement, '\n'], none) := by
        unfold decodeByte
        dsimp only
        rw [if_neg hnext]
        rfl
      rw [List.nil_append, decodeFrom_singleton, hbyte]
      rfl
  | cons b bs ih =>
    rw [List.cons_append, decodeFrom, decodeFrom]
    simp only [ih (highNext_decodeByte o b), List.append_assoc]

theorem wordsFrom_append_blank {c : Char} (hc : isBlank c = true) (word cs : List Char) :
    wordsFrom word (cs ++ [c]) = wordsFrom word cs := by
  induction cs generalizing word with
  | nil =>
    simp only [List.nil_append, wordsFrom, if_pos hc]
    cases word <;> rfl
  | cons d cs ih =>
    rw [List.cons_append, wordsFrom, wordsFrom, ih, ih]

end Text

namespace Reader

open Text

/-- The newline at the end of a line is in none of its words. -/
theorem wordsOf_append_newline (body : List UInt8) : wordsOf (body ++ [10]) = wordsOf body := by
  unfold wordsOf decodeLossy
  have hstart : HighNext none := by
    intro s hs
    cases hs
  rw [decodeFrom_append_newline hstart]
  exact wordsFrom_append_blank (by decide) [] _

/-- What there is to take from some words and the lines behind theirs, each with the bytes that are
unread when it has been taken. -/
inductive Takes : List (List Char) → List (List UInt8) → List (Option Int64 × List UInt8) → Prop
  | ended : Takes [] [] []
  | line {line : List UInt8} {others : List (List UInt8)} {ts : List (Option Int64 × List UInt8)}
      (h : Takes (wordsOf line) others ts) : Takes [] (line :: others) ts
  | integer {word : List Char} {words : List (List Char)} {others : List (List UInt8)}
      {ts : List (Option Int64 × List UInt8)} {v : Int64} (hv : Denotes word v)
      (h : Takes words others ts) :
      Takes (word :: words) others ((some v, others.flatten) :: ts)
  | other {word : List Char} {words : List (List Char)} {others : List (List UInt8)}
      {ts : List (Option Int64 × List UInt8)} (hword : ∀ v, ¬Denotes word v)
      (h : Takes [] others ts) : Takes (word :: words) others ((none, others.flatten) :: ts)

theorem exists_takes (words : List (List Char)) (others : List (List UInt8)) :
    ∃ ts, Takes words others ts := by
  induction others generalizing words with
  | nil =>
    induction words with
    | nil => exact ⟨[], .ended⟩
    | cons word words ih =>
      obtain ⟨ts, hts⟩ := ih
      by_cases h : ∃ v, Denotes word v
      · obtain ⟨v, hv⟩ := h
        exact ⟨_, .integer hv hts⟩
      · exact ⟨_, .other (not_exists.1 h) .ended⟩
  | cons line others ih =>
    induction words with
    | nil =>
      obtain ⟨ts, hts⟩ := ih (wordsOf line)
      exact ⟨ts, .line hts⟩
    | cons word words ihw =>
      obtain ⟨ts, hts⟩ := ihw
      obtain ⟨us, hus⟩ := ih (wordsOf line)
      by_cases h : ∃ v, Denotes word v
      · obtain ⟨v, hv⟩ := h
        exact ⟨_, .integer hv hts⟩
      · exact ⟨_, .other (not_exists.1 h) (.line hus)⟩

theorem takeLines_of_not_mem {bs : List UInt8} (h : 10 ∉ bs) (line : List UInt8) :
    takeLines none line bs = (.ok (wordsOf (line.reverse ++ bs)), []) := by
  induction bs generalizing line with
  | nil => rw [List.append_nil]; rfl
  | cons b bs ih =>
    simp only [List.mem_cons, not_or] at h
    rw [takeLines, if_neg (Ne.symm h.1), ih h.2, List.reverse_cons, List.append_assoc]
    rfl

theorem takeLines_append_newline {body : List UInt8} (h : 10 ∉ body) (line rest : List UInt8) :
    takeLines none line (body ++ 10 :: rest) =
      match wordsOf (line.reverse ++ body) with
      | [] => takeLines none [] rest
      | words => (.ok words, rest) := by
  induction body generalizing line with
  | nil =>
    rw [List.append_nil]
    exact if_pos rfl
  | cons b body ih =>
    simp only [List.mem_cons, not_or] at h
    rw [List.cons_append, takeLines, if_neg (Ne.symm h.1), ih h.2, List.reverse_cons,
      List.append_assoc]
    rfl

/-- The lines up to the first one that has words are taken. -/
theorem takeLines_of_takes {bs : List UInt8} {ts : List (Option Int64 × List UInt8)}
    (h : Takes [] (lines bs) ts) : ∃ words rest, takeLines none [] bs = (.ok words, rest) ∧
      Takes words (lines rest) ts ∧ (words = [] → rest = []) := by
  induction hlen : bs.length using Nat.strongRecOn generalizing bs with
  | _ n ih =>
    rcases exists_first_line bs with hbs | ⟨body, rest, rfl, hbody⟩
    · refine ⟨wordsOf bs, [], takeLines_of_not_mem hbs [], ?_, fun _ => rfl⟩
      cases bs with
      | nil => exact h
      | cons b bs =>
        rw [lines_of_not_mem (List.cons_ne_nil b bs) hbs] at h
        cases h with
        | line h => exact h
    · rw [lines_append_newline hbody] at h
      cases h with
      | line h =>
        rw [wordsOf_append_newline] at h
        rw [takeLines_append_newline hbody, List.reverse_nil, List.nil_append]
        cases hwords : wordsOf body with
        | nil =>
          rw [hwords] at h
          apply ih rest.length _ h rfl
          rw [← hlen, List.length_append, List.length_cons]
          omega
        | cons word words =>
          rw [hwords] at h
          exact ⟨word :: words, rest, rfl, h, nofun⟩

structure Gives (p : Except Error (Option Int64) × Reader)
    (ts : List (Option Int64 × List UInt8)) : Prop where
  answer : p.1 = .ok (ts.head?.bind Prod.fst)
  unread : p.2.unread = (ts.head?.map Prod.snd).getD []
  broken : p.2.broken = none
  takes : Takes p.2.pending (lines p.2.unread) ts.tail

theorem gives_of_pending {bytes : List UInt8} {word : List Char} {words : List (List Char)}
    {ts : List (Option Int64 × List UInt8)} (h : Takes (word :: words) (lines bytes) ts) :
    Gives (takeInteger ⟨bytes, none, word :: words⟩) ts := by
  cases h with
  | @integer _ _ _ ts v hv h =>
    have htake :
        takeInteger ⟨bytes, none, word :: words⟩ = (.ok (some v), ⟨bytes, none, words⟩) := by
      simp only [takeInteger, takeWord, integer?_eq_some_iff.2 hv]
    rw [flatten_lines, htake]
    exact ⟨rfl, rfl, rfl, h⟩
  | @other _ _ _ ts hword h =>
    have hnone : integer? word = none := by
      rw [Option.eq_none_iff_forall_ne_some]
      intro v hv
      exact hword v (integer?_eq_some_iff.1 hv)
    have htake : takeInteger ⟨bytes, none, word :: words⟩ = (.ok none, ⟨bytes, none, []⟩) := by
      simp only [takeInteger, takeWord, hnone]
    rw [flatten_lines, htake]
    exact ⟨rfl, rfl, rfl, h⟩

theorem gives_of_takes {r : Reader} {ts : List (Option Int64 × List UInt8)}
    (hbroken : r.broken = none) (h : Takes r.pending (lines r.unread) ts) :
    Gives r.takeInteger ts := by
  obtain ⟨bytes, broken, pending⟩ := r
  obtain rfl : broken = none := hbroken
  cases pending with
  | cons word words => exact gives_of_pending h
  | nil =>
    obtain ⟨words, rest, hlines, hrest, hended⟩ := takeLines_of_takes h
    cases words with
    | nil =>
      obtain rfl := hended rfl
      obtain rfl : ts = [] := by
        cases hrest
        rfl
      have htake : takeInteger ⟨bytes, none, []⟩ = (.ok none, ⟨[], none, []⟩) := by
        simp only [takeInteger, takeWord, hlines]
      rw [htake]
      exact ⟨rfl, rfl, rfl, .ended⟩
    | cons word words =>
      have htake : takeInteger ⟨bytes, none, []⟩ = takeInteger ⟨rest, none, word :: words⟩ := by
        simp only [takeInteger, takeWord, hlines]
      rw [htake]
      exact gives_of_pending hrest

def takeIntegers : Nat → Reader → List (Except Error (Option Int64)) × Reader
  | 0, r => ([], r)
  | k + 1, r => (r.takeInteger.1 :: (takeIntegers k r.takeInteger.2).1,
      (takeIntegers k r.takeInteger.2).2)

theorem takeIntegers_of_takes {r : Reader} {ts : List (Option Int64 × List UInt8)}
    (hbroken : r.broken = none) (h : Takes r.pending (lines r.unread) ts) (k : Nat) :
    (takeIntegers k r).1 = (List.range k).map (fun i => .ok (ts[i]?.bind Prod.fst)) ∧
      (takeIntegers k r).2.unread = (r.unread :: ts.map Prod.snd)[k]?.getD [] := by
  induction k generalizing r ts with
  | zero => exact ⟨rfl, rfl⟩
  | succ k ih =>
    have hgives := gives_of_takes hbroken h
    obtain ⟨hanswers, hunread⟩ := ih hgives.broken hgives.takes
    constructor
    · rw [takeIntegers, hanswers, hgives.answer, List.range_succ_eq_map, List.map_cons,
        List.map_map]
      cases ts <;> rfl
    · rw [takeIntegers, hunread, hgives.unread]
      cases ts with
      | nil => cases k <;> rfl
      | cons t ts => rfl

/-- From any bytes, so many integers as are taken one after the other are what the lines of the
bytes give, and behind that nothing; and what has been read are the lines up to that of the last
word taken, or all when there was none left. -/
theorem takeIntegers_lines (bytes : List UInt8) :
    (lines bytes).flatten = bytes ∧ ∃ ts, Takes [] (lines bytes) ts ∧
      ∀ k, (takeIntegers k { unread := bytes }).1 =
          (List.range k).map (fun i => .ok (ts[i]?.bind Prod.fst)) ∧
        (takeIntegers k { unread := bytes }).2.unread =
          (bytes :: ts.map Prod.snd)[k]?.getD [] := by
  obtain ⟨ts, hts⟩ := exists_takes [] (lines bytes)
  exact ⟨flatten_lines bytes, ts, hts, fun k => takeIntegers_of_takes rfl hts k⟩

end Reader

end TeachLang
