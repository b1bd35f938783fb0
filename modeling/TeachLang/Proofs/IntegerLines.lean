import TeachLang.Proofs.InputLines
import TeachLang.Proofs.Writing

/-!
# Lines that hold an integer each

Integers that are written one to a line are read back from the bytes of their lines: the text of an
integer is of visible ASCII characters, so that its bytes are decoded as what they were, hold no
newline, and make one word.
-/

namespace TeachLang

def printed : List Int64 → String
  | [] => ""
  | v :: vs => Text.integerText v ++ "\n" ++ printed vs

theorem printed_append (vs ws : List Int64) : printed (vs ++ ws) = printed vs ++ printed ws := by
  induction vs with
  | nil => exact String.empty_append.symm
  | cons v vs ih => simp only [List.cons_append, printed, ih, String.append_assoc]

theorem printed_singleton (v : Int64) : printed [v] = Text.integerText v ++ "\n" :=
  String.append_empty

namespace Text

def Visible (c : Char) : Prop := 33 ≤ c.toNat ∧ c.toNat ≤ 126

variable {cs : List Char}

theorem Visible.toNat_toUInt8 {c : Char} (h : Visible c) : c.toUInt8.toNat = c.toNat := by
  have hmod : c.toUInt8.toNat = c.toNat % 2 ^ 8 := UInt32.toNat_toUInt8 c.val
  unfold Visible at h
  omega

theorem visible_of_mem_integerChars {v : Int64} {c : Char} (h : c ∈ integerChars v) :
    Visible c := by
  have hdigits : ∀ d ∈ Nat.toDigits 10 v.toInt.natAbs, Visible d := by
    intro d hd
    have hrange := Lexer.toNat_of_isDigit (isDigit_of_mem_toDigits hd)
    unfold Visible
    omega
  unfold integerChars at h
  by_cases hv : v.toInt < 0
  · rw [if_pos hv] at h
    rcases List.mem_cons.1 h with rfl | h
    · unfold Visible
      decide
    · exact hdigits c h
  · rw [if_neg hv] at h
    exact hdigits c h

theorem integerChars_ne_nil (v : Int64) : integerChars v ≠ [] := by
  unfold integerChars
  by_cases hv : v.toInt < 0
  · rw [if_pos hv]
    exact List.cons_ne_nil _ _
  · rw [if_neg hv]
    exact List.ne_nil_of_length_pos Nat.length_toDigits_pos

theorem bytes_of_visible (h : ∀ c ∈ cs, Visible c) :
    (String.ofList cs).toUTF8.data.toList = cs.map Char.toUInt8 := by
  rw [String.toUTF8_eq_toByteArray, String.toByteArray_ofList]
  induction cs with
  | nil => rfl
  | cons c cs ih =>
    obtain ⟨hc, hcs⟩ := List.forall_mem_cons.1 h
    have hsize : c.utf8Size = 1 :=
      Char.utf8Size_eq_one_iff.2 (UInt32.le_iff_toNat_le.2 (Nat.le_succ_of_le hc.2))
    rw [List.utf8Encode_cons, ByteArray.toList_data_append, ih hcs, List.utf8Encode_singleton,
      String.utf8EncodeChar_eq_singleton hsize]
    rfl

theorem newline_not_mem_bytes (h : ∀ c ∈ cs, Visible c) : 10 ∉ cs.map Char.toUInt8 := by
  intro hmem
  obtain ⟨c, hc, hbyte⟩ := List.mem_map.1 hmem
  have htoNat := (h c hc).toNat_toUInt8
  rw [hbyte] at htoNat
  exact absurd (htoNat ▸ (h c hc).1) (by decide)

theorem decodeLossy_bytes (h : ∀ c ∈ cs, Visible c) : decodeLossy (cs.map Char.toUInt8) = cs := by
  unfold decodeLossy
  induction cs with
  | nil => rfl
  | cons c cs ih =>
    obtain ⟨hc, hcs⟩ := List.forall_mem_cons.1 h
    have hlow : c.toUInt8 < 0x80 := by
      rw [UInt8.lt_iff_toNat_lt, hc.toNat_toUInt8]
      exact Nat.lt_of_le_of_lt hc.2 (by decide)
    have hbyte : decodeByte none c.toUInt8 = ([c], none) := by
      rw [decodeByte, decodeLead, if_pos hlow, hc.toNat_toUInt8, Char.ofNat_toNat]
    simp only [List.map_cons, decodeFrom, hbyte, ih hcs, List.cons_append, List.nil_append]

theorem wordsFrom_of_visible {word : List Char} (h : ∀ c ∈ cs, Visible c) (hne : word ++ cs ≠ []) :
    wordsFrom word cs = [word ++ cs] := by
  induction cs generalizing word with
  | nil =>
    rw [List.append_nil] at hne ⊢
    rw [wordsFrom, if_neg (mt List.isEmpty_iff.1 hne)]
  | cons c cs ih =>
    obtain ⟨hc, hcs⟩ := List.forall_mem_cons.1 h
    have hblank : ¬isBlank c = true := Bool.eq_false_iff.1 (Lexer.isBlank_eq_false hc.1 hc.2)
    have hsplit : word ++ c :: cs = word ++ [c] ++ cs := by rw [List.append_assoc]; rfl
    rw [hsplit] at hne ⊢
    rw [wordsFrom, if_neg hblank, ih hcs hne]

end Text

namespace Reader

open Text

/-- The line of an integer has one word, its text. -/
theorem wordsOf_integerChars (v : Int64) :
    wordsOf ((integerChars v).map Char.toUInt8 ++ [10]) = [integerChars v] := by
  have hvisible : ∀ c ∈ integerChars v, Visible c := fun c => visible_of_mem_integerChars
  rw [wordsOf_append_newline, wordsOf, decodeLossy_bytes hvisible]
  exact wordsFrom_of_visible hvisible (integerChars_ne_nil v)

theorem bytes_printed_cons (v : Int64) (vs : List Int64) :
    (printed (v :: vs)).toUTF8.data.toList =
      (integerChars v).map Char.toUInt8 ++ 10 :: (printed vs).toUTF8.data.toList := by
  have hvisible : ∀ c ∈ integerChars v, Visible c := fun c => visible_of_mem_integerChars
  have hline := bytes_of_visible hvisible
  rw [String.toUTF8_eq_toByteArray] at hline ⊢
  rw [printed, integerText, String.toByteArray_append, String.toByteArray_append,
    ByteArray.toList_data_append, ByteArray.toList_data_append, hline, List.append_assoc]
  rfl

theorem takes_printed (vs : List Int64) :
    ∃ ts, Takes [] (lines (printed vs).toUTF8.data.toList) ts ∧ ts.map Prod.fst = vs.map some := by
  induction vs with
  | nil => exact ⟨[], .ended, rfl⟩
  | cons v vs ih =>
    obtain ⟨ts, hts, hvalues⟩ := ih
    have hnewline : 10 ∉ (integerChars v).map Char.toUInt8 :=
      newline_not_mem_bytes fun c => visible_of_mem_integerChars
    have htext : Denotes (integerChars v) v := integer?_eq_some_iff.1 (integer?_integerChars v)
    rw [bytes_printed_cons, lines_append_newline hnewline]
    have hline := Takes.integer htext hts
    rw [← wordsOf_integerChars] at hline
    exact ⟨_, .line hline, congrArg (some v :: ·) hvalues⟩

/-- Integers written one to a line are read back in order, and nothing behind the last. -/
theorem takeIntegers_printed (vs : List Int64) (k : Nat) :
    (takeIntegers k { unread := (printed vs).toUTF8.data.toList }).1 =
      (List.range k).map fun i => .ok vs[i]? := by
  obtain ⟨ts, hts, hvalues⟩ := takes_printed vs
  have hith : ∀ i : Nat, ts[i]?.bind Prod.fst = vs[i]? := by
    intro i
    have hmap : (ts.map Prod.fst)[i]? = (vs.map some)[i]? := by rw [hvalues]
    rw [List.getElem?_map, List.getElem?_map] at hmap
    have hbind : ts[i]?.bind Prod.fst = (ts[i]?.map Prod.fst).bind id := by cases ts[i]? <;> rfl
    rw [hbind, hmap]
    cases vs[i]? <;> rfl
  rw [(takeIntegers_of_takes rfl hts k).1]
  exact List.map_congr_left fun i _ => congrArg Except.ok (hith i)

end Reader

end TeachLang
