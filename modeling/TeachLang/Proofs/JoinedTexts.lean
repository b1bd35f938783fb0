import TeachLang.Proofs.Lines
import TeachLang.Proofs.Tiling

/-!
# Texts joined by a newline

The tokens of two texts with a newline between them are those of the first and those of the second,
further down. What the scan reports of a text, be it tokens or an error, lies on a line of the text:
so in texts that are short enough the lines further down are numbered in order.
-/

namespace TeachLang

open Lexer

variable {source : String} {file : Option String} {n : Nat}

/-- In front of a character of a text, no more lines have ended than there are characters. -/
theorem Position.line_past_start {before : List Char} (h : before.length < source.length)
    (hlength : source.length + n < UInt32.size) :
    1 ≤ (past {} before).line ∧ (past {} before).line.toNat + n < UInt32.size := by
  have hshort : before.length < UInt32.size - 1 := by omega
  obtain ⟨hline, -⟩ := past_start hshort
  have hlines := newlines_le_length before
  refine ⟨UInt32.le_iff_toNat_le.2 ?_, by omega⟩
  rw [hline]
  exact Nat.le_add_left 1 _

/-- A token that is scanned stands on a line of the text. -/
theorem span_of_mem_scan {ts : List Located} (h : scan source file = .ok ts)
    (hlength : source.length + n < UInt32.size) :
    ∀ l ∈ ts, 1 ≤ l.span.beginLine ∧ l.span.Lower n (l.span.down n) := by
  intro l hl
  obtain ⟨before, word, behind, htext, hword, hspan⟩ :=
    (tokens_eq_ok_iff.1 h).exists_word l hl
  have hpos := List.length_pos_iff.2 hword.ne_nil
  have htotal : source.length = before.length + word.length + behind.length := by
    rw [← String.length_toList, htext, List.length_append, List.length_append]
  have hfirst : before.length < source.length := by omega
  have hlast : (before ++ word.dropLast).length < source.length := by
    rw [List.length_append, List.length_dropLast]
    omega
  obtain ⟨hknown, hbegin⟩ := Position.line_past_start hfirst hlength
  obtain ⟨-, hend⟩ := Position.line_past_start hlast hlength
  rw [Position.past_append] at hend
  rw [hspan]
  exact ⟨hknown, Span.lower_down hbegin hend⟩

theorem span_of_scan_error {e : SyntaxError} (h : scan source file = .error e)
    (hlength : source.length + n < UInt32.size) : e.span.Lower n (e.span.down n) := by
  obtain ⟨before, rest, ts, htext, -, hstuck, hspan⟩ := tokens_eq_error_iff.1 h
  obtain ⟨c, cs, rfl, -⟩ := hstuck.exists_bare
  have hbefore : before.length < source.length := by
    rw [← String.length_toList, htext, List.length_append, List.length_cons]
    omega
  obtain ⟨-, hline⟩ := Position.line_past_start hbefore hlength
  rw [hspan]
  exact Span.lower_down hline hline

/-- Two texts with a newline between them fail as the first one does. If that does not fail, its
tokens come first, and what is reported of the second follows, be it tokens or an error, as many
lines further down as end in front of it. -/
theorem scan_joined (a b : String) (file : Option String)
    (hlength : a.length + b.length < UInt32.size - 1) :
    (∀ e, scan a file = .error e → scan (a ++ "\n" ++ b) file = .error e) ∧
    (∀ ts us, scan a file = .ok ts → scan b file = .ok us → scan (a ++ "\n" ++ b) file =
        .ok (ts ++ us.map (Located.down (newlines a.toList + 1))) ∧
      ∀ l ∈ us, l.span.Lower (newlines a.toList + 1)
        (l.down (newlines a.toList + 1)).span) ∧
    ∀ ts e, scan a file = .ok ts → scan b file = .error e → scan (a ++ "\n" ++ b) file =
        .error (e.down (newlines a.toList + 1)) ∧
      e.span.Lower (newlines a.toList + 1) (e.down (newlines a.toList + 1)).span := by
  have hjoined := scan_append_newline a b file
  have hlines : b.length + (newlines a.toList + 1) < UInt32.size := by
    have hle := newlines_le_length a.toList
    rw [String.length_toList] at hle
    omega
  refine ⟨fun e ha => ?_, fun ts us ha hb => ⟨?_, fun l hl => (span_of_mem_scan hb hlines l hl).2⟩,
    fun ts e ha hb => ⟨?_, span_of_scan_error hb hlines⟩⟩
  · rw [hjoined, ha]
    rfl
  · rw [hjoined, ha, hb]
    rfl
  · rw [hjoined, ha, hb]
    rfl

/-- No operator is put together across the newline, and the error is on the fourth line. -/
theorem scan_joined_of_second_error : "//\n  <".length + "= 1//\n&|".length < UInt32.size - 1 ∧
    scan "//\n  <" none = .ok [⟨.less, ⟨none, 2, 3, 2, 3⟩⟩] ∧
    scan "= 1//\n&|" none = .error ⟨.unknownCharacter '&', .point none 2 1⟩ ∧
    scan ("//\n  <" ++ "\n" ++ "= 1//\n&|") none =
      .error ⟨.unknownCharacter '&', .point none 4 1⟩ := by
  have hlength : "//\n  <".length + "= 1//\n&|".length < UInt32.size - 1 := by decide
  have hfirst : scan "//\n  <" none = .ok [⟨.less, ⟨none, 2, 3, 2, 3⟩⟩] := by decide +kernel
  have hsecond : scan "= 1//\n&|" none = .error ⟨.unknownCharacter '&', .point none 2 1⟩ := by
    decide +kernel
  obtain ⟨-, -, herror⟩ := scan_joined "//\n  <" "= 1//\n&|" none hlength
  exact ⟨hlength, hfirst, hsecond, (herror _ _ hfirst hsecond).1⟩

end TeachLang
