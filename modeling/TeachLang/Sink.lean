import TeachLang.Error

/-!
# Where output goes

A sink may have room for only so many bytes, and then takes of a text as much as fits. It may also
fail whenever it is flushed.
-/

namespace TeachLang

structure Sink where
  written : ByteArray := .empty
  capacity : Option Nat := none
  flushError : Option String := none

namespace Sink

instance : DecidableEq Sink := fun s t =>
  decidable_of_iff
    (s.written.data = t.written.data ∧ s.capacity = t.capacity ∧ s.flushError = t.flushError) (by
    rw [← ByteArray.ext_iff]
    cases s
    cases t
    simp)

def fitting (s : Sink) (count : Nat) : Nat :=
  match s.capacity with
  | some n => min count (n - s.written.size)
  | none => count

def write (s : Sink) (text : String) : Except Error Unit × Sink :=
  let bytes := text.toUTF8
  let count := s.fitting bytes.size
  let s := { s with written := s.written ++ bytes.extract 0 count }
  if count = bytes.size then (.ok (), s) else (.error (.io "failed to write whole buffer"), s)

def flush (s : Sink) : Except Error Unit :=
  match s.flushError with
  | some text => .error (.io text)
  | none => .ok ()

theorem written_write (s : Sink) (text : String) :
    (s.write text).2.written = s.written ++ text.toUTF8.extract 0 (s.fitting text.toUTF8.size) := by
  simp only [write]
  split <;> rfl

theorem write_unlimited {s : Sink} (h : s.capacity = none) (text : String) :
    s.write text = (.ok (), { s with written := s.written ++ text.toUTF8 }) := by
  simp only [write, fitting, h, if_true, ByteArray.extract_zero_size]

end Sink

end TeachLang
