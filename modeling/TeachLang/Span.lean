/-!
# Spans of source text

Lines and columns are counted from 1 and the end of a span is included in it. Line 0 marks a
place that is in no source, such as that of a node made by hand; it is left out of messages.
The counters have 32 bits and wrap around.
-/

namespace TeachLang

structure Span where
  file : Option String := none
  beginLine : UInt32 := 0
  beginColumn : UInt32 := 0
  endLine : UInt32 := 0
  endColumn : UInt32 := 0
  deriving DecidableEq, Inhabited

namespace Span

def point (file : Option String) (line column : UInt32) : Span :=
  ⟨file, line, column, line, column⟩

def known (s : Span) : Bool := 0 < s.beginLine

def through (s e : Span) : Span := { s with endLine := e.endLine, endColumn := e.endColumn }

def text (s : Span) : String :=
  let place := toString s.beginLine.toNat ++ ":" ++ toString s.beginColumn.toNat
  match s.file with
  | some file => file ++ ":" ++ place
  | none => place

end Span

def diagnostic (place : Option Span) (message : String) : String :=
  match place with
  | some s => if s.known then s.text ++ ": error: " ++ message else "error: " ++ message
  | none => "error: " ++ message

end TeachLang
