/-!
# Reading UTF-8 that may be damaged

Bytes are decoded one after the other. A sequence that breaks off, or a byte that begins none,
becomes one replacement character; the byte at which a sequence breaks off is read anew. The
ranges allowed for a second byte leave out overlong forms, surrogates and values above U+10FFFF.
-/

namespace TeachLang.Text

def replacement : Char := '\uFFFD'

/-- A sequence of which some bytes are still to come: how many, between which bounds the next one
lies, and the bits read so far. -/
structure Sequence where
  missing : Nat
  low : UInt8
  high : UInt8
  bits : Nat

def Sequence.ofLead? (b : UInt8) : Option Sequence :=
  if 0xC2 ≤ b ∧ b ≤ 0xDF then some ⟨1, 0x80, 0xBF, b.toNat - 0xC0⟩
  else if b = 0xE0 then some ⟨2, 0xA0, 0xBF, 0⟩
  else if b = 0xED then some ⟨2, 0x80, 0x9F, 0x0D⟩
  else if 0xE1 ≤ b ∧ b ≤ 0xEF then some ⟨2, 0x80, 0xBF, b.toNat - 0xE0⟩
  else if b = 0xF0 then some ⟨3, 0x90, 0xBF, 0⟩
  else if 0xF1 ≤ b ∧ b ≤ 0xF3 then some ⟨3, 0x80, 0xBF, b.toNat - 0xF0⟩
  else if b = 0xF4 then some ⟨3, 0x80, 0x8F, 4⟩
  else none

def decodeLead (b : UInt8) : List Char × Option Sequence :=
  if b < 0x80 then ([Char.ofNat b.toNat], none)
  else match Sequence.ofLead? b with
    | some s => ([], some s)
    | none => ([replacement], none)

def decodeByte (open? : Option Sequence) (b : UInt8) : List Char × Option Sequence :=
  match open? with
  | none => decodeLead b
  | some s =>
    if s.low ≤ b ∧ b ≤ s.high then
      let bits := s.bits * 64 + (b.toNat - 0x80)
      if s.missing ≤ 1 then ([Char.ofNat bits], none)
      else ([], some ⟨s.missing - 1, 0x80, 0xBF, bits⟩)
    else
      let (cs, next) := decodeLead b
      (replacement :: cs, next)

def decodeFrom (open? : Option Sequence) : List UInt8 → List Char
  | [] => if open?.isSome then [replacement] else []
  | b :: bs =>
    let (cs, next) := decodeByte open? b
    cs ++ decodeFrom next bs

/-- The text of some bytes, with a replacement character for each damaged part. -/
def decodeLossy (bytes : List UInt8) : List Char := decodeFrom none bytes

end TeachLang.Text
