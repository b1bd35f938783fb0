/-!
# Decimal integers

The texts of 64-bit words. A text may have a plus sign and leading zeros, which writing leaves out;
reading takes back all that is written (`integer?_integerChars`).
-/

namespace TeachLang.Text

def word? (n : Int) : Option Int64 :=
  if Int64.minValue.toInt ≤ n ∧ n ≤ Int64.maxValue.toInt then some (Int64.ofInt n) else none

def digitsValue (digits : List Char) : Nat := Nat.ofDigitChars 10 digits 0

def natural? (cs : List Char) : Option Nat :=
  if cs.isEmpty || !cs.all Char.isDigit then none else some (digitsValue cs)

def integer? : List Char → Option Int64
  | '-' :: cs => (natural? cs).bind fun n => word? (-(n : Int))
  | '+' :: cs => (natural? cs).bind fun n => word? n
  | cs => (natural? cs).bind fun n => word? n

def integerChars (v : Int64) : List Char :=
  let digits := Nat.toDigits 10 v.toInt.natAbs
  if v.toInt < 0 then '-' :: digits else digits

def integerText (v : Int64) : String := String.ofList (integerChars v)

theorem word?_toInt (v : Int64) : word? v.toInt = some v := by
  rw [word?, if_pos ⟨v.minValue_le_toInt, v.toInt_le⟩, Int64.ofInt_toInt]

theorem toInt_of_word? {n : Int} {v : Int64} (h : word? n = some v) : v.toInt = n := by
  rw [word?] at h
  split at h
  · next hrange =>
    cases h
    have hmin : Int64.minValue.toInt = -2 ^ 63 := rfl
    have hmax : Int64.maxValue.toInt = 2 ^ 63 - 1 := rfl
    exact Int64.toInt_ofInt_of_le (by omega) (by omega)
  · cases h

theorem isDigit_of_mem_toDigits {n : Nat} {c : Char} (h : c ∈ Nat.toDigits 10 n) : c.isDigit :=
  Nat.isDigit_of_mem_toDigits (by decide) (by decide) h

theorem natural?_toDigits (n : Nat) : natural? (Nat.toDigits 10 n) = some n := by
  unfold natural? digitsValue
  rw [if_neg, Nat.ofDigitChars_ten_toDigits]
  simpa [List.isEmpty_iff] using fun c => isDigit_of_mem_toDigits (c := c)

theorem integer?_of_all_isDigit {cs : List Char} (h : ∀ c ∈ cs, c.isDigit) :
    integer? cs = (natural? cs).bind fun n => word? n := by
  unfold integer?
  split
  · simpa using h '-' (by simp)
  · simpa using h '+' (by simp)
  · rfl

theorem integer?_integerChars (v : Int64) : integer? (integerChars v) = some v := by
  unfold integerChars
  split
  · change (natural? _).bind _ = _
    rw [natural?_toDigits]
    change word? _ = _
    rw [show -((v.toInt.natAbs : Nat) : Int) = v.toInt by omega, word?_toInt]
  · rw [integer?_of_all_isDigit fun c => isDigit_of_mem_toDigits, natural?_toDigits]
    change word? _ = _
    rw [show ((v.toInt.natAbs : Nat) : Int) = v.toInt by omega, word?_toInt]

end TeachLang.Text
