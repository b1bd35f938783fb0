import TeachLang.Error
import TeachLang.Text.Blank
import TeachLang.Text.Decimal
import TeachLang.Text.Utf8

/-!
# Reading integers

Input is taken line by line, when no word of the line before is left. The words of a line are read
one at a time; a word that is no integer takes the rest of its line with it.
-/

namespace TeachLang

/-- A source of bytes and the words of the line last taken from it. Where the bytes end, a source
may report that it is broken instead of ended. -/
structure Reader where
  unread : List UInt8 := []
  broken : Option String := none
  pending : List (List Char) := []
  deriving DecidableEq

namespace Reader

def wordsOf (line : List UInt8) : List (List Char) := Text.words (Text.decodeLossy line)

/-- Takes lines until one has words, and gives these words and the bytes behind the line. What is
read of a line already stands in `line`, backwards. In front of a break an unfinished line is
lost. -/
def takeLines (broken : Option String) (line : List UInt8) :
    List UInt8 → Except Error (List (List Char)) × List UInt8
  | [] =>
    match broken with
    | some text => (.error (.io text), [])
    | none => (.ok (wordsOf line.reverse), [])
  | b :: bs =>
    if b = 10 then
      match wordsOf line.reverse with
      | [] => takeLines broken [] bs
      | words => (.ok words, bs)
    else takeLines broken (b :: line) bs

def takeWord (r : Reader) : Except Error (Option (List Char)) × Reader :=
  match r.pending with
  | word :: words => (.ok (some word), { r with pending := words })
  | [] =>
    match takeLines r.broken [] r.unread with
    | (.error e, rest) => (.error e, { r with unread := rest })
    | (.ok [], rest) => (.ok none, { r with unread := rest })
    | (.ok (word :: words), rest) => (.ok (some word), { r with unread := rest, pending := words })

def takeInteger (r : Reader) : Except Error (Option Int64) × Reader :=
  match r.takeWord with
  | (.error e, r) => (.error e, r)
  | (.ok none, r) => (.ok none, r)
  | (.ok (some word), r) =>
    match Text.integer? word with
    | some value => (.ok (some value), r)
    | none => (.ok none, { r with pending := [] })

end Reader

end TeachLang
