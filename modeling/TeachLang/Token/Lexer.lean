import TeachLang.Error
import TeachLang.Text.Blank
import TeachLang.Text.Decimal
import TeachLang.Token

/-!
# From text to tokens

A token is the longest spelling that stands at its place. Blanks and comments, which run from `//`
to the end of the line, separate tokens and are dropped. Only a newline ends a line.
-/

namespace TeachLang

structure Located where
  token : Token
  span : Span
  deriving DecidableEq

structure Position where
  line : UInt32 := 1
  column : UInt32 := 1
  deriving DecidableEq

def Position.after (p : Position) (c : Char) : Position :=
  if c = '\n' then ⟨p.line + 1, 1⟩ else ⟨p.line, p.column + 1⟩

def Position.right (n : Nat) (p : Position) : Position := ⟨p.line, p.column + .ofNat n⟩

namespace Lexer

def isNameStart (c : Char) : Bool := c.isAlpha || c = '_'

def isNamePart (c : Char) : Bool := c.isAlphanum || c = '_'

def skip (inComment : Bool) (p : Position) : List Char → Position × List Char
  | [] => (p, [])
  | c :: cs =>
    if inComment then skip (c ≠ '\n') (p.after c) cs
    else if Text.isBlank c then skip false (p.after c) cs
    else if c = '/' ∧ cs.head? = some '/' then skip true (p.after c) cs
    else (p, c :: cs)

theorem length_skip_le (inComment : Bool) (p : Position) (cs : List Char) :
    (skip inComment p cs).2.length ≤ cs.length := by
  induction cs generalizing inComment p with
  | nil => simp [skip]
  | cons c cs ih =>
    unfold skip
    split
    · exact Nat.le_succ_of_le (ih ..)
    · split
      · exact Nat.le_succ_of_le (ih ..)
      · split
        · exact Nat.le_succ_of_le (ih ..)
        · simp

/-- A token at the front of a text: what it is, how many characters spell it, and what follows. -/
structure Reading where
  token : Token
  width : Nat
  rest : List Char

def oneOrTwo (c : Char) (single double : Token) (cs : List Char) : Reading :=
  match cs with
  | d :: rest => if d = c then ⟨double, 2, rest⟩ else ⟨single, 1, cs⟩
  | [] => ⟨single, 1, []⟩

/-- The tokens that are one character and begin no longer token. -/
def single? : Char → Option Token
  | '+' => some .plus
  | '-' => some .minus
  | '*' => some .times
  | '/' => some .divide
  | '%' => some .modulo
  | '^' => some .xor
  | '?' => some .question
  | '(' => some .leftParen
  | ')' => some .rightParen
  | '{' => some .leftBrace
  | '}' => some .rightBrace
  | ',' => some .comma
  | ';' => some .semicolon
  | _ => none

def doubled (c : Char) (token : Token) (cs : List Char) : Except SyntaxCause Reading :=
  match cs with
  | d :: rest => if d = c then .ok ⟨token, 2, rest⟩ else .error (.unknownCharacter c)
  | [] => .error (.unknownCharacter c)

/-- The longest token at the front of the text `c :: cs`, which begins with no blank or comment. -/
def read (c : Char) (cs : List Char) : Except SyntaxCause Reading :=
  if isNameStart c then
    let name := c :: cs.takeWhile isNamePart
    .ok ⟨Token.ofWord (String.ofList name), name.length, cs.dropWhile isNamePart⟩
  else if c.isDigit then
    let digits := c :: cs.takeWhile Char.isDigit
    match Text.word? (Text.digitsValue digits) with
    | some value => .ok ⟨.number value, digits.length, cs.dropWhile Char.isDigit⟩
    | none => .error (.invalidNumber (String.ofList digits))
  else if c = '=' then .ok (oneOrTwo '=' .assign .equal cs)
  else if c = '!' then .ok (oneOrTwo '=' .not .notEqual cs)
  else if c = '<' then .ok (oneOrTwo '=' .less .lessEqual cs)
  else if c = '>' then .ok (oneOrTwo '=' .greater .greaterEqual cs)
  else if c = '&' then doubled '&' .and cs
  else if c = '|' then doubled '|' .or cs
  else match single? c with
    | some token => .ok ⟨token, 1, cs⟩
    | none => .error (.unknownCharacter c)

/-- The tokens of a text of at most `bound` characters that begins at `p`. -/
def tokensFrom (file : Option String) : Nat → Position → List Char →
    Except SyntaxError (List Located)
  | 0, _, _ => .ok []
  | bound + 1, p, text =>
    match skip false p text with
    | (_, []) => .ok []
    | (p, c :: cs) =>
      match read c cs with
      | .error cause => .error ⟨cause, .point file p.line p.column⟩
      | .ok r => do
        let behind := p.right r.width
        let others ← tokensFrom file bound behind r.rest
        return ⟨r.token, ⟨file, p.line, p.column, behind.line, behind.column - 1⟩⟩ :: others

end Lexer

def scan (source : String) (file : Option String) : Except SyntaxError (List Located) :=
  Lexer.tokensFrom file source.toList.length {} source.toList

end TeachLang
