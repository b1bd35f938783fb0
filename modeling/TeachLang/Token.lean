import TeachLang.Text.Decimal

/-!
# Tokens

Tokens with one spelling have it in `Token.lexeme`; names and numbers carry what was read. The token
`endOfInput` has no spelling: it closes a token list wherever it stands.
-/

namespace TeachLang

inductive Token where
  | ident (name : String)
  | number (value : Int64)
  | ifWord | elseWord | whileWord | forWord | printWord | varWord
  | assign | plus | minus | times | divide | modulo
  | less | greater | lessEqual | greaterEqual | equal | notEqual
  | and | or | not | xor | question
  | leftParen | rightParen | leftBrace | rightBrace | comma | semicolon
  | endOfInput
  deriving DecidableEq

namespace Token

def lexeme : Token → Option String
  | ident _ | number _ | endOfInput => none
  | ifWord => some "if"
  | elseWord => some "else"
  | whileWord => some "while"
  | forWord => some "for"
  | printWord => some "print"
  | varWord => some "var"
  | assign => some "="
  | plus => some "+"
  | minus => some "-"
  | times => some "*"
  | divide => some "/"
  | modulo => some "%"
  | less => some "<"
  | greater => some ">"
  | lessEqual => some "<="
  | greaterEqual => some ">="
  | equal => some "=="
  | notEqual => some "!="
  | and => some "&&"
  | or => some "||"
  | not => some "!"
  | xor => some "^"
  | question => some "?"
  | leftParen => some "("
  | rightParen => some ")"
  | leftBrace => some "\x7b"
  | rightBrace => some "\x7d"
  | comma => some ","
  | semicolon => some ";"

def keyword? : String → Option Token
  | "if" => some ifWord
  | "else" => some elseWord
  | "while" => some whileWord
  | "for" => some forWord
  | "print" => some printWord
  | "var" => some varWord
  | _ => none

def ofWord (word : String) : Token := (keyword? word).getD (ident word)

def text : Token → String
  | ident name => "identifier '" ++ name ++ "'"
  | number value => "number " ++ Text.integerText value
  | endOfInput => "end of input"
  | t => "'" ++ t.lexeme.getD "" ++ "'"

end Token

end TeachLang
