import Scriptlet.Text.Basic

/-!
# Kinds of tokens

Six kinds are classes of many lexemes; every other kind has one spelling, which
is also its name. The keyword and symbol tables are lists of kinds, so a table
entry is always spelt the way its kind is named.
-/

namespace Scriptlet

inductive Kind where
  | illegal | eof | string | integer | float | ident
  | true_ | false_ | let_ | return_ | func | if_ | else_ | for_
  | plus | minus | star | slash | comma | semicolon
  | assign | equal | notEqual | plusAssign | minusAssign | starAssign | slashAssign
  | greater | less | greaterEqual | lessEqual
  | openParen | closeParen | openBrace | closeBrace
  | and | andAnd | or | orOr | not
deriving DecidableEq, Repr

namespace Kind

/-- All kinds in the order of their numbers. -/
def all : List Kind :=
  [illegal, eof, string, integer, float, ident,
   true_, false_, let_, return_, func, if_, else_, for_,
   plus, minus, star, slash, comma, semicolon,
   assign, equal, notEqual, plusAssign, minusAssign, starAssign, slashAssign,
   greater, less, greaterEqual, lessEqual,
   openParen, closeParen, openBrace, closeBrace,
   and, andAnd, or, orOr, not]

def number (k : Kind) : Nat := all.idxOf k

def name : Kind → Text
  | illegal => text "ILLEGAL"
  | eof => text "EOF"
  | string => text "STRING"
  | integer => text "INTEGER"
  | float => text "FLOAT"
  | ident => text "IDENT"
  | true_ => text "true"
  | false_ => text "false"
  | let_ => text "let"
  | return_ => text "return"
  | func => text "func"
  | if_ => text "if"
  | else_ => text "else"
  | for_ => text "for"
  | plus => text "+"
  | minus => text "-"
  | star => text "*"
  | slash => text "/"
  | comma => text ","
  | semicolon => text ";"
  | assign => text "="
  | equal => text "=="
  | notEqual => text "!="
  | plusAssign => text "+="
  | minusAssign => text "-="
  | starAssign => text "*="
  | slashAssign => text "/="
  | greater => text ">"
  | less => text "<"
  | greaterEqual => text ">="
  | lessEqual => text "<="
  | openParen => text "("
  | closeParen => text ")"
  | openBrace => text "\x7b"
  | closeBrace => text "\x7d"
  | and => text "&"
  | andAnd => text "&&"
  | or => text "|"
  | orOr => text "||"
  | not => text "!"

/-- The name of the kind with a given number; numbers that no kind has are
unknown. -/
def nameOfNumber (n : Int) : Text :=
  if n < 0 then text "UNKNOWN" else (all[n.toNat]?.map name).getD (text "UNKNOWN")

def ofName? (s : Text) : Option Kind := all.find? (·.name == s)

/-! ## Tables -/

def keywords : List Kind := [true_, false_, let_, return_, func, if_, else_, for_]

def singles : List Kind :=
  [plus, minus, star, slash, comma, semicolon, assign, greater, less,
   openParen, closeParen, openBrace, closeBrace, and, or, not]

def doubles : List Kind :=
  [orOr, greaterEqual, lessEqual, andAnd, equal, notEqual,
   plusAssign, minusAssign, starAssign, slashAssign]

/-- The kind of a word: its keyword, or an identifier. -/
def ofWord (word : Text) : Kind := (keywords.find? (·.name == word)).getD ident

/-- The symbol at the head of a text; a symbol of two bytes wins over its
first byte. -/
def symbolAt? (s : Text) : Option Kind :=
  (doubles ++ singles).find? (·.name.isPrefixOf s)

/-- How a message asks for a kind: classes by name, spellings in quotes. -/
def described : Kind → Text
  | ident => name ident
  | integer => name integer
  | float => name float
  | string => name string
  | eof => name eof
  | illegal => name illegal
  | k => text "'" ++ k.name ++ text "'"

end Kind

end Scriptlet
