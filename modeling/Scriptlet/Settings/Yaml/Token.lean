import Scriptlet.Settings.Yaml.Scalar

/-!
# YAML tokens

The reader of tokens keeps the indentation of the blocks it is in, and where a
key may stand that is not marked as one. A colon behind such a place makes it a
key after the fact: the marks of the key, and of a mapping that it opens, are put
in front of the tokens read since. A key stands on one line and is no longer than
1024 characters; where lines of a mapping start, there has to be one.

References, tags and directives are refused.
-/

namespace Scriptlet

namespace Yaml

inductive Token where
  | streamEnd
  | documentStart
  | documentEnd
  | blockSequence
  | blockMapping
  | blockEnd
  | openBracket
  | closeBracket
  | openBrace
  | closeBrace
  | dash
  | comma
  | key
  | value
  | scalar (content : Text) (isPlain : Bool)
deriving DecidableEq, Repr

/-- A place that may turn out to be a key, with the number of tokens before
it. -/
structure KeyPlace where
  isRequired : Bool
  number : Nat
  index : Nat
  line : Nat
  column : Nat
deriving DecidableEq, Repr

/-- `keys` has a place for each bracket or brace that is open, and one for the
blocks outside of them; the innermost comes first. -/
structure Reader where
  place : Place
  tokens : List Token
  indent : Int
  indents : List Int
  keyAllowed : Bool
  keys : List (Option KeyPlace)
deriving DecidableEq, Repr

namespace Reader

def start (cs : Chars) : Reader := ⟨.start cs, [], -1, [], true, [none]⟩

def isFlow (r : Reader) : Bool := 1 < r.keys.length

def isAt (r : Reader) (c : Nat) : Bool := r.place.isAt c

/-- Whether the character after the next one ends a word. -/
def endsWordNext (r : Reader) : Bool := Chars.endsWord (r.place.rest.drop 1)

/-- Adds a token that takes `width` characters. -/
def push (r : Reader) (width : Nat) (t : Token) : Reader :=
  { r with place := r.place.skip width, tokens := r.tokens ++ [t] }

/-! ## Keys -/

/-- Gives up the place of a key, unless there has to be one. -/
def dropKey? (r : Reader) : Option Reader :=
  match r.keys with
  | some k :: outer => if k.isRequired then none else some { r with keys := none :: outer }
  | _ => some r

/-- Remembers this place for a key, where one is allowed. -/
def saveKey? (r : Reader) : Option Reader :=
  if r.keyAllowed then
    r.dropKey?.map fun r =>
      let p := r.place
      let isRequired := !r.isFlow && r.indent = p.column
      let k : KeyPlace := ⟨isRequired, r.tokens.length, p.index, p.line, p.column⟩
      { r with keys := some k :: r.keys.tail }
  else some r

/-- The longest key. -/
def keyLimit : Nat := 1024

/-- The place of a key that a colon here belongs to. A place that is too far
back is none; it is an error when there had to be a key. -/
def keyHere? (r : Reader) : Option (Option KeyPlace) :=
  match r.keys with
  | some k :: _ =>
      if k.line < r.place.line || k.index + keyLimit < r.place.index then
        if k.isRequired then none else some none
      else some (some k)
  | _ => some none

/-! ## Indentation -/

/-- Closes the blocks that are indented further than a column. -/
def unroll (column : Int) : List Int → Reader → Reader
  | [], r => r
  | outer :: more, r =>
      if !r.isFlow && column < r.indent then
        unroll column more
          { r with tokens := r.tokens ++ [.blockEnd], indent := outer, indents := more }
      else r

/-- Opens a block at a column, unless there is one, with its token in front of
the `number`th. -/
def roll (column : Nat) (number : Nat) (t : Token) (r : Reader) : Reader :=
  if !r.isFlow && r.indent < column then
    { r with
      tokens := r.tokens.take number ++ t :: r.tokens.drop number
      indent := column
      indents := r.indent :: r.indents }
  else r

/-! ## Single tokens -/

/-- A mark between documents closes all blocks. -/
def documentMark? (width : Nat) (t : Token) (r : Reader) : Option Reader :=
  (unroll (-1) r.indents r).dropKey?.map fun r => { r with keyAllowed := false }.push width t

def openFlow? (t : Token) (r : Reader) : Option Reader :=
  r.saveKey?.map fun r => { r with keys := none :: r.keys, keyAllowed := true }.push 1 t

def closeFlow? (t : Token) (r : Reader) : Option Reader :=
  r.dropKey?.map fun r =>
    { r with keys := if r.isFlow then r.keys.tail else r.keys, keyAllowed := false }.push 1 t

def comma? (r : Reader) : Option Reader :=
  r.dropKey?.map fun r => { r with keyAllowed := true }.push 1 .comma

/-- Opens a block at this place, where a key is allowed. In brackets and braces
nothing is opened. -/
def openBlock? (t : Token) (r : Reader) : Option Reader :=
  if r.isFlow then some r
  else if r.keyAllowed then some (roll r.place.column r.tokens.length t r)
  else none

def dash? (r : Reader) : Option Reader :=
  (r.openBlock? .blockSequence).bind fun r =>
    r.dropKey?.map fun r => { r with keyAllowed := true }.push 1 .dash

def key? (r : Reader) : Option Reader :=
  (r.openBlock? .blockMapping).bind fun r =>
    r.dropKey?.map fun r => { r with keyAllowed := !r.isFlow }.push 1 .key

def value? (r : Reader) : Option Reader :=
  r.keyHere?.bind fun found =>
    match found with
    | some k =>
        let marked :=
          { r with tokens := r.tokens.take k.number ++ .key :: r.tokens.drop k.number }
        let opened := roll k.column k.number .blockMapping marked
        some ({ opened with keys := none :: r.keys.tail, keyAllowed := false }.push 1 .value)
    | none =>
        (r.openBlock? .blockMapping).map fun r =>
          { r with keys := none :: r.keys.tail, keyAllowed := !r.isFlow }.push 1 .value

/-- Adds a scalar that was read at this place. -/
def scalar (isPlain : Bool) (s : Scanned) (r : Reader) : Reader :=
  { r with place := s.place, tokens := r.tokens ++ [.scalar s.content.toText isPlain] }

def plainScalar? (r : Reader) : Option Reader :=
  r.saveKey?.bind fun r =>
    (plain? r.isFlow (r.indent + 1) r.place).map fun s =>
      { r.scalar true s with keyAllowed := s.isBroken }

def quotedScalar? (quote : Nat) (r : Reader) : Option Reader :=
  r.saveKey?.bind fun r =>
    (quoted? quote r.place).map fun s => { r.scalar false s with keyAllowed := false }

def blockScalar? (literal : Bool) (r : Reader) : Option Reader :=
  r.dropKey?.bind fun r =>
    (block? literal r.indent r.place).map fun s => { r.scalar false s with keyAllowed := true }

/-! ## All tokens -/

/-- Steps over blanks, comments and line ends. Where a key may stand outside of
brackets and braces, a tab is no blank. -/
def skipIdle : Nat → Reader → Reader
  | 0, r => r
  | fuel + 1, r =>
      let isIdle (c : Nat) : Bool := c = 0x20 || (c = 0x09 && (r.isFlow || !r.keyAllowed))
      let p := r.place.skip (r.place.rest.takeWhile isIdle).length
      let p := if p.isAt 0x23 then p.skip (p.rest.takeWhile (!isBreak ·)).length else p
      if p.atBreak then
        skipIdle fuel { r with place := p.takeBreak.2, keyAllowed := r.keyAllowed || !r.isFlow }
      else { r with place := p }

/-- Characters that no plain scalar starts with. -/
def indicators : Chars :=
  [0x2d, 0x3f, 0x3a, 0x2c, 0x5b, 0x5d, 0x7b, 0x7d, 0x23, 0x26, 0x2a, 0x21, 0x7c, 0x3e, 0x27, 0x22,
   0x25, 0x40, 0x60]

/-- The token that starts with a character. A dash, and outside of brackets and
braces a question mark or a colon, starts a word when one follows it. -/
def token? (c : Nat) (r : Reader) : Option Reader :=
  if r.place.atMark 0x2d then r.documentMark? 3 .documentStart
  else if r.place.atMark 0x2e then r.documentMark? 3 .documentEnd
  else if c = 0x5b then r.openFlow? .openBracket
  else if c = 0x7b then r.openFlow? .openBrace
  else if c = 0x5d then r.closeFlow? .closeBracket
  else if c = 0x7d then r.closeFlow? .closeBrace
  else if c = 0x2c then r.comma?
  else if c = 0x2d && r.endsWordNext then r.dash?
  else if c = 0x3f && (r.isFlow || r.endsWordNext) then r.key?
  else if c = 0x3a && (r.isFlow || r.endsWordNext) then r.value?
  else if c = 0x7c && !r.isFlow then r.blockScalar? true
  else if c = 0x3e && !r.isFlow then r.blockScalar? false
  else if c = 0x27 || c = 0x22 then r.quotedScalar? c
  else if !indicators.contains c || c = 0x2d || (!r.isFlow && (c = 0x3f || c = 0x3a)) then
    if isSpace c then none else r.plainScalar?
  else none

/-- Reads one token more, with those that come with it. -/
def next? (r : Reader) : Option Reader :=
  let r := r.skipIdle (r.place.rest.length + 1)
  let r := unroll r.place.column r.indents r
  match r.place.head? with
  | none => r.documentMark? 0 .streamEnd
  | some c => r.token? c

end Reader

/-- The tokens of a stream. `sound` is there when an error follows them, and
tells how many were read before it. -/
structure Tokens where
  all : Array Token
  sound : Option Nat
deriving DecidableEq, Repr

def readFrom : Nat → Reader → Tokens
  | 0, r => ⟨r.tokens.toArray, none⟩
  | fuel + 1, r =>
      match r.next? with
      | none => ⟨r.tokens.toArray, some r.tokens.length⟩
      | some r =>
          if r.tokens.getLast? = some .streamEnd then ⟨r.tokens.toArray, none⟩
          else readFrom fuel r

/-- The tokens of a document; each takes a character at least. -/
def Tokens.read (cs : Chars) : Tokens := readFrom (cs.length + 1) (.start cs)

/-- The token at a position. Two more are read before it is used, so an error
close behind it is an error here. -/
def Tokens.peek? (t : Tokens) (i : Nat) : Option Token :=
  match t.sound with
  | some n => if n < i + 3 then none else t.all[i]?
  | none => t.all[i]?

end Yaml

end Scriptlet
