import Scriptlet.Text.Escape

/-!
# Places in a YAML document

A document is read as characters, and a place in it counts them: from the start
of the document, and from the start of the line. Lines end with a newline, a
carriage return or both, or with one of the three line ends that Unicode adds.
All but the last two of those stand for a newline in a text.
-/

namespace Scriptlet

namespace Yaml

/-! ## Characters -/

abbrev Chars := List Nat

def isBlank (c : Nat) : Bool := c = 0x20 || c = 0x09

def isBreak (c : Nat) : Bool := c = 0x0a || c = 0x0d || c = 0x85 || c = 0x2028 || c = 0x2029

def isSpace (c : Nat) : Bool := isBlank c || isBreak c

/-- Characters a document may hold: no controls but tab, line end and next
line, and no noncharacters at the end of the basic plane. -/
def isAllowed (code : Nat) : Bool :=
  code = 0x09 || code = 0x0a || code = 0x0d || (0x20 ≤ code && code ≤ 0x7e) || code = 0x85
    || (0xa0 ≤ code && code ≤ 0xfffd) || 0x10000 ≤ code

/-- The characters of a document, if it may hold all of them. -/
def chars? (content : Text) : Option Chars :=
  (Utf8.pieces content).mapM fun piece =>
    match piece with
    | .character code _ => if isAllowed code then some code else none
    | .stray _ => none

def Chars.toText (cs : Chars) : Text := cs.flatMap fun c => (Utf8.encode? c).getD []

/-- A word ends before these characters: a blank, a line end, or the end. -/
def Chars.endsWord : Chars → Bool
  | [] => true
  | c :: _ => isSpace c

/-! ## Places -/

structure Place where
  rest : Chars
  index : Nat
  line : Nat
  column : Nat
deriving DecidableEq, Repr

namespace Place

def start (cs : Chars) : Place := ⟨cs, 0, 0, 0⟩

def head? (p : Place) : Option Nat := p.rest.head?

def isAt (p : Place) (c : Nat) : Bool := p.head? == some c

def atBlank (p : Place) : Bool := (p.head?.map isBlank).getD false

def atBreak (p : Place) : Bool := (p.head?.map isBreak).getD false

def atSpace (p : Place) : Bool := p.atBlank || p.atBreak

/-- At the end of a line, or of the document. -/
def atLineEnd (p : Place) : Bool := p.rest.isEmpty || p.atBreak

/-- The place `n` characters on in the same line. -/
def skip (p : Place) (n : Nat) : Place :=
  { p with rest := p.rest.drop n, index := p.index + n, column := p.column + n }

/-- Steps over a line end, and gives what it stands for. -/
def takeBreak (p : Place) : Chars × Place :=
  let next (n : Nat) : Place := ⟨p.rest.drop n, p.index + n, p.line + 1, 0⟩
  match p.rest with
  | 0x0d :: 0x0a :: _ => ([0x0a], next 2)
  | c :: _ => if c = 0x2028 || c = 0x2029 then ([c], next 1) else ([0x0a], next 1)
  | [] => ([], p)

/-- At a mark that ends or starts a document, three times `c` alone at the start
of a line. -/
def atMark (p : Place) (c : Nat) : Bool :=
  p.column = 0 && [c, c, c].isPrefixOf p.rest && Chars.endsWord (p.rest.drop 3)

def atDocumentMark (p : Place) : Bool := p.atMark 0x2d || p.atMark 0x2e

end Place

end Yaml

end Scriptlet
