import Scriptlet.Settings.Basic
import Scriptlet.Source.Lines
import Scriptlet.Text.Escape

/-!
# Settings in TOML

Documents of lines `key = value`, with sections and comments. Values are basic
and literal strings, booleans and integers. Keys of settings may be written in
either case. Keys below a section are none of ours, and a section or a dotted
key is no value for a setting.

A key may be defined once. What a dotted key or a section implies above itself
may be defined once more, and keeps what it holds.
-/

namespace Scriptlet

namespace Toml

inductive Value where
  | string (s : Text)
  | boolean (b : Bool)
  | integer
deriving DecidableEq, Repr

/-- What a line says. -/
inductive Line where
  | nothing
  | heading (path : List Text)
  | pair (path : List Text) (value : Value)
deriving DecidableEq, Repr

/-! ## Characters -/

/-- No control may stand in a document but tabs and line ends, and a carriage
return only in front of a newline. -/
def isClean : Text → Bool
  | [] => true
  | c :: s =>
      if c = Byte.carriageReturn then s.head? = some Byte.newline && isClean s
      else (0x20 ≤ c || c = Byte.tab || c = Byte.newline) && c != 0x7f && isClean s

def isGap (c : UInt8) : Bool := c = Byte.space || c = Byte.tab

def skipGap (s : Text) : Text := s.dropWhile isGap

/-- Nothing but a comment is left on the line. -/
def isLineEnd (s : Text) : Bool :=
  match skipGap s with
  | [] => true
  | c :: _ => c = Byte.hash

/-! ## Strings -/

/-- A string up to its closing apostrophe, and what follows that. -/
def literal? (s : Text) : Option (Text × Text) :=
  match Text.cut Byte.apostrophe s with
  | (body, some rest) => some (body, rest)
  | (_, none) => none

/-- The character an escape stands for, read from behind the backslash. -/
def escape? : Text → Option (Text × Text)
  | [] => none
  | c :: s =>
      match [(0x62, 0x08), (0x74, 0x09), (0x6e, 0x0a), (0x66, 0x0c), (0x72, 0x0d),
          (Byte.quote, Byte.quote), (Byte.backslash, Byte.backslash)].lookup c with
      | some b => some ([b], s)
      | none =>
          if c = 0x75 then Text.takeCharacter? 4 s
          else if c = 0x55 then Text.takeCharacter? 8 s
          else none

/-- A string up to its closing quote, and what follows that. -/
def basic? : Nat → Text → Option (Text × Text)
  | 0, _ | _, [] => none
  | fuel + 1, c :: s =>
      if c = Byte.quote then some ([], s)
      else if c = Byte.backslash then
        (escape? s).bind fun (bytes, rest) =>
          (basic? fuel rest).map fun (body, tail) => (bytes ++ body, tail)
      else (basic? fuel s).map fun (body, tail) => (c :: body, tail)

/-- A string in either kind of quotes. -/
def string? : Text → Option (Text × Text)
  | [] => none
  | c :: s =>
      if c = Byte.quote then basic? s.length s
      else if c = Byte.apostrophe then literal? s
      else none

/-! ## Integers -/

/-- The number that groups of digits with underscores between them spell. -/
def digitGroups? (base : Nat) (s : Text) : Option Nat :=
  let groups := s.splitOn Byte.underscore
  if groups.any List.isEmpty then none
  else (groups.flatten.mapM (Text.digitIn? base)).map fun ds => ds.foldl (fun n d => base * n + d) 0

/-- What stands in front of the digits of a number that is not decimal. -/
def bases : List (Text × Nat) := [(text "0x", 16), (text "0o", 8), (text "0b", 2)]

/-- A decimal integer without its sign has no zero in front of other digits. -/
def decimal? (s : Text) : Option Nat :=
  if s.head? = some Byte.zero && s.length != 1 then none else digitGroups? 10 s

/-- Integers have 64 bits, and only decimal ones have a sign. -/
def isInteger (word : Text) : Bool :=
  match bases.find? fun (mark, _) => mark.isPrefixOf word with
  | some (mark, base) => (digitGroups? base (word.drop mark.length)).any fun n => Number.fitsInt64 n
  | none =>
      let (negative, unsigned) := Number.takeSign word
      (decimal? unsigned).any fun n => Number.fitsInt64 (Number.signed negative n)

/-! ## Keys and values -/

def isBareKey (c : UInt8) : Bool := Byte.isLetter c || Byte.isDigit c || c = Byte.minus

/-- One part of a key. -/
def keyPart? (s : Text) : Option (Text × Text) :=
  match string? s with
  | some r => some r
  | none =>
      let (name, rest) := s.span isBareKey
      if name.isEmpty then none else some (name, rest)

/-- The parts of a key with points between them. -/
def key? : Nat → Text → Option (List Text × Text)
  | 0, _ => none
  | fuel + 1, s =>
      (keyPart? (skipGap s)).bind fun (part, rest) =>
        match skipGap rest with
        | [] => some ([part], [])
        | c :: tail =>
            if c = Byte.dot then (key? fuel tail).map fun (parts, last) => (part :: parts, last)
            else some ([part], c :: tail)

/-- A value, and what follows it. -/
def value? (s : Text) : Option (Value × Text) :=
  match string? s with
  | some (body, rest) => some (.string body, rest)
  | none =>
      let (word, rest) := s.span fun c => !(isGap c || c = Byte.hash)
      if word = text "true" then some (.boolean true, rest)
      else if word = text "false" then some (.boolean false, rest)
      else if isInteger word then some (.integer, rest)
      else none

/-! ## Lines -/

/-- What stands behind `c`, when `c` is the next byte after a gap. -/
def behind? (c : UInt8) (s : Text) : Option Text :=
  match skipGap s with
  | [] => none
  | b :: rest => if b = c then some rest else none

def heading? (s : Text) : Option Line :=
  (key? s.length s).bind fun (path, rest) =>
    (behind? 0x5d rest).bind fun tail => if isLineEnd tail then some (.heading path) else none

def pair? (s : Text) : Option Line :=
  (key? s.length s).bind fun (path, rest) =>
    (behind? Byte.equals rest).bind fun right =>
      (value? (skipGap right)).bind fun (value, tail) =>
        if isLineEnd tail then some (.pair path value) else none

def line? (s : Text) : Option Line :=
  if isLineEnd s then some .nothing
  else
    match behind? 0x5b s with
    | some rest => heading? rest
    | none => pair? s

/-! ## What a document defines -/

/-- The full keys of tables and of values, and those among them that were only
implied. -/
structure Defined where
  tables : List (List Text)
  values : List (List Text)
  implied : List (List Text)
deriving DecidableEq, Repr

namespace Defined

def nothing : Defined := ⟨[], [], []⟩

def has (d : Defined) (path : List Text) : Bool := d.tables.contains path || d.values.contains path

/-- The full keys above a full key, from the top down. -/
def above (path : List Text) : List (List Text) :=
  (List.range (path.length - 1)).map fun n => path.take (n + 1)

/-- Defines a table or a value. There may be no value above it. -/
def define? (d : Defined) (isTable : Bool) (path : List Text) : Option Defined :=
  if (above path).any d.values.contains then none
  else if d.has path then
    if d.implied.contains path then some { d with implied := d.implied.filter (· != path) }
    else none
  else if isTable then some { d with tables := path :: d.tables }
  else some { d with values := path :: d.values }

/-- Defines a table, and implies the tables above it. -/
def establish? (d : Defined) (path : List Text) : Option Defined :=
  let fresh := (above path).filter fun p => !d.has p
  define? { d with tables := fresh ++ d.tables, implied := fresh ++ d.implied } true path

/-- Implies a table, defined or not. -/
def imply? (d : Defined) (path : List Text) : Option Defined :=
  establish? { d with implied := path :: d.implied } path

/-- Defines a value below a section; its key may have points. -/
def pair? (d : Defined) (current path : List Text) : Option Defined :=
  ((above path).foldlM (fun (d : Defined) p => d.imply? (current ++ p)) d).bind fun d =>
    d.define? false (current ++ path)

/-- Defines what the lines below a section do. -/
def lines? (d : Defined) (current : List Text) : List Line → Option Defined
  | [] => some d
  | .nothing :: lines => d.lines? current lines
  | .heading path :: lines => (d.establish? path).bind fun d => d.lines? path lines
  | .pair path _ :: lines => (d.pair? current path).bind fun d => d.lines? current lines

end Defined

/-! ## Entries -/

/-- A key without regard to case. Two letters beyond ASCII are other cases of
letters in it: the long s, and the sign for kelvin. -/
def folded : Text → Text
  | 0xc5 :: 0xbf :: s => 0x73 :: folded s
  | 0xe2 :: 0x84 :: 0xaa :: s => 0x6b :: folded s
  | c :: s => Byte.toLower c :: folded s
  | [] => []

/-- The entry of a value. -/
def entry (key : Text) : Value → Entry
  | .string s => ⟨key, .set s, .unfit⟩
  | .boolean b => ⟨key, .unfit, .set b⟩
  | .integer => ⟨key, .unfit, .unfit⟩

/-- The entry that the first part of a key makes, where it has further parts. -/
def tableEntry : List Text → List Entry
  | [] => []
  | part :: _ => [⟨folded part, .unfit, .unfit⟩]

/-- The entries of the lines, of which those below a section are left out. -/
def entriesOf (below : Bool) : List Line → List Entry
  | [] => []
  | .nothing :: lines => entriesOf below lines
  | .heading path :: lines => tableEntry path ++ entriesOf true lines
  | .pair path value :: lines =>
      (if below then []
       else
         match path with
         | [key] => [entry (folded key) value]
         | _ => tableEntry path)
        ++ entriesOf below lines

/-- The entries of a document, unless it is malformed. -/
def entries? (content : Text) : Option (List Entry) :=
  if !(isClean content && Text.isWellFormed content) then none
  else
    ((content.splitOn Byte.newline).mapM fun s => line? (Source.dropCarriageReturn s)).bind
      fun lines => (Defined.nothing.lines? [] lines).map fun _ => entriesOf false lines

end Toml

end Scriptlet
