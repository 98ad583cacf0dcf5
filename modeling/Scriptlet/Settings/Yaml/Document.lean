import Scriptlet.Settings.Yaml.Token

/-!
# YAML documents

The first document of a stream, as far as settings need it: the pairs of a
mapping, with scalars for what they are and all collections alike. What follows
the document is not looked at.
-/

namespace Scriptlet

namespace Yaml

inductive Value where
  | plain (s : Text)
  | quoted (s : Text)
  | collection
deriving DecidableEq, Repr

/-- A value that is left out. -/
def Value.absent : Value := .plain []

inductive Node where
  | value (v : Value)
  | mapping (pairs : List (Value × Value))
deriving DecidableEq, Repr

/-- A node as a part of another one. -/
def Node.summary : Node → Value
  | value v => v
  | mapping _ => .collection

/-- Tokens in place of which the parts of a mapping in lines may be left out. -/
def endsBlockPart (t : Token) : Bool := t = .key || t = .value || t = .blockEnd

mutual

/-- A node, and the position behind it. Mappings and sequences in lines are
`blocky`; the items of a sequence may be as far out as the key they belong to
where it is `loose`. -/
def node? (t : Tokens) : Nat → Bool → Bool → Nat → Option (Node × Nat)
  | 0, _, _, _ => none
  | fuel + 1, blocky, loose, i =>
      (t.peek? i).bind fun token =>
        match token with
        | .scalar s isPlain => some (.value (if isPlain then .plain s else .quoted s), i + 1)
        | .openBracket => (flowItems? t fuel true (i + 1)).map fun j => (.value .collection, j)
        | .openBrace => (flowPairs? t fuel true (i + 1)).map fun (pairs, j) => (.mapping pairs, j)
        | .blockSequence =>
            if blocky then (items? t fuel (i + 1)).map fun j => (.value .collection, j) else none
        | .blockMapping =>
            if blocky then (pairs? t fuel (i + 1)).map fun (pairs, j) => (.mapping pairs, j)
            else none
        | .dash =>
            if loose then (looseItems? t fuel i).map fun j => (.value .collection, j) else none
        | _ => none

/-- A part of a node that may be left out in front of some tokens. -/
def part? (t : Tokens) : Nat → (Token → Bool) → Bool → Bool → Nat → Option (Value × Nat)
  | 0, _, _, _, _ => none
  | fuel + 1, isAbsent, blocky, loose, i =>
      (t.peek? i).bind fun token =>
        if isAbsent token then some (.absent, i)
        else (node? t fuel blocky loose i).map fun (n, j) => (n.summary, j)

/-- The items of a sequence in lines. -/
def items? (t : Tokens) : Nat → Nat → Option Nat
  | 0, _ => none
  | fuel + 1, i =>
      (t.peek? i).bind fun token =>
        if token = .blockEnd then some (i + 1)
        else if token = .dash then
          (part? t fuel (fun u => u = .dash || u = .blockEnd) true false (i + 1)).bind
            fun (_, j) => items? t fuel j
        else none

/-- The items of a sequence that is no further in than its key. -/
def looseItems? (t : Tokens) : Nat → Nat → Option Nat
  | 0, _ => none
  | fuel + 1, i =>
      (t.peek? i).bind fun token =>
        if token = .dash then
          (part? t fuel (fun u => u = .dash || endsBlockPart u) true false (i + 1)).bind
            fun (_, j) => looseItems? t fuel j
        else some i

/-- The pairs of a mapping in lines. -/
def pairs? (t : Tokens) : Nat → Nat → Option (List (Value × Value) × Nat)
  | 0, _ => none
  | fuel + 1, i =>
      (t.peek? i).bind fun token =>
        if token = .blockEnd then some ([], i + 1)
        else if token = .key then
          (part? t fuel endsBlockPart true true (i + 1)).bind fun (key, j) =>
            (blockValue? t fuel j).bind fun (value, j) =>
              (pairs? t fuel j).map fun (pairs, j) => ((key, value) :: pairs, j)
        else none

/-- The value of a key in lines, if it has one. -/
def blockValue? (t : Tokens) : Nat → Nat → Option (Value × Nat)
  | 0, _ => none
  | fuel + 1, i =>
      (t.peek? i).bind fun token =>
        if token = .value then part? t fuel endsBlockPart true true (i + 1) else some (.absent, i)

/-- The value of a key in brackets or braces, if it has one. -/
def flowValue? (t : Tokens) : Nat → Token → Nat → Option (Value × Nat)
  | 0, _, _ => none
  | fuel + 1, closing, i =>
      (t.peek? i).bind fun token =>
        if token = .value then part? t fuel (fun u => u = .comma || u = closing) false false (i + 1)
        else some (.absent, i)

/-- The items of a sequence in brackets. An item may be a single pair. -/
def flowItems? (t : Tokens) : Nat → Bool → Nat → Option Nat
  | 0, _, _ => none
  | fuel + 1, isFirst, i =>
      (t.peek? i).bind fun token =>
        if token = .closeBracket then some (i + 1)
        else if !isFirst && token != .comma then none
        else
          let i := if isFirst then i else i + 1
          (t.peek? i).bind fun token =>
            if token = .closeBracket then some (i + 1)
            else if token = .key then
              (t.peek? (i + 1)).bind fun next =>
                -- a token in place of the key is taken for it
                (if next = .value || next = .comma || next = .closeBracket then some (i + 2)
                 else (node? t fuel false false (i + 1)).map Prod.snd).bind fun j =>
                  (flowValue? t fuel .closeBracket j).bind fun (_, j) => flowItems? t fuel false j
            else (node? t fuel false false i).bind fun (_, j) => flowItems? t fuel false j

/-- The pairs of a mapping in braces. A key alone has no value. -/
def flowPairs? (t : Tokens) : Nat → Bool → Nat → Option (List (Value × Value) × Nat)
  | 0, _, _ => none
  | fuel + 1, isFirst, i =>
      (t.peek? i).bind fun token =>
        if token = .closeBrace then some ([], i + 1)
        else if !isFirst && token != .comma then none
        else
          let i := if isFirst then i else i + 1
          (t.peek? i).bind fun token =>
            if token = .closeBrace then some ([], i + 1)
            else if token = .key then
              (part? t fuel (fun u => u = .value || u = .comma || u = .closeBrace) false false
                  (i + 1)).bind
                fun (key, j) =>
                  (flowValue? t fuel .closeBrace j).bind fun (value, j) =>
                    (flowPairs? t fuel false j).map fun (pairs, j) => ((key, value) :: pairs, j)
            else
              (node? t fuel false false i).bind fun (key, j) =>
                (flowPairs? t fuel false j).map fun (pairs, j) =>
                  ((key.summary, .absent) :: pairs, j)

end

/-- Steps enough for all tokens, since no more than four lie between one and the
next. -/
def Tokens.budget (t : Tokens) : Nat := 4 * t.all.size + 8

/-- The first document of a stream. Without any content it is a value left
out. -/
def document? (t : Tokens) : Option Node :=
  let isOver (u : Token) : Bool := u = .documentStart || u = .documentEnd || u = .streamEnd
  let root : Option (Node × Nat) :=
    (t.peek? 0).bind fun token =>
      if token = .streamEnd then some (.value .absent, 0)
      else if token = .documentStart then
        (t.peek? 1).bind fun next =>
          if isOver next then some (.value .absent, 1) else node? t t.budget true false 1
      else node? t t.budget true false 0
  root.bind fun (n, i) => (t.peek? i).map fun _ => n

end Yaml

end Scriptlet
