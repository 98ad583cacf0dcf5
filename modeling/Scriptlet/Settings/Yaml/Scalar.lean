import Scriptlet.Settings.Yaml.Place

/-!
# YAML scalars

Scalars are plain, in quotes, or blocks of lines. A line end inside a plain or
quoted scalar is folded: alone it stands for a blank, and of several each but
the first stays. A block keeps its line ends, or folds those between lines that
do not start with a blank.
-/

namespace Scriptlet

namespace Yaml

/-! ## Gaps between words -/

/-- Blanks on a line, or line ends: the first one and the others. -/
inductive Gap where
  | blanks (cs : Chars)
  | breaks (first later : Chars)
deriving DecidableEq, Repr

namespace Gap

def isBroken : Gap → Bool
  | blanks _ => false
  | breaks _ _ => true

/-- What a gap stands for between two words. -/
def folded : Gap → Chars
  | blanks cs => cs
  | breaks first later =>
      if first = [0x0a] then if later.isEmpty then [0x20] else later else first ++ later

def blank (c : Nat) : Gap → Gap
  | blanks cs => blanks (cs ++ [c])
  | breaks first later => breaks first later

def broken (end_ : Chars) : Gap → Gap
  | blanks _ => breaks end_ []
  | breaks first later => breaks first (later ++ end_)

end Gap

/-- Takes blanks and line ends. Where lines have to be indented up to a column,
no tab may stand before it. -/
def takeGap? (indent : Int) : Nat → Place → Gap → Option (Gap × Place)
  | 0, p, g => some (g, p)
  | fuel + 1, p, g =>
      if p.atBreak then
        let (end_, next) := p.takeBreak
        takeGap? indent fuel next (g.broken end_)
      else
        match p.head? with
        | none => some (g, p)
        | some c =>
            if !isBlank c then some (g, p)
            else if g.isBroken && p.column < indent && c = 0x09 then none
            else takeGap? indent fuel (p.skip 1) (g.blank c)

/-! ## Plain scalars -/

/-- Characters with a meaning inside of brackets and braces. -/
def isFlowMark (c : Nat) : Bool := [0x2c, 0x3f, 0x5b, 0x5d, 0x7b, 0x7d].contains c

/-- The word at the head of some characters. -/
def plainWord (flow : Bool) : Chars → Chars
  | [] => []
  | c :: cs =>
      if isSpace c || (c = 0x3a && Chars.endsWord cs) || (flow && isFlowMark c) then []
      else c :: plainWord flow cs

/-- A scalar that was read, and where. `isBroken` tells that line ends follow it
that were read with it. -/
structure Scanned where
  content : Chars
  place : Place
  isBroken : Bool
deriving DecidableEq, Repr

/-- The rest of a plain scalar, of which `sofar` and a gap were read. Its lines
are indented up to a column, except in brackets and braces. -/
def plainFrom? (flow : Bool) (indent : Int) : Nat → Place → Chars → Gap → Option Scanned
  | 0, _, _, _ => none
  | fuel + 1, p, sofar, gap =>
      if p.atDocumentMark || p.isAt 0x23 then some ⟨sofar, p, gap.isBroken⟩
      else
        let word := plainWord flow p.rest
        let here := p.skip word.length
        if word.isEmpty then some ⟨sofar, here, gap.isBroken⟩
        else
          let longer := sofar ++ gap.folded ++ word
          if !here.atSpace then some ⟨longer, here, false⟩
          else
            (takeGap? indent here.rest.length here (.blanks [])).bind fun (gap, next) =>
              if !flow && next.column < indent then some ⟨longer, next, gap.isBroken⟩
              else plainFrom? flow indent fuel next longer gap

def plain? (flow : Bool) (indent : Int) (p : Place) : Option Scanned :=
  plainFrom? flow indent (p.rest.length + 1) p [] (.blanks [])

/-! ## Quoted scalars -/

/-- The characters that escapes of one letter stand for. -/
def shortEscapes : List (Nat × Nat) :=
  [(0x30, 0x00), (0x61, 0x07), (0x62, 0x08), (0x74, 0x09), (0x09, 0x09), (0x6e, 0x0a), (0x76, 0x0b),
   (0x66, 0x0c), (0x72, 0x0d), (0x65, 0x1b), (0x20, 0x20), (0x22, 0x22), (0x27, 0x27), (0x5c, 0x5c),
   (0x4e, 0x85), (0x5f, 0xa0), (0x4c, 0x2028), (0x50, 0x2029)]

/-- How many digits follow the letter of an escape that gives a code. -/
def codeLength? (c : Nat) : Option Nat := [(0x78, 2), (0x75, 4), (0x55, 8)].lookup c

def hexCode? (cs : Chars) : Option Nat :=
  (cs.mapM fun c => if c < 0x80 then Text.hexDigit? (UInt8.ofNat c) else none).map
    fun ds => ds.foldl (fun n d => 16 * n + d) 0

/-- The character an escape stands for, and the number of characters it has
behind its backslash. -/
def escape? : Chars → Option (Nat × Nat)
  | [] => none
  | c :: cs =>
      match shortEscapes.lookup c with
      | some code => some (code, 1)
      | none =>
          (codeLength? c).bind fun n =>
            if cs.length < n then none
            else
              (hexCode? (cs.take n)).bind fun code =>
                if code.isValidChar then some (code, n + 1) else none

/-- Takes characters up to a blank, a line end or the closing quote. A backslash
in front of a line end, in double quotes, takes both away and what blanks
follow. -/
def quotedWord? (quote : Nat) : Nat → Place → Chars → Option (Chars × Gap × Place)
  | 0, _, _ => none
  | fuel + 1, p, sofar =>
      match p.rest with
      | [] => some (sofar, .blanks [], p)
      | c :: cs =>
          if isSpace c then some (sofar, .blanks [], p)
          else if c = quote then
            if quote = 0x27 && cs.head? = some 0x27 then
              quotedWord? quote fuel (p.skip 2) (sofar ++ [c])
            else some (sofar, .blanks [], p)
          else if quote = 0x22 && c = 0x5c then
            if (p.skip 1).atBreak then some (sofar, .breaks [] [], (p.skip 1).takeBreak.2)
            else
              (escape? cs).bind fun (code, n) =>
                quotedWord? quote fuel (p.skip (n + 1)) (sofar ++ [code])
          else quotedWord? quote fuel (p.skip 1) (sofar ++ [c])

/-- The rest of a scalar up to its closing quote. -/
def quotedFrom? (quote : Nat) : Nat → Place → Chars → Option Scanned
  | 0, _, _ => none
  | fuel + 1, p, sofar =>
      if p.atDocumentMark || p.rest.isEmpty then none
      else
        (quotedWord? quote (p.rest.length + 1) p sofar).bind fun (longer, gap, here) =>
          if here.isAt quote then some ⟨longer, here.skip 1, false⟩
          else
            (takeGap? 0 here.rest.length here gap).bind fun (gap, next) =>
              quotedFrom? quote fuel next (longer ++ gap.folded)

/-- A scalar in quotes, read from its opening quote on. -/
def quoted? (quote : Nat) (p : Place) : Option Scanned :=
  quotedFrom? quote (p.rest.length + 1) (p.skip 1) []

/-! ## Blocks -/

/-- What becomes of the line ends behind a block. -/
inductive Chomp where
  | strip
  | clip
  | keep
deriving DecidableEq, Repr

def chomp? (c : Nat) : Option Chomp := [(0x2d, Chomp.strip), (0x2b, Chomp.keep)].lookup c

/-- The signs behind the mark of a block: its chomping and its indentation, in
either order. An indentation of zero is refused. -/
def blockSigns? (p : Place) : Option (Chomp × Option Nat × Place) :=
  let chomping (p : Place) : Option (Chomp × Place) :=
    (p.head?.bind chomp?).map fun chomp => (chomp, p.skip 1)
  let indenting (p : Place) : Option (Option Nat × Place) :=
    match p.head? with
    | none => some (none, p)
    | some c =>
        if c = 0x30 then none
        else if 0x31 ≤ c && c ≤ 0x39 then some (some (c - 0x30), p.skip 1)
        else some (none, p)
  match chomping p with
  | some (chomp, p) => (indenting p).map fun (indent, p) => (chomp, indent, p)
  | none =>
      (indenting p).map fun (indent, p) =>
        match indent, chomping p with
        | some _, some (chomp, next) => (chomp, indent, next)
        | _, _ => (.clip, indent, p)

/-- Steps over blanks and a comment to the end of the line, and over that. -/
def endLine? (p : Place) : Option Place :=
  let blanks := (p.rest.takeWhile isBlank).length
  let p := p.skip blanks
  let p := if p.isAt 0x23 then p.skip (p.rest.takeWhile (!isBreak ·)).length else p
  if p.atLineEnd then some p.takeBreak.2 else none

/-- Steps over empty lines, up to the indentation of the block; as long as that
is not known, over all blanks. Gives the line ends, and the widest column. -/
def emptyLines? (indent : Option Nat) : Nat → Place → Chars → Nat → Option (Chars × Nat × Place)
  | 0, p, ends, widest => some (ends, widest, p)
  | fuel + 1, p, ends, widest =>
      let room := (indent.map (· - p.column)).getD p.rest.length
      let p := p.skip ((p.rest.take room).takeWhile (· == 0x20)).length
      let widest := max widest p.column
      if indent.all (fun n => p.column < n) && p.isAt 0x09 then none
      else if p.atBreak then
        let (end_, next) := p.takeBreak
        emptyLines? indent fuel next (ends ++ end_) widest
      else some (ends, widest, p)

/-- The lines of a block. `last` is the line end behind the line before, `ends`
those of empty lines since, and `wasBlank` tells that the line before started
with a blank. -/
def blockLines? (literal : Bool) (indent : Nat) :
    Nat → Place → Chars → Chars → Chars → Bool → Option (Chars × Chars × Chars × Place)
  | 0, _, _, _, _, _ => none
  | fuel + 1, p, sofar, last, ends, wasBlank =>
      if p.column != indent || p.rest.isEmpty then some (sofar, last, ends, p)
      else
        let isBlank := p.atBlank
        let joint : Chars :=
          if !literal && !wasBlank && !isBlank && last = [0x0a] then
            if ends.isEmpty then [0x20] else []
          else last
        let line := p.rest.takeWhile (!isBreak ·)
        let (last, next) := (p.skip line.length).takeBreak
        (emptyLines? (some indent) (next.rest.length + 1) next [] 0).bind fun (more, _, next) =>
          blockLines? literal indent fuel next (sofar ++ joint ++ ends ++ line) last more isBlank

/-- A block, read from its mark on, inside of lines indented by `outer`. -/
def block? (literal : Bool) (outer : Int) (p : Place) : Option Scanned :=
  (blockSigns? (p.skip 1)).bind fun (chomp, increment, p) =>
    (endLine? p).bind fun p =>
      let given := increment.map fun n => ((max outer 0) + n).toNat
      (emptyLines? given (p.rest.length + 1) p [] 0).bind fun (ends, widest, p) =>
        let indent := given.getD (max widest (max (outer + 1) 1).toNat)
        (blockLines? literal indent (p.rest.length + 1) p [] [] ends false).map
          fun (content, last, ends, p) =>
            let tail : Chars :=
              match chomp with
              | .strip => []
              | .clip => last
              | .keep => last ++ ends
            ⟨content ++ tail, p, false⟩

end Yaml

end Scriptlet
