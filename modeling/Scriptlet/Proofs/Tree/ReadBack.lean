import Scriptlet.Proofs.Number.Sign
import Scriptlet.Proofs.Parse.Complete
import Scriptlet.Proofs.Parse.Relabel
import Scriptlet.Proofs.Tree.Folding
import Scriptlet.Script

/-!
# Canonical forms read back

The canonical form of a program, scanned and parsed again, is that program
with its signs folded (`foldSigns`), as long as no statement opens with a
conditional that is called.

The argument follows the derivation of the program from its own tokens
(`readsBack_of_spells`, one lemma per rule). For each phrase it gives the
tokens its canonical form is made of (`Printed`) and a derivation of the
folded phrase from them. All tokens that the tree still holds are used again,
parentheses, commas and semicolons are made anew.

Everything printed is followed by a blank, a newline, a parenthesis, a comma, a
semicolon or nothing (`Delimits`), and none of these runs into the token
before it. The only tokens that stand close to another one are the operators
in front of their operands.
-/

namespace Scriptlet

open Phrase Lexeme

/-! ## Printed text -/

/-- The bytes that follow a phrase in canonical form. -/
def delimiters : Text := text " \n(),;"

def Delimits (rest : Text) : Prop := ∀ c, rest.head? = some c → c ∈ delimiters

theorem delimits_nil : Delimits [] := fun _ h => by cases h

theorem delimits_append {w : Text} (hw : ∃ c ∈ delimiters, w.head? = some c) (rest : Text) :
    Delimits (w ++ rest) := by
  obtain ⟨c, hc, hhead⟩ := hw
  intro d hd
  rw [List.head?_append, hhead] at hd
  obtain rfl : c = d := Option.some.inj hd
  exact hc

theorem Delimits.leaves {rest : Text} (h : Delimits rest) (k : Kind) : k.Leaves rest := by
  have hall : (delimiters.all fun c => !k.extendedBy c) = true := by
    cases k <;> decide
  intro c hc
  simpa using List.all_eq_true.mp hall c (h c hc)

/-- Kinds that nothing runs into. -/
def solitary : List Kind := [.openParen, .closeParen, .openBrace, .closeBrace, .comma, .semicolon]

theorem leaves_solitary {k : Kind} (hk : k ∈ solitary) (rest : Text) : k.Leaves rest := by
  simp only [solitary, List.mem_cons, List.not_mem_nil, or_false] at hk
  rcases hk with rfl | rfl | rfl | rfl | rfl | rfl <;> exact fun c _ => rfl

/-- The text is made of these tokens, in front of everything that may follow
it. -/
def Printed (s : Text) (ts : List Token) : Prop := ∀ rest, Delimits rest → Lexes (s ++ rest) ts rest

variable {s rest : Text} {t : Token} {ts us : List Token} {k : Kind}

theorem Printed.lexes (h : Printed s ts) {r : Text} (hr : Delimits r) (hrest : Lexes r us rest) :
    Lexes (s ++ r) (ts ++ us) rest := (h r hr).append hrest

theorem lexes_lexeme (ht : t.Legible) (hne : t.kind ≠ .string) (hleaves : t.kind.Leaves s)
    (h : Lexes s ts rest) : Lexes (t.lexeme ++ s) (t :: ts) rest := by
  rw [← Token.written_of_ne hne]
  exact .token ht hleaves h

theorem lexes_spelt (ht : t.Legible) (hkind : t.kind = k) (hk : k.isSpelt = true)
    (hleaves : k.Leaves s) (h : Lexes s ts rest) : Lexes (k.name ++ s) (t :: ts) rest := by
  subst hkind
  have hne : t.kind ≠ .string := fun h => by
    rw [h] at hk
    cases hk
  rw [← ht.spelt hk]
  exact lexes_lexeme ht hne hleaves h

theorem isSpelt_solitary : ∀ k ∈ solitary, k.isSpelt = true := by decide

theorem lexes_solitary (k : Kind) (hk : k ∈ solitary) (h : Lexes s ts rest) :
    Lexes (k.name ++ s) (.ofKind k :: ts) rest :=
  lexes_spelt (Token.legible_ofKind (isSpelt_solitary k hk)) rfl (isSpelt_solitary k hk)
    (leaves_solitary hk s) h

theorem lexes_space (h : Lexes s ts rest) : Lexes (text " " ++ s) ts rest := .blank rfl h

/-- A token with a blank behind it. -/
theorem lexes_word (ht : t.Legible) (hkind : t.kind = k) (hk : k.isSpelt = true)
    (h : Lexes s ts rest) : Lexes (k.name ++ (text " " ++ s)) (t :: ts) rest := by
  have hblank : Delimits (text " " ++ s) := delimits_append (by decide) _
  exact lexes_spelt ht hkind hk (hblank.leaves k) (lexes_space h)

theorem lexes_kind (k : Kind) (hk : k.isSpelt = true) (h : Lexes s ts rest) :
    Lexes (k.name ++ (text " " ++ s)) (.ofKind k :: ts) rest :=
  lexes_word (Token.legible_ofKind hk) rfl hk h

theorem printed_token (ht : t.Legible) : Printed t.written [t] :=
  fun _ hrest => .token ht (hrest.leaves _) .done

/-! ## Operators close to their operands -/

/-- The bytes that the canonical form of an expression starts with. -/
def startsOperand (c : UInt8) : Bool :=
  Byte.isLetter c || Byte.isDigit c || c == Byte.minus || c == Byte.quote || c == 0x28

/-- Symbols of two bytes end with one of three bytes. -/
theorem doubles_of_last {c : UInt8} (hc : c ∉ text "=&|") (w : Text) :
    Kind.doubles.any (·.name == w ++ [c]) = false := by
  have hlast : ∀ d ∈ Kind.doubles, ∃ e ∈ text "=&|", d.name.getLast? = some e := by decide
  rw [List.any_eq_false]
  intro d hd hname
  obtain ⟨e, he, hlast⟩ := hlast d hd
  rw [beq_iff_eq.mp hname, List.getLast?_concat] at hlast
  exact hc (Option.some.inj hlast ▸ he)

theorem leaves_operand {c : UInt8} (hk : k = .not ∨ k = .minus) (hc : startsOperand c = true)
    (hdigit : k = .minus → Byte.isDigit c = false) (s : Text) : k.Leaves (c :: s) := by
  have hlast : c ∉ text "=&|" := by
    have hnot : ((text "=&|").all fun d => !startsOperand d) = true := by decide
    intro hmem
    have hno := List.all_eq_true.mp hnot c hmem
    rw [hc] at hno
    cases hno
  intro d hd
  obtain rfl : c = d := Option.some.inj hd
  rcases hk with rfl | rfl
  · exact doubles_of_last hlast (Kind.name .not)
  · show (Byte.isDigit c || Kind.doubles.any (·.name == Kind.name .minus ++ [c])) = false
    rw [hdigit rfl, doubles_of_last hlast]
    rfl

/-! ## What is shown of each phrase -/

structure Rendered (e : Expr) (ts : List Token) : Prop where
  printed : Printed e.canonical ts
  spells : Spells (.expr callLevel e.foldSigns) ts
  starts : ∀ next, startsStatement (firstKind ts next) = e.opensWithIf
  choice : ∀ c, e = .conditional c → Spells (.conditional c.foldSigns) ts
  first : ∃ c s, e.canonical = c :: s ∧ startsOperand c = true

namespace Rendered

variable {e : Expr}

theorem spells_whole (h : Rendered e ts) : Spells (.expr 0 e.foldSigns) ts :=
  h.spells.weaken (Nat.zero_le _) (by decide)

theorem lexes_semicolon (h : Rendered e ts) (rest : Text) :
    Lexes (e.canonical ++ (text ";" ++ rest)) (ts ++ [.ofKind .semicolon]) rest :=
  h.printed.lexes (delimits_append (by decide) _) (lexes_solitary .semicolon (by decide) .done)

end Rendered

/-- A minus in front of an expression that starts with a digit is read into
its number. -/
def TakesMinus (e : Expr) : Prop :=
  startsWithDigit e.canonical = true → ∃ us, Printed (Byte.minus :: e.canonical) us ∧
    ∀ op, Spells (.expr callLevel (e.foldSigns.negatedBy op)) us

def StmtReadsBack (s : Stmt) : Prop :=
  ∃ ts, Printed s.canonical ts ∧ ∀ next, Spells (.stmt s.foldSigns next) ts

def ReadsBack : Phrase → Prop
  | .expr _ e => (∃ ts, Rendered e ts) ∧ TakesMinus e
  | .args es => ∃ ts, Printed (Expr.canonicalArgs es) ts ∧ Spells (.args (Expr.foldSignsAll es)) ts
  | .conditional choice => ∃ ts, Printed choice.canonical ts ∧
      Spells (.conditional choice.foldSigns) ts
  | .alternative otherwise => ∃ ts, Printed otherwise.canonical ts ∧
      Spells (.alternative otherwise.foldSigns) ts
  | .block b => ∃ ts, Printed b.canonical ts ∧ Spells (.block b.foldSigns) ts
  | .stmt s _ => StmtReadsBack s
  | .body ss _ => ∀ s ∈ ss, StmtReadsBack s

/-! ## Expressions -/

variable {e left right : Expr}

/-- The kinds of operands that are a single token. -/
def operandKinds : List Kind := [.ident, .integer, .float, .string, .true_, .false_]

theorem symbol_not_operand (s : Text) : (symbol s).kind ∉ operandKinds := by
  have hsymbols : ∀ k ∈ Kind.doubles ++ Kind.singles, k ∉ operandKinds := by decide
  rw [symbol]
  split
  · rename_i k hsymbol
    exact hsymbols k (Kind.symbolAt?_eq_some hsymbol).1
  · simp [operandKinds]

theorem startsOperand_of_read {c : UInt8} (h : (Lexeme.read (c :: s)).kind ∈ operandKinds) :
    startsOperand c = true := by
  rw [Lexeme.read] at h
  split at h
  · rename_i hletter
    simp [startsOperand, hletter]
  · split at h
    · rename_i hnumber
      simp only [Bool.or_eq_true, Bool.and_eq_true] at hnumber
      rcases hnumber with hdigit | ⟨hminus, -⟩
      · simp [startsOperand, hdigit]
      · simp [startsOperand, hminus]
    · split at h
      · rename_i hquote
        simp [startsOperand, hquote]
      · exact absurd h (symbol_not_operand _)

theorem Token.Legible.first_operand (ht : t.Legible) (hk : t.kind ∈ operandKinds) :
    ∃ c s, t.written = c :: s ∧ startsOperand c = true := by
  obtain ⟨c, s, hwritten, -⟩ := ht.first
  have hread := ht.reads [] (Token.leaves_nil _)
  rw [List.append_nil, hwritten] at hread
  exact ⟨c, s, hwritten, startsOperand_of_read (by rw [hread]; exact hk)⟩

/-- An operand that is written as a single token. -/
theorem rendered_token (ht : t.Legible) (hk : t.kind ∈ operandKinds)
    (hcanonical : e.canonical = t.written) (hsp : Spells (.expr operandLevel e.foldSigns) [t])
    (hif : e.opensWithIf = false) (hchoice : ∀ c, e ≠ .conditional c) : Rendered e [t] where
  printed := by
    rw [hcanonical]
    exact printed_token ht
  spells := hsp.weaken (by decide) (by decide)
  starts _ := by
    have hstart : ∀ k ∈ operandKinds, startsStatement k = false := by decide
    rw [firstKind_cons, hstart _ hk, hif]
  choice c hc := absurd hc (hchoice c)
  first := by
    rw [hcanonical]
    exact ht.first_operand hk

/-- Only numbers start with a digit. -/
theorem Token.Legible.isNumber_of_digit (ht : t.Legible)
    (h : startsWithDigit t.written = true) : t.isNumber = true := by
  have hread := ht.reads [] (Token.leaves_nil _)
  rw [List.append_nil, read_digit h, number_eq] at hread
  have hkind := congrArg Lexeme.kind hread
  rw [Token.isNumber, ← show _ = t.kind from hkind]
  dsimp only [plain]
  split <;> rfl

theorem startsWithDigit_numeral (h : startsWithDigit t.lexeme = true) :
    startsWithDigit (Parser.numeral t) = true := by
  rw [Parser.numeral]
  cases hlexeme : t.lexeme with
  | nil =>
      rw [hlexeme] at h
      cases h
  | cons c s =>
      rw [hlexeme] at h
      have hc : Byte.isDigit c = true := h
      have hunder : (c != Byte.underscore) = true := by
        rw [bne_iff_ne]
        rintro rfl
        cases hc
      rw [List.filter_cons_of_pos (p := (· != Byte.underscore)) hunder]
      exact hc

theorem numeral_negated (t : Token) :
    Parser.numeral t.negated = Byte.minus :: Parser.numeral t := rfl

/-- An operand of one token that is no number takes no minus. -/
theorem readsBack_token {level : Nat} (ht : t.Legible) (hk : t.kind ∈ operandKinds)
    (hnumber : t.isNumber = false) (hcanonical : e.canonical = t.written)
    (hfold : e.foldSigns = e) (hsp : Spells (.expr operandLevel e) [t])
    (hif : e.opensWithIf = false) (hchoice : ∀ c, e ≠ .conditional c) :
    ReadsBack (.expr level e) := by
  rw [← hfold] at hsp
  refine ⟨⟨[t], rendered_token ht hk hcanonical hsp hif hchoice⟩, fun hdigit => ?_⟩
  rw [hcanonical] at hdigit
  rw [ht.isNumber_of_digit hdigit] at hnumber
  cases hnumber

/-- A number takes a minus. -/
theorem readsBack_number {level : Nat} (ht : t.Legible) (hk : t.isNumber = true)
    (hcanonical : e.canonical = t.lexeme) (hfold : e.foldSigns = e)
    (hsp : Spells (.expr operandLevel e) [t])
    (hneg : startsWithDigit t.lexeme = true →
      ∀ op, Spells (.expr operandLevel (e.negatedBy op)) [t.negated])
    (hif : e.opensWithIf = false) (hchoice : ∀ c, e ≠ .conditional c) :
    ReadsBack (.expr level e) := by
  have hwritten := Token.written_of_isNumber hk
  have hkind : t.kind ∈ operandKinds := by
    simp only [Token.isNumber, Bool.or_eq_true, decide_eq_true_eq] at hk
    rcases hk with hk | hk <;> rw [hk] <;> decide
  rw [← hfold] at hsp
  refine ⟨⟨[t], rendered_token ht hkind (hcanonical.trans hwritten.symm) hsp hif hchoice⟩,
    fun hdigit => ?_⟩
  rw [hcanonical] at hdigit
  have hlegible := (Token.legible_negated_iff hk hdigit).mpr ht
  refine ⟨[t.negated], ?_, ?_⟩
  · have hprinted := printed_token hlegible
    rw [Token.written_of_isNumber (t := t.negated) hk] at hprinted
    rw [hcanonical]
    exact hprinted
  · intro op
    rw [hfold]
    exact (hneg hdigit op).weaken (by decide) (by decide)

theorem readsBack_integer {level : Nat} {n : Int64} (hk : t.kind = .integer)
    (hread : Number.readInt64? (Parser.numeral t) = some n) (ht : t.Legible) :
    ReadsBack (.expr level (.integer t n)) := by
  refine readsBack_number ht (by simp [Token.isNumber, hk]) rfl rfl (.integer hk hread)
    (fun hdigit _ => ?_) rfl (by simp)
  refine Spells.integer hk ?_
  rw [numeral_negated]
  exact Number.readInt64?_minus (startsWithDigit_numeral hdigit) hread

theorem readsBack_float {level : Nat} {x : Float} (hk : t.kind = .float)
    (hread : Number.readFloat? (Parser.numeral t) = some x) (ht : t.Legible) :
    ReadsBack (.expr level (.float t x)) := by
  refine readsBack_number ht (by simp [Token.isNumber, hk]) rfl rfl (.float hk hread)
    (fun hdigit _ => ?_) rfl (by simp)
  refine Spells.float hk ?_
  rw [numeral_negated]
  exact Number.readFloat?_minus (startsWithDigit_numeral hdigit) hread

theorem readsBack_name {level : Nat} (hk : t.kind = .ident) (ht : t.Legible) :
    ReadsBack (.expr level (.name t t.lexeme)) :=
  readsBack_token ht (by rw [hk]; decide) (by simp [Token.isNumber, hk])
    (Token.written_of_ne (by simp [hk])).symm rfl (.name hk) rfl (by simp)

theorem readsBack_string {level : Nat} (hk : t.kind = .string) (ht : t.Legible) :
    ReadsBack (.expr level (.string t t.lexeme)) :=
  readsBack_token ht (by rw [hk]; decide) (by simp [Token.isNumber, hk])
    (by rw [Token.written, if_pos hk]; rfl) rfl (.string hk) rfl (by simp)

theorem readsBack_boolean {level : Nat} {b : Bool} (hk : t.kind = .true_ ∨ t.kind = .false_)
    (hsp : Spells (.expr operandLevel (.boolean t b)) [t]) (ht : t.Legible) :
    ReadsBack (.expr level (.boolean t b)) :=
  readsBack_token ht (by rcases hk with hk | hk <;> rw [hk] <;> decide)
    (by rcases hk with hk | hk <;> simp [Token.isNumber, hk])
    (Token.written_of_ne (by rcases hk with hk | hk <;> simp [hk])).symm rfl hsp rfl (by simp)

/-- What stands in parentheses. -/
theorem rendered_parens (ts : List Token) (hcanonical : e.canonical = text "(" ++ s ++ text ")")
    (hs : Printed s ts) (hsp : Spells (.expr 0 e.foldSigns) ts) (hif : e.opensWithIf = false)
    (hchoice : ∀ c, e ≠ .conditional c) :
    Rendered e (.ofKind .openParen :: (ts ++ [.ofKind .closeParen])) where
  printed := by
    intro rest _
    rw [hcanonical, List.append_assoc, List.append_assoc]
    refine lexes_solitary .openParen (by decide) ?_
    refine hs.lexes (delimits_append (by decide) _) ?_
    exact lexes_solitary .closeParen (by decide) .done
  spells := (Spells.group rfl hsp rfl).weaken (by decide) (by decide)
  starts _ := by
    rw [firstKind_cons, hif]
    rfl
  choice c hc := absurd hc (hchoice c)
  first := ⟨_, _, hcanonical.trans (by simp only [List.append_assoc]; rfl), by decide⟩

theorem takesMinus_of_parens (hcanonical : ∃ s, e.canonical = text "(" ++ s) : TakesMinus e := by
  obtain ⟨s, hs⟩ := hcanonical
  intro h
  rw [hs] at h
  cases h

theorem readsBack_unary {level level' : Nat} {op : Token} (hop : op.kind = .not ∨ op.kind = .minus)
    (ht : op.Legible) (ih : ReadsBack (.expr level' right)) :
    ReadsBack (.expr level (.unary op right)) := by
  obtain ⟨⟨ts, hright⟩, hminus⟩ := ih
  have hcanonical : (Expr.unary op right).canonical
      = text "(" ++ (op.lexeme ++ right.canonical) ++ text ")" := by
    rw [Expr.canonical, List.append_assoc, List.append_assoc, List.append_assoc, List.append_assoc]
  refine ⟨?_, takesMinus_of_parens ⟨_, hcanonical.trans (List.append_assoc _ _ _)⟩⟩
  by_cases hfold : (op.kind = .minus && startsWithDigit right.canonical) = true
  · -- the minus is read into the number
    have hfolded : (Expr.unary op right).foldSigns = right.foldSigns.negatedBy op := by
      rw [Expr.foldSigns, if_pos hfold]
    obtain ⟨hkind, hdigit⟩ : op.kind = .minus ∧ startsWithDigit right.canonical = true := by
      simpa using hfold
    obtain ⟨us, hprinted, hsp⟩ := hminus hdigit
    have hlexeme : op.lexeme = [Byte.minus] := by
      rw [ht.spelt (by rw [hkind]; rfl), hkind]
      rfl
    refine ⟨_, rendered_parens us hcanonical ?_ ?_ rfl (by simp)⟩
    · rw [hlexeme]
      exact hprinted
    · rw [hfolded]
      exact (hsp op).weaken (by decide) (by decide)
  · have hfolded : (Expr.unary op right).foldSigns = .unary op right.foldSigns := by
      rw [Expr.foldSigns, if_neg hfold]
    obtain ⟨c, r, hfirst, hc⟩ := hright.first
    have hdigit : op.kind = .minus → Byte.isDigit c = false := by
      intro hkind
      rw [hfirst] at hfold
      simpa [hkind, startsWithDigit] using hfold
    have hne : op.kind ≠ .string := by
      rcases hop with hk | hk <;> simp [hk]
    refine ⟨_, rendered_parens (op :: ts) hcanonical ?_ ?_ rfl (by simp)⟩
    · intro rest hrest
      rw [List.append_assoc]
      refine lexes_lexeme ht hne ?_ (hright.printed rest hrest)
      rw [hfirst]
      exact leaves_operand hop hc hdigit _
    · rw [hfolded]
      have hoperand : Spells (.expr unaryLevel right.foldSigns) ts :=
        hright.spells.weaken (by decide) (by decide)
      exact (Spells.unary hop hoperand).weaken (by decide) (by decide)

theorem readsBack_binary {level₁ level₂ level₃ level : Nat} {op : Token}
    (hop : op.kind ∈ operatorsAt level) (ht : op.Legible) (ihl : ReadsBack (.expr level₁ left))
    (ihr : ReadsBack (.expr level₂ right)) : ReadsBack (.expr level₃ (.binary left op right)) := by
  obtain ⟨⟨ls, hleft⟩, -⟩ := ihl
  obtain ⟨⟨rs, hright⟩, -⟩ := ihr
  have hcanonical : (Expr.binary left op right).canonical = text "(" ++
      (left.canonical ++ text " " ++ op.lexeme ++ text " " ++ right.canonical) ++ text ")" := by
    simp only [Expr.canonical, List.append_assoc]
  have hlevel : level < 8 := (mem_operatorsAt.mp hop).1
  have hne : op.kind ≠ .string := by
    intro hk
    rw [hk, mem_operatorsAt] at hop
    simp [Kind.strength] at hop
  refine ⟨⟨_, rendered_parens (ls ++ op :: rs) hcanonical ?_ ?_ rfl (by simp)⟩,
    takesMinus_of_parens ⟨_, hcanonical.trans (List.append_assoc _ _ _)⟩⟩
  · intro rest hrest
    simp only [List.append_assoc]
    refine hleft.printed.lexes (delimits_append (by decide) _) (lexes_space ?_)
    have hblank : Delimits (text " " ++ (right.canonical ++ rest)) :=
      delimits_append (by decide) _
    exact lexes_lexeme ht hne (hblank.leaves _) (lexes_space (hright.printed rest hrest))
  · rw [Expr.foldSigns]
    have hl : Spells (.expr level left.foldSigns) ls :=
      hleft.spells.weaken (show level ≤ 9 by omega) (by decide)
    have hr : Spells (.expr (level + 1) right.foldSigns) rs :=
      hright.spells.weaken (show level + 1 ≤ 9 by omega) (by decide)
    exact (Spells.binary hop hl hr).weaken (Nat.zero_le _) (by omega)

theorem readsBack_call {level level' : Nat} {callee : Expr} {opening closing : Token}
    {args : List Expr} (hopen : opening.kind = .openParen) (hclose : closing.kind = .closeParen)
    (hopening : opening.Legible) (hclosing : closing.Legible)
    (ihf : ReadsBack (.expr level' callee)) (iha : ReadsBack (.args args)) :
    ReadsBack (.expr level (.call callee opening args closing)) := by
  obtain ⟨⟨fs, hcallee⟩, hminus⟩ := ihf
  obtain ⟨ts, hargs, hsp⟩ := iha
  -- the parentheses and what is between them, behind whatever is called
  have hbehind : ∀ rest, Delimits rest → Lexes (text "(" ++ (Expr.canonicalArgs args ++
      (text ")" ++ rest))) (opening :: (ts ++ [closing])) rest := fun rest _ =>
    lexes_spelt hopening hopen rfl (leaves_solitary (by decide) _) <|
      hargs.lexes (delimits_append (by decide) _) <|
        lexes_spelt hclosing hclose rfl (leaves_solitary (by decide) _) .done
  have hprinted : ∀ {s us}, Printed s us → Printed (s ++ text "(" ++ Expr.canonicalArgs args
      ++ text ")") (us ++ opening :: (ts ++ [closing])) := by
    intro s us hs rest hrest
    simp only [List.append_assoc]
    exact hs.lexes (delimits_append (by decide) _) (hbehind rest hrest)
  obtain ⟨c, r, hfirst, hc⟩ := hcallee.first
  refine ⟨⟨fs ++ opening :: (ts ++ [closing]), ?_⟩, ?_⟩
  · constructor
    · rw [Expr.canonical]
      exact hprinted hcallee.printed
    · rw [Expr.foldSigns]
      exact .call hcallee.spells hopen hsp hclose
    · intro next
      rw [firstKind_append, hcallee.starts, Expr.opensWithIf]
    · exact fun _ h => by cases h
    · rw [Expr.canonical, hfirst]
      exact ⟨c, _, rfl, hc⟩
  · intro hdigit
    have hdigit' : startsWithDigit callee.canonical = true := by
      rw [Expr.canonical, hfirst] at hdigit
      rw [hfirst]
      exact hdigit
    obtain ⟨us, hus, hnegated⟩ := hminus hdigit'
    refine ⟨us ++ opening :: (ts ++ [closing]), ?_, ?_⟩
    · rw [Expr.canonical]
      exact hprinted hus
    · intro op
      rw [Expr.foldSigns, Expr.negatedBy]
      exact .call (hnegated op) hopen hsp hclose

/-! ## Arguments and conditionals -/

theorem readsBack_lastArg {level : Nat} (ih : ReadsBack (.expr level e)) :
    ReadsBack (.args [e]) := by
  obtain ⟨⟨ts, he⟩, -⟩ := ih
  exact ⟨ts, he.printed, .lastArg he.spells_whole⟩

theorem readsBack_moreArgs {level : Nat} {es : List Expr} (ihe : ReadsBack (.expr level e))
    (ihs : ReadsBack (.args es)) : ReadsBack (.args (e :: es)) := by
  cases es with
  | nil => exact readsBack_lastArg ihe
  | cons e' es =>
      obtain ⟨⟨ts, he⟩, -⟩ := ihe
      obtain ⟨us, hes, hsp⟩ := ihs
      refine ⟨ts ++ .ofKind .comma :: us, ?_, ?_⟩
      · intro rest hrest
        rw [Expr.canonicalArgs, List.append_assoc, List.append_assoc]
        refine he.printed.lexes (delimits_append (by decide) _) ?_
        exact lexes_solitary .comma (by decide) (lexes_space (hes rest hrest))
      · rw [Expr.foldSignsAll]
        exact .moreArgs he.spells_whole rfl hsp

theorem readsBack_choice {level : Nat} {choice : Conditional}
    (ih : ReadsBack (.conditional choice)) : ReadsBack (.expr level (.conditional choice)) := by
  obtain ⟨ts, hprinted, hsp⟩ := ih
  have hfirst : ∃ s, choice.canonical = 0x69 :: s := by
    cases choice
    rw [Conditional.canonical]
    exact ⟨_, rfl⟩
  obtain ⟨s, hs⟩ := hfirst
  refine ⟨⟨ts, ?_⟩, fun hdigit => ?_⟩
  · constructor
    · rw [Expr.canonical]
      exact hprinted
    · rw [Expr.foldSigns]
      exact (Spells.choice hsp).weaken (by decide) (by decide)
    · intro next
      rw [show firstKind ts next = .if_ from hsp.starts next]
      rfl
    · intro c hc
      cases hc
      exact hsp
    · rw [Expr.canonical]
      exact ⟨_, s, hs, by decide⟩
  · rw [Expr.canonical, hs] at hdigit
    cases hdigit

theorem delimits_alternative (otherwise : Alternative) {rest : Text} (hrest : Delimits rest) :
    Delimits (otherwise.canonical ++ rest) := by
  cases otherwise with
  | absent => exact hrest
  | block body =>
      rw [Alternative.canonical, List.append_assoc]
      exact delimits_append (by decide) _
  | chained next =>
      rw [Alternative.canonical, List.append_assoc]
      exact delimits_append (by decide) _

theorem readsBack_conditional {level : Nat} {keyword : Token} {condition : Expr} {body : Block}
    {otherwise : Alternative} (hk : keyword.kind = .if_) (ht : keyword.Legible)
    (ihe : ReadsBack (.expr level condition)) (ihb : ReadsBack (.block body))
    (iha : ReadsBack (.alternative otherwise)) :
    ReadsBack (.conditional (.mk keyword condition body otherwise)) := by
  obtain ⟨⟨ts, hcondition⟩, -⟩ := ihe
  obtain ⟨us, hbody, hspb⟩ := ihb
  obtain ⟨vs, hother, hspa⟩ := iha
  refine ⟨keyword :: .ofKind .openParen :: (ts ++ .ofKind .closeParen :: (us ++ vs)), ?_, ?_⟩
  · intro rest hrest
    simp only [Conditional.canonical, List.append_assoc]
    refine lexes_word ht hk rfl ?_
    refine lexes_solitary .openParen (by decide) ?_
    refine hcondition.printed.lexes (delimits_append (by decide) _) ?_
    refine lexes_solitary .closeParen (by decide) (lexes_space ?_)
    exact hbody.lexes (delimits_alternative otherwise hrest) (hother rest hrest)
  · rw [Conditional.foldSigns]
    exact .conditional hk rfl hcondition.spells_whole rfl hspb hspa

theorem readsBack_absent : ReadsBack (.alternative .absent) := ⟨[], fun _ _ => .done, .absent⟩

/-- The keyword in front of an alternative. -/
theorem lexes_else (h : Lexes s ts rest) :
    Lexes (text " else " ++ s) (.ofKind .else_ :: ts) rest :=
  lexes_space (lexes_kind .else_ rfl h)

theorem readsBack_otherwise {body : Block} (ih : ReadsBack (.block body)) :
    ReadsBack (.alternative (.block body)) := by
  obtain ⟨ts, hbody, hsp⟩ := ih
  refine ⟨.ofKind .else_ :: ts, fun rest hrest => ?_, ?_⟩
  · rw [Alternative.canonical, List.append_assoc]
    exact lexes_else (hbody rest hrest)
  · rw [Alternative.foldSigns]
    exact .otherwise rfl hsp

theorem readsBack_chained {next : Conditional} (ih : ReadsBack (.conditional next)) :
    ReadsBack (.alternative (.chained next)) := by
  obtain ⟨ts, hnext, hsp⟩ := ih
  refine ⟨.ofKind .else_ :: ts, fun rest hrest => ?_, ?_⟩
  · rw [Alternative.canonical, List.append_assoc]
    exact lexes_else (hnext rest hrest)
  · rw [Alternative.foldSigns]
    exact .chained rfl hsp

/-! ## Blocks and statements -/

/-- The statements of a block, each with a blank behind it. -/
theorem lexes_body {ss : List Stmt} (h : ∀ s ∈ ss, StmtReadsBack s) :
    ∃ ts, (∀ rest, Lexes (Stmt.canonicalBody ss ++ rest) ts rest) ∧
      ∀ next, Spells (.body (Stmt.foldSignsAll ss) next) ts := by
  induction ss with
  | nil => exact ⟨[], fun _ => .done, fun _ => .done⟩
  | cons s ss ih =>
      rw [List.forall_mem_cons] at h
      obtain ⟨us, hs, hsps⟩ := h.1
      obtain ⟨ts, hss, hspss⟩ := ih h.2
      refine ⟨us ++ ts, fun rest => ?_, fun next => ?_⟩
      · rw [Stmt.canonicalBody, List.append_assoc, List.append_assoc]
        exact hs.lexes (delimits_append (by decide) _) (lexes_space (hss rest))
      · rw [Stmt.foldSignsAll]
        exact .more (hsps _) (hspss next)

theorem readsBack_block {opening closing : Token} {ss : List Stmt}
    (hopen : opening.kind = .openBrace) (hclose : closing.kind = .closeBrace)
    (hopening : opening.Legible) (hclosing : closing.Legible) (ih : ∀ s ∈ ss, StmtReadsBack s) :
    ReadsBack (.block (.braces opening ss closing ss.isEmpty)) := by
  obtain ⟨ts, hss, hsp⟩ := lexes_body ih
  refine ⟨opening :: (ts ++ [closing]), fun rest _ => ?_, ?_⟩
  · have hend : Lexes (Kind.closeBrace.name ++ rest) [closing] rest :=
      lexes_spelt hclosing hclose rfl (leaves_solitary (by decide) _) .done
    rw [Block.canonical]
    split
    · rename_i hempty
      rw [List.isEmpty_iff] at hempty
      subst hempty
      have hts : Lexes (Kind.closeBrace.name ++ rest) (ts ++ [closing]) rest :=
        (hss _).append hend
      exact lexes_spelt hopening hopen rfl (leaves_solitary (by decide) _) hts
    · rw [List.append_assoc, List.append_assoc]
      exact lexes_spelt hopening hopen rfl (leaves_solitary (by decide) _)
        (lexes_space ((hss _).append hend))
  · rw [Block.foldSigns, ← Stmt.isEmpty_foldSignsAll]
    exact .block hopen (hsp .closeBrace) hclose

theorem stmtReadsBack_binding {level : Nat} {keyword name : Token} {value : Expr}
    (hk : keyword.kind = .let_) (hname : name.kind = .ident) (hkeyword : keyword.Legible)
    (ht : name.Legible) (ih : ReadsBack (.expr level value)) :
    StmtReadsBack (.binding keyword name name.lexeme value) := by
  obtain ⟨⟨ts, hvalue⟩, -⟩ := ih
  refine ⟨keyword :: name :: .ofKind .assign :: (ts ++ [.ofKind .semicolon]), ?_, ?_⟩
  · intro rest _
    simp only [Stmt.canonical, List.append_assoc]
    refine lexes_word hkeyword hk rfl ?_
    have hassign : Delimits (text " " ++ (text "= " ++ (value.canonical ++ (text ";" ++ rest)))) :=
      delimits_append (by decide) _
    refine lexes_lexeme ht (by simp [hname]) (hassign.leaves _) (lexes_space ?_)
    exact lexes_kind .assign rfl (hvalue.lexes_semicolon rest)
  · intro next
    rw [Stmt.foldSigns]
    exact .binding hk hname rfl hvalue.spells_whole (.semicolon rfl)

theorem stmtReadsBack_bareReturn {keyword : Token} (hk : keyword.kind = .return_)
    (ht : keyword.Legible) : StmtReadsBack (.returning keyword .missing) := by
  refine ⟨[keyword, .ofKind .semicolon], fun rest _ => ?_, fun next => ?_⟩
  · rw [Stmt.canonical]
    have hsemicolon : Delimits (Kind.semicolon.name ++ rest) := delimits_append (by decide) _
    exact lexes_spelt ht hk rfl (hsemicolon.leaves _) (lexes_solitary .semicolon (by decide) .done)
  · exact .bareReturn hk (.semicolon rfl)

theorem canonical_returning {keyword : Token} {value : Expr} (h : value ≠ .missing) :
    (Stmt.returning keyword value).canonical = text "return " ++ value.canonical ++ text ";" := by
  rw [Stmt.canonical]
  exact h

theorem stmtReadsBack_returning {level : Nat} {keyword : Token} {value : Expr}
    (hk : keyword.kind = .return_) (ht : keyword.Legible) (ih : ReadsBack (.expr level value)) :
    StmtReadsBack (.returning keyword value) := by
  obtain ⟨⟨ts, hvalue⟩, -⟩ := ih
  have hne : value ≠ .missing := by
    rintro rfl
    obtain ⟨c, s, hfirst, -⟩ := hvalue.first
    cases hfirst
  refine ⟨keyword :: (ts ++ [.ofKind .semicolon]), ?_, ?_⟩
  · intro rest _
    rw [canonical_returning hne, List.append_assoc, List.append_assoc]
    exact lexes_word ht hk rfl (hvalue.lexes_semicolon rest)
  · intro next
    rw [Stmt.foldSigns]
    exact .returning hk hvalue.spells_whole (.semicolon rfl)

theorem stmtReadsBack_blockStmt {b : Block} (ih : ReadsBack (.block b)) :
    StmtReadsBack (.block b) := by
  obtain ⟨ts, hb, hsp⟩ := ih
  refine ⟨ts, ?_, fun next => ?_⟩
  · rw [Stmt.canonical]
    exact hb
  · rw [Stmt.foldSigns]
    exact .blockStmt hsp

/-- A conditional as a statement ends at its brace. -/
theorem stmtReadsBack_conditional {choice : Conditional} (hprinted : Printed choice.canonical ts)
    (hsp : Spells (.conditional choice.foldSigns) ts) :
    StmtReadsBack (.expr (.conditional choice)) := by
  refine ⟨ts, ?_, fun next => ?_⟩
  · rw [Stmt.canonical, Expr.terminator, List.append_nil, Expr.canonical]
    exact hprinted
  · rw [Stmt.foldSigns, Expr.foldSigns, ← List.append_nil ts]
    exact .choiceStmt hsp .omitted

theorem stmtReadsBack_exprStmt {level : Nat} (hplain : (Stmt.expr e).opensPlainly = true)
    (ih : ReadsBack (.expr level e)) : StmtReadsBack (.expr e) := by
  obtain ⟨⟨ts, he⟩, -⟩ := ih
  by_cases hchoice : ∃ c, e = .conditional c
  · obtain ⟨c, rfl⟩ := hchoice
    have hprinted := he.printed
    rw [Expr.canonical] at hprinted
    exact stmtReadsBack_conditional hprinted (he.choice c rfl)
  · have hterminator : e.terminator = text ";" := by
      cases e
      case conditional c => exact absurd ⟨c, rfl⟩ hchoice
      all_goals rfl
    have hif : e.opensWithIf = false := by
      cases e
      case conditional c => exact absurd ⟨c, rfl⟩ hchoice
      case call callee opening args closing =>
        simpa [Stmt.opensPlainly, Expr.opensWithIf] using hplain
      all_goals rfl
    refine ⟨ts ++ [.ofKind .semicolon], fun rest _ => ?_, fun next => ?_⟩
    · rw [Stmt.canonical, hterminator, List.append_assoc]
      exact he.lexes_semicolon rest
    · rw [Stmt.foldSigns]
      exact .exprStmt he.spells_whole
        ((he.starts next).trans hif) (.semicolon rfl)

/-! ## All phrases -/

/-- No statement of the phrase opens with a conditional that is called. -/
def Phrase.opensPlainly : Phrase → Bool
  | .expr _ e => e.all (fun _ => true) Stmt.opensPlainly
  | .args es => Expr.allOf (fun _ => true) Stmt.opensPlainly es
  | .conditional choice => choice.all (fun _ => true) Stmt.opensPlainly
  | .alternative otherwise => otherwise.all (fun _ => true) Stmt.opensPlainly
  | .block b => b.all (fun _ => true) Stmt.opensPlainly
  | .stmt s _ => s.all (fun _ => true) Stmt.opensPlainly
  | .body ss _ => Stmt.allOf (fun _ => true) Stmt.opensPlainly ss

/-- What legible tokens spell is read back from its canonical form. -/
theorem readsBack_of_spells {φ : Phrase} {ts : List Token} (h : Spells φ ts)
    (hts : ∀ t ∈ ts, t.Legible) (hplain : φ.opensPlainly = true) : ReadsBack φ := by
  induction h with
  | name hk => exact readsBack_name hk (hts _ (by simp))
  | integer hk hread => exact readsBack_integer hk hread (hts _ (by simp))
  | float hk hread => exact readsBack_float hk hread (hts _ (by simp))
  | string hk => exact readsBack_string hk (hts _ (by simp))
  | yes hk => exact readsBack_boolean (Or.inl hk) (.yes hk) (hts _ (by simp))
  | no hk => exact readsBack_boolean (Or.inr hk) (.no hk) (hts _ (by simp))
  | group _ _ _ ih =>
      simp only [List.forall_mem_append, List.forall_mem_cons] at hts
      exact ih hts.2.1 hplain
  | choice _ ih =>
      simp only [Phrase.opensPlainly, Expr.all, Bool.true_and] at hplain
      exact readsBack_choice (ih hts hplain)
  | call _ hopen _ hclose ihf iha =>
      simp only [List.forall_mem_append, List.forall_mem_cons] at hts
      simp only [Phrase.opensPlainly, Expr.all, Bool.true_and, Bool.and_eq_true] at hplain
      exact readsBack_call hopen hclose hts.2.1 hts.2.2.2.1 (ihf hts.1 hplain.1)
        (iha hts.2.2.1 hplain.2)
  | unary hop _ ih =>
      simp only [List.forall_mem_cons] at hts
      simp only [Phrase.opensPlainly, Expr.all, Bool.true_and] at hplain
      exact readsBack_unary hop hts.1 (ih hts.2 hplain)
  | binary hop _ _ ihl ihr =>
      simp only [List.forall_mem_append, List.forall_mem_cons] at hts
      simp only [Phrase.opensPlainly, Expr.all, Bool.true_and, Bool.and_eq_true] at hplain
      exact readsBack_binary hop hts.2.1 (ihl hts.1 hplain.1) (ihr hts.2.2 hplain.2)
  | fused hsigned _ _ ihl ihr =>
      simp only [List.forall_mem_append, List.forall_mem_cons] at hts ihr
      simp only [Phrase.opensPlainly, Expr.all, Bool.true_and, Bool.and_eq_true] at hplain
      have hright := ihr ⟨Token.legible_unsignedOf hsigned hts.2.1, hts.2.2⟩ hplain.2
      have hop : Kind.minus ∈ operatorsAt sumLevel := by decide
      exact readsBack_binary hop (Token.legible_minusOf _) (ihl hts.1 hplain.1) hright
  | tighter _ _ ih => exact ih hts hplain
  | noArgs => exact ⟨[], fun _ _ => .done, .noArgs⟩
  | lastArg _ ih =>
      simp only [Phrase.opensPlainly, Expr.allOf, Bool.and_true] at hplain
      exact readsBack_lastArg (ih hts hplain)
  | moreArgs _ _ _ ihe ihs =>
      simp only [List.forall_mem_append, List.forall_mem_cons] at hts
      simp only [Phrase.opensPlainly, Expr.allOf, Bool.and_eq_true] at hplain
      exact readsBack_moreArgs (ihe hts.1 hplain.1) (ihs hts.2.2 hplain.2)
  | conditional hk _ _ _ _ _ ihe ihb iha =>
      simp only [List.forall_mem_append, List.forall_mem_cons] at hts
      simp only [Phrase.opensPlainly, Conditional.all, Bool.and_eq_true] at hplain
      exact readsBack_conditional hk hts.1 (ihe hts.2.2.1 hplain.1.1)
        (ihb hts.2.2.2.2.1 hplain.1.2) (iha hts.2.2.2.2.2 hplain.2)
  | absent => exact readsBack_absent
  | otherwise _ _ ih =>
      simp only [List.forall_mem_cons] at hts
      exact readsBack_otherwise (ih hts.2 (by rwa [Phrase.opensPlainly, Alternative.all] at hplain))
  | chained _ _ ih =>
      simp only [List.forall_mem_cons] at hts
      exact readsBack_chained (ih hts.2 (by rwa [Phrase.opensPlainly, Alternative.all] at hplain))
  | block hopen _ hclose ih =>
      simp only [List.forall_mem_append, List.forall_mem_cons] at hts
      simp only [Phrase.opensPlainly, Block.all] at hplain
      exact readsBack_block hopen hclose hts.1 hts.2.2.1 (ih hts.2.1 hplain)
  | done => exact fun _ h => by cases h
  | gap _ _ ih =>
      simp only [List.forall_mem_cons] at hts
      exact ih hts.2 hplain
  | more _ _ ihs ihss =>
      simp only [List.forall_mem_append] at hts
      simp only [Phrase.opensPlainly, Stmt.allOf, Bool.and_eq_true] at hplain
      exact List.forall_mem_cons.mpr ⟨ihs hts.1 hplain.1, ihss hts.2 hplain.2⟩
  | binding hk hname _ _ _ ih =>
      simp only [List.forall_mem_append, List.forall_mem_cons] at hts
      simp only [Phrase.opensPlainly, Stmt.all, Bool.and_eq_true] at hplain
      exact stmtReadsBack_binding hk hname hts.1 hts.2.1 (ih hts.2.2.2.1 hplain.2)
  | bareReturn hk _ => exact stmtReadsBack_bareReturn hk (hts _ (by simp))
  | returning hk _ _ ih =>
      simp only [List.forall_mem_append, List.forall_mem_cons] at hts
      simp only [Phrase.opensPlainly, Stmt.all, Bool.and_eq_true] at hplain
      exact stmtReadsBack_returning hk hts.1 (ih hts.2.1 hplain.2)
  | blockStmt _ ih =>
      simp only [Phrase.opensPlainly, Stmt.all, Bool.and_eq_true] at hplain
      exact stmtReadsBack_blockStmt (ih hts hplain.2)
  | choiceStmt _ _ ih =>
      simp only [List.forall_mem_append] at hts
      simp only [Phrase.opensPlainly, Stmt.all, Expr.all, Bool.and_eq_true, true_and] at hplain
      obtain ⟨us, hprinted, hsp⟩ := ih hts.1 hplain.2
      exact stmtReadsBack_conditional hprinted hsp
  | exprStmt _ _ _ ih =>
      simp only [List.forall_mem_append] at hts
      simp only [Phrase.opensPlainly, Stmt.all, Bool.and_eq_true] at hplain
      exact stmtReadsBack_exprStmt hplain.1 (ih hts.1 hplain.2)

end Scriptlet
