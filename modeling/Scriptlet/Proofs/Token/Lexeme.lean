import Scriptlet.Token.Lexeme

/-!
# What a lexeme takes

`Lexeme.Takes l s` says that a lexeme takes some bytes from the head of `s`,
one at least, and which text it stands for: those bytes themselves, or what
is inside the quotes. `read_takes` shows it of every lexeme that is read from
a text, whatever its bytes are.
-/

namespace Scriptlet

/-! ## Runs at the head of a text -/

namespace Lexeme

theorem digitRun_isPrefix : ∀ s : Text, digitRun s <+: s
  | [] => List.prefix_refl []
  | c :: s => by
      rw [digitRun]
      split
      · exact List.cons_prefix_cons.mpr ⟨rfl, digitRun_isPrefix s⟩
      · exact List.nil_prefix

theorem wholePart_isPrefix (s : Text) : wholePart s <+: s := by
  cases s with
  | nil => exact List.prefix_refl []
  | cons c s =>
      rw [wholePart]
      split
      · exact List.cons_prefix_cons.mpr ⟨rfl, digitRun_isPrefix s⟩
      · exact digitRun_isPrefix (c :: s)

theorem fractionPart_isPrefix (s : Text) : fractionPart s <+: s := by
  cases s with
  | nil => exact List.prefix_refl []
  | cons c s =>
      rw [fractionPart]
      split
      · exact List.cons_prefix_cons.mpr ⟨rfl, digitRun_isPrefix s⟩
      · exact List.nil_prefix

theorem numeral_isPrefix (s : Text) :
    wholePart s ++ fractionPart (s.drop (wholePart s).length) <+: s := by
  obtain ⟨rest, hrest⟩ := wholePart_isPrefix s
  have hdrop : s.drop (wholePart s).length = rest := by
    have := congrArg (List.drop (wholePart s).length) hrest
    rw [List.drop_left] at this
    exact this.symm
  obtain ⟨tail, htail⟩ := fractionPart_isPrefix rest
  refine ⟨tail, ?_⟩
  rw [hdrop, List.append_assoc, htail, hrest]

/-- A number starts with its first digit or its minus. -/
theorem wholePart_cons {c : UInt8} {s : Text}
    (h : (Byte.isDigit c || (c == Byte.minus && startsWithDigit s)) = true) :
    wholePart (c :: s) = c :: digitRun s := by
  rw [wholePart]
  split
  · rfl
  · rename_i hc
    have hdigit : Byte.isDigit c = true := by simpa [hc] using h
    rw [digitRun, if_pos (by simp [hdigit])]

/-- The closing quote stands right behind the body. -/
theorem stringBody?_eq_some {s body : Text} (h : stringBody? s = some body) :
    ∃ rest, s = body ++ Byte.quote :: rest := by
  fun_induction stringBody? s generalizing body with
  | case1 => cases h
  | case2 s =>
      cases h
      exact ⟨s, rfl⟩
  | case3 => cases h
  | case4 d r _ ih =>
      obtain ⟨inner, hinner, rfl⟩ := Option.map_eq_some_iff.mp h
      obtain ⟨rest, rfl⟩ := ih hinner
      exact ⟨rest, rfl⟩
  | case5 c s _ _ ih =>
      obtain ⟨inner, hinner, rfl⟩ := Option.map_eq_some_iff.mp h
      obtain ⟨rest, rfl⟩ := ih hinner
      exact ⟨rest, rfl⟩

end Lexeme

/-! ## Kinds by table -/

namespace Kind

/-- Kinds whose lexemes stand for exactly the bytes they take. -/
def isVerbatim (k : Kind) : Bool := k ≠ .eof && k ≠ .string && k ≠ .illegal

theorem ofWord_cases (word : Text) :
    ofWord word = .ident ∨ ofWord word ∈ keywords ∧ (ofWord word).name = word := by
  unfold ofWord
  cases hfind : keywords.find? (·.name == word) with
  | none => exact Or.inl rfl
  | some k =>
      have hname := List.find?_some hfind
      exact Or.inr ⟨List.mem_of_find?_eq_some hfind, by simpa using hname⟩

theorem isVerbatim_ofWord (word : Text) : (ofWord word).isVerbatim = true := by
  rcases ofWord_cases word with h | ⟨h, -⟩
  · rw [h]
    rfl
  · have hall : ∀ k ∈ keywords, k.isVerbatim = true := by decide
    exact hall _ h

theorem symbolAt?_eq_some {s : Text} {k : Kind} (h : symbolAt? s = some k) :
    k ∈ doubles ++ singles ∧ k.name <+: s := by
  have hname := List.find?_some h
  exact ⟨List.mem_of_find?_eq_some h, List.isPrefixOf_iff_prefix.mp hname⟩

theorem isVerbatim_symbol : ∀ k ∈ doubles ++ singles, k.isVerbatim = true := by decide

theorem name_ne_nil (k : Kind) : k.name ≠ [] := by
  cases k <;> decide

end Kind

/-! ## Characters -/

theorem Utf8.headWidth_pos {c : UInt8} {s : Text} : 0 < Utf8.headWidth (c :: s) := by
  unfold headWidth
  split
  · rename_i width hdecode
    revert hdecode
    unfold decode?
    grind
  · simp

/-! ## Lexemes -/

namespace Lexeme

/-- The text that a token stands for, against the bytes it takes. An illegal
token that starts with a quote is a string literal without its closing one. -/
def StandsFor (kind : Kind) (content bytes : Text) : Prop :=
  match kind with
  | .string => bytes = Byte.quote :: (content ++ [Byte.quote])
  | .illegal => bytes = Byte.quote :: content ∨ bytes = content ∧ bytes.head? ≠ some Byte.quote
  | _ => bytes = content

structure Takes (l : Lexeme) (s : Text) : Prop where
  width_le : l.width ≤ s.length
  width_pos : 0 < l.width
  kind_ne : l.kind ≠ .eof
  stands : StandsFor l.kind l.content (s.take l.width)

theorem takes_plain {k : Kind} {taken s : Text} (hk : k.isVerbatim = true) (hs : taken <+: s)
    (hne : taken ≠ []) : (plain k taken).Takes s := by
  have htake : s.take taken.length = taken := (List.prefix_iff_eq_take.mp hs).symm
  refine ⟨hs.length_le, List.length_pos_iff.mpr hne, ?_, ?_⟩
  · rintro (rfl : k = .eof)
    cases hk
  · cases k
    case eof | string | illegal => cases hk
    all_goals exact htake

theorem takes_word {c : UInt8} {s : Text} (hc : Byte.isLetter c = true) :
    (word (c :: s)).Takes (c :: s) := by
  refine takes_plain (Kind.isVerbatim_ofWord _) (List.takeWhile_prefix _) ?_
  rw [List.takeWhile_cons_of_pos (by simp [hc])]
  exact List.cons_ne_nil _ _

theorem takes_number {c : UInt8} {s : Text}
    (hc : (Byte.isDigit c || (c == Byte.minus && startsWithDigit s)) = true) :
    (number (c :: s)).Takes (c :: s) := by
  have hne : wholePart (c :: s) ≠ [] := by
    rw [wholePart_cons hc]
    exact List.cons_ne_nil _ _
  unfold number
  dsimp only
  split
  · exact takes_plain rfl (wholePart_isPrefix _) hne
  · exact takes_plain rfl (numeral_isPrefix _) (List.append_ne_nil_of_left_ne_nil hne _)

theorem takes_quoted (s : Text) : (quoted s).Takes (Byte.quote :: s) := by
  unfold quoted
  cases hbody : stringBody? s with
  | some body =>
      obtain ⟨rest, rfl⟩ := stringBody?_eq_some hbody
      refine ⟨by simp, by simp, by simp, ?_⟩
      have hsplit : Byte.quote :: (body ++ Byte.quote :: rest)
          = Byte.quote :: (body ++ [Byte.quote]) ++ rest := by simp
      have htake : (Byte.quote :: (body ++ Byte.quote :: rest)).take (body.length + 2)
          = Byte.quote :: (body ++ [Byte.quote]) := by
        rw [hsplit]
        exact List.take_left' (by simp)
      exact htake
  | none =>
      refine ⟨by simp, by simp, by simp, Or.inl ?_⟩
      simp

theorem takes_symbol {c : UInt8} {s : Text} (hc : c ≠ Byte.quote) :
    (symbol (c :: s)).Takes (c :: s) := by
  unfold symbol
  cases hsymbol : Kind.symbolAt? (c :: s) with
  | some k =>
      obtain ⟨hmem, hname⟩ := Kind.symbolAt?_eq_some hsymbol
      exact takes_plain (Kind.isVerbatim_symbol k hmem) hname k.name_ne_nil
  | none =>
      -- at least one byte is taken, and it is `c`
      obtain ⟨n, hn⟩ := Nat.exists_eq_succ_of_ne_zero
        (Nat.ne_of_gt (Utf8.headWidth_pos (c := c) (s := s)))
      have htaken : (c :: s).take (Utf8.headWidth (c :: s)) = c :: s.take n := by
        rw [hn, List.take_succ_cons]
      have hpre : c :: s.take n <+: c :: s :=
        List.cons_prefix_cons.mpr ⟨rfl, List.take_prefix n s⟩
      have htake := (List.prefix_iff_eq_take.mp hpre).symm
      dsimp only
      rw [htaken]
      exact ⟨hpre.length_le, by simp, by simp,
        Or.inr ⟨htake, by rw [htake]; simpa using hc⟩⟩

/-- Whatever stands at the head of a text, a lexeme is taken from it. -/
theorem read_takes (c : UInt8) (s : Text) : (read (c :: s)).Takes (c :: s) := by
  rw [read]
  split
  · rename_i hletter
    exact takes_word hletter
  · split
    · rename_i hnumber
      exact takes_number hnumber
    · split
      · rename_i hquote
        subst hquote
        exact takes_quoted s
      · rename_i hquote
        exact takes_symbol hquote

end Lexeme

end Scriptlet
