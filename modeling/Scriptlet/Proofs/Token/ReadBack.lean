import Scriptlet.Proofs.Token.Lexeme

/-!
# Lexemes read back from their own bytes

A lexeme is as long as its class allows, so what follows it in the source
decides where it ends. `Kind.extendedBy` names the bytes that could run into a
token of a kind; behind the bytes of a lexeme and in front of any other byte
the same lexeme is read again (`read_again`).
-/

namespace Scriptlet

namespace Kind

/-- Whether this byte right behind a token of the kind could belong to it, or
make another token of it. -/
def extendedBy (k : Kind) (c : UInt8) : Bool :=
  match k with
  | .eof | .string | .illegal => false
  | .integer | .float => Byte.isDigit c || c == Byte.underscore || c == Byte.dot
  | .ident | .true_ | .false_ | .let_ | .return_ | .func | .if_ | .else_ | .for_ =>
      Byte.isLetter c || Byte.isDigit c
  | k => k == .minus && Byte.isDigit c || doubles.any (·.name == k.name ++ [c])

/-- A text that leaves a token of this kind in front of it alone. -/
def Leaves (k : Kind) (rest : Text) : Prop := ∀ c, rest.head? = some c → k.extendedBy c = false

theorem extendedBy_ofWord (word : Text) (c : UInt8) :
    (ofWord word).extendedBy c = (Byte.isLetter c || Byte.isDigit c) := by
  rcases ofWord_cases word with h | ⟨h, -⟩
  · rw [h]
    rfl
  · simp only [keywords, List.mem_cons, List.not_mem_nil, or_false] at h
    rcases h with h | h | h | h | h | h | h | h <;> rw [h] <;> rfl

end Kind

namespace Lexeme

variable {s rest : Text}

/-! ## Words -/

theorem word_content (s : Text) :
    (word s).content = s.takeWhile fun c => Byte.isLetter c || Byte.isDigit c := rfl

theorem word_again
    (hrest : ∀ c, rest.head? = some c → (Byte.isLetter c || Byte.isDigit c) = false) :
    word ((word s).content ++ rest) = word s := by
  have hall : ∀ c ∈ s.takeWhile fun c => Byte.isLetter c || Byte.isDigit c,
      (Byte.isLetter c || Byte.isDigit c) = true := List.all_eq_true.mp List.all_takeWhile
  have hnone : rest.takeWhile (fun c => Byte.isLetter c || Byte.isDigit c) = [] := by
    cases rest with
    | nil => rfl
    | cons c r => rw [List.takeWhile_cons_of_neg (by simp [hrest c rfl])]
  have htaken : ((word s).content ++ rest).takeWhile (fun c => Byte.isLetter c || Byte.isDigit c)
      = s.takeWhile fun c => Byte.isLetter c || Byte.isDigit c := by
    rw [word_content, List.takeWhile_append_of_pos hall, hnone, List.append_nil]
  simp only [word] at htaken ⊢
  rw [htaken]

/-! ## Numbers -/

theorem startsWithDigit_digitRun (h : startsWithDigit s = true) :
    startsWithDigit (digitRun s ++ rest) = true := by
  cases s with
  | nil => cases h
  | cons c s =>
      have hc : Byte.isDigit c = true := h
      rw [digitRun, if_pos (by simp [hc])]
      exact hc

theorem digitRun_append
    (hrest : ∀ c, rest.head? = some c → Byte.isDigit c = false ∧ c ≠ Byte.underscore) :
    digitRun (digitRun s ++ rest) = digitRun s := by
  have hnone : digitRun rest = [] := by
    cases rest with
    | nil => rfl
    | cons c r =>
        obtain ⟨hdigit, hunder⟩ := hrest c rfl
        rw [digitRun, if_neg (by simp [hdigit, hunder])]
  induction s with
  | nil => exact hnone
  | cons c s ih =>
      rw [digitRun]
      split
      · rename_i hc
        have hc' : (Byte.isDigit c ||
            (c == Byte.underscore && startsWithDigit (digitRun s ++ rest))) = true := by
          rcases (Bool.or_eq_true _ _).mp hc with hdigit | hunder
          · simp [hdigit]
          · obtain ⟨hunder, hdigit⟩ := (Bool.and_eq_true _ _).mp hunder
            simp [hunder, startsWithDigit_digitRun hdigit]
        rw [List.cons_append, digitRun, if_pos hc', ih]
      · exact hnone

theorem wholePart_append (hne : wholePart s ≠ [])
    (hrest : ∀ c, rest.head? = some c → Byte.isDigit c = false ∧ c ≠ Byte.underscore) :
    wholePart (wholePart s ++ rest) = wholePart s := by
  cases s with
  | nil => exact absurd rfl hne
  | cons c s =>
      rw [wholePart] at hne ⊢
      split
      · rename_i hc
        rw [List.cons_append, wholePart, if_pos hc, digitRun_append hrest]
      · rename_i hc
        rw [if_neg hc] at hne
        -- the digits start with `c` itself, which is no minus
        obtain ⟨d, ds, hds⟩ := List.exists_cons_of_ne_nil hne
        have hd : d = c := by
          rw [digitRun] at hds
          split at hds
          · exact (List.cons.inj hds).1.symm
          · cases hds
        have happ := digitRun_append (s := c :: s) hrest
        rw [hds, List.cons_append] at happ ⊢
        rw [wholePart, if_neg (hd ▸ hc), happ]

theorem fractionPart_append
    (hrest : ∀ c, rest.head? = some c →
      (Byte.isDigit c = false ∧ c ≠ Byte.underscore) ∧ c ≠ Byte.dot) :
    fractionPart (fractionPart s ++ rest) = fractionPart s := by
  have hnone : fractionPart rest = [] := by
    cases rest with
    | nil => rfl
    | cons c r =>
        have hdot := (hrest c rfl).2
        rw [fractionPart, if_neg (by simp [hdot])]
  cases s with
  | nil => exact hnone
  | cons c s =>
      rw [fractionPart]
      split
      · rename_i hc
        obtain ⟨hdot, hdigit⟩ := (Bool.and_eq_true _ _).mp hc
        rw [List.cons_append, fractionPart,
          if_pos (by rw [hdot, startsWithDigit_digitRun hdigit]; rfl),
          digitRun_append fun c hc => (hrest c hc).1]
      · exact hnone

/-- The fraction of the number at the head of a text. -/
def fractionOf (s : Text) : Text := fractionPart (s.drop (wholePart s).length)

theorem number_eq (s : Text) : number s =
    plain (if (fractionOf s).isEmpty then .integer else .float) (wholePart s ++ fractionOf s) := by
  unfold number fractionOf
  dsimp only
  split
  · rename_i hempty
    rw [List.isEmpty_iff.mp hempty, List.append_nil]
  · rfl

theorem number_again (hne : wholePart s ≠ [])
    (hrest : ∀ c, rest.head? = some c →
      (Byte.isDigit c = false ∧ c ≠ Byte.underscore) ∧ c ≠ Byte.dot) :
    number ((number s).content ++ rest) = number s := by
  have hfraction := fractionPart_append (s := s.drop (wholePart s).length) hrest
  -- what stands behind the whole digits is the point, or what follows the number
  have hbehind : ∀ c, (fractionOf s ++ rest).head? = some c →
      Byte.isDigit c = false ∧ c ≠ Byte.underscore := by
    intro c hc
    unfold fractionOf at hc
    cases hf : fractionPart (s.drop (wholePart s).length) with
    | nil =>
        rw [hf] at hc
        exact (hrest c hc).1
    | cons d ds =>
        have hd : d = Byte.dot := by
          cases hdrop : s.drop (wholePart s).length with
          | nil =>
              rw [hdrop] at hf
              cases hf
          | cons e r =>
              rw [hdrop, fractionPart] at hf
              split at hf
              · rename_i he
                rw [← (List.cons.inj hf).1]
                simpa using ((Bool.and_eq_true _ _).mp he).1
              · cases hf
        rw [hf] at hc
        obtain rfl : d = c := Option.some.inj hc
        rw [hd]
        decide
  have hwhole : wholePart (wholePart s ++ (fractionOf s ++ rest)) = wholePart s :=
    wholePart_append hne hbehind
  have hfrac : fractionOf (wholePart s ++ (fractionOf s ++ rest)) = fractionOf s := by
    rw [fractionOf, hwhole, List.drop_left]
    exact hfraction
  rw [number_eq s]
  show number (wholePart s ++ fractionOf s ++ rest) = _
  rw [List.append_assoc, number_eq, hwhole, hfrac]

/-! ## Strings -/

theorem stringBody?_again {body : Text} (h : stringBody? s = some body) (rest : Text) :
    stringBody? (body ++ Byte.quote :: rest) = some body := by
  fun_induction stringBody? s generalizing body with
  | case1 => cases h
  | case2 s =>
      cases h
      rw [List.nil_append, stringBody?.eq_def]
      rfl
  | case3 => cases h
  | case4 d r hquote ih =>
      obtain ⟨inner, hinner, rfl⟩ := Option.map_eq_some_iff.mp h
      rw [List.cons_append, List.cons_append, stringBody?.eq_def]
      simp only [hquote, if_false, if_true, ih hinner, Option.map_some]
  | case5 c s hquote hback ih =>
      obtain ⟨inner, hinner, rfl⟩ := Option.map_eq_some_iff.mp h
      rw [List.cons_append, stringBody?.eq_def]
      simp only [hquote, hback, if_false, ih hinner, Option.map_some]

/-! ## Symbols -/

end Lexeme

namespace Kind

theorem length_of_doubles : ∀ k ∈ doubles, k.name.length = 2 := by decide

theorem length_of_singles : ∀ k ∈ singles, k.name.length = 1 := by decide

/-- In a table of symbols of one length, only a full match counts. -/
theorem find?_of_length {table : List Kind} {n : Nat} (htable : ∀ k ∈ table, k.name.length = n)
    {q : Text} (hq : q.length = n) (rest : Text) :
    table.find? (·.name.isPrefixOf (q ++ rest)) = table.find? (·.name == q) := by
  induction table with
  | nil => rfl
  | cons k table ih =>
      rw [List.forall_mem_cons] at htable
      have hiff : k.name.isPrefixOf (q ++ rest) = (k.name == q) := by
        rw [Bool.eq_iff_iff, List.isPrefixOf_iff_prefix, beq_iff_eq]
        constructor
        · intro hpre
          have hlength : k.name.length = q.length := by rw [htable.1, hq]
          exact (List.prefix_of_prefix_length_le hpre (List.prefix_append q rest)
            (Nat.le_of_eq hlength)).eq_of_length hlength
        · rintro rfl
          exact List.prefix_append _ _
      rw [List.find?_cons, List.find?_cons, hiff, ih htable.2]

/-- A symbol of two bytes is found wherever it stands. -/
theorem symbolAt?_double {k : Kind} (hk : k ∈ doubles) {s : Text} (hs : k.name <+: s) :
    symbolAt? s = some k := by
  have hfound : ∀ k ∈ doubles, doubles.find? (·.name == k.name) = some k := by decide
  obtain ⟨rest, rfl⟩ := hs
  rw [symbolAt?, List.find?_append, find?_of_length length_of_doubles (length_of_doubles k hk),
    hfound k hk]
  rfl

/-- A symbol of one byte is found where none of two bytes stands. -/
theorem symbolAt?_single {k : Kind} (hk : k ∈ singles) {s : Text} (hs : k.name <+: s)
    (hnone : ∀ d ∈ doubles, ¬ d.name <+: s) : symbolAt? s = some k := by
  have hfound : ∀ k ∈ singles, singles.find? (·.name == k.name) = some k := by decide
  have hdoubles : doubles.find? (·.name.isPrefixOf s) = none :=
    List.find?_eq_none.mpr fun d hd hpre => hnone d hd (List.isPrefixOf_iff_prefix.mp hpre)
  obtain ⟨rest, rfl⟩ := hs
  rw [symbolAt?, List.find?_append, hdoubles,
    find?_of_length length_of_singles (length_of_singles k hk), hfound k hk]
  rfl

theorem symbolAt?_of_leaves {k : Kind} (hk : k ∈ doubles ++ singles) {rest : Text}
    (hrest : k.Leaves rest) : symbolAt? (k.name ++ rest) = some k := by
  have halone : ∀ k ∈ singles, doubles.find? (·.name.isPrefixOf k.name) = none := by decide
  have hextended : ∀ k ∈ singles, ∀ c, k.extendedBy c =
      (k == .minus && Byte.isDigit c || doubles.any (·.name == k.name ++ [c])) := by
    intro k hk c
    simp only [singles, List.mem_cons, List.not_mem_nil, or_false] at hk
    rcases hk with rfl | rfl | rfl | rfl | rfl | rfl | rfl | rfl | rfl | rfl | rfl | rfl | rfl |
      rfl | rfl | rfl <;> rfl
  rcases List.mem_append.mp hk with hk | hk
  · exact symbolAt?_double hk (List.prefix_append _ _)
  · have hnone : doubles.find? (·.name.isPrefixOf (k.name ++ rest)) = none := by
      cases rest with
      | nil =>
          rw [List.append_nil]
          exact halone k hk
      | cons c r =>
          have hc := hrest c rfl
          rw [hextended k hk c, Bool.or_eq_false_iff] at hc
          have hlength : (k.name ++ [c]).length = 2 := by
            rw [List.length_append, length_of_singles k hk]
            rfl
          have hsplit : k.name ++ c :: r = k.name ++ [c] ++ r := by simp
          rw [hsplit, find?_of_length length_of_doubles hlength, List.find?_eq_none]
          exact fun d hd => by simpa using List.any_eq_false.mp hc.2 d hd
    refine symbolAt?_single hk (List.prefix_append _ _) fun d hd hpre => ?_
    exact List.find?_eq_none.mp hnone d hd (List.isPrefixOf_iff_prefix.mpr hpre)

end Kind

namespace Lexeme

/-- Symbols start with bytes that start nothing else, but for the minus of a
number. -/
theorem read_symbol {k : Kind} (hk : k ∈ Kind.doubles ++ Kind.singles) {rest : Text}
    (hrest : k.Leaves rest) : read (k.name ++ rest) = plain k k.name := by
  have hhead : ∀ k ∈ Kind.doubles ++ Kind.singles, ∃ c tail, k.name = c :: tail ∧
      Byte.isLetter c = false ∧ Byte.isDigit c = false ∧ c ≠ Byte.quote ∧
      (c = Byte.minus → k = .minus ∧ tail = [] ∨ tail = [Byte.equals]) := by
    intro k hk
    simp only [Kind.doubles, Kind.singles, List.cons_append, List.nil_append, List.mem_cons,
      List.not_mem_nil, or_false] at hk
    rcases hk with rfl | rfl | rfl | rfl | rfl | rfl | rfl | rfl | rfl | rfl | rfl | rfl | rfl |
      rfl | rfl | rfl | rfl | rfl | rfl | rfl | rfl | rfl | rfl | rfl | rfl | rfl
    all_goals exact ⟨_, _, rfl, by decide⟩
  obtain ⟨c, tail, hname, hletter, hdigit, hquote, hminus⟩ := hhead k hk
  have hsymbol := Kind.symbolAt?_of_leaves hk hrest
  have hnumber :
      (Byte.isDigit c || (c == Byte.minus && startsWithDigit (tail ++ rest))) = false := by
    rw [hdigit, Bool.false_or, Bool.and_eq_false_imp]
    intro hc
    rcases hminus (by simpa using hc) with ⟨rfl, rfl⟩ | rfl
    · cases rest with
      | nil => rfl
      | cons d r =>
          have hd := hrest d rfl
          exact (Bool.or_eq_false_iff.mp hd).1
    · rfl
  rw [hname, List.cons_append] at hsymbol ⊢
  rw [read, if_neg (by simp [hletter]), if_neg (by simp [hnumber]), if_neg hquote, symbol, hsymbol,
    ← hname]

/-! ## All lexemes -/

theorem take_plain {k : Kind} {taken : Text} (h : taken <+: s) :
    s.take (plain k taken).width = taken := (List.prefix_iff_eq_take.mp h).symm

theorem read_word {c : UInt8} (hc : Byte.isLetter c = true) (s : Text) :
    read (c :: s) = word (c :: s) := by
  rw [read, if_pos hc]

theorem read_number {c : UInt8} {s : Text} (hletter : Byte.isLetter c = false)
    (hc : (Byte.isDigit c || (c == Byte.minus && startsWithDigit s)) = true) :
    read (c :: s) = number (c :: s) := by
  rw [read, if_neg (by simp [hletter]), if_pos hc]

theorem read_quoted (s : Text) : read (Byte.quote :: s) = quoted s := rfl

theorem read_again_word {c : UInt8} (hc : Byte.isLetter c = true)
    (hrest : (word (c :: s)).kind.Leaves rest) :
    read ((word (c :: s)).content ++ rest) = word (c :: s) := by
  have hbehind : ∀ d, rest.head? = some d → (Byte.isLetter d || Byte.isDigit d) = false :=
    fun d hd => (Kind.extendedBy_ofWord _ d).symm.trans (hrest d hd)
  have hcons : (word (c :: s)).content
      = c :: s.takeWhile fun d => Byte.isLetter d || Byte.isDigit d := by
    rw [word_content, List.takeWhile_cons_of_pos (by simp [hc])]
  calc read ((word (c :: s)).content ++ rest)
      = word ((word (c :: s)).content ++ rest) := by rw [hcons, List.cons_append, read_word hc]
    _ = word (c :: s) := word_again hbehind

theorem read_again_number {c : UInt8} (hletter : Byte.isLetter c = false)
    (hc : (Byte.isDigit c || (c == Byte.minus && startsWithDigit s)) = true)
    (hrest : (number (c :: s)).kind.Leaves rest) :
    read ((number (c :: s)).content ++ rest) = number (c :: s) := by
  have hbehind : ∀ d, rest.head? = some d →
      (Byte.isDigit d = false ∧ d ≠ Byte.underscore) ∧ d ≠ Byte.dot := by
    intro d hd
    have hextended := hrest d hd
    rw [number_eq] at hextended
    have hclass : (Byte.isDigit d || d == Byte.underscore || d == Byte.dot) = false := by
      revert hextended
      dsimp only [plain]
      split <;> exact id
    simpa using hclass
  have hcons : (number (c :: s)).content = c :: (digitRun s ++ fractionOf (c :: s)) := by
    rw [number_eq]
    show wholePart (c :: s) ++ _ = _
    rw [wholePart_cons hc, List.cons_append]
  have hstart : (Byte.isDigit c || (c == Byte.minus &&
      startsWithDigit (digitRun s ++ fractionOf (c :: s) ++ rest))) = true := by
    rw [List.append_assoc]
    rcases (Bool.or_eq_true _ _).mp hc with hdigit | hminus
    · simp [hdigit]
    · obtain ⟨hminus, hdigit⟩ := (Bool.and_eq_true _ _).mp hminus
      simp [hminus, startsWithDigit_digitRun hdigit]
  calc read ((number (c :: s)).content ++ rest)
      = number ((number (c :: s)).content ++ rest) := by
        rw [hcons, List.cons_append, read_number hletter hstart]
    _ = number (c :: s) := number_again (by simp [wholePart_cons hc]) hbehind

/-- A lexeme without a fault reads back from its own bytes, whatever follows
that does not run into it. -/
theorem read_again {c : UInt8} (hfault : (read (c :: s)).fault? = none)
    (hrest : (read (c :: s)).kind.Leaves rest) :
    read ((c :: s).take (read (c :: s)).width ++ rest) = read (c :: s) := by
  cases hletter : Byte.isLetter c with
  | true =>
      rw [read_word hletter] at hrest ⊢
      rw [word, take_plain (List.takeWhile_prefix _)]
      exact read_again_word hletter hrest
  | false =>
      cases hnumber : Byte.isDigit c || (c == Byte.minus && startsWithDigit s) with
      | true =>
          rw [read_number hletter hnumber] at hrest ⊢
          have htake : (c :: s).take (number (c :: s)).width = (number (c :: s)).content := by
            rw [number_eq]
            exact take_plain (numeral_isPrefix (c :: s))
          rw [htake]
          exact read_again_number hletter hnumber hrest
      | false =>
          by_cases hquote : c = Byte.quote
          · subst hquote
            rw [read_quoted] at hfault ⊢
            cases hbody : stringBody? s with
            | none => simp [quoted, hbody] at hfault
            | some body =>
                have hstands := (takes_quoted s).stands
                simp only [quoted, hbody] at hstands ⊢
                rw [show (Byte.quote :: s).take (body.length + 2) = _ from hstands,
                  List.cons_append, List.append_assoc, read_quoted, quoted,
                  List.singleton_append, stringBody?_again hbody]
          · have hread : read (c :: s) = symbol (c :: s) := by
              rw [read, if_neg (by simp [hletter]), if_neg (by simp [hnumber]), if_neg hquote]
            rw [hread] at hfault hrest ⊢
            cases hsymbol : Kind.symbolAt? (c :: s) with
            | none => simp [symbol, hsymbol] at hfault
            | some k =>
                obtain ⟨hmem, hname⟩ := Kind.symbolAt?_eq_some hsymbol
                simp only [symbol, hsymbol] at hrest ⊢
                rw [take_plain hname, read_symbol hmem hrest]

end Lexeme

end Scriptlet
