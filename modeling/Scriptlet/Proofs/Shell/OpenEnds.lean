import Scriptlet.Proofs.Script.Canonical
import Scriptlet.Proofs.Token.Runs

/-!
# The shell asks for more while something is open

A source that is accepted needs no more lines, and a line of it that is not the
last needs more just when it ends inside a string literal or between a bracket
and the one that matches it (`needsMore_program`).

The shell counts brackets and does not match them. What makes the count right is
that the tokens of an accepted source are nested (`Nested`): by induction over
the grammar, each bracket has its match, with nested tokens between the two. In
nested tokens no prefix closes more than it opens (`depth_nonneg`), and one that
opens more than it closes ends between a bracket and its match
(`exists_enclosing`).
-/

namespace Scriptlet

/-! ## Nested brackets -/

/-- An opening bracket and a closing one of the same shape. -/
def Token.Match (opening closing : Token) : Prop :=
  opening.kind = .openBrace ∧ closing.kind = .closeBrace ∨
    opening.kind = .openParen ∧ closing.kind = .closeParen

/-- Every bracket has its match. -/
inductive Nested : List Token → Prop where
  | nil : Nested []
  | plain {t : Token} {ts : List Token} : Shell.nesting t = 0 → Nested ts → Nested (t :: ts)
  | pair {opening closing : Token} {inner rest : List Token} : opening.Match closing →
      Nested inner → Nested rest → Nested (opening :: (inner ++ closing :: rest))

/-- How many brackets are left open, as the shell counts them. -/
def Token.depth (ts : List Token) : Int := (ts.map Shell.nesting).foldr (· + ·) 0

open Token (depth)

@[simp] theorem Token.depth_nil : depth [] = 0 := rfl

@[simp] theorem Token.depth_cons (t : Token) (ts : List Token) :
    depth (t :: ts) = Shell.nesting t + depth ts := rfl

@[simp] theorem Token.depth_append (ts us : List Token) :
    depth (ts ++ us) = depth ts + depth us := by
  induction ts with
  | nil => simp
  | cons t ts ih => rw [List.cons_append, depth_cons, depth_cons, ih, Int.add_assoc]

theorem Token.Match.nesting {opening closing : Token} (h : opening.Match closing) :
    Shell.nesting opening = 1 ∧ Shell.nesting closing = -1 := by
  rcases h with ⟨hopening, hclosing⟩ | ⟨hopening, hclosing⟩ <;>
    simp [Shell.nesting, hopening, hclosing]

namespace Nested

variable {ts us : List Token}

theorem append (hts : Nested ts) (hus : Nested us) : Nested (ts ++ us) := by
  induction hts with
  | nil => exact hus
  | plain ht _ ih => exact .plain ht ih
  | @pair opening closing inner rest hmatch hinner _ _ ih =>
      rw [List.cons_append, List.append_assoc, List.cons_append]
      exact .pair hmatch hinner ih

theorem depth_eq (h : Nested ts) : depth ts = 0 := by
  induction h with
  | nil => rfl
  | plain ht _ ih => rw [Token.depth_cons, ht, ih, Int.add_zero]
  | pair hmatch _ _ hinner hrest =>
      obtain ⟨hopening, hclosing⟩ := hmatch.nesting
      simp only [Token.depth_cons, Token.depth_append, hinner, hrest, hopening, hclosing]
      rfl

/-- A cut through a pair and what is behind it, by where it falls. -/
theorem cut_pair {opening closing : Token} {inner rest xs ys : List Token}
    (h : opening :: (inner ++ closing :: rest) = xs ++ ys) :
    xs = [] ∨ (∃ xs' zs, xs = opening :: xs' ∧ inner = xs' ++ zs ∧ ys = zs ++ closing :: rest) ∨
      ∃ xs', xs = opening :: (inner ++ closing :: xs') ∧ rest = xs' ++ ys := by
  cases xs with
  | nil => exact Or.inl rfl
  | cons x xs =>
      obtain ⟨rfl, htail⟩ := List.cons.inj h
      rcases List.append_eq_append_iff.mp htail with ⟨zs, rfl, hrest⟩ | ⟨zs, rfl, rfl⟩
      · cases zs with
        | nil => exact Or.inr (Or.inl ⟨_, [], rfl, by simp, by simpa using hrest.symm⟩)
        | cons z zs =>
            rw [List.cons_append] at hrest
            obtain ⟨rfl, rfl⟩ := List.cons.inj hrest
            exact Or.inr (Or.inr ⟨zs, rfl, rfl⟩)
      · exact Or.inr (Or.inl ⟨xs, zs, rfl, rfl, rfl⟩)

theorem depth_nonneg {xs ys : List Token} (h : Nested (xs ++ ys)) : 0 ≤ depth xs := by
  generalize hts : xs ++ ys = ts at h
  induction h generalizing xs ys with
  | nil => rw [(List.append_eq_nil_iff.mp hts).1, Token.depth_nil]
  | @plain t ts ht _ ih =>
      cases xs with
      | nil => exact Int.le_refl 0
      | cons x xs =>
          rw [List.cons_append] at hts
          obtain ⟨rfl, rfl⟩ := List.cons.inj hts
          rw [Token.depth_cons, ht, Int.zero_add]
          exact ih rfl
  | pair hmatch hinner _ ih ihrest =>
      obtain ⟨hopening, hclosing⟩ := hmatch.nesting
      rcases cut_pair hts.symm with rfl | ⟨xs', zs, rfl, rfl, -⟩ | ⟨xs', rfl, rfl⟩
      · exact Int.le_refl 0
      · have hdepth := ih rfl
        rw [Token.depth_cons, hopening]
        omega
      · have hdepth := ihrest rfl
        simp only [Token.depth_cons, Token.depth_append, hinner.depth_eq, hopening, hclosing]
        omega

/-- Where brackets are left open, one of them has its match behind the cut. -/
theorem exists_enclosing {xs ys : List Token} (h : Nested (xs ++ ys)) (hdepth : 0 < depth xs) :
    ∃ before opening inner inner' closing after, xs = before ++ opening :: inner ∧
      ys = inner' ++ closing :: after ∧ opening.Match closing ∧ Nested (inner ++ inner') := by
  generalize hts : xs ++ ys = ts at h
  induction h generalizing xs ys with
  | nil =>
      rw [(List.append_eq_nil_iff.mp hts).1] at hdepth
      cases hdepth
  | @plain t ts ht _ ih =>
      cases xs with
      | nil => cases hdepth
      | cons x xs =>
          rw [List.cons_append] at hts
          obtain ⟨rfl, rfl⟩ := List.cons.inj hts
          rw [Token.depth_cons, ht, Int.zero_add] at hdepth
          obtain ⟨before, opening, inner, inner', closing, after, rfl, hys⟩ := ih hdepth rfl
          exact ⟨x :: before, opening, inner, inner', closing, after, rfl, hys⟩
  | @pair opening closing inner rest hmatch hinner _ _ ih =>
      obtain ⟨hopening, hclosing⟩ := hmatch.nesting
      rcases cut_pair hts.symm with rfl | ⟨xs', zs, rfl, rfl, rfl⟩ | ⟨xs', rfl, rfl⟩
      · cases hdepth
      · exact ⟨[], opening, xs', zs, closing, rest, rfl, rfl, hmatch, hinner⟩
      · have hrest : 0 < depth xs' := by
          simp only [Token.depth_cons, Token.depth_append, hinner.depth_eq, hopening,
            hclosing] at hdepth
          omega
        obtain ⟨before, opening', inner', inner'', closing', after, rfl, hys⟩ := ih hrest rfl
        exact ⟨opening :: (inner ++ closing :: before), opening', inner', inner'', closing', after,
          by simp, hys⟩

end Nested

/-! ## The grammar nests brackets -/

open Phrase

/-- Kinds that neither open nor close anything. -/
def Kind.isPlain (k : Kind) : Bool :=
  k ≠ .openBrace && k ≠ .closeBrace && k ≠ .openParen && k ≠ .closeParen

theorem nesting_of_isPlain {t : Token} (h : t.kind.isPlain = true) : Shell.nesting t = 0 := by
  unfold Shell.nesting
  cases hk : t.kind
  case openBrace | openParen | closeBrace | closeParen =>
    rw [hk] at h
    cases h
  all_goals rfl

theorem Kind.isPlain_of_operator {k : Kind} {level : Nat} (h : k ∈ operatorsAt level) :
    k.isPlain = true := by
  have hall : ∀ level < 8, ∀ k ∈ operatorsAt level, k.isPlain = true := by decide
  exact hall level (mem_operatorsAt.mp h).1 k h

theorem Kind.isPlain_of_isSignedNumber {t : Token} (h : Cursor.isSignedNumber t = true) :
    t.kind.isPlain = true := by
  simp only [Cursor.isSignedNumber, Bool.and_eq_true, Bool.or_eq_true, beq_iff_eq] at h
  rcases h.1 with hk | hk <;> rw [hk] <;> rfl

namespace Nested

variable {t : Token} {ts us : List Token} {k : Kind}

theorem cons_of_kind (ht : t.kind = k) (h : Nested ts) (hk : k.isPlain = true := by rfl) :
    Nested (t :: ts) :=
  .plain (nesting_of_isPlain (ht ▸ hk)) h

theorem of_ends {next : Kind} (h : Ends us next) : Nested us := by
  cases h with
  | semicolon ht => exact cons_of_kind ht .nil
  | omitted => exact .nil

theorem of_mayEnd (h : MayEnd us) : Nested us := by
  cases h with
  | semicolon ht => exact cons_of_kind ht .nil
  | omitted => exact .nil

/-- A token that is no bracket can be left out. -/
theorem tail (h : Nested (t :: ts)) (ht : t.kind.isPlain = true) : Nested ts := by
  cases h with
  | plain _ hts => exact hts
  | pair hmatch =>
      rcases hmatch with ⟨hk, -⟩ | ⟨hk, -⟩ <;>
        · rw [hk] at ht
          cases ht

end Nested

theorem Spells.nested {φ : Phrase} {ts : List Token} (h : Spells φ ts) : Nested ts := by
  induction h with
  | name ht | string ht | yes ht | no ht => exact .cons_of_kind ht .nil
  | integer ht _ | float ht _ => exact .cons_of_kind ht .nil
  | group hopening _ hclosing ih => exact .pair (Or.inr ⟨hopening, hclosing⟩) ih .nil
  | choice _ ih | tighter _ _ ih | lastArg _ ih | blockStmt _ ih => exact ih
  | call _ hopening _ hclosing ihcallee ihargs =>
      exact ihcallee.append (.pair (Or.inr ⟨hopening, hclosing⟩) ihargs .nil)
  | unary hop _ ih => rcases hop with hop | hop <;> exact .cons_of_kind hop ih
  | binary hop _ _ ihleft ihright =>
      exact ihleft.append (.plain (nesting_of_isPlain (Kind.isPlain_of_operator hop)) ihright)
  | fused ht _ _ ihleft ihright =>
      have hplain := Kind.isPlain_of_isSignedNumber ht
      exact ihleft.append (.plain (nesting_of_isPlain hplain) (ihright.tail hplain))
  | noArgs | absent | done => exact .nil
  | moreArgs _ hcomma _ ih ihrest => exact ih.append (.cons_of_kind hcomma ihrest)
  | conditional hif hopening _ hclosing _ _ ihcondition ihbody ihotherwise =>
      exact .cons_of_kind hif
        (.pair (Or.inr ⟨hopening, hclosing⟩) ihcondition (ihbody.append ihotherwise))
  | otherwise helse _ ih | chained helse _ ih => exact .cons_of_kind helse ih
  | block hopening _ hclosing ih => exact .pair (Or.inl ⟨hopening, hclosing⟩) ih .nil
  | gap ht _ ih => exact .cons_of_kind ht ih
  | more _ _ ih ihrest => exact ih.append ihrest
  | binding hlet hname hassign _ hends ih =>
      exact .cons_of_kind hlet (.cons_of_kind hname
        (.cons_of_kind hassign (ih.append (.of_ends hends))))
  | bareReturn hreturn hends => exact .cons_of_kind hreturn (.of_ends hends)
  | returning hreturn _ hends ih => exact .cons_of_kind hreturn (ih.append (.of_ends hends))
  | choiceStmt _ hends ih => exact ih.append (.of_mayEnd hends)
  | exprStmt _ _ hends ih => exact ih.append (.of_ends hends)

/-- The tokens of an accepted source are nested. -/
theorem nested_of_parse {ts : List Token} (hts : Token.EndsOnce ts) (h : (parse ts).errors = []) :
    Nested ts := by
  obtain ⟨body, last, rfl, hlast, hbody⟩ := spellsProgram_of_parse hts h
  exact hbody.nested.append (.cons_of_kind hlast .nil)

/-! ## Lines of an accepted source -/

namespace Token

/-- The offset lies inside a string literal. -/
def InString (tokens : List Token) (i : Nat) : Prop :=
  ∃ t ∈ tokens, t.kind = .string ∧ t.start.offset ≤ i ∧ i < t.stop.offset

/-- The offset lies between an opening bracket and the closing one that matches
it: the tokens between the two are nested. -/
def InBrackets (tokens : List Token) (i : Nat) : Prop :=
  ∃ before opening inner closing after, tokens = before ++ opening :: (inner ++ closing :: after) ∧
    opening.Match closing ∧ Nested inner ∧ opening.stop.offset ≤ i ∧ i < closing.start.offset

variable {xs zs : List Token} {i : Nat}

/-- At a cut between tokens the open brackets are those around it. -/
theorem inBrackets_iff (h : Nested (xs ++ zs))
    (hle : ∀ t ∈ xs ++ zs, t.start.offset ≤ t.stop.offset)
    (hxs : ∀ t ∈ xs, t.stop.offset ≤ i) (hzs : ∀ t ∈ zs, i < t.start.offset) :
    InBrackets (xs ++ zs) i ↔ 0 < depth xs := by
  constructor
  · rintro ⟨before, opening, inner, closing, after, hsplit, hmatch, hinner, hopening, hclosing⟩
    have hleft : opening ∉ zs := by
      intro hmem
      have hstart := hzs opening hmem
      have hspan := hle opening (List.mem_append_right _ hmem)
      omega
    have hright : closing ∉ xs := by
      intro hmem
      have hstop := hxs closing hmem
      have hspan := hle closing (List.mem_append_left _ hmem)
      omega
    have hbefore : 0 ≤ depth before := by
      rw [hsplit] at h
      exact h.depth_nonneg
    rcases List.append_eq_append_iff.mp hsplit with ⟨ms, rfl, rfl⟩ | ⟨ms, rfl, hcut⟩
    · exact absurd (by simp) hleft
    · rcases Nested.cut_pair hcut with rfl | ⟨inner', inner'', rfl, rfl, rfl⟩ | ⟨ms', rfl, rfl⟩
      · rw [List.nil_append] at hcut
        exact absurd (by simp [← hcut]) hleft
      · have hinner' : 0 ≤ depth inner' := hinner.depth_nonneg
        simp only [depth_append, depth_cons, hmatch.nesting.1]
        omega
      · exact absurd (by simp) hright
  · intro hdepth
    obtain ⟨before, opening, inner, inner', closing, after, rfl, rfl, hmatch, hinner⟩ :=
      h.exists_enclosing hdepth
    refine ⟨before, opening, inner ++ inner', closing, after, by simp, hmatch, hinner, ?_, ?_⟩
    · exact hxs opening (by simp)
    · exact hzs closing (by simp)

theorem not_inString (hxs : ∀ t ∈ xs, t.stop.offset ≤ i) (hzs : ∀ t ∈ zs, i < t.start.offset) :
    ¬ InString (xs ++ zs) i := by
  rintro ⟨t, ht, -, hstart, hstop⟩
  rcases List.mem_append.mp ht with ht | ht
  · exact Nat.not_lt.mpr (hxs t ht) hstop
  · exact Nat.not_lt.mpr hstart (hzs t ht)

end Token

namespace Shell

theorem needsMore_iff {source : Text} : needsMore source = true ↔
    (∃ t ∈ (Token.scan source).1, isOpenString source t = true) ∨
      0 < depth (Token.scan source).1 := by
  rw [needsMore, Bool.or_eq_true, List.any_eq_true, decide_eq_true_eq]
  rfl

section

variable {line rest : Text}

/-- The end token opens nothing. -/
theorem depth_dropLast (source : Text) :
    depth (Token.scan source).1.dropLast = depth (Token.scan source).1 := by
  obtain ⟨body, last, htokens, hlast, -⟩ := (Token.endsOnce_scan source).ended
  have hplain : nesting last = 0 := nesting_of_isPlain (by rw [hlast]; rfl)
  simp [htokens, hplain]

/-- The end of a line whose string literals are all closed. -/
theorem needsMore_closed (hnested : Nested (Token.scan (line ++ Byte.newline :: rest)).1)
    (hclosed : ∀ t ∈ (Token.scan line).1, isOpenString line t = false) :
    needsMore line = true ↔
      Token.InString (Token.scan (line ++ Byte.newline :: rest)).1 line.length ∨
      Token.InBrackets (Token.scan (line ++ Byte.newline :: rest)).1 line.length := by
  have hbehind := Token.on_scannerBehind line Byte.newline rest
  have hplaced : ∀ t ∈ (Token.scan (line ++ Byte.newline :: rest)).1, t.Placed _ :=
    (Scanner.tiles_all (Scanner.on_ofSource _)).placed
  have hscan := Token.scan_extend_closed rest (b := Byte.newline) rfl hclosed
  have hxs : ∀ t ∈ (Token.scan line).1.dropLast, t.stop.offset ≤ line.length := by
    intro t ht
    have htiles := Scanner.tiles_all (Scanner.on_ofSource line)
    exact (htiles.placed t (List.mem_of_mem_dropLast ht)).stop_true.offset_le
  have hzs : ∀ t ∈ (Token.scannerBehind line Byte.newline rest).all.1,
      line.length < t.start.offset := by
    intro t ht
    have hbeyond := (Scanner.tiles_all hbehind).beyond t ht
    rwa [Token.scannerBehind_offset] at hbeyond
  rw [hscan] at hnested hplaced ⊢
  have hstrings : ¬ ∃ t ∈ (Token.scan line).1, isOpenString line t = true := by
    rintro ⟨t, ht, hopen⟩
    rw [hclosed t ht] at hopen
    cases hopen
  rw [needsMore_iff, or_iff_right hstrings, or_iff_right (Token.not_inString hxs hzs),
    Token.inBrackets_iff hnested (fun t ht => (hplaced t ht).start_le) hxs hzs, depth_dropLast]

/-- A string literal that a line leaves open goes on behind the line. -/
theorem inString_of_open (hscan : (Token.scan (line ++ Byte.newline :: rest)).2 = [])
    (hopen : ∃ t ∈ (Token.scan line).1, isOpenString line t = true) :
    Token.InString (Token.scan (line ++ Byte.newline :: rest)).1 line.length := by
  obtain ⟨t, ht, hkind, hstart, hstop⟩ := Token.scan_extend_open rest (b := Byte.newline) rfl hopen
  have hend : t.kind ≠ .eof := by
    intro hk
    have hoffset := (Scanner.tiles_all (Scanner.on_ofSource _)).end_offset t ht hk
    rw [List.length_append, List.length_cons] at hoffset
    omega
  rcases hkind with hkind | hinvalid
  · exact ⟨t, ht, hkind, hstart, hstop⟩
  · rw [(legible_scan hscan t ht hend).not_invalid] at hinvalid
    cases hinvalid

end

/-- The shell takes an accepted source for complete, and asks for more behind a
line of it just when the line ends inside a string literal or in brackets. -/
theorem needsMore_program {source : Text} {p : Program}
    (h : Script.program source = (some p, none)) :
    needsMore source = false ∧ ∀ i, source[i]? = some Byte.newline →
      (needsMore (source.take i) = true ↔ Token.InString (Token.scan source).1 i ∨
        Token.InBrackets (Token.scan source).1 i) := by
  obtain ⟨hscan, herrors, -⟩ := Script.program_eq_some_iff.mp h
  have hnested := nested_of_parse (Token.endsOnce_scan source) herrors
  constructor
  · refine eq_false_of_ne_true fun hmore => ?_
    rcases needsMore_iff.mp hmore with ⟨t, ht, hopen⟩ | hdepth
    · rw [not_isOpenString hscan ht] at hopen
      cases hopen
    · rw [hnested.depth_eq] at hdepth
      cases hdepth
  · intro i hi
    obtain ⟨hlt, hget⟩ := List.getElem?_eq_some_iff.mp hi
    have hsplit : source = source.take i ++ Byte.newline :: source.drop (i + 1) := by
      rw [← hget, ← List.drop_eq_getElem_cons hlt, List.take_append_drop]
    have hlength : (source.take i).length = i := List.length_take_of_le (Nat.le_of_lt hlt)
    generalize source.take i = line at hsplit hlength ⊢
    generalize source.drop (i + 1) = rest at hsplit
    subst hsplit hlength
    by_cases hopen : ∃ t ∈ (Token.scan line).1, isOpenString line t = true
    · exact iff_of_true (needsMore_iff.mpr (Or.inl hopen)) (Or.inl (inString_of_open hscan hopen))
    · refine needsMore_closed hnested fun t ht => ?_
      exact eq_false_of_ne_true fun hlit => hopen ⟨t, ht, hlit⟩

/-- A line that ends in parentheses, one that ends in a string literal, and one
that ends between two statements. -/
theorem needsMore_program_call :
    let source := text "f(\n\"a\nb\");\n1"
    let tokens := (Token.scan source).1
    Script.program source = (some (parse tokens).program, none) ∧ needsMore source = false ∧
      (Token.InString tokens 2 ∨ Token.InBrackets tokens 2) ∧
      (Token.InString tokens 5 ∨ Token.InBrackets tokens 5) ∧
      ¬ (Token.InString tokens 10 ∨ Token.InBrackets tokens 10) := by
  intro source tokens
  obtain ⟨hscan, herrors⟩ : (Token.scan source).2 = [] ∧ (parse tokens).errors = [] := by
    decide +kernel
  have hprogram := Script.program_eq_some_iff.mpr ⟨hscan, herrors, rfl⟩
  obtain ⟨hcomplete, hlines⟩ := needsMore_program hprogram
  exact ⟨hprogram, hcomplete, (hlines 2 (by decide)).mp (by decide +kernel),
    (hlines 5 (by decide)).mp (by decide +kernel),
    mt (hlines 10 (by decide)).mpr (by decide +kernel)⟩

end Shell

end Scriptlet
