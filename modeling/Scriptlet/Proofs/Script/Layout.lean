import Scriptlet.Proofs.Script.Canonical
import Scriptlet.Proofs.Token.Runs

/-!
# Layout does not matter

The tokens of a source can be set apart by any other layout. A text that is made
of their bytes in this way (`Respaced`) has the same tokens at other places
(`scan_respaced`), and the parser, which is blind to places, makes the same of
them.

Each token is taken from its own bytes as it was taken from the source, since
layout behind it does not change what is read; one token is `all_respaced`'s
step, and the run of the scanner its induction.
-/

namespace Scriptlet

/-- `Respaced source ts spread`: `spread` consists of the bytes that the tokens
`ts` have in the source, each with layout behind it. Between two tokens there is
some; behind a string literal that is not closed there is none. -/
inductive Respaced (source : Text) : List Token → Text → Prop where
  | done : Respaced source [] []
  | token {t : Token} {ts : List Token} {gap spread : Text} :
      (∀ c ∈ gap, Byte.isLayout c = true) → (ts ≠ [] → gap ≠ []) →
      (Shell.isOpenString source t = true → gap = []) → Respaced source ts spread →
      Respaced source (t :: ts) (t.bytesIn source ++ (gap ++ spread))

namespace Lexeme

/-- The bytes of a token, alone or in front of layout, are read as the token. -/
theorem read_respaced {c : UInt8} {r gap rest : Text}
    (hgap : ∀ b ∈ gap, Byte.isLayout b = true) (hrest : gap = [] → rest = [])
    (hopen : (read (c :: r)).isOpen = true → gap = []) :
    read ((c :: r).take (read (c :: r)).width ++ (gap ++ rest)) = read (c :: r) := by
  have halone := read_alone c r
  cases gap with
  | nil => rw [hrest rfl, List.append_nil, List.append_nil, halone]
  | cons b gap =>
      have hclosed : (read (c :: r)).isOpen = false := by
        cases hlit : (read (c :: r)).isOpen with
        | true => cases hopen hlit
        | false => rfl
      obtain ⟨n, hcons⟩ := take_width c r
      rw [hcons] at halone ⊢
      rw [← halone] at hclosed
      have hbefore := read_before_layout hclosed (hgap b List.mem_cons_self) (gap ++ rest)
      rwa [halone] at hbefore

end Lexeme

namespace Scanner

variable {s : Scanner} {source : Text}

/-- A scanner in front of the bytes of a token takes the token, and stands in
front of what is behind them. -/
theorem all_of_token {u : Scanner} {c : UInt8} {r rest : Text} (hc : Byte.isLayout c = false)
    (hunread : u.unread = (c :: r).take (Lexeme.read (c :: r)).width ++ rest)
    (hread : Lexeme.read u.unread = Lexeme.read (c :: r)) :
    ∃ v : Scanner, v.unread = rest ∧ u.all.1 = u.place (Lexeme.read (c :: r)) :: v.all.1 := by
  obtain ⟨n, hcons⟩ := Lexeme.take_width c r
  have hhead : u.unread = c :: (r.take n ++ rest) := by rw [hunread, hcons, List.cons_append]
  have hskip : u.skipLayout = u := skipLayout_eq_self fun b w hb => by
    rw [hhead] at hb
    rwa [(List.cons.inj hb).1] at hc
  have hbehind : (u.behind (Lexeme.read (c :: r))).unread = rest := by
    show u.unread.drop _ = rest
    rw [hunread, List.drop_left' (List.length_take_of_le (Lexeme.read_takes c r).width_le)]
  refine ⟨u.behind (Lexeme.read (c :: r)), hbehind, ?_⟩
  rw [all_of_more (by rw [hskip, hhead]), hskip, ← hhead, hread]

theorem all_respaced (h : s.On source) {spread : Text}
    (htext : Respaced source s.all.1.dropLast spread)
    {u : Scanner} (hu : u.unread = spread) :
    u.all.1.map Token.erase = s.all.1.map Token.erase := by
  induction s using all_induction generalizing spread u with
  | hend s hnil =>
      rw [all_of_end hnil, List.dropLast_singleton] at htext
      cases htext
      rw [all_of_end hnil, all_of_end (by simp [skipLayout, hu])]
      rfl
  | hmore s c r hcons ih =>
      have hhere := on_skipLayout h
      have hbytes : (s.skipLayout.place (Lexeme.read (c :: r))).bytesIn source
          = (c :: r).take (Lexeme.read (c :: r)).width := by
        rw [place_bytesIn hhere (by rw [hcons]; exact (Lexeme.read_takes c r).width_le), hcons]
      rw [all_of_more hcons, List.dropLast_cons_of_ne_nil (all_ne_nil _)] at htext
      generalize hts : (s.skipLayout.behind (Lexeme.read (c :: r))).all.1.dropLast = ts at htext
      rcases htext with _ | @⟨_, _, gap, rest, hgap, hbetween, hopen, hrest⟩
      rw [isOpenString_place hhere hcons] at hopen
      rw [hbytes] at hu
      have hlast : gap = [] → rest = [] := by
        intro hgap
        cases hrest with
        | done => rfl
        | token => exact absurd hgap (hbetween (List.cons_ne_nil _ _))
      have hread := Lexeme.read_respaced hgap hlast hopen
      rw [← hu] at hread
      obtain ⟨v, hv, hall⟩ := all_of_token (skipLayout_cons hcons) hu hread
      have hbehind : v.all.1.map Token.erase
          = (s.skipLayout.behind (Lexeme.read (c :: r))).all.1.map Token.erase := by
        rw [all_behind_layout hgap hv]
        exact ih (on_behind hhere _) (hts ▸ hrest) rfl
      rw [hall, all_of_more hcons, List.map_cons, List.map_cons, hbehind]
      rfl

end Scanner

variable {source lead spread : Text}

theorem scan_respaced (hlead : ∀ c ∈ lead, Byte.isLayout c = true)
    (htext : Respaced source (Token.scan source).1.dropLast spread) :
    (Token.scan (lead ++ spread)).1.map Token.erase = (Token.scan source).1.map Token.erase := by
  show (Scanner.ofSource (lead ++ spread)).all.1.map Token.erase = _
  rw [Scanner.all_behind_layout hlead rfl]
  exact Scanner.all_respaced (Scanner.on_ofSource source) htext rfl

/-! ## What the parser makes of it -/

/-- What an error says was wanted, and what it remarks where nothing was. -/
def ParseError.wording (e : ParseError) : Text × Text := (e.expectation, e.remark)

theorem ParseError.wording_erase (e : ParseError) : (e.relabel Token.erase).wording = e.wording :=
  rfl

/-- Layout around the tokens of a source makes no difference to its tokens but
for their places, nor to the statements and errors that they parse to. -/
theorem script_respaced (hlead : ∀ c ∈ lead, Byte.isLayout c = true)
    (htext : Respaced source ((Token.scan source).1.filter (!·.isEof)) spread) :
    (Token.scan (lead ++ spread)).1.map Token.erase = (Token.scan source).1.map Token.erase ∧
    (parse (Token.scan (lead ++ spread)).1).program.length
      = (parse (Token.scan source).1).program.length ∧
    (parse (Token.scan (lead ++ spread)).1).program.canonical
      = (parse (Token.scan source).1).program.canonical ∧
    (parse (Token.scan (lead ++ spread)).1).errors.map ParseError.wording
      = (parse (Token.scan source).1).errors.map ParseError.wording := by
  have hends := Token.endsOnce_scan source
  rw [hends.filter_eq] at htext
  have htokens := scan_respaced hlead htext
  obtain ⟨hprogram, herrors⟩ :=
    parse_relabel Token.alike_erase (Token.endsOnce_scan _) hends htokens
  refine ⟨htokens, ?_, ?_, ?_⟩
  · have hlength := congrArg List.length hprogram
    simpa only [Program.relabel, Stmt.relabelAll_eq_map, List.length_map] using hlength
  · have hkeeps : ∀ t : Token, t.erase.lexeme = t.lexeme := fun _ => rfl
    rw [← Program.canonical_relabel hkeeps, hprogram, Program.canonical_relabel hkeeps]
  · have hwordings := congrArg (List.map ParseError.wording) herrors
    simpa only [List.map_map, Function.comp_def, ParseError.wording_erase] using hwordings

/-- A name and, right behind it, a string literal that is not closed. -/
theorem script_respaced_unclosed :
    Respaced (text "a\"b") ((Token.scan (text "a\"b")).1.filter (!·.isEof)) (text "a \n\"b") ∧
    (Token.scan (text "\ta \n\"b")).1.map Token.erase
      = (Token.scan (text "a\"b")).1.map Token.erase ∧
    (parse (Token.scan (text "\ta \n\"b")).1).errors.map ParseError.wording
      = (parse (Token.scan (text "a\"b")).1).errors.map ParseError.wording := by
  have htokens : (Token.scan (text "a\"b")).1.filter (!·.isEof) =
      [⟨.ident, text "a", ⟨0, 0, 0, 0⟩, ⟨0, 1, 1, 0⟩, 1, false, false⟩,
       ⟨.illegal, text "b", ⟨0, 1, 1, 0⟩, ⟨0, 3, 3, 0⟩, 2, false, true⟩] := by decide
  have hgap : ∀ c ∈ text " \n", Byte.isLayout c = true := List.all_eq_true.mp rfl
  have hlead : ∀ c ∈ text "\t", Byte.isLayout c = true := List.all_eq_true.mp rfl
  have hspread : Respaced (text "a\"b") ((Token.scan (text "a\"b")).1.filter (!·.isEof))
      (text "a \n\"b") := by
    rw [htokens]
    exact @Respaced.token _ _ _ (text " \n") _ hgap (by decide) (by decide)
      (@Respaced.token _ _ _ [] _ (List.forall_mem_nil _) (by decide) (by decide) .done)
  obtain ⟨hsame, -, -, hwordings⟩ := script_respaced hlead hspread
  exact ⟨hspread, hsame, hwordings⟩

end Scriptlet
