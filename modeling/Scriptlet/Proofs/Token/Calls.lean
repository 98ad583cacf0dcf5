import Scriptlet.Proofs.Token.Runs

/-!
# Tokens in any pattern of calls

A scanner is asked for one token or for all that are left, over and over and in
any order (`Call`, `Scanner.session`). Whatever is asked for, a session is a number
of single steps (`session_eq_steps`), so it is enough to say what one step does.

`Scanner.Records` ties the three records of a fault to each other: the marks on the
tokens given so far, the list of errors and their count. `Records.next` is the step
lemma and `Records.steps` follows a run. The tokens are those of a single draining
call, with its last one given again and again at the end (`steps_isPrefix`), and a
scanner that has given the end token records nothing more (`ended_steps`).
-/

namespace Scriptlet

/-- What a scanner is asked for: the next token, or all tokens up to the end. -/
inductive Call where
  | one
  | rest
deriving DecidableEq, Repr

namespace Scanner

variable {s : Scanner} {ts : List Token}

def answer (s : Scanner) : Call → List Token × Scanner
  | .one => ([s.next.1], s.next.2)
  | .rest => s.all

/-- All tokens that calls one after the other give, and the scanner behind them. -/
def session : Scanner → List Call → List Token × Scanner
  | s, [] => ([], s)
  | s, c :: cs =>
      ((s.answer c).1 ++ ((s.answer c).2.session cs).1, ((s.answer c).2.session cs).2)

/-! ## Sessions are steps -/

/-- So many single steps. -/
def steps : Nat → Scanner → List Token × Scanner
  | 0, s => ([], s)
  | n + 1, s => (s.next.1 :: (s.next.2.steps n).1, (s.next.2.steps n).2)

theorem steps_add (n m : Nat) (s : Scanner) :
    s.steps (n + m) = ((s.steps n).1 ++ ((s.steps n).2.steps m).1, ((s.steps n).2.steps m).2) := by
  induction n generalizing s with
  | zero => rw [Nat.zero_add]; rfl
  | succ n ih => rw [Nat.add_right_comm, steps, ih]; rfl

theorem next_of_end (hnil : s.skipLayout.unread = []) :
    s.next = (.endOfInput s.skipLayout.position, s.skipLayout) := by
  have hstay : s.skipLayout.behind (.plain .eof []) = s.skipLayout := by
    simp [behind, Lexeme.plain]
  rw [next_of_nil hnil, hstay]
  rfl

theorem next_of_more {c : UInt8} {r : Text} (hcons : s.skipLayout.unread = c :: r) :
    s.next = (s.skipLayout.place (Lexeme.read (c :: r)),
      s.skipLayout.behind (Lexeme.read (c :: r))) := by
  rw [next, hcons]

theorem all_eq_steps (s : Scanner) : ∃ n, s.all = s.steps n := by
  induction s using all_induction with
  | hend s hnil => exact ⟨1, by rw [all_of_end hnil, steps, steps, next_of_end hnil]⟩
  | hmore s c r hcons ih =>
      obtain ⟨n, hn⟩ := ih
      exact ⟨n + 1, by rw [all_of_more hcons, steps, next_of_more hcons, hn]⟩

theorem answer_eq_steps (s : Scanner) (c : Call) : ∃ n, s.answer c = s.steps n := by
  cases c with
  | one => exact ⟨1, rfl⟩
  | rest => exact all_eq_steps s

theorem session_eq_steps (s : Scanner) (cs : List Call) : ∃ n, s.session cs = s.steps n := by
  induction cs generalizing s with
  | nil => exact ⟨0, rfl⟩
  | cons c cs ih =>
      obtain ⟨n, hn⟩ := s.answer_eq_steps c
      obtain ⟨m, hm⟩ := ih (s.steps n).2
      exact ⟨n + m, by rw [session, hn, hm, steps_add]⟩

/-! ## What is recorded -/

/-- The faults among the tokens `ts`, the errors of the scanner and their count tell
the same, and all of it is behind the scanner. -/
structure Records (s : Scanner) (ts : List Token) : Prop where
  counted : s.Counted
  invalid_iff : ∀ t ∈ ts, t.isInvalid = true ↔ t.kind = .illegal
  eof_iff : ∀ t ∈ ts, t.isEof = true ↔ t.kind = .eof
  starts_eq : s.errors.map ScanError.start = (ts.filter Token.isInvalid).map Token.start
  increasing : s.errors.Pairwise fun e f => e.start.offset < f.start.offset
  behind : ∀ e ∈ s.errors, e.start.offset < s.position.offset

theorem records_ofSource (source : Text) : (ofSource source).Records [] :=
  ⟨rfl, List.forall_mem_nil _, List.forall_mem_nil _, rfl, .nil, List.forall_mem_nil _⟩

theorem Records.skipLayout (h : s.Records ts) : s.skipLayout.Records ts := by
  refine ⟨h.counted, h.invalid_iff, h.eof_iff, h.starts_eq, h.increasing, fun e he => ?_⟩
  have hlt := h.behind e he
  rw [skipLayout_offset]
  omega

/-- One more token that is marked as its kind tells, and an error at its place just
when it is invalid. -/
theorem Records.place (h : s.Records ts) {c : UInt8} {r : Text} (hunread : s.unread = c :: r) :
    (s.behind (Lexeme.read (c :: r))).Records (ts ++ [s.place (Lexeme.read (c :: r))]) := by
  have htakes := Lexeme.read_takes c r
  have hfault := Lexeme.read_fault c r
  generalize Lexeme.read (c :: r) = l at htakes hfault ⊢
  have hinvalid : (s.place l).isInvalid = true ↔ (s.place l).kind = .illegal := by
    show l.fault?.isSome = true ↔ l.kind = .illegal
    rw [hfault]
    by_cases hk : l.kind = .illegal <;> simp [hk]
  have hoffset : (s.behind l).position.offset = s.position.offset + l.width :=
    place_stop s (by rw [hunread]; exact htakes.width_le)
  have hwidth := htakes.width_pos
  refine ⟨h.counted.behind l, ?_, ?_, ?_, ?_, ?_⟩
  · exact List.forall_mem_append.mpr ⟨h.invalid_iff, List.forall_mem_singleton.mpr hinvalid⟩
  · exact List.forall_mem_append.mpr
      ⟨h.eof_iff, List.forall_mem_singleton.mpr decide_eq_true_iff⟩
  · show (s.errors ++ _).map _ = _
    rw [List.map_append, h.starts_eq, List.filter_append, List.map_append]
    cases hf : l.fault? <;> simp [Scanner.place, hf]
  · refine List.pairwise_append.mpr ⟨h.increasing, ?_, fun e he f hf => ?_⟩
    · cases l.fault? <;> simp
    · obtain ⟨fault, -, rfl⟩ := Option.map_eq_some_iff.mp (Option.mem_toList.mp hf)
      exact h.behind e he
  · rw [hoffset]
    refine List.forall_mem_append.mpr ⟨fun e he => ?_, fun e he => ?_⟩
    · have hlt := h.behind e he
      omega
    · obtain ⟨fault, -, rfl⟩ := Option.map_eq_some_iff.mp (Option.mem_toList.mp he)
      show s.position.offset < s.position.offset + l.width
      omega

theorem Records.endOfInput (h : s.Records ts) (p : Position) :
    s.Records (ts ++ [.endOfInput p]) := by
  refine ⟨h.counted, ?_, ?_, ?_, h.increasing, h.behind⟩
  · exact List.forall_mem_append.mpr
      ⟨h.invalid_iff, List.forall_mem_singleton.mpr (by simp [Token.endOfInput])⟩
  · exact List.forall_mem_append.mpr
      ⟨h.eof_iff, List.forall_mem_singleton.mpr ⟨fun _ => rfl, fun _ => rfl⟩⟩
  · rw [List.filter_append, h.starts_eq]
    simp [Token.endOfInput]

theorem Records.next (h : s.Records ts) : s.next.2.Records (ts ++ [s.next.1]) := by
  cases hunread : s.skipLayout.unread with
  | nil =>
      rw [next_of_end hunread]
      exact h.skipLayout.endOfInput _
  | cons c r =>
      rw [next_of_more hunread]
      exact h.skipLayout.place hunread

theorem Records.steps (h : s.Records ts) (n : Nat) :
    (s.steps n).2.Records (ts ++ (s.steps n).1) := by
  induction n generalizing s ts with
  | zero =>
      rw [Scanner.steps, List.append_nil]
      exact h
  | succ n ih =>
      have hnext := ih h.next
      rw [List.append_assoc] at hnext
      exact hnext

/-! ## The end of the input -/

theorem isEof_next_iff : s.next.1.isEof = true ↔ s.skipLayout.unread = [] := by
  cases hunread : s.skipLayout.unread with
  | nil =>
      rw [next_of_end hunread]
      exact ⟨fun _ => rfl, fun _ => rfl⟩
  | cons c r =>
      rw [next_of_more hunread]
      have hkind := (Lexeme.read_takes c r).kind_ne
      simp [Scanner.place, hkind]

/-- At the end a step gives the end token and changes nothing but the place. -/
theorem ended_next (hnil : s.skipLayout.unread = []) :
    s.next.2.skipLayout.unread = [] ∧ s.next.2.errors = s.errors ∧
      s.next.2.errorCount = s.errorCount := by
  rw [next_of_end hnil]
  have hagain : s.skipLayout.skipLayout = s.skipLayout :=
    skipLayout_eq_self fun _ _ hcons => skipLayout_cons hcons
  exact ⟨by rw [hagain, hnil], rfl, rfl⟩

theorem ended_steps (hnil : s.skipLayout.unread = []) (n : Nat) :
    (s.steps n).2.skipLayout.unread = [] ∧ (s.steps n).2.errors = s.errors ∧
      (s.steps n).2.errorCount = s.errorCount := by
  induction n generalizing s with
  | zero => exact ⟨hnil, rfl, rfl⟩
  | succ n ih =>
      obtain ⟨hnext, herrors, hcount⟩ := ended_next hnil
      obtain ⟨hlast, herrors', hcount'⟩ := ih hnext
      exact ⟨hlast, herrors'.trans herrors, hcount'.trans hcount⟩

/-- A scanner that has given the end token stands at the end. -/
theorem ended_of_isEof {n : Nat} (h : ∃ t ∈ (s.steps n).1, t.isEof = true) :
    (s.steps n).2.skipLayout.unread = [] := by
  induction n generalizing s with
  | zero =>
      obtain ⟨t, ht, -⟩ := h
      cases ht
  | succ n ih =>
      obtain ⟨t, ht, hend⟩ := h
      rcases List.mem_cons.mp ht with rfl | ht
      · exact (ended_steps (ended_next (isEof_next_iff.mp hend)).1 n).1
      · exact ih ⟨t, ht, hend⟩

theorem getLast?_all (s : Scanner) : s.all.1.getLast? = some (.endOfInput s.all.2.position) := by
  induction s using all_induction with
  | hend s hnil =>
      rw [all_of_end hnil]
      rfl
  | hmore s c r hcons ih =>
      rw [all_of_more hcons, List.getLast?_cons, ih]
      rfl

/-- Step by step a scanner gives what a draining call gives, and then the end token
again and again. -/
theorem steps_isPrefix (s : Scanner) (n : Nat) :
    (s.steps n).1 <+: s.all.1 ++ List.replicate n (.endOfInput s.all.2.position) := by
  induction n generalizing s with
  | zero => exact List.nil_prefix
  | succ n ih =>
      have hnext := ih s.next.2
      rw [steps]
      cases hunread : s.skipLayout.unread with
      | nil =>
          rw [next_of_end hunread] at hnext ⊢
          rw [all_skipLayout, all_of_end hunread] at hnext
          rw [all_of_end hunread]
          exact List.cons_prefix_cons.mpr ⟨rfl, hnext⟩
      | cons c r =>
          rw [next_of_more hunread] at hnext ⊢
          rw [all_of_more hunread, List.cons_append]
          refine List.cons_prefix_cons.mpr ⟨rfl, hnext.trans ?_⟩
          rw [List.prefix_append_right_inj, List.replicate_succ']
          exact List.prefix_append _ _

/-- In whatever order tokens are asked for one by one or all at once, at every moment
the tokens so far, the errors and their count agree, and none of it changes once the
end token was given. -/
theorem session_records {source : Text} {calls : List Call} {ts : List Token} {s : Scanner}
    (h : (ofSource source).session calls = (ts, s)) :
    (∃ last, (Token.scan source).1.getLast? = some last ∧ last.kind = .eof ∧
      ∃ n, ts <+: (Token.scan source).1 ++ List.replicate n last) ∧
    (s.errorCount = s.errors.length ∧ s.errors.length = (ts.filter Token.isInvalid).length) ∧
    (∀ t ∈ ts, (t.isInvalid = true ↔ t.kind = .illegal) ∧ (t.isEof = true ↔ t.kind = .eof)) ∧
    s.errors.map ScanError.start = (ts.filter Token.isInvalid).map Token.start ∧
    (s.errors.Pairwise fun e f => e.start.offset < f.start.offset) ∧
    ((∃ t ∈ ts, t.isEof = true) → ∀ more, (s.session more).2.errors = s.errors ∧
      (s.session more).2.errorCount = s.errorCount) := by
  obtain ⟨n, hn⟩ := (ofSource source).session_eq_steps calls
  obtain ⟨rfl, rfl⟩ := Prod.mk.inj (h.symm.trans hn)
  have hrecords := (records_ofSource source).steps n
  rw [List.nil_append] at hrecords
  have hlength := congrArg List.length hrecords.starts_eq
  rw [List.length_map, List.length_map] at hlength
  refine ⟨⟨_, getLast?_all _, rfl, n, steps_isPrefix _ n⟩, ⟨hrecords.counted, hlength⟩,
    fun t ht => ⟨hrecords.invalid_iff t ht, hrecords.eof_iff t ht⟩, hrecords.starts_eq,
    hrecords.increasing, fun hend more => ?_⟩
  obtain ⟨m, hm⟩ := (steps n (ofSource source)).2.session_eq_steps more
  rw [hm]
  exact (ended_steps (ended_of_isEof hend) m).2

/-- A stray character and a string literal that is not closed, with the end asked for
again and again. -/
theorem session_records_unclosed :
    let source := text "@ \"x"
    let asked := (ofSource source).session [.one, .rest, .one]
    asked.1.map Token.kind = [.illegal, .illegal, .eof, .eof] ∧
      asked.2.errorCount = 2 ∧ asked.2.errors.map (·.start.offset) = [0, 2] ∧
      (asked.2.session [.rest]).2.errors = asked.2.errors ∧
      asked.2.errors.map ScanError.start =
        (asked.1.filter Token.isInvalid).map Token.start := by
  intro source asked
  have hasked : (ofSource source).session [.one, .rest, .one] = (asked.1, asked.2) := rfl
  obtain ⟨-, -, -, hstarts, -, hended⟩ := session_records hasked
  have hend : ∃ t ∈ asked.1, t.isEof = true := by decide +kernel
  exact ⟨by decide +kernel, by decide +kernel, by decide +kernel, (hended hend [.rest]).1, hstarts⟩

end Scanner

end Scriptlet
