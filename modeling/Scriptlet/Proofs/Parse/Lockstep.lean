import Scriptlet.Proofs.Parse.Buffer
import Scriptlet.Proofs.Parse.Complete

/-!
# The buffer is never left

The parser over a buffer comes to the program and the errors of `parse`, and no
look of it is outside the buffer, behind the first end token or before the look in
front of it (`Buffered.statements_orderly`).

A state stands on a cursor (`State.On`) when the buffer from its index on is what
the cursor has ahead. While the flag is down, each procedure follows the parser of
the same name step by step (`Keeps`): it ends on the cursor the parser leaves, with
the errors of the parser told and a trail that only goes forward (`Moved`, `Told`).
While the flag is up it gives up (`GivesUp`): it comes back to its caller without
an error and with the same boundary ahead, which is where a parser that broke off
resumes. Both are closed under sequencing, so there is one lemma for each
procedure, and `inStep` is the induction on the steps.
-/

namespace Scriptlet

/-! ## Cursors -/

namespace Cursor

/-- The first end token ahead, and what stands behind it. -/
def ending (c : Cursor) : List Token := c.tokens.dropWhile (!·.isEof)

variable {c : Cursor}

theorem next_of_atEnd (h : c.atEnd = true) : c.next = c := if_pos h

theorem ending_of_atEnd (h : c.atEnd = true) : c.ending = c.tokens := by
  have hend : c.current.isEof = true := h
  rw [ending, tokens, List.dropWhile_cons_of_neg (by simp [hend])]

theorem ending_next (h : c.Closed) : c.next.ending = c.ending := by
  by_cases hend : c.atEnd = true
  · rw [next_of_atEnd hend]
  · have hmark : (!c.current.isEof) = true := by simpa [atEnd] using hend
    have htok := tokens_next h fun hk => hend (h.atEnd_iff.mpr hk)
    rw [ending, ending, htok]
    exact (List.dropWhile_cons_of_pos (p := fun t : Token => !t.isEof) hmark).symm

/-- No end token is split. -/
theorem isEof_of_signed (h : c.Closed) (hs : isSignedNumber c.current = true) :
    c.current.isEof = false := by
  refine eq_false_of_ne_true fun hend => ?_
  have hk : c.current.kind = .eof := h.atEnd_iff.mp hend
  simp [isSignedNumber, hk] at hs

theorem ending_splitSigned (h : c.Closed) : c.splitSigned.ending = c.ending := by
  by_cases hs : isSignedNumber c.current = true
  · have hmark := isEof_of_signed h hs
    have hunsigned : (unsignedOf c.current).isEof = false := hmark
    rw [ending, ending, splitSigned_of_signed hs, tokens, List.dropWhile_cons_of_pos rfl,
      List.dropWhile_cons_of_pos (by simp [hunsigned]),
      List.dropWhile_cons_of_pos (by simp [hmark])]
  · rw [splitSigned_of_not hs]

/-- The search for a boundary may start one token later, if it does not stop at
the first. -/
theorem boundary_next (h : c.Closed) (heof : c.kind ≠ .eof) (hsemi : c.kind ≠ .semicolon)
    (hbrace : c.kind ≠ .closeBrace) : c.next.boundary = c.boundary := by
  have hend : ¬ c.atEnd = true := fun he => heof (h.atEnd_iff.mp he)
  have hlater : c.later = c.next.tokens := (List.cons.inj (tokens_next h heof)).2
  rw [boundary, boundary, skipStatement.eq_def (c.later.length + 1)]
  simp only [hend, hsemi, hbrace, beq_iff_eq, Bool.or_eq_true, if_false]
  rw [hlater]
  rfl

end Cursor

namespace Buffered

open Cursor (boundary_next)

/-! ## Trails -/

/-- The looks on a trail from the index `lo` to the index `hi`: each is inside
the buffer of its time and not behind the first end token there, and none is
before the one in front of it. A turn ends behind its first token. -/
inductive Orderly : Nat → List Event → Nat → Prop where
  | done {lo hi : Nat} : lo ≤ hi → Orderly lo [] hi
  | look {lo hi index : Nat} {buffer : List Token} {es : List Event} : lo ≤ index →
      index < buffer.length → index ≤ buffer.findIdx (·.isEof) → Orderly index es hi →
      Orderly lo (.look buffer index :: es) hi
  | turn {lo hi first last : Nat} {es : List Event} : first < last → lo ≤ last →
      Orderly last es hi → Orderly lo (.turn first last :: es) hi

theorem Orderly.le {lo hi : Nat} {es : List Event} (h : Orderly lo es hi) : lo ≤ hi := by
  induction h with
  | done hle => exact hle
  | look hle _ _ _ ih => exact Nat.le_trans hle ih
  | turn _ hle _ ih => exact Nat.le_trans hle ih

theorem Orderly.earlier {lo lo' hi : Nat} {es : List Event} (h : Orderly lo es hi)
    (hle : lo' ≤ lo) : Orderly lo' es hi := by
  cases h with
  | done h => exact .done (Nat.le_trans hle h)
  | look h hlt hend hes => exact .look (Nat.le_trans hle h) hlt hend hes
  | turn hlt h hes => exact .turn hlt (Nat.le_trans hle h) hes

theorem Orderly.append {lo mid hi : Nat} {es fs : List Event} (h : Orderly lo es mid)
    (h' : Orderly mid fs hi) : Orderly lo (es ++ fs) hi := by
  induction h with
  | done hle => exact h'.earlier hle
  | look hle hlt hend _ ih => exact .look hle hlt hend (ih h')
  | turn hlt hle _ ih => exact .turn hlt hle (ih h')

/-! ## States and cursors -/

/-- The cursor stands where the state looks, with no end token behind it. -/
structure State.On (s : State) (c : Cursor) : Prop where
  closed : c.Closed
  split : ∃ passed, s.buffer = passed ++ c.tokens ∧ s.index = passed.length ∧
    ∀ t ∈ passed, t.isEof = false

/-- How a state gets on: the trail grows in order, the end token ahead stays the
same, and only moving on takes moves away. -/
structure Moved (s : State) (c : Cursor) (s' : State) (c' : Cursor) : Prop where
  on : s'.On c'
  ending : c'.ending = c.ending
  trail : ∃ new, s'.trail = s.trail ++ new ∧ Orderly s.index new s'.index
  stayed : s'.index = s.index → c'.moves = c.moves

/-- The errors that were reported, and how they were counted. -/
structure Told (s s' : State) (es : List ParseError) : Prop where
  errors : s'.errors = s.errors ++ es
  count : s'.count = s.count + es.length

/-- Getting on without an error, and without a change of the flag. -/
structure Quiet (s : State) (c : Cursor) (s' : State) (c' : Cursor) : Prop
    extends Moved s c s' c', Told s s' [] where
  flag : s'.panicking = s.panicking

variable {s s' s'' : State} {c c' c'' : Cursor} {es fs : List ParseError}

theorem Moved.index_le (h : Moved s c s' c') : s.index ≤ s'.index := by
  obtain ⟨new, -, horderly⟩ := h.trail
  exact horderly.le

theorem Moved.trans (h : Moved s c s' c') (h' : Moved s' c' s'' c'') : Moved s c s'' c'' := by
  refine ⟨h'.on, h'.ending.trans h.ending, ?_, fun hstay => ?_⟩
  · obtain ⟨new, htrail, horderly⟩ := h.trail
    obtain ⟨new', htrail', horderly'⟩ := h'.trail
    refine ⟨new ++ new', ?_, horderly.append horderly'⟩
    rw [htrail', htrail, List.append_assoc]
  · have hle := h.index_le
    have hle' := h'.index_le
    rw [h'.stayed (by omega), h.stayed (by omega)]

theorem Told.trans (h : Told s s' es) (h' : Told s' s'' fs) : Told s s'' (es ++ fs) := by
  refine ⟨?_, ?_⟩
  · rw [h'.errors, h.errors, List.append_assoc]
  · rw [h'.count, h.count, List.length_append, Nat.add_assoc]

theorem Quiet.trans (h : Quiet s c s' c') (h' : Quiet s' c' s'' c'') : Quiet s c s'' c'' :=
  ⟨h.toMoved.trans h'.toMoved, h.toTold.trans h'.toTold, h'.flag.trans h.flag⟩

/-- A change of anything but the buffer, the index and the trail. -/
theorem State.On.moved (h : s.On c) (hbuffer : s'.buffer = s.buffer) (hindex : s'.index = s.index)
    (htrail : s'.trail = s.trail) : Moved s c s' c := by
  refine ⟨⟨h.closed, ?_⟩, rfl, ⟨[], ?_, .done (Nat.le_of_eq hindex.symm)⟩, fun _ => rfl⟩
  · rw [hbuffer, hindex]
    exact h.split
  · rw [htrail, List.append_nil]

theorem State.On.quiet (h : s.On c) : Quiet s c s c :=
  ⟨h.moved rfl rfl rfl, ⟨(List.append_nil _).symm, rfl⟩, rfl⟩

/-! ### Looking -/

theorem State.On.index_lt (h : s.On c) : s.index < s.buffer.length := by
  obtain ⟨passed, hbuffer, hindex, -⟩ := h.split
  rw [hbuffer, hindex, List.length_append]
  exact Nat.lt_add_of_pos_right (Nat.succ_pos _)

/-- The first end token of the buffer is the first one ahead. -/
theorem State.On.findIdx (h : s.On c) : s.buffer.findIdx (·.isEof)
    = s.index + c.tokens.findIdx (·.isEof) := by
  obtain ⟨passed, hbuffer, hindex, hpassed⟩ := h.split
  have hnone : passed.findIdx (·.isEof) = passed.length := by
    rw [List.findIdx_eq_length]
    exact hpassed
  rw [hbuffer, hindex, List.findIdx_append, hnone, if_neg (Nat.lt_irrefl _), Nat.add_comm]

theorem look_eq (h : s.On c) :
    look s = .ends c.current { s with trail := s.trail ++ [.look s.buffer s.index] } := by
  obtain ⟨passed, hbuffer, hindex, -⟩ := h.split
  have hget : s.buffer[s.index]? = some c.current := by
    rw [hbuffer, hindex, List.getElem?_append_right (Nat.le_refl _), Nat.sub_self]
    rfl
  rw [look, hget]

theorem quiet_looked (h : s.On c) :
    Quiet s c { s with trail := s.trail ++ [.look s.buffer s.index] } c := by
  refine ⟨⟨⟨h.closed, h.split⟩, rfl, ⟨_, rfl, ?_⟩, fun _ => rfl⟩,
    ⟨(List.append_nil _).symm, rfl⟩, rfl⟩
  refine .look (Nat.le_refl _) h.index_lt ?_ (.done (Nat.le_refl _))
  rw [h.findIdx]
  exact Nat.le_add_right _ _

/-! ### Moving on -/

theorem quiet_moved (h : s.On c) (hend : ¬ c.atEnd = true) :
    Quiet s c { s with index := s.index + 1 } c.next := by
  have hk : c.kind ≠ .eof := fun hk => hend (h.closed.atEnd_iff.mpr hk)
  refine ⟨⟨⟨h.closed.next, ?_⟩, Cursor.ending_next h.closed, ⟨[], ?_, ?_⟩, ?_⟩,
    ⟨(List.append_nil _).symm, rfl⟩, rfl⟩
  · obtain ⟨passed, hbuffer, hindex, hpassed⟩ := h.split
    refine ⟨passed ++ [c.current], ?_, ?_, ?_⟩
    · show s.buffer = _
      rw [hbuffer, Cursor.tokens_next h.closed hk, List.append_assoc]
      rfl
    · show s.index + 1 = _
      rw [hindex, List.length_append]
      rfl
    · intro t ht
      rcases List.mem_append.mp ht with ht | ht
      · exact hpassed t ht
      · rw [List.mem_singleton.mp ht]
        exact eq_false_of_ne_true hend
  · exact (List.append_nil _).symm
  · exact .done (Nat.le_succ _)
  · intro hstay
    exact absurd hstay (Nat.succ_ne_self _)

/-! ### Splitting -/

theorem insertIdx_set (passed later : List Token) (t first second : Token) :
    ((passed ++ t :: later).set passed.length first).insertIdx (passed.length + 1) second
      = passed ++ first :: second :: later := by
  induction passed with
  | nil => rfl
  | cons u passed ih => exact congrArg (u :: ·) ih

theorem quiet_split (h : s.On c) (hs : Cursor.isSignedNumber c.current = true) :
    Quiet s c { s with
      buffer := (s.buffer.set s.index (Cursor.minusOf c.current)).insertIdx (s.index + 1)
        (Cursor.unsignedOf c.current) } c.splitSigned := by
  refine ⟨⟨⟨h.closed.splitSigned, ?_⟩, Cursor.ending_splitSigned h.closed, ⟨[], ?_, ?_⟩, ?_⟩,
    ⟨(List.append_nil _).symm, rfl⟩, rfl⟩
  · obtain ⟨passed, hbuffer, hindex, hpassed⟩ := h.split
    refine ⟨passed, ?_, hindex, hpassed⟩
    rw [Cursor.splitSigned_of_signed hs, ← insertIdx_set passed c.later c.current]
    show (s.buffer.set s.index _).insertIdx (s.index + 1) _ = _
    rw [hbuffer, hindex]
    rfl
  · exact (List.append_nil _).symm
  · exact .done (Nat.le_refl _)
  · exact fun _ => Cursor.moves_splitSigned c

/-! ## Runs and outcomes -/

variable {α β γ δ : Type}

/-- A run in step with an outcome. Where the outcome is broken the flag is up,
and the state may have got past tokens that are no boundary. `shown` says how the
value of the run shows that of the outcome, if there is one. -/
def Run.Follows (r : Run α) (s : State) (c : Cursor) (shown : Option β → α → Prop)
    (o : Outcome β) : Prop :=
  match o with
  | .done b rest errors => ∃ a s', r = .ends a s' ∧ shown (some b) a ∧ Moved s c s' rest ∧
      Told s s' errors ∧ s'.panicking = false
  | .broken rest errors => ∃ a s' rest', r = .ends a s' ∧ shown none a ∧ Moved s c s' rest' ∧
      Told s s' errors ∧ s'.panicking = true ∧ rest'.boundary = rest.boundary
  | .exhausted => r = .exhausted

/-- The value is the same, if there is one. -/
def Same (o : Option α) (a : α) : Prop := ∀ b, o = some b → a = b

theorem same_some (a : α) : Same (some a) a := fun _ h => Option.some.inj h

theorem same_none (a : α) : Same none a := fun _ h => by cases h

/-- There is a value just when there is one. -/
def Exactly (o a : Option α) : Prop := a = o

theorem exactly_self (o : Option α) : Exactly o o := rfl

/-- With the flag down, the task does what the parser does. -/
def Keeps (p : Task α) (shown : Option β → α → Prop) (q : Parser β) : Prop :=
  ∀ ⦃s : State⦄ ⦃c : Cursor⦄, s.On c → s.panicking = false → (p s).Follows s c shown (q c)

/-- With the flag up, the task does nothing that matters. -/
def GivesUp (p : Task α) (shown : Option β → α → Prop) : Prop :=
  ∀ ⦃s : State⦄ ⦃c : Cursor⦄, s.On c → s.panicking = true →
    (p s).Follows s c shown (.broken c [])

section Sequencing

variable {shown : Option β → α → Prop} {shown' : Option δ → γ → Prop} {r : Run α} {o : Outcome β}

theorem Run.Follows.earlier (h : Moved s c s' c') (ht : Told s s' es)
    (hr : r.Follows s' c' shown o) : r.Follows s c shown (o.after es) := by
  cases o with
  | done b rest errors =>
      obtain ⟨a, s₁, hrun, ha, hmoved, htold, hflag⟩ := hr
      exact ⟨a, s₁, hrun, ha, h.trans hmoved, ht.trans htold, hflag⟩
  | broken rest errors =>
      obtain ⟨a, s₁, rest', hrun, ha, hmoved, htold, hflag⟩ := hr
      exact ⟨a, s₁, rest', hrun, ha, h.trans hmoved, ht.trans htold, hflag⟩
  | exhausted => exact hr

theorem Run.Follows.of_quiet (h : Quiet s c s' c') (hr : r.Follows s' c' shown o) :
    r.Follows s c shown o := by
  have hfollows := hr.earlier h.toMoved h.toTold
  rwa [Outcome.after_nil] at hfollows

theorem follows_done {a : α} {b : β} (h : s.On c) (hcalm : s.panicking = false)
    (ha : shown (some b) a) : (Run.ends a s).Follows s c shown (.done b c []) :=
  ⟨a, s, rfl, ha, h.quiet.toMoved, h.quiet.toTold, hcalm⟩

theorem givesUp_pure {a : α} (ha : shown none a) : GivesUp (pure a) shown :=
  fun s c h hflag => ⟨a, s, c, rfl, ha, h.quiet.toMoved, h.quiet.toTold, hflag, rfl⟩

theorem bind_of_ends {p : Task α} {f : α → Task γ} {a : α} (h : p s = .ends a s') :
    (p >>= f) s = f a s' := by
  show Task.andThen p f s = _
  rw [Task.andThen, h]

theorem bind_of_exhausted {p : Task α} {f : α → Task γ} (h : p s = .exhausted) :
    (p >>= f) s = .exhausted := by
  show Task.andThen p f s = _
  rw [Task.andThen, h]

theorem bind_assoc (p : Task α) (f : α → Task β) (g : β → Task γ) (s : State) :
    ((p >>= f) >>= g) s = (p >>= fun a => f a >>= g) s := by
  show Task.andThen (Task.andThen p f) g s = Task.andThen p (fun a => Task.andThen (f a) g) s
  unfold Task.andThen
  cases p s <;> rfl

theorem bind_pure (p : Task α) (s : State) : (p >>= pure) s = p s := by
  show Task.andThen p Task.done s = p s
  unfold Task.andThen
  cases p s <;> rfl

theorem pure_bind (a : α) (f : α → Task γ) (s : State) : ((pure a : Task α) >>= f) s = f a s := rfl

/-- Where the first task broke off, the second gives up. -/
theorem follows_bind_broken {p : Task α} {f : α → Task γ} {rest : Cursor}
    (hp : (p s).Follows s c shown (.broken rest es))
    (hbroken : ∀ a, shown none a → GivesUp (f a) shown') :
    ((p >>= f) s).Follows s c shown' (.broken rest es) := by
  obtain ⟨a, s₁, rest', hrun, ha, hmoved, htold, hflag, hboundary⟩ := hp
  obtain ⟨a', s₂, rest'', hrun', ha', hmoved', htold', hflag', hboundary'⟩ :=
    hbroken a ha hmoved.on hflag
  rw [bind_of_ends hrun]
  refine ⟨a', s₂, rest'', hrun', ha', hmoved.trans hmoved', ?_, hflag',
    hboundary'.trans hboundary⟩
  have htold := htold.trans htold'
  rwa [List.append_nil] at htold

theorem follows_bind_done {p : Task α} {q : Parser β} {f : α → Task γ} {g : β → Parser δ}
    (hp : (p s).Follows s c shown (q c)) (hq : ∀ rest es, q c ≠ .broken rest es)
    (hdone : ∀ a b, shown (some b) a → Keeps (f a) shown' (g b)) :
    ((p >>= f) s).Follows s c shown' ((q >>= g) c) := by
  rw [Parser.bind_apply]
  generalize q c = o at hp hq
  cases o with
  | done b rest errors =>
      obtain ⟨a, s₁, hrun, ha, hmoved, htold, hcalm⟩ := hp
      rw [bind_of_ends hrun]
      exact (hdone a b ha hmoved.on hcalm).earlier hmoved htold
  | broken rest errors => exact absurd rfl (hq rest errors)
  | exhausted => exact bind_of_exhausted hp

theorem follows_bind {p : Task α} {q : Parser β} {f : α → Task γ} {g : β → Parser δ}
    (hp : (p s).Follows s c shown (q c))
    (hdone : ∀ a b, shown (some b) a → Keeps (f a) shown' (g b))
    (hbroken : ∀ a, shown none a → GivesUp (f a) shown') :
    ((p >>= f) s).Follows s c shown' ((q >>= g) c) := by
  cases hq : q c with
  | broken rest errors =>
      rw [Parser.bind_apply, hq]
      rw [hq] at hp
      exact follows_bind_broken hp hbroken
  | done b rest errors => exact follows_bind_done hp (by simp [hq]) hdone
  | exhausted => exact follows_bind_done hp (by simp [hq]) hdone

theorem GivesUp.bind {p : Task α} {f : α → Task γ} (hp : GivesUp p shown)
    (hf : ∀ a, shown none a → GivesUp (f a) shown') : GivesUp (p >>= f) shown' :=
  fun _ _ h hflag => follows_bind_broken (hp h hflag) hf

/-! ### Single steps -/

variable {o : Outcome δ}

theorem follows_look {f : Token → Task γ} (h : s.On c)
    (hf : ∀ s', Quiet s c s' c → (f c.current s').Follows s' c shown' o) :
    ((look >>= f) s).Follows s c shown' o := by
  rw [bind_of_ends (look_eq h)]
  exact (hf _ (quiet_looked h)).of_quiet (quiet_looked h)

theorem next_ends (h : s.On c) : ∃ s', next s = .ends () s' ∧ Quiet s c s' c.next := by
  have hlooked := quiet_looked h
  rw [next, bind_of_ends (look_eq h)]
  by_cases hend : c.current.isEof = true
  · rw [if_pos hend, Cursor.next_of_atEnd hend]
    exact ⟨_, rfl, hlooked⟩
  · rw [if_neg hend]
    exact ⟨_, rfl, hlooked.trans (quiet_moved hlooked.on hend)⟩

theorem consume_ends (h : s.On c) :
    ∃ s', consume s = .ends c.current s' ∧ Quiet s c s' c.next := by
  have hlooked := quiet_looked h
  obtain ⟨s₁, hnext, hmoved⟩ := next_ends hlooked.on
  rw [consume, bind_of_ends (look_eq h), bind_of_ends hnext]
  exact ⟨s₁, rfl, hlooked.trans hmoved⟩

theorem follows_next {f : Unit → Task γ} (h : s.On c)
    (hf : ∀ s', Quiet s c s' c.next → (f () s').Follows s' c.next shown' o) :
    ((next >>= f) s).Follows s c shown' o := by
  obtain ⟨s₁, hrun, hmoved⟩ := next_ends h
  rw [bind_of_ends hrun]
  exact (hf s₁ hmoved).of_quiet hmoved

theorem follows_consume {f : Token → Task γ} (h : s.On c)
    (hf : ∀ s', Quiet s c s' c.next → (f c.current s').Follows s' c.next shown' o) :
    ((consume >>= f) s).Follows s c shown' o := by
  obtain ⟨s₁, hrun, hmoved⟩ := consume_ends h
  rw [bind_of_ends hrun]
  exact (hf s₁ hmoved).of_quiet hmoved

theorem follows_splitSigned {f : Unit → Task γ} (h : s.On c)
    (hf : ∀ s', Quiet s c s' c.splitSigned → (f () s').Follows s' c.splitSigned shown' o) :
    ((splitSigned >>= f) s).Follows s c shown' o := by
  rw [splitSigned, bind_assoc]
  refine follows_look h fun s₁ h₁ => ?_
  by_cases hs : Cursor.isSignedNumber c.current = true
  · rw [if_pos hs]
    have hsplit := quiet_split h₁.on hs
    exact (hf _ (h₁.trans hsplit)).of_quiet hsplit
  · rw [Cursor.splitSigned_of_not hs] at hf
    rw [if_neg hs, pure_bind]
    exact hf s₁ h₁

theorem guarded_of_calm {blank : γ} {p : Task γ} (hcalm : s.panicking = false) :
    guarded blank p s = p s := by
  show (if s.panicking = true then (pure blank : Task γ) else p) s = _
  rw [hcalm]
  rfl

theorem guarded_of_panicking {blank : γ} {p : Task γ} (hflag : s.panicking = true) :
    guarded blank p s = .ends blank s := by
  show (if s.panicking = true then (pure blank : Task γ) else p) s = _
  rw [hflag]
  rfl

theorem givesUp_guarded {blank : γ} (hblank : shown' none blank) (p : Task γ) :
    GivesUp (guarded blank p) shown' := by
  intro s c h hflag
  rw [guarded_of_panicking hflag]
  exact givesUp_pure hblank h hflag

theorem follows_settle {blank value : γ} {b : δ} (h : s.On c) (hcalm : s.panicking = false)
    (hvalue : shown' (some b) value) :
    (settle blank value s).Follows s c shown' (.done b c []) := by
  rw [settle, guarded_of_calm hcalm]
  exact follows_done h hcalm hvalue

/-- A value that is given only while the flag is down. -/
theorem follows_settled {p : Task α} {q : Parser α} {blank : α}
    (hp : (p s).Follows s c Same (q c)) :
    ((p >>= settle blank) s).Follows s c Same (q c) := by
  have hpure : (q >>= pure) c = q c := by
    rw [Parser.bind_apply]
    cases q c <;> simp [Outcome.after]
  rw [← hpure]
  refine follows_bind hp (fun a b hab _ _ h hcalm => ?_) fun _ _ => givesUp_guarded (same_none _) _
  exact follows_settle h hcalm hab

/-- An error is reported about the current token. -/
theorem report_ends (complaint : Complaint) (h : s.On c) (hcalm : s.panicking = false) :
    ∃ s', report ⟨c.current.start, complaint, c.current⟩ s = .ends () s' ∧ Moved s c s' c ∧
      Told s s' [.blame c.current complaint] ∧ s'.panicking = true := by
  rw [report, hcalm]
  exact ⟨_, rfl, h.moved rfl rfl rfl, ⟨rfl, rfl⟩, rfl⟩

theorem complain_ends (complaint : Complaint) (h : s.On c) (hcalm : s.panicking = false) :
    ∃ s', complain complaint s = .ends () s' ∧ Moved s c s' c ∧
      Told s s' [.blame c.current complaint] ∧ s'.panicking = true := by
  have hlooked := quiet_looked h
  obtain ⟨s₁, hrun, hmoved, htold, hflag⟩ :=
    report_ends complaint hlooked.on (hlooked.flag.trans hcalm)
  rw [complain, bind_of_ends (look_eq h)]
  exact ⟨s₁, hrun, hlooked.toMoved.trans hmoved, hlooked.toTold.trans htold, hflag⟩

theorem follows_report {f : Unit → Task γ} {complaint : Complaint} (h : s.On c)
    (hcalm : s.panicking = false) (hf : GivesUp (f ()) shown') :
    ((report ⟨c.current.start, complaint, c.current⟩ >>= f) s).Follows s c shown'
      (.broken c [.blame c.current complaint]) := by
  obtain ⟨s₁, hrun, hmoved, htold, hflag⟩ := report_ends complaint h hcalm
  rw [bind_of_ends hrun]
  exact (hf hmoved.on hflag).earlier hmoved htold

theorem follows_complain {f : Unit → Task γ} {complaint : Complaint} (h : s.On c)
    (hcalm : s.panicking = false) (hf : GivesUp (f ()) shown') :
    ((complain complaint >>= f) s).Follows s c shown'
      (.broken c [.blame c.current complaint]) := by
  obtain ⟨s₁, hrun, hmoved, htold, hflag⟩ := complain_ends complaint h hcalm
  rw [bind_of_ends hrun]
  exact (hf hmoved.on hflag).earlier hmoved htold

end Sequencing

/-! ## The parts of the grammar -/

theorem givesUp_look : GivesUp look (Same (α := Token)) := by
  intro s c h hflag
  rw [← bind_pure look]
  refine follows_look h fun s₁ h₁ => ?_
  exact givesUp_pure (same_none _) h₁.on (h₁.flag.trans hflag)

theorem keeps_expect (k : Kind) : Keeps (expect k) Same (Parser.expect k) := by
  intro s c h hcalm
  have hrun : expect k s = (look >>= fun t => if t.kind = k then consume
      else complain (.expected k.described) >>= fun _ => look) s := by
    show (if s.panicking = true then look else _) s = _
    rw [hcalm]
    rfl
  rw [hrun]
  refine follows_look h fun s₁ h₁ => ?_
  have hcalm₁ := h₁.flag.trans hcalm
  by_cases hk : c.current.kind = k
  · rw [Parser.expect_of_kind hk, if_pos hk, ← bind_pure consume]
    refine follows_consume h₁.on fun s₂ h₂ => ?_
    exact follows_done h₂.on (h₂.flag.trans hcalm₁) (same_some _)
  · rw [Parser.expect_of_ne hk, if_neg hk]
    exact follows_complain h₁.on hcalm₁ givesUp_look

theorem givesUp_expect (k : Kind) : GivesUp (expect k) (Same (α := Token)) := by
  intro s c h hflag
  have hrun : expect k s = look s := by
    show (if s.panicking = true then look else _) s = _
    rw [hflag]
    rfl
  rw [hrun]
  exact givesUp_look h hflag

theorem keeps_integer : Keeps integer Same Parser.integer := by
  intro s c h hcalm
  refine follows_look h fun s₁ h₁ => ?_
  have hcalm₁ := h₁.flag.trans hcalm
  unfold Parser.integer
  cases Number.readInt64? (Parser.numeral c.current) with
  | some n =>
      refine follows_next h₁.on fun s₂ h₂ => ?_
      exact follows_done h₂.on (h₂.flag.trans hcalm₁) (same_some _)
  | none => exact follows_report h₁.on hcalm₁ (givesUp_pure (same_none _))

theorem keeps_float : Keeps float Same Parser.float := by
  intro s c h hcalm
  refine follows_look h fun s₁ h₁ => ?_
  have hcalm₁ := h₁.flag.trans hcalm
  unfold Parser.float
  cases Number.readFloat? (Parser.numeral c.current) with
  | some x =>
      refine follows_next h₁.on fun s₂ h₂ => ?_
      exact follows_done h₂.on (h₂.flag.trans hcalm₁) (same_some _)
  | none => exact follows_report h₁.on hcalm₁ (givesUp_pure (same_none _))

theorem keeps_endOfStatement : Keeps endOfStatement Same Parser.endOfStatement := by
  intro s c h hcalm
  rw [endOfStatement, guarded_of_calm hcalm, Parser.endOfStatement_apply]
  refine follows_look h fun s₁ h₁ => ?_
  have hcalm₁ := h₁.flag.trans hcalm
  unfold Cursor.kind
  split
  · rw [← bind_pure next]
    refine follows_next h₁.on fun s₂ h₂ => ?_
    exact follows_done h₂.on (h₂.flag.trans hcalm₁) (same_some _)
  · split
    · exact follows_done h₁.on hcalm₁ (same_some _)
    · rw [← bind_pure (complain _)]
      exact follows_complain h₁.on hcalm₁ (givesUp_pure (same_none _))

theorem givesUp_closing_tail (finish : Expr → Stmt) (e : Expr) :
    GivesUp (endOfStatement >>= fun _ => settle .missing (finish e)) (Same (α := Stmt)) :=
  (givesUp_guarded (same_none (α := Unit) _) _).bind fun _ _ => givesUp_guarded (same_none _) _

/-- An expression that ends a statement. -/
theorem keeps_closing {value : Task Expr} {parser : Parser Expr} (finish : Expr → Stmt)
    (hvalue : Keeps value Same parser) : Keeps (closing value finish) Same
      (parser >>= fun e => Parser.endOfStatement >>= fun _ => pure (finish e)) := by
  intro s c h hcalm
  refine follows_bind (hvalue h hcalm) (fun a b hab => ?_) fun a _ => givesUp_closing_tail finish a
  obtain rfl := hab b rfl
  intro s c h hcalm
  refine follows_bind (keeps_endOfStatement h hcalm) (fun _ _ _ => ?_) fun _ _ =>
    givesUp_guarded (same_none _) _
  exact fun _ _ h hcalm => follows_settle h hcalm (same_some _)

/-! ## Recovery -/

theorem skip_ends {m : Nat} : ∀ {s : State} {c : Cursor}, s.On c → c.tokens.length ≤ m →
    ∃ s', skip m s = .ends () s' ∧ Quiet s c s' (c.skipStatement m) := by
  induction m with
  | zero => exact fun _ hm => absurd hm (Nat.not_succ_le_zero _)
  | succ m ih =>
      intro s c h hm
      have hlooked := quiet_looked h
      rw [skip, bind_of_ends (look_eq h), Cursor.skipStatement, Cursor.atEnd, Cursor.kind]
      split
      · exact ⟨_, rfl, hlooked⟩
      · rename_i hstop
        obtain ⟨s₁, hrun, hmoved⟩ := consume_ends hlooked.on
        rw [bind_of_ends hrun]
        split
        · exact ⟨s₁, rfl, hlooked.trans hmoved⟩
        · have heof : c.kind ≠ .eof := fun hk => hstop (by
            simp [show c.current.isEof = true from h.closed.atEnd_iff.mpr hk])
          rw [Cursor.tokens_next h.closed heof] at hm
          obtain ⟨s₂, hrun', hmoved'⟩ := ih hmoved.on (Nat.le_of_succ_le_succ hm)
          exact ⟨s₂, hrun', (hlooked.trans hmoved).trans hmoved'⟩

/-- Recovery that resumes where `resume` says. -/
def Resumes (recover : Task Unit) (resume : Cursor → Cursor) : Prop :=
  ∀ ⦃s : State⦄ ⦃c : Cursor⦄, s.On c → ∃ s', recover s = .ends () s' ∧ Moved s c s' (resume c) ∧
    Told s s' [] ∧ s'.panicking = false

theorem resumes_sync : Resumes sync Cursor.boundary := by
  intro s c h
  have hremaining : s.buffer.length - s.index = c.later.length + 1 := by
    obtain ⟨passed, hbuffer, hindex, -⟩ := h.split
    rw [hbuffer, hindex, List.length_append, Nat.add_sub_cancel_left]
    rfl
  obtain ⟨s₁, hrun, hmoved⟩ := skip_ends h (Nat.le_refl (c.later.length + 1))
  have hrun' : sync s = .ends () { s₁ with panicking := false } := by
    show (skip (s.buffer.length - s.index) >>= fun _ => calm) s = _
    rw [hremaining, bind_of_ends hrun]
    rfl
  exact ⟨_, hrun', hmoved.toMoved.trans (hmoved.on.moved rfl rfl rfl),
    ⟨hmoved.errors, hmoved.count⟩, rfl⟩

theorem resumes_syncBrace : Resumes syncBrace fun c => Parser.dropBrace c.boundary := by
  intro s c h
  obtain ⟨s₁, hrun, hmoved, htold, hcalm⟩ := resumes_sync h
  have hlooked := quiet_looked hmoved.on
  rw [syncBrace, bind_of_ends hrun, bind_of_ends (look_eq hmoved.on)]
  by_cases hk : c.boundary.current.kind = .closeBrace
  · obtain ⟨s₂, hrun', hmoved'⟩ := next_ends hlooked.on
    have hquiet := hlooked.trans hmoved'
    have hdrop : Parser.dropBrace c.boundary = c.boundary.next := if_pos hk
    dsimp only
    rw [if_pos hk, hdrop]
    exact ⟨s₂, hrun', hmoved.trans hquiet.toMoved, htold.trans hquiet.toTold,
      hquiet.flag.trans hcalm⟩
  · have hdrop : Parser.dropBrace c.boundary = c.boundary := if_neg hk
    dsimp only
    rw [if_neg hk, hdrop]
    exact ⟨_, rfl, hmoved.trans hlooked.toMoved, htold.trans hlooked.toTold, hcalm⟩

/-! ## Turns -/

/-- What one turn comes to: a statement, or nothing where it broke off. -/
def attempted (resume : Cursor → Cursor) : Outcome Stmt → Outcome (List Stmt)
  | .done s rest errors => .done [s] rest errors
  | .broken rest errors => .done [] (resume rest) errors
  | .exhausted => .exhausted

theorem follows_attempt {p : Task Stmt} {recover : Task Unit} {resume : Cursor → Cursor}
    {o : Outcome Stmt} (hp : (p s).Follows s c Same o) (hrecover : Resumes recover resume)
    (hresume : ∀ {c d : Cursor}, c.boundary = d.boundary → resume c = resume d) :
    (attempt p recover s).Follows s c Same (attempted resume o) := by
  cases o with
  | done b rest errors =>
      obtain ⟨a, s₁, hrun, ha, hmoved, htold, hcalm⟩ := hp
      obtain rfl := ha b rfl
      refine ⟨[a], s₁, ?_, same_some _, hmoved, htold, hcalm⟩
      rw [attempt, bind_of_ends hrun]
      show (if s₁.panicking = true then _ else (pure [a] : Task (List Stmt))) s₁ = _
      rw [hcalm]
      rfl
  | broken rest errors =>
      obtain ⟨a, s₁, rest', hrun, -, hmoved, htold, hflag, hboundary⟩ := hp
      obtain ⟨s₂, hrun', hmoved', htold', hcalm⟩ := hrecover hmoved.on
      rw [hresume hboundary] at hmoved'
      refine ⟨[], s₂, ?_, same_some _, hmoved.trans hmoved', ?_, hcalm⟩
      · rw [attempt, bind_of_ends hrun]
        show (if s₁.panicking = true then recover >>= fun _ => pure [] else _) s₁ = _
        rw [hflag]
        exact bind_of_ends hrun'
      · have htold := htold.trans htold'
        rwa [List.append_nil] at htold
  | exhausted =>
      rw [attempt]
      exact bind_of_exhausted hp

/-- A turn that takes moves away ends behind its first token. -/
theorem follows_marked {p : Task α} {shown : Option β → α → Prop} {o : Outcome β}
    (hp : (p s).Follows s c shown o) (ho : ∀ rest es, o ≠ .broken rest es)
    (hprogress : ∀ b rest es, o = .done b rest es → rest.moves < c.moves) :
    (marked p s).Follows s c shown o := by
  have hrun : marked p s = (p >>= fun value => mark s.index >>= fun _ => pure value) s := rfl
  rw [hrun]
  cases o with
  | done b rest errors =>
      obtain ⟨a, s₁, hrun, ha, hmoved, htold, hcalm⟩ := hp
      have hlt : s.index < s₁.index := by
        refine Nat.lt_of_le_of_ne hmoved.index_le fun hstay => ?_
        have hmoves := hmoved.stayed hstay.symm
        exact absurd (hprogress b rest errors rfl) (by omega)
      rw [bind_of_ends hrun]
      have hmark : Moved s₁ rest { s₁ with trail := s₁.trail ++ [.turn s.index s₁.index] } rest :=
        ⟨⟨hmoved.on.closed, hmoved.on.split⟩, rfl,
          ⟨_, rfl, .turn hlt (Nat.le_refl _) (.done (Nat.le_refl _))⟩, fun _ => rfl⟩
      exact ⟨a, _, rfl, ha, hmoved.trans hmark, ⟨htold.errors, htold.count⟩, hcalm⟩
  | broken rest errors => exact absurd rfl (ho rest errors)
  | exhausted => exact bind_of_exhausted hp

/-- The statements behind a turn that came to `o`. -/
def behind (o : Outcome (List Stmt)) (more : Parser (List Stmt)) : Outcome (List Stmt) :=
  match o with
  | .done ss rest errors => ((more >>= fun later => pure (ss ++ later)) rest).after errors
  | .broken rest errors => .broken rest errors
  | .exhausted => .exhausted

theorem behind_nil (rest : Cursor) (errors : List ParseError) (more : Parser (List Stmt)) :
    behind (.done [] rest errors) more = (more rest).after errors := by
  have hpure : (more >>= fun later => pure ([] ++ later)) rest = more rest := by
    rw [Parser.bind_apply]
    cases more rest <;> simp [Outcome.after]
  rw [behind, hpure]

theorem behind_attempted (o : Outcome Stmt) (more : Parser (List Stmt))
    (resume : Cursor → Cursor) :
    behind (attempted resume o) more = Parser.followedBy o more resume := by
  cases o with
  | done s rest errors => rfl
  | broken rest errors => exact behind_nil _ _ _
  | exhausted => rfl

/-- A loop over statements: a turn, and the loop again. -/
theorem follows_loop {turn loop : Task (List Stmt)} {more : Parser (List Stmt)}
    {o : Outcome (List Stmt)} (hturn : (turn s).Follows s c Same o)
    (ho : ∀ rest es, o ≠ .broken rest es)
    (hprogress : ∀ ss rest es, o = .done ss rest es → rest.moves < c.moves)
    (hloop : Keeps loop Same more) :
    ((marked turn >>= fun ss => loop >>= fun later => pure (ss ++ later)) s).Follows s c Same
      (behind o more) := by
  have hbehind : behind o more = ((fun _ => o : Parser (List Stmt)) >>= fun ss =>
      more >>= fun later => pure (ss ++ later)) c := by
    cases o <;> rfl
  rw [hbehind]
  refine follows_bind_done (q := fun _ => o) (follows_marked hturn ho hprogress) ho
    fun ss b hss s c h hcalm => ?_
  obtain rfl := hss b rfl
  refine follows_bind (hloop h hcalm) (fun later b hlater s c h hcalm => ?_) fun _ _ =>
    givesUp_pure (same_none _)
  obtain rfl := hlater b rfl
  exact follows_done h hcalm (same_some _)

/-- Whatever the number of steps, a statement that is finished took moves. -/
theorem statement_settles {n : Nat} (hc : c.Closed) (hk : c.kind ≠ .eof)
    (hne : Parser.statement n c ≠ .exhausted) : (Parser.statement n c).Settles c c.moves := by
  have hmore := (Parser.settled (n + (8 * c.moves + 3))).statement c hc hk (by omega)
  rwa [Parser.stable_of_below (fun n => (Parser.moreSteps n).statement) (Nat.le_add_right n _) hne]
    at hmore

theorem attempted_moves {n : Nat} {resume : Cursor → Cursor} (hc : c.Closed) (hk : c.kind ≠ .eof)
    (hb : c.kind ≠ .closeBrace)
    (hresume : ∀ d : Cursor, d.Closed → (resume d).moves ≤ d.boundary.moves) :
    ∀ ss rest es, attempted resume (Parser.statement n c) = .done ss rest es →
      rest.moves < c.moves := by
  intro ss rest es hdone
  cases hs : Parser.statement n c with
  | done s mid errors =>
      have hsettles := statement_settles (n := n) hc hk (by simp [hs])
      rw [hs] at hdone hsettles
      obtain ⟨-, rfl, -⟩ := Outcome.done.inj hdone
      exact hsettles.2
  | broken mid errors =>
      have hsettles := statement_settles (n := n) hc hk (by simp [hs])
      rw [hs] at hdone hsettles
      obtain ⟨-, rfl, -⟩ := Outcome.done.inj hdone
      refine Nat.lt_of_le_of_lt (hresume mid hsettles.1) ?_
      rcases hsettles.2 with rfl | hlt
      · exact Cursor.moves_boundary_lt hc hk hb
      · exact Nat.lt_of_le_of_lt (Cursor.moves_boundary_le hsettles.1) hlt
  | exhausted =>
      rw [hs] at hdone
      cases hdone

theorem attempted_ne_broken (resume : Cursor → Cursor) (o : Outcome Stmt) :
    ∀ rest es, attempted resume o ≠ .broken rest es := by
  intro rest es
  cases o <;> exact fun h => by cases h

/-- What a turn of a loop comes to: a semicolon and a closing brace without its
block are passed. -/
def turned (resume : Cursor → Cursor) (c : Cursor) (o : Outcome Stmt) : Outcome (List Stmt) :=
  if c.kind = .semicolon then .done [] c.next []
  else if c.kind = .closeBrace then .done [] c.next [.blame c.current .unexpected]
  else attempted resume o

theorem turned_ne_broken (resume : Cursor → Cursor) (o : Outcome Stmt) :
    ∀ rest es, turned resume c o ≠ .broken rest es := by
  intro rest es
  unfold turned
  split
  · exact fun h => by cases h
  · split
    · exact fun h => by cases h
    · exact attempted_ne_broken resume o rest es

theorem turned_moves {n : Nat} {resume : Cursor → Cursor} (hc : c.Closed) (hk : c.kind ≠ .eof)
    (hresume : ∀ d : Cursor, d.Closed → (resume d).moves ≤ d.boundary.moves) :
    ∀ ss rest es, turned resume c (Parser.statement n c) = .done ss rest es →
      rest.moves < c.moves := by
  intro ss rest es hdone
  unfold turned at hdone
  split at hdone
  · obtain ⟨-, rfl, -⟩ := Outcome.done.inj hdone
    exact Cursor.moves_next hc hk
  · split at hdone
    · obtain ⟨-, rfl, -⟩ := Outcome.done.inj hdone
      exact Cursor.moves_next hc hk
    · rename_i hb
      exact attempted_moves hc hk hb hresume ss rest es hdone

theorem behind_turned (resume : Cursor → Cursor) (c : Cursor) (o : Outcome Stmt)
    (more : Parser (List Stmt)) :
    behind (turned resume c o) more =
      if c.kind = .semicolon then more c.next
      else if c.kind = .closeBrace then (more c.next).after [.blame c.current .unexpected]
      else Parser.followedBy o more resume := by
  unfold turned
  split
  · rw [behind_nil, Outcome.after_nil]
  · split
    · rw [behind_nil]
    · rw [behind_attempted]

theorem follows_blockTurn {p : Task Stmt} {q : Parser Stmt} (hp : Keeps p Same q) (h : s.On c)
    (hcalm : s.panicking = false) (hb : c.kind ≠ .closeBrace) :
    (blockTurn p s).Follows s c Same (turned Cursor.boundary c (q c)) := by
  refine follows_look h fun s₁ h₁ => ?_
  have hcalm₁ := h₁.flag.trans hcalm
  rw [turned, if_neg hb]
  unfold Cursor.kind
  split
  · refine follows_next h₁.on fun s₂ h₂ => ?_
    exact follows_done h₂.on (h₂.flag.trans hcalm₁) (same_some _)
  · exact follows_attempt (hp h₁.on hcalm₁) resumes_sync id

/-- The error about a closing brace is reported and left at once. -/
theorem follows_stray (h : s.On c) (hcalm : s.panicking = false) :
    ((complain .unexpected >>= fun _ => next >>= fun _ => calm >>= fun _ =>
      (pure [] : Task (List Stmt))) s).Follows s c Same
      (.done [] c.next [.blame c.current .unexpected]) := by
  obtain ⟨s₁, hrun, hmoved, htold, -⟩ := complain_ends .unexpected h hcalm
  obtain ⟨s₂, hrun', hquiet⟩ := next_ends hmoved.on
  have hcalmed : Moved s₂ c.next { s₂ with panicking := false } c.next :=
    hquiet.on.moved rfl rfl rfl
  have htold' := htold.trans hquiet.toTold
  refine ⟨[], { s₂ with panicking := false }, ?_, same_some _,
    (hmoved.trans hquiet.toMoved).trans hcalmed, ⟨htold'.errors, htold'.count⟩, rfl⟩
  rw [bind_of_ends hrun, bind_of_ends hrun']
  rfl

theorem follows_programTurn {p : Task Stmt} {q : Parser Stmt} (hp : Keeps p Same q) (h : s.On c)
    (hcalm : s.panicking = false) : (programTurn p s).Follows s c Same
      (turned (fun rest => Parser.dropBrace rest.boundary) c (q c)) := by
  refine follows_look h fun s₁ h₁ => ?_
  have hcalm₁ := h₁.flag.trans hcalm
  rw [turned]
  unfold Cursor.kind
  split
  · refine follows_next h₁.on fun s₂ h₂ => ?_
    exact follows_done h₂.on (h₂.flag.trans hcalm₁) (same_some _)
  · split
    · exact follows_stray h₁.on hcalm₁
    · refine follows_attempt (hp h₁.on hcalm₁) resumes_syncBrace fun hboundary => ?_
      rw [hboundary]

/-! ## The grammar -/

theorem givesUp_expression (n strength : Nat) :
    GivesUp (expression n strength) (Same (α := Expr)) := by
  cases n <;> rw [expression] <;> exact givesUp_guarded (same_none _) _

theorem givesUp_operators (n strength : Nat) (left : Expr) :
    GivesUp (operators n strength left) (Same (α := Expr)) := by
  cases n <;> rw [operators] <;> exact givesUp_guarded (same_none _) _

theorem givesUp_block (n : Nat) : GivesUp (block n) (Same (α := Block)) := by
  cases n <;> rw [block] <;> exact givesUp_guarded (same_none _) _

theorem givesUp_arguments (n : Nat) : GivesUp (arguments n) (Same (α := List Expr)) := by
  have hlook := givesUp_look
  cases n <;> rw [arguments] <;>
    exact hlook.bind fun _ _ => givesUp_guarded (same_none _) _

/-- The tasks keep step with the parsers within `n` steps. -/
structure InStep (n : Nat) : Prop where
  expression : ∀ strength, Keeps (expression n strength) Same (Parser.expression n strength)
  operators : ∀ strength left,
    Keeps (operators n strength left) Same (Parser.operators n strength left)
  arguments : Keeps (arguments n) Same (Parser.arguments n)
  operand : Keeps (operand n) Same (Parser.operand n)
  conditional : Keeps (conditional n) Exactly (Parser.conditional n)
  alternative : Keeps (alternative n) Exactly (Parser.alternative n)
  block : Keeps (block n) Same (Parser.block n)
  blockBody : Keeps (blockBody n) Same (Parser.blockBody n)
  statement : Keeps (statement n) Same (Parser.statement n)

theorem inStep_zero : InStep 0 where
  expression _ := fun _ _ _ hcalm => by
    rw [expression, guarded_of_calm hcalm, Parser.expression]; rfl
  operators _ _ := fun _ _ _ hcalm => by
    rw [operators, guarded_of_calm hcalm, Parser.operators]; rfl
  arguments := fun s c h hcalm => by
    rw [arguments, Parser.arguments]
    refine follows_look h fun s₁ h₁ => ?_
    rw [guarded_of_calm (h₁.flag.trans hcalm)]
    rfl
  operand := fun _ _ _ _ => by rw [operand, Parser.operand]; rfl
  conditional := fun _ _ _ _ => by rw [conditional, Parser.conditional]; rfl
  alternative := fun _ _ _ _ => by rw [alternative, Parser.alternative]; rfl
  block := fun _ _ _ hcalm => by rw [block, guarded_of_calm hcalm, Parser.block]; rfl
  blockBody := fun _ _ _ _ => by rw [blockBody, Parser.blockBody]; rfl
  statement := fun _ _ _ hcalm => by
    rw [statement, guarded_of_calm hcalm, Parser.statement]; rfl

section InStepSucc

variable {n : Nat} (ih : InStep n)
include ih

theorem keeps_expression_succ (strength : Nat) :
    Keeps (expression (n + 1) strength) Same (Parser.expression (n + 1) strength) := by
  intro s c h hcalm
  rw [expression, guarded_of_calm hcalm, Parser.expression_succ]
  refine follows_bind (ih.operand h hcalm) (fun left b hleft s c h hcalm => ?_) fun left _ =>
    (givesUp_operators n strength left).bind fun _ _ => givesUp_guarded (same_none _) _
  obtain rfl := hleft b rfl
  exact follows_settled (ih.operators strength left h hcalm)

/-- A whole expression, and the operators behind it. -/
theorem keeps_settle_operators (strength : Nat) (e : Expr) :
    Keeps (settle .missing e >>= operators n strength) Same (Parser.operators n strength e) := by
  intro s c h hcalm
  have hrun : settle .missing e s = .ends e s := guarded_of_calm hcalm
  rw [bind_of_ends hrun]
  exact ih.operators strength e h hcalm

omit ih in
theorem givesUp_settle_operators (strength : Nat) (e : Expr) :
    GivesUp (settle .missing e >>= operators n strength) (Same (α := Expr)) :=
  (givesUp_guarded (same_none (α := Expr) _) _).bind fun _ _ => givesUp_operators n strength _

theorem keeps_operators_succ (strength : Nat) (left : Expr) :
    Keeps (operators (n + 1) strength left) Same (Parser.operators (n + 1) strength left) := by
  intro s c h hcalm
  rw [operators, guarded_of_calm hcalm, Parser.operators_succ]
  refine follows_splitSigned h fun s₁ h₁ => follows_look h₁.on fun s₂ h₂ => ?_
  have hcalm₂ := (h₁.trans h₂).flag.trans hcalm
  unfold Cursor.kind
  split
  · exact follows_done h₂.on hcalm₂ (same_some _)
  · split
    · rw [call, bind_assoc]
      refine follows_consume h₂.on fun s₃ h₃ => ?_
      rw [bind_assoc]
      refine follows_bind (ih.arguments h₃.on (h₃.flag.trans hcalm₂))
        (fun args b hargs s c h hcalm => ?_) fun args _ =>
        ((givesUp_expect _).bind fun _ _ => givesUp_guarded (same_none (α := Expr) _) _).bind
          fun _ _ => givesUp_operators n strength _
      obtain rfl := hargs b rfl
      rw [bind_assoc]
      refine follows_bind (keeps_expect _ h hcalm) (fun closing b hclosing => ?_) fun _ _ =>
        givesUp_settle_operators _ _
      obtain rfl := hclosing b rfl
      exact keeps_settle_operators ih _ _
    · rw [binary, bind_assoc]
      refine follows_consume h₂.on fun s₃ h₃ => ?_
      rw [bind_assoc]
      refine follows_bind (ih.expression _ h₃.on (h₃.flag.trans hcalm₂))
        (fun right b hright => ?_) fun _ _ => givesUp_settle_operators _ _
      obtain rfl := hright b rfl
      exact keeps_settle_operators ih _ _

omit ih in
/-- What is left of the arguments when one breaks off: at most a comma is passed,
and that is no boundary. -/
theorem givesUp_arguments_tail (e : Expr) :
    GivesUp (look >>= fun t => if t.kind = .comma then
      next >>= fun _ => arguments n >>= fun es => pure (e :: es) else pure [e])
      (Same (α := List Expr)) := by
  intro s c h hflag
  refine follows_look h fun s₁ h₁ => ?_
  have hflag₁ := h₁.flag.trans hflag
  split
  · rename_i hk
    have hboundary := boundary_next h.closed (c := c) (by simp [Cursor.kind, hk])
      (by simp [Cursor.kind, hk]) (by simp [Cursor.kind, hk])
    refine follows_next h₁.on fun s₂ h₂ => ?_
    have hgive := ((givesUp_arguments n).bind (f := fun es => pure (e :: es)) fun es _ =>
      givesUp_pure (same_none (α := List Expr) _)) h₂.on (h₂.flag.trans hflag₁)
    obtain ⟨a, s₃, rest, hrun, ha, hmoved, htold, hflag₃, hrest⟩ := hgive
    exact ⟨a, s₃, rest, hrun, ha, hmoved, htold, hflag₃, hrest.trans hboundary⟩
  · exact givesUp_pure (same_none _) h₁.on hflag₁

theorem keeps_arguments_succ :
    Keeps (arguments (n + 1)) Same (Parser.arguments (n + 1)) := by
  intro s c h hcalm
  rw [arguments, Parser.arguments_succ]
  refine follows_look h fun s₁ h₁ => ?_
  have hcalm₁ := h₁.flag.trans hcalm
  rw [guarded_of_calm hcalm₁]
  unfold Cursor.kind Cursor.atEnd
  split
  · exact follows_done h₁.on hcalm₁ (same_some _)
  · refine follows_bind (ih.expression 0 h₁.on hcalm₁) (fun e b he s c h hcalm => ?_) fun e _ =>
      givesUp_arguments_tail e
    obtain rfl := he b rfl
    rw [Parser.kind_bind, Parser.ite_apply]
    refine follows_look h fun s₁ h₁ => ?_
    have hcalm₁ := h₁.flag.trans hcalm
    unfold Cursor.kind
    split
    · rw [Parser.advance_bind]
      refine follows_next h₁.on fun s₂ h₂ => ?_
      refine follows_bind (ih.arguments h₂.on (h₂.flag.trans hcalm₁))
        (fun es b hes s c h hcalm => ?_) fun _ _ => givesUp_pure (same_none _)
      obtain rfl := hes b rfl
      exact follows_done h hcalm (same_some _)
    · exact follows_done h₁.on hcalm₁ (same_some _)

theorem keeps_operand_succ : Keeps (operand (n + 1)) Same (Parser.operand (n + 1)) := by
  intro s c h hcalm
  rw [operand, Parser.operand_succ]
  refine follows_look h fun s₁ h₁ => ?_
  have hcalm₁ := h₁.flag.trans hcalm
  have leaf : ∀ {f : Token → Expr}, ((consume >>= fun t => pure (f t)) s₁).Follows s₁ c Same
      (.done (f c.current) c.next []) := by
    intro f
    refine follows_consume h₁.on fun s₂ h₂ => ?_
    exact follows_done h₂.on (h₂.flag.trans hcalm₁) (same_some _)
  have negation : ((unary (expression n unaryStrength)) s₁).Follows s₁ c Same
      ((Parser.expression n unaryStrength >>= fun right =>
        pure (.unary c.current right)) c.next) := by
    refine follows_consume h₁.on fun s₂ h₂ => ?_
    refine follows_bind (ih.expression _ h₂.on (h₂.flag.trans hcalm₁))
      (fun right b hright s c h hcalm => ?_) fun _ _ => givesUp_guarded (same_none _) _
    obtain rfl := hright b rfl
    exact follows_settle h hcalm (same_some _)
  unfold Cursor.kind
  cases c.current.kind
  case ident | string | true_ | false_ => exact leaf
  case integer => exact keeps_integer h₁.on hcalm₁
  case float => exact keeps_float h₁.on hcalm₁
  case openParen =>
      refine follows_next h₁.on fun s₂ h₂ => ?_
      refine follows_bind (ih.expression 0 h₂.on (h₂.flag.trans hcalm₁))
        (fun e b he s c h hcalm => ?_) fun _ _ =>
        (givesUp_expect _).bind fun _ _ => givesUp_guarded (same_none _) _
      obtain rfl := he b rfl
      refine follows_bind (keeps_expect _ h hcalm) (fun _ _ _ s c h hcalm => ?_) fun _ _ =>
        givesUp_guarded (same_none _) _
      exact follows_settle h hcalm (same_some _)
  case not | minus => exact negation
  case if_ =>
      refine follows_bind (ih.conditional h₁.on hcalm₁) (fun choice b hchoice s c h hcalm => ?_)
        fun _ _ => givesUp_pure (same_none _)
      obtain rfl := hchoice
      exact follows_done h hcalm (same_some _)
  all_goals exact follows_complain h₁.on hcalm₁ (givesUp_pure (same_none _))

theorem keeps_conditional_succ :
    Keeps (conditional (n + 1)) Exactly (Parser.conditional (n + 1)) := by
  have hend : ∀ {f : Block → Task (Option Conditional)},
      GivesUp (block n >>= fun body => guarded none (f body)) (Exactly (α := Conditional)) :=
    fun {f} => (givesUp_block n).bind fun _ _ => givesUp_guarded (exactly_self _) _
  have hclose : ∀ {f : Block → Task (Option Conditional)},
      GivesUp (expect .closeParen >>= fun _ => block n >>= fun body => guarded none (f body))
        (Exactly (α := Conditional)) :=
    fun {f} => (givesUp_expect _).bind fun _ _ => hend
  intro s c h hcalm
  rw [conditional, Parser.conditional_succ]
  refine follows_consume h fun s₁ h₁ => ?_
  refine follows_bind (keeps_expect _ h₁.on (h₁.flag.trans hcalm)) (fun _ _ _ s c h hcalm => ?_)
    fun _ _ => (givesUp_expression n 0).bind fun _ _ => hclose
  refine follows_bind (ih.expression 0 h hcalm) (fun condition b hcondition s c h hcalm => ?_)
    fun _ _ => hclose
  obtain rfl := hcondition b rfl
  refine follows_bind (keeps_expect _ h hcalm) (fun _ _ _ s c h hcalm => ?_) fun _ _ => hend
  refine follows_bind (ih.block h hcalm) (fun body b hbody s c h hcalm => ?_) fun _ _ =>
    givesUp_guarded (exactly_self _) _
  obtain rfl := hbody b rfl
  rw [guarded_of_calm hcalm]
  refine follows_bind (ih.alternative h hcalm) (fun otherwise b hotherwise s c h hcalm => ?_)
    fun otherwise hnone => ?_
  · obtain rfl := hotherwise
    exact follows_done h hcalm rfl
  · obtain rfl := hnone
    exact givesUp_pure (exactly_self _)

theorem keeps_alternative_succ :
    Keeps (alternative (n + 1)) Exactly (Parser.alternative (n + 1)) := by
  intro s c h hcalm
  rw [alternative, Parser.alternative_succ]
  refine follows_look h fun s₁ h₁ => ?_
  have hcalm₁ := h₁.flag.trans hcalm
  unfold Cursor.kind
  split
  · refine follows_next h₁.on fun s₂ h₂ => follows_look h₂.on fun s₃ h₃ => ?_
    have hcalm₃ := (h₂.trans h₃).flag.trans hcalm₁
    split
    · refine follows_bind (ih.conditional h₃.on hcalm₃) (fun choice b hchoice s c h hcalm => ?_)
        fun choice hnone => ?_
      · obtain rfl := hchoice
        exact follows_done h hcalm rfl
      · obtain rfl := hnone
        exact givesUp_pure (exactly_self _)
    · refine follows_bind (ih.block h₃.on hcalm₃) (fun body b hbody s c h hcalm => ?_) fun _ _ =>
        givesUp_guarded (exactly_self _) _
      obtain rfl := hbody b rfl
      exact follows_settle h hcalm rfl
  · exact follows_done h₁.on hcalm₁ rfl

theorem keeps_block_succ : Keeps (block (n + 1)) Same (Parser.block (n + 1)) := by
  intro s c h hcalm
  rw [block, guarded_of_calm hcalm, Parser.block_succ]
  refine follows_bind (keeps_expect _ h hcalm) (fun opening b hopening s c h hcalm => ?_) fun _ _ =>
    givesUp_guarded (same_none _) _
  obtain rfl := hopening b rfl
  rw [guarded_of_calm hcalm]
  refine follows_bind (ih.blockBody h hcalm) (fun body b hbody s c h hcalm => ?_) fun _ _ =>
    (givesUp_expect _).bind fun _ _ => givesUp_guarded (same_none _) _
  obtain rfl := hbody b rfl
  refine follows_bind (keeps_expect _ h hcalm) (fun closing b hclosing s c h hcalm => ?_) fun _ _ =>
    givesUp_guarded (same_none _) _
  obtain rfl := hclosing b rfl
  exact follows_settle h hcalm (same_some _)

theorem keeps_statement_succ : Keeps (statement (n + 1)) Same (Parser.statement (n + 1)) := by
  have hgive : ∀ finish : Expr → Stmt, GivesUp (closing (expression n 0) finish)
      (Same (α := Stmt)) := fun finish =>
    (givesUp_expression n 0).bind fun e _ => givesUp_closing_tail finish e
  intro s c h hcalm
  rw [statement, guarded_of_calm hcalm, Parser.statement_succ]
  refine follows_look h fun s₁ h₁ => ?_
  have hcalm₁ := h₁.flag.trans hcalm
  unfold Cursor.kind
  cases c.current.kind
  case let_ =>
      refine follows_consume h₁.on fun s₂ h₂ => ?_
      refine follows_bind (keeps_expect _ h₂.on (h₂.flag.trans hcalm₁))
        (fun name b hname s c h hcalm => ?_) fun _ _ => (givesUp_expect _).bind fun _ _ => hgive _
      obtain rfl := hname b rfl
      refine follows_bind (keeps_expect _ h hcalm) (fun _ _ _ => ?_) fun _ _ => hgive _
      exact keeps_closing _ (ih.expression 0)
  case return_ =>
      refine follows_consume h₁.on fun s₂ h₂ => follows_look h₂.on fun s₃ h₃ => ?_
      have hcalm₃ := (h₂.trans h₃).flag.trans hcalm₁
      dsimp only
      split
      · refine follows_bind (keeps_endOfStatement h₃.on hcalm₃) (fun _ _ _ s c h hcalm => ?_)
          fun _ _ => givesUp_pure (same_none _)
        exact follows_done h hcalm (same_some _)
      · exact keeps_closing _ (ih.expression 0) h₃.on hcalm₃
  case openBrace =>
      refine follows_bind (ih.block h₁.on hcalm₁) (fun body b hbody s c h hcalm => ?_) fun _ _ =>
        givesUp_pure (same_none _)
      obtain rfl := hbody b rfl
      exact follows_done h hcalm (same_some _)
  case if_ =>
      refine follows_bind (ih.conditional h₁.on hcalm₁) (fun choice b hchoice s c h hcalm => ?_)
        fun choice hnone => ?_
      · obtain rfl := hchoice
        refine follows_look h fun s₁ h₁ => ?_
        have hcalm₁ := h₁.flag.trans hcalm
        rw [Parser.bind_of_done (Parser.optionalSemicolon_apply c)]
        unfold Cursor.kind
        split
        · refine follows_next h₁.on fun s₂ h₂ => ?_
          exact follows_done h₂.on (h₂.flag.trans hcalm₁) (same_some _)
        · exact follows_done h₁.on hcalm₁ (same_some _)
      · obtain rfl := hnone
        exact givesUp_pure (same_none _)
  all_goals exact keeps_closing _ (ih.expression 0) h₁.on hcalm₁

theorem keeps_blockBody_succ : Keeps (blockBody (n + 1)) Same (Parser.blockBody (n + 1)) := by
  intro s c h hcalm
  rw [blockBody, Parser.blockBody_succ]
  refine follows_look h fun s₁ h₁ => ?_
  have hcalm₁ := h₁.flag.trans hcalm
  unfold Cursor.kind Cursor.atEnd
  split
  · exact follows_done h₁.on hcalm₁ (same_some _)
  · rename_i hstop
    obtain ⟨hend, hbrace⟩ : ¬ c.atEnd = true ∧ c.kind ≠ .closeBrace := by
      simpa [Cursor.atEnd, Cursor.kind] using hstop
    have heof : c.kind ≠ .eof := fun hk => hend (h.closed.atEnd_iff.mpr hk)
    have hloop := follows_loop (follows_blockTurn ih.statement h₁.on hcalm₁ hbrace)
      (turned_ne_broken _ _) (turned_moves h.closed heof fun _ _ => Nat.le_refl _) ih.blockBody
    rw [behind_turned, if_neg hbrace] at hloop
    exact hloop

end InStepSucc

theorem inStep : ∀ n, InStep n
  | 0 => inStep_zero
  | n + 1 => by
      have ih := inStep n
      exact {
        expression := keeps_expression_succ ih
        operators := keeps_operators_succ ih
        arguments := keeps_arguments_succ ih
        operand := keeps_operand_succ ih
        conditional := keeps_conditional_succ ih
        alternative := keeps_alternative_succ ih
        block := keeps_block_succ ih
        blockBody := keeps_blockBody_succ ih
        statement := keeps_statement_succ ih }

theorem keeps_statements : ∀ n, Keeps (statements n) Same (Parser.statements n)
  | 0 => fun _ _ _ _ => rfl
  | n + 1 => by
      have ih := keeps_statements n
      intro s c h hcalm
      rw [statements, Parser.statements_succ]
      refine follows_look h fun s₁ h₁ => ?_
      have hcalm₁ := h₁.flag.trans hcalm
      unfold Cursor.atEnd
      split
      · exact follows_done h₁.on hcalm₁ (same_some _)
      · rename_i hend
        have heof : c.kind ≠ .eof := fun hk => hend (h.closed.atEnd_iff.mpr hk)
        have hloop := follows_loop (follows_programTurn (inStep n).statement h₁.on hcalm₁)
          (turned_ne_broken _ _) (turned_moves h.closed heof fun d hd =>
            (Parser.dropBrace_spec hd.boundary).2) ih
        rw [behind_turned] at hloop
        exact hloop

/-! ## Whole runs -/

theorem on_load (hc : c.Closed) : (State.load c).On c :=
  ⟨hc, [], rfl, rfl, List.forall_mem_nil _⟩

/-- The buffer comes to the program and the errors of `parse`, on an end token
and with the flag down. -/
theorem statements_ends {tokens : List Token} (hclosed : (Cursor.ofTokens tokens).Closed) {n : Nat}
    (hn : (Cursor.ofTokens tokens).budget ≤ n) :
    ∃ s rest, statements n (.load (Cursor.ofTokens tokens)) = .ends (parse tokens).program s ∧
      Told (.load (Cursor.ofTokens tokens)) s (parse tokens).errors ∧
      Moved (.load (Cursor.ofTokens tokens)) (Cursor.ofTokens tokens) s rest ∧
      rest.atEnd = true ∧ s.panicking = false := by
  obtain ⟨p, rest, errors, hrun, hend⟩ := Parser.statements_budget hclosed
  have hparse : parse tokens = ⟨p, errors⟩ := by
    simp only [parse, parseWithin, hrun, Option.getD_some]
  have hmore : Parser.statements n (Cursor.ofTokens tokens) = .done p rest errors := by
    rw [Parser.stable_of_below Parser.below_statements_succ hn (by simp [hrun]), hrun]
  have hfollows := keeps_statements n (on_load hclosed) rfl
  rw [hmore] at hfollows
  obtain ⟨a, s, hends, hvalue, hmoved, htold, hcalm⟩ := hfollows
  obtain rfl := hvalue p rfl
  rw [hparse]
  exact ⟨s, rest, hends, htold, hmoved, hend, hcalm⟩

/-- A buffer whose end marks and end kinds agree is parsed to the same program
and the same errors as ever, within the budget and any larger number of steps. No
look on the way is outside the buffer, behind its first end token or before the
look in front of it, every turn of the two loops ends behind its first token, and
the run comes to rest on the first end token with the flag down. -/
theorem statements_orderly {tokens : List Token}
    (h : ∀ t ∈ tokens, t.isEof = true ↔ t.kind = .eof) {n : Nat}
    (hn : (Cursor.ofTokens tokens).budget ≤ n) :
    ∃ s, statements n (.load (Cursor.ofTokens tokens)) = .ends (parse tokens).program s ∧
      s.errors = (parse tokens).errors ∧ s.panicking = false ∧ Orderly 0 s.trail s.index ∧
      s.index = s.buffer.findIdx (·.isEof) ∧
      s.buffer.drop s.index = (Cursor.ofTokens tokens).tokens.dropWhile (!·.isEof) := by
  obtain ⟨s, rest, hends, htold, hmoved, hend, hcalm⟩ :=
    statements_ends (Cursor.ofTokens_closed h) hn
  obtain ⟨new, htrail, horderly⟩ := hmoved.trail
  obtain ⟨passed, hbuffer, hindex, -⟩ := hmoved.on.split
  refine ⟨s, hends, htold.errors, hcalm, ?_, ?_, ?_⟩
  · rw [htrail]
    exact horderly
  · have hfirst : rest.tokens.findIdx (·.isEof) = 0 := by
      have hmark : rest.current.isEof = true := hend
      rw [Cursor.tokens, List.findIdx_cons, hmark]
      rfl
    rw [hmoved.on.findIdx, hfirst, Nat.add_zero]
  · rw [hbuffer, hindex, List.drop_left, ← Cursor.ending_of_atEnd hend, hmoved.ending]
    rfl

/-- A number with two minus signs behind a name, and a stray closing brace. -/
theorem statements_orderly_minuses :
    let tokens : List Token :=
      [⟨.ident, text "x", ⟨0, 0, 0, 0⟩, ⟨0, 1, 1, 0⟩, 1, false, false⟩,
       ⟨.integer, text "--5", ⟨0, 1, 1, 0⟩, ⟨0, 4, 4, 0⟩, 3, false, false⟩,
       ⟨.closeBrace, text "\x7d", ⟨0, 4, 4, 0⟩, ⟨0, 5, 5, 0⟩, 1, false, false⟩]
    (∀ t ∈ tokens, t.isEof = true ↔ t.kind = .eof) ∧
      ∃ s, statements (Cursor.ofTokens tokens).budget (.load (Cursor.ofTokens tokens))
          = .ends (parse tokens).program s ∧
        s.errors.map (·.start.offset) = [4] ∧ s.panicking = false ∧ Orderly 0 s.trail s.index ∧
        s.index = s.buffer.findIdx (·.isEof) ∧
        s.buffer.drop s.index = [.endOfInput ⟨0, 5, 5, 0⟩] := by
  intro tokens
  have hmarked : ∀ t ∈ tokens, t.isEof = true ↔ t.kind = .eof := by simp [tokens]
  obtain ⟨s, hends, herrors, hcalm, horderly, hindex, hrest⟩ :=
    statements_orderly hmarked (Nat.le_refl _)
  refine ⟨hmarked, s, hends, ?_, hcalm, horderly, hindex, hrest.trans (by decide +kernel)⟩
  rw [herrors]
  decide +kernel

end Buffered

end Scriptlet
