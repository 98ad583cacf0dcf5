import Scriptlet.Proofs.Token.Tiling
import Scriptlet.Tree.Span

/-!
# Trees in their place

`Node.Lies` says of one node that it is where its source has it: its span is
not empty and has true positions, the nodes directly below it stand inside it in
source order, and an operator stands between its operands, spelt by its bytes.

`Node.Stands source lo n hi` says of a whole tree that it lies between two
offsets, down to its leaves, and `Row` says so of a list of trees, one behind the
other. A node stands where the row of its children does (`stands_of_row`). There
is one lemma for each kind of node that says which tokens and trees, in which
order, make it stand.
-/

namespace Scriptlet

/-! ## Nodes below a node -/

def Alternative.children : Alternative → List Node
  | .absent => []
  | .block body => [.stmt (.block body)]
  | .chained next => [.expr (.conditional next)]

namespace Node

/-- The nodes directly below a node, in source order. The value of a bare
`return` is no node. -/
def children : Node → List Node
  | .expr (.unary _ right) => [.expr right]
  | .expr (.binary left _ right) => [.expr left, .expr right]
  | .expr (.conditional (.mk _ condition body otherwise)) =>
      .expr condition :: .stmt (.block body) :: otherwise.children
  | .expr (.call callee _ args _) => .expr callee :: args.map .expr
  | .stmt (.binding _ nameToken word value) => [.expr (.name nameToken word), .expr value]
  | .stmt (.returning _ .missing) => []
  | .stmt (.returning _ value) => [.expr value]
  | .stmt (.block (.braces _ body _ _)) => body.map .stmt
  | .stmt (.expr value) => [.expr value]
  | _ => []

theorem children_returning {keyword : Token} {value : Expr} (h : value ≠ .missing) :
    children (.stmt (.returning keyword value)) = [.expr value] := by
  cases value <;> first | contradiction | rfl

/-- A node holds itself and what its children hold. -/
inductive Holds : Node → Node → Prop where
  | self (n : Node) : Holds n n
  | child {n m k : Node} : m ∈ n.children → Holds m k → Holds n k

/-! ## One node -/

/-- The span of `m` is inside that of `n`. -/
def Inside (m n : Node) : Prop :=
  ∃ inner outer, m.span? = some inner ∧ n.span? = some outer ∧
    outer.start.offset ≤ inner.start.offset ∧ inner.stop.offset ≤ outer.stop.offset

/-- The span of `n` ends before that of `m` starts. -/
def Before (n m : Node) : Prop :=
  ∃ first second, n.span? = some first ∧ m.span? = some second ∧
    first.stop.offset ≤ second.start.offset

end Node

/-- An operator stands between its operands, and its bytes are its lexeme. -/
def Token.Joins (op : Token) (left right : Expr) (source : Text) : Prop :=
  op.start.TrueIn source ∧ op.stop.TrueIn source ∧ op.bytesIn source = op.lexeme ∧
    ∃ first second, left.span? = some first ∧ right.span? = some second ∧
      first.stop.offset ≤ op.start.offset ∧ op.stop.offset ≤ second.start.offset

namespace Node

structure Lies (n : Node) (source : Text) : Prop where
  span_true : ∃ span, n.span? = some span ∧ span.start.TrueIn source ∧ span.stop.TrueIn source ∧
    span.start.offset < span.stop.offset
  inside : ∀ m ∈ n.children, m.Inside n
  ordered : n.children.Pairwise Before
  joins : ∀ left op right, n = .expr (.binary left op right) → op.Joins left right source

/-! ## Trees and rows of trees -/

/-- The tree of `n` stands between the offsets `lo` and `hi`. -/
def Stands (source : Text) (lo : Nat) (n : Node) (hi : Nat) : Prop :=
  (∀ m, n.Holds m → m.Lies source) ∧
    ∃ span, n.span? = some span ∧ lo ≤ span.start.offset ∧ span.stop.offset ≤ hi

/-- Trees that stand one behind the other between `lo` and `hi`. -/
def Row (source : Text) : Nat → List Node → Nat → Prop
  | lo, [], hi => lo ≤ hi
  | lo, n :: ns, hi => ∃ mid, n.Stands source lo mid ∧ Row source mid ns hi

variable {source : Text} {n m : Node} {ns ms : List Node} {lo mid hi lo' hi' : Nat} {span : Span}

theorem Stands.mono (h : n.Stands source lo hi) (hlo : lo' ≤ lo) (hhi : hi ≤ hi') :
    n.Stands source lo' hi' := by
  obtain ⟨hlies, span, hspan, hstart, hstop⟩ := h
  exact ⟨hlies, span, hspan, Nat.le_trans hlo hstart, Nat.le_trans hstop hhi⟩

/-- A tree stands between the ends of its span. -/
theorem Stands.tight (h : n.Stands source lo hi) :
    ∃ span, n.span? = some span ∧ lo ≤ span.start.offset ∧ span.stop.offset ≤ hi ∧
      span.start.TrueIn source ∧ span.stop.TrueIn source ∧
      span.start.offset < span.stop.offset ∧
      n.Stands source span.start.offset span.stop.offset := by
  obtain ⟨hlies, span, hspan, hstart, hstop⟩ := h
  obtain ⟨span', hspan', hfirst, hlast, hlt⟩ := (hlies n (.self n)).span_true
  obtain rfl := Option.some.inj (hspan.symm.trans hspan')
  exact ⟨span, hspan, hstart, hstop, hfirst, hlast, hlt, hlies, span, hspan, Nat.le_refl _,
    Nat.le_refl _⟩

theorem Stands.lt (h : n.Stands source lo hi) : lo < hi := by
  obtain ⟨span, -, hstart, hstop, -, -, hlt, -⟩ := h.tight
  omega

theorem Row.le : ∀ {ns : List Node} {lo : Nat}, Row source lo ns hi → lo ≤ hi
  | [], _, h => h
  | _ :: _, _, ⟨_, hn, hrow⟩ => Nat.le_trans (Nat.le_of_lt hn.lt) (Row.le hrow)

theorem Row.mono : ∀ {ns : List Node} {lo lo' : Nat}, Row source lo ns hi → lo' ≤ lo → hi ≤ hi' →
    Row source lo' ns hi'
  | [], _, _, h, hlo, hhi => Nat.le_trans hlo (Nat.le_trans h hhi)
  | _ :: _, _, _, ⟨mid, hn, hrow⟩, hlo, hhi =>
      ⟨mid, hn.mono hlo (Nat.le_refl _), hrow.mono (Nat.le_refl _) hhi⟩

theorem Row.cons (hn : n.Stands source lo mid) (h : Row source mid ns hi) :
    Row source lo (n :: ns) hi := ⟨mid, hn, h⟩

theorem row_singleton (hn : n.Stands source lo hi) : Row source lo [n] hi :=
  .cons hn (Nat.le_refl _)

/-- Each tree of a row stands between the ends of the row. -/
theorem Row.stands : ∀ {ns : List Node} {lo : Nat}, Row source lo ns hi →
    ∀ n ∈ ns, n.Stands source lo hi
  | [], _, _, _, hmem => by cases hmem
  | k :: ns, lo, ⟨mid, hk, hrow⟩, n, hmem => by
      rcases List.mem_cons.mp hmem with rfl | hmem
      · exact hk.mono (Nat.le_refl _) (Row.le hrow)
      · exact (hrow.stands n hmem).mono (Nat.le_of_lt hk.lt) (Nat.le_refl _)

theorem Row.ordered : ∀ {ns : List Node} {lo : Nat}, Row source lo ns hi → ns.Pairwise Before
  | [], _, _ => .nil
  | k :: ns, lo, ⟨mid, hk, hrow⟩ => by
      refine List.pairwise_cons.mpr ⟨fun n hn => ?_, hrow.ordered⟩
      obtain ⟨first, hfirst, -, hstop, -⟩ := hk.tight
      obtain ⟨second, hsecond, hstart, -⟩ := (hrow.stands n hn).tight
      exact ⟨first, second, hfirst, hsecond, Nat.le_trans hstop hstart⟩

/-- The last tree of a row may be told to end the row. -/
theorem Row.tight : ∀ {ns : List Node} {lo : Nat}, Row source lo (ns ++ [n]) hi →
    n.span? = some span → Row source lo (ns ++ [n]) span.stop.offset
  | [], lo, ⟨mid, hn, _⟩, hspan => by
      obtain ⟨span', hspan', hstart, -, -, -, -, htight⟩ := hn.tight
      obtain rfl := Option.some.inj (hspan.symm.trans hspan')
      exact row_singleton (htight.mono hstart (Nat.le_refl _))
  | _ :: _, _, ⟨_, hk, hrow⟩, hspan => .cons hk (hrow.tight hspan)

/-- A node stands where its span is, if its children stand in a row there. -/
theorem stands_of_row {first last : Position} (hspan : n.span? = some ⟨first, last⟩)
    (hfirst : first.TrueIn source) (hlast : last.TrueIn source) (hlt : first.offset < last.offset)
    (hrow : Row source first.offset n.children last.offset)
    (hjoins : ∀ left op right, n = .expr (.binary left op right) → op.Joins left right source) :
    n.Stands source first.offset last.offset := by
  refine ⟨fun m hm => ?_, ⟨first, last⟩, hspan, Nat.le_refl _, Nat.le_refl _⟩
  cases hm with
  | self =>
      refine ⟨⟨_, hspan, hfirst, hlast, hlt⟩, fun m hm => ?_, hrow.ordered, hjoins⟩
      obtain ⟨inner, hinner, hstart, hstop, -⟩ := (hrow.stands m hm).tight
      exact ⟨inner, _, hinner, hspan, hstart, hstop⟩
  | child hmem hm => exact (hrow.stands _ hmem).1 m hm

end Node

/-! ## Spans -/

theorem Expr.span?_eq_some {e : Expr} {span : Span} :
    e.span? = some span ↔ e.start? = some span.start ∧ e.stop? = some span.stop := by
  obtain ⟨p, q⟩ := span
  rw [Expr.span?]
  cases e.start? <;> cases e.stop? <;> simp

theorem Stmt.span?_eq_some {s : Stmt} {span : Span} :
    s.span? = some span ↔ s.start? = some span.start ∧ s.stop? = some span.stop := by
  obtain ⟨p, q⟩ := span
  rw [Stmt.span?]
  cases s.start? <;> cases s.stop? <;> simp

/-! ## Each kind of node -/

namespace Node

variable {source : Text} {lo mid hi : Nat} {t op keyword opening closing : Token}

/-- A name or a literal stands where its token does. -/
theorem stands_leaf {e : Expr} (ht : t.Placed source) (hk : t.kind ≠ .eof)
    (hspan : e.span? = some t.span) (hleaf : (Node.expr e).children = []) :
    (Node.expr e).Stands source t.start.offset t.stop.offset := by
  refine stands_of_row (n := .expr e) hspan ht.start_true ht.stop_true (ht.nonempty hk) ?_ ?_
  · rw [hleaf]
    exact ht.start_le
  · rintro left op right ⟨⟩
    cases hleaf

theorem stands_unary {right : Expr} (hop : op.Placed source)
    (hright : (Node.expr right).Stands source op.stop.offset hi) :
    (Node.expr (.unary op right)).Stands source op.start.offset hi := by
  obtain ⟨last, hlast, hstart, hstop, -, htrue, hlt, htight⟩ := hright.tight
  have hspan : (Node.expr (.unary op right)).span? = some ⟨op.start, last.stop⟩ :=
    Expr.span?_eq_some.mpr ⟨rfl, (Expr.span?_eq_some.mp hlast).2⟩
  have hle := Nat.le_trans hop.start_le hstart
  refine (stands_of_row hspan hop.start_true htrue (Nat.lt_of_le_of_lt hle hlt) ?_
    (by rintro _ _ _ ⟨⟩)).mono (Nat.le_refl _) hstop
  exact row_singleton (htight.mono hle (Nat.le_refl _))

theorem stands_binary {left right : Expr} (hleft : (Node.expr left).Stands source lo mid)
    (hop : op.Placed source) (hmid : mid ≤ op.start.offset)
    (hbytes : op.bytesIn source = op.lexeme)
    (hright : (Node.expr right).Stands source op.stop.offset hi) :
    (Node.expr (.binary left op right)).Stands source lo hi := by
  obtain ⟨first, hfirst, hlo, hmid', htrue, -, hlt, hleft⟩ := hleft.tight
  obtain ⟨last, hlast, hstart, hstop, -, htrue', hlt', hright⟩ := hright.tight
  have hspan : (Node.expr (.binary left op right)).span? = some ⟨first.start, last.stop⟩ :=
    Expr.span?_eq_some.mpr ⟨(Expr.span?_eq_some.mp hfirst).1, (Expr.span?_eq_some.mp hlast).2⟩
  have hop_le := hop.start_le
  have hbefore : first.stop.offset ≤ last.start.offset := by omega
  refine (stands_of_row hspan htrue htrue' (by omega) ?_
    ?_).mono hlo hstop
  · exact .cons hleft (row_singleton (hright.mono hbefore (Nat.le_refl _)))
  · rintro _ _ _ ⟨⟩
    exact ⟨hop.start_true, hop.stop_true, hbytes, first, last, hfirst, hlast,
      Nat.le_trans hmid' hmid, hstart⟩

theorem stands_call {callee : Expr} {args : List Expr}
    (hcallee : (Node.expr callee).Stands source lo mid)
    (hargs : Row source mid (args.map .expr) closing.start.offset)
    (hclosing : closing.Placed source) :
    (Node.expr (.call callee opening args closing)).Stands source lo closing.stop.offset := by
  obtain ⟨first, hfirst, hlo, hmid, htrue, -, hlt, hcallee⟩ := hcallee.tight
  have hspan : (Node.expr (.call callee opening args closing)).span? =
      some ⟨first.start, closing.stop⟩ :=
    Expr.span?_eq_some.mpr ⟨(Expr.span?_eq_some.mp hfirst).1, rfl⟩
  have hle := hclosing.start_le
  have hmid_le := hargs.le
  refine (stands_of_row hspan htrue hclosing.stop_true
    (by omega) ?_ (by rintro _ _ _ ⟨⟩)).mono hlo
    (Nat.le_refl _)
  exact .cons hcallee (hargs.mono hmid hle)

/-- What a conditional stops with is the last of its children. -/
theorem stop_conditional {condition : Expr} {body : Block} {otherwise : Alternative}
    (hrow : Row source lo
      (children (.expr (.conditional (.mk keyword condition body otherwise)))) hi) :
    ∃ ns n span,
      children (.expr (.conditional (.mk keyword condition body otherwise))) = ns ++ [n] ∧
      n.span? = some span ∧
      (Expr.conditional (.mk keyword condition body otherwise)).stop? = some span.stop := by
  cases otherwise with
  | absent =>
      obtain ⟨span, hspan, -⟩ := (hrow.stands (.stmt (.block body)) (by simp [children])).tight
      refine ⟨[.expr condition], .stmt (.block body), span, rfl, hspan, ?_⟩
      have hstop := (Stmt.span?_eq_some.mp hspan).2
      cases body with
      | missing => cases hstop
      | braces => exact hstop
  | block other =>
      obtain ⟨span, hspan, -⟩ :=
        (hrow.stands (.stmt (.block other)) (by simp [children, Alternative.children])).tight
      exact ⟨[.expr condition, .stmt (.block body)], .stmt (.block other), span, rfl, hspan,
        (Stmt.span?_eq_some.mp hspan).2⟩
  | chained next =>
      obtain ⟨span, hspan, -⟩ :=
        (hrow.stands (.expr (.conditional next)) (by simp [children, Alternative.children])).tight
      refine ⟨[.expr condition, .stmt (.block body)], .expr (.conditional next),
        span, rfl, hspan, ?_⟩
      exact (Expr.span?_eq_some.mp hspan).2

theorem stands_conditional {condition : Expr} {body : Block} {otherwise : Alternative}
    (hkeyword : keyword.Placed source) (hk : keyword.kind ≠ .eof)
    (hrow : Row source keyword.stop.offset
      (children (.expr (.conditional (.mk keyword condition body otherwise)))) hi) :
    (Node.expr (.conditional (.mk keyword condition body otherwise))).Stands source
      keyword.start.offset hi := by
  obtain ⟨ns, n, last, hchildren, hlast, hstop⟩ := stop_conditional hrow
  rw [hchildren] at hrow
  obtain ⟨last', hlast', -, hhi, -, htrue, -⟩ := (hrow.stands n (by simp)).tight
  obtain rfl := Option.some.inj (hlast.symm.trans hlast')
  have htight := hrow.tight hlast
  have hspan : (Node.expr (.conditional (.mk keyword condition body otherwise))).span?
      = some ⟨keyword.start, last.stop⟩ := Expr.span?_eq_some.mpr ⟨rfl, hstop⟩
  refine (stands_of_row hspan hkeyword.start_true htrue
    (Nat.lt_of_lt_of_le (hkeyword.nonempty hk) htight.le) ?_ (by rintro _ _ _ ⟨⟩)).mono
    (Nat.le_refl _) hhi
  rw [hchildren]
  exact htight.mono hkeyword.start_le (Nat.le_refl _)

theorem stands_braces {body : List Stmt} (empty : Bool) (hopening : opening.Placed source)
    (hk : opening.kind ≠ .eof) (hclosing : closing.Placed source)
    (hbody : Row source opening.stop.offset (body.map .stmt) closing.start.offset) :
    (Node.stmt (.block (.braces opening body closing empty))).Stands source opening.start.offset
      closing.stop.offset := by
  have hspan : (Node.stmt (.block (.braces opening body closing empty))).span?
      = some ⟨opening.start, closing.stop⟩ := rfl
  have hlt := hopening.nonempty hk
  have hle := hbody.le
  have hle' := hclosing.start_le
  refine stands_of_row hspan hopening.start_true hclosing.stop_true
    (by omega) ?_ (by rintro _ _ _ ⟨⟩)
  exact hbody.mono hopening.start_le hle'

theorem stands_binding {name : Token} {word : Text} {value : Expr}
    (hkeyword : keyword.Placed source)
    (hname : (Node.expr (.name name word)).Stands source keyword.stop.offset mid)
    (hvalue : (Node.expr value).Stands source mid hi) :
    (Node.stmt (.binding keyword name word value)).Stands source keyword.start.offset hi := by
  obtain ⟨last, hlast, hmid, hhi, -, htrue, hlt, htight⟩ := hvalue.tight
  have hspan : (Node.stmt (.binding keyword name word value)).span?
      = some ⟨keyword.start, last.stop⟩ :=
    Stmt.span?_eq_some.mpr ⟨rfl, (Expr.span?_eq_some.mp hlast).2⟩
  have hrow : Row source keyword.start.offset (children (.stmt (.binding keyword name word value)))
      last.stop.offset :=
    .cons (hname.mono hkeyword.start_le (Nat.le_refl _))
      (row_singleton (htight.mono hmid (Nat.le_refl _)))
  have hkeyword_le := hkeyword.start_le
  have hname_lt := hname.lt
  exact (stands_of_row hspan hkeyword.start_true htrue
    (by omega) hrow (by rintro _ _ _ ⟨⟩)).mono
    (Nat.le_refl _) hhi

theorem stands_bareReturn (hkeyword : keyword.Placed source) (hk : keyword.kind ≠ .eof) :
    (Node.stmt (.returning keyword .missing)).Stands source keyword.start.offset
      keyword.stop.offset :=
  stands_of_row (n := .stmt (.returning keyword .missing)) rfl
    hkeyword.start_true hkeyword.stop_true (hkeyword.nonempty hk) hkeyword.start_le
    (by rintro _ _ _ ⟨⟩)

theorem stands_returning {value : Expr} (hkeyword : keyword.Placed source)
    (hvalue : (Node.expr value).Stands source keyword.stop.offset hi) :
    (Node.stmt (.returning keyword value)).Stands source keyword.start.offset hi := by
  obtain ⟨last, hlast, hmid, hhi, -, htrue, hlt, htight⟩ := hvalue.tight
  -- a value that has a span is not missing
  have hvalue : value ≠ .missing := by
    rintro rfl
    cases hlast
  have hstop : (Stmt.returning keyword value).stop? = value.stop? := by
    cases value <;> first | contradiction | rfl
  have hspan : (Node.stmt (.returning keyword value)).span? = some ⟨keyword.start, last.stop⟩ :=
    Stmt.span?_eq_some.mpr ⟨rfl, hstop.trans (Expr.span?_eq_some.mp hlast).2⟩
  have hle := Nat.le_trans hkeyword.start_le hmid
  refine (stands_of_row hspan hkeyword.start_true htrue (Nat.lt_of_le_of_lt hle hlt) ?_
    (by rintro _ _ _ ⟨⟩)).mono (Nat.le_refl _) hhi
  rw [children_returning hvalue]
  exact row_singleton (htight.mono hle (Nat.le_refl _))

theorem stands_exprStmt {value : Expr} (hvalue : (Node.expr value).Stands source lo hi) :
    (Node.stmt (.expr value)).Stands source lo hi := by
  obtain ⟨span, hspan, hlo, hhi, hstart, hstop, hlt, htight⟩ := hvalue.tight
  have hspan' : (Node.stmt (.expr value)).span? = some span :=
    Stmt.span?_eq_some.mpr (Expr.span?_eq_some.mp hspan)
  exact (stands_of_row hspan' hstart hstop hlt (row_singleton htight) (by rintro _ _ _ ⟨⟩)).mono
    hlo hhi

end Node

end Scriptlet
