import Scriptlet.Proofs.Eval.Unwinding

/-!
# Runs that are interrupted

A run looks at its watch before each statement and nowhere else. So a watch that
goes off in the middle of a statement, however deep, lets that statement come to
its end, and the run stops in front of the next one, if it gets that far
(`Program.run_afterBinds`).

`runFrom_escaping` and `runFrom_passing` say what a run does with one statement
that the watch lets through: a statement that returns or fails ends the run, and
any other one announces its bindings ahead of the rest. The same is said of
`Program.execute`, which is the run that nothing interrupts. Up to the statement
during which the watch goes off the two agree (`runFrom_of_lt`), and behind it
nothing runs (`runFrom_during`).
-/

namespace Scriptlet

namespace Evaluation

variable {e : Evaluation}

theorem not_plain_of_escapes {v : Value} (h : e.escapes = true) (hv : e.result = .ok v) :
    v.isPlain = false := by
  rw [escapes, hv] at h
  simpa using h

/-- What does not escape is a plain value. -/
theorem exists_plain (h : e.escapes = false) : ∃ v, e.result = .ok v ∧ v.isPlain = true := by
  rw [escapes] at h
  cases hresult : e.result with
  | error err =>
      rw [hresult] at h
      cases h
  | ok v =>
      rw [hresult] at h
      exact ⟨v, rfl, by simpa using h⟩

end Evaluation

theorem Watch.check_afterBinds (count bound : Nat) :
    (afterBinds count).check bound = if count ≤ bound then some .cancelled else none := rfl

namespace Program

/-- The first `k` statements. -/
def upTo (p : Program) (k : Nat) : Program := p.take k

/-- The `n`-th binding is announced during statement `k`, where nothing
interrupts the run. -/
def BindsDuring (p : Program) (n k : Nat) : Prop :=
  ((p.upTo k).run .never).binds.length < n ∧ n ≤ ((p.upTo (k + 1)).run .never).binds.length

variable {watch : Watch} {bound n k : Nat} {last v : Value} {s : Stmt} {p ss : Program}

theorem upTo_zero (p : Program) : p.upTo 0 = [] := rfl

theorem upTo_cons (s : Stmt) (ss : Program) (k : Nat) :
    upTo (s :: ss) (k + 1) = s :: ss.upTo k := rfl

/-! ## One statement of a run -/

theorem runFrom_interrupted {why : Interruption} (h : watch.check bound = some why) :
    runFrom watch bound last (s :: ss) = ⟨some last, [], some (.interrupted why)⟩ := by
  rw [runFrom, h]

theorem runFrom_failing {err : RuntimeError} (h : watch.check bound = none)
    (hs : s.eval.result = .error err) :
    runFrom watch bound last (s :: ss) = ⟨some last, s.eval.binds, some (.failed err)⟩ := by
  rw [runFrom, h]
  simp [hs]

theorem runFrom_returning (h : watch.check bound = none) (hs : s.eval.result = .ok v)
    (hv : v.isPlain = false) :
    runFrom watch bound last (s :: ss) = ⟨v.unwrap, s.eval.binds, none⟩ := by
  rw [runFrom, h]
  simp [hs, hv]

theorem runFrom_passing (h : watch.check bound = none) (hs : s.eval.result = .ok v)
    (hv : v.isPlain = true) : runFrom watch bound last (s :: ss)
      = (runFrom watch (bound + s.eval.binds.length) v ss).announcing s.eval.binds := by
  rw [runFrom, h]
  simp [hs, hv, Run.announcing]

/-- A statement that escapes ends the run, whatever stands behind it. -/
theorem runFrom_escaping (h : watch.check bound = none) (hs : s.eval.escapes = true) :
    runFrom watch bound last (s :: ss) = execute last [s] := by
  rw [← runFrom_eq_execute 0]
  cases hresult : s.eval.result with
  | error err => rw [runFrom_failing h hresult, runFrom_failing rfl hresult]
  | ok v =>
      have hv := Evaluation.not_plain_of_escapes hs hresult
      rw [runFrom_returning h hresult hv, runFrom_returning rfl hresult hv]

theorem execute_escaping (ss : Program) (hs : s.eval.escapes = true) :
    execute last (s :: ss) = execute last [s] := by
  rw [← runFrom_eq_execute 0]
  exact runFrom_escaping rfl hs

theorem execute_passing (hs : s.eval.result = .ok v) (hv : v.isPlain = true) :
    execute last (s :: ss) = (execute v ss).announcing s.eval.binds := by
  rw [← runFrom_eq_execute 0, runFrom_passing rfl hs hv, runFrom_eq_execute]

theorem binds_execute_single : (execute last [s]).binds = s.eval.binds := by
  cases hescapes : s.eval.escapes with
  | false =>
      obtain ⟨v, hs, hv⟩ := Evaluation.exists_plain hescapes
      rw [execute_passing hs hv]
      exact List.append_nil _
  | true =>
      rw [← runFrom_eq_execute 0]
      cases hresult : s.eval.result with
      | error err => rw [runFrom_failing rfl hresult]
      | ok v =>
          rw [runFrom_returning rfl hresult (Evaluation.not_plain_of_escapes hescapes hresult)]

/-! ## Runs that nothing interrupts -/

theorem stop_execute (p : Program) (last : Value) (why : Interruption) :
    (p.execute last).stop ≠ some (.interrupted why) := by
  induction p generalizing last with
  | nil =>
      intro h
      cases h
  | cons s ss ih =>
      cases hescapes : s.eval.escapes with
      | false =>
          obtain ⟨v, hs, hv⟩ := Evaluation.exists_plain hescapes
          rw [execute_passing hs hv]
          exact ih v
      | true =>
          rw [execute_escaping ss hescapes, ← runFrom_eq_execute 0]
          cases hresult : s.eval.result with
          | error err =>
              rw [runFrom_failing rfl hresult]
              intro h
              cases h
          | ok v =>
              rw [runFrom_returning rfl hresult (Evaluation.not_plain_of_escapes hescapes hresult)]
              intro h
              cases h

/-- One statement more announces its own bindings behind the others, or it is
not reached. -/
theorem binds_upTo_succ (last : Value) (hk : p[k]? = some s) :
    ((p.upTo (k + 1)).execute last).binds = ((p.upTo k).execute last).binds ∨
      ((p.upTo (k + 1)).execute last).binds
        = ((p.upTo k).execute last).binds ++ s.eval.binds := by
  induction p generalizing last k with
  | nil => cases hk
  | cons s' ss ih =>
      cases k with
      | zero =>
          obtain rfl : s' = s := Option.some.inj hk
          rw [upTo_cons, upTo_zero, upTo_zero, binds_execute_single]
          exact Or.inr rfl
      | succ k =>
          rw [List.getElem?_cons_succ] at hk
          rw [upTo_cons, upTo_cons]
          cases hescapes : s'.eval.escapes with
          | true =>
              rw [execute_escaping (upTo ss k) hescapes,
                execute_escaping (upTo ss (k + 1)) hescapes]
              exact Or.inl rfl
          | false =>
              obtain ⟨v, hs, hv⟩ := Evaluation.exists_plain hescapes
              rw [execute_passing hs hv, execute_passing hs hv]
              simp only [Run.announcing, List.append_assoc, List.append_cancel_left_eq]
              exact ih v hk

theorem length_binds_upTo (p : Program) {i j : Nat} (hij : i ≤ j) :
    ((p.upTo i).run .never).binds.length ≤ ((p.upTo j).run .never).binds.length := by
  induction hij with
  | refl => exact Nat.le_refl _
  | @step j _ ih =>
      refine Nat.le_trans ih ?_
      cases hj : p[j]? with
      | none =>
          have hlength := List.getElem?_eq_none_iff.mp hj
          have hsame : p.upTo j = p.upTo (j + 1) := by
            rw [upTo, upTo, List.take_of_length_le hlength, List.take_of_length_le (by omega)]
          exact Nat.le_of_eq (by rw [hsame])
      | some s =>
          rw [run, run, runFrom_eq_execute, runFrom_eq_execute]
          rcases binds_upTo_succ .null hj with h | h
          · exact Nat.le_of_eq (congrArg List.length h.symm)
          · rw [h, List.length_append]
            exact Nat.le_add_right _ _

/-- Some statement announces the `n`-th binding, if there are so many. -/
theorem exists_bindsDuring (hn : 0 < n) (h : n ≤ (p.run .never).binds.length) :
    ∃ k, p.BindsDuring n k := by
  have hcount : ∀ m, n ≤ ((p.upTo m).run .never).binds.length → ∃ k, p.BindsDuring n k := by
    intro m
    induction m with
    | zero =>
        intro hle
        exact absurd hle (Nat.not_le_of_lt hn)
    | succ m ih =>
        intro hle
        rcases Nat.lt_or_ge ((p.upTo m).run .never).binds.length n with hlt | hge
        · exact ⟨m, hlt, hle⟩
        · exact ih hge
  refine hcount p.length ?_
  rwa [upTo, List.take_length]

theorem BindsDuring.unique {i j : Nat} (hi : p.BindsDuring n i) (hj : p.BindsDuring n j) :
    i = j := by
  rcases Nat.lt_trichotomy i j with hlt | heq | hgt
  · exact absurd (Nat.le_trans hi.2 (length_binds_upTo p hlt)) (Nat.not_le_of_lt hj.1)
  · exact heq
  · exact absurd (Nat.le_trans hj.2 (length_binds_upTo p hgt)) (Nat.not_le_of_lt hi.1)

/-! ## Runs with a watch -/

/-- With fewer bindings than it takes the watch never goes off. -/
theorem runFrom_of_lt (h : bound + (p.execute last).binds.length < n) :
    p.runFrom (.afterBinds n) bound last = p.execute last := by
  induction p generalizing bound last with
  | nil => rfl
  | cons s ss ih =>
      have hcheck : (Watch.afterBinds n).check bound = none := by
        rw [Watch.check_afterBinds, if_neg (by omega)]
      cases hescapes : s.eval.escapes with
      | true => rw [runFrom_escaping hcheck hescapes, execute_escaping ss hescapes]
      | false =>
          obtain ⟨v, hs, hv⟩ := Evaluation.exists_plain hescapes
          rw [execute_passing hs hv] at h
          rw [runFrom_passing hcheck hs hv, execute_passing hs hv, ih]
          simp only [Run.announcing, List.length_append] at h
          omega

/-- The statement during which the watch goes off comes to its end. Where it
neither escapes nor is the last one, the run is interrupted behind it. -/
theorem runFrom_during (bound : Nat) (last : Value) (hk : p[k]? = some s)
    (hlt : bound + ((p.upTo k).execute last).binds.length < n)
    (hle : n ≤ bound + ((p.upTo (k + 1)).execute last).binds.length) :
    (s.eval.escapes = true ∨ k + 1 = p.length →
      p.runFrom (.afterBinds n) bound last = p.execute last) ∧
    (s.eval.escapes = false → k + 1 < p.length → p.runFrom (.afterBinds n) bound last
      = { (p.upTo (k + 1)).execute last with stop := some (.interrupted .cancelled) }) := by
  induction p generalizing bound last k with
  | nil => cases hk
  | cons s' ss ih =>
      have hcheck : (Watch.afterBinds n).check bound = none := by
        rw [Watch.check_afterBinds, if_neg (by omega)]
      cases k with
      | zero =>
          obtain rfl : s' = s := Option.some.inj hk
          rw [upTo_cons, upTo_zero, binds_execute_single] at hle
          rw [upTo_cons, upTo_zero]
          cases hescapes : s'.eval.escapes with
          | true =>
              refine ⟨fun _ => ?_, fun h => by cases h⟩
              rw [runFrom_escaping hcheck hescapes, execute_escaping ss hescapes]
          | false =>
              obtain ⟨v, hs, hv⟩ := Evaluation.exists_plain hescapes
              rw [runFrom_passing hcheck hs hv, execute_passing hs hv, execute_passing hs hv]
              cases ss with
              | nil => exact ⟨fun _ => rfl, fun _ h => absurd h (Nat.lt_irrefl 1)⟩
              | cons s'' ss =>
                  have hoff : (Watch.afterBinds n).check (bound + s'.eval.binds.length)
                      = some .cancelled := by
                    rw [Watch.check_afterBinds, if_pos hle]
                  refine ⟨fun h => ?_, fun _ _ => ?_⟩
                  · rcases h with h | h <;> simp at h
                  · rw [runFrom_interrupted hoff]
                    rfl
      | succ k =>
          rw [List.getElem?_cons_succ] at hk
          rw [upTo_cons] at hlt hle ⊢
          cases hescapes : s'.eval.escapes with
          | true =>
              -- the statements behind it would announce nothing more
              rw [execute_escaping _ hescapes] at hlt hle
              omega
          | false =>
              obtain ⟨v, hs, hv⟩ := Evaluation.exists_plain hescapes
              rw [execute_passing hs hv] at hlt hle
              simp only [Run.announcing, List.length_append] at hlt hle
              obtain ⟨hend, hmore⟩ := ih (bound + s'.eval.binds.length) v hk (by omega) (by omega)
              rw [runFrom_passing hcheck hs hv, execute_passing hs hv, execute_passing hs hv,
                List.length_cons]
              refine ⟨fun h => ?_, fun h hlast => ?_⟩
              · rw [hend (h.imp_right Nat.succ.inj)]
              · rw [hmore h (Nat.lt_of_succ_lt_succ hlast)]
                rfl

/-- A watch that goes off while the `n`-th binding is announced cuts a run
between two statements: the statement during which that happens comes to its
end, with all its bindings, and none behind it starts. Where there is nothing
left to cut, the run is the one without a watch. -/
theorem run_afterBinds (p : Program) {n : Nat} (hn : 1 ≤ n) :
    ((p.run .never).binds.length < n → p.run (.afterBinds n) = p.run .never) ∧
    (n ≤ (p.run .never).binds.length → ∃ k s, p[k]? = some s ∧
      (∀ j, p.BindsDuring n j ↔ j = k) ∧
      ((p.upTo (k + 1)).run .never).binds = ((p.upTo k).run .never).binds ++ s.eval.binds ∧
      (s.eval.escapes = true ∨ k + 1 = p.length → p.run (.afterBinds n) = p.run .never) ∧
      (s.eval.escapes = false → k + 1 < p.length → p.run (.afterBinds n)
        = { (p.upTo (k + 1)).run .never with stop := some (.interrupted .cancelled) })) ∧
    (∀ why, (p.run .never).stop ≠ some (.interrupted why)) ∧
    ∀ why, p.run (.fromStart why)
      = ⟨some .null, [], if p.isEmpty then none else some (.interrupted why)⟩ := by
  have hnever : ∀ q : Program, q.run .never = q.execute .null := runFrom_eq_execute 0 .null
  refine ⟨fun h => ?_, fun h => ?_, fun why => ?_, fun why => ?_⟩
  · rw [hnever] at h ⊢
    exact runFrom_of_lt (by omega)
  · obtain ⟨k, hduring⟩ := exists_bindsDuring hn h
    have hunique : ∀ j, p.BindsDuring n j ↔ j = k :=
      fun j => ⟨fun hj => hj.unique hduring, fun hj => hj ▸ hduring⟩
    obtain ⟨hlt, hle⟩ := hduring
    rw [hnever] at hlt hle
    have hk : k < p.length := by
      rcases Nat.lt_or_ge k p.length with hk | hge
      · exact hk
      · rw [upTo, List.take_of_length_le hge] at hlt
        rw [upTo, List.take_of_length_le (by omega)] at hle
        omega
    have hs : p[k]? = some p[k] := List.getElem?_eq_getElem hk
    have hbinds := binds_upTo_succ .null hs
    simp only [hnever]
    refine ⟨k, p[k], hs, hunique, ?_, runFrom_during 0 .null hs ?_ ?_⟩
    · rcases hbinds with hsame | hmore
      · rw [hsame] at hle
        omega
      · exact hmore
    · omega
    · omega
  · rw [hnever]
    exact stop_execute p .null why
  · cases p with
    | nil => rfl
    | cons s ss => exact runFrom_interrupted rfl

/-- The watch goes off in the block of the second statement, at the first of its
two bindings. The other one is still announced, and the third statement is not
started. -/
theorem run_afterBinds_nested :
    let t := Token.endOfInput .start
    let block : Block := .braces t [.binding t t (text "b") (.integer t 2),
      .binding t t (text "c") (.integer t 3), .expr (.integer t 4)] t false
    let p : Program := [.binding t t (text "a") (.integer t 1),
      .expr (.conditional (.mk t (.boolean t true) block .absent)),
      .binding t t (text "d") (.integer t 5)]
    (1 ≤ 2 ∧ (p.run .never).binds.length = 4 ∧ p.BindsDuring 2 1) ∧
      (p.run (.afterBinds 2)).value = some (.integer 4) ∧
      (p.run (.afterBinds 2)).binds
        = [⟨text "a", .integer 1⟩, ⟨text "b", .integer 2⟩, ⟨text "c", .integer 3⟩] ∧
      (p.run (.afterBinds 2)).stop = some (.interrupted .cancelled) := by
  intro t block p
  have hcount : (p.run .never).binds.length = 4 := by decide +kernel
  have hduring : p.BindsDuring 2 1 := by
    unfold BindsDuring
    decide +kernel
  have hsecond : (p[1]?.map fun s => s.eval.escapes) = some false := by decide +kernel
  obtain ⟨-, hreached, -⟩ := run_afterBinds p (n := 2) (by decide)
  obtain ⟨k, s, hk, hunique, -, -, hcut⟩ := hreached (by rw [hcount]; decide)
  obtain rfl : 1 = k := (hunique 1).mp hduring
  rw [hk] at hsecond
  rw [hcut (Option.some.inj hsecond) (by decide +kernel)]
  exact ⟨⟨by decide, hcount, hduring⟩, by decide +kernel, by decide +kernel, rfl⟩

end Program

end Scriptlet
