import Scriptlet.Proofs.Script.Canonical
import Scriptlet.Proofs.Tree.Outline
import Scriptlet.Proofs.Tree.Unambiguous

/-!
# Printed scripts

The canonical form and the outline of a program show the same about it: all but
the places of its tokens. Two accepted sources have the same program up to
places just when their canonical forms agree, and just when their outlines do
(`Script.relabel_eq_iff_printed`).
-/

namespace Scriptlet.Script

theorem legible_program {source : Text} {p : Program} (h : program source = (some p, none)) :
    Stmt.LegibleAll p := by
  obtain ⟨ts, hlegible, hspells⟩ := spells_program h
  exact legible_of_spells hspells hlegible

theorem relabel_eq_iff_printed {source source' : Text} {p q : Program}
    (hp : program source = (some p, none)) (hq : program source' = (some q, none)) :
    (p.relabel Token.erase = q.relabel Token.erase ↔ p.canonical = q.canonical) ∧
      (p.relabel Token.erase = q.relabel Token.erase ↔ p.outline = q.outline) := by
  have hlexeme : ∀ t : Token, t.erase.lexeme = t.lexeme := fun _ => rfl
  have hlegible := legible_program hp
  have hlegible' := legible_program hq
  refine ⟨⟨fun h => ?_, Program.eq_of_canonical hlegible hlegible'⟩,
    ⟨fun h => ?_, Program.eq_of_outline hlegible hlegible'⟩⟩
  · rw [← Program.canonical_relabel hlexeme p, h, Program.canonical_relabel hlexeme]
  · rw [← Program.outline_relabel hlexeme p, h, Program.outline_relabel hlexeme]

/-- A conditional in front of a number in parentheses, and a conditional that is
called with it: the canonical forms are made of the same tokens, and a line
break is all that tells them apart. -/
theorem relabel_eq_iff_printed_called :
    let source := text "if(a)\x7b\x7d(- 5)"
    let source' := text "(if(a)\x7b\x7d)(-5)"
    let p := (parse (Token.scan source).1).program
    let q := (parse (Token.scan source').1).program
    (program source = (some p, none) ∧ program source' = (some q, none)) ∧
      p.canonical = text "if (a) \x7b\x7d\n(-5);" ∧ q.canonical = text "if (a) \x7b\x7d(-5);" ∧
      (Token.scan p.canonical).1.map Token.erase = (Token.scan q.canonical).1.map Token.erase ∧
      p.relabel Token.erase ≠ q.relabel Token.erase ∧ p.outline ≠ q.outline := by
  intro source source' p q
  obtain ⟨hscan, herrors, hscan', herrors'⟩ : (Token.scan source).2 = [] ∧
      (parse (Token.scan source).1).errors = [] ∧ (Token.scan source').2 = [] ∧
      (parse (Token.scan source').1).errors = [] := by
    decide +kernel
  have hp := program_eq_some_iff.mpr ⟨hscan, herrors, rfl⟩
  have hq := program_eq_some_iff.mpr ⟨hscan', herrors', rfl⟩
  obtain ⟨hcanonical, houtline⟩ := relabel_eq_iff_printed hp hq
  have hp' : p.canonical = text "if (a) \x7b\x7d\n(-5);" := by decide +kernel
  have hq' : q.canonical = text "if (a) \x7b\x7d(-5);" := by decide +kernel
  have hne : p.relabel Token.erase ≠ q.relabel Token.erase := by
    rw [ne_eq, hcanonical, hp', hq']
    decide
  refine ⟨⟨hp, hq⟩, hp', hq', ?_, hne, fun h => hne (houtline.mpr h)⟩
  rw [hp', hq']
  decide +kernel

end Scriptlet.Script
