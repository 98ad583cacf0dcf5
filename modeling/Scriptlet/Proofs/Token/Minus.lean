import Scriptlet.Proofs.Token.Isolated

/-!
# Tokens in front of a minus

A token that ends in front of a minus is the same whatever stands behind the
minus (`Lexeme.read_before_minus`). In all classes of tokens but string literals a
minus can stand at the head only, so the bytes up to the minus and the minus
itself settle which token is read.
-/

namespace Scriptlet

namespace Munch

open Lexeme

variable {b c : UInt8} {s rest rest' : Text}

/-- A prefix that a byte is in at most as its first ends before that byte. -/
theorem prefix_before_tail {v : Text} (h : v <+: c :: s ++ b :: rest) (hb : b ∉ v.tail) :
    v <+: c :: s := by
  cases v with
  | nil => exact List.nil_prefix
  | cons d v =>
      obtain ⟨rfl, hv⟩ := List.cons_prefix_cons.mp h
      exact List.cons_prefix_cons.mpr ⟨rfl, prefix_before hv hb⟩

/-! ## A minus stands at the head of a token only -/

theorem minus_not_mem_words {w : Text} (hw : w ∈ words) : Byte.minus ∉ w := by
  obtain ⟨c, u, hc, hu, rfl⟩ := mem_words.mp hw
  intro hmem
  rcases List.mem_cons.mp hmem with rfl | hmem
  · cases hc
  · cases hu _ hmem

theorem minus_not_mem_digits {w : Text} (hw : w ∈ digits) : Byte.minus ∉ w := by
  intro hmem
  have hrun := (digits_prefix_digitRun hw (List.prefix_refl w)).2.subset hmem
  rcases mem_digitRun hrun with hdigit | hunderscore
  · cases hdigit
  · cases hunderscore

theorem minus_not_mem_tail_numbers {w : Text} (hw : w ∈ numbers) : Byte.minus ∉ w.tail := by
  obtain ⟨_, hsigned, fraction, hfraction, rfl⟩ := Language.mem_mul.mp hw
  obtain ⟨sign, hsign, ds, hds, rfl⟩ := Language.mem_mul.mp hsigned
  have hfraction : Byte.minus ∉ fraction := by
    rcases (Language.mem_add _ _ _).mp hfraction with hnone | hsome
    · rw [(Language.mem_one _).mp hnone]
      exact List.not_mem_nil
    · obtain ⟨point, hpoint, es, hes, rfl⟩ := Language.mem_mul.mp hsome
      rw [mem_only.mp hpoint, List.singleton_append, List.mem_cons, not_or]
      exact ⟨by decide, minus_not_mem_digits hes⟩
  have hunsigned : Byte.minus ∉ ds ++ fraction := by
    rw [List.mem_append, not_or]
    exact ⟨minus_not_mem_digits hds, hfraction⟩
  rcases mem_optional.mp hsign with rfl | rfl
  · exact fun hmem => hunsigned (List.mem_of_mem_tail hmem)
  · exact hunsigned

theorem minus_not_mem_tail_name {k : Kind} (hk : k ∈ Kind.doubles ++ Kind.singles) :
    Byte.minus ∉ k.name.tail := by
  have hall : ((Kind.doubles ++ Kind.singles).all fun k =>
      k.name.tail.all (· != Byte.minus)) = true := by
    decide
  intro hmem
  have hnone := List.all_eq_true.mp (List.all_eq_true.mp hall k hk) _ hmem
  simp at hnone

theorem minus_not_mem_tail_encoded (ch : Char) : Byte.minus ∉ (String.utf8EncodeChar ch).tail := by
  intro hmem
  rw [encoded_of_ascii (by decide) (List.mem_of_mem_tail hmem)] at hmem
  exact List.not_mem_nil hmem

/-! ## Other texts behind the minus -/

theorem Longest.behind_minus {L : Language UInt8} {w : Text}
    (h : Longest L (c :: s ++ Byte.minus :: rest) w) (hw : w <+: c :: s)
    (hL : ∀ v ∈ L, Byte.minus ∉ v.tail) : Longest L (c :: s ++ Byte.minus :: rest') w := by
  refine ⟨hw.trans (List.prefix_append _ _), h.mem, fun v hv hmem => ?_⟩
  exact h.longest v ((prefix_before_tail hv (hL v hmem)).trans (List.prefix_append _ _)) hmem

theorem NoneOf.behind_minus {table : List Kind} (h : NoneOf table (c :: s ++ Byte.minus :: rest))
    (htable : ∀ k ∈ table, Byte.minus ∉ k.name.tail) :
    NoneOf table (c :: s ++ Byte.minus :: rest') := fun k hk hpre =>
  h k hk ((prefix_before_tail hpre (htable k hk)).trans (List.prefix_append _ _))

theorem StartsNumber.behind_minus (h : StartsNumber (c :: s ++ Byte.minus :: rest)) :
    StartsNumber (c :: s ++ Byte.minus :: rest') := by
  obtain ⟨d, hd, hpre⟩ := h
  have hbefore : ∀ {v : Text}, v <+: c :: s ++ Byte.minus :: rest → Byte.minus ∉ v.tail →
      v <+: c :: s ++ Byte.minus :: rest' := fun hv hb =>
    (prefix_before_tail hv hb).trans (List.prefix_append _ _)
  refine ⟨d, hd, hpre.imp (fun h => hbefore h List.not_mem_nil) fun h => hbefore h ?_⟩
  rw [List.tail_cons, List.mem_singleton]
  rintro rfl
  cases hd

theorem StartsOther.behind_minus (h : StartsOther (c :: s ++ Byte.minus :: rest)) :
    StartsOther (c :: s ++ Byte.minus :: rest') := by
  obtain ⟨hword, hnumber, hquote⟩ := h
  rw [List.cons_append] at hword hquote ⊢
  refine ⟨?_, fun hnumber' => hnumber (StartsNumber.behind_minus hnumber'), ?_⟩
  · rw [startsWord_cons] at hword ⊢
    exact hword
  · rw [List.cons_prefix_cons] at hquote ⊢
    simpa using hquote

theorem behind_minus {k : Kind} {w taken : Text}
    (h : Munch (c :: s ++ Byte.minus :: rest) k w taken) (htaken : taken <+: c :: s)
    (rest' : Text) : Munch (c :: s ++ Byte.minus :: rest') k w taken := by
  have happend : ∀ {v : Text}, v <+: c :: s → v <+: c :: s ++ Byte.minus :: rest' := fun hv =>
    hv.trans (List.prefix_append _ _)
  have hdoubles : ∀ k ∈ Kind.doubles, Byte.minus ∉ k.name.tail := fun k hk =>
    minus_not_mem_tail_name (List.mem_append_left _ hk)
  have hsingles : ∀ k ∈ Kind.singles, Byte.minus ∉ k.name.tail := fun k hk =>
    minus_not_mem_tail_name (List.mem_append_right _ hk)
  generalize hwhole : c :: s ++ Byte.minus :: rest = whole at h
  cases h with
  | word hword hlongest hnamed =>
      subst hwhole
      refine .word ?_ (hlongest.behind_minus htaken fun v hv hmem => ?_) hnamed
      · exact startsWord_cons.mpr (startsWord_cons.mp hword)
      · exact minus_not_mem_words hv (List.mem_of_mem_tail hmem)
  | number hnumber hlongest =>
      subst hwhole
      exact .number hnumber.behind_minus
        (hlongest.behind_minus htaken fun v => minus_not_mem_tail_numbers)
  | string hcloses hfirst =>
      obtain ⟨rfl, hrest⟩ := List.cons.inj hwhole
      have hbody := (List.cons_prefix_cons.mp htaken).2
      refine .string ⟨hbody.trans (List.prefix_append _ _), hcloses.2⟩ fun other hother => ?_
      rcases Nat.le_total w.length other.length with hle | hle
      · exact hle
      · have hshort := hother.shorten hbody (List.prefix_append _ _) hle
        refine hfirst other ?_
        rw [← hrest]
        exact closes_append hshort
  | unclosed hnone =>
      have hlength := htaken.length_le
      rw [← hwhole, List.length_append] at hlength
      exact absurd hlength (Nat.not_le_of_lt (Nat.lt_add_of_pos_right (Nat.succ_pos _)))
  | double hother hk hpre =>
      subst hwhole
      exact .double hother.behind_minus hk (happend htaken)
  | single hother hnone hk hpre =>
      subst hwhole
      exact .single hother.behind_minus (hnone.behind_minus hdoubles) hk (happend htaken)
  | character hother hnone hnone' hpre =>
      subst hwhole
      exact .character hother.behind_minus (hnone.behind_minus hdoubles)
        (hnone'.behind_minus hsingles) (happend htaken)
  | stray hother hnone hnone' hstray =>
      obtain ⟨rfl, rfl⟩ := List.cons.inj hwhole
      refine .stray (StartsOther.behind_minus hother) (NoneOf.behind_minus hnone hdoubles)
        (NoneOf.behind_minus hnone' hsingles) fun ch hpre => hstray ch ?_
      exact (prefix_before_tail hpre (minus_not_mem_tail_encoded ch)).trans (List.prefix_append _ _)

end Munch

namespace Lexeme

theorem read_before_minus {c : UInt8} {s rest : Text}
    (hwidth : (read (c :: s ++ Byte.minus :: rest)).width ≤ (c :: s).length) (rest' : Text) :
    read (c :: s ++ Byte.minus :: rest') = read (c :: s ++ Byte.minus :: rest) := by
  have hmunch := munch_take c (s ++ Byte.minus :: rest)
  have htaken : (c :: (s ++ Byte.minus :: rest)).take
      (read (c :: (s ++ Byte.minus :: rest))).width <+: c :: s := by
    rw [← List.cons_append, List.take_append_of_le_length hwidth]
    exact List.take_prefix _ _
  exact read_eq_of_munch (Munch.behind_minus hmunch htaken rest') hmunch

end Lexeme

end Scriptlet
