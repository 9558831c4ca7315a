import RouteNotation.Proofs.Xml.SpelledTree

/-!
The depth limit of the reader. Main statement: `parse_truncated`, a limit only cuts reading short.
-/

namespace RouteNotation.Xml

theorem exceeds_iff {limit depth : Nat} (positive : 0 < limit) (counted : limit < 65535) :
    exceeds limit depth ↔ limit < depth := by
  simp only [exceeds, Bool.and_eq_true, decide_eq_true_eq]
  omega

/-- A limit of the size to which depth is counted is none. -/
theorem parse_largestLimit (bytes : List UInt8) : parse 65535 bytes = parse 0 bytes := by
  obtain ⟨depth, deep, -⟩ := goesDeep_parse bytes
  apply deep.passes
  simp only [exceeds, Bool.and_eq_false_imp, decide_eq_false_iff_not]
  omega

/-- Every input has a depth, that of its tree if it has one. Under a limit that keeps this depth,
reading gives what it gives without a limit, a tree or an error. Under a smaller limit it stops with
an error about the limit. -/
theorem parse_truncated (bytes : List UInt8) : ∃ depth,
    (∀ root, parse 0 bytes = .ok root → root.height = depth) ∧
    ∀ limit, 0 < limit → limit < 65535 →
      (depth ≤ limit → parse limit bytes = parse 0 bytes) ∧
      (limit < depth → ∃ p, parse limit bytes = .error ((Fault.tooDeep limit).errorAt p)) := by
  obtain ⟨depth, deep, height⟩ := goesDeep_parse bytes
  refine ⟨depth, height, fun limit positive counted => ⟨fun within => ?_, fun beyond => ?_⟩⟩
  · apply deep.passes
    rw [Bool.eq_false_iff, Ne, exceeds_iff positive counted]
    exact Nat.not_lt_of_le within
  · exact deep.ends limit ((exceeds_iff positive counted).2 beyond)

theorem parse_truncated_spelledTree :
    let bytes := Utf8.encode (.ofList spelledText.toList)
    parse 0 bytes = .ok spelledTree ∧ spelledTree.height = 2 ∧ parse 2 bytes = .ok spelledTree ∧
      ∃ p, parse 1 bytes = .error ((Fault.tooDeep 1).errorAt p) := by
  intro bytes
  obtain ⟨depth, height, limits⟩ := parse_truncated bytes
  have named : spelledTree.WellNamed := by decide
  have whole : parse 0 bytes = .ok spelledTree :=
    parse_of_spelling named documentSpelling_spelledTree rfl
  have two : spelledTree.height = 2 := by decide
  have depth_eq : depth = 2 := (height spelledTree whole).symm.trans two
  rw [depth_eq] at limits
  have kept := (limits 2 (by decide) (by decide)).1 (Nat.le_refl 2)
  have struck := (limits 1 (by decide) (by decide)).2 (by decide)
  exact ⟨whole, two, kept.trans whole, struck⟩

end RouteNotation.Xml
