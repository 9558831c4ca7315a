import RouteNotation.Proofs.Xml.PrintedTree

/-!
Trees that printing and reading leave as they are. Main statement: `reread_settled`.
-/

namespace RouteNotation.Xml

mutual

/-- Every element in the tree holds one text that is not blank, or else elements only. -/
def Element.Settled : Element → Prop
  | ⟨_, _, children⟩ =>
    (∃ value, children = [.text value] ∧ Text.isBlankText value = false) ∨
      ElementsSettled children

def ElementsSettled : List Content → Prop
  | [] => True
  | .element e :: rest => e.Settled ∧ ElementsSettled rest
  | .text _ :: _ => False

end

theorem elementsSettled_map {es : List Element} :
    ElementsSettled (es.map .element) ↔ ∀ e ∈ es, e.Settled := by
  induction es with
  | nil => simp [ElementsSettled]
  | cons e es ih => simp [ElementsSettled, ih]

theorem keptText_line (layout : Layout) (depth : Nat) :
    keptText ("\n" ++ layout.margin depth) = [] := by
  have blank : Text.isBlankText ("\n" ++ layout.margin depth) := by
    have line : Text.isBlank '\n' := by decide
    have space : Text.isBlank ' ' := by decide
    simp [Text.isBlankText, Layout.margin, line, space]
  simp [keptText, blank]

mutual

theorem reread_settled (layout : Layout) (depth : Nat) :
    {e : Element} → e.Settled → e.reread layout depth = e
  | ⟨name, attributes, children⟩, settled => by
    rw [Element.Settled] at settled
    rw [Element.reread]
    rcases settled with ⟨value, rfl, full⟩ | elements
    · simp [isTextContent, Content.element?, joinedText, Content.text?, keptText, String.join, full]
    · have same := rereadContents_settled layout depth elements
      cases children with
      | nil => rfl
      | cons c rest =>
        cases c with
        | element e => rw [if_neg (by simp [isTextContent, Content.element?]), same]
        | text value => exact absurd elements (by simp [ElementsSettled])

theorem rereadContents_settled (layout : Layout) (depth : Nat) :
    {cs : List Content} → ElementsSettled cs → rereadContents layout depth "\n" cs = cs
  | [], _ => by rw [rereadContents, keptText_line]
  | .element e :: rest, settled => by
    rw [ElementsSettled] at settled
    rw [rereadContents, keptText_line, reread_settled layout (depth + 1) settled.1,
      rereadContents_settled layout depth settled.2]
    rfl
  | .text value :: rest, settled => by
    rw [ElementsSettled] at settled
    contradiction

end
end RouteNotation.Xml
