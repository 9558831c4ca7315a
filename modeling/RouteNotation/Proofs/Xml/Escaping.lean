import RouteNotation.Xml.Entity
import RouteNotation.Xml.Escape

/-!
Escaped text. Main statements: replacing the entities of an escaped text gives the text back, and
no character that ends a piece of markup stands in one.
-/

namespace RouteNotation.Xml

/-- A plain character is passed, and each of the entities that are written is replaced. -/
theorem replaceEntities_textForm (c : Char) (rest : List Char) :
    replaceEntities none (textForm c ++ rest) = (c :: ·) <$> replaceEntities none rest := by
  unfold textForm
  split
  · simp [replaceEntities, entityChar?]
  · simp [replaceEntities, entityChar?]
  · simp [replaceEntities, entityChar?]
  · rename_i plain _ _
    have : c ≠ '&' := plain
    simp [replaceEntities, this]

theorem replaceEntities_attributeForm (c : Char) (rest : List Char) :
    replaceEntities none (attributeForm c ++ rest) = (c :: ·) <$> replaceEntities none rest := by
  unfold attributeForm
  split
  · simp [replaceEntities, entityChar?]
  · exact replaceEntities_textForm c rest

theorem replaceEntities_flatMap {form : Char → List Char}
    (h : ∀ c rest, replaceEntities none (form c ++ rest) =
      (c :: ·) <$> replaceEntities none rest) (cs : List Char) :
    replaceEntities none (cs.flatMap form) = .ok cs := by
  induction cs with
  | nil => rfl
  | cons c cs ih => rw [List.flatMap_cons, h, ih]; rfl

theorem decodeEntities_escapeText (s : String) : decodeEntities (escapeText s) = .ok s := by
  simp only [decodeEntities, escapeText, String.toList_ofList,
    replaceEntities_flatMap replaceEntities_textForm]
  exact congrArg Except.ok String.ofList_toList

theorem decodeEntities_escapeAttribute (s : String) :
    decodeEntities (escapeAttribute s) = .ok s := by
  simp only [decodeEntities, escapeAttribute, String.toList_ofList,
    replaceEntities_flatMap replaceEntities_attributeForm]
  exact congrArg Except.ok String.ofList_toList

theorem lt_not_mem_textForm (c : Char) : '<' ∉ textForm c := by
  unfold textForm
  split
  · decide
  · decide
  · decide
  · rename_i lt _
    simpa using Ne.symm lt

theorem lt_not_mem_escapeText (s : String) : '<' ∉ (escapeText s).toList := by
  simp only [escapeText, String.toList_ofList, List.mem_flatMap, not_exists, not_and]
  exact fun c _ => lt_not_mem_textForm c

theorem quote_not_mem_attributeForm (c : Char) : '"' ∉ attributeForm c := by
  unfold attributeForm textForm
  split
  · decide
  · rename_i quote
    split
    · decide
    · decide
    · decide
    · simpa using Ne.symm quote

theorem quote_not_mem_escapeAttribute (s : String) : '"' ∉ (escapeAttribute s).toList := by
  simp only [escapeAttribute, String.toList_ofList, List.mem_flatMap, not_exists, not_and]
  exact fun c _ => quote_not_mem_attributeForm c

theorem escapeText_append (s t : String) : escapeText (s ++ t) = escapeText s ++ escapeText t := by
  simp [escapeText]

theorem escapeText_of_plain {s : String} (h : ∀ c ∈ s.toList, textForm c = [c]) :
    escapeText s = s := by
  have : s.toList.flatMap textForm = s.toList := by
    rw [List.flatMap_def, List.map_congr_left h]
    simp [← List.flatMap_def]
  simp [escapeText, this]

end RouteNotation.Xml
