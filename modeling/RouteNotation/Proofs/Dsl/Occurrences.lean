import RouteNotation.Proofs.Dsl.StepRoundTrip

/-!
Steps whose children all stand under one tag. Several are written as a list and read from it one by
one, each in its own shape; one alone is written as it is, and then a text is the text of an
attribute. Main statement: `readStepItem_occurrences`.
-/

namespace RouteNotation.Dsl

open Yaml OrderedMap

/-- One child under `tag`: a text, or a step of that kind with attributes alone. -/
def IsOccurrence (tag : String) : Slot → Prop
  | .nested _ => False
  | .text t _ => t = tag
  | .element t step => t = tag ∧ ∃ attributes : Attributes,
      step = ⟨tag, attributes, none, none, []⟩ ∧ ∀ key ∈ attributes.keys,
        IsTag key ∧ isTextChild key = false ∧ (Role.ofTag key).isExpression = false

/-- The step whose whole content are these children. -/
def stepOf (kind : String) (slots : List Slot) : Step := ⟨kind, .empty, none, none, slots⟩

section Occurrences
variable {kind tag : String} {slots : List Slot}

theorem tag?_of_occurrence {slot : Slot} (h : IsOccurrence tag slot) : slot.tag? = some tag := by
  cases slot with
  | nested step => exact h.elim
  | text t value => exact congrArg some h
  | element t step => exact congrArg some h.1

theorem regrouped_of_occurrence {slot : Slot} (h : IsOccurrence tag slot) :
    slot.regrouped = slot := by
  cases slot with
  | nested step => exact h.elim
  | text t value => rfl
  | element t step =>
    obtain ⟨rfl, attributes, rfl, -⟩ := h
    rfl

theorem slotsUnder_of_occurrences (h : ∀ slot ∈ slots, IsOccurrence tag slot) :
    slotsUnder (some tag) slots = slots :=
  List.filter_eq_self.2 fun slot hs => decide_eq_true (tag?_of_occurrence (h slot hs))

theorem slotTags_of_occurrences (nonempty : slots ≠ [])
    (h : ∀ slot ∈ slots, IsOccurrence tag slot) : slotTags slots = [some tag] := by
  cases slots with
  | nil => exact absurd rfl nonempty
  | cons first rest =>
    rw [List.forall_mem_cons] at h
    have others : (rest.map Slot.tag?).filter (fun t => !t == some tag) = [] := by
      rw [List.filter_eq_nil_iff]
      intro t ht
      obtain ⟨slot, hs, rfl⟩ := List.mem_map.1 ht
      simp [tag?_of_occurrence (h.2 slot hs)]
    rw [slotTags, List.map_cons, tag?_of_occurrence h.1, List.eraseDups_cons, others,
      List.eraseDups_nil]

theorem regrouped_stepOf (nonempty : slots ≠ []) (h : ∀ slot ∈ slots, IsOccurrence tag slot) :
    (stepOf kind slots).regrouped = stepOf kind slots := by
  have same : slots.map Slot.regrouped = slots.map id :=
    List.map_congr_left fun slot hs => regrouped_of_occurrence (h slot hs)
  rw [stepOf, Step.regrouped, regroup_regroupedSlots, slotTags_of_occurrences nonempty h,
    List.flatMap_singleton, slotsUnder_of_occurrences h, same, List.map_id]

/-- Attributes alone are read back from any step that can have them. -/
theorem canonicalStep_attributes {attributes : Attributes} (named : IsTag kind)
    (keys : ∀ key ∈ attributes.keys, IsAttribute kind key) :
    CanonicalStep ⟨kind, attributes, none, none, []⟩ := by
  rw [CanonicalStep]
  refine ⟨⟨named, keys, ?_, ?_, fun _ => rfl⟩, trivial⟩
  · exact fun _ he => absurd he (Option.not_mem_none _)
  · exact fun _ hs => absurd hs List.not_mem_nil

theorem isChild_of_tag (named : IsTag tag) : IsChild kind .empty none tag :=
  ⟨named, not_mem_keys_empty, nofun⟩

/-- Children under one tag are told in full, unless one is a text that could be an attribute. -/
theorem canonicalStep_stepOf (kindNamed : IsTag kind) (named : IsTag tag)
    (noLanguage : (Role.ofTag tag).isExpression = false)
    (h : ∀ slot ∈ slots, IsOccurrence tag slot)
    (told : 2 ≤ slots.length ∨ isTextChild tag ∨ ∃ step, slots = [.element tag step]) :
    CanonicalStep (stepOf kind slots) := by
  have under := slotsUnder_of_occurrences h
  rw [stepOf, CanonicalStep]
  refine ⟨⟨kindNamed, ?_, ?_, ?_, ?_⟩, canonicalSlots_iff.2 ?_⟩
  · exact fun _ hk => absurd hk not_mem_keys_empty
  · exact fun _ he => absurd he (Option.not_mem_none _)
  · intro slot hs
    have fits := h slot hs
    cases slot with
    | nested step => exact fits.elim
    | text t value =>
      obtain rfl : t = tag := fits
      refine ⟨isChild_of_tag named, ?_⟩
      rcases told with many | textChild | ⟨step, rfl⟩
      · exact .inr (by simp [isListed, under, many])
      · exact .inl textChild
      · cases List.mem_singleton.1 hs
    | element t step =>
      obtain ⟨rfl, attributes, rfl, -⟩ := fits
      exact ⟨isChild_of_tag named, rfl, by simp [isTextStep, Step.text], .inl noLanguage⟩
  · exact fun known => absurd known not_mem_keys_empty
  · intro slot hs step inside
    have fits := h slot hs
    cases slot with
    | nested step => exact fits.elim
    | text t value => cases inside
    | element t step =>
      obtain ⟨rfl, attributes, rfl, keys⟩ := fits
      cases inside
      refine canonicalStep_attributes named fun key hk => ?_
      obtain ⟨free, noText, noExpression⟩ := keys key hk
      exact ⟨free, noText, .inl noExpression⟩

/-- What is written for a canonical step is read back, with its children in groups. -/
theorem readStepItem_stepValue (path place found : String) {s : Step} (h : CanonicalStep s)
    (noText : s.text = none) : (stepValue path s).notes = [] ∧
      readStepItem place found (stepValue path s).value = pure (some s.regrouped) := by
  have plain : isTextStep s = true → shorthand? s.kind = none := by
    simp [isTextStep, noText]
  rw [stepValue, stepBody_eq path h, pure_bind]
  exact ⟨rfl, readStepItem_bodyValue place found h plain⟩

/-- A single text is written just as an attribute is. -/
theorem stepValue_text (path value : String) (notListed : branch? kind tag = none)
    (named : IsTag tag) : stepValue path (stepOf kind [.text tag value]) =
      stepValue path ⟨kind, .single tag value, none, none, []⟩ := by
  have alone : groupValue kind tag [.string value] = .string value := by
    have notSteps : tag ≠ "steps" := by
      rintro rfl
      exact absurd named (by decide)
    simp [groupValue, notSteps, notListed]
  have body : stepBody path (stepOf kind [.text tag value]) =
      pure (.mapping [entry tag (groupValue kind tag [.string value])]) := rfl
  rw [stepValue, body, alone]
  rfl

theorem branch?_of_plain (plain : (Role.ofTag kind).hasInlineExpression = false) :
    branch? kind tag = none := by
  unfold branch?
  split
  · exact absurd plain (by decide)
  · exact absurd plain (by decide)
  · exact absurd plain (by decide)
  · exact absurd plain (by decide)
  · rfl

theorem told_or_loneText (nonempty : slots ≠ []) (h : ∀ slot ∈ slots, IsOccurrence tag slot) :
    (2 ≤ slots.length ∨ isTextChild tag ∨ ∃ step, slots = [.element tag step]) ∨
      ∃ value, slots = [.text tag value] ∧ isTextChild tag = false := by
  match slots with
  | [] => exact absurd rfl nonempty
  | [slot] =>
    have fits := h slot List.mem_cons_self
    cases slot with
    | nested step => exact fits.elim
    | text t value =>
      obtain rfl : t = tag := fits
      cases textChild : isTextChild t with
      | true => exact .inl (.inr (.inl rfl))
      | false => exact .inr ⟨value, rfl, rfl⟩
    | element t step =>
      obtain ⟨rfl, -⟩ := fits
      exact .inl (.inr (.inr ⟨step, rfl⟩))
  | _ :: _ :: rest => exact .inl (.inl (by simp))

/-- Children under one tag are read back one for one, and nothing is noted, exactly if they are
several, or texts that are never attributes, or one step. A text alone becomes an attribute. -/
theorem readStepItem_occurrences (kindNamed : IsTag kind)
    (plain : (Role.ofTag kind).hasInlineExpression = false) (named : IsTag tag)
    (noLanguage : (Role.ofTag tag).isExpression = false) (nonempty : slots ≠ [])
    (h : ∀ slot ∈ slots, IsOccurrence tag slot) (path place found : String) :
    (stepValue path (stepOf kind slots)).notes = [] ∧
      (readStepItem place found (stepValue path (stepOf kind slots)).value =
          pure (some (stepOf kind slots)) ↔
        2 ≤ slots.length ∨ isTextChild tag ∨ ∃ step, slots = [.element tag step]) ∧
      ∀ value, slots = [.text tag value] → isTextChild tag = false →
        readStepItem place found (stepValue path (stepOf kind slots)).value =
          pure (some ⟨kind, .single tag value, none, none, []⟩) := by
  rcases told_or_loneText nonempty h with told | ⟨value, rfl, noTextChild⟩
  · have canonical := canonicalStep_stepOf kindNamed named noLanguage h told
    obtain ⟨notes, read⟩ := readStepItem_stepValue path place found canonical rfl
    rw [regrouped_stepOf nonempty h] at read
    refine ⟨notes, iff_of_true read told, ?_⟩
    rintro value rfl noTextChild
    rcases told with many | textChild | ⟨step, same⟩
    · exact absurd many (Nat.not_succ_le_self 1)
    · exact absurd (textChild.symm.trans noTextChild) (by decide)
    · cases same
  · have keys : ∀ key ∈ (OrderedMap.single tag value).keys, IsAttribute kind key := by
      intro key hk
      rw [mem_keys_single.1 hk]
      exact ⟨named, noTextChild, .inl noLanguage⟩
    have canonical := canonicalStep_attributes kindNamed keys
    obtain ⟨notes, read⟩ := readStepItem_stepValue path place found canonical rfl
    rw [← stepValue_text path value (branch?_of_plain plain) named] at notes read
    refine ⟨notes, iff_of_false ?_ ?_, ?_⟩
    · intro same
      rw [read] at same
      cases congrArg Noted.value same
    · rintro (many | textChild | ⟨step, same⟩)
      · exact absurd many (Nat.not_succ_le_self 1)
      · exact absurd (textChild.symm.trans noTextChild) (by decide)
      · cases same
    · rintro _ ⟨⟩ _
      exact read

/-- Both shapes in one list, with an empty text and a key that is a shorthand elsewhere. -/
def mixedOccurrences : List Slot :=
  [.text "foo" "a", .element "foo" ⟨"foo", .ofList [("x", "1"), ("uri", "")], none, none, []⟩,
    .text "foo" ""]

theorem readStepItem_occurrences_mixed :
    (∀ slot ∈ mixedOccurrences, IsOccurrence "foo" slot) ∧
      readStepItem "r" "a mapping" (stepValue "r" (stepOf "to" mixedOccurrences)).value =
        pure (some (stepOf "to" mixedOccurrences)) := by
  have occurrences : ∀ slot ∈ mixedOccurrences, IsOccurrence "foo" slot := by
    simp only [mixedOccurrences, List.forall_mem_cons]
    exact ⟨rfl, ⟨rfl, _, rfl, by decide⟩, rfl, nofun⟩
  have kindNamed : IsTag "to" := by decide
  have named : IsTag "foo" := by decide
  have told := readStepItem_occurrences kindNamed (by decide) named (by decide) (by decide)
    occurrences "r" "r" "a mapping"
  exact ⟨occurrences, told.2.1.2 (.inl (by decide))⟩

theorem readStepItem_occurrences_loneText :
    IsTag "enrich" ∧ (Role.ofTag "enrich").hasInlineExpression = false ∧ IsTag "foo" ∧
      (Role.ofTag "foo").isExpression = false ∧ IsOccurrence "foo" (.text "foo" "a") ∧
      readStepItem "r" "a mapping" (stepValue "r" (stepOf "enrich" [.text "foo" "a"])).value ≠
        pure (some (stepOf "enrich" [.text "foo" "a"])) := by
  exact ⟨by decide, by decide, by decide, by decide, rfl, by decide⟩

end Occurrences
end RouteNotation.Dsl
