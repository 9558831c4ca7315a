import RouteNotation.Proofs.Dsl.StepFields

/-!
Steps read back from their fields. Each field is judged as what it was written for; the children
come back group by group. Main statement: `readBody_stepFields`.
-/

namespace RouteNotation.Dsl

open Yaml OrderedMap

/-- Reading one field of a body. -/
def readField (path : String) (role : Role) (step : Step) (key : String) (v : Value) : Noted Step :=
  readBody path role step [entry key v]

section Bodies
variable {path : String} {role : Role} {step : Step}

theorem readBody_cons (e : Value × Value) (rest : List (Value × Value)) :
    readBody path role step (e :: rest) =
      readBody path role step [e] >>= fun step => readBody path role step rest := by
  obtain ⟨k, v⟩ := e
  simp only [readBody]
  cases k.scalarText? with
  | none => simp only [bind_assoc, pure_bind]
  | some key =>
    dsimp only
    cases FieldRule.of role step.expression.isSome key v <;>
      simp only [bind_assoc, pure_bind]
    split <;> simp only [bind_assoc, pure_bind]

theorem Reads.readBody {fields : Fields} {t : Step}
    (h : Reads (readField path role) step fields t) :
    readBody path role step fields.toEntries = pure t := by
  rw [← h, Fields.toEntries]
  clear h
  induction fields.entries generalizing step with
  | nil => rfl
  | cons f fs ih =>
    rw [List.map_cons, readBody_cons, List.foldlM_cons]
    exact bind_congr fun s => ih

theorem rule_of_unreserved {has : Bool} {key : String} {v : Value}
    (unreserved : isReserved key = false) :
    FieldRule.of role has key v = match Role.ofTag key with
      | .expression language =>
        if v.mapping?.isSome || (v.isScalar && role.takesScalarExpression) then
          if has then .lateExpression else .expression language
        else .child
      | _ => .child := by
  unfold FieldRule.of
  split
  · exact absurd unreserved (by decide)
  · exact absurd unreserved (by decide)
  · exact absurd unreserved (by decide)
  · exact absurd unreserved (by decide)
  · exact absurd unreserved (by decide)
  · rfl

/-- What no expression can be is an attribute or a child. -/
theorem rule_child {has : Bool} {key : String} {v : Value} (unreserved : isReserved key = false)
    (noExpression : (Role.ofTag key).isExpression = false ∨
      (v.mapping?.isSome || (v.isScalar && role.takesScalarExpression)) = false) :
    FieldRule.of role has key v = .child := by
  rw [rule_of_unreserved unreserved]
  cases other : Role.ofTag key with
  | expression language =>
    rcases noExpression with no | no
    · rw [other] at no
      cases no
    · dsimp only
      rw [no, if_neg (by decide)]
  | container _ => rfl
  | clause => rfl
  | plain => rfl

theorem readField_child {key : String} {v : Value}
    (rule : FieldRule.of role step.expression.isSome key v = .child) :
    readField path role step key v = readChild path key step v := by
  have scalar : (Value.string key).scalarText? = some key := rfl
  simp only [readField, entry, readBody, scalar, rule, bind_pure]

theorem readField_attribute {kind key : String} (h : IsAttribute kind key) (text : String) :
    readField path (Role.ofTag kind) step key (.string text) =
      pure (step.withAttributes (step.attributes.insert key text)) := by
  obtain ⟨⟨valid, unreserved⟩, noText, noExpression⟩ := h
  have rule : FieldRule.of (Role.ofTag kind) step.expression.isSome key (.string text) =
      .child := by
    apply rule_child unreserved
    rcases noExpression with no | no
    · exact .inl no
    · rw [no, Bool.and_false]
      exact .inr rfl
  have scalar : (Value.string text).isScalar = true := rfl
  rw [readField_child rule]
  simp only [readChild, valid, Bool.not_true, Bool.false_eq_true, if_false, readTextField, scalar,
    noText, Bool.not_false, Bool.and_self, if_true, readAttribute_text valid, pure_bind]

theorem readField_text (text : String) :
    readField path role step "text" (.string text) = pure (step.withText (some text)) := by
  have scalar : (Value.string text).scalarText? = some text := rfl
  have key : (Value.string "text").scalarText? = some "text" := rfl
  simp only [readField, entry, readBody, key, FieldRule.of, scalar]

theorem readExpression_expressionValue {e : Expression}
    (keys : ∀ key ∈ e.attributes.keys, Xml.isValidName key ∧ key ≠ "expression") :
    readExpression path e.language (expressionValue e) = pure e := by
  obtain ⟨language, text, attributes⟩ := e
  have all : Reads (fun e key v => readExpressionEntry path e (entry key v))
      ⟨language, none, .empty⟩
      ((noFields.putText? "expression" text).putAttributes attributes)
      ⟨language, text, attributes⟩ := by
    refine Reads.putAttributes (fun m => (⟨language, text, m⟩ : Expression)) ?_ ?_ ?_
    · exact reads_noFields.putText? (fun text => (⟨language, text, .empty⟩ : Expression))
        "expression" not_mem_keys_noFields (fun text => rfl) text
    · intro key hk known
      rcases Fields.mem_keys_putText?.1 known with old | ⟨_, same⟩
      · exact not_mem_keys_noFields old
      · exact (keys key hk).2 same
    · intro m key hk text
      have scalar : (Value.string key).scalarText? = some key := rfl
      unfold readExpressionEntry
      simp only [entry, scalar]
      split
      · rename_i same
        exact absurd (Option.some.inj same) (keys key hk).2
      · rename_i other
        cases other
        rw [readAttribute_text (keys key hk).1, pure_bind]
      · rename_i none
        cases none
  rw [expressionValue, Fields.toValue_eq, readExpression, Fields.toEntries, List.foldlM_map]
  exact all

theorem readField_expression {kind : String} {e : Expression} (first : step.expression = none)
    (keys : ∀ key ∈ e.attributes.keys, Xml.isValidName key ∧ key ≠ "expression") :
    readField path (Role.ofTag kind) step (expressionKey kind e) (expressionField kind e) =
      pure (step.withExpression e) := by
  have none : step.expression.isSome = false := by rw [first]; rfl
  unfold expressionKey expressionField
  split
  · have rule : FieldRule.of (Role.ofTag kind) step.expression.isSome e.language.tag
        (expressionValue e) = .expression e.language := by
      rw [rule_of_unreserved (isReserved_language e.language), role_language, none]
      rfl
    have scalar : (Value.string e.language.tag).scalarText? = some e.language.tag := rfl
    simp only [readField, entry, readBody, scalar, rule, readExpression_expressionValue keys,
      pure_bind]
  · have key : (Value.string "expression").scalarText? = some "expression" := rfl
    have wrapper : wrapped? (.ofEntry e.language.tag (expressionValue e)) =
        some (e.language, expressionValue e) := by
      have language := Language.ofTag?_tag e.language
      have scalar : (Value.string e.language.tag).scalarText? = some e.language.tag := rfl
      simp [wrapped?, Value.ofEntry, Value.mapping?, Value.untagged, firstEntry?, entry, scalar,
        language]
    simp only [readField, entry, readBody, key, FieldRule.of, readWrapper, wrapper, none,
      Bool.false_eq_true, if_false, readExpression_expressionValue keys, pure_bind, bind_pure]

end Bodies

section Children

/-- The step in a slot is read back from its fields. -/
def ReadsBack (slot : Slot) : Prop :=
  ∀ step ∈ slot.step?, ∀ path, readBody path (.ofTag step.kind) (.bare step.kind)
    (stepFields step).toEntries = pure step.regrouped

variable {kind : String} {attributes : Attributes} {text : Option String}
  {expression : Option Expression} {before : List Slot} {path : String}

theorem readStepItem_ofEntry (found kind : String) (body : Value) :
    readStepItem path found (.ofEntry kind body) = readStep (childPath path kind) kind body := by
  have scalar : (Value.string kind).scalarText? = some kind := rfl
  simp only [Value.ofEntry, entry, readStepItem, scalar, List.isEmpty_nil, Bool.not_true,
    Bool.false_eq_true, if_false]

theorem readStep_fields {step : Step} (tag : IsTag step.kind)
    (back : ∀ path, readBody path (.ofTag step.kind) (.bare step.kind)
      (stepFields step).toEntries = pure step.regrouped) :
    readStep path step.kind (stepFields step).toValue = pure (some step.regrouped) := by
  rw [Fields.toValue_eq]
  simp only [readStep, tag.1, tag.2, Bool.not_true, Bool.or_self, Bool.false_eq_true, if_false,
    back, pure_bind]

/-- A step with fields is no text that stands for one. -/
theorem collapse?_fields (step : Step) (kind : String) (fields : Fields) :
    collapse? step (.ofEntry kind fields.toValue) = none := rfl

theorem readNestedItems_slots {slots : List Slot}
    (h : ∀ slot ∈ slots, ∃ step, slot = .nested step ∧ IsTag step.kind ∧ ReadsBack slot)
    (index : Nat) :
    readNestedItems path true index ⟨kind, attributes, text, expression, before⟩
      (slots.map slotValue) =
        pure ⟨kind, attributes, text, expression, before ++ slots.map Slot.regrouped⟩ := by
  induction slots generalizing before index with
  | nil => simp [readNestedItems]
  | cons slot rest ih =>
    rw [List.forall_mem_cons] at h
    obtain ⟨⟨step, rfl, tag, back⟩, others⟩ := h
    rw [List.map_cons, slotValue, readNestedItems, if_pos rfl, collapse?_fields,
      readStepItem_ofEntry, readStep_fields tag (back step rfl), pure_bind]
    change readNestedItems path true (index + 1)
      ⟨kind, attributes, text, expression, before ++ [.nested step.regrouped]⟩ _ = _
    rw [ih others, List.map_cons, Slot.regrouped, List.append_assoc]
    rfl

/-- Children under one tag, each in the list as it is written. -/
theorem readChildItems_slots {tag : String} {slots : List Slot}
    (h : ∀ slot ∈ slots, slot.tag? = some tag ∧ (∀ step ∈ slot.step?, step.kind = tag) ∧
      ReadsBack slot) :
    readChildItems path tag ⟨kind, attributes, text, expression, before⟩ (slots.map slotValue) =
      pure ⟨kind, attributes, text, expression, before ++ slots.map Slot.regrouped⟩ := by
  induction slots generalizing before with
  | nil => simp [readChildItems]
  | cons slot rest ih =>
    rw [List.forall_mem_cons] at h
    obtain ⟨⟨same, named, back⟩, others⟩ := h
    cases slot with
    | nested step => cases same
    | text t value =>
      cases same
      have scalar : (Value.string value).scalarText? = some value := rfl
      simp only [List.map_cons, slotValue, readChildItems, readTextChild, scalar, pure_bind]
      change readChildItems path tag
        ⟨kind, attributes, text, expression, before ++ [.text tag value]⟩ _ = _
      rw [ih others, Slot.regrouped, List.append_assoc]
      rfl
    | element t step =>
      cases same
      have own := back step rfl
      rw [named step rfl] at own
      rw [List.map_cons, slotValue, Fields.toValue_eq, readChildItems, own, pure_bind]
      change readChildItems path tag
        ⟨kind, attributes, text, expression, before ++ [.element tag step.regrouped]⟩ _ = _
      rw [ih others, List.map_cons, Slot.regrouped, List.append_assoc]
      rfl

variable {slots : List Slot}

theorem groupValue_steps (values : List Value) :
    groupValue kind "steps" values = .sequence values := by
  unfold groupValue
  split
  · rw [if_pos (by simp)]
  · rfl

theorem groupValue_listed {tag : String} (h : isListed kind tag slots = true) :
    groupValue kind tag ((slotsUnder (some tag) slots).map slotValue) =
      .sequence ((slotsUnder (some tag) slots).map slotValue) := by
  unfold groupValue
  split
  · rename_i v values
    have one : (slotsUnder (some tag) slots).length = 1 := by
      rw [← List.length_map slotValue, values]
      rfl
    have list : branch? kind tag = some .list := by
      rw [isListed, one] at h
      simpa using h
    rw [if_pos (by simp [list]), values]
  · rfl

/-- A group that is no list has one member, which stands alone. -/
theorem alone_of_not_listed {tag : String} (known : some tag ∈ slotTags slots)
    (unreserved : isReserved tag = false) (h : isListed kind tag slots = false) :
    ∃ slot, slotsUnder (some tag) slots = [slot] ∧
      groupValue kind tag ((slotsUnder (some tag) slots).map slotValue) = slotValue slot := by
  obtain ⟨slot, hs, same⟩ := mem_slotTags.1 known
  simp only [isListed, Bool.or_eq_false_iff, decide_eq_false_iff_not, Nat.not_le] at h
  have here : slot ∈ slotsUnder (some tag) slots := mem_slotsUnder.2 ⟨hs, same⟩
  cases under : slotsUnder (some tag) slots with
  | nil =>
    rw [under] at here
    cases here
  | cons first rest =>
    cases rest with
    | nil =>
      have notSteps : tag ≠ "steps" := by
        rintro rfl
        exact absurd unreserved (by decide)
      refine ⟨first, rfl, ?_⟩
      simp only [List.map_cons, List.map_nil, groupValue]
      rw [if_neg (by simpa [notSteps] using h.1)]
    | cons second more =>
      rw [under] at h
      simp only [List.length_cons] at h
      omega

theorem readField_nested {slots : List Slot} (container : (Role.ofTag kind).isContainer = true)
    (h : ∀ slot ∈ slots, ∃ step, slot = .nested step ∧ IsTag step.kind ∧ ReadsBack slot) :
    readField path (Role.ofTag kind) ⟨kind, attributes, text, expression, before⟩ "steps"
      (.sequence (slots.map slotValue)) =
        pure ⟨kind, attributes, text, expression, before ++ slots.map Slot.regrouped⟩ := by
  have key : (Value.string "steps").scalarText? = some "steps" := rfl
  simp only [readField, entry, readBody, key, FieldRule.of, container, Bool.not_true,
    Bool.false_eq_true, if_false, readNested, readNestedItems_slots h, pure_bind]

theorem readField_list {tag : String} {slots : List Slot} (free : IsTag tag)
    (h : ∀ slot ∈ slots, slot.tag? = some tag ∧ (∀ step ∈ slot.step?, step.kind = tag) ∧
      ReadsBack slot) :
    readField path (Role.ofTag kind) ⟨kind, attributes, text, expression, before⟩ tag
      (.sequence (slots.map slotValue)) =
        pure ⟨kind, attributes, text, expression, before ++ slots.map Slot.regrouped⟩ := by
  rw [readField_child (rule_child free.2 (.inr rfl))]
  simp only [readChild, free.1, Bool.not_true, Bool.false_eq_true, if_false,
    readChildItems_slots h]

theorem readField_single {tag : String} {slot : Slot} (same : slot.tag? = some tag)
    (fits : CanonicalSlot kind attributes expression slots slot)
    (single : isListed kind tag slots = false) (back : ReadsBack slot) :
    readField path (Role.ofTag kind) ⟨kind, attributes, text, expression, before⟩ tag
      (slotValue slot) =
        pure ⟨kind, attributes, text, expression, before ++ [slot.regrouped]⟩ := by
  cases slot with
  | nested step => cases same
  | text t value =>
    cases same
    obtain ⟨⟨free, _⟩, textChild | listed⟩ := fits
    · have noExpression : (Role.ofTag tag).isExpression = false := by
        simp only [isTextChild, List.contains_cons, List.contains_nil, Bool.or_false,
          Bool.or_eq_true, beq_iff_eq] at textChild
        rcases textChild with rfl | rfl <;> decide
      have scalar : (Value.string value).scalarText? = some value := rfl
      rw [slotValue, readField_child (rule_child free.2 (.inl noExpression))]
      simp only [readChild, free.1, Bool.not_true, Bool.false_eq_true, if_false, readTextField,
        textChild, Bool.and_false, readTextChild, scalar]
      rfl
    · exact absurd (listed.symm.trans single) (by decide)
  | element t step =>
    cases same
    obtain ⟨⟨free, _⟩, named, _, noExpression | listed⟩ := fits
    · have own := back step rfl
      rw [named] at own
      rw [slotValue, readField_child (rule_child free.2 (.inl noExpression)), Fields.toValue_eq]
      simp only [readChild, free.1, Bool.not_true, Bool.false_eq_true, if_false, own, pure_bind]
      rfl
    · exact absurd (listed.symm.trans single) (by decide)

/-- Every group of children is read back where it stands. -/
theorem readField_group (body : CanonicalBody kind attributes expression slots)
    (tags : ∀ slot ∈ slots, ∀ step ∈ slot.step?, IsTag step.kind)
    (back : ∀ slot ∈ slots, ReadsBack slot) {tag : Option String} (known : tag ∈ slotTags slots) :
    readField path (Role.ofTag kind) ⟨kind, attributes, text, expression, before⟩ (groupKey tag)
      (groupValue kind (groupKey tag) ((slotsUnder tag slots).map slotValue)) =
        pure ⟨kind, attributes, text, expression,
          before ++ (slotsUnder tag slots).map Slot.regrouped⟩ := by
  obtain ⟨one, hone, oneTag⟩ := mem_slotTags.1 known
  -- Nested steps, a list and a child alone are three ways to write a group, and to read one.
  cases tag with
  | none =>
    rw [show groupKey none = "steps" from rfl, groupValue_steps]
    apply readField_nested (body.isContainer hone oneTag)
    intro slot hs
    obtain ⟨member, same⟩ := mem_slotsUnder.1 hs
    obtain ⟨step, rfl⟩ := Slot.eq_nested same
    exact ⟨step, rfl, tags _ member step rfl, back _ member⟩
  | some tag =>
    have free : IsTag tag := (body.isChild hone oneTag).1
    rw [show groupKey (some tag) = tag from rfl]
    cases listed : isListed kind tag slots with
    | true =>
      rw [groupValue_listed listed]
      apply readField_list free
      intro slot hs
      obtain ⟨member, same⟩ := mem_slotsUnder.1 hs
      exact ⟨same, body.kind_eq member same, back _ member⟩
    | false =>
      obtain ⟨slot, under, value⟩ := alone_of_not_listed known free.2 listed
      have here : slot ∈ slotsUnder (some tag) slots := under ▸ List.mem_singleton_self slot
      obtain ⟨member, same⟩ := mem_slotsUnder.1 here
      rw [value, under, readField_single same (body.children _ member) listed (back _ member)]
      rfl

theorem reads_ownFields (body : CanonicalBody kind attributes expression slots) :
    Reads (readField path (.ofTag kind)) (.bare kind) (ownFields kind attributes text expression)
      ⟨kind, attributes, text, expression, []⟩ := by
  have keys : Reads (readField path (.ofTag kind)) (.bare kind) (noFields.putAttributes attributes)
      ⟨kind, attributes, none, none, []⟩ :=
    reads_noFields.putAttributes (fun m => (⟨kind, m, none, none, []⟩ : Step))
      (fun _ _ => not_mem_keys_noFields)
      fun m key hk text => readField_attribute (body.keys key hk) text
  have noText : "text" ∉ (noFields.putAttributes attributes).keys := by
    rw [Fields.mem_keys_putAttributes]
    rintro (known | known)
    · exact not_mem_keys_noFields known
    · exact absurd (body.keys _ known).1 (by decide)
  have texts := keys.putText? (fun text => (⟨kind, attributes, text, none, []⟩ : Step)) "text"
    noText readField_text text
  unfold ownFields
  cases expression with
  | none => exact texts
  | some e =>
    obtain ⟨other, valid⟩ := body.expressions e rfl
    rw [addExpression_some]
    refine texts.put (expressionKey kind e) ?_ (readField_expression rfl valid)
    rw [Fields.mem_keys_putText?, Fields.mem_keys_putAttributes]
    rintro ((known | known) | ⟨_, same⟩)
    · exact not_mem_keys_noFields known
    · exact other known
    · exact expressionKey_ne (by decide) (by decide) e same

theorem reads_groups (body : CanonicalBody kind attributes expression slots)
    (tags : ∀ slot ∈ slots, ∀ step ∈ slot.step?, IsTag step.kind)
    (back : ∀ slot ∈ slots, ReadsBack slot) :
    Reads (readField path (.ofTag kind)) (.bare kind)
      ((slotTags slots).foldl (putGroup kind slots) (ownFields kind attributes text expression))
      ⟨kind, attributes, text, expression,
        (slotTags slots).flatMap fun tag => (slotsUnder tag slots).map Slot.regrouped⟩ := by
  refine Reads.putEach (fun some => (⟨kind, attributes, text, expression,
    some.flatMap fun tag => (slotsUnder tag slots).map Slot.regrouped⟩ : Step))
    (reads_ownFields body) (body.groupKey_not_mem text) (nodup_groupKeys body.tag?_ne) ?_
  intro before tag known
  rw [List.flatMap_append, List.flatMap_singleton]
  exact readField_group body tags back known

end Children

mutual

/-- A canonical step is read from its fields with its children grouped, and nothing is noted. -/
theorem readBody_stepFields (path : String) : {s : Step} → CanonicalStep s →
    readBody path (.ofTag s.kind) (.bare s.kind) (stepFields s).toEntries = pure s.regrouped
  | ⟨kind, attributes, text, expression, slots⟩, h => by
    rw [CanonicalStep] at h
    obtain ⟨body, below⟩ := h
    have back := readsBack_slots below
    rw [stepFields_eq body, Step.regrouped, regroup_regroupedSlots]
    exact Reads.readBody (reads_groups body (fun slot hs step found =>
      (canonicalSlots_iff.1 below slot hs step found).tag) back)

theorem readsBack_slots : {slots : List Slot} → CanonicalSlots slots →
    ∀ slot ∈ slots, ReadsBack slot
  | [], _ => nofun
  | .nested step :: rest, h | .element _ step :: rest, h => by
    rw [CanonicalSlots] at h
    refine List.forall_mem_cons.2 ⟨?_, readsBack_slots h.2⟩
    intro s hs path
    cases hs
    exact readBody_stepFields path h.1
  | .text _ _ :: rest, h => by
    rw [CanonicalSlots] at h
    exact List.forall_mem_cons.2 ⟨nofun, readsBack_slots h⟩

end

/-- A step in a list of steps. One that is a text alone must have no shorthand. -/
theorem readStepItem_bodyValue (path found : String) {s : Step} (h : CanonicalStep s)
    (plain : isTextStep s = true → shorthand? s.kind = none) :
    readStepItem path found (.ofEntry s.kind (bodyValue s)) = pure (some s.regrouped) := by
  rw [readStepItem_ofEntry, bodyValue]
  split
  · rename_i text
    have noShorthand := plain text
    have tag := h.tag
    obtain ⟨kind, attributes, text?, expression, slots⟩ := s
    simp only [isTextStep, Step.attributes, Step.text, Step.expression, Step.slots,
      Bool.and_eq_true, List.isEmpty_iff, Option.isNone_iff_eq_none] at text
    obtain ⟨⟨⟨noAttributes, present⟩, rfl⟩, rfl⟩ := text
    have none : attributes = .empty := OrderedMap.ext (List.isEmpty_iff.1 noAttributes)
    obtain ⟨value, rfl⟩ := Option.isSome_iff_exists.1 present
    simp only [Step.kind] at noShorthand tag
    have scalar : (Value.string value).scalarText? = some value := rfl
    simp only [readStep, Step.kind, Step.text, tag.1, tag.2, Bool.not_true, Bool.or_self,
      Bool.false_eq_true, if_false, Option.getD_some, scalar, textStep, noShorthand, none]
    rfl
  · exact readStep_fields h.tag fun path => readBody_stepFields path h

end RouteNotation.Dsl
