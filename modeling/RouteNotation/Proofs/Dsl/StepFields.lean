import RouteNotation.Proofs.Dsl.Fields
import RouteNotation.Proofs.Dsl.StepBounds
import RouteNotation.Proofs.Route.Regrouping
import RouteNotation.Proofs.Route.Tags

/-!
Steps that a value tree tells in full, and what is written of them. No group of children loses its
place, so that the fields can be said without diagnostics. Main statement: `stepBody_eq`.
-/

namespace RouteNotation

namespace Slot

def isText : Slot → Bool
  | .text _ _ => true
  | .nested _ | .element _ _ => false

/-- The step in a slot. -/
def step? : Slot → Option Step
  | .nested step | .element _ step => some step
  | .text _ _ => none

theorem eq_nested {slot : Slot} (h : slot.tag? = none) : ∃ step, slot = .nested step := by
  cases slot with
  | nested step => exact ⟨step, rfl⟩
  | text tag value => cases h
  | element tag step => cases h

end Slot

namespace Dsl

open Yaml OrderedMap

instance (tag : String) : Decidable (IsTag tag) := inferInstanceAs (Decidable (_ ∧ _))

/-- A key that is read as an attribute of a step of this kind. -/
def IsAttribute (kind key : String) : Prop :=
  IsTag key ∧ isTextChild key = false ∧
    ((Role.ofTag key).isExpression = false ∨ (Role.ofTag kind).takesScalarExpression = false)

/-- The key of an expression in the body of a step of this kind. -/
def expressionKey (kind : String) (e : Expression) : String :=
  if (Role.ofTag kind).hasInlineExpression then e.language.tag else "expression"

/-- What stands under that key. -/
def expressionField (kind : String) (e : Expression) : Value :=
  if (Role.ofTag kind).hasInlineExpression then expressionValue e
  else .ofEntry e.language.tag (expressionValue e)

/-- A tag that has the body of a step to itself. -/
def IsChild (kind : String) (attributes : Attributes) (expression : Option Expression)
    (tag : String) : Prop :=
  IsTag tag ∧ tag ∉ attributes.keys ∧ ∀ e ∈ expression, tag ≠ expressionKey kind e

/-- Whether the children under a tag are written as a list. -/
def isListed (kind tag : String) (slots : List Slot) : Bool :=
  branch? kind tag = some .list || 2 ≤ (slotsUnder (some tag) slots).length

/-- A child that is read as what it is. A text outside lists could be an attribute, a step outside
lists an expression, and a step that is a text alone is a text everywhere. -/
def CanonicalSlot (kind : String) (attributes : Attributes) (expression : Option Expression)
    (slots : List Slot) : Slot → Prop
  | .nested step => (Role.ofTag kind).isContainer ∧ isTextStep step = false
  | .text tag _ => IsChild kind attributes expression tag ∧
      (isTextChild tag ∨ isListed kind tag slots)
  | .element tag step => IsChild kind attributes expression tag ∧ step.kind = tag ∧
      isTextStep step = false ∧ ((Role.ofTag tag).isExpression = false ∨ isListed kind tag slots)

/-- Whether the fields of a step are all scalars. -/
def isFlat (s : Step) : Bool :=
  s.expression.isNone && s.slots.all Slot.isText && (s.slots.map Slot.tag?).Nodup

/-- Whether the children could be taken for the parameters of a URI. -/
def hasFlatParameters (slots : List Slot) : Bool :=
  match slotsUnder (some Uri.parametersKey) slots with
  | [.element _ step] => isFlat step
  | _ => false

/-- A body in which every field is read as what it is. -/
structure CanonicalBody (kind : String) (attributes : Attributes)
    (expression : Option Expression) (slots : List Slot) : Prop where
  tag : IsTag kind
  keys : ∀ key ∈ attributes.keys, IsAttribute kind key
  expressions : ∀ e ∈ expression, expressionKey kind e ∉ attributes.keys ∧
    ∀ key ∈ e.attributes.keys, Xml.isValidName key ∧ key ≠ "expression"
  children : ∀ slot ∈ slots, CanonicalSlot kind attributes expression slots slot
  uri : Uri.uriKey ∈ attributes.keys → hasFlatParameters slots = false

mutual

/-- A step that a value tree tells in full, up to the order of its groups. -/
def CanonicalStep : Step → Prop
  | ⟨kind, attributes, _, expression, slots⟩ =>
    CanonicalBody kind attributes expression slots ∧ CanonicalSlots slots

def CanonicalSlots : List Slot → Prop
  | [] => True
  | .nested step :: rest => CanonicalStep step ∧ CanonicalSlots rest
  | .text _ _ :: rest => CanonicalSlots rest
  | .element _ step :: rest => CanonicalStep step ∧ CanonicalSlots rest

end

theorem CanonicalStep.tag {s : Step} (h : CanonicalStep s) : IsTag s.kind := by
  obtain ⟨_, _, _, _, _⟩ := s
  rw [CanonicalStep] at h
  exact h.1.tag

theorem canonicalSlots_iff {slots : List Slot} :
    CanonicalSlots slots ↔ ∀ slot ∈ slots, ∀ step ∈ slot.step?, CanonicalStep step := by
  induction slots with
  | nil => simp [CanonicalSlots]
  | cons slot rest ih =>
    rw [List.forall_mem_cons, ← ih]
    cases slot <;> simp [CanonicalSlots, Slot.step?]

section Decidable

instance (kind key : String) : Decidable (IsAttribute kind key) :=
  inferInstanceAs (Decidable (_ ∧ _))

instance (kind : String) (attributes : Attributes) (expression : Option Expression)
    (tag : String) : Decidable (IsChild kind attributes expression tag) :=
  inferInstanceAs (Decidable (IsTag tag ∧ tag ∉ attributes.keys ∧
    ∀ e ∈ expression, tag ≠ expressionKey kind e))

instance (kind : String) (attributes : Attributes) (expression : Option Expression)
    (slots : List Slot) : (slot : Slot) →
      Decidable (CanonicalSlot kind attributes expression slots slot)
  | .nested _ | .text _ _ | .element _ _ => inferInstanceAs (Decidable (_ ∧ _))

instance (kind : String) (attributes : Attributes) (expression : Option Expression)
    (slots : List Slot) : Decidable (CanonicalBody kind attributes expression slots) :=
  decidable_of_iff (IsTag kind ∧ (∀ key ∈ attributes.keys, IsAttribute kind key) ∧
    (∀ e ∈ expression, expressionKey kind e ∉ attributes.keys ∧
      ∀ key ∈ e.attributes.keys, Xml.isValidName key ∧ key ≠ "expression") ∧
    (∀ slot ∈ slots, CanonicalSlot kind attributes expression slots slot) ∧
    (Uri.uriKey ∈ attributes.keys → hasFlatParameters slots = false))
    ⟨fun ⟨tag, keys, expressions, children, uri⟩ => ⟨tag, keys, expressions, children, uri⟩,
      fun ⟨tag, keys, expressions, children, uri⟩ => ⟨tag, keys, expressions, children, uri⟩⟩

mutual

def decideCanonicalStep : (s : Step) → Decidable (CanonicalStep s)
  | ⟨kind, attributes, _, expression, slots⟩ =>
    have := decideCanonicalSlots slots
    inferInstanceAs (Decidable (CanonicalBody kind attributes expression slots ∧
      CanonicalSlots slots))

def decideCanonicalSlots : (ss : List Slot) → Decidable (CanonicalSlots ss)
  | [] => isTrue trivial
  | .nested step :: rest | .element _ step :: rest =>
    have := decideCanonicalStep step
    have := decideCanonicalSlots rest
    inferInstanceAs (Decidable (CanonicalStep step ∧ CanonicalSlots rest))
  | .text _ _ :: rest => decideCanonicalSlots rest

end

instance (s : Step) : Decidable (CanonicalStep s) := decideCanonicalStep s

end Decidable

mutual

/-- The fields in the body of a step, when each group has a place. -/
def stepFields : Step → Fields
  | ⟨kind, attributes, text, expression, slots⟩ =>
    (groups (slotFields slots)).entries.foldl
      (fun m group => m.put group.1 (groupValue kind group.1 group.2))
      (ownFields kind attributes text expression)

/-- The value of each child, with its key. -/
def slotFields : List Slot → List (String × Value)
  | [] => []
  | .nested step :: rest =>
      ("steps", .ofEntry step.kind (stepFields step).toValue) :: slotFields rest
  | .text tag value :: rest => (tag, .string value) :: slotFields rest
  | .element tag step :: rest => (tag, (stepFields step).toValue) :: slotFields rest

end

def slotValue : Slot → Value
  | .nested step => .ofEntry step.kind (stepFields step).toValue
  | .text _ value => .string value
  | .element _ step => (stepFields step).toValue

/-- The key that a group of children stands under. -/
def groupKey (tag : Option String) : String := tag.getD "steps"

theorem slotFields_eq_map (slots : List Slot) :
    slotFields slots = slots.map fun slot => (groupKey slot.tag?, slotValue slot) := by
  induction slots with
  | nil => rfl
  | cons slot rest ih =>
    cases slot <;> simp only [slotFields, ih, List.map_cons] <;> rfl

section Groups

theorem groups_concat (values : List (String × Value)) (v : String × Value) :
    groups (values ++ [v]) = (groups values).append v.1 [v.2] := by
  simp [groups]

theorem keys_groups (values : List (String × Value)) :
    (groups values).keys = (values.map Prod.fst).eraseDups := by
  rw [← List.reverse_reverse values]
  induction values.reverse with
  | nil => rfl
  | cons v back ih =>
    rw [List.reverse_cons]
    generalize back.reverse = front at ih ⊢
    rw [groups_concat, OrderedMap.append, keys_update, ih, List.map_append, List.eraseDups_append]
    split
    · rename_i known
      rw [List.mem_eraseDups] at known
      simp [List.removeAll, List.filter_cons_of_neg, known]
    · rename_i new
      rw [List.mem_eraseDups] at new
      simp [List.removeAll, List.filter_cons_of_pos, new, List.eraseDups_cons]

theorem get?_groups (values : List (String × Value)) (key : String) :
    ((groups values).get? key).getD [] = (values.filter (·.1 = key)).map Prod.snd := by
  rw [← List.reverse_reverse values]
  induction values.reverse with
  | nil => rfl
  | cons v back ih =>
    rw [List.reverse_cons, groups_concat, OrderedMap.append, get?_update, List.filter_append,
      List.map_append, ← ih]
    by_cases here : key = v.1
    · simp [here]
    · simp [here, Ne.symm here]

theorem entries_groups_eq (values : List (String × Value)) : (groups values).entries =
    (values.map Prod.fst).eraseDups.map fun key =>
      (key, (values.filter (·.1 = key)).map Prod.snd) := by
  rw [entries_eq_map_keys _ [], keys_groups]
  simp only [get?_groups]

variable {kind : String} {attributes : Attributes} {expression : Option Expression}
  {slots : List Slot}

theorem groupKey_injective (h : ∀ slot ∈ slots, slot.tag? ≠ some "steps") :
    ∀ a ∈ slots.map Slot.tag?, ∀ b ∈ slots.map Slot.tag?, groupKey a = groupKey b → a = b := by
  intro a ha b hb same
  obtain ⟨s, hs, rfl⟩ := List.mem_map.1 ha
  obtain ⟨t, ht, rfl⟩ := List.mem_map.1 hb
  have other := h s hs
  have another := h t ht
  cases first : s.tag? <;> cases second : t.tag? <;>
    simp_all [groupKey]

/-- What is written of the children: the values of each group, in order. -/
theorem entries_groups (h : ∀ slot ∈ slots, slot.tag? ≠ some "steps") :
    (groups (slotFields slots)).entries = (slotTags slots).map fun tag =>
      (groupKey tag, (slotsUnder tag slots).map slotValue) := by
  have inj := groupKey_injective h
  have keys : ((slotFields slots).map Prod.fst).eraseDups = (slotTags slots).map groupKey := by
    rw [slotFields_eq_map, List.map_map, slotTags, ← eraseDups_map _ inj, List.map_map]
    rfl
  rw [entries_groups_eq, keys, List.map_map]
  apply List.map_congr_left
  intro tag ht
  obtain ⟨slot, hs, rfl⟩ := mem_slotTags.1 ht
  have under : (slotFields slots).filter (·.1 = groupKey slot.tag?) =
      (slotsUnder slot.tag? slots).map fun slot => (groupKey slot.tag?, slotValue slot) := by
    rw [slotFields_eq_map, List.filter_map, slotsUnder]
    congr 1
    apply List.filter_congr
    intro other ho
    have iff : groupKey other.tag? = groupKey slot.tag? ↔ other.tag? = slot.tag? :=
      ⟨inj _ (List.mem_map_of_mem ho) _ (List.mem_map_of_mem hs), congrArg groupKey⟩
    simpa using iff
  simp only [Function.comp_def, under, List.map_map]

section Children
variable {slot : Slot} {tag : String}

theorem CanonicalBody.isContainer (h : CanonicalBody kind attributes expression slots)
    (hs : slot ∈ slots) (nested : slot.tag? = none) : (Role.ofTag kind).isContainer = true := by
  obtain ⟨step, rfl⟩ := Slot.eq_nested nested
  exact (h.children _ hs).1

theorem CanonicalBody.isChild (h : CanonicalBody kind attributes expression slots)
    (hs : slot ∈ slots) (same : slot.tag? = some tag) : IsChild kind attributes expression tag := by
  have fits := h.children slot hs
  cases slot with
  | nested step => cases same
  | text t value =>
    cases same
    exact fits.1
  | element t step =>
    cases same
    exact fits.1

theorem CanonicalBody.kind_eq (h : CanonicalBody kind attributes expression slots)
    (hs : slot ∈ slots) (same : slot.tag? = some tag) : ∀ step ∈ slot.step?, step.kind = tag := by
  have fits := h.children slot hs
  cases slot with
  | nested step => cases same
  | text t value => nofun
  | element t step =>
    cases same
    rintro child ⟨⟩
    exact fits.2.1

theorem CanonicalBody.tag?_ne (h : CanonicalBody kind attributes expression slots) :
    ∀ slot ∈ slots, slot.tag? ≠ some "steps" := by
  intro slot hs same
  exact absurd (h.isChild hs same).1 (by decide)

end Children

theorem addExpression_some (fields : Fields) (e : Expression) :
    addExpression kind fields (some e) =
      fields.put (expressionKey kind e) (expressionField kind e) := by
  rw [addExpression, expressionKey, expressionField]
  split <;> rfl

theorem expressionKey_ne {key : String} (noLanguage : (Role.ofTag key).isExpression = false)
    (other : key ≠ "expression") (e : Expression) : expressionKey kind e ≠ key := by
  rintro rfl
  unfold expressionKey at noLanguage other
  split at noLanguage
  · rw [role_language] at noLanguage
    cases noLanguage
  · rename_i wrapped
    exact other (if_neg wrapped)

theorem mem_keys_ownFields {text : Option String} {key : String} :
    key ∈ (ownFields kind attributes text expression).keys ↔
      key ∈ attributes.keys ∨ (text.isSome ∧ key = "text") ∨
        ∃ e ∈ expression, key = expressionKey kind e := by
  have before : key ∈ ((noFields.putAttributes attributes).putText? "text" text).keys ↔
      key ∈ attributes.keys ∨ (text.isSome ∧ key = "text") := by
    rw [Fields.mem_keys_putText?, Fields.mem_keys_putAttributes]
    simp [not_mem_keys_noFields]
  unfold ownFields
  cases expression with
  | none => simp [addExpression, before]
  | some e => simp [addExpression_some, Fields.mem_keys_put, before, or_assoc]

/-- No group of children stands under a key of the step itself. -/
theorem CanonicalBody.groupKey_not_mem (h : CanonicalBody kind attributes expression slots)
    (text : Option String) : ∀ tag ∈ slotTags slots,
      groupKey tag ∉ (ownFields kind attributes text expression).keys := by
  intro tag ht known
  have own := mem_keys_ownFields.1 known
  have child : ∀ t, IsChild kind attributes expression t →
      ¬(t ∈ attributes.keys ∨ (text.isSome ∧ t = "text") ∨
        ∃ e ∈ expression, t = expressionKey kind e) := by
    rintro t ⟨free, noKey, noExpression⟩ (key | ⟨_, rfl⟩ | ⟨e, he, same⟩)
    · exact noKey key
    · exact absurd free (by decide)
    · exact noExpression e he same
  obtain ⟨slot, hs, same⟩ := mem_slotTags.1 ht
  cases tag with
  | none =>
    rcases own with key | ⟨_, same⟩ | ⟨e, _, same⟩
    · exact absurd (h.keys _ key).1 (by decide)
    · exact absurd same (by decide)
    · exact expressionKey_ne (by decide) (by decide) e same.symm
  | some tag => exact child tag (h.isChild hs same) own

theorem nodup_groupKeys (h : ∀ slot ∈ slots, slot.tag? ≠ some "steps") :
    ((slotTags slots).map groupKey).Nodup := by
  have nodup := (groups (slotFields slots)).nodup
  rwa [entries_groups h, List.map_map] at nodup

/-- One field for each group of children. -/
def putGroup (kind : String) (slots : List Slot) (fields : Fields) (tag : Option String) : Fields :=
  fields.put (groupKey tag)
    (groupValue kind (groupKey tag) ((slotsUnder tag slots).map slotValue))

theorem stepFields_eq (h : CanonicalBody kind attributes expression slots) (text : Option String) :
    stepFields ⟨kind, attributes, text, expression, slots⟩ =
      (slotTags slots).foldl (putGroup kind slots) (ownFields kind attributes text expression) := by
  rw [stepFields, entries_groups h.tag?_ne, List.foldl_map]
  rfl

theorem addGroup_of_not_mem {path : String} {fields : Fields} {g : String × List Value}
    (new : g.1 ∉ fields.keys) :
    addGroup path kind fields g = pure (fields.put g.1 (groupValue kind g.1 g.2)) := by
  have contains : fields.contains g.1 = false := by simpa [OrderedMap.contains] using new
  rw [addGroup, contains]
  rfl

/-- Groups with keys of their own are all put in. -/
theorem foldlM_addGroup (kind path : String) {fields : Fields} {gs : List (String × List Value)}
    (new : ∀ g ∈ gs, g.1 ∉ fields.keys) (nodup : (gs.map Prod.fst).Nodup) :
    gs.foldlM (addGroup path kind) fields =
      pure (gs.foldl (fun m group => m.put group.1 (groupValue kind group.1 group.2)) fields) := by
  induction gs generalizing fields with
  | nil => rfl
  | cons g gs ih =>
    rw [List.map_cons, List.nodup_cons] at nodup
    rw [List.forall_mem_cons] at new
    have later : ∀ f ∈ gs, f.1 ∉ (fields.put g.1 (groupValue kind g.1 g.2)).keys := by
      intro f hf
      rw [Fields.mem_keys_put, not_or]
      exact ⟨new.2 f hf, fun same => nodup.1 (same ▸ List.mem_map_of_mem hf)⟩
    rw [List.foldlM_cons, addGroup_of_not_mem new.1, pure_bind, List.foldl_cons]
    exact ih later nodup.2

end Groups

/-- What is written for the body of a step. -/
def bodyValue (s : Step) : Value :=
  if isTextStep s then .string (s.text.getD "") else (stepFields s).toValue

mutual

/-- Writing a canonical step notes nothing. -/
theorem stepBody_eq (path : String) : {s : Step} → CanonicalStep s →
    stepBody path s = pure (bodyValue s)
  | ⟨kind, attributes, text, expression, slots⟩, h => by
    rw [CanonicalStep] at h
    obtain ⟨body, below⟩ := h
    have values := slotValues_eq path body.children below
    have new : ∀ g ∈ (groups (slotFields slots)).entries,
        g.1 ∉ (ownFields kind attributes text expression).keys := by
      rw [entries_groups body.tag?_ne]
      intro g hg
      obtain ⟨tag, ht, rfl⟩ := List.mem_map.1 hg
      exact body.groupKey_not_mem text tag ht
    have placed := foldlM_addGroup kind path new (groups (slotFields slots)).nodup
    unfold stepBody
    split
    · rename_i empty
      simp only [Bool.and_eq_true, List.isEmpty_iff, Option.isNone_iff_eq_none] at empty
      obtain ⟨⟨noAttributes, rfl⟩, rfl⟩ := empty
      have none : attributes = .empty := OrderedMap.ext (List.isEmpty_iff.1 noAttributes)
      subst none
      cases text <;> rfl
    · rename_i more
      have noText : isTextStep ⟨kind, attributes, text, expression, slots⟩ = false := by
        rw [Bool.eq_false_iff]
        intro text
        apply more
        simp only [isTextStep, Step.attributes, Step.expression, Step.slots, Bool.and_eq_true]
          at text
        simp only [text, Bool.and_self]
      rw [values, pure_bind, placed, pure_bind, bodyValue, noText, stepFields]
      rfl

theorem slotValues_eq (path : String) {kind : String} {attributes : Attributes}
    {expression : Option Expression} {all : List Slot} : {slots : List Slot} →
    (∀ slot ∈ slots, CanonicalSlot kind attributes expression all slot) → CanonicalSlots slots →
      slotValues path slots = pure (slotFields slots)
  | [], _, _ => rfl
  | .nested step :: rest, fits, h => by
    rw [CanonicalSlots] at h
    rw [List.forall_mem_cons] at fits
    rw [slotValues, stepBody_eq _ h.1, pure_bind, slotValues_eq path fits.2 h.2, bodyValue,
      fits.1.2, slotFields]
    rfl
  | .text tag value :: rest, fits, h => by
    rw [CanonicalSlots] at h
    rw [List.forall_mem_cons] at fits
    rw [slotValues, slotValues_eq path fits.2 h, slotFields]
    rfl
  | .element tag step :: rest, fits, h => by
    rw [CanonicalSlots] at h
    rw [List.forall_mem_cons] at fits
    rw [slotValues, stepBody_eq _ h.1, pure_bind, slotValues_eq path fits.2 h.2, bodyValue,
      fits.1.2.2.1, slotFields]
    rfl

end

end Dsl
end RouteNotation
