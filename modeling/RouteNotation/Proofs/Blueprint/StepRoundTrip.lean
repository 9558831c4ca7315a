import RouteNotation.Blueprint.StepReader
import RouteNotation.Proofs.Blueprint.StepMarkup
import RouteNotation.Proofs.Route.Tags
import RouteNotation.Xml.Name

/-!
Steps that are read back from their markup as they were. Each condition on a child says that the
reader gives it the rule by which it was written. Main statement: `readStep_plainElement`.
-/

namespace RouteNotation.Text

/-- A text that reading character data leaves as it is. -/
def Trimmed (s : String) : Prop := trim s = s ∧ s ≠ ""

instance (s : String) : Decidable (Trimmed s) := inferInstanceAs (Decidable (_ ∧ _))

end RouteNotation.Text

namespace RouteNotation.Blueprint

open Xml

/-- A tag that is its own local name and has no other meaning. -/
def IsLocalTag (tag : String) : Prop := ':' ∉ tag.toList ∧ isReserved tag = false

/-- Such a tag that an element can have. -/
def IsStepTag (tag : String) : Prop := isValidName tag ∧ ':' ∉ tag.toList ∧ isReserved tag = false

/-- A key that an attribute can have and keep. -/
def IsKey (key : String) : Prop := isValidName key ∧ isReserved key = false

instance (tag : String) : Decidable (IsStepTag tag) := inferInstanceAs (Decidable (_ ∧ _))
instance (key : String) : Decidable (IsKey key) := inferInstanceAs (Decidable (_ ∧ _))

/-- Whether a child in this role can be a nested step or a text. -/
def isFree : Role → Bool
  | .container _ | .plain => true
  | .clause | .expression _ => false

def CanonicalText (text : Option String) : Prop := ∀ t ∈ text, Text.Trimmed t

instance (text : Option String) : Decidable (CanonicalText text) :=
  inferInstanceAs (Decidable (∀ t ∈ text, Text.Trimmed t))

mutual

/-- A step that markup tells in full. A text stands alone, since beside elements it is layout. -/
def CanonicalStep : Step → Prop
  | ⟨kind, attributes, text, expression, slots⟩ =>
    IsStepTag kind ∧ (∀ key ∈ attributes.keys, IsKey key) ∧
      (CanonicalText text ∧ (text.isSome → expression = none ∧ slots = [])) ∧
      (∀ e ∈ expression, CanonicalText e.text ∧ ∀ key ∈ e.attributes.keys, IsKey key) ∧
      CanonicalSlots kind slots

/-- Children of a step of this kind that markup tells apart. -/
def CanonicalSlots (kind : String) : List Slot → Prop
  | [] => True
  | .nested step :: rest =>
    ((Role.ofTag kind).isContainer ∧ isFree (Role.ofTag step.kind) ∧
      branch? kind step.kind = none ∧ isTextStep step = false) ∧
      CanonicalStep step ∧ CanonicalSlots kind rest
  | .text tag value :: rest =>
    (IsStepTag tag ∧ isFree (Role.ofTag tag) ∧ branch? kind tag = none ∧ Text.Trimmed value) ∧
      CanonicalSlots kind rest
  | .element tag step :: rest =>
    (step.kind = tag ∧ (Role.ofTag tag = .clause ∨ isFree (Role.ofTag tag) ∧
      ((branch? kind tag).isSome ∨
        (Role.ofTag kind).isContainer = false ∧ isTextStep step = false))) ∧
      CanonicalStep step ∧ CanonicalSlots kind rest

end

mutual

def decideCanonicalStep : (s : Step) → Decidable (CanonicalStep s)
  | ⟨kind, attributes, text, expression, slots⟩ =>
    have := decideCanonicalSlots kind slots
    inferInstanceAs (Decidable (IsStepTag kind ∧ (∀ key ∈ attributes.keys, IsKey key) ∧
      (CanonicalText text ∧ (text.isSome → expression = none ∧ slots = [])) ∧
      (∀ e ∈ expression, CanonicalText e.text ∧ ∀ key ∈ e.attributes.keys, IsKey key) ∧
      CanonicalSlots kind slots))

def decideCanonicalSlots (kind : String) : (ss : List Slot) → Decidable (CanonicalSlots kind ss)
  | [] => isTrue trivial
  | .nested step :: rest =>
    have := decideCanonicalStep step
    have := decideCanonicalSlots kind rest
    inferInstanceAs (Decidable ((_ ∧ _) ∧ CanonicalStep step ∧ CanonicalSlots kind rest))
  | .text _ _ :: rest =>
    have := decideCanonicalSlots kind rest
    inferInstanceAs (Decidable ((_ ∧ _) ∧ CanonicalSlots kind rest))
  | .element _ step :: rest =>
    have := decideCanonicalStep step
    have := decideCanonicalSlots kind rest
    inferInstanceAs (Decidable ((_ ∧ _) ∧ CanonicalStep step ∧ CanonicalSlots kind rest))

end

instance (s : Step) : Decidable (CanonicalStep s) := decideCanonicalStep s

def ToldExpression (e : Expression) : Prop :=
  CanonicalText e.text ∧ ∀ key ∈ e.attributes.keys, isReserved key = false

mutual

/-- A step that its element tells in full, whatever its names are. -/
def ToldStep : Step → Prop
  | ⟨kind, attributes, text, expression, slots⟩ =>
    IsLocalTag kind ∧ (∀ key ∈ attributes.keys, isReserved key = false) ∧
      (CanonicalText text ∧ (text.isSome → expression = none ∧ slots = [])) ∧
      (∀ e ∈ expression, ToldExpression e) ∧ ToldSlots kind slots

def ToldSlot (kind : String) : Slot → Prop
  | .nested step =>
    ((Role.ofTag kind).isContainer ∧ isFree (Role.ofTag step.kind) ∧
      branch? kind step.kind = none ∧ isTextStep step = false) ∧ ToldStep step
  | .text tag value =>
    IsLocalTag tag ∧ isFree (Role.ofTag tag) ∧ branch? kind tag = none ∧ Text.Trimmed value
  | .element tag step =>
    (step.kind = tag ∧ (Role.ofTag tag = .clause ∨ isFree (Role.ofTag tag) ∧
      ((branch? kind tag).isSome ∨
        (Role.ofTag kind).isContainer = false ∧ isTextStep step = false))) ∧ ToldStep step

def ToldSlots (kind : String) : List Slot → Prop
  | [] => True
  | slot :: rest => ToldSlot kind slot ∧ ToldSlots kind rest

end

mutual

theorem CanonicalStep.told : {s : Step} → CanonicalStep s → ToldStep s
  | ⟨_, _, _, _, _⟩, h => by
    rw [CanonicalStep] at h
    obtain ⟨tag, keys, texts, expressions, slots⟩ := h
    rw [ToldStep]
    exact ⟨tag.2, fun key hk => (keys key hk).2, texts,
      fun e he => ⟨(expressions e he).1, fun key hk => ((expressions e he).2 key hk).2⟩,
      CanonicalSlots.told slots⟩

theorem CanonicalSlots.told {kind : String} :
    {ss : List Slot} → CanonicalSlots kind ss → ToldSlots kind ss
  | [], _ => by simp [ToldSlots]
  | .nested _ :: _, h => by
    rw [CanonicalSlots] at h
    simp only [ToldSlots, ToldSlot]
    exact ⟨⟨h.1, h.2.1.told⟩, CanonicalSlots.told h.2.2⟩
  | .text _ _ :: _, h => by
    rw [CanonicalSlots] at h
    simp only [ToldSlots, ToldSlot]
    exact ⟨⟨h.1.1.2, h.1.2⟩, CanonicalSlots.told h.2⟩
  | .element _ _ :: _, h => by
    rw [CanonicalSlots] at h
    simp only [ToldSlots, ToldSlot]
    exact ⟨⟨h.1, h.2.1.told⟩, CanonicalSlots.told h.2.2⟩

end

theorem takeWhile_ne {c : Char} {cs : List Char} (h : c ∉ cs) :
    cs.takeWhile (· ≠ c) = cs := by
  induction cs with
  | nil => rfl
  | cons d cs ih =>
    simp only [List.mem_cons, not_or] at h
    simpa [Ne.symm h.1] using ih h.2

theorem localName_eq_self {tag : String} (h : ':' ∉ tag.toList) : localName tag = tag := by
  have whole : Text.afterLastChars ':' tag.toList = tag.toList := by
    rw [Text.afterLastChars, takeWhile_ne (mt List.mem_reverse.1 h), List.reverse_reverse]
  rw [localName, Text.afterLast, whole, String.ofList_toList]

theorem localName_language (l : Language) : localName l.tag = l.tag := by
  cases l <;> decide

theorem readAttributes_of_keys (path : String) {attributes : Attributes}
    (h : ∀ key ∈ attributes.keys, isReserved key = false) :
    readAttributes path attributes = pure attributes := by
  have none : attributes.keys.filter isReserved = [] := by
    rw [List.filter_eq_nil_iff]
    intro key hk
    simp [h key hk]
  have all : attributes.filterKeys (fun key => !isReserved key) = attributes := by
    apply OrderedMap.ext
    apply List.filter_eq_self.2
    intro e he
    simp [h e.1 (List.mem_map_of_mem he)]
  simp only [readAttributes, none, all]
  rfl

theorem text?_ofText (name : String) (attributes : Attributes) {t : String} (h : Text.Trimmed t) :
    (Element.ofText name attributes t).text? = some t := by
  obtain ⟨trimmed, nonempty⟩ := h
  have joined : (Element.ofText name attributes t).characters = t := by
    simp [Element.ofText, Element.characters, Element.children, Content.text?, String.join]
  simp [Element.text?, joined, trimmed, nonempty]

/-- The text of an element that holds at most one. -/
theorem text?_of_texts (name : String) (attributes : Attributes) {text : Option String}
    (h : CanonicalText text) :
    Element.text? ⟨name, attributes, text.toList.map .text⟩ = text := by
  cases text with
  | none => rfl
  | some t => exact text?_ofText name attributes (h t rfl)

theorem name_plainElement (s : Step) : (plainElement s).name = s.kind := by
  obtain ⟨_, _, _, _, _⟩ := s
  rw [plainElement]
  rfl

theorem CanonicalStep.tag {s : Step} (h : CanonicalStep s) : IsStepTag s.kind := by
  obtain ⟨_, _, _, _, _⟩ := s
  rw [CanonicalStep] at h
  exact h.1

theorem ToldStep.tag {s : Step} (h : ToldStep s) : IsLocalTag s.kind := by
  obtain ⟨_, _, _, _, _⟩ := s
  rw [ToldStep] at h
  exact h.1

theorem localName_plainElement {s : Step} (h : ToldStep s) :
    (plainElement s).localName = s.kind := by
  rw [Element.localName, name_plainElement, localName_eq_self h.tag.1]

/-- Elements alone hold no text. -/
theorem text?_of_elements (name : String) (attributes : Attributes) (es : List Element) :
    Element.text? ⟨name, attributes, es.map .element⟩ = none := by
  have no : es.filterMap (Content.text? ∘ .element) = [] := by
    simp [List.filterMap_eq_nil_iff, Content.text?]
  have blank : Element.characters ⟨name, attributes, es.map .element⟩ = "" := by
    rw [Element.characters, Element.children, List.filterMap_map, no]
    rfl
  simp [Element.text?, blank, Text.trim, Text.trimChars]

/-- What is read of the content of a step that has a text, or else elements. -/
theorem texts_plainElement (name : String) (as : Attributes) {kind : String}
    {attributes : Attributes} {text : Option String} {expression : Option Expression}
    {slots : List Slot} (h : ToldStep ⟨kind, attributes, text, expression, slots⟩) :
    let e : Element := ⟨name, as, text.toList.map .text ++
      ((expression.map expressionElement).toList ++ plainSlots slots).map .element⟩
    (text.isSome → e.hasElements = false) ∧ e.text? = text := by
  rw [ToldStep] at h
  obtain ⟨_, _, ⟨texts, alone⟩, _⟩ := h
  cases text with
  | none => exact ⟨nofun, text?_of_elements name as _⟩
  | some t =>
    obtain ⟨rfl, rfl⟩ := alone rfl
    have same := text?_of_texts name as texts
    refine ⟨fun _ => rfl, ?_⟩
    simpa [plainSlots] using same

theorem isTextOnly_plainElement {s : Step} (h : ToldStep s) :
    (plainElement s).isTextOnly = isTextStep s := by
  obtain ⟨kind, attributes, text, expression, slots⟩ := s
  obtain ⟨alone, same⟩ := texts_plainElement kind attributes h
  rw [ToldStep] at h
  rw [plainElement, Element.isTextOnly, same, isTextStep]
  cases text with
  | none => simp [Step.text]
  | some t =>
    obtain ⟨rfl, rfl⟩ := h.2.2.1.2 rfl
    rw [alone rfl]
    simp [Element.attributes, Step.attributes, Step.text, Step.expression, Step.slots]

/-- A child without a role of its own goes by its shape and by the step around it. -/
theorem rule_of_free {kind : String} {has : Bool} {e : Element}
    (unreserved : isReserved e.localName = false) (free : isFree (Role.ofTag e.localName))
    (noBranch : branch? kind e.localName = none) :
    ChildRule.of kind has e = if e.isTextOnly then .text (e.text?.getD "")
      else if (Role.ofTag kind).isContainer then .nested else .element := by
  unfold ChildRule.of
  simp only [unreserved, Bool.false_eq_true, if_false, noBranch, Option.isSome_none]
  cases hr : Role.ofTag e.localName with
  | container c => rfl
  | plain => rfl
  | clause => simp [hr, isFree] at free
  | expression l => simp [hr, isFree] at free

theorem rule_of_clause {kind : String} {has : Bool} {e : Element}
    (unreserved : isReserved e.localName = false) (clause : Role.ofTag e.localName = .clause) :
    ChildRule.of kind has e = .element := by
  simp [ChildRule.of, unreserved, clause]

theorem rule_of_branch {kind : String} {has : Bool} {e : Element}
    (unreserved : isReserved e.localName = false) (free : isFree (Role.ofTag e.localName))
    (branch : (branch? kind e.localName).isSome) : ChildRule.of kind has e = .element := by
  unfold ChildRule.of
  simp only [unreserved, Bool.false_eq_true, if_false, branch, if_true]
  cases hr : Role.ofTag e.localName with
  | container c => rfl
  | plain => rfl
  | clause => rfl
  | expression l => simp [hr, isFree] at free

theorem rule_nested {kind : String} {has : Bool} {s : Step} (h : ToldStep s)
    (container : (Role.ofTag kind).isContainer) (free : isFree (Role.ofTag s.kind))
    (noBranch : branch? kind s.kind = none) (noText : isTextStep s = false) :
    ChildRule.of kind has (plainElement s) = .nested := by
  have same := localName_plainElement h
  rw [rule_of_free (same.symm ▸ h.tag.2) (same.symm ▸ free) (same.symm ▸ noBranch),
    isTextOnly_plainElement h, noText]
  simp [container]

theorem rule_text {kind tag value : String} {has : Bool} (valid : IsLocalTag tag)
    (free : isFree (Role.ofTag tag)) (noBranch : branch? kind tag = none)
    (trimmed : Text.Trimmed value) :
    ChildRule.of kind has (.ofText tag .empty value) = .text value := by
  have same : (Element.ofText tag .empty value).localName = tag := localName_eq_self valid.1
  have read := text?_ofText tag .empty trimmed
  have only : (Element.ofText tag .empty value).isTextOnly := by
    rw [Element.isTextOnly, read]
    rfl
  rw [rule_of_free (same.symm ▸ valid.2) (same.symm ▸ free) (same.symm ▸ noBranch), if_pos only,
    read]
  rfl

theorem rule_element {kind : String} {has : Bool} {s : Step} (h : ToldStep s)
    (role : Role.ofTag s.kind = .clause ∨ isFree (Role.ofTag s.kind) ∧
      ((branch? kind s.kind).isSome ∨
        (Role.ofTag kind).isContainer = false ∧ isTextStep s = false)) :
    ChildRule.of kind has (plainElement s) = .element := by
  have same := localName_plainElement h
  have unreserved : isReserved (plainElement s).localName = false := by
    rw [same]
    exact h.tag.2
  rw [← same] at role
  rcases role with clause | ⟨free, branch | ⟨noContainer, noText⟩⟩
  · exact rule_of_clause unreserved clause
  · exact rule_of_branch unreserved free branch
  · cases hb : branch? kind (plainElement s).localName with
    | some _ => exact rule_of_branch unreserved free (by rw [hb]; rfl)
    | none =>
      rw [rule_of_free unreserved free hb, isTextOnly_plainElement h, noText]
      simp [noContainer]

theorem rule_expression {kind : String} (e : Expression) :
    ChildRule.of kind false (expressionElement e) = .expression e.language := by
  have same : (expressionElement e).localName = e.language.tag := localName_language e.language
  simp [ChildRule.of, same, isReserved_language, role_language]

theorem readExpression_expressionElement {path : String} {e : Expression}
    (h : ToldExpression e) : readExpression path e.language (expressionElement e) = pure e := by
  have noElements : (expressionElement e).hasElements = false := by
    simp [expressionElement, Element.hasElements, Element.elements, Element.children,
      Content.element?]
  have read : (expressionElement e).text? = e.text := text?_of_texts _ _ h.1
  have all : readAttributes path (expressionElement e).attributes = pure e.attributes :=
    readAttributes_of_keys path h.2
  simp [readExpression, noElements, read, all]

theorem readChildren_texts (path : String) (step : Step) (texts : List String)
    (rest : List Content) :
    readChildren path step (texts.map .text ++ rest) = readChildren path step rest := by
  induction texts with
  | nil => rfl
  | cons t texts ih => rw [List.map_cons, List.cons_append, readChildren, ih]

/-- A step keeps the text of an element that has no other element in it. -/
theorem ownText_eq {e : Element} {text : Option String}
    (alone : text.isSome → e.hasElements = false) (same : e.text? = text) :
    (if e.hasElements then none else e.text?) = text := by
  rw [same]
  cases text with
  | none => simp
  | some t => simp [alone rfl]

mutual

/-- A step is read from its markup with nothing noted. -/
theorem readStep_plainElement (path : String) :
    {s : Step} → ToldStep s → readStep path (plainElement s) = pure (some s)
  | ⟨kind, attributes, text, expression, slots⟩, h => by
    obtain ⟨alone, same⟩ := texts_plainElement kind .empty h
    rw [ToldStep] at h
    obtain ⟨⟨noColon, unreserved⟩, keys, _, expressions, children⟩ := h
    have slotsRead := readChildren_plainSlots path ⟨kind, attributes, text, expression, []⟩ children
    have whole : readChildren path ⟨kind, attributes, text, none, []⟩ (text.toList.map .text ++
        ((expression.map expressionElement).toList ++ plainSlots slots).map .element) =
          pure ⟨kind, attributes, text, expression, slots⟩ := by
      rw [readChildren_texts]
      cases expression with
      | none => exact slotsRead
      | some e =>
        simp only [Option.map_some, Option.toList_some, List.cons_append, List.nil_append,
          List.map_cons, readChildren, Step.kind, Step.expression, Option.isSome_none,
          rule_expression, readExpression_expressionElement (expressions e rfl), pure_bind]
        exact slotsRead
    have all := readAttributes_of_keys path keys
    have read := ownText_eq alone same
    rw [plainElement, readStep]
    simp only [localName_eq_self noColon, unreserved, Bool.false_eq_true, if_false, all, pure_bind]
    rw [read, whole]
    rfl

theorem readChildren_plainSlots (path : String) (step : Step) : {ss : List Slot} →
    ToldSlots step.kind ss → readChildren path step ((plainSlots ss).map .element) =
      pure ⟨step.kind, step.attributes, step.text, step.expression, step.slots ++ ss⟩
  | [], _ => by
    obtain ⟨_, _, _, _, _⟩ := step
    simp [plainSlots, readChildren, Step.kind, Step.attributes, Step.text, Step.expression,
      Step.slots]
  | .nested child :: rest, h => by
    rw [ToldSlots, ToldSlot] at h
    obtain ⟨⟨⟨container, free, noBranch, noText⟩, ok⟩, others⟩ := h
    have next := readChildren_plainSlots path (step.push (.nested child)) others
    simp only [plainSlots, List.map_cons, readChildren]
    rw [rule_nested ok container free noBranch noText]
    simp only [readStep_plainElement _ ok, pure_bind, Step.pushNested, next]
    simp [Step.push, Step.kind, Step.attributes, Step.text, Step.expression, Step.slots]
  | .text tag value :: rest, h => by
    rw [ToldSlots, ToldSlot] at h
    obtain ⟨⟨valid, free, noBranch, trimmed⟩, others⟩ := h
    have next := readChildren_plainSlots path (step.push (.text tag value)) others
    have same : (Element.ofText tag .empty value).localName = tag := localName_eq_self valid.1
    simp only [plainSlots, List.map_cons, readChildren]
    rw [rule_text valid free noBranch trimmed]
    simp only [same, next]
    simp [Step.push, Step.kind, Step.attributes, Step.text, Step.expression, Step.slots]
  | .element tag child :: rest, h => by
    rw [ToldSlots, ToldSlot] at h
    obtain ⟨⟨⟨rfl, role⟩, ok⟩, others⟩ := h
    have next := readChildren_plainSlots path (step.push (.element child.kind child)) others
    simp only [plainSlots, List.map_cons, readChildren]
    rw [rule_element ok role]
    simp only [readStep_plainElement _ ok, pure_bind, Step.pushElement, next]
    simp [Step.push, Step.kind, Step.attributes, Step.text, Step.expression, Step.slots]

end
end RouteNotation.Blueprint
