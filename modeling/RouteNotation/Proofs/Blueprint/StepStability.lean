import RouteNotation.Proofs.Blueprint.StepRoundTrip
import RouteNotation.Proofs.Noted
import RouteNotation.Proofs.Text.Trimming

/-!
Steps read from any element at all. If nothing was noted, the step is one that its markup tells in
full, so printing it and reading the result changes nothing: `readStep_unwrap_stepElement`.
-/

namespace RouteNotation.Blueprint

open Xml

theorem colon_not_mem_localName (name : String) : ':' ∉ (localName name).toList := by
  rw [localName, Text.afterLast, String.toList_ofList, Text.afterLastChars]
  intro found
  have passed := List.all_eq_true.1 List.all_takeWhile _ (List.mem_reverse.1 found)
  simp at passed

theorem trimmed_of_text? {e : Element} {t : String} (h : e.text? = some t) : Text.Trimmed t := by
  simp only [Element.text?] at h
  split at h
  · cases h
  · rename_i nonempty
    cases h
    exact ⟨Text.trim_trim _, by simpa using nonempty⟩

theorem canonicalText_text? (e : Element) : CanonicalText e.text? := by
  intro t ht
  exact trimmed_of_text? (Option.mem_def.1 ht)

/-- What an element is like when it falls under a rule without a diagnostic. -/
def ChildRule.Fits (kind : String) (e : Element) : ChildRule → Prop
  | .reserved | .expression _ | .lateExpression => True
  | .text value =>
    IsLocalTag e.localName ∧ isFree (Role.ofTag e.localName) ∧
      branch? kind e.localName = none ∧ e.text? = some value
  | .element =>
    Role.ofTag e.localName = .clause ∨ isFree (Role.ofTag e.localName) ∧
      ((branch? kind e.localName).isSome ∨
        (Role.ofTag kind).isContainer = false ∧ e.isTextOnly = false)
  | .nested =>
    (Role.ofTag kind).isContainer ∧ isFree (Role.ofTag e.localName) ∧
      branch? kind e.localName = none ∧ e.isTextOnly = false

theorem fits_of_free {kind : String} {e : Element} (unreserved : isReserved e.localName = false)
    (free : isFree (Role.ofTag e.localName)) :
    ChildRule.Fits kind e (if (branch? kind e.localName).isSome then .element
      else if e.isTextOnly then .text (e.text?.getD "")
      else if (Role.ofTag kind).isContainer then .nested else .element) := by
  split
  · rename_i branch
    exact .inr ⟨free, .inl branch⟩
  · rename_i other
    have noBranch : branch? kind e.localName = none := Option.not_isSome_iff_eq_none.1 other
    split
    · rename_i only
      obtain ⟨t, some⟩ : ∃ t, e.text? = some t := by
        simp only [Element.isTextOnly, Bool.and_eq_true] at only
        exact Option.isSome_iff_exists.1 only.2
      rw [some]
      exact ⟨⟨colon_not_mem_localName _, unreserved⟩, free, noBranch, some⟩
    · rename_i more
      have notOnly : e.isTextOnly = false := Bool.eq_false_iff.2 more
      split
      · rename_i container
        exact ⟨container, free, noBranch, notOnly⟩
      · rename_i noContainer
        exact .inr ⟨free, .inr ⟨Bool.eq_false_iff.2 noContainer, notOnly⟩⟩

theorem ChildRule.fits_of (kind : String) (has : Bool) (e : Element) :
    (ChildRule.of kind has e).Fits kind e := by
  cases reserved : isReserved e.localName with
  | true => simp [ChildRule.of, reserved, Fits]
  | false =>
    cases role : Role.ofTag e.localName with
    | expression l => cases has <;> simp [ChildRule.of, reserved, role, Fits]
    | clause => simp [ChildRule.of, reserved, role, Fits]
    | container c =>
      have fits := @fits_of_free kind e reserved (by rw [role]; rfl)
      simpa [ChildRule.of, reserved, role] using fits
    | plain =>
      have fits := @fits_of_free kind e reserved (by rw [role]; rfl)
      simpa [ChildRule.of, reserved, role] using fits

theorem readAttributes_eq_pure {path : String} {attributes kept : Attributes}
    (h : readAttributes path attributes = pure kept) :
    kept = attributes ∧ ∀ key ∈ attributes.keys, isReserved key = false := by
  have none : (attributes.keys.filter isReserved).map _ = [] := congrArg Noted.notes h
  have keys : ∀ key ∈ attributes.keys, isReserved key = false := by
    rw [List.map_eq_nil_iff, List.filter_eq_nil_iff] at none
    intro key hk
    exact Bool.eq_false_iff.2 (none key hk)
  rw [readAttributes_of_keys path keys] at h
  exact ⟨(congrArg Noted.value h).symm, keys⟩

theorem readExpression_eq_pure {path : String} {language : Language} {e : Element}
    {expression : Expression} (h : readExpression path language e = pure expression) :
    ToldExpression expression := by
  rw [readExpression] at h
  split at h
  · exact absurd h Noted.unknownShape_bind_ne_pure
  · rw [Noted.bind_eq_pure] at h
    obtain ⟨attributes, last⟩ := h
    obtain ⟨same, keys⟩ := readAttributes_eq_pure attributes
    rw [same] at last
    obtain rfl : (⟨language, e.text?, e.attributes⟩ : Expression) = expression :=
      congrArg Noted.value last
    refine ⟨?_, keys⟩
    dsimp only
    exact canonicalText_text? e

theorem readChildren_of_no_elements (path : String) (step : Step) {cs : List Content}
    (h : cs.filterMap Content.element? = []) : readChildren path step cs = pure step := by
  induction cs with
  | nil => rfl
  | cons c cs ih =>
    cases c with
    | text value => exact ih h
    | element e => cases h

theorem readStep_eq_pure {path name : String} {attributes : Attributes} {children : List Content}
    {s : Step} (h : readStep path ⟨name, attributes, children⟩ = pure (some s)) :
    let e : Element := ⟨name, .empty, children⟩
    isReserved (localName name) = false ∧ (∀ key ∈ attributes.keys, isReserved key = false) ∧
      readChildren path ⟨localName name, attributes, if e.hasElements then none else e.text?,
        none, []⟩ children = pure s := by
  rw [readStep] at h
  split at h
  · exact absurd h Noted.unknownShape_bind_ne_pure
  · rename_i unreserved
    rw [Noted.bind_eq_pure] at h
    obtain ⟨kept, rest⟩ := h
    obtain ⟨same, keys⟩ := readAttributes_eq_pure kept
    rw [same, Noted.bind_eq_pure] at rest
    obtain ⟨read, last⟩ := rest
    cases congrArg Noted.value last
    exact ⟨Bool.eq_false_iff.2 unreserved, keys, read⟩

theorem toldSlots_concat {kind : String} {ss : List Slot} {slot : Slot} (h : ToldSlots kind ss)
    (last : ToldSlot kind slot) : ToldSlots kind (ss ++ [slot]) := by
  induction ss with
  | nil => simpa [ToldSlots] using last
  | cons s ss ih =>
    rw [ToldSlots] at h
    rw [List.cons_append, ToldSlots]
    exact ⟨h.1, ih h.2⟩

theorem elements_eq_nil {name : String} {attributes : Attributes} {cs : List Content}
    (h : Element.hasElements ⟨name, attributes, cs⟩ = false) :
    cs.filterMap Content.element? = [] := by
  simpa [Element.hasElements, Element.elements, Element.children] using h

theorem isTextStep_of_alone {name kind : String} {attributes : Attributes} {cs : List Content}
    {expression : Option Expression} {slots : List Slot}
    (alone : Element.hasElements ⟨name, .empty, cs⟩ = false → expression = none ∧ slots = []) :
    let e : Element := ⟨name, .empty, cs⟩
    isTextStep ⟨kind, attributes, if e.hasElements then none else e.text?, expression, slots⟩ =
      Element.isTextOnly ⟨name, attributes, cs⟩ := by
  have same : Element.hasElements ⟨name, attributes, cs⟩ =
    Element.hasElements ⟨name, .empty, cs⟩ := rfl
  have texts : Element.text? ⟨name, attributes, cs⟩ = Element.text? ⟨name, .empty, cs⟩ := rfl
  simp only [isTextStep, Element.isTextOnly, same, texts]
  cases has : Element.hasElements ⟨name, .empty, cs⟩ with
  | true => simp [Step.text]
  | false =>
    obtain ⟨rfl, rfl⟩ := alone has
    simp [Step.attributes, Step.text, Step.expression, Step.slots, Element.attributes]

mutual

/-- A step that is read with nothing noted is one that its own element tells in full. -/
theorem told_of_readStep {path : String} : {e : Element} → {s : Step} →
    readStep path e = pure (some s) →
      s.kind = e.localName ∧ isTextStep s = e.isTextOnly ∧ ToldStep s
  | ⟨name, attributes, children⟩, s, h => by
    obtain ⟨unreserved, keys, read⟩ := readStep_eq_pure h
    obtain ⟨expression, slots, rfl, expressions, told⟩ :=
      told_of_readChildren read nofun (by simp [ToldSlots])
    -- A text is read only where no element can have added anything.
    have alone : Element.hasElements ⟨name, .empty, children⟩ = false →
        expression = none ∧ slots = [] := by
      intro none
      rw [readChildren_of_no_elements _ _ (elements_eq_nil none)] at read
      cases congrArg Noted.value read
      exact ⟨rfl, rfl⟩
    refine ⟨rfl, ?_, ?_⟩
    · exact isTextStep_of_alone alone
    · rw [ToldStep]
      refine ⟨⟨colon_not_mem_localName name, unreserved⟩, keys, ⟨?_, ?_⟩, expressions, told⟩
      · intro t ht
        split at ht
        · cases ht
        · exact canonicalText_text? _ t ht
      · intro some
        split at some
        · cases some
        · rename_i none
          exact alone (Bool.eq_false_iff.2 none)

theorem told_of_readChildren {path kind : String} {attributes : Attributes} {text : Option String} :
    {cs : List Content} → {expression : Option Expression} → {slots : List Slot} → {s : Step} →
    readChildren path ⟨kind, attributes, text, expression, slots⟩ cs = pure s →
    (∀ e ∈ expression, ToldExpression e) → ToldSlots kind slots →
      ∃ expression slots, s = ⟨kind, attributes, text, expression, slots⟩ ∧
        (∀ e ∈ expression, ToldExpression e) ∧ ToldSlots kind slots
  | [], expression, slots, s, h, expressions, told => by
    rw [readChildren] at h
    cases congrArg Noted.value h
    exact ⟨expression, slots, rfl, expressions, told⟩
  | .text _ :: rest, _, _, _, h, expressions, told => by
    rw [readChildren] at h
    exact told_of_readChildren h expressions told
  | .element e :: rest, expression, slots, s, h, expressions, told => by
    have fits := ChildRule.fits_of kind expression.isSome e
    simp only [readChildren, Step.kind, Step.expression] at h
    -- One case for each rule. A reserved tag and a late expression are always noted.
    split at h
    · exact absurd h Noted.unknownShape_bind_ne_pure
    · rw [Noted.bind_eq_pure] at h
      have here := readExpression_eq_pure h.1
      exact told_of_readChildren h.2 (by simpa using here) told
    · exact absurd h Noted.unknownShape_bind_ne_pure
    · rename_i value rule
      rw [rule] at fits
      obtain ⟨tag, free, noBranch, some⟩ := fits
      exact told_of_readChildren h expressions
        (toldSlots_concat told ⟨tag, free, noBranch, trimmed_of_text? some⟩)
    · rename_i rule
      rw [rule, ChildRule.Fits] at fits
      rw [Noted.bind_eq_pure] at h
      obtain ⟨read, h⟩ := h
      rcases child : (readStep (childPath path e.localName) e).value with _ | t
      · rw [child] at h
        exact told_of_readChildren h expressions told
      · rw [child] at read h
        obtain ⟨tag, only, ok⟩ := told_of_readStep read
        rw [← tag, ← only] at fits
        exact told_of_readChildren h expressions (toldSlots_concat told ⟨⟨rfl, fits⟩, ok⟩)
    · rename_i rule
      rw [rule, ChildRule.Fits] at fits
      rw [Noted.bind_eq_pure] at h
      obtain ⟨read, h⟩ := h
      rcases child : (readStep (childPath path e.localName) e).value with _ | t
      · rw [child] at h
        exact told_of_readChildren h expressions told
      · rw [child] at read h
        obtain ⟨tag, only, ok⟩ := told_of_readStep read
        rw [← tag, ← only] at fits
        exact told_of_readChildren h expressions (toldSlots_concat told ⟨fits, ok⟩)

end

mutual

theorem ToldStep.names : {s : Step} → ToldStep s → s.Names NoWrapper fun _ => True
  | ⟨_, _, _, _, _⟩, h => by
    rw [ToldStep] at h
    obtain ⟨tag, _, _, _, slots⟩ := h
    exact ⟨noWrapper_of_unreserved tag.2, fun _ _ => trivial, fun _ _ _ _ => trivial,
      ToldSlots.names slots⟩

theorem ToldSlots.names {kind : String} : {ss : List Slot} → ToldSlots kind ss →
    SlotsNames NoWrapper (fun _ => True) ss
  | [], _ => trivial
  | .nested _ :: _, h => by
    rw [ToldSlots, ToldSlot] at h
    exact ⟨h.1.2.names, ToldSlots.names h.2⟩
  | .text _ _ :: _, h => by
    rw [ToldSlots, ToldSlot] at h
    exact ⟨noWrapper_of_unreserved h.1.1.2, ToldSlots.names h.2⟩
  | .element _ step :: _, h => by
    rw [ToldSlots, ToldSlot] at h
    obtain ⟨⟨⟨rfl, _⟩, told⟩, rest⟩ := h
    exact ⟨noWrapper_of_unreserved told.tag.2, told.names, ToldSlots.names rest⟩

end

/-- A step read from any element with nothing noted is read from its own markup just so, at any
path. -/
theorem readStep_unwrap_stepElement {path : String} {e : Element} {s : Step}
    (read : readStep path e = pure (some s)) (other : String) :
    readStep other (stepElement s).unwrap = pure (some s) := by
  obtain ⟨-, -, told⟩ := told_of_readStep read
  rw [unwrap_stepElement told.names]
  exact readStep_plainElement other told

/-- Prefixes, stray texts, and an expression that comes last. -/
def untidyElement : Element :=
  ⟨"camel:choice", .single "id" "c", [.text "\n  stray ",
    .element (.ofText "x:note" .empty "  hello  "),
    .element ⟨"camel:when", .empty, [.element (.leaf "log" (.single "message" "m")), .text " ",
      .element (.ofText "camel:simple" (.single "trim" "no") " a > 1 ")]⟩,
    .element ⟨"camel:split", .empty, [.element (.leaf "script" .empty),
      .element (.ofText "onWhen" .empty " late ")]⟩,
    .element (.ofText "note" .empty "again"), .text "more",
    .element (.ofElements "constant" .empty [])]⟩

def tidyStep : Step :=
  ⟨"choice", .single "id" "c", none, some ⟨.constant, none, .empty⟩,
    [.text "note" "hello",
      .element "when" ⟨"when", .empty, none, some ⟨.simple, some "a > 1", .single "trim" "no"⟩,
        [.nested ⟨"log", .single "message" "m", none, none, []⟩]⟩,
      .nested ⟨"split", .empty, none, none, [.nested (.bare "script"),
        .element "onWhen" ⟨"onWhen", .empty, some "late", none, []⟩]⟩,
      .text "note" "again"]⟩

theorem readStep_unwrap_stepElement_untidyElement :
    readStep "route" untidyElement = pure (some tidyStep) ∧
      (stepElement tidyStep).unwrap ≠ untidyElement ∧
      readStep "route" (stepElement tidyStep).unwrap = pure (some tidyStep) := by
  have read : readStep "route" untidyElement = pure (some tidyStep) := by decide +kernel
  exact ⟨read, by decide +kernel, readStep_unwrap_stepElement read "route"⟩

end RouteNotation.Blueprint
