import RouteNotation.Proofs.Blueprint.FirstExpression
import RouteNotation.Proofs.Dsl.FirstExpression

/-!
The first expression of a step wins, in markup and in value trees. Main statement:
`first_expression_wins`, which says what each reader leaves of the later ones.
-/

namespace RouteNotation

open Yaml Xml

/-- The attributes of an element are read before its children. -/
theorem readStep_eq (path : String) {e : Element} (unreserved : isReserved e.localName = false) :
    ∃ start : Step, start.kind = e.localName ∧ start.expression = none ∧
      Blueprint.readStep path e =
        ⟨some (Blueprint.readChildren path start e.children).value,
          (Blueprint.readAttributes path e.attributes).notes ++
            (Blueprint.readChildren path start e.children).notes⟩ := by
  obtain ⟨name, attributes, children⟩ := e
  have free : isReserved (localName name) = false := unreserved
  let bare : Element := ⟨name, .empty, children⟩
  refine ⟨⟨localName name, (Blueprint.readAttributes path attributes).value,
    if bare.hasElements then none else bare.text?, none, []⟩, rfl, rfl, ?_⟩
  simp only [Blueprint.readStep, free, Bool.false_eq_true, if_false]
  exact congrArg (Noted.mk _) (congrArg (_ ++ ·) (List.append_nil _))

/-- In a step that is read from expressions in any form, in any order, the first is the expression
of the step. Markup keeps each of the others as a child in order, with one diagnostic. In a value
tree a mapping under its language and a language among the steps of a container are kept as
children, a scalar under its language as an attribute, and nothing is kept of one under a key of its
own; nothing is noted about a language among the steps. -/
theorem first_expression_wins (path : String) (e : Element) (kind : String) (es : List Entry) :
    (∀ (x : Language × Element) (later : List (Language × Element)),
      isReserved e.localName = false → Blueprint.expressionsOf e.elements = x :: later →
      ∃ s, (Blueprint.readStep path e).value = some s ∧
        s.expression = some (Blueprint.readExpression "" x.1 x.2).value ∧
        (later.map fun y => Slot.element y.1.tag (Blueprint.childStep y.2)).Sublist s.slots ∧
        (Blueprint.readStep path e).notes.Perm
          ((Blueprint.readExpression (childPath path x.1.tag) x.1 x.2).notes ++
            (later.flatMap fun y => Blueprint.lateExpression path e.localName y.1.tag ::
              (Blueprint.readStep (childPath path y.1.tag) y.2).notes) ++
            ((Blueprint.readAttributes path e.attributes).notes ++
              e.elements.flatMap (Blueprint.otherNotes path e.localName)))) ∧
    ∀ (a : Dsl.BodyExpression) (later : List Dsl.BodyExpression),
      Dsl.bodyExpressions (.ofTag kind) es = a :: later →
      let read := Dsl.readBody path (.ofTag kind) (.bare kind) es
      read.value.expression = some a.expression ∧
        later.flatMap Dsl.BodyExpression.lateAttributes ⊆ read.value.attributes.keys ∧
        (later.flatMap Dsl.BodyExpression.lateChildren).Sublist read.value.slots ∧
        read.notes.Perm (a.notes path ++
          later.flatMap (Dsl.BodyExpression.lateNotes path kind) ++
          es.flatMap (Dsl.otherNotes path kind)) := by
  constructor
  · intro x later unreserved several
    obtain ⟨start, named, free, read⟩ := readStep_eq path unreserved
    have settled := Blueprint.settles_readChildren path start e.children
    rw [named] at settled
    change Settles _ _ (Blueprint.expressionsOf e.elements) _ _ at settled
    rw [several] at settled
    obtain ⟨expression, -, slots, notes⟩ := settled.first_wins free
    rw [read]
    refine ⟨_, rfl, expression, ?_, ?_⟩
    · rw [List.map_eq_flatMap]
      exact slots
    · exact (notes.append_left _).trans (List.perm_append_comm_assoc ..)
  · intro a later several
    have settled := Dsl.settles_readBody path (.bare kind) es
    change Settles _ _ (Dsl.bodyExpressions (.ofTag kind) es) _ _ at settled
    rw [several] at settled
    exact settled.first_wins rfl

/-- A filter with two texts, each under its language: the second is an attribute. -/
def twoTexts : List Entry := [textEntry "simple" "x", textEntry "groovy" "y"]

/-- An element with two languages below it. -/
def twoLanguages : Element :=
  .ofElements "filter" .empty [.leaf "simple" .empty, .leaf "groovy" .empty]

theorem first_expression_wins_filter :
    isReserved twoLanguages.localName = false ∧
      Blueprint.expressionsOf twoLanguages.elements =
        [(.simple, .leaf "simple" .empty), (.groovy, .leaf "groovy" .empty)] ∧
      (∃ s, (Blueprint.readStep "" twoLanguages).value = some s ∧
        [Slot.element "groovy" (Blueprint.childStep (.leaf "groovy" .empty))].Sublist s.slots) ∧
      Dsl.bodyExpressions (.ofTag "filter") twoTexts =
        [.inline .simple (.string "x"), .inline .groovy (.string "y")] ∧
      ["groovy"] ⊆
        (Dsl.readBody "" (.ofTag "filter") (.bare "filter") twoTexts).value.attributes.keys := by
  have unreserved : isReserved twoLanguages.localName = false := by decide
  have languages : Blueprint.expressionsOf twoLanguages.elements =
    [(.simple, .leaf "simple" .empty), (.groovy, .leaf "groovy" .empty)] := by rfl
  have texts : Dsl.bodyExpressions (.ofTag "filter") twoTexts =
    [.inline .simple (.string "x"), .inline .groovy (.string "y")] := by rfl
  obtain ⟨markup, values⟩ := first_expression_wins "" twoLanguages "filter" twoTexts
  obtain ⟨s, read, -, slots, -⟩ := markup _ _ unreserved languages
  exact ⟨unreserved, languages, ⟨s, read, slots⟩, texts, (values _ _ texts).2.1⟩

/-- The second of two texts under languages is no child. -/
theorem second_text_no_child :
    ¬ ∀ (kind : String) (es : List Entry) (a b : Dsl.BodyExpression),
      Dsl.bodyExpressions (.ofTag kind) es = [a, b] →
        ∃ slot ∈ (Dsl.readBody "" (.ofTag kind) (.bare kind) es).value.slots,
          slot.tag? = some b.expression.language.tag := by
  intro all
  obtain ⟨slot, mem, -⟩ := all "filter" twoTexts (.inline .simple (.string "x"))
    (.inline .groovy (.string "y")) (by rfl)
  have none : (Dsl.readBody "" (.ofTag "filter") (.bare "filter") twoTexts).value.slots = [] := by
    decide +kernel
  rw [none] at mem
  cases mem

end RouteNotation
