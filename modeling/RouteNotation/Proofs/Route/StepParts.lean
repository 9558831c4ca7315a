import RouteNotation.Route.Step

/-!
The parts of a step: itself, its expression and its children at every depth, each with its tag, its
attributes and its text.
-/

namespace RouteNotation

structure Part where
  tag : String
  attributes : Attributes
  text : Option String
  deriving DecidableEq, Repr

def Expression.part (e : Expression) : Part := ⟨e.language.tag, e.attributes, e.text⟩

mutual

def Step.parts : Step → List Part
  | ⟨kind, attributes, text, expression, slots⟩ =>
    ⟨kind, attributes, text⟩ :: (expression.toList.map Expression.part ++ slotsParts slots)

def slotsParts : List Slot → List Part
  | [] => []
  | .nested step :: rest | .element _ step :: rest => step.parts ++ slotsParts rest
  | .text tag value :: rest => ⟨tag, .empty, some value⟩ :: slotsParts rest

end

/-- All texts in a step: those of steps, of expressions and of children. -/
def Step.texts (s : Step) : List String := s.parts.filterMap Part.text

theorem slotsParts_append (ss ts : List Slot) :
    slotsParts (ss ++ ts) = slotsParts ss ++ slotsParts ts := by
  induction ss with
  | nil => rfl
  | cons slot ss ih => cases slot <;> simp [slotsParts, ih]

namespace Step

theorem parts_push (s : Step) (slot : Slot) :
    (s.push slot).parts = s.parts ++ slotsParts [slot] := by
  obtain ⟨kind, attributes, text, expression, slots⟩ := s
  simp [push, parts, slotsParts_append, Step.kind, Step.attributes, Step.text, Step.expression,
    Step.slots]

theorem parts_pushElement (s : Step) (child : Option Step) :
    (s.pushElement child).parts = s.parts ++ child.toList.flatMap parts := by
  cases child <;> simp [pushElement, parts_push, slotsParts]

theorem parts_pushNested (s : Step) (child : Option Step) :
    (s.pushNested child).parts = s.parts ++ child.toList.flatMap parts := by
  cases child <;> simp [pushNested, parts_push, slotsParts]

theorem parts_withExpression {s : Step} (free : s.expression = none) (e : Expression) :
    (s.withExpression e).parts.Perm (s.parts ++ [e.part]) := by
  obtain ⟨kind, attributes, text, expression, slots⟩ := s
  obtain rfl : expression = none := free
  simp only [withExpression, parts, Step.kind, Step.attributes, Step.text, Step.slots,
    Option.toList_some, Option.toList_none, List.map_cons, List.map_nil, List.nil_append,
    List.cons_append]
  exact (@List.perm_append_comm _ [e.part] _).cons _

end Step
end RouteNotation
