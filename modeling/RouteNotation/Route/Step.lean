import RouteNotation.OrderedMap
import RouteNotation.Route.Tag

/-!
Steps of a route. A step has a kind, attributes, at most one text and one expression, and its
children in document order: nested steps and children under a tag.
-/

namespace RouteNotation

structure Expression where
  language : Language
  text : Option String
  /-- Attributes of the language, such as the type of the result. -/
  attributes : Attributes
  deriving DecidableEq, Repr

/-- An expression that is a text alone. -/
def Expression.ofText (language : Language) (text : String) : Expression :=
  ⟨language, some text, .empty⟩

mutual

inductive Step
  | mk (kind : String) (attributes : Attributes) (text : Option String)
      (expression : Option Expression) (slots : List Slot)

/-- One child of a step. -/
inductive Slot
  /-- An entry of the list of nested steps. -/
  | nested (step : Step)
  /-- A child that is a text. -/
  | text (tag : String) (value : String)
  /-- A child that is itself a step. -/
  | element (tag : String) (step : Step)

end

instance : Inhabited Step := ⟨.mk "" .empty none none []⟩

mutual

def Step.decEq : (s t : Step) → Decidable (s = t)
  | ⟨k, a, x, e, ss⟩, ⟨l, b, y, f, ts⟩ =>
    if h : k = l ∧ a = b ∧ x = y ∧ e = f then
      match slotsDecEq ss ts with
      | isTrue hs => isTrue (by rw [h.1, h.2.1, h.2.2.1, h.2.2.2, hs])
      | isFalse hs => isFalse fun p => hs (by cases p; rfl)
    else isFalse fun p => h (by cases p; exact ⟨rfl, rfl, rfl, rfl⟩)

def Slot.decEq : (s t : Slot) → Decidable (s = t)
  | .nested s, .nested t => match Step.decEq s t with
    | isTrue h => isTrue (by rw [h])
    | isFalse h => isFalse fun p => h (by cases p; rfl)
  | .text a v, .text b w =>
    if h : a = b ∧ v = w then isTrue (by rw [h.1, h.2])
    else isFalse fun p => h (by cases p; exact ⟨rfl, rfl⟩)
  | .element a s, .element b t =>
    if ha : a = b then
      match Step.decEq s t with
      | isTrue h => isTrue (by rw [ha, h])
      | isFalse h => isFalse fun p => h (by cases p; rfl)
    else isFalse fun p => ha (by cases p; rfl)
  | .nested _, .text _ _ => isFalse nofun
  | .nested _, .element _ _ => isFalse nofun
  | .text _ _, .nested _ => isFalse nofun
  | .text _ _, .element _ _ => isFalse nofun
  | .element _ _, .nested _ => isFalse nofun
  | .element _ _, .text _ _ => isFalse nofun

def slotsDecEq : (ss ts : List Slot) → Decidable (ss = ts)
  | [], [] => isTrue rfl
  | s :: ss, t :: ts => match Slot.decEq s t with
    | isTrue h => match slotsDecEq ss ts with
      | isTrue hs => isTrue (by rw [h, hs])
      | isFalse hs => isFalse fun p => hs (by cases p; rfl)
    | isFalse h => isFalse fun p => h (by cases p; rfl)
  | [], _ :: _ => isFalse nofun
  | _ :: _, [] => isFalse nofun

end

instance : DecidableEq Step := Step.decEq
instance : DecidableEq Slot := Slot.decEq

namespace Step

def kind : Step → String
  | ⟨kind, _, _, _, _⟩ => kind

def attributes : Step → Attributes
  | ⟨_, attributes, _, _, _⟩ => attributes

def text : Step → Option String
  | ⟨_, _, text, _, _⟩ => text

def expression : Step → Option Expression
  | ⟨_, _, _, expression, _⟩ => expression

def slots : Step → List Slot
  | ⟨_, _, _, _, slots⟩ => slots

/-- A step with nothing but its kind. -/
def bare (kind : String) : Step := ⟨kind, .empty, none, none, []⟩

def withAttributes (s : Step) (attributes : Attributes) : Step :=
  ⟨s.kind, attributes, s.text, s.expression, s.slots⟩

def withText (s : Step) (text : Option String) : Step :=
  ⟨s.kind, s.attributes, text, s.expression, s.slots⟩

def withExpression (s : Step) (expression : Expression) : Step :=
  ⟨s.kind, s.attributes, s.text, some expression, s.slots⟩

/-- The step with one more child at the end. -/
def push (s : Step) (slot : Slot) : Step :=
  ⟨s.kind, s.attributes, s.text, s.expression, s.slots ++ [slot]⟩

/-- The step with a child under the tag of its own kind, if there is one to add. -/
def pushElement (s : Step) : Option Step → Step
  | some child => s.push (.element child.kind child)
  | none => s

/-- The step with one more nested step, if there is one to add. -/
def pushNested (s : Step) : Option Step → Step
  | some child => s.push (.nested child)
  | none => s

def isEmpty (s : Step) : Bool :=
  s.attributes.isEmpty && s.text.isNone && s.expression.isNone && s.slots.isEmpty

end Step

namespace Slot

def nested? : Slot → Option Step
  | .nested step => some step
  | .text _ _ | .element _ _ => none

def tag? : Slot → Option String
  | .nested _ => none
  | .text tag _ | .element tag _ => some tag

end Slot

namespace Step

/-- The nested steps, in order. -/
def nestedSteps (s : Step) : List Step := s.slots.filterMap Slot.nested?

/-- The children under `tag`, in order. -/
def childrenTagged (s : Step) (tag : String) : List Slot := s.slots.filter (·.tag? = some tag)

end Step
end RouteNotation
