import RouteNotation.OrderedMap
import RouteNotation.Text.Blank
import RouteNotation.Xml.Name

/-!
Element trees: an element has a name, attributes in order, and elements and texts as content.
-/

namespace RouteNotation.Xml

mutual

inductive Element
  | mk (name : String) (attributes : Attributes) (children : List Content)

inductive Content
  | element (e : Element)
  | text (value : String)

end

instance : Inhabited Element := ⟨.mk "" .empty []⟩

mutual

def Element.decEq : (e f : Element) → Decidable (e = f)
  | ⟨n, a, cs⟩, ⟨m, b, ds⟩ =>
    if hn : n = m then
      if ha : a = b then
        match contentsDecEq cs ds with
        | isTrue h => isTrue (by rw [hn, ha, h])
        | isFalse h => isFalse fun p => h (by cases p; rfl)
      else isFalse fun p => ha (by cases p; rfl)
    else isFalse fun p => hn (by cases p; rfl)

def Content.decEq : (c d : Content) → Decidable (c = d)
  | .element e, .element f => match Element.decEq e f with
    | isTrue h => isTrue (by rw [h])
    | isFalse h => isFalse fun p => h (by cases p; rfl)
  | .text s, .text t =>
    if h : s = t then isTrue (by rw [h]) else isFalse fun p => h (by cases p; rfl)
  | .element _, .text _ => isFalse nofun
  | .text _, .element _ => isFalse nofun

def contentsDecEq : (cs ds : List Content) → Decidable (cs = ds)
  | [], [] => isTrue rfl
  | c :: cs, d :: ds => match Content.decEq c d with
    | isTrue h => match contentsDecEq cs ds with
      | isTrue hs => isTrue (by rw [h, hs])
      | isFalse hs => isFalse fun p => hs (by cases p; rfl)
    | isFalse h => isFalse fun p => h (by cases p; rfl)
  | [], _ :: _ => isFalse nofun
  | _ :: _, [] => isFalse nofun

end

instance : DecidableEq Element := Element.decEq
instance : DecidableEq Content := Content.decEq

def Content.element? : Content → Option Element
  | .element e => some e
  | .text _ => none

def Content.text? : Content → Option String
  | .element _ => none
  | .text value => some value

namespace Element

def name : Element → String
  | ⟨name, _, _⟩ => name

def attributes : Element → Attributes
  | ⟨_, attributes, _⟩ => attributes

def children : Element → List Content
  | ⟨_, _, children⟩ => children

/-- An element with nothing in it. -/
def leaf (name : String) (attributes : Attributes) : Element := ⟨name, attributes, []⟩

/-- An element with one text in it. -/
def ofText (name : String) (attributes : Attributes) (value : String) : Element :=
  ⟨name, attributes, [.text value]⟩

/-- An element with elements in it. -/
def ofElements (name : String) (attributes : Attributes) (elements : List Element) : Element :=
  ⟨name, attributes, elements.map .element⟩

/-- The name without its namespace. -/
def localName (e : Element) : String := Xml.localName e.name

def attribute? (e : Element) (key : String) : Option String := e.attributes.get? key

/-- The elements directly below, in order. -/
def elements (e : Element) : List Element := e.children.filterMap Content.element?

/-- The elements directly below with this local name. -/
def elementsNamed (e : Element) (name : String) : List Element :=
  e.elements.filter (·.localName = name)

def hasElements (e : Element) : Bool := !e.elements.isEmpty

/-- The texts directly below, joined. -/
def characters (e : Element) : String := String.join (e.children.filterMap Content.text?)

/-- The joined texts without blanks at the ends, if anything is left. -/
def text? (e : Element) : Option String :=
  let text := Text.trim e.characters
  if text.isEmpty then none else some text

/-- Text and nothing else: no attribute and no element. -/
def isTextOnly (e : Element) : Bool := e.attributes.isEmpty && !e.hasElements && e.text?.isSome

end Element
end RouteNotation.Xml
