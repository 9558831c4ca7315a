import RouteNotation.Xml.Element

/-!
Wrappers are elements without attributes that only group what they hold. Taking them out leaves
their content in their place, so a second pass finds nothing to do.
-/

namespace RouteNotation.Xml

/-- Groups nested steps. -/
def stepsTag : String := "steps"
/-- Groups repeated children. -/
def childrenTag : String := "children"
/-- Groups the entries of one list. -/
def itemTag : String := "item"

def Element.isWrapper (e : Element) : Bool :=
  e.attributes.isEmpty && [stepsTag, childrenTag, itemTag].contains e.name

mutual

/-- The element without the wrappers below it; it is kept itself, even if it is one. -/
def Element.unwrap : Element → Element
  | ⟨name, attributes, children⟩ => ⟨name, attributes, unwrapContents children⟩

def unwrapContents : List Content → List Content
  | [] => []
  | .element e :: rest =>
    (if e.isWrapper then e.unwrap.children else [.element e.unwrap]) ++ unwrapContents rest
  | .text value :: rest => .text value :: unwrapContents rest

end
end RouteNotation.Xml
