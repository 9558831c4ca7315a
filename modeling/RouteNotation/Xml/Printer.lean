import RouteNotation.Xml.Element
import RouteNotation.Xml.Escape

/-!
Indented XML. A childless element is one empty tag, an element with texts alone keeps them on the
line of its tags, and any other content takes a line for each piece.
-/

namespace RouteNotation.Xml

structure Layout where
  /-- Spaces for each level of depth. -/
  indent : Nat := 2
  /-- Whether the XML declaration comes first. -/
  declaration : Bool := true
  deriving DecidableEq, Repr

def Layout.margin (layout : Layout) (depth : Nat) : String :=
  .ofList (List.replicate (depth * layout.indent) ' ')

def declaration : String := "<?xml version=\"1.0\" encoding=\"UTF-8\"?>\n"

def renderAttribute (a : String × String) : String := s!" {a.1}=\"{escapeAttribute a.2}\""

def renderAttributes (attributes : Attributes) : String :=
  String.join (attributes.entries.map renderAttribute)

def endTag (name : String) : String := s!"</{name}>\n"

mutual

def Element.render (layout : Layout) (depth : Nat) : Element → String
  | ⟨name, attributes, children⟩ =>
    let opened := s!"{layout.margin depth}<{name}{renderAttributes attributes}"
    if children.isEmpty then s!"{opened}/>\n"
    else if children.all fun c => c.element?.isNone then
      s!"{opened}>{escapeText (String.join (children.filterMap Content.text?))}{endTag name}"
    else
      let content := renderContents layout (depth + 1) children
      s!"{opened}>\n{content}{layout.margin depth}{endTag name}"

/-- The content of an element with elements in it. A text is trimmed and takes a line. -/
def renderContents (layout : Layout) (depth : Nat) : List Content → String
  | [] => ""
  | .element e :: rest => e.render layout depth ++ renderContents layout depth rest
  | .text value :: rest =>
    s!"{layout.margin depth}{escapeText (Text.trim value)}\n" ++ renderContents layout depth rest

end

/-- A whole document. -/
def render (layout : Layout) (root : Element) : String :=
  (if layout.declaration then declaration else "") ++ root.render layout 0

end RouteNotation.Xml
