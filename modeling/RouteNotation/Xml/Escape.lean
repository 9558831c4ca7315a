/-!
Characters that stand for themselves nowhere in markup are written as predefined entities. A quote
needs that only inside an attribute value.
-/

namespace RouteNotation.Xml

def textForm : Char → List Char
  | '&' => "&amp;".toList
  | '<' => "&lt;".toList
  | '>' => "&gt;".toList
  | c => [c]

def attributeForm : Char → List Char
  | '"' => "&quot;".toList
  | c => textForm c

/-- A text as character data. -/
def escapeText (s : String) : String := .ofList (s.toList.flatMap textForm)

/-- A text as the value of an attribute in double quotes. -/
def escapeAttribute (s : String) : String := .ofList (s.toList.flatMap attributeForm)

end RouteNotation.Xml
