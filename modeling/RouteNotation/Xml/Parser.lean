import RouteNotation.Xml.Element
import RouteNotation.Xml.Markup

/-!
Reading a document. The elements that are open at a place form a stack, and each piece of markup
changes its top, pushes or pops. Every piece passes at least one byte, so reading ends.
-/

namespace RouteNotation.Xml

theorem of_skipSection {mark : List UInt8} {c d : Cursor} {m : Markup}
    (h : skipSection mark c = .ok (m, d)) : c.Reaches d := by
  simp only [skipSection] at h
  split at h
  · cases h
  · rename_i hs
    cases h
    exact of_readSection hs

theorem of_readMarkup {limit depth : Nat} {name : String} {c d : Cursor} {m : Markup}
    (h : readMarkup limit depth name c = .ok (m, d)) :
    c.Reaches d ∧ d.rest.length < c.rest.length := by
  simp only [readMarkup] at h
  split at h
  · cases h
  · rename_i hend
    have hc : c.rest ≠ [] := by simpa [Cursor.atEnd] using hend
    have behind : ∀ {n : Nat}, 0 < n → (c.advanceBy n).Reaches d →
        c.Reaches d ∧ d.rest.length < c.rest.length := fun hn hr =>
      ⟨(Cursor.Reaches.advanceBy _ _).trans hr,
        Nat.lt_of_le_of_lt hr.length_le (Cursor.length_advanceBy_lt hn hc)⟩
    split at h
    · exact behind (by omega) (of_readEndTag h)
    · split at h
      · exact behind (by omega) (of_skipSection h)
      · split at h
        · split at h
          · cases h
          · rename_i hs
            cases h
            exact behind (by omega) (of_readSection hs)
        · split at h
          · exact behind (by omega) (of_skipSection h)
          · split at h
            · split at h
              · cases h
              · rename_i ht
                cases h
                exact of_readStartTag ht
            · rename_i h60
              have hr := of_readCharacters h
              refine ⟨hr.1, hr.2 ?_⟩
              cases hl : c.rest with
              | nil => exact absurd hl hc
              | cons b rest =>
                simp only [Cursor.current?, hl, List.head?_cons, Option.some.injEq] at h60
                simp [Cursor.current?, hl, h60]

/-- An element whose end tag is still to come. -/
structure OpenElement where
  name : String
  attributes : Attributes
  /-- The content so far, the last piece first. -/
  content : List Content

namespace OpenElement

def add (e : OpenElement) (c : Content) : OpenElement := { e with content := c :: e.content }

def close (e : OpenElement) : Element := ⟨e.name, e.attributes, e.content.reverse⟩

end OpenElement

/-- Reads to the end of the outermost of the open elements: `top` and the `parents` around it. -/
def readContent (limit : Nat) (top : OpenElement) (parents : List OpenElement) (c : Cursor) :
    Read Element :=
  match _h : readMarkup limit (parents.length + 2) top.name c with
  | .error e => .error e
  | .ok (.nothing, d) => readContent limit top parents d
  | .ok (.characters text, d) => readContent limit (top.add (.text text)) parents d
  | .ok (.startTag tag, d) =>
    if tag.closed then
      readContent limit (top.add (.element (.leaf tag.name tag.attributes))) parents d
    else readContent limit ⟨tag.name, tag.attributes, []⟩ (top :: parents) d
  | .ok (.endTag, d) =>
    match parents with
    | [] => .ok (top.close, d)
    | parent :: parents => readContent limit (parent.add (.element top.close)) parents d
termination_by c.rest.length
decreasing_by all_goals exact (of_readMarkup _h).2

/-- An element from its start tag on. -/
def readElement (limit : Nat) (c : Cursor) : Read Element :=
  match readStartTag limit 1 c with
  | .error e => .error e
  | .ok (tag, c) =>
    if tag.closed then .ok (.leaf tag.name tag.attributes, c)
    else readContent limit ⟨tag.name, tag.attributes, []⟩ [] c

/-- What may stand around the root: white space, processing instructions, comments and
declarations. -/
def skipMisc (c : Cursor) : Except Error Cursor :=
  let start := c.skipSpace
  if _hend : start.rest = [] then .ok start
  else if start.startsWith instructionStart then
    match _h : readSection instructionEnd (start.advanceBy 2) with
    | .error e => .error e
    | .ok (_, d) => skipMisc d
  else if start.startsWith commentStart then
    match _h : readSection commentEnd (start.advanceBy 4) with
    | .error e => .error e
    | .ok (_, d) => skipMisc d
  else if start.startsWith declarationStart then
    match _h : skipDeclaration start with
    | .error e => .error e
    | .ok d => skipMisc d
  else .ok start
termination_by c.rest.length
decreasing_by
  · exact Nat.lt_of_le_of_lt (of_readSection _h).length_le
      (Nat.lt_of_lt_of_le (Cursor.length_advanceBy_lt (by omega) _hend)
        (Cursor.Reaches.skipSpace c).length_le)
  · exact Nat.lt_of_le_of_lt (of_readSection _h).length_le
      (Nat.lt_of_lt_of_le (Cursor.length_advanceBy_lt (by omega) _hend)
        (Cursor.Reaches.skipSpace c).length_le)
  · exact Nat.lt_of_lt_of_le (of_skipDeclaration _h).2 (Cursor.Reaches.skipSpace c).length_le

def byteOrderMark : List UInt8 := [0xEF, 0xBB, 0xBF]

def skipByteOrderMark (c : Cursor) : Cursor :=
  if c.startsWith byteOrderMark then c.advanceBy 3 else c

/-- The root element of a document whose elements are at most `limit` deep; zero is no limit. -/
def parse (limit : Nat) (bytes : List UInt8) : Except Error Element :=
  match skipMisc (skipByteOrderMark (.ofBytes bytes)) with
  | .error e => .error e
  | .ok c =>
    if c.atEnd then .error (Fault.missingRoot.errorAt c.position)
    else match readElement limit c with
      | .error e => .error e
      | .ok (root, c) => match skipMisc c with
        | .error e => .error e
        | .ok c =>
          if c.atEnd then .ok root else .error (Fault.contentAfterRoot.errorAt c.position)

/-- The depth that is read when no other limit is set. -/
def defaultLimit : Nat := 128

end RouteNotation.Xml
