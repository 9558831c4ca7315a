import RouteNotation.Proofs.Blueprint.EntityValues
import RouteNotation.Proofs.Blueprint.Sections
import RouteNotation.Proofs.Route.Merging

/-!
Each section of markup adds a document of its own to those before it, and some add nothing. Main
statements: `value_readSections` and `value_readSections_of_same`.
-/

namespace RouteNotation.Blueprint

open Xml

mutual

/-- What a section adds does not depend on what was read before. -/
theorem value_readSection (d : Document) :
    (e : Element) → (readSection d e).value = d.merge (readSection .empty e).value
  | ⟨name, attributes, children⟩ => by
    simp only [readSection]
    split
    · simp [Document.merge, Document.empty, value_readBean (entityPath _ d.beans.length)
        (entityPath ⟨name, attributes, children⟩ 0)]
    · simp [Document.merge, Document.empty, value_readReference (entityPath _ d.references.length)
        (entityPath ⟨name, attributes, children⟩ 0)]
    · obtain ⟨_, _, configuration, _, _⟩ := d
      cases configuration <;> simp [Document.merge, Document.empty]
    · simp [Document.merge, Document.empty, value_readRestApi (entityPath _ d.restApis.length)
        (entityPath ⟨name, attributes, children⟩ 0)]
    · simp [Document.merge, Document.empty, value_readRoute (entityPath _ d.routes.length)
        (entityPath ⟨name, attributes, children⟩ 0)]
    · exact value_readSections d children
    · exact value_readSections d children
    · exact value_readSections d children
    · exact (Document.merge_empty d).symm
    · exact (Document.merge_empty d).symm

theorem value_readSections (d : Document) :
    (cs : List Content) → (readSections d cs).value = d.merge (readSections .empty cs).value
  | [] => (Document.merge_empty d).symm
  | .text _ :: rest => value_readSections d rest
  | .element e :: rest => by
    rw [readSections, readSections, Noted.value_bind, Noted.value_bind,
      value_readSections _ rest, value_readSection d e, Document.merge_assoc,
      ← value_readSections _ rest]

end

theorem readSections_append (d : Document) (cs ds : List Content) :
    readSections d (cs ++ ds) = readSections d cs >>= fun d => readSections d ds := by
  simp only [readSections_eq, List.filterMap_append, List.foldlM_append]

/-- The elements that only group sections. -/
def groupTags : List String := ["camelContext", "routes", "rests"]

def sectionTags : List String :=
  ["bean", "reference", "restConfiguration", "rest", "route", "property-placeholder"] ++ groupTags

/-- Sections that are passed over: entities without a field that they must have, and tags without a
rule. -/
inductive PassedOver : Element → Prop
  | bean {e : Element} : e.localName = "bean" → e.attribute? "id" = none → PassedOver e
  | reference {e : Element} : e.localName = "reference" →
      e.attribute? "id" = none ∨ e.attribute? "interface" = none → PassedOver e
  | route {e : Element} : e.localName = "route" →
      (∀ child ∈ e.elements, child.localName = "from" → child.attribute? "uri" = none) →
      PassedOver e
  | unsupported {e : Element} : e.localName ∉ sectionTags → PassedOver e

/-- Two lists of content that differ in one thing without a meaning: a section that is passed over,
or a group around some of the sections. Either can itself stand within groups. -/
inductive SameSections : List Content → List Content → Prop
  | passedOver {before after : List Content} {e : Element} : PassedOver e →
      SameSections (before ++ .element e :: after) (before ++ after)
  | grouped {before inner after : List Content} {name : String} {attributes : Attributes} :
      localName name ∈ groupTags →
      SameSections (before ++ .element ⟨name, attributes, inner⟩ :: after)
        (before ++ (inner ++ after))
  | within {before cs ds after : List Content} {name : String} {attributes : Attributes} :
      localName name ∈ groupTags → SameSections cs ds →
      SameSections (before ++ .element ⟨name, attributes, cs⟩ :: after)
        (before ++ .element ⟨name, attributes, ds⟩ :: after)

theorem readSection_of_group (d : Document) {name : String} {attributes : Attributes}
    {children : List Content} (h : localName name ∈ groupTags) :
    readSection d ⟨name, attributes, children⟩ = readSections d children := by
  simp only [groupTags, List.mem_cons, List.not_mem_nil, or_false] at h
  rcases h with tag | tag | tag <;> rw [readSection] <;> simp only [tag]

theorem value_readRoute_of_sourceless (path : String) {e : Element}
    (h : ∀ child ∈ e.elements, child.localName = "from" → child.attribute? "uri" = none) :
    (readRoute path e).value = none := by
  have sourceless : (e.elements.foldlM (readRouteChild path)
      (e.attributes.entries.foldl addRouteAttribute .empty)).value.source = none := by
    apply Noted.foldlM_induction (P := fun draft : RouteDraft => draft.source = none)
      (source_addRouteAttributes e.attributes)
    intro draft child there none
    unfold readRouteChild
    dsimp only
    split
    · rename_i tag
      split
      · simp [readEndpoint, h child there tag]
      · exact none
    · split <;> exact none
    · exact none
  rw [readRoute, Noted.value_bind, RouteDraft.finish, sourceless]
  rfl

theorem value_readSection_of_passedOver (d : Document) {e : Element} (h : PassedOver e) :
    (readSection d e).value = d := by
  cases h with
  | bean tag missing =>
    rw [readSection_of_bean tag, Noted.value_bind, readBean, missing]
    simp [Noted.skippedWithout]
  | reference tag missing =>
    have none : ∀ path, (readReference path e).value = none := by
      intro path
      unfold readReference
      rcases missing with missing | missing
      · rw [missing]
        rfl
      · rw [missing]
        cases e.attribute? "id" <;> rfl
    rw [readSection_of_reference tag, Noted.value_bind, none]
    simp
  | route tag missing =>
    rw [readSection_of_route tag, Noted.value_bind, value_readRoute_of_sourceless _ missing]
    simp
  | unsupported other =>
    obtain ⟨name, attributes, children⟩ := e
    simp only [Element.localName, Element.name, sectionTags, groupTags, List.cons_append,
      List.nil_append, List.mem_cons, List.not_mem_nil, or_false, not_or] at other
    rw [readSection]
    split <;> simp_all

/-- What has no meaning changes no document. -/
theorem value_readSections_of_same {cs ds : List Content} (h : SameSections cs ds) (d : Document) :
    (readSections d cs).value = (readSections d ds).value := by
  induction h generalizing d with
  | passedOver passed =>
    rw [readSections_append, readSections_append, Noted.value_bind, Noted.value_bind, readSections,
      Noted.value_bind, value_readSection_of_passedOver _ passed]
  | grouped tag =>
    rw [readSections_append, readSections_append, Noted.value_bind, Noted.value_bind, readSections,
      readSection_of_group _ tag, readSections_append]
  | within tag _ ih =>
    rw [readSections_append, readSections_append, Noted.value_bind, Noted.value_bind, readSections,
      readSections, Noted.value_bind, Noted.value_bind, readSection_of_group _ tag,
      readSection_of_group _ tag, ih]

end RouteNotation.Blueprint
