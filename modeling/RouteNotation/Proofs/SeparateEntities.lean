import RouteNotation.Proofs.Blueprint.SeparateSections
import RouteNotation.Proofs.Dsl.SeparateSections

/-!
Entities are read apart from one another in both notations. Main statement: the document of two
lists is the merge of their documents, and what is passed over changes none.
-/

namespace RouteNotation

/-- Below any root that is not itself a route, and in any sequence of items. -/
theorem readDocument_append_merge {name : String} (notRoute : Xml.localName name ≠ "route")
    (attributes : Attributes) :
    (∀ cs ds : List Xml.Content, (Blueprint.readDocument ⟨name, attributes, cs ++ ds⟩).value =
      (Blueprint.readDocument ⟨name, attributes, cs⟩).value.merge
        (Blueprint.readDocument ⟨name, attributes, ds⟩).value) ∧
    (∀ cs ds, Blueprint.SameSections cs ds →
      (Blueprint.readDocument ⟨name, attributes, cs⟩).value =
        (Blueprint.readDocument ⟨name, attributes, ds⟩).value) ∧
    (∀ vs ws : List Yaml.Value, ∃ d e both, Dsl.readDocument (.sequence vs) = .ok d ∧
      Dsl.readDocument (.sequence ws) = .ok e ∧ Dsl.readDocument (.sequence (vs ++ ws)) = .ok both ∧
      both.value = d.value.merge e.value) ∧
    (∀ vs ws, Dsl.SameItems vs ws → ∃ d e, Dsl.readDocument (.sequence vs) = .ok d ∧
      Dsl.readDocument (.sequence ws) = .ok e ∧ d.value = e.value) := by
  have below : ∀ cs, Blueprint.readDocument ⟨name, attributes, cs⟩ =
      Blueprint.readSections .empty cs := by
    intro cs
    exact if_neg notRoute
  refine ⟨fun cs ds => ?_, fun cs ds same => ?_, fun vs ws => ?_, fun vs ws same => ?_⟩
  · rw [below, below, below, Blueprint.readSections_append, Noted.value_bind,
      Blueprint.value_readSections]
  · rw [below, below, Blueprint.value_readSections_of_same same]
  · refine ⟨_, _, _, rfl, rfl, rfl, ?_⟩
    simp only [Dsl.value_readItems "", List.map_append, Document.mergeAll_append,
      Document.empty_merge]
  · exact ⟨_, _, rfl, rfl, Dsl.value_readItems_of_same same 0 0 .empty⟩

section Example

def sourcelessRoute : Xml.Element :=
  .ofElements "route" .empty [.leaf "from" .empty, .leaf "to" (.single "uri" "log:x")]

def soundRoute : Xml.Element :=
  .ofElements "route" .empty [.leaf "from" (.single "uri" "a:b")]

/-- A bean, and routes in a context. -/
def sectionsAround (routes : List Xml.Element) : List Xml.Content :=
  [.element (.leaf "bean" (.single "id" "b")),
    .element ⟨"c:camelContext", .empty, routes.map .element⟩]

def soundReference : Yaml.Value :=
  .mapping [Yaml.textEntry "id" "s", Yaml.textEntry "interface" "I"]

def soundSource : Yaml.Entry := Yaml.entry "from" (.ofEntry "uri" (.string "a:b"))

/-- References in an item, with a source that stands alone. -/
def itemAround (references : List Yaml.Value) : Yaml.Value :=
  .mapping [Yaml.entry "reference" (.sequence references), soundSource]

theorem sameSections_sourcelessRoute : Blueprint.SameSections
    (sectionsAround [sourcelessRoute, soundRoute]) (sectionsAround [soundRoute]) := by
  have passed : Blueprint.PassedOver sourcelessRoute := .route (by decide) (by decide)
  have routes : Blueprint.SameSections ([] ++ .element sourcelessRoute :: [.element soundRoute])
      ([] ++ [.element soundRoute]) := .passedOver passed
  have context : Blueprint.SameSections
      ([.element (.leaf "bean" (.single "id" "b"))] ++ .element ⟨"c:camelContext", .empty, _⟩ :: [])
      ([.element (.leaf "bean" (.single "id" "b"))] ++ .element ⟨"c:camelContext", .empty, _⟩ :: []) :=
    .within (by decide) routes
  exact context

theorem sameItems_incompleteReference : Dsl.SameItems
    [itemAround [.ofEntry "id" (.string "r"), soundReference]] [itemAround [soundReference]] := by
  have missing : Dsl.Incomplete "reference" [Yaml.entry "id" (.string "r")] := .inr rfl
  have lists : Dsl.SameEntityLists "reference"
      (.sequence ([] ++ .ofEntry "id" (.string "r") :: [soundReference]))
      (.sequence ([] ++ [soundReference])) := .incomplete rfl missing
  have sections : (itemAround [.ofEntry "id" (.string "r"), soundReference]).mapping? =
      some ([] ++ (.string "reference", .sequence _) :: [soundSource]) := rfl
  have items : Dsl.SameItems ([] ++ itemAround _ :: []) ([] ++ .mapping _ :: []) :=
    .entity sections rfl lists
  exact items

theorem readDocument_append_merge_incomplete :
    Xml.localName "x:blueprint" ≠ "route" ∧
    (Blueprint.readDocument ⟨"x:blueprint", .empty,
        sectionsAround [sourcelessRoute, soundRoute]⟩).value =
      (Blueprint.readDocument ⟨"x:blueprint", .empty, sectionsAround [soundRoute]⟩).value ∧
    (Blueprint.readDocument ⟨"x:blueprint", .empty,
      sectionsAround [soundRoute]⟩).value.routes.length = 1 ∧
    ∃ d e, Dsl.readDocument (.sequence
        [itemAround [.ofEntry "id" (.string "r"), soundReference]]) = .ok d ∧
      Dsl.readDocument (.sequence [itemAround [soundReference]]) = .ok e ∧
      d.value = e.value ∧ e.value.references.length = 1 := by
  have notRoute : Xml.localName "x:blueprint" ≠ "route" := by decide
  obtain ⟨_, sections, _, items⟩ := readDocument_append_merge notRoute .empty
  obtain ⟨d, e, read, reread, same⟩ := items _ _ sameItems_incompleteReference
  refine ⟨notRoute, sections _ _ sameSections_sourcelessRoute, by decide, d, e, read, reread, same,
    ?_⟩
  cases reread
  decide

end Example

end RouteNotation
