import RouteNotation.Proofs.Blueprint.Sections
import RouteNotation.Proofs.Dsl.CompleteEntities

/-!
From markup to value trees. Main statement: what is read from markup is read again from the tree
that it is written as with no entity lost, provided that the URIs of all sources have something in
them.
-/

namespace RouteNotation

open OrderedMap

namespace Blueprint

open Xml

/-- No source has an attribute that is called like its URI. -/
def PlainSources (d : Document) : Prop :=
  ∀ route ∈ d.routes, "uri" ∉ route.source.attributes.keys

theorem readEndpoint_plain (path : String) (e : Element) :
    ∀ source ∈ (readEndpoint path e).value, "uri" ∉ source.attributes.keys := by
  unfold readEndpoint
  split
  · intro source there
    contradiction
  · rename_i uri _
    rintro source ⟨⟩
    apply Noted.foldlM_induction (P := fun source : Endpoint => "uri" ∉ source.attributes.keys)
    · intro there
      obtain ⟨a, kept, name⟩ := List.mem_map.1 there
      have other : a.1 ≠ "uri" := by simpa using (List.mem_filter.1 kept).2
      exact other name
    · intro source child _ plain
      unfold readParameter
      dsimp only
      split <;> exact plain

theorem readRouteChild_plain (path : String) {draft : RouteDraft} (e : Element)
    (h : ∀ source ∈ draft.source, "uri" ∉ source.attributes.keys) :
    ∀ source ∈ (readRouteChild path draft e).value.source, "uri" ∉ source.attributes.keys := by
  unfold readRouteChild
  dsimp only
  split
  · split
    · exact readEndpoint_plain _ e
    · exact h
  · split <;> exact h
  · exact h

theorem readRoute_plain (path : String) (e : Element) :
    ∀ route ∈ (readRoute path e).value, "uri" ∉ route.source.attributes.keys := by
  have all : ∀ source ∈ (e.elements.foldlM (readRouteChild path)
      (e.attributes.entries.foldl addRouteAttribute .empty)).value.source,
      "uri" ∉ source.attributes.keys := by
    apply Noted.foldlM_induction (P := fun draft : RouteDraft =>
      ∀ source ∈ draft.source, "uri" ∉ source.attributes.keys)
    · rw [source_addRouteAttributes]
      nofun
    · intro draft child _ plain
      exact readRouteChild_plain path child plain
  intro route found
  rw [readRoute, Noted.value_bind, RouteDraft.finish] at found
  split at found
  · rename_i source there
    cases found
    exact all source there
  · cases found

mutual

theorem readSection_plain {d : Document} (h : PlainSources d) :
    (e : Element) → PlainSources (readSection d e).value
  | ⟨name, attributes, children⟩ => by
    rw [readSection]
    split
    · exact h
    · exact h
    · split <;> exact h
    · exact h
    · intro route hr
      rcases List.mem_append.1 hr with old | new
      · exact h route old
      · exact readRoute_plain _ _ route (Option.mem_toList.1 new)
    · exact readSections_plain h children
    · exact readSections_plain h children
    · exact readSections_plain h children
    · exact h
    · exact h

theorem readSections_plain {d : Document} (h : PlainSources d) :
    (cs : List Content) → PlainSources (readSections d cs).value
  | [] => h
  | .text _ :: rest => readSections_plain h rest
  | .element e :: rest => readSections_plain (readSection_plain h e) rest

end

theorem readDocument_plain (root : Element) : PlainSources (readDocument root).value := by
  have start : PlainSources .empty := by
    intro route none
    cases none
  unfold readDocument
  split
  · exact readSection_plain start root
  · exact readSections_plain start root.children

end Blueprint

theorem preparedTree_writtenTree {options : Options} (kept : options.stripGeneratedIds = false)
    (d : Document) : preparedTree options (writtenTree options d).value =
      Uri.rejoin options.unpackUris (Dsl.documentValue d).value := by
  rw [preparedTree, kept]
  rfl

/-- What is read from markup is there again, as often as before, when it is read from its tree. -/
theorem readDocument_readXml {options : Options} (kept : options.stripGeneratedIds = false)
    {input : String} {d : Noted Document} (read : readXml options input = .ok d)
    (sources : ∀ route ∈ d.value.routes, route.source.uri ≠ "") :
    ∃ e, Dsl.readDocument (preparedTree options (writtenTree options d.value).value) = .ok e ∧
      Dsl.SameEntities d.value e.value := by
  have plain : Blueprint.PlainSources d.value := by
    rw [readXml] at read
    cases parsed : Xml.parse options.depthLimit (Utf8.encode input) with
    | error fault =>
      rw [parsed] at read
      cases read
    | ok root =>
      rw [parsed] at read
      cases read
      exact Blueprint.readDocument_plain root
  rw [preparedTree_writtenTree kept]
  exact Dsl.readDocument_rejoin _ fun route hr => ⟨sources route hr, plain route hr⟩

theorem eq_ok_of_toOption {ε α : Type} {x : Except ε α} {a : α} (h : x.toOption = some a) :
    x = .ok a := by
  cases x with
  | error e => cases h
  | ok b => exact congrArg _ (Option.some.inj h)

/-- Attributes that are called like other fields, and a parameter that is a URI itself. -/
def crowdedText : String :=
  "<blueprint><bean id='b' name='c' uri='timer:t?a=b' parameters='p' class='C'/>" ++
  "<reference id='r' interface='I'/><camelContext><restConfiguration uri='a:b?c=d'/>" ++
  "<rest path='/p' get='x'/><route id='q' from='x' steps='y' uri='a:b?c=d'>" ++
  "<from uri='jms:in?a=b' steps='s' parameters='p'><parameter name='uri' value='c:d?e=f'/>" ++
  "</from><to uri='log:x'/></route><route><from uri='?'/></route></camelContext></blueprint>"

def keptIds : Options := { Options.default with stripGeneratedIds := false }

theorem readDocument_readXml_crowdedText :
    keptIds.stripGeneratedIds = false ∧ ∃ d, readXml keptIds crowdedText = .ok d ∧
      d.notes = [] ∧ d.value.routes.length = 2 ∧
      (∀ route ∈ d.value.routes, route.source.uri ≠ "") ∧
      ∃ e, Dsl.readDocument (preparedTree keptIds (writtenTree keptIds d.value).value) = .ok e ∧
        Dsl.SameEntities d.value e.value := by
  have known : (readXml keptIds crowdedText).toOption.any (fun d => d.notes = [] ∧
      d.value.routes.length = 2 ∧ ∀ route ∈ d.value.routes, route.source.uri ≠ "") := by
    decide +kernel
  obtain ⟨d, found, facts⟩ := (Option.any_eq_true _ _).1 known
  obtain ⟨notes, two, sources⟩ := of_decide_eq_true facts
  have read := eq_ok_of_toOption found
  exact ⟨rfl, d, read, notes, two, sources, readDocument_readXml rfl read sources⟩

/-- A route whose source has an empty URI is read from markup, but not from its tree. -/
theorem readDocument_readXml_emptyUri :
    ∃ d e, readXml keptIds "<route><from uri=''/></route>" = .ok d ∧ d.notes = [] ∧
      Dsl.readDocument (preparedTree keptIds (writtenTree keptIds d.value).value) = .ok e ∧
      d.value.routes.length = 1 ∧ e.value.routes.length = 0 := by
  have read : readXml keptIds "<route><from uri=''/></route>" =
      .ok (pure (.ofRoute ⟨none, none, .empty, none, ⟨"", .empty, .empty⟩, []⟩)) :=
    eq_ok_of_toOption (by decide +kernel)
  have reread : Dsl.readDocument (preparedTree keptIds (writtenTree keptIds
      (.ofRoute ⟨none, none, .empty, none, ⟨"", .empty, .empty⟩, []⟩)).value) =
        .ok ⟨.empty, [.missingField "[0]/route" "from.uri"]⟩ :=
    eq_ok_of_toOption (by decide +kernel)
  exact ⟨_, _, read, rfl, reread, rfl, rfl⟩

end RouteNotation
