import RouteNotation.Conversion
import RouteNotation.Proofs.Dsl.RouteRoundTrip

/-!
Documents through value trees and back. Main statement: a canonical document is read from the tree
it is written as with the children of its steps grouped, whether URIs are taken apart or not.
-/

namespace RouteNotation.Dsl

open Yaml OrderedMap Uri

/-- A document that a value tree tells in full, up to the order of groups. -/
structure CanonicalDocument (d : Document) : Prop where
  beans : ∀ bean ∈ d.beans, CanonicalBean bean
  configuration : ∀ c ∈ d.restConfiguration, CanonicalRestConfiguration c
  restApis : ∀ api ∈ d.restApis, CanonicalRestApi api
  routes : ∀ route ∈ d.routes, CanonicalRoute route

instance (d : Document) : Decidable (CanonicalDocument d) :=
  decidable_of_iff ((∀ bean ∈ d.beans, CanonicalBean bean) ∧
    (∀ c ∈ d.restConfiguration, CanonicalRestConfiguration c) ∧
    (∀ api ∈ d.restApis, CanonicalRestApi api) ∧ ∀ route ∈ d.routes, CanonicalRoute route)
    ⟨fun ⟨beans, configuration, restApis, routes⟩ => ⟨beans, configuration, restApis, routes⟩,
      fun ⟨beans, configuration, restApis, routes⟩ => ⟨beans, configuration, restApis, routes⟩⟩

/-- The section for all beans, if there are any. -/
def beanItems (beans : List Bean) : List Value :=
  if beans.isEmpty then [] else [.ofEntry "beans" (.sequence (beans.map beanValue))]

/-- The sections of a document whose routes are written in full. -/
def documentItems (d : Document) : List Value :=
  beanItems d.beans ++ (d.references.map fun r => .ofEntry "reference" (referenceValue r)) ++
    (d.restConfiguration.toList.map fun c =>
      .ofEntry "restConfiguration" (restConfigurationValue c)) ++
    (d.restApis.map fun api => .ofEntry "rest" (restApiValue api)) ++
    d.routes.map fun route => .ofEntry "route" (routeTree route)

theorem documentValue_eq {d : Document} (h : CanonicalDocument d) :
    documentValue d = pure (.sequence (documentItems d)) := by
  have routes : (d.routes.zipIdx.map id).mapM (fun r => do
      return Value.ofEntry "route" (← routeValue (routePath r.2 r.1) r.1)) =
        pure (d.routes.zipIdx.map fun r => .ofEntry "route" (routeTree r.1)) := by
    apply Noted.mapM_map_eq_pure
    intro r hr
    rw [id, routeValue_eq _ (h.routes r.1 (List.fst_mem_of_mem_zipIdx hr)), pure_bind]
  have all : (d.routes.zipIdx.map fun r => Value.ofEntry "route" (routeTree r.1)) =
      d.routes.map fun route => .ofEntry "route" (routeTree route) := by
    rw [← List.zipIdx_map_fst 0 d.routes, List.map_map, List.zipIdx_map_fst]
    rfl
  rw [List.map_id, all] at routes
  rw [documentValue, routes, pure_bind]
  rfl

section Reading
variable {index : Nat} {d : Document}

theorem readItems_append (xs ys : List Value) :
    readItems index d (xs ++ ys) =
      readItems index d xs >>= fun d => readItems (index + xs.length) d ys := by
  induction xs generalizing index d with
  | nil => rfl
  | cons x xs ih =>
    simp only [List.cons_append, readItems, ih, bind_assoc, List.length_cons]
    simp only [Nat.add_assoc, Nat.add_comm 1]

theorem readItem_ofEntry (path key : String) (v : Value) :
    readItem path d (.ofEntry key v) = readSection (childPath path key) d key v := by
  have entries : (Value.ofEntry key v).mapping? = some [entry key v] := rfl
  have scalar : (Value.string key).scalarText? = some key := rfl
  simp only [readItem, entries, List.foldlM_cons, List.foldlM_nil, readSectionEntry, entry, scalar,
    bind_pure]

/-- Sections that each add a value to one list of the document. -/
theorem readItems_map {α β : Type} {item : α → Value} {result : α → β}
    (add : Document → List β → Document) {as : List α} (none : ∀ d, add d [] = d)
    (more : ∀ d b bs, add (add d [b]) bs = add d (b :: bs))
    (h : ∀ path d, ∀ a ∈ as, readItem path d (item a) = pure (add d [result a])) :
    readItems index d (as.map item) = pure (add d (as.map result)) := by
  induction as generalizing index d with
  | nil => simp [readItems, none]
  | cons a as ih =>
    rw [List.map_cons, readItems, h _ d a List.mem_cons_self, pure_bind,
      ih fun path d b hb => h path d b (List.mem_cons_of_mem a hb), more, List.map_cons]

theorem readItem_beans (path : String) (d : Document) {beans : List Bean}
    (h : ∀ bean ∈ beans, CanonicalBean bean) :
    readItem path d (.ofEntry "beans" (.sequence (beans.map beanValue))) =
      pure { d with beans := d.beans ++ beans } := by
  have each : ∀ path index, readBeanItems path index (beans.map beanValue) = pure beans := by
    intro path index
    induction beans generalizing index with
    | nil => rfl
    | cons bean rest ih =>
      rw [List.forall_mem_cons] at h
      obtain ⟨es, tree, read, _⟩ := readBean_beanValue (indexPath path index) h.1
      have entries : (Value.mapping es).mapping? = some es := rfl
      rw [List.map_cons, readBeanItems, tree]
      simp only [readBeanItem, entries, read, pure_bind, ih h.2]
      rfl
  have items : (Value.sequence (beans.map beanValue)).sequence? = some (beans.map beanValue) := rfl
  rw [readItem_ofEntry]
  simp only [readSection, readBeans, items, each, pure_bind]

theorem readItem_reference (path : String) (d : Document) (r : Reference) :
    readItem path d (.ofEntry "reference" (referenceValue r)) =
      pure { d with references := d.references ++ [r] } := by
  obtain ⟨es, tree, read, _⟩ := readReference_referenceValue (childPath path "reference") r
  rw [readItem_ofEntry, tree]
  simp only [readSection, readEach, addReference, read, pure_bind, Option.toList_some]

theorem readItem_restConfiguration (path : String) {d : Document} {c : RestConfiguration}
    (h : CanonicalRestConfiguration c) (first : d.restConfiguration = none) :
    readItem path d (.ofEntry "restConfiguration" (restConfigurationValue c)) =
      pure { d with restConfiguration := some c } := by
  obtain ⟨es, tree, read, _⟩ :=
    readRestConfiguration_value (childPath path "restConfiguration") h
  rw [readItem_ofEntry, tree]
  simp only [readSection, readEach, addRestConfiguration, first, Option.isSome_none,
    Bool.false_eq_true, if_false, read, pure_bind]

theorem readItem_rest (path : String) (d : Document) {api : RestApi} (h : CanonicalRestApi api) :
    readItem path d (.ofEntry "rest" (restApiValue api)) =
      pure { d with restApis := d.restApis ++ [api] } := by
  obtain ⟨es, tree, read, _⟩ := readRestApi_restApiValue (childPath path "rest") h
  rw [readItem_ofEntry, tree]
  simp only [readSection, readEach, addRestApi, read, pure_bind]

theorem readItem_route (path : String) (d : Document) {route : Route} (h : CanonicalRoute route) :
    readItem path d (.ofEntry "route" (routeTree route)) =
      pure { d with routes := d.routes ++ [route.regrouped] } := by
  obtain ⟨es, tree, read, _⟩ := readRoute_routeTree (childPath path "route") h
  rw [readItem_ofEntry, tree]
  simp only [readSection, readEach, addRoute, read, pure_bind, Option.toList_some]

theorem readItems_beanItems {beans : List Bean} (h : ∀ bean ∈ beans, CanonicalBean bean) :
    readItems index d (beanItems beans) = pure { d with beans := d.beans ++ beans } := by
  unfold beanItems
  split
  · rename_i none
    simp [readItems, List.isEmpty_iff.1 none]
  · simp only [readItems, readItem_beans _ d h, pure_bind]

theorem readItems_restConfiguration {c : Option RestConfiguration}
    (h : ∀ c' ∈ c, CanonicalRestConfiguration c') (first : d.restConfiguration = none) :
    readItems index d (c.toList.map fun c =>
      .ofEntry "restConfiguration" (restConfigurationValue c)) =
        pure { d with restConfiguration := c } := by
  cases c with
  | none =>
    have same : { d with restConfiguration := none } = d := by rw [← first]
    rw [same]
    rfl
  | some c =>
    simp only [Option.toList_some, List.map_cons, List.map_nil, readItems,
      readItem_restConfiguration _ (h c rfl) first, pure_bind]

theorem readItems_documentItems {d : Document} (h : CanonicalDocument d) :
    readItems 0 .empty (documentItems d) = pure d.regrouped := by
  have references : ∀ {index : Nat} {e : Document},
      readItems index e (d.references.map fun r => .ofEntry "reference" (referenceValue r)) =
        pure { e with references := e.references ++ d.references.map id } :=
    readItems_map (fun e rs => { e with references := e.references ++ rs }) (by simp) (by simp)
      fun path e r _ => readItem_reference path e r
  have apis : ∀ {index : Nat} {e : Document},
      readItems index e (d.restApis.map fun api => .ofEntry "rest" (restApiValue api)) =
        pure { e with restApis := e.restApis ++ d.restApis.map id } :=
    readItems_map (fun e as => { e with restApis := e.restApis ++ as }) (by simp) (by simp)
      fun path e api ha => readItem_rest path e (h.restApis api ha)
  have routes : ∀ {index : Nat} {e : Document},
      readItems index e (d.routes.map fun route => .ofEntry "route" (routeTree route)) =
        pure { e with routes := e.routes ++ d.routes.map Route.regrouped } :=
    readItems_map (fun e rs => { e with routes := e.routes ++ rs }) (by simp) (by simp)
      fun path e route hr => readItem_route path e (h.routes route hr)
  rw [documentItems, readItems_append, readItems_append, readItems_append, readItems_append,
    readItems_beanItems h.beans, pure_bind, references, pure_bind,
    readItems_restConfiguration h.configuration rfl, pure_bind, apis, pure_bind, routes]
  simp [Document.empty, Document.regrouped]

end Reading

/-- No URI in the tree of a canonical document stands beside parameters. -/
theorem settled_documentItems {d : Document} (h : CanonicalDocument d) :
    Settled (.sequence (documentItems d)) := by
  apply settled_sequence
  intro v hv
  simp only [documentItems, List.mem_append, List.mem_map, Option.mem_toList] at hv
  rcases hv with (((hv | ⟨r, _, rfl⟩) | ⟨c, hc, rfl⟩) | ⟨api, ha, rfl⟩) | ⟨route, hr, rfl⟩
  · unfold beanItems at hv
    split at hv
    · cases hv
    · rw [List.mem_singleton] at hv
      subst hv
      apply settled_ofEntry
      apply settled_sequence
      intro v hv
      obtain ⟨bean, hb, rfl⟩ := List.mem_map.1 hv
      obtain ⟨es, tree, _, settled⟩ := readBean_beanValue "" (h.beans bean hb)
      exact tree ▸ settled
  · obtain ⟨es, tree, _, settled⟩ := readReference_referenceValue "" r
    exact settled_ofEntry (tree ▸ settled)
  · obtain ⟨es, tree, _, settled⟩ := readRestConfiguration_value "" (h.configuration c hc)
    exact settled_ofEntry (tree ▸ settled)
  · obtain ⟨es, tree, _, settled⟩ := readRestApi_restApiValue "" (h.restApis api ha)
    exact settled_ofEntry (tree ▸ settled)
  · obtain ⟨es, tree, _, settled⟩ := readRoute_routeTree "" (h.routes route hr)
    exact settled_ofEntry (tree ▸ settled)

/-- A canonical document comes back from its tree with the children of its steps grouped, and
nothing is noted on either way. -/
theorem readDocument_writtenTree {options : Options} (kept : options.stripGeneratedIds = false)
    {d : Document} (h : CanonicalDocument d) :
    (writtenTree options d).notes = [] ∧
      readDocument (preparedTree options (writtenTree options d).value) =
        .ok (pure d.regrouped) := by
  have settled := settled_documentItems h
  rw [writtenTree, documentValue_eq h, pure_bind]
  refine ⟨rfl, ?_⟩
  rw [Noted.value_pure, preparedTree, kept]
  have joined : packTree (if options.unpackUris then unpackTree (.sequence (documentItems d))
      else .sequence (documentItems d)) = .sequence (documentItems d) := by
    split
    · exact packTree_unpackTree settled
    · exact packTree_of_settled settled
  simp only [joined, Bool.false_eq_true, if_false]
  rw [readDocument, readItems_documentItems h]

/-- A document with every kind of entity, in whose steps groups of children are mixed. -/
def mixedDocument : Document where
  beans := [⟨"store", some "java.util.HashMap", none, none, ["16", "#bean:factor"],
    .ofList [("owner", .reference "person"), ("note", .literal "#bean:")],
    .single "scope" "prototype"⟩]
  references := [⟨"log", "org.osgi.Logger", some "(level=debug)"⟩]
  restConfiguration := some ⟨.single "port" "80", .ofList [("apiProperty",
    [.ofList [("key", "title"), ("value", "Mixed")], .single "key" "version"]), ("cors", [])]⟩
  restApis := [⟨some "mixed", some "/mixed", .single "tag" "public", none,
    .ofList [(.get, [⟨.empty, some "One", some "direct:one"⟩, ⟨.single "path" "/all", none, none⟩]),
      (.post, [])]⟩]
  routes := [⟨some "r", none, .single "autoStartup" "true", some "Mixes",
    ⟨"timer:tick?period=5", .empty, .single "id" "in"⟩,
    [⟨"choice", .empty, none, none,
      [.element "when" ⟨"when", .single "id" "w", none, some ⟨.simple, some "1 > 0", .empty⟩,
          [.nested ⟨"to", .single "uri" "jdbc:main?readOnly=true", none, none, []⟩,
            .text "description" "first", .nested ⟨"stop", .empty, none, none, []⟩]⟩,
        .element "otherwise" ⟨"otherwise", .empty, none, none, []⟩,
        .element "when" ⟨"when", .empty, none, some ⟨.xpath, none, .single "resultType" "Node"⟩,
          []⟩]⟩,
      ⟨"doTry", .empty, none, none,
        [.element "doCatch" ⟨"doCatch", .empty, none, none,
            [.text "exception" "a", .nested ⟨"log", .single "message" "e", none, none, []⟩,
              .text "exception" "b"]⟩,
          .nested ⟨"setBody", .empty, none, some ⟨.constant, some "x", .empty⟩, []⟩]⟩,
      ⟨"enrich", .single "uri" "direct:more", none, none,
        [.text "foo" "a", .element "parameters" ⟨"parameters", .empty, none, none,
            [.text "p" "1", .text "p" "2"]⟩, .element "foo" ⟨"foo", .single "x" "1", none, none,
            []⟩]⟩,
      ⟨"script", .empty, some "run()", none, []⟩]⟩]

theorem readDocument_writtenTree_mixedDocument :
    CanonicalDocument mixedDocument ∧ ∀ unpack : Bool,
      let options := { Options.default with stripGeneratedIds := false, unpackUris := unpack }
      (writtenTree options mixedDocument).notes = [] ∧
        readDocument (preparedTree options (writtenTree options mixedDocument).value) =
          .ok (pure mixedDocument.regrouped) :=
  have canonical : CanonicalDocument mixedDocument := by decide +kernel
  ⟨canonical, fun _ => readDocument_writtenTree rfl canonical⟩

end RouteNotation.Dsl
