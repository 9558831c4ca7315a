import RouteNotation.Conversion
import RouteNotation.Proofs.Blueprint.DocumentHeight
import RouteNotation.Proofs.Blueprint.KeptEntities
import RouteNotation.Proofs.Dsl.DocumentBounds
import RouteNotation.Proofs.Xml.RoundTrip

/-!
From value trees to markup. Main statement: whatever tree a document is read from, the markup that
it is written as can be read, and no entity is lost.
-/

namespace RouteNotation

open Xml OrderedMap Blueprint

/-- The entities of `d` are there in `e`, in order, with what they are known by. The parameters of
a source have gone into its URI. -/
structure EntitiesKept (d e : Document) : Prop where
  beans : e.beans.length = d.beans.length
  references : e.references = d.references
  configuration : e.restConfiguration.isSome = d.restConfiguration.isSome
  restApis : e.restApis.map (fun api => (api.id, api.path)) =
    d.restApis.map fun api => (api.id, api.path)
  routes : e.routes.map (fun route => (route.id, route.errorHandler, route.source.uri)) =
    d.routes.map fun route => (route.id, route.errorHandler,
      Uri.pack route.source.uri route.source.parameters)

section Sections
variable {α β γ : Type} (layout : Layout) (depth : Nat)

/-- Sections that each add one value with a known feature. -/
theorem foldlM_readSection_value (put : Document → List β → Document) (element : α → Element)
    {f : α → γ} {g : β → γ} (none : ∀ d, put d [] = d)
    (more : ∀ d b bs, put (put d [b]) bs = put d (b :: bs)) {as : List α}
    (h : ∀ d, ∀ a ∈ as, ∃ b, g b = f a ∧ (readSection d (element a)).value = put d [b])
    (d : Document) :
    ∃ bs, bs.map g = as.map f ∧ ((as.map element).foldlM readSection d).value = put d bs := by
  induction as generalizing d with
  | nil => exact ⟨[], rfl, (none d).symm⟩
  | cons a as ih =>
    obtain ⟨b, feature, read⟩ := h d a List.mem_cons_self
    obtain ⟨bs, features, rest⟩ := ih (fun d c hc => h d c (List.mem_cons_of_mem a hc)) (put d [b])
    refine ⟨b :: bs, by rw [List.map_cons, List.map_cons, feature, features], ?_⟩
    rw [List.map_cons, List.foldlM_cons, Noted.value_bind, read, rest, more]

theorem localName_reread {e : Element} {tag : String} (name : e.name = tag)
    (whole : localName tag = tag) : (e.reread layout depth).localName = tag :=
  localName_of_name ((name_reread layout depth e).trans name) whole

theorem attribute?_reread (e : Element) (key : String) :
    (e.reread layout depth).attribute? key = e.attribute? key := by
  rw [Element.attribute?, attributes_reread, Element.attribute?]

theorem references_kept (d : Document) (rs : List Reference) :
    ((rs.map fun r => (referenceElement r).reread layout depth).foldlM readSection d).value =
      { d with references := d.references ++ rs } := by
  have one : ∀ (d : Document), ∀ r ∈ rs, ∃ b : Reference, id b = id r ∧
      (readSection d ((referenceElement r).reread layout depth)).value =
        { d with references := d.references ++ [b] } := by
    intro d r _
    refine ⟨r, rfl, ?_⟩
    rw [readSection_of_reference (localName_reread layout depth rfl (by decide)), Noted.value_bind,
      readReference_value (attributes_reread layout depth _)]
    rfl
  obtain ⟨bs, same, read⟩ := foldlM_readSection_value
    (fun d rs => { d with references := d.references ++ rs }) _ (by simp) (by simp) one d
  rw [List.map_id, List.map_id] at same
  rw [read, same]

theorem beans_kept (d : Document) (bs : List Bean) : ∃ cs, cs.length = bs.length ∧
    ((bs.map fun b => (beanElement b).reread layout depth).foldlM readSection d).value =
      { d with beans := d.beans ++ cs } := by
  have one : ∀ (d : Document), ∀ b ∈ bs, ∃ c : Bean, (fun _ => ()) c = (fun _ => ()) b ∧
      (readSection d ((beanElement b).reread layout depth)).value =
        { d with beans := d.beans ++ [c] } := by
    intro d b _
    have named : (((beanElement b).reread layout depth).attribute? "id").isSome := by
      rw [attribute?_reread]
      apply get?_isSome
      simp [beanElement, Element.ofElements, Element.attributes, mem_keys_insertAll,
        mem_keys_insertSome, mem_keys_single]
    obtain ⟨c, read⟩ := Option.isSome_iff_exists.1 (readBean_isSome (entityPath
      ((beanElement b).reread layout depth) d.beans.length) named)
    refine ⟨c, rfl, ?_⟩
    rw [readSection_of_bean (localName_reread layout depth rfl (by decide)), Noted.value_bind, read]
    rfl
  obtain ⟨cs, same, read⟩ := foldlM_readSection_value
    (fun d bs => { d with beans := d.beans ++ bs }) _ (by simp) (by simp) one d
  refine ⟨cs, ?_, read⟩
  simpa using congrArg List.length same

theorem attribute?_plainRestApi {api : RestApi} (h : Dsl.ReadableRestApi api) :
    (plainRestApi api).attribute? "id" = api.id ∧
      (plainRestApi api).attribute? "path" = api.path := by
  obtain ⟨_, noId, noPath⟩ := h
  constructor
  · change (OrderedMap.insertAll _ _).get? "id" = _
    rw [get?_insertAll noId, get?_insertSome, if_neg (by decide), get?_insertSome, if_pos rfl]
    exact Option.or_none
  · change (OrderedMap.insertAll _ _).get? "path" = _
    rw [get?_insertAll noPath, get?_insertSome, if_pos rfl, get?_insertSome, if_neg (by decide)]
    exact Option.or_none

theorem attribute?_plainRoute {route : Route} {n : Nat} (h : Dsl.ReadableRoute n route) :
    (plainRoute route).attribute? "id" = route.id ∧
      (plainRoute route).attribute? "errorHandlerRef" = route.errorHandler := by
  obtain ⟨keys, _⟩ := h
  constructor
  · change (OrderedMap.insertAll _ _).get? "id" = _
    rw [get?_insertAll fun hk => (keys _ hk).2.1 rfl, get?_insertSome, if_neg (by decide),
      get?_insertSome, if_pos rfl]
    exact Option.or_none
  · change (OrderedMap.insertAll _ _).get? "errorHandlerRef" = _
    rw [get?_insertAll fun hk => (keys _ hk).2.2 rfl, get?_insertSome, if_pos rfl,
      get?_insertSome, if_neg (by decide)]
    exact Option.or_none

theorem attribute?_sourceElement {source : Endpoint}
    (h : Dsl.ReadableSource source.attributes) :
    (sourceElement source).attribute? "uri" = some (Uri.pack source.uri source.parameters) := by
  change (OrderedMap.insertAll _ _).get? "uri" = _
  rw [get?_insertAll fun hk => (h _ hk).2 rfl]
  rfl

theorem restApis_kept (d : Document) {as : List RestApi} (h : ∀ a ∈ as, Dsl.ReadableRestApi a) :
    ∃ bs : List RestApi, bs.map (fun b => (b.id, b.path)) = as.map (fun a => (a.id, a.path)) ∧
      ((as.map fun a => (plainRestApi a).reread layout depth).foldlM readSection d).value =
        { d with restApis := d.restApis ++ bs } := by
  have one : ∀ (d : Document), ∀ a ∈ as, ∃ b : RestApi, (b.id, b.path) = (a.id, a.path) ∧
      (readSection d ((plainRestApi a).reread layout depth)).value =
        { d with restApis := d.restApis ++ [b] } := by
    intro d a ha
    obtain ⟨id, location⟩ := readRestApi_value (entityPath ((plainRestApi a).reread layout depth)
      d.restApis.length) ((plainRestApi a).reread layout depth)
    obtain ⟨sameId, samePath⟩ := attribute?_plainRestApi (h a ha)
    refine ⟨(readRestApi (entityPath ((plainRestApi a).reread layout depth) d.restApis.length)
      ((plainRestApi a).reread layout depth)).value, ?_, ?_⟩
    · rw [id, location, attribute?_reread, attribute?_reread, sameId, samePath]
    · rw [readSection_of_rest (localName_reread layout depth rfl (by decide))]
      rfl
  exact foldlM_readSection_value (fun d as => { d with restApis := d.restApis ++ as }) _ (by simp)
    (by simp) one d

theorem routes_kept (d : Document) {rs : List Route} {n : Nat}
    (h : ∀ r ∈ rs, Dsl.ReadableRoute n r) :
    ∃ ss : List Route, ss.map (fun s => (s.id, s.errorHandler, s.source.uri)) =
        rs.map (fun r => (r.id, r.errorHandler, Uri.pack r.source.uri r.source.parameters)) ∧
      ((rs.map fun r => (plainRoute r).reread layout depth).foldlM readSection d).value =
        { d with routes := d.routes ++ ss } := by
  have one : ∀ (d : Document), ∀ r ∈ rs, ∃ s : Route, (s.id, s.errorHandler, s.source.uri) =
      (r.id, r.errorHandler, Uri.pack r.source.uri r.source.parameters) ∧
      (readSection d ((plainRoute r).reread layout depth)).value =
        { d with routes := d.routes ++ [s] } := by
    intro d r hr
    obtain ⟨sameId, sameHandler⟩ := attribute?_plainRoute (h r hr)
    have whole : ((plainRoute r).reread layout depth).elements =
        (descriptionElements r.description).map (·.reread layout (depth + 1)) ++
          (sourceElement r.source).reread layout (depth + 1) ::
            (r.steps.map plainElement).map (·.reread layout (depth + 1)) := by
      rw [elements_reread, plainRoute, elements_ofElements, List.map_append, List.map_cons]
    have others : ∀ f ∈ (descriptionElements r.description).map (·.reread layout (depth + 1)),
        f.localName ≠ "from" := by
      intro f hf
      obtain ⟨e, he, rfl⟩ := List.mem_map.1 hf
      obtain ⟨text, _, rfl⟩ := List.mem_map.1 he
      have tag : ((Element.ofText "description" .empty text).reread layout (depth + 1)).localName =
          "description" := localName_reread layout (depth + 1) rfl (by decide)
      rw [tag]
      decide
    obtain ⟨s, read, id, errorHandler, uri⟩ := readRoute_value
      (entityPath ((plainRoute r).reread layout depth) d.routes.length) whole others
      (localName_reread layout (depth + 1) rfl (by decide))
      ((attribute?_reread layout (depth + 1) _ "uri").trans
        (attribute?_sourceElement (h r hr).2.1))
    refine ⟨s, ?_, ?_⟩
    · rw [id, errorHandler, uri, attribute?_reread, attribute?_reread, sameId, sameHandler]
    · rw [readSection_of_route (localName_reread layout depth rfl (by decide)), Noted.value_bind,
        read]
      rfl
  exact foldlM_readSection_value (fun d rs => { d with routes := d.routes ++ rs }) _ (by simp)
    (by simp) one d

theorem configuration_kept (d : Document) (c : Option RestConfiguration)
    (first : d.restConfiguration = none) :
    ∃ e : Option RestConfiguration, e.isSome = c.isSome ∧
      ((c.toList.map fun c => ((restConfigurationElement c).unwrap).reread layout depth).foldlM
        readSection d).value = { d with restConfiguration := e } := by
  cases c with
  | none =>
    have same : { d with restConfiguration := none } = d := by
      rw [← first]
    exact ⟨none, rfl, same.symm⟩
  | some c =>
    refine ⟨some (readRestConfiguration "restConfiguration"
      ((restConfigurationElement c).unwrap.reread layout depth)).value, rfl, ?_⟩
    have name : ((restConfigurationElement c).unwrap).name = "restConfiguration" := rfl
    rw [Option.toList_some, List.map_cons, List.map_nil, List.foldlM_cons,
      readSection_of_restConfiguration (localName_reread layout depth name (by decide)) first]
    rfl

/-- The context as it is read, after some references. -/
theorem context_kept (id : String) {d e : Document} {n : Nat} (h : Dsl.ReadableDocument n d)
    (first : e.restConfiguration = none) :
    ∃ (c : Option RestConfiguration) (as : List RestApi) (rs : List Route),
      c.isSome = d.restConfiguration.isSome ∧
      as.map (fun a => (a.id, a.path)) = d.restApis.map (fun a => (a.id, a.path)) ∧
      rs.map (fun r => (r.id, r.errorHandler, r.source.uri)) =
        d.routes.map (fun r => (r.id, r.errorHandler,
          Uri.pack r.source.uri r.source.parameters)) ∧
      (readSection e ((plainContext id d).reread layout depth)).value =
        ⟨e.beans, e.references, c, e.restApis ++ as, e.routes ++ rs⟩ := by
  obtain ⟨c, some, configuration⟩ := configuration_kept layout (depth + 1) e d.restConfiguration
    first
  obtain ⟨as, apis, restApis⟩ := restApis_kept layout (depth + 1)
    { e with restConfiguration := c } h.restApis
  obtain ⟨rs, features, routes⟩ := routes_kept layout (depth + 1)
    { e with restConfiguration := c, restApis := e.restApis ++ as } h.routes
  refine ⟨c, as, rs, some, apis, features, ?_⟩
  rw [readSection_of_context (localName_reread layout depth rfl (by decide)), elements_reread,
    plainContext, elements_ofElements, List.map_append, List.map_append, List.map_map,
    List.map_map, List.map_map, List.foldlM_append, List.foldlM_append]
  simp only [Function.comp_def, Noted.value_bind, configuration, restApis, routes]

theorem entities_kept (settings : Settings) {d : Document} {n : Nat}
    (h : Dsl.ReadableDocument n d) :
    EntitiesKept d (readDocument ((plainDocument settings d).reread layout 0)).value := by
  have root : ((plainDocument settings d).reread layout 0).localName = "blueprint" :=
    localName_reread layout 0 rfl (by decide)
  have placeholder : ((placeholderElement settings.placeholder).reread layout 1).localName =
      "property-placeholder" := by
    have : localName "cm:property-placeholder" = "property-placeholder" := by decide
    exact this
  have references := references_kept layout (0 + 1) .empty d.references
  obtain ⟨c, as, rs, some, apis, features, context⟩ := context_kept layout (0 + 1)
    settings.contextId h (e := { Document.empty with references := [] ++ d.references }) rfl
  obtain ⟨bs, count, beans⟩ := beans_kept layout (0 + 1) ⟨[], d.references, c, as, rs⟩ d.beans
  have whole : (readDocument ((plainDocument settings d).reread layout 0)).value =
      ⟨bs, d.references, c, as, rs⟩ := by
    rw [readDocument_eq (by rw [root]; decide), elements_reread, plainDocument,
      elements_ofElements, List.map_append, List.map_cons, List.map_cons, List.map_map,
      List.map_map, List.foldlM_append, List.foldlM_cons, readSection_of_placeholder placeholder,
      pure_bind]
    simp only [Function.comp_def, Noted.value_bind, references, List.foldlM_cons]
    exact (congrArg (fun x => (List.foldlM readSection x _).value) context).trans beans
  rw [whole]
  exact ⟨count, rfl, some, apis, features⟩

end Sections

theorem names_of_readable {d : Document} {n : Nat} (h : Dsl.ReadableDocument n d) :
    d.Names (isValidName ·) (isValidName ·) where
  beans := h.beans
  configuration := h.configuration
  restApis api ha := (h.restApis api ha).1
  routes route hr := by
    obtain ⟨attributes, source, steps⟩ := h.routes route hr
    exact ⟨fun k hk => (attributes k hk).1, fun k hk => (source k hk).1, fun step hs =>
      (steps step hs).1.mono (fun _ tag => tag.1) fun _ key => key⟩

/-- Markup within the default limit is enough for every tree that the other notation can hold, and
every entity of the document is found in it again. -/
theorem readXml_writeXml_readDocument {v : Yaml.Value}
    (root : v = .null ∨ ∃ items, v = .sequence items) (deep : v.depth ≤ 128) :
    ∃ d, Dsl.readDocument (preparedTree .default v) = .ok d ∧
      ∃ e, readXml .default (writeXml .default d.value) = .ok e ∧
        EntitiesKept d.value e.value := by
  have prepared : (preparedTree .default v).depth ≤ 128 :=
    Nat.le_trans (Yaml.depth_strip_le _) (Nat.le_trans (Yaml.depth_packTree_le v) deep)
  obtain ⟨d, read⟩ : ∃ d, Dsl.readDocument (preparedTree .default v) = .ok d := by
    rcases root with rfl | ⟨items, rfl⟩
    · exact ⟨_, rfl⟩
    · exact ⟨_, rfl⟩
  have readable : Dsl.ReadableDocument 125 d.value := Dsl.readable_readDocument prepared read
  have steps : ∀ route ∈ d.value.routes, ∀ step ∈ route.steps,
      step.Names NoWrapper (isValidName ·) := fun route hr step hs =>
    ((readable.routes route hr).2.2 step hs).1.mono (fun _ tag => noWrapper_of_unreserved tag.2)
      fun _ key => key
  have height : (plainDocument Options.default.settings d.value).height ≤ 128 :=
    height_plainDocument_le (by decide) fun route hr step hs =>
      ((readable.routes route hr).2.2 step hs).2
  have parsed : parse Options.default.depthLimit (Utf8.encode (writeXml .default d.value)) =
      .ok ((plainDocument Options.default.settings d.value).reread Options.default.layout 0) := by
    rw [writeXml, unwrap_documentElement steps]
    apply parse_render (wellNamed_plainDocument _ (names_of_readable readable))
    exact .inr (by rw [Nat.zero_add]; exact height)
  refine ⟨d, read, readDocument ((plainDocument Options.default.settings d.value).reread
    Options.default.layout 0), ?_, entities_kept _ _ readable⟩
  rw [readXml, parsed]
  rfl

/-- A tree with keys that name nothing, a key that is no text, a tag and a reserved word. -/
def strangeTree : Yaml.Value := .sequence [
  .ofEntry "beans" (.sequence [.mapping [Yaml.textEntry "name" "b", Yaml.textEntry "id" "c",
    Yaml.textEntry "no name" "x"], .null]),
  .ofEntry "route" (.tagged "t" (.mapping [Yaml.textEntry "id" "r", Yaml.textEntry "<" ">",
    Yaml.entry "from" (.mapping [Yaml.textEntry "uri" "timer",
      Yaml.entry "parameters" (.mapping [Yaml.textEntry "timerName" "t", (.null, .int 5)]),
      Yaml.entry "steps" (.sequence [.ofEntry "from" .null, .ofEntry "children" .null,
        .ofEntry "choice" (.mapping [Yaml.entry "item" .null, (.sequence [], .null),
          Yaml.entry "when" (.sequence [.ofEntry "simple" (.string "&"), .string "]]>"])])])])]))]

theorem readXml_writeXml_strangeTree :
    strangeTree.depth ≤ 128 ∧
    ∃ d, Dsl.readDocument (preparedTree .default strangeTree) = .ok d ∧
      ∃ e, readXml .default (writeXml .default d.value) = .ok e ∧
        EntitiesKept d.value e.value :=
  have deep : strangeTree.depth ≤ 128 := by decide
  ⟨deep, readXml_writeXml_readDocument (.inr ⟨_, rfl⟩) deep⟩

end RouteNotation
