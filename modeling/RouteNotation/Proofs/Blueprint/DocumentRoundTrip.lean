import RouteNotation.Conversion
import RouteNotation.Proofs.Blueprint.EntityRoundTrip
import RouteNotation.Proofs.Blueprint.Sections
import RouteNotation.Proofs.Xml.SettledTree

/-!
Documents through markup and back. Main statement: a canonical document is read from its text as it
was, with nothing noted.
-/

namespace RouteNotation.Blueprint

open Xml OrderedMap

/-- A document that markup tells in full. -/
structure CanonicalDocument (d : Document) : Prop where
  beans : ∀ bean ∈ d.beans, CanonicalBean bean
  configuration : ∀ c ∈ d.restConfiguration, CanonicalRestConfiguration c
  restApis : ∀ api ∈ d.restApis, CanonicalRestApi api
  routes : ∀ route ∈ d.routes, CanonicalRoute route

instance (d : Document) : Decidable (CanonicalDocument d) :=
  decidable_of_iff ((∀ bean ∈ d.beans, CanonicalBean bean) ∧
    (∀ c ∈ d.restConfiguration, CanonicalRestConfiguration c) ∧
    (∀ api ∈ d.restApis, CanonicalRestApi api) ∧ ∀ route ∈ d.routes, CanonicalRoute route)
    ⟨fun ⟨beans, configuration, restApis, routes⟩ => ⟨beans, configuration, restApis, routes⟩,
      fun ⟨beans, configuration, restApis, routes⟩ => ⟨beans, configuration, restApis, routes⟩⟩

mutual

theorem CanonicalStep.names : {s : Step} → CanonicalStep s → s.Names IsStepTag IsKey
  | ⟨kind, attributes, text, expression, slots⟩, h => by
    rw [CanonicalStep] at h
    obtain ⟨tag, keys, _, expressions, children⟩ := h
    exact ⟨tag, keys, fun e he => (expressions e he).2, CanonicalSlots.names children⟩

theorem CanonicalSlots.names {kind : String} : {ss : List Slot} → CanonicalSlots kind ss →
    SlotsNames IsStepTag IsKey ss
  | [], _ => trivial
  | .nested step :: rest, h => by
    rw [CanonicalSlots] at h
    exact ⟨h.2.1.names, h.2.2.names⟩
  | .text tag value :: rest, h => by
    rw [CanonicalSlots] at h
    exact ⟨h.1.1, h.2.names⟩
  | .element tag step :: rest, h => by
    rw [CanonicalSlots] at h
    obtain ⟨⟨rfl, _⟩, ok, others⟩ := h
    exact ⟨ok.tag, ok.names, others.names⟩

end

theorem CanonicalDocument.valid {d : Document} (h : CanonicalDocument d) :
    d.Names (isValidName ·) (isValidName ·) where
  beans bean hb k hk := (h.beans bean hb k hk).1
  configuration c hc := by
    obtain ⟨keys, lists⟩ := h.configuration c hc
    exact ⟨fun k hk => (keys k hk).1, fun list hl =>
      ⟨(lists list hl).1.1, fun p hp k hk => ((lists list hl).2.2 p hp k hk).1⟩⟩
  restApis api ha := by
    obtain ⟨keys, _, lists⟩ := h.restApis api ha
    exact ⟨fun k hk => (keys k hk).1, fun list hl o ho k hk =>
      (((lists list hl).2 o ho).1 k hk).1⟩
  routes route hr := by
    obtain ⟨keys, _, ⟨_, source⟩, steps⟩ := h.routes route hr
    exact ⟨fun k hk => (keys k hk).1, fun k hk => (source k hk).1, fun step hs =>
      (steps step hs).1.names.mono (fun _ tag => tag.1) fun _ key => key.1⟩

section Settled

theorem not_isBlankText_of_trimmed {s : String} (h : Text.Trimmed s) :
    Text.isBlankText s = false := by
  obtain ⟨same, nonempty⟩ := h
  cases blank : Text.isBlankText s with
  | false => rfl
  | true =>
    rw [Text.trim, Text.trimChars_eq_nil blank] at same
    exact absurd same.symm nonempty

theorem settled_ofElements {name : String} {attributes : Attributes} {es : List Element}
    (h : ∀ e ∈ es, e.Settled) : (Element.ofElements name attributes es).Settled :=
  .inr (elementsSettled_map.2 h)

theorem settled_leaf (name : String) (attributes : Attributes) :
    (Element.leaf name attributes).Settled :=
  .inr trivial

theorem settled_ofText {name : String} {attributes : Attributes} {value : String}
    (h : Text.Trimmed value) : (Element.ofText name attributes value).Settled :=
  .inl ⟨value, rfl, not_isBlankText_of_trimmed h⟩

theorem settled_texts {name : String} {attributes : Attributes} {text : Option String}
    (h : CanonicalText text) : (Element.mk name attributes (text.toList.map .text)).Settled := by
  cases text with
  | none => exact settled_leaf name attributes
  | some value => exact settled_ofText (h value rfl)

theorem settled_descriptionElements {description : Option String} (h : CanonicalText description) :
    ∀ e ∈ descriptionElements description, e.Settled := by
  intro e he
  obtain ⟨text, ht, rfl⟩ := List.mem_map.1 he
  exact settled_ofText (h text (Option.mem_toList.1 ht))

mutual

theorem settled_plainElement : {s : Step} → CanonicalStep s → (plainElement s).Settled
  | ⟨kind, attributes, text, expression, slots⟩, h => by
    rw [CanonicalStep] at h
    obtain ⟨_, _, ⟨texts, alone⟩, expressions, children⟩ := h
    have slotsSettled := settled_plainSlots children
    rw [plainElement]
    cases text with
    | some value =>
      obtain ⟨rfl, rfl⟩ := alone rfl
      exact settled_ofText (texts value rfl)
    | none =>
      apply settled_ofElements
      intro e he
      rw [List.mem_append, Option.mem_toList] at he
      rcases he with he | he
      · obtain ⟨x, hx, rfl⟩ := Option.map_eq_some_iff.1 he
        exact settled_texts (expressions x hx).1
      · exact slotsSettled e he

theorem settled_plainSlots {kind : String} : {ss : List Slot} → CanonicalSlots kind ss →
    ∀ e ∈ plainSlots ss, e.Settled
  | [], _ => nofun
  | .nested step :: rest, h | .element _ step :: rest, h => by
    rw [CanonicalSlots] at h
    have here := settled_plainElement h.2.1
    have others := settled_plainSlots h.2.2
    rw [plainSlots]
    exact List.forall_mem_cons.2 ⟨here, others⟩
  | .text tag value :: rest, h => by
    rw [CanonicalSlots] at h
    have others := settled_plainSlots h.2
    rw [plainSlots]
    exact List.forall_mem_cons.2 ⟨settled_ofText h.1.2.2.2, others⟩

end

theorem settled_plainRestApi {api : RestApi} (h : CanonicalRestApi api) :
    (plainRestApi api).Settled := by
  apply settled_ofElements
  intro e he
  rcases List.mem_append.1 he with he | he
  · exact settled_descriptionElements h.2.1 e he
  · obtain ⟨p, hp, rfl⟩ := List.mem_map.1 he
    obtain ⟨list, hl, hp⟩ := List.mem_flatMap.1 hp
    obtain ⟨operation, ho, rfl⟩ := List.mem_map.1 hp
    apply settled_ofElements
    intro f hf
    rcases List.mem_append.1 hf with hf | hf
    · exact settled_descriptionElements ((h.2.2 list hl).2 operation ho).2 f hf
    · obtain ⟨uri, _, rfl⟩ := List.mem_map.1 hf
      exact settled_leaf _ _

theorem settled_plainRoute {route : Route} (h : CanonicalRoute route) :
    (plainRoute route).Settled := by
  apply settled_ofElements
  intro e he
  rw [List.mem_append, List.mem_cons, List.mem_map] at he
  rcases he with he | rfl | ⟨step, hs, rfl⟩
  · exact settled_descriptionElements h.2.1 e he
  · exact settled_leaf _ _
  · exact settled_plainElement (h.2.2.2 step hs).1

theorem settled_plainRestConfiguration (c : RestConfiguration) :
    (plainRestConfiguration c).Settled := by
  apply settled_ofElements
  intro e he
  obtain ⟨list, _, rfl⟩ := List.mem_map.1 he
  exact settled_leaf _ _

theorem CanonicalRestConfiguration.names {c : RestConfiguration}
    (h : CanonicalRestConfiguration c) : c.Names NoWrapper IsKey :=
  ⟨h.1, fun list hl => ⟨(h.2 list hl).1.2.2, (h.2 list hl).2.2⟩⟩

theorem settled_plainDocument (settings : Settings) {d : Document} (h : CanonicalDocument d) :
    (plainDocument settings d).Settled := by
  have context : (plainContext settings.contextId d).Settled := by
    apply settled_ofElements
    intro e he
    simp only [List.mem_append, List.mem_map, Option.mem_toList] at he
    rcases he with (⟨c, hc, rfl⟩ | ⟨api, ha, rfl⟩) | ⟨route, hr, rfl⟩
    · rw [unwrap_restConfigurationElement (h.configuration c hc).names]
      exact settled_plainRestConfiguration c
    · exact settled_plainRestApi (h.restApis api ha)
    · exact settled_plainRoute (h.routes route hr)
  apply settled_ofElements
  intro e he
  simp only [List.cons_append, List.mem_cons, List.mem_append, List.mem_map] at he
  rcases he with rfl | ⟨r, _, rfl⟩ | rfl | ⟨bean, hb, rfl⟩
  · exact settled_leaf _ _
  · exact settled_leaf _ _
  · exact context
  · apply settled_ofElements
    intro f hf
    simp only [List.mem_append, List.mem_map] at hf
    rcases hf with ⟨_, _, rfl⟩ | ⟨_, _, rfl⟩
    · exact settled_leaf _ _
    · exact settled_leaf _ _

end Settled

section Sections

theorem readSection_reference (d : Document) (r : Reference) :
    readSection d (referenceElement r) = pure { d with references := d.references ++ [r] } := by
  have tag : (referenceElement r).localName = "reference" := localName_of_name rfl (by decide)
  rw [readSection_of_reference tag, readReference_referenceElement]
  rfl

theorem readSection_bean (d : Document) {bean : Bean} (h : CanonicalBean bean) :
    readSection d (beanElement bean) = pure { d with beans := d.beans ++ [bean] } := by
  have tag : (beanElement bean).localName = "bean" := localName_of_name rfl (by decide)
  rw [readSection_of_bean tag, readBean_beanElement _ h]
  rfl

theorem readSection_restConfiguration (d : Document) {c : RestConfiguration}
    (h : CanonicalRestConfiguration c) (first : d.restConfiguration = none) :
    readSection d (plainRestConfiguration c) = pure { d with restConfiguration := some c } := by
  have tag : (plainRestConfiguration c).localName = "restConfiguration" :=
    localName_of_name rfl (by decide)
  rw [readSection_of_restConfiguration tag first, readRestConfiguration_plain _ h]
  rfl

theorem readSection_restApi (d : Document) {api : RestApi} (h : CanonicalRestApi api) :
    readSection d (plainRestApi api) = pure { d with restApis := d.restApis ++ [api] } := by
  have tag : (plainRestApi api).localName = "rest" := localName_of_name rfl (by decide)
  rw [readSection_of_rest tag, readRestApi_plainRestApi _ h]
  rfl

theorem readSection_route (d : Document) {route : Route} (h : CanonicalRoute route) :
    readSection d (plainRoute route) = pure { d with routes := d.routes ++ [route] } := by
  have tag : (plainRoute route).localName = "route" := localName_of_name rfl (by decide)
  rw [readSection_of_route tag, readRoute_plainRoute _ h]
  rfl

/-- Sections that each add a value to one list of the document. -/
theorem foldlM_readSection {α : Type} {element : α → Element}
    (add : Document → List α → Document) {as : List α} (none : ∀ d, add d [] = d)
    (more : ∀ d a as, add (add d [a]) as = add d (a :: as))
    (h : ∀ d, ∀ a ∈ as, readSection d (element a) = pure (add d [a])) (d : Document) :
    (as.map element).foldlM readSection d = pure (add d as) := by
  induction as generalizing d with
  | nil => simp [none]
  | cons a as ih =>
    rw [List.map_cons, List.foldlM_cons, h d a List.mem_cons_self, pure_bind,
      ih (fun d b hb => h d b (List.mem_cons_of_mem a hb)), more]

theorem foldlM_references (d : Document) (rs : List Reference) :
    (rs.map referenceElement).foldlM readSection d =
      pure { d with references := d.references ++ rs } :=
  foldlM_readSection (fun d rs => { d with references := d.references ++ rs }) (by simp)
    (by simp) (fun d r _ => readSection_reference d r) d

theorem foldlM_beans (d : Document) {bs : List Bean} (h : ∀ b ∈ bs, CanonicalBean b) :
    (bs.map beanElement).foldlM readSection d = pure { d with beans := d.beans ++ bs } :=
  foldlM_readSection (fun d bs => { d with beans := d.beans ++ bs }) (by simp)
    (by simp) (fun d b hb => readSection_bean d (h b hb)) d

theorem foldlM_restApis (d : Document) {as : List RestApi} (h : ∀ a ∈ as, CanonicalRestApi a) :
    (as.map plainRestApi).foldlM readSection d = pure { d with restApis := d.restApis ++ as } :=
  foldlM_readSection (fun d as => { d with restApis := d.restApis ++ as }) (by simp)
    (by simp) (fun d a ha => readSection_restApi d (h a ha)) d

theorem foldlM_routes (d : Document) {rs : List Route} (h : ∀ r ∈ rs, CanonicalRoute r) :
    (rs.map plainRoute).foldlM readSection d = pure { d with routes := d.routes ++ rs } :=
  foldlM_readSection (fun d rs => { d with routes := d.routes ++ rs }) (by simp)
    (by simp) (fun d r hr => readSection_route d (h r hr)) d

theorem readSection_context (id : String) {d e : Document} (h : CanonicalDocument d)
    (first : e.restConfiguration = none) : readSection e (plainContext id d) =
      pure ⟨e.beans, e.references, d.restConfiguration, e.restApis ++ d.restApis,
        e.routes ++ d.routes⟩ := by
  have tag : (plainContext id d).localName = "camelContext" := localName_of_name rfl (by decide)
  have configured : (d.restConfiguration.toList.map fun c =>
      (restConfigurationElement c).unwrap).foldlM readSection e =
        pure { e with restConfiguration := d.restConfiguration } := by
    cases found : d.restConfiguration with
    | none =>
      have same : { e with restConfiguration := none } = e := by
        rw [← first]
      rw [same]
      rfl
    | some c =>
      have canonical := h.configuration c found
      rw [Option.toList_some, List.map_cons, List.map_nil, List.foldlM_cons,
        unwrap_restConfigurationElement canonical.names,
        readSection_restConfiguration e canonical first, pure_bind]
      rfl
  rw [readSection_of_context tag, plainContext, elements_ofElements, List.foldlM_append,
    List.foldlM_append, configured, pure_bind, foldlM_restApis _ h.restApis, pure_bind,
    foldlM_routes _ h.routes]

theorem readDocument_plainDocument (settings : Settings) {d : Document}
    (h : CanonicalDocument d) : readDocument (plainDocument settings d) = pure d := by
  have root : (plainDocument settings d).localName = "blueprint" :=
    localName_of_name rfl (by decide)
  have placeholder : (placeholderElement settings.placeholder).localName =
      "property-placeholder" := by
    have : localName "cm:property-placeholder" = "property-placeholder" := by decide
    exact this
  rw [readDocument_eq (by rw [root]; decide), plainDocument, elements_ofElements,
    List.foldlM_append, List.foldlM_cons, readSection_of_placeholder placeholder, pure_bind,
    foldlM_references, pure_bind, List.foldlM_cons,
    readSection_context settings.contextId h rfl, pure_bind, foldlM_beans _ h.beans]
  simp [Document.empty]

end Sections

/-- A canonical document comes back from its text, whatever the options besides the limit. -/
theorem readXml_writeXml {options : Options} (unlimited : options.depthLimit = 0) {d : Document}
    (h : CanonicalDocument d) : readXml options (writeXml options d) = .ok (pure d) := by
  have steps : ∀ route ∈ d.routes, ∀ step ∈ route.steps, step.Names NoWrapper IsKey :=
    fun route hr step hs => ((h.routes route hr).2.2.2 step hs).1.names.mono
      (fun _ tag => noWrapper_of_unreserved tag.2.2) fun _ key => key
  have parsed : parse options.depthLimit (Utf8.encode (writeXml options d)) =
      .ok (plainDocument options.settings d) := by
    rw [writeXml, unwrap_documentElement steps,
      parse_render (wellNamed_plainDocument options.settings h.valid) (.inl unlimited),
      reread_settled options.layout 0 (settled_plainDocument options.settings h)]
  rw [readXml, parsed]
  exact congrArg _ (readDocument_plainDocument options.settings h)

/-- A choice among branches, an expression, a clause, a text and lists of more than one entry. -/
def invoiceDocument : Document where
  beans := [⟨"store", some "Store", none, some "open", ["a<b", "#bean:clock"],
    .ofList [("size", .literal "9"), ("next", .reference "archive")], .single "scope" "single"⟩]
  references := [⟨"log", "Logger", some "(level=debug)"⟩]
  restConfiguration := some ⟨.single "port" "80", .ofList [("apiProperty",
    [.ofList [("key", "title"), ("value", "Invoices")], .single "key" "version"])]⟩
  restApis := [⟨some "invoices", some "/invoices", .single "tag" "public", some "All invoices",
    .ofList [(.get, [⟨.empty, some "One", some "direct:one"⟩, ⟨.single "path" "/all", none, none⟩]),
      (.post, [⟨.empty, none, some "direct:new"⟩])]⟩]
  routes := [⟨some "r", some "errors", .empty, some "Sorts invoices",
    ⟨"direct:one", .empty, .single "id" "in"⟩,
    [⟨"choice", .empty, none, none,
      [.element "when" ⟨"when", .empty, none, some ⟨.simple, some "body > 1", .single "trim" "no"⟩,
          [.nested ⟨"log", .single "message" " x ", none, none, []⟩]⟩,
        .element "otherwise" ⟨"otherwise", .empty, none, none, [.nested ⟨"stop", .empty, none, none,
          []⟩]⟩]⟩,
      ⟨"aggregate", .empty, none, some ⟨.header, some "id", .empty⟩,
        [.element "completionPredicate" ⟨"completionPredicate", .empty, none,
            some ⟨.constant, some "true", .empty⟩, []⟩,
          .text "description" "by id", .nested ⟨"to", .single "uri" "mock:\"&\"", none, none, []⟩]⟩,
      ⟨"script", .empty, some "1 < 2", none, []⟩]⟩]

theorem readXml_writeXml_invoiceDocument :
    CanonicalDocument invoiceDocument ∧
    readXml { Options.default with depthLimit := 0 }
      (writeXml { Options.default with depthLimit := 0 } invoiceDocument) =
        .ok (pure invoiceDocument) :=
  have canonical : CanonicalDocument invoiceDocument := by decide
  ⟨canonical, readXml_writeXml rfl canonical⟩

end RouteNotation.Blueprint
