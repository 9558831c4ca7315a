import RouteNotation.Dsl.Reader
import RouteNotation.Proofs.Dsl.StepBounds
import RouteNotation.Proofs.Route.DocumentNames

/-!
What can be in a document that was read from a value tree: names have been checked, no attribute
stands in for a field, and steps are bounded by the depth of the tree.
-/

namespace RouteNotation.Dsl

open Yaml OrderedMap

def ReadableRestApi (api : RestApi) : Prop :=
  api.Names (Xml.isValidName ·) ∧ "id" ∉ api.attributes.keys ∧ "path" ∉ api.attributes.keys

/-- Attributes that the source of a route may have. -/
def ReadableSource (attributes : Attributes) : Prop :=
  ∀ k ∈ attributes.keys, Xml.isValidName k ∧ k ≠ "uri"

/-- Attributes that a route may have. -/
def ReadableRouteAttributes (attributes : Attributes) : Prop :=
  ∀ k ∈ attributes.keys, Xml.isValidName k ∧ k ≠ "id" ∧ k ≠ "errorHandlerRef"

def ReadableRoute (n : Nat) (route : Route) : Prop :=
  ReadableRouteAttributes route.attributes ∧ ReadableSource route.source.attributes ∧
    ∀ step ∈ route.steps, Readable n step

/-- A document that may come from a value tree; its steps are at most `n` deep. -/
structure ReadableDocument (n : Nat) (d : Document) : Prop where
  beans : ∀ bean ∈ d.beans, ∀ k ∈ bean.extra.keys, Xml.isValidName k
  configuration : ∀ c ∈ d.restConfiguration, c.Names (Xml.isValidName ·) (Xml.isValidName ·)
  restApis : ∀ api ∈ d.restApis, ReadableRestApi api
  routes : ∀ route ∈ d.routes, ReadableRoute n route

theorem readFields_induction {σ : Type} {P : σ → Prop} {read : σ → String → Value → Noted σ}
    {es : List Entry} {s : σ} (start : P s)
    (step : ∀ s, ∀ e ∈ es, ∀ key, P s → P (read s key e.2).value) :
    P (readFields read s es).value := by
  apply Noted.foldlM_induction start
  intro s e he h
  split
  · exact step s e he _ h
  · exact h

section Steps
variable {n : Nat}

theorem readable_readStepItems (path : String) (index : Nat) {items : List Value}
    (deep : depthOfItems items ≤ n) :
    ∀ s ∈ (readStepItems path index items).value, Readable n s := by
  induction items generalizing index with
  | nil => nofun
  | cons item rest ih =>
    intro s hs
    rw [depthOfItems] at deep
    rw [readStepItems] at hs
    rcases List.mem_append.1 hs with hs | hs
    · exact (readable_readStepItem _ _ item s (Option.mem_toList.1 hs)).mono (by omega)
    · exact ih (index + 1) (by omega) s hs

theorem readable_readSteps (path : String) {v : Value} (deep : v.depth ≤ n + 1) :
    ∀ s ∈ (readSteps path v).value, Readable n s := by
  unfold readSteps
  split
  · rename_i items found
    have := depth_of_sequence? found
    exact readable_readStepItems path 0 (by omega)
  · nofun

theorem readable_readEndpoint (path : String) (es : List Entry) (deep : depthOfEntries es ≤ n + 1) :
    ReadableSource (readEndpoint path es).value.endpoint.attributes ∧
      ∀ s ∈ (readEndpoint path es).value.steps, Readable n s := by
  apply readFields_induction (P := fun d : EndpointDraft =>
    ReadableSource d.endpoint.attributes ∧ ∀ s ∈ d.steps, Readable n s)
  · exact ⟨fun k hk => absurd hk not_mem_keys_empty, nofun⟩
  · intro draft e he key ⟨attributes, steps⟩
    have room := depth_le_of_mem_entries he
    unfold readEndpointField
    split
    · exact ⟨attributes, steps⟩
    · split
      · exact ⟨attributes, steps⟩
      · exact ⟨attributes, steps⟩
    · refine ⟨attributes, fun s hs => ?_⟩
      rcases List.mem_append.1 hs with hs | hs
      · exact steps s hs
      · exact readable_readSteps _ (by omega) s hs
    · rename_i uri _ _
      refine ⟨fun k hk => ?_, steps⟩
      rcases mem_keys_readAttribute hk with hk | ⟨rfl, valid⟩
      · exact attributes k hk
      · exact ⟨valid, uri⟩

/-- What holds of a route while its fields are read. -/
structure ReadableDraft (n : Nat) (draft : RouteDraft) : Prop where
  attributes : ReadableRouteAttributes draft.attributes
  source : ∀ source ∈ draft.source, ReadableSource source.attributes
  sourceSteps : ∀ step ∈ draft.sourceSteps, Readable n step
  steps : ∀ step ∈ draft.steps, Readable n step

theorem readable_readRouteField {path key : String} {draft : RouteDraft} {v : Value}
    (h : ReadableDraft n draft) (deep : v.depth ≤ n + 1) :
    ReadableDraft n (readRouteField path draft key v).value := by
  unfold readRouteField
  split
  · exact ⟨h.1, h.2, h.3, h.4⟩
  · exact ⟨h.1, h.2, h.3, h.4⟩
  · exact ⟨h.1, h.2, h.3, h.4⟩
  · split
    · rename_i es found
      have := depth_of_mapping? found
      have endpoint := readable_readEndpoint (n := n) (childPath path "from") es (by omega)
      refine ⟨h.attributes, fun source hs => ?_, fun s hs => ?_, h.steps⟩
      · change source ∈ (if _ then none else some _) at hs
        split at hs
        · cases hs
        · cases Option.some.inj hs
          exact endpoint.1
      · rcases List.mem_append.1 hs with hs | hs
        · exact h.sourceSteps s hs
        · exact endpoint.2 s hs
    · exact h
  · exact ⟨h.attributes, h.source, h.sourceSteps, readable_readSteps _ deep⟩
  · rename_i id errorHandler _ _ _
    refine ⟨fun k hk => ?_, h.source, h.sourceSteps, h.steps⟩
    rcases mem_keys_readAttribute hk with hk | ⟨rfl, valid⟩
    · exact h.attributes k hk
    · exact ⟨valid, id, errorHandler⟩

theorem readable_readRoute (path : String) {es : List Entry} (deep : depthOfEntries es ≤ n + 1) :
    ∀ route ∈ (readRoute path es).value, ReadableRoute n route := by
  have draft : ReadableDraft n (readFields (readRouteField path) .empty es).value := by
    apply readFields_induction
    · exact ⟨fun k hk => absurd hk not_mem_keys_empty, nofun, nofun, nofun⟩
    · intro s e he key h
      have := depth_le_of_mem_entries he
      exact readable_readRouteField h (by omega)
  intro route hr
  rw [readRoute, Noted.value_bind, RouteDraft.finish] at hr
  split at hr
  · rename_i source found
    cases Option.some.inj hr
    refine ⟨draft.attributes, draft.source source found, fun s hs => ?_⟩
    rcases List.mem_append.1 hs with hs | hs
    · exact draft.sourceSteps s hs
    · exact draft.steps s hs
  · cases hr

end Steps

theorem valid_readProperties (path : String) {bean : Bean} (v : Value) :
    (readProperties path bean v).value.extra = bean.extra := by
  unfold readProperties
  split
  · apply Noted.foldlM_induction (P := fun b : Bean => b.extra = bean.extra) rfl
    intro b e _ h
    unfold readProperty
    split <;> exact h
  · rfl

theorem valid_readBean (path : String) (es : List Entry) :
    ∀ bean ∈ (readBean path es).value, ∀ k ∈ bean.extra.keys, Xml.isValidName k := by
  intro bean hb
  unfold readBean at hb
  split at hb
  · cases hb
  · cases Option.some.inj hb
    apply readFields_induction (P := fun b : Bean => ∀ k ∈ b.extra.keys, Xml.isValidName k)
    · exact fun k hk => absurd hk not_mem_keys_empty
    · intro b e _ key h
      unfold readBeanField
      split
      · exact h
      · exact h
      · exact h
      · exact h
      · exact h
      · rw [valid_readProperties]
        exact h
      · exact valid_readAttribute h

theorem valid_readBeans (path : String) (v : Value) :
    ∀ bean ∈ (readBeans path v).value, ∀ k ∈ bean.extra.keys, Xml.isValidName k := by
  have items : ∀ (items : List Value) (index : Nat),
      ∀ bean ∈ (readBeanItems path index items).value, ∀ k ∈ bean.extra.keys, Xml.isValidName k := by
    intro items
    induction items with
    | nil => nofun
    | cons item rest ih =>
      intro index bean hb
      rw [readBeanItems] at hb
      rcases List.mem_append.1 hb with hb | hb
      · unfold readBeanItem at hb
        split at hb
        · exact valid_readBean _ _ bean (Option.mem_toList.1 hb)
        · cases hb
      · exact ih (index + 1) bean hb
  unfold readBeans
  split
  · exact items _ 0
  · nofun

theorem mapM_value {α β : Type} {f : α → Noted β} {as : List α} {b : β}
    (h : b ∈ (as.mapM f).value) : ∃ a ∈ as, b = (f a).value := by
  induction as with
  | nil => cases h
  | cons a as ih =>
    rw [List.mapM_cons] at h
    rcases List.mem_cons.1 h with rfl | h
    · exact ⟨a, List.mem_cons_self, rfl⟩
    · obtain ⟨c, hc, same⟩ := ih h
      exact ⟨c, List.mem_cons_of_mem a hc, same⟩

theorem names_readRestConfiguration (path : String) (es : List Entry) :
    (readRestConfiguration path es).value.Names (Xml.isValidName ·) (Xml.isValidName ·) := by
  apply readFields_induction (P := fun c : RestConfiguration =>
    c.Names (Xml.isValidName ·) (Xml.isValidName ·))
  · exact ⟨fun k hk => absurd hk not_mem_keys_empty, nofun⟩
  · intro c e _ key ⟨attributes, lists⟩
    unfold readConfigurationField
    dsimp only
    split
    · exact ⟨valid_readAttribute attributes, lists⟩
    · split
      · exact ⟨attributes, lists⟩
      · rename_i valid
        split
        · refine ⟨attributes, fun list hl => ?_⟩
          rcases mem_entries_insert hl with hl | rfl
          · exact lists list hl
          · refine ⟨by simpa using valid, fun properties hp => ?_⟩
            obtain ⟨es, _, rfl⟩ := mapM_value hp
            exact valid_readAttributes _ es
        · exact ⟨attributes, lists⟩

theorem valid_readOperation (path : String) (es : List Entry) :
    ∀ k ∈ (readOperation path es).value.attributes.keys, Xml.isValidName k := by
  apply readFields_induction (P := fun o : Operation =>
    ∀ k ∈ o.attributes.keys, Xml.isValidName k)
  · exact fun k hk => absurd hk not_mem_keys_empty
  · intro o e _ key h
    unfold readOperationField
    split
    · exact h
    · dsimp only
      split <;> exact h
    · exact valid_readAttribute h

theorem readable_readRestApi (path : String) (es : List Entry) :
    ReadableRestApi (readRestApi path es).value := by
  apply readFields_induction (P := ReadableRestApi)
  · exact ⟨⟨fun k hk => absurd hk not_mem_keys_empty, nofun⟩, not_mem_keys_empty,
      not_mem_keys_empty⟩
  · intro api e _ key h
    obtain ⟨⟨attributes, lists⟩, noId, noPath⟩ := h
    unfold readRestField
    split
    · exact ⟨⟨attributes, lists⟩, noId, noPath⟩
    · exact ⟨⟨attributes, lists⟩, noId, noPath⟩
    · exact ⟨⟨attributes, lists⟩, noId, noPath⟩
    · rename_i id path _
      split
      · dsimp only
        split
        · refine ⟨⟨attributes, fun list hl operation ho => ?_⟩, noId, noPath⟩
          rcases mem_of_mem_append hl ho with ⟨l, hl, ho⟩ | ho
          · exact lists l hl operation ho
          · obtain ⟨es, _, rfl⟩ := mapM_value ho
            exact valid_readOperation _ es
        · exact ⟨⟨attributes, lists⟩, noId, noPath⟩
      · refine ⟨⟨valid_readAttribute attributes, lists⟩, fun hk => ?_, fun hk => ?_⟩
        · rcases mem_keys_readAttribute hk with hk | ⟨same, _⟩
          · exact noId hk
          · exact id same.symm
        · rcases mem_keys_readAttribute hk with hk | ⟨same, _⟩
          · exact noPath hk
          · exact path same.symm

section Sections
variable {n : Nat} {d : Document}

theorem readable_addRoute {path : String} {es : List Entry} (h : ReadableDocument n d)
    (deep : depthOfEntries es ≤ n + 1) : ReadableDocument n (addRoute path d es).value := by
  refine ⟨h.beans, h.configuration, h.restApis, fun route hr => ?_⟩
  rcases List.mem_append.1 hr with hr | hr
  · exact h.routes route hr
  · exact readable_readRoute path deep route (Option.mem_toList.1 hr)

theorem mem_of_mapM_some {α β : Type} {f : α → Option β} {as : List α} {bs : List β}
    (h : as.mapM f = some bs) : ∀ b ∈ bs, ∃ a ∈ as, f a = some b := by
  induction as generalizing bs with
  | nil =>
    cases Option.some.inj h
    nofun
  | cons a as ih =>
    rw [List.mapM_cons] at h
    simp only [Option.bind_eq_bind, Option.bind_eq_some_iff] at h
    obtain ⟨b, hb, cs, hc, same⟩ := h
    cases Option.some.inj same
    intro c hc'
    rcases List.mem_cons.1 hc' with rfl | hc'
    · exact ⟨a, List.mem_cons_self, hb⟩
    · obtain ⟨x, hx, found⟩ := ih hc c hc'
      exact ⟨x, List.mem_cons_of_mem a hx, found⟩

/-- The mappings of a section are no deeper than the section. -/
theorem depth_of_mappings? {v : Value} {maps : List (List Entry)} (h : mappings? v = some maps) :
    ∀ es ∈ maps, depthOfEntries es ≤ v.depth := by
  unfold mappings? at h
  split at h
  · cases Option.some.inj h
    intro es he
    cases List.mem_singleton.1 he
    simp only [Value.depth]
    omega
  · rename_i items
    intro es he
    obtain ⟨item, hi, found⟩ := mem_of_mapM_some h es he
    have inner := depth_of_mapping? found
    have outer := depth_le_of_mem_items hi
    simp only [Value.depth]
    omega
  · contradiction

theorem readable_readEach {read : String → Document → List Entry → Noted Document}
    (step : ∀ path d es, depthOfEntries es ≤ n + 1 → ReadableDocument n d →
      ReadableDocument n (read path d es).value) {path : String} {v : Value}
    (h : ReadableDocument n d) (deep : v.depth ≤ n + 1) :
    ReadableDocument n (readEach read path d v).value := by
  unfold readEach
  split
  · simp only [Value.depth] at deep
    exact step _ _ _ (by omega) h
  · rename_i maps _ found
    apply Noted.foldlM_induction h
    intro e m hm he
    have inner := depth_of_mappings? found m.1 (List.fst_mem_of_mem_zipIdx hm)
    exact step _ _ _ (by omega) he
  · exact h

theorem readable_readSection {path key : String} {v : Value} (h : ReadableDocument n d)
    (deep : v.depth ≤ n + 1) : ReadableDocument n (readSection path d key v).value := by
  unfold readSection
  split
  · refine ⟨fun bean hb => ?_, h.configuration, h.restApis, h.routes⟩
    rcases List.mem_append.1 hb with hb | hb
    · exact h.beans bean hb
    · exact valid_readBeans _ v bean hb
  · exact readable_readEach (fun _ d _ _ hd => ⟨hd.1, hd.2, hd.3, hd.4⟩) h deep
  · refine readable_readEach (fun path d es _ hd => ?_) h deep
    unfold addRestConfiguration
    split
    · exact hd
    · refine ⟨hd.beans, fun c hc => ?_, hd.restApis, hd.routes⟩
      cases Option.some.inj hc
      exact names_readRestConfiguration path es
  · refine readable_readEach (fun path d es _ hd => ?_) h deep
    refine ⟨hd.beans, hd.configuration, fun api ha => ?_, hd.routes⟩
    rcases List.mem_append.1 ha with ha | ha
    · exact hd.restApis api ha
    · cases List.mem_singleton.1 ha
      exact readable_readRestApi path es
  · exact readable_readEach (fun _ _ _ deep hd => readable_addRoute hd deep) h deep
  · split
    · rename_i es found
      have := depth_of_mapping? found
      refine readable_addRoute h ?_
      simp only [entry, depthOfEntries, Value.depth]
      omega
    · exact h
  · exact h

/-- Around a step there are at least the root, an item and the list of steps. -/
theorem readable_readDocument {root : Value} {noted : Noted Document} (deep : root.depth ≤ n + 3)
    (h : readDocument root = .ok noted) : ReadableDocument n noted.value := by
  have empty : ReadableDocument n .empty := ⟨nofun, nofun, nofun, nofun⟩
  have items : ∀ (items : List Value) (index : Nat) (d : Document), depthOfItems items ≤ n + 2 →
      ReadableDocument n d → ReadableDocument n (readItems index d items).value := by
    intro items
    induction items with
    | nil => exact fun _ _ _ hd => hd
    | cons item rest ih =>
      intro index d deep hd
      rw [depthOfItems] at deep
      rw [readItems, Noted.value_bind]
      refine ih _ _ (by omega) ?_
      unfold readItem
      split
      · rename_i es found
        have := depth_of_mapping? found
        apply Noted.foldlM_induction hd
        intro d e he hd
        have := depth_le_of_mem_entries he
        unfold readSectionEntry
        split
        · exact readable_readSection hd (by omega)
        · exact hd
      · exact hd
  unfold readDocument at h
  split at h
  · cases h
    exact empty
  · cases h
    simp only [Value.depth] at deep
    exact items _ 0 .empty (by omega) empty
  · contradiction

end Sections
end RouteNotation.Dsl
