import RouteNotation.Proofs.Dsl.DocumentBounds
import RouteNotation.Proofs.Dsl.SeparateSections
import RouteNotation.Proofs.Dsl.StepInduction

/-!
Induction over the documents that are read from a value tree: what holds of each entity alone, and
of documents put together, holds of the whole.
-/

namespace RouteNotation.Dsl

open Yaml

section Steps
variable {P : List Entry → Prop} {Q : Step → Prop}

namespace StepInvariant

theorem readStepItems (h : StepInvariant P Q) (path : String) (index : Nat) {items : List Value}
    (hv : ItemsEverywhere P items) : ∀ s ∈ (readStepItems path index items).value, Q s := by
  induction items generalizing index with
  | nil => nofun
  | cons item rest ih =>
    intro s hs
    rw [Dsl.readStepItems] at hs
    rcases List.mem_append.1 hs with hs | hs
    · exact h.readStepItem _ _ item hv.1 s (Option.mem_toList.1 hs)
    · exact ih (index + 1) hv.2 s hs

theorem readSteps (h : StepInvariant P Q) (path : String) {v : Value} (hv : v.Everywhere P) :
    ∀ s ∈ (readSteps path v).value, Q s := by
  unfold Dsl.readSteps
  split
  · rename_i items found
    exact h.readStepItems path 0 (everywhere_of_sequence? hv found)
  · nofun

theorem readEndpoint (h : StepInvariant P Q) (path : String) {es : List Entry}
    (hv : EntriesEverywhere P es) : ∀ s ∈ (readEndpoint path es).value.steps, Q s := by
  apply readFields_induction (P := fun d : EndpointDraft => ∀ s ∈ d.steps, Q s)
  · nofun
  · intro draft e he key steps
    unfold readEndpointField
    split
    · exact steps
    · split <;> exact steps
    · intro s hs
      rcases List.mem_append.1 hs with hs | hs
      · exact steps s hs
      · exact h.readSteps _ (entriesEverywhere_iff.1 hv e he) s hs
    · exact steps

theorem readRoute (h : StepInvariant P Q) (path : String) {es : List Entry}
    (hv : EntriesEverywhere P es) : ∀ r ∈ (readRoute path es).value, ∀ s ∈ r.steps, Q s := by
  have draft : ∀ s ∈ (readFields (readRouteField path) .empty es).value.sourceSteps ++
      (readFields (readRouteField path) .empty es).value.steps, Q s := by
    apply readFields_induction (P := fun d : RouteDraft => ∀ s ∈ d.sourceSteps ++ d.steps, Q s)
    · nofun
    · intro draft e he key steps
      have inside := entriesEverywhere_iff.1 hv e he
      unfold readRouteField
      split
      · exact steps
      · exact steps
      · exact steps
      · split
        · rename_i fields found
          have endpoint := h.readEndpoint (childPath path "from")
            (everywhere_of_mapping? inside found).2
          rw [List.forall_mem_append] at steps ⊢
          exact ⟨List.forall_mem_append.2 ⟨steps.1, endpoint⟩, steps.2⟩
        · exact steps
      · rw [List.forall_mem_append] at steps ⊢
        exact ⟨steps.1, h.readSteps _ inside⟩
      · exact steps
  intro r hr
  rw [Dsl.readRoute, Noted.value_bind, RouteDraft.finish] at hr
  split at hr
  · cases Option.some.inj hr
    exact draft
  · cases hr

end StepInvariant
end Steps

/-- A property of documents that each entity has alone and that merging keeps, where the mappings
that are read are all known to satisfy `P`. -/
structure DocumentInvariant (P : List Entry → Prop) (D : Document → Prop) : Prop where
  empty : D .empty
  merge : ∀ d e, D d → D e → D (d.merge e)
  beans : ∀ path v, v.Everywhere P → D { Document.empty with beans := (readBeans path v).value }
  reference : ∀ path es, P es → EntriesEverywhere P es → D (addReference path .empty es).value
  restConfiguration : ∀ path es, P es → EntriesEverywhere P es →
    D (.ofRestConfiguration (readRestConfiguration path es).value)
  restApi : ∀ path es, P es → EntriesEverywhere P es → D (.ofRestApi (readRestApi path es).value)
  route : ∀ path es, EntriesEverywhere P es → ∀ r ∈ (readRoute path es).value, D (.ofRoute r)

theorem everywhere_of_mappings? {P : List Entry → Prop} {v : Value} {maps : List (List Entry)}
    (hv : v.Everywhere P) (h : mappings? v = some maps) :
    ∀ es ∈ maps, P es ∧ EntriesEverywhere P es := by
  unfold mappings? at h
  split at h
  · cases Option.some.inj h
    exact List.forall_mem_singleton.2 hv
  · intro es he
    obtain ⟨item, hi, found⟩ := mem_of_mapM_some h es he
    exact everywhere_of_mapping? (itemsEverywhere_iff.1 hv item hi) found
  · contradiction

namespace DocumentInvariant
variable {P : List Entry → Prop} {D : Document → Prop} (h : DocumentInvariant P D)
include h

theorem mergeAll {ds : List Document} (hd : ∀ d ∈ ds, D d) : D (.mergeAll ds) := by
  induction ds with
  | nil => exact h.empty
  | cons d ds ih =>
    rw [List.forall_mem_cons] at hd
    exact h.merge d _ hd.1 (ih hd.2)

theorem addRoute (path : String) {es : List Entry} (hv : EntriesEverywhere P es) :
    D (addRoute path .empty es).value := by
  rw [Dsl.addRoute, Noted.value_bind]
  cases found : (Dsl.readRoute path es).value with
  | none => exact h.empty
  | some r => exact h.route path es hv r found

theorem readEach {read : String → Document → List Entry → Noted Document} (alone : AddsAlone read)
    (each : ∀ es, P es → EntriesEverywhere P es → D (read "" .empty es).value) (path : String)
    {v : Value} (hv : v.Everywhere P) : D (readEach read path .empty v).value := by
  -- Every entity is read as if it were alone, so no document that is half read comes in.
  rw [value_readEach alone path "", Document.empty_merge]
  apply h.mergeAll
  intro d hd
  obtain ⟨es, he, rfl⟩ := List.mem_map.1 hd
  cases found : mappings? v with
  | none =>
    rw [found] at he
    cases he
  | some maps =>
    rw [found] at he
    obtain ⟨here, inside⟩ := everywhere_of_mappings? hv found es he
    exact each es here inside

theorem readSection (path key : String) {v : Value} (hv : v.Everywhere P) :
    D (readSection path .empty key v).value := by
  unfold Dsl.readSection
  split
  · exact h.beans path v hv
  · exact h.readEach addsAlone_addReference (h.reference "") path hv
  · exact h.readEach addsAlone_addRestConfiguration (h.restConfiguration "") path hv
  · exact h.readEach addsAlone_addRestApi (h.restApi "") path hv
  · exact h.readEach addsAlone_addRoute (fun es _ inside => h.addRoute "" inside) path hv
  · split
    · rename_i es found
      exact h.addRoute path ⟨everywhere_of_mapping? hv found, trivial⟩
    · exact h.empty
  · exact h.empty

theorem readItem (path : String) {item : Value} (hv : item.Everywhere P) :
    D (readItem path .empty item).value := by
  unfold Dsl.readItem
  split
  · rename_i es found
    rw [Noted.value_foldlM_merge (value_readSectionEntry path path), Document.empty_merge]
    apply h.mergeAll
    intro d hd
    obtain ⟨e, he, rfl⟩ := List.mem_map.1 hd
    unfold readSectionEntry
    split
    · exact h.readSection _ _ (entriesEverywhere_iff.1 (everywhere_of_mapping? hv found).2 e he)
    · exact h.empty
  · exact h.empty

theorem readDocument {root : Value} {noted : Noted Document} (hv : root.Everywhere P)
    (read : readDocument root = .ok noted) : D noted.value := by
  unfold Dsl.readDocument at read
  split at read
  · cases read
    exact h.empty
  · cases read
    rw [value_readItems "", Document.empty_merge]
    apply h.mergeAll
    intro d hd
    obtain ⟨item, hi, rfl⟩ := List.mem_map.1 hd
    exact h.readItem "" (itemsEverywhere_iff.1 hv item hi)
  · cases read

end DocumentInvariant
end RouteNotation.Dsl
