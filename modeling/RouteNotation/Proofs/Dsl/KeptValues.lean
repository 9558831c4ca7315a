import RouteNotation.Proofs.Dsl.KeptBeans
import RouteNotation.Proofs.Dsl.KeptRoutes
import RouteNotation.Proofs.Dsl.SeparateSections

/-!
What becomes of the texts in a value tree that is read without a diagnostic. Main statement:
`readDocument_values`, which says that the document holds each of them but those that are passed
over.
-/

namespace RouteNotation.Dsl

open Yaml

/-- Merging takes nothing from the first document. -/
theorem values_merge (d e : Document) : d.values ⊆ (d.merge e).values := by
  intro x hx
  simp only [Document.values, Document.merge, List.flatMap_append, List.mem_append] at hx ⊢
  rcases hx with (((beans | references) | configuration) | apis) | routes
  · exact .inl (.inl (.inl (.inl (.inl beans))))
  · exact .inl (.inl (.inl (.inr (.inl references))))
  · refine .inl (.inl (.inr ?_))
    cases found : d.restConfiguration with
    | none => simp [found] at configuration
    | some c => simpa [found] using configuration
  · exact .inl (.inr (.inl apis))
  · exact .inr (.inl routes)

section Sections
variable {path key : String} {d d' : Document} {v : Value}

/-- Whether the texts in a mapping of a section are in the document, or passed over. -/
def TakesValues (read : String → Document → List Entry → Noted Document)
    (unread : List Entry → List String) : Prop :=
  ∀ {path d es d'}, (Value.mapping es).Clear → read path d es = pure d' →
    ∀ x ∈ entriesTexts es, x ∈ d'.values ∨ x ∈ unread es

theorem takes_addReference :
    TakesValues addReference (fieldsUnread referenceFieldUnread) := by
  intro path d es d' clear run x hx
  obtain ⟨read, rfl⟩ := Noted.bind_pure_eq_pure.1 run
  refine (values_readReference clear read x hx).imp_left fun held => ?_
  simp only [Document.values, List.flatMap_append, List.mem_append]
  exact .inl (.inl (.inl (.inr (.inr held))))

theorem takes_addRestConfiguration :
    TakesValues addRestConfiguration (fieldsUnread configurationFieldUnread) := by
  intro path d es d' clear run x hx
  unfold addRestConfiguration at run
  split at run
  · exact absurd run Noted.unknownShape_bind_ne_pure
  · obtain ⟨read, rfl⟩ := Noted.bind_pure_eq_pure.1 run
    refine (values_readRestConfiguration clear read x hx).imp_left fun held => ?_
    simp only [Document.values, List.mem_append, Option.toList_some, List.flatMap_singleton]
    exact .inl (.inl (.inr held))

theorem takes_addRestApi : TakesValues addRestApi (fieldsUnread restFieldUnread) := by
  intro path d es d' clear run x hx
  obtain ⟨read, rfl⟩ := Noted.bind_pure_eq_pure.1 run
  refine (values_readRestApi clear read x hx).imp_left fun held => ?_
  simp only [Document.values, List.flatMap_append, List.mem_append, List.flatMap_singleton]
  exact .inl (.inr (.inr held))

theorem takes_addRoute : TakesValues addRoute (fieldsUnread routeFieldUnread) := by
  intro path d es d' clear run x hx
  obtain ⟨read, rfl⟩ := Noted.bind_pure_eq_pure.1 run
  refine (values_readRoute clear read x hx).imp_left fun held => ?_
  simp only [Document.values, List.flatMap_append, List.mem_append]
  exact .inr (.inr held)

theorem values_readEach {read : String → Document → List Entry → Noted Document}
    {unread : List Entry → List String} (alone : AddsAlone read) (takes : TakesValues read unread)
    (clear : v.Clear) (run : readEach read path d v = pure d') :
    ∀ x ∈ v.texts, x ∈ d'.values ∨ x ∈ mappingsUnread unread v := by
  unfold readEach at run
  split at run
  · intro x hx
    rw [mappingsUnread, mappings?, Option.getD_some, List.flatMap_singleton]
    exact takes clear run x hx
  · rename_i maps _ found
    obtain ⟨below, texts⟩ := clear_mappings? clear found
    have each := Noted.foldlM_kept (fun (d : Document) (m : List Entry × Nat) =>
      ∀ x ∈ entriesTexts m.1, x ∈ d.values ∨ x ∈ unread m.1) run
      (fun s s' m hm read => takes (below m.1 (List.fst_mem_of_mem_zipIdx hm)) read)
      (fun s m n held x hx => (held x hx).imp_left fun there => by
        rw [alone _ "" s n.1]
        exact values_merge s _ there)
    intro x hx
    rw [texts, List.mem_flatMap] at hx
    obtain ⟨es, he, hx⟩ := hx
    obtain ⟨m, there, same⟩ : ∃ m ∈ maps.zipIdx, m.1 = es := by
      rwa [← List.zipIdx_map_fst 0 maps, List.mem_map] at he
    rw [mappingsUnread, found, Option.getD_some]
    exact (each m there x (same ▸ hx)).imp_right
      fun unread => List.mem_flatMap.2 ⟨es, he, same ▸ unread⟩
  · exact absurd run Noted.unknownShape_bind_ne_pure

theorem values_readSection (clear : v.Clear) (run : readSection path d key v = pure d') :
    ∀ x ∈ v.texts, x ∈ d'.values ∨ x ∈ sectionUnread key v := by
  unfold readSection at run
  split at run
  · obtain ⟨read, rfl⟩ := Noted.bind_pure_eq_pure.1 run
    intro x hx
    refine (values_readBeans clear read x hx).imp_left fun held => ?_
    simp only [Document.values, List.flatMap_append, List.mem_append]
    exact .inl (.inl (.inl (.inl (.inr held))))
  · exact values_readEach addsAlone_addReference takes_addReference clear run
  · exact values_readEach addsAlone_addRestConfiguration takes_addRestConfiguration clear run
  · exact values_readEach addsAlone_addRestApi takes_addRestApi clear run
  · exact values_readEach addsAlone_addRoute takes_addRoute clear run
  · split at run
    · rename_i es mapping
      obtain rfl := clear.eq_mapping mapping
      have alone : (Value.mapping [Yaml.entry "from" (.mapping es)]).Clear :=
        ⟨⟨⟨trivial, clear.untagged⟩, trivial⟩, List.pairwise_singleton _ _, clear.names, trivial⟩
      have texts : entriesTexts [Yaml.entry "from" (.mapping es)] = (Value.mapping es).texts :=
        List.append_nil _
      have unread : fieldsUnread routeFieldUnread [Yaml.entry "from" (.mapping es)] =
        sectionUnread "from" (.mapping es) := List.append_nil _
      have taken := takes_addRoute alone run
      rwa [texts, unread] at taken
    · exact absurd run Noted.unknownShape_bind_ne_pure
  · exact absurd run Noted.unknownShape_bind_ne_pure

theorem values_readItem {item : Value} (clear : item.Clear) (run : readItem path d item = pure d') :
    ∀ x ∈ item.texts, x ∈ d'.values ∨
      x ∈ (item.mapping?.getD []).flatMap sectionEntryUnread := by
  unfold readItem at run
  split at run
  · rename_i es mapping
    obtain rfl := clear.eq_mapping mapping
    have each := Noted.foldlM_kept (fun (d : Document) (e : Entry) =>
      ∀ x ∈ e.2.texts, x ∈ d.values ∨ x ∈ sectionEntryUnread e) run ?_ ?_
    · intro x hx
      rw [Value.texts, entriesTexts_eq, List.mem_flatMap] at hx
      obtain ⟨e, he, hx⟩ := hx
      exact (each e he x hx).imp_right fun unread => List.mem_flatMap.2 ⟨e, he, unread⟩
    · intro s s' e he read
      unfold readSectionEntry at read
      split at read
      · rename_i key scalar
        rw [sectionEntryUnread, scalar]
        exact values_readSection (clear.entry e he) read
      · exact absurd read Noted.unknownShape_bind_ne_pure
    · intro s e f held x hx
      rw [value_readSectionEntry path "" s f]
      exact (held x hx).imp_left fun there => values_merge s _ there
  · exact absurd run Noted.unknownShape_bind_ne_pure

theorem values_readItems {index : Nat} {items : List Value} (clear : ∀ v ∈ items, v.Clear)
    (run : readItems index d items = pure d') :
    ∀ x ∈ itemsTexts items, x ∈ d'.values ∨
      x ∈ items.flatMap fun item => (item.mapping?.getD []).flatMap sectionEntryUnread := by
  induction items generalizing index d with
  | nil => nofun
  | cons item rest ih =>
    obtain ⟨below, others⟩ := List.forall_mem_cons.1 clear
    obtain ⟨first, later⟩ := Noted.bind_eq_pure.1 run
    intro x hx
    rw [List.flatMap_cons, List.mem_append]
    rcases List.mem_append.1 hx with here | after
    · refine (values_readItem below first x here).imp (fun held => ?_) .inl
      have last : d' = (readItems (index + 1) _ rest).value := (congrArg Noted.value later).symm
      rw [last, value_readItems ""]
      exact values_merge _ _ held
    · exact (ih others later x after).imp_right .inr

end Sections

/-- Where nothing is noted about a tree without tags in which no string is twice a key, the document
holds the text of every scalar, or it is one of those that are passed over. -/
theorem readDocument_values {root : Value} {d : Document} (untagged : root.Untagged)
    (names : root.Everywhere Uri.DistinctNames) (read : readDocument root = .ok (pure d)) :
    ∀ x ∈ root.texts, x ∈ d.values ∨ x ∈ documentUnread root := by
  have clear : root.Clear := ⟨untagged, names⟩
  unfold readDocument at read
  split at read
  · nofun
  · rename_i items
    exact values_readItems clear.item (Except.ok.inj read)
  · cases read

/-- A bean with a property, and a route with a filter. -/
def storedTree : Value :=
  .sequence
    [.mapping [Yaml.entry "beans" (.sequence [.mapping [textEntry "name" "a",
      Yaml.entry "properties" (.mapping [textEntry "limit" "#bean:b"])]])],
     .mapping [Yaml.entry "from" (.mapping [textEntry "uri" "u",
      Yaml.entry "steps" (.sequence [.mapping [Yaml.entry "filter"
        (.mapping [textEntry "simple" "x", Yaml.entry "weight" (.int 3)])]])])]]

theorem readDocument_values_storedTree :
    storedTree.Untagged ∧ storedTree.Everywhere Uri.DistinctNames ∧
      ∃ d, readDocument storedTree = .ok (pure d) ∧ ∀ x ∈ storedTree.texts, x ∈ d.values := by
  have untagged : storedTree.Untagged := by
    simp [storedTree, Value.Untagged, ItemsUntagged, EntriesUntagged, Yaml.entry, textEntry]
  have names : storedTree.Everywhere Uri.DistinctNames := by
    have : ∀ es ∈ storedTree.mappings, (es.filterMap fun e => e.1.string?).Nodup := by decide
    exact everywhere_iff.2 this
  obtain ⟨d, read⟩ : ∃ d, readDocument storedTree = .ok (pure d) := ⟨_, rfl⟩
  have none : documentUnread storedTree = [] := by decide +kernel
  refine ⟨untagged, names, d, read, fun x hx => ?_⟩
  refine (readDocument_values untagged names read x hx).resolve_right fun unread => ?_
  rw [none] at unread
  cases unread

/-- A bean whose type is a list. -/
def typeList : Value :=
  .sequence [.mapping [Yaml.entry "beans" (.sequence [.mapping [textEntry "name" "a",
    Yaml.entry "type" (.sequence [.string "x"])]])]]

theorem readDocument_typeList :
    typeList.Untagged ∧ typeList.Everywhere Uri.DistinctNames ∧ "x" ∈ typeList.texts ∧
      readDocument typeList = .ok (pure { Document.empty with beans := [.named "a"] }) ∧
      "x" ∉ ({ Document.empty with beans := [.named "a"] } : Document).values := by
  have untagged : typeList.Untagged := by
    simp [typeList, Value.Untagged, ItemsUntagged, EntriesUntagged, Yaml.entry, textEntry]
  have names : ∀ es ∈ typeList.mappings, (es.filterMap fun e => e.1.string?).Nodup := by decide
  exact ⟨untagged, everywhere_iff.2 names, by decide, by rfl, by decide⟩

end RouteNotation.Dsl
