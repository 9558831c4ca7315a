import RouteNotation.Proofs.Route.UriTrees
import RouteNotation.Proofs.Yaml.Everywhere

/-!
URIs that stand beside parameters in a tree. Main statement: where there are none, taking URIs apart
and joining them again gives the same tree.
-/

namespace RouteNotation.Uri

open Yaml

/-- `uri` stands beside the parameters `ps`, whose keys and values are all scalars. -/
def Paired (es : List Entry) (uri : String) (ps : List Entry) : Prop :=
  lookup? uriKey es = some (.string uri) ∧ lookup? parametersKey es = some (.mapping ps) ∧
    ∀ p ∈ ps, p.1.isScalar ∧ p.2.isScalar

def Unpaired (es : List Entry) : Prop := ¬ ∃ uri ps, Paired es uri ps

/-- No string is the key of two entries. -/
def DistinctNames (es : List Entry) : Prop := (es.filterMap fun e => e.1.string?).Nodup

section
variable {es : List Entry}

theorem distinctKeys_of_untagged (untagged : EntriesUntagged es) (names : DistinctNames es) :
    DistinctKeys es := by
  refine ⟨?_, names⟩
  intro e he s same
  exact eq_string_of_string? (entriesUntagged_iff.1 untagged e he).1 same

theorem isSome_parameters?_mapping (ps : List Entry) :
    (parameters? (.mapping ps)).isSome ↔ ∀ p ∈ ps, p.1.isScalar ∧ p.2.isScalar := by
  rw [← isSome_scalarEntries?]
  change ((scalarEntries? ps).map _).isSome ↔ _
  rw [Option.isSome_map]

theorem isSome_packed?_of_paired {uri : String} {ps : List Entry} (h : Paired es uri ps) :
    (packed? es).isSome := by
  obtain ⟨found, beside, scalars⟩ := h
  obtain ⟨m, known⟩ := Option.isSome_iff_exists.1 ((isSome_parameters?_mapping ps).2 scalars)
  simp [packed?, found, beside, known, Value.string?, Value.untagged]

theorem paired_of_packed? (untagged : EntriesUntagged es) {text : String}
    (h : packed? es = some text) :
    ∃ uri ps m, Paired es uri ps ∧ parameters? (.mapping ps) = some m ∧ text = pack uri m := by
  simp only [packed?, Option.bind_eq_bind, Option.bind_eq_some_iff] at h
  obtain ⟨v, found, uri, string, w, beside, m, scalars, same⟩ := h
  have bare := entriesUntagged_iff.1 untagged
  obtain rfl := eq_string_of_string? (bare _ (mem_of_lookup? found)).2 string
  obtain ⟨ps, rfl⟩ : ∃ ps, w = .mapping ps := by
    obtain ⟨_, h, _⟩ := Option.map_eq_some_iff.1 scalars
    obtain ⟨ps, below, _⟩ := Option.bind_eq_some_iff.1 h
    exact ⟨ps, eq_mapping_of_mapping? (bare _ (mem_of_lookup? beside)).2 below⟩
  refine ⟨uri, ps, m, ⟨found, beside, ?_⟩, scalars, (Option.some.inj same).symm⟩
  exact (isSome_parameters?_mapping ps).1 (Option.isSome_of_eq_some scalars)

theorem unpaired_of_packed? (h : packed? es = none) : Unpaired es := by
  rintro ⟨uri, ps, paired⟩
  have some := isSome_packed?_of_paired paired
  rw [h] at some
  contradiction

theorem packed?_eq_none (untagged : EntriesUntagged es) (h : Unpaired es) : packed? es = none := by
  cases found : packed? es with
  | none => rfl
  | some text =>
    obtain ⟨uri, ps, _, paired, _⟩ := paired_of_packed? untagged found
    exact absurd ⟨uri, ps, paired⟩ h

end

mutual

theorem settled_of_everywhere : {v : Value} → v.Untagged → v.Everywhere DistinctNames →
    v.Everywhere Unpaired → Settled v
  | .sequence items, untagged, names, unpaired => by
    rw [Value.Untagged] at untagged
    rw [Value.Everywhere] at names unpaired
    rw [Settled]
    exact settledItems_of_everywhere untagged names unpaired
  | .mapping es, untagged, names, unpaired => by
    rw [Value.Untagged] at untagged
    rw [Value.Everywhere] at names unpaired
    rw [Settled]
    exact ⟨distinctKeys_of_untagged untagged names.1, packed?_eq_none untagged unpaired.1,
      settledEntries_of_everywhere untagged names.2 unpaired.2⟩
  | .tagged _ _, untagged, _, _ => by
    rw [Value.Untagged] at untagged
    contradiction
  | .null, _, _, _ | .bool _, _, _, _ | .int _, _, _, _ | .float _, _, _, _
  | .string _, _, _, _ => by
    rw [Settled]
    trivial

theorem settledItems_of_everywhere : {items : List Value} → ItemsUntagged items →
    ItemsEverywhere DistinctNames items → ItemsEverywhere Unpaired items → SettledItems items
  | [], _, _, _ => trivial
  | _ :: _, untagged, names, unpaired =>
    ⟨settled_of_everywhere untagged.1 names.1 unpaired.1,
      settledItems_of_everywhere untagged.2 names.2 unpaired.2⟩

theorem settledEntries_of_everywhere : {es : List (Value × Value)} → EntriesUntagged es →
    EntriesEverywhere DistinctNames es → EntriesEverywhere Unpaired es → SettledEntries es
  | [], _, _, _ => trivial
  | (_, _) :: _, untagged, names, unpaired =>
    ⟨settled_of_everywhere untagged.1.2 names.1 unpaired.1,
      settledEntries_of_everywhere untagged.2 names.2 unpaired.2⟩

end

/-- A tree in which no URI stands beside scalar parameters is the same after its URIs have been
taken apart and joined, and so is each single URI that can be taken apart. -/
theorem packTree_unpackTree_of_unpaired :
    (∀ t : Value, t.Untagged → t.Everywhere DistinctNames → t.Everywhere Unpaired →
      packTree (unpackTree t) = t) ∧
    ∀ (uri scheme : String) (parameters : Attributes), unpack? uri = some (scheme, parameters) →
      pack scheme parameters = uri :=
  ⟨fun _ untagged names unpaired =>
    packTree_unpackTree (settled_of_everywhere untagged names unpaired),
    fun _ _ _ apart => pack_of_unpack? apart⟩

/-- A URI in parameters that are no scalars, separators in every part of a URI, and a URI behind
other keys. -/
def unpairedTree : Value := .sequence [
  .mapping [entry "steps" .null, textEntry "uri" "timer:a:b?x=&y=?=&=z",
    (.int 5, .mapping [textEntry "uri" "sql:select * from t?a=:#x?b&c=d"])],
  .mapping [textEntry "uri" "log:x?level=INFO", entry "parameters" (.mapping [
    textEntry "uri" "jms:queue:orders?transacted=true", entry "list" (.sequence [.bool true])])],
  .mapping [entry "uri" (.int 1), entry "parameters" (.mapping [textEntry "a" "b"])]]

theorem packTree_unpackTree_unpairedTree :
    (unpairedTree.Untagged ∧ unpairedTree.Everywhere DistinctNames ∧
      unpairedTree.Everywhere Unpaired ∧ packTree (unpackTree unpairedTree) = unpairedTree) ∧
    ∃ scheme parameters, unpack? "a+.-9:/b?c=d?e&f=g=h&i=" = some (scheme, parameters) ∧
      pack scheme parameters = "a+.-9:/b?c=d?e&f=g=h&i=" := by
  have untagged : unpairedTree.Untagged := by
    simp [unpairedTree, Value.Untagged, ItemsUntagged, EntriesUntagged, entry, textEntry]
  have names : unpairedTree.Everywhere DistinctNames := by
    refine ⟨⟨?_, trivial, trivial, ⟨?_, trivial, trivial⟩, trivial⟩,
      ⟨?_, trivial, ⟨?_, trivial, ⟨trivial, trivial⟩, trivial⟩, trivial⟩,
      ⟨?_, trivial, ⟨?_, trivial, trivial⟩, trivial⟩, trivial⟩
    all_goals rw [DistinctNames]; decide
  have unpaired : unpairedTree.Everywhere Unpaired := by
    refine ⟨⟨?_, trivial, trivial, ⟨?_, trivial, trivial⟩, trivial⟩,
      ⟨?_, trivial, ⟨?_, trivial, ⟨trivial, trivial⟩, trivial⟩, trivial⟩,
      ⟨?_, trivial, ⟨?_, trivial, trivial⟩, trivial⟩, trivial⟩
    all_goals exact unpaired_of_packed? rfl
  refine ⟨⟨untagged, names, unpaired, ?_⟩, _, _, rfl, ?_⟩
  · exact packTree_unpackTree_of_unpaired.1 _ untagged names unpaired
  · exact packTree_unpackTree_of_unpaired.2 _ _ _ rfl

end RouteNotation.Uri
