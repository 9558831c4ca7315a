import RouteNotation.Proofs.Route.CleanedTree

/-!
Trees that joining URIs and dropping generated ids leaves as they are. Once is enough, but for
parameters that become scalars only when a pair among them is joined.
-/

namespace RouteNotation

open Yaml Uri

/-- A URI stands beside parameters that are themselves a pair, among scalars. -/
def Nested (es : List Entry) : Prop :=
  ∃ uri ps inner qs, lookup? uriKey es = some (.string uri) ∧
    lookup? parametersKey es = some (.mapping ps) ∧ Paired ps inner qs ∧
    ∀ p ∈ ps, p.1 ≠ .string parametersKey → p.2.isScalar

def Unnested (es : List Entry) : Prop := ¬ Nested es

theorem distinctKeys_of_stringKeys {es : List Entry} (keys : StringKeys es) : DistinctKeys es := by
  refine ⟨?_, keys.2⟩
  intro e he s same
  obtain ⟨t, here⟩ := keys.1 e he
  rw [here] at same ⊢
  exact congrArg _ (Option.some.inj same)

/-- What is a pair only after cleaning had parameters that were a pair. -/
theorem nested_of_paired {es fs qs : List Entry} {uri : String} (unpaired : Unpaired es)
    (entries : CleanedEntries none es fs) (below : EntriesEverywhere StringKeys es)
    (after : Paired fs uri qs) : Nested es := by
  have notUri : uriKey ≠ "id" := by decide
  have notParameters : parametersKey ≠ "id" := by decide
  obtain ⟨uriThere, mapThere, scalars⟩ := after
  obtain ⟨v, uriHere, same⟩ := lookup?_before notUri entries uriThere
  obtain ⟨m, mapHere, map⟩ := lookup?_before notParameters entries mapThere
  obtain rfl := eq_string_of_cleaned same
  cases map with
  | mapping _ inside =>
    refine absurd ⟨uri, _, uriHere, mapHere, ?_⟩ unpaired
    intro p hp
    obtain ⟨s, key⟩ := (strings_of_cleaned inside).1 p hp
    refine ⟨key ▸ rfl, ?_⟩
    exact (scalars_of_cleaned inside).1 (fun q hq => (scalars q hq).2) p hp
      fun some => absurd some Bool.false_ne_true
  | @pair ps _ _ inner _ paired _ inside =>
    refine ⟨uri, ps, inner, _, uriHere, mapHere, paired, ?_⟩
    intro p hp other
    by_cases here : p.1 = .string uriKey
    · -- The only entry under this key is the URI of the pair, which is a string.
      have keys := entriesEverywhere_iff.1 below _ (mem_of_lookup? mapHere)
      have name : p.1.string? = some uriKey := by
        rw [here]
        rfl
      have again := lookup?_of_mem (distinctKeys_of_stringKeys keys.1) hp name
      rw [paired.1] at again
      rw [← Option.some.inj again]
      rfl
    · exact (scalars_of_cleaned inside).1 (fun q hq => (scalars q hq).2) p hp
        fun _ => ⟨here, other⟩

theorem paired_of_nested {es fs : List Entry} (entries : CleanedEntries none es fs)
    (nested : Nested es) : ∃ uri qs, Paired fs uri qs := by
  have notUri : uriKey ≠ "id" := by decide
  have notParameters : parametersKey ≠ "id" := by decide
  obtain ⟨uri, ps, inner, qs, uriHere, mapHere, paired, scalars⟩ := nested
  obtain ⟨v, uriThere, same⟩ := lookup?_after notUri entries uriHere
  obtain ⟨m, mapThere, map⟩ := lookup?_after notParameters entries mapHere
  cases same
  cases map with
  | mapping free _ => exact absurd ⟨inner, qs, paired⟩ free
  | pair _ _ inside =>
    refine ⟨uri, _, uriThere, mapThere, ?_⟩
    intro q hq
    obtain ⟨s, key⟩ := (strings_of_cleaned inside).2 q hq
    exact ⟨key ▸ rfl,
      (scalars_of_cleaned inside).2 (fun p hp free => scalars p hp (free rfl).2) q hq⟩

theorem unpaired_iff_unnested {es fs : List Entry} (unpaired : Unpaired es)
    (entries : CleanedEntries none es fs) (below : EntriesEverywhere StringKeys es) :
    Unpaired fs ↔ Unnested es := by
  refine not_congr ⟨?_, paired_of_nested entries⟩
  rintro ⟨_, _, after⟩
  exact nested_of_paired unpaired entries below after

theorem everywhere_of_scalars {P : List Entry → Prop} {es : List Entry}
    (scalars : ∀ e ∈ es, e.1.isScalar ∧ e.2.isScalar) : EntriesEverywhere P es :=
  entriesEverywhere_iff.2 fun e he => everywhere_of_isScalar (scalars e he).2

theorem unnested_of_scalars {es : List Entry}
    (scalars : ∀ e ∈ es, e.1.isScalar ∧ e.2.isScalar) : Unnested es := by
  rintro ⟨_, ps, _, _, _, map, _⟩
  cases (scalars _ (mem_of_lookup? map)).2

theorem unnested_of_paired {es ps : List Entry} {uri : String} (paired : Paired es uri ps) :
    Unnested es := by
  rintro ⟨_, qs, _, inner, _, map, ⟨_, below, _⟩, _⟩
  obtain ⟨_, here, scalars⟩ := paired
  rw [map] at here
  cases here
  cases (scalars _ (mem_of_lookup? below)).2

/-- What is not written of a pair has no pair in it. -/
theorem everywhere_unnested_of_paired {es ps : List Entry} {uri : String} (keys : StringKeys es)
    (paired : Paired es uri ps) :
    ∀ e ∈ es, e.1 = .string uriKey ∨ e.1 = .string parametersKey → e.2.Everywhere Unnested := by
  have unique := distinctKeys_of_stringKeys keys
  rintro ⟨k, v⟩ he (rfl | rfl)
  · have again := lookup?_of_mem unique he rfl
    rw [paired.1] at again
    rw [← Option.some.inj again]
    trivial
  · have again := lookup?_of_mem unique he rfl
    rw [paired.2.1] at again
    rw [← Option.some.inj again]
    exact ⟨unnested_of_scalars paired.2.2, everywhere_of_scalars paired.2.2⟩

mutual

theorem everywhere_unpaired_iff {v w : Value} : Cleaned v w → v.Everywhere StringKeys →
    (w.Everywhere Unpaired ↔ v.Everywhere Unnested)
  | .null, _ | .bool _, _ | .int _, _ | .float _, _ | .string _, _ => Iff.rfl
  | .sequence items, keys => itemsEverywhere_unpaired_iff items keys
  | .mapping unpaired entries, keys =>
    and_congr (unpaired_iff_unnested unpaired entries keys.2)
      (entriesEverywhere_unpaired_iff entries keys.2 nofun)
  | .pair paired _ entries, keys => by
    refine and_congr (iff_of_true ?_ (unnested_of_paired paired)) ?_
    · rintro ⟨_, _, _, map, _⟩
      rw [lookup?_parameters_of_cleaned entries] at map
      cases map
    · exact entriesEverywhere_unpaired_iff entries keys.2
        fun _ => everywhere_unnested_of_paired keys.1 paired

theorem itemsEverywhere_unpaired_iff {vs ws : List Value} : CleanedItems vs ws →
    ItemsEverywhere StringKeys vs → (ItemsEverywhere Unpaired ws ↔ ItemsEverywhere Unnested vs)
  | .nil, _ => Iff.rfl
  | .cons first rest, keys =>
    and_congr (everywhere_unpaired_iff first keys.1) (itemsEverywhere_unpaired_iff rest keys.2)

theorem entriesEverywhere_unpaired_iff {joined : Option String} {es fs : List (Value × Value)} :
    CleanedEntries joined es fs → EntriesEverywhere StringKeys es →
    (joined.isSome → ∀ e ∈ es, e.1 = .string uriKey ∨ e.1 = .string parametersKey →
      e.2.Everywhere Unnested) →
    (EntriesEverywhere Unpaired fs ↔ EntriesEverywhere Unnested es)
  | .nil, _, _ => Iff.rfl
  | .generated _ rest, keys, parts => by
    have below := entriesEverywhere_unpaired_iff rest keys.2
      fun some e he => parts some e (List.mem_cons_of_mem _ he)
    exact below.trans (and_iff_right trivial).symm
  | .uri rest, keys, parts => by
    have below := entriesEverywhere_unpaired_iff rest keys.2
      fun some e he => parts some e (List.mem_cons_of_mem _ he)
    exact and_congr (iff_of_true trivial (parts rfl _ List.mem_cons_self (.inl rfl))) below
  | .parameters rest, keys, parts => by
    have below := entriesEverywhere_unpaired_iff rest keys.2
      fun some e he => parts some e (List.mem_cons_of_mem _ he)
    exact below.trans (and_iff_right (parts rfl _ List.mem_cons_self (.inr rfl))).symm
  | .kept _ _ value rest, keys, parts => by
    have below := entriesEverywhere_unpaired_iff rest keys.2
      fun some e he => parts some e (List.mem_cons_of_mem _ he)
    exact and_congr (everywhere_unpaired_iff value keys.1) below

end

theorem length_le_of_cleaned {joined : Option String} {es fs : List Entry}
    (h : CleanedEntries joined es fs) : fs.length ≤ es.length := by
  simpa using (keys_sublist_of_cleaned h).length_le

mutual

/-- A tree that cleaning leaves alone has no pairs. -/
theorem everywhere_unpaired_of_cleaned : {v : Value} → Cleaned v v → v.Everywhere Unpaired
  | .sequence vs, h => by
    cases h with
    | sequence items => exact itemsEverywhere_unpaired_of_cleaned items
  | .mapping es, h => by
    cases h with
    | mapping unpaired entries =>
      exact ⟨unpaired, entriesEverywhere_unpaired_of_cleaned entries⟩
    | pair paired _ entries =>
      have gone := lookup?_parameters_of_cleaned entries
      rw [paired.2.1] at gone
      cases gone
  | .tagged _ _, h => by cases h
  | .null, _ | .bool _, _ | .int _, _ | .float _, _ | .string _, _ => trivial

theorem itemsEverywhere_unpaired_of_cleaned : {vs : List Value} → CleanedItems vs vs →
    ItemsEverywhere Unpaired vs
  | [], _ => trivial
  | _ :: _, h => by
    cases h with
    | cons first rest =>
      exact ⟨everywhere_unpaired_of_cleaned first, itemsEverywhere_unpaired_of_cleaned rest⟩

theorem entriesEverywhere_unpaired_of_cleaned : {es : List (Value × Value)} →
    CleanedEntries none es es → EntriesEverywhere Unpaired es
  | [], _ => trivial
  | (_, _) :: _, h => by
    cases h with
    | generated _ rest => exact absurd (length_le_of_cleaned rest) (Nat.not_succ_le_self _)
    | kept _ _ value rest =>
      exact ⟨everywhere_unpaired_of_cleaned value, entriesEverywhere_unpaired_of_cleaned rest⟩

end

mutual

theorem eq_of_cleaned {v w : Value} : Cleaned v w → v.Everywhere Unpaired →
    v.Everywhere Unstamped → w = v
  | .null, _, _ | .bool _, _, _ | .int _, _, _ | .float _, _, _ | .string _, _, _ => rfl
  | .sequence items, unpaired, unstamped => congrArg _ (eq_of_cleanedItems items unpaired unstamped)
  | .mapping _ entries, unpaired, unstamped =>
    congrArg _ (eq_of_cleanedEntries entries unpaired.2 unstamped.1 unstamped.2)
  | .pair paired _ _, unpaired, _ => absurd ⟨_, _, paired⟩ unpaired.1

theorem eq_of_cleanedItems {vs ws : List Value} : CleanedItems vs ws →
    ItemsEverywhere Unpaired vs → ItemsEverywhere Unstamped vs → ws = vs
  | .nil, _, _ => rfl
  | .cons first rest, unpaired, unstamped => by
    rw [eq_of_cleaned first unpaired.1 unstamped.1,
      eq_of_cleanedItems rest unpaired.2 unstamped.2]

theorem eq_of_cleanedEntries {es fs : List (Value × Value)} : CleanedEntries none es fs →
    EntriesEverywhere Unpaired es → Unstamped es → EntriesEverywhere Unstamped es → fs = es
  | .nil, _, _, _ => rfl
  | .generated stamped _, _, here, _ => absurd stamped (here _ List.mem_cons_self)
  | .kept _ _ value rest, unpaired, here, unstamped => by
    rw [eq_of_cleaned value unpaired.1 unstamped.1, eq_of_cleanedEntries rest unpaired.2
      (fun id later => here id (List.mem_cons_of_mem _ later)) unstamped.2]

end

/-- Joining URIs and then dropping generated ids changes a tree only where a pair or such an id
stands, and leaves no such id. It leaves a pair, and has more to do when it is done again, just
where parameters were a pair themselves. -/
theorem strip_packTree_normalForm {t n : Value} (untagged : t.Untagged)
    (keys : t.Everywhere StringKeys) (done : GeneratedId.strip (packTree t) = n) :
    Cleaned t n ∧ n.Everywhere Unstamped ∧
      (n.Everywhere Unpaired ↔ t.Everywhere Unnested) ∧
      (GeneratedId.strip (packTree n) = n ↔ t.Everywhere Unnested) := by
  have cleaned : Cleaned t n := done ▸ cleaned_strip_packTree untagged keys
  have names : n.Everywhere StringKeys := everywhere_of_cleaned stringKeys_of_cleaned cleaned keys
  have unstamped : n.Everywhere Unstamped :=
    everywhere_of_cleaned (fun entries _ => unstamped_of_cleaned entries) cleaned keys
  have pairs : n.Everywhere Unpaired ↔ t.Everywhere Unnested :=
    everywhere_unpaired_iff cleaned keys
  have again : Cleaned n (GeneratedId.strip (packTree n)) :=
    cleaned_strip_packTree (untagged_of_cleaned cleaned) names
  refine ⟨cleaned, unstamped, pairs, ?_⟩
  rw [← pairs]
  constructor
  · intro same
    rw [same] at again
    exact everywhere_unpaired_of_cleaned again
  · intro unpaired
    exact eq_of_cleaned again unpaired unstamped

/-- Generated ids beside URIs and among parameters, and parameters that are no scalars. -/
def stampedTree : Value := .mapping [
  textEntry "id" "route-1a2b",
  entry "from" (.mapping [
    textEntry "uri" "timer",
    textEntry "id" "from-9f9f",
    entry "parameters" (.mapping [textEntry "timerName" "tick", textEntry "id" "tick-beef",
      entry "period" (.int 5)]),
    entry "steps" (.sequence [.mapping [textEntry "id" "to-BEEF", textEntry "uri" "log:x",
      entry "parameters" (.mapping [textEntry "id" "map-0000", entry "list" .null])]])])]

def cleanedStampedTree : Value := .mapping [
  entry "from" (.mapping [
    textEntry "uri" "timer:tick?id=tick-beef&period=5",
    entry "steps" (.sequence [.mapping [textEntry "id" "to-BEEF", textEntry "uri" "log:x",
      entry "parameters" (.mapping [entry "list" .null])]])])]

theorem strip_packTree_stampedTree :
    (stampedTree.Untagged ∧ stampedTree.Everywhere StringKeys ∧
      GeneratedId.strip (packTree stampedTree) = cleanedStampedTree) ∧
    Cleaned stampedTree cleanedStampedTree ∧ cleanedStampedTree.Everywhere Unstamped ∧
      (cleanedStampedTree.Everywhere Unpaired ↔ stampedTree.Everywhere Unnested) ∧
      (GeneratedId.strip (packTree cleanedStampedTree) = cleanedStampedTree ↔
        stampedTree.Everywhere Unnested) := by
  have untagged : stampedTree.Untagged := by
    simp [stampedTree, Value.Untagged, ItemsUntagged, EntriesUntagged, entry, textEntry]
  have keys : stampedTree.Everywhere StringKeys := by
    refine ⟨?_, trivial, ⟨?_, trivial, trivial, ⟨?_, trivial, trivial, trivial, trivial⟩,
      ⟨⟨?_, trivial, trivial, ⟨?_, trivial, trivial, trivial⟩, trivial⟩, trivial⟩, trivial⟩,
      trivial⟩
    all_goals
      refine ⟨?_, by rw [DistinctNames]; decide⟩
      simp [entry, textEntry]
  have done : GeneratedId.strip (packTree stampedTree) = cleanedStampedTree := rfl
  exact ⟨⟨untagged, keys, done⟩, strip_packTree_normalForm untagged keys done⟩

/-- A pair is the only thing beside scalars among the parameters of a URI. -/
def nestedTree : Value := .mapping [
  textEntry "uri" "x",
  entry "parameters" (.mapping [
    textEntry "uri" "u", entry "parameters" (.mapping [textEntry "a" "b"])])]

theorem strip_packTree_nestedTree :
    nestedTree.Untagged ∧ nestedTree.Everywhere StringKeys ∧
      ¬ (GeneratedId.strip (packTree nestedTree)).Everywhere Unpaired ∧
      GeneratedId.strip (packTree (GeneratedId.strip (packTree nestedTree))) ≠
        GeneratedId.strip (packTree nestedTree) := by
  have once : GeneratedId.strip (packTree nestedTree) = .mapping [textEntry "uri" "x",
      entry "parameters" (.mapping [textEntry "uri" "u?a=b"])] := rfl
  have twice : GeneratedId.strip (packTree (.mapping [textEntry "uri" "x",
      entry "parameters" (.mapping [textEntry "uri" "u?a=b"])])) =
      .mapping [textEntry "uri" "x?uri=u?a=b"] := rfl
  refine ⟨?_, ⟨?_, trivial, ⟨?_, trivial, ⟨?_, trivial, trivial⟩, trivial⟩, trivial⟩, ?_, ?_⟩
  · simp [nestedTree, Value.Untagged, EntriesUntagged, entry, textEntry]
  iterate 3
    refine ⟨?_, by rw [DistinctNames]; decide⟩
    simp [entry, textEntry]
  · rw [once]
    intro unpaired
    refine unpaired.1 ⟨"x", _, rfl, rfl, ?_⟩
    simp [textEntry, Value.isScalar, Value.scalarText?]
  · rw [once, twice]
    simp [textEntry, entry]

end RouteNotation
