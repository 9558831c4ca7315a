import RouteNotation.Proofs.Route.UriTrees

/-!
What taking URIs apart and joining them again leaves of a mapping: the entries under other keys, and
a URI that is not empty.
-/

namespace RouteNotation.Uri

open Yaml

/-- The tree with its URIs joined, which may have been taken apart before. -/
def rejoin (unpack : Bool) (v : Value) : Value :=
  packTree (if unpack then unpackTree v else v)

def rejoinEntries (unpack : Bool) (es : List Entry) : List Entry :=
  let es := if unpack then unpackEntries (unpacked? es) es else es
  packEntries (packed? es) es

theorem rejoin_mapping (unpack : Bool) (es : List Entry) :
    rejoin unpack (.mapping es) = .mapping (rejoinEntries unpack es) := by
  cases unpack <;> rfl

theorem rejoin_string (unpack : Bool) (s : String) : rejoin unpack (.string s) = .string s := by
  cases unpack <;> rfl

theorem rejoin_sequence (unpack : Bool) (items : List Value) :
    rejoin unpack (.sequence items) = .sequence (items.map (rejoin unpack)) := by
  have packed (items : List Value) : packItems items = items.map packTree := by
    induction items with
    | nil => rfl
    | cons v rest ih => rw [packItems, ih, List.map_cons]
  have apart (items : List Value) : unpackItems items = items.map unpackTree := by
    induction items with
    | nil => rfl
    | cons v rest ih => rw [unpackItems, ih, List.map_cons]
  cases unpack with
  | false => exact congrArg Value.sequence (packed items)
  | true =>
    have whole : rejoin true (.sequence items) = .sequence (packItems (unpackItems items)) := rfl
    rw [whole, apart, packed, List.map_map]
    rfl

theorem rejoin_ofEntry (unpack : Bool) {key : String} (notUri : key ≠ uriKey) (v : Value) :
    rejoin unpack (.ofEntry key v) = .ofEntry key (rejoin unpack v) := by
  have noUri (v : Value) : lookup? uriKey [entry key v] = none :=
    lookup?_cons_of_ne (fun same => notUri (Value.string.inj same)) v []
  have packed (v : Value) : packed? [entry key v] = none := by
    simp [packed?, noUri]
  have apart : unpacked? [entry key v] = none := by
    simp [unpacked?, noUri]
  rw [Value.ofEntry, rejoin_mapping]
  cases unpack with
  | false =>
    rw [rejoinEntries, if_neg Bool.false_ne_true, packed]
    rfl
  | true =>
    rw [rejoinEntries, if_pos rfl, apart]
    have whole : unpackEntries none [entry key v] = [entry key (unpackTree v)] := rfl
    rw [whole, packed]
    rfl

/-- All keys are strings. -/
def Named (es : List Entry) : Prop := ∀ e ∈ es, ∃ s, e.1 = .string s

/-- There is a URI, and it is not empty. -/
def Located (es : List Entry) : Prop :=
  (∃ w, (Value.string uriKey, w) ∈ es) ∧
    ∀ w, (Value.string uriKey, w) ∈ es → ∃ s, s ≠ "" ∧ w = .string s

section Entries
variable {es : List Entry} {scheme : String} {added : List Entry} {w : Value}

theorem packEntries_none (es : List Entry) :
    packEntries none es = es.map fun e => (e.1, packTree e.2) := by
  induction es with
  | nil => rfl
  | cons e rest ih => rw [packEntries, ih, List.map_cons]

theorem mem_map_values {f : Value → Value} {k : Value} :
    (k, w) ∈ es.map (fun e => (e.1, f e.2)) ↔ ∃ v, (k, v) ∈ es ∧ w = f v := by
  rw [List.mem_map]
  constructor
  · rintro ⟨⟨j, v⟩, he, same⟩
    obtain ⟨rfl, rfl⟩ := Prod.mk.inj same
    exact ⟨v, he, rfl⟩
  · rintro ⟨v, he, rfl⟩
    exact ⟨_, he, rfl⟩

theorem packEntries_some (text : String) (es : List Entry) :
    packEntries (some text) es = es.filterMap fun e =>
      if e.1.string? = some uriKey then some (e.1, .string text)
      else if e.1.string? = some parametersKey then none
      else some (e.1, packTree e.2) := by
  induction es with
  | nil => rfl
  | cons e rest ih =>
    simp only [packEntries, ih, List.filterMap_cons]
    split
    · rfl
    · split <;> rfl

theorem mem_unpackEntries_some {f : Entry} :
    f ∈ unpackEntries (some (scheme, added)) es ↔
      (∃ e ∈ es, f = (e.1, if e.1.string? = some uriKey then .string scheme
        else unpackTree e.2)) ∨ f ∈ added ∧ ∃ e ∈ es, e.1.string? = some uriKey := by
  induction es generalizing added with
  | nil => simp [unpackEntries]
  | cons e rest ih =>
    simp only [unpackEntries, List.mem_cons, exists_eq_or_imp]
    split
    · rename_i uri
      simp only [List.mem_cons, List.mem_append, ih, List.not_mem_nil, false_and, or_false, uri,
        true_or, and_true, or_assoc]
      exact or_congr_right or_comm
    · rename_i other
      simp only [List.mem_cons, ih, other, false_or, or_assoc]

end Entries

section Named

theorem named_packEntries {joined : Option String} {es : List Entry} (h : Named es) :
    Named (packEntries joined es) := by
  intro f hf
  cases joined with
  | none =>
    rw [packEntries_none] at hf
    obtain ⟨e, he, rfl⟩ := List.mem_map.1 hf
    exact h e he
  | some text =>
    rw [packEntries_some] at hf
    obtain ⟨e, he, same⟩ := List.mem_filterMap.1 hf
    have key : f.1 = e.1 := by
      split at same
      · rw [← Option.some.inj same]
      · split at same
        · contradiction
        · rw [← Option.some.inj same]
    exact key ▸ h e he

theorem named_unpackEntries {es : List Entry} (h : Named es) :
    Named (unpackEntries (unpacked? es) es) := by
  intro f hf
  cases parts : unpacked? es with
  | none =>
    rw [parts, unpackEntries_none] at hf
    obtain ⟨e, he, rfl⟩ := List.mem_map.1 hf
    exact h e he
  | some p =>
    obtain ⟨scheme, added⟩ := p
    obtain ⟨_, _, _, _, _, _, _, rfl⟩ := eq_of_unpacked? parts
    rw [parts] at hf
    rcases mem_unpackEntries_some.1 hf with ⟨e, he, rfl⟩ | ⟨here, _⟩
    · exact h e he
    · rw [List.mem_singleton.1 here]
      exact ⟨_, rfl⟩

theorem named_rejoinEntries {unpack : Bool} {es : List Entry} (h : Named es) :
    Named (rejoinEntries unpack es) := by
  cases unpack with
  | false => exact named_packEntries h
  | true => exact named_packEntries (named_unpackEntries h)

end Named

section Others
variable {es : List Entry} {key : String} {w : Value}

theorem mem_packEntries {joined : Option String} (notUri : key ≠ uriKey)
    (notParameters : key ≠ parametersKey) :
    (Value.string key, w) ∈ packEntries joined es ↔
      ∃ v, (Value.string key, v) ∈ es ∧ w = packTree v := by
  have here : (Value.string key).string? = some key := rfl
  cases joined with
  | none =>
    rw [packEntries_none]
    exact mem_map_values
  | some text =>
    rw [packEntries_some, List.mem_filterMap]
    constructor
    · rintro ⟨⟨k, v⟩, he, same⟩
      split at same
      · rename_i uri
        cases same
        exact absurd (Option.some.inj uri) notUri
      · split at same
        · contradiction
        · cases same
          exact ⟨v, he, rfl⟩
    · rintro ⟨v, he, rfl⟩
      refine ⟨_, he, ?_⟩
      simp only [here, Option.some.injEq, notUri, notParameters, if_false]

theorem mem_unpackEntries (notUri : key ≠ uriKey) (notParameters : key ≠ parametersKey) :
    (Value.string key, w) ∈ unpackEntries (unpacked? es) es ↔
      ∃ v, (Value.string key, v) ∈ es ∧ w = unpackTree v := by
  have here : (Value.string key).string? = some key := rfl
  cases parts : unpacked? es with
  | none =>
    rw [unpackEntries_none]
    exact mem_map_values
  | some p =>
    obtain ⟨scheme, added⟩ := p
    obtain ⟨_, _, _, _, _, _, _, rfl⟩ := eq_of_unpacked? parts
    rw [mem_unpackEntries_some]
    constructor
    · rintro (⟨⟨k, v⟩, he, same⟩ | ⟨added, _⟩)
      · obtain ⟨rfl, rfl⟩ := Prod.mk.inj same
        simp only [here, Option.some.injEq, notUri, if_false]
        exact ⟨v, he, rfl⟩
      · exact absurd (Value.string.inj (Prod.mk.inj (List.mem_singleton.1 added)).1) notParameters
    · rintro ⟨v, he, rfl⟩
      refine .inl ⟨_, he, ?_⟩
      simp only [here, Option.some.injEq, notUri, if_false]

/-- Entries under other keys than those of endpoints stay. -/
theorem mem_rejoinEntries {unpack : Bool} (notUri : key ≠ uriKey)
    (notParameters : key ≠ parametersKey) :
    (Value.string key, w) ∈ rejoinEntries unpack es ↔
      ∃ v, (Value.string key, v) ∈ es ∧ w = rejoin unpack v := by
  cases unpack with
  | false => exact mem_packEntries notUri notParameters
  | true =>
    refine (mem_packEntries notUri notParameters).trans ?_
    simp only [if_true, mem_unpackEntries notUri notParameters]
    constructor
    · rintro ⟨_, ⟨v, he, rfl⟩, rfl⟩
      exact ⟨v, he, rfl⟩
    · rintro ⟨v, he, rfl⟩
      exact ⟨_, ⟨v, he, rfl⟩, rfl⟩

end Others

section Uris
variable {es : List Entry}

theorem ne_empty_of_isScheme {s : String} (h : isScheme s) : s ≠ "" := by
  rintro rfl
  cases h

theorem ne_empty_addParameter (uri : String) (p : String × String) : addParameter uri p ≠ "" := by
  intro empty
  have length := congrArg String.length empty
  simp [addParameter, toString] at length

/-- A URI with its parameters is empty only if it is empty without. -/
theorem ne_empty_pack {uri : String} (h : uri ≠ "") (parameters : Attributes) :
    pack uri parameters ≠ "" := by
  have all (es : List (String × String)) {s : String} (h : s ≠ "") :
      es.foldl addParameter s ≠ "" := by
    induction es generalizing s with
    | nil => exact h
    | cons e es ih => exact ih (ne_empty_addParameter s e)
  have primary : (takePrimary uri parameters).1 ≠ "" := by
    unfold takePrimary
    split
    · exact h
    · dsimp only
      split
      · unfold addPrimary
        split
        · intro empty
          simpa [toString] using congrArg String.length empty
        · intro empty
          simpa [toString] using congrArg String.length empty
      · exact h
  exact all _ primary

theorem lookup?_of_located (h : Located es) :
    ∃ s, s ≠ "" ∧ lookup? uriKey es = some (.string s) := by
  obtain ⟨⟨v, there⟩, all⟩ := h
  obtain ⟨w, found⟩ := exists_lookup?_of_mem there
  obtain ⟨s, some, rfl⟩ := all w (mem_of_lookup? found)
  exact ⟨s, some, found⟩

theorem located_packEntries (h : Located es) : Located (packEntries (packed? es) es) := by
  obtain ⟨s, nonempty, found⟩ := lookup?_of_located h
  obtain ⟨⟨v, there⟩, all⟩ := h
  have here : (Value.string uriKey).string? = some uriKey := rfl
  cases packed : packed? es with
  | none =>
    rw [packEntries_none]
    refine ⟨⟨_, mem_map_values.2 ⟨v, there, rfl⟩⟩, fun w hw => ?_⟩
    obtain ⟨u, he, rfl⟩ := mem_map_values.1 hw
    obtain ⟨t, some, rfl⟩ := all u he
    exact ⟨t, some, rfl⟩
  | some text =>
    have joined : text ≠ "" := by
      simp only [packed?, Option.bind_eq_bind, Option.bind_eq_some_iff, found] at packed
      obtain ⟨_, ⟨⟩, _, ⟨⟩, _, _, parameters, _, same⟩ := packed
      rw [← Option.some.inj same]
      exact ne_empty_pack nonempty parameters
    rw [packEntries_some]
    refine ⟨⟨.string text, List.mem_filterMap.2 ⟨_, there, ?_⟩⟩, fun w hw => ⟨text, joined, ?_⟩⟩
    · simp only [here, if_true]
    · obtain ⟨⟨k, u⟩, he, same⟩ := List.mem_filterMap.1 hw
      split at same
      · cases same
        rfl
      · rename_i other
        split at same
        · contradiction
        · cases same
          exact absurd here other

theorem located_unpackEntries (h : Located es) : Located (unpackEntries (unpacked? es) es) := by
  obtain ⟨⟨v, there⟩, all⟩ := h
  have here : (Value.string uriKey).string? = some uriKey := rfl
  cases parts : unpacked? es with
  | none =>
    rw [unpackEntries_none]
    refine ⟨⟨_, mem_map_values.2 ⟨v, there, rfl⟩⟩, fun w hw => ?_⟩
    obtain ⟨u, he, rfl⟩ := mem_map_values.1 hw
    obtain ⟨t, some, rfl⟩ := all u he
    exact ⟨t, some, rfl⟩
  | some p =>
    obtain ⟨scheme, added⟩ := p
    obtain ⟨_, _, uri, parameters, _, _, apart, rfl⟩ := eq_of_unpacked? parts
    have named : scheme ≠ "" := by
      obtain ⟨_, _, _, _, _, valid, _⟩ := parts_of_unpack? apart
      exact ne_empty_of_isScheme valid
    refine ⟨⟨.string scheme, mem_unpackEntries_some.2 (.inl ⟨_, there, ?_⟩)⟩,
      fun w hw => ⟨scheme, named, ?_⟩⟩
    · simp only [here, if_true]
    · rcases mem_unpackEntries_some.1 hw with ⟨⟨k, u⟩, _, same⟩ | ⟨added, _⟩
      · obtain ⟨rfl, rfl⟩ := Prod.mk.inj same
        simp only [here, if_true]
      · exact absurd (Value.string.inj (Prod.mk.inj (List.mem_singleton.1 added)).1) (by decide)

theorem located_rejoinEntries {unpack : Bool} (h : Located es) :
    Located (rejoinEntries unpack es) := by
  cases unpack with
  | false => exact located_packEntries h
  | true => exact located_packEntries (located_unpackEntries h)

end Uris

end RouteNotation.Uri
