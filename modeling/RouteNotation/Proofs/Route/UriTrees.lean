import RouteNotation.Proofs.Route.Uri

/-!
Trees in which URIs are taken apart and joined again. Joining changes nothing in a settled tree, and
it undoes taking apart.
-/

namespace RouteNotation.Uri

open Yaml OrderedMap

/-- Keys that are strings are bare strings, each of which stands once. -/
def DistinctKeys (es : List Entry) : Prop :=
  (∀ e ∈ es, ∀ s, e.1.string? = some s → e.1 = .string s) ∧
    (es.filterMap fun e => e.1.string?).Nodup

mutual

/-- A tree without tags in which no URI stands beside parameters that it can be joined with. -/
def Settled : Value → Prop
  | .sequence items => SettledItems items
  | .mapping es => DistinctKeys es ∧ packed? es = none ∧ SettledEntries es
  | .tagged _ _ => False
  | .null | .bool _ | .int _ | .float _ | .string _ => True

def SettledItems : List Value → Prop
  | [] => True
  | v :: rest => Settled v ∧ SettledItems rest

def SettledEntries : List (Value × Value) → Prop
  | [] => True
  | (_, v) :: rest => Settled v ∧ SettledEntries rest

end

theorem settledItems_iff {items : List Value} : SettledItems items ↔ ∀ v ∈ items, Settled v := by
  induction items with
  | nil => simp [SettledItems]
  | cons v rest ih => simp [SettledItems, ih]

theorem settledEntries_iff {es : List Entry} : SettledEntries es ↔ ∀ e ∈ es, Settled e.2 := by
  induction es with
  | nil => simp [SettledEntries]
  | cons e rest ih => simp [SettledEntries, ih]

mutual

theorem packTree_of_settled : {v : Value} → Settled v → packTree v = v
  | .sequence items, h => by
    rw [Settled] at h
    rw [packTree, packItems_of_settled h]
  | .mapping es, h => by
    rw [Settled] at h
    rw [packTree, h.2.1, packEntries_of_settled h.2.2]
  | .null, _ | .bool _, _ | .int _, _ | .float _, _ | .string _, _ => rfl

theorem packItems_of_settled : {items : List Value} → SettledItems items → packItems items = items
  | [], _ => rfl
  | _ :: _, h => by
    rw [SettledItems] at h
    rw [packItems, packTree_of_settled h.1, packItems_of_settled h.2]

theorem packEntries_of_settled : {es : List (Value × Value)} → SettledEntries es →
    packEntries none es = es
  | [], _ => rfl
  | (_, _) :: _, h => by
    rw [SettledEntries] at h
    rw [packEntries, packTree_of_settled h.1, packEntries_of_settled h.2]

end

section Entries
variable {es : List Entry} {key : String}

theorem lookup?_cons_self (v : Value) (rest : List Entry) :
    lookup? key ((.string key, v) :: rest) = some v := by
  rw [lookup?, if_pos rfl]

theorem lookup?_cons_of_ne {k : Value} (other : k ≠ .string key) (v : Value) (rest : List Entry) :
    lookup? key ((k, v) :: rest) = lookup? key rest := by
  cases k with
  | string s => exact if_neg fun same => other (congrArg _ same)
  | _ => rfl

theorem lookup?_of_mem (distinct : DistinctKeys es) {k v : Value} (h : (k, v) ∈ es)
    (same : k.string? = some key) : lookup? key es = some v := by
  obtain ⟨bare, nodup⟩ := distinct
  have here : k = .string key := bare (k, v) h key same
  induction es with
  | nil => cases h
  | cons e rest ih =>
    rcases List.mem_cons.1 h with rfl | later
    · rw [here, lookup?_cons_self]
    · have other : e.1 ≠ .string key := by
        intro first
        rw [List.filterMap_cons_some (by rw [first]; rfl), List.nodup_cons] at nodup
        exact nodup.1 (List.mem_filterMap.2 ⟨(k, v), later, same⟩)
      rw [lookup?_cons_of_ne other, ih later (fun e he => bare e (List.mem_cons_of_mem _ he))
        (nodup.sublist (List.Sublist.filterMap _ (List.sublist_cons_self _ _)))]

theorem mem_of_lookup? {v : Value} (h : lookup? key es = some v) : (.string key, v) ∈ es := by
  induction es with
  | nil => cases h
  | cons e rest ih =>
    obtain ⟨k, w⟩ := e
    by_cases here : k = .string key
    · rw [here, lookup?_cons_self] at h
      cases Option.some.inj h
      rw [here]
      exact List.mem_cons_self
    · rw [lookup?_cons_of_ne here] at h
      exact List.mem_cons_of_mem _ (ih h)

theorem exists_lookup?_of_mem {v : Value} (h : (Value.string key, v) ∈ es) :
    ∃ w, lookup? key es = some w := by
  induction es with
  | nil => cases h
  | cons e rest ih =>
    obtain ⟨k, w⟩ := e
    by_cases here : k = .string key
    · rw [here, lookup?_cons_self]
      exact ⟨w, rfl⟩
    · rw [lookup?_cons_of_ne here]
      rcases List.mem_cons.1 h with first | later
      · exact absurd (Prod.mk.inj first).1.symm here
      · exact ih later

theorem isSome_scalarEntries? :
    (scalarEntries? es).isSome ↔ ∀ e ∈ es, e.1.isScalar ∧ e.2.isScalar := by
  induction es with
  | nil => simp [scalarEntries?]
  | cons e rest ih =>
    obtain ⟨k, v⟩ := e
    rw [List.forall_mem_cons, ← ih]
    cases hk : k.scalarText? <;> cases hv : v.scalarText? <;> cases hr : scalarEntries? rest <;>
      simp [scalarEntries?, Value.isScalar, hk, hv, hr]

theorem scalarText?_unpackTree (v : Value) : (unpackTree v).scalarText? = v.scalarText? := by
  cases v <;> rfl

theorem string?_unpackTree (v : Value) : (unpackTree v).string? = v.string? := by
  cases v <;> rfl

theorem unpackEntries_none (es : List Entry) :
    unpackEntries none es = es.map fun e => (e.1, unpackTree e.2) := by
  induction es with
  | nil => rfl
  | cons e rest ih => rw [unpackEntries, ih, List.map_cons]

theorem lookup?_unpackEntries_none :
    lookup? key (unpackEntries none es) = (lookup? key es).map unpackTree := by
  induction es with
  | nil => rfl
  | cons e rest ih =>
    obtain ⟨k, v⟩ := e
    rw [unpackEntries]
    by_cases here : k = .string key
    · rw [here, lookup?_cons_self, lookup?_cons_self]
      rfl
    · rw [lookup?_cons_of_ne here, lookup?_cons_of_ne here, ih]

/-- The scheme stands in place of the first URI. -/
theorem lookup?_uri_unpackEntries {scheme : String} {added : List Entry} {v : Value}
    (bare : ∀ e ∈ es, ∀ s, e.1.string? = some s → e.1 = .string s)
    (uri : lookup? uriKey es = some v) :
    lookup? uriKey (unpackEntries (some (scheme, added)) es) = some (.string scheme) := by
  induction es with
  | nil => cases uri
  | cons e rest ih =>
    obtain ⟨k, w⟩ := e
    rw [unpackEntries]
    split
    · rename_i same
      have here : k = .string uriKey := bare (k, w) List.mem_cons_self _ same
      rw [here, lookup?_cons_self]
    · rename_i different
      have other : k ≠ .string uriKey := fun same => different (congrArg Value.string? same)
      rw [lookup?_cons_of_ne other] at uri ⊢
      exact ih (fun e he => bare e (List.mem_cons_of_mem _ he)) uri

/-- The parameters stand in the entries, behind the first URI. -/
theorem lookup?_parameters_unpackEntries {scheme : String} {parameters : Attributes} {v : Value}
    (uri : lookup? uriKey es = some v) (free : lookup? parametersKey es = none) :
    lookup? parametersKey (unpackEntries (some (scheme, [parametersEntry parameters])) es) =
      some (parametersEntry parameters).2 := by
  induction es with
  | nil => cases uri
  | cons e rest ih =>
    obtain ⟨k, w⟩ := e
    rw [unpackEntries]
    have unlike : k ≠ .string parametersKey := by
      rintro rfl
      rw [lookup?_cons_self] at free
      cases free
    rw [lookup?_cons_of_ne unlike] at free
    split
    · rw [lookup?_cons_of_ne unlike]
      exact lookup?_cons_self _ _
    · rename_i different
      have other : k ≠ .string uriKey := fun same => different (congrArg Value.string? same)
      rw [lookup?_cons_of_ne other] at uri
      rw [lookup?_cons_of_ne unlike]
      exact ih uri free

end Entries

section Parameters
variable {es : List Entry}

theorem parameters?_parametersEntry (parameters : Attributes) :
    parameters? (parametersEntry parameters).2 = some parameters := by
  have all : scalarEntries? (parameters.entries.map fun p => textEntry p.1 p.2) =
      some parameters.entries := by
    induction parameters.entries with
    | nil => rfl
    | cons p ps ih => rw [List.map_cons, scalarEntries?, ih]; rfl
  have whole : parameters? (parametersEntry parameters).2 =
      (scalarEntries? (parameters.entries.map fun p => textEntry p.1 p.2)).map .ofList := rfl
  rw [whole, all]
  exact congrArg some (ofList_entries parameters)

theorem eq_of_unpacked? {scheme : String} {added : List Entry}
    (h : unpacked? es = some (scheme, added)) :
    lookup? parametersKey es = none ∧ ∃ v uri parameters, lookup? uriKey es = some v ∧
      v.string? = some uri ∧ unpack? uri = some (scheme, parameters) ∧
      added = [parametersEntry parameters] := by
  unfold unpacked? at h
  split at h
  · contradiction
  · rename_i free
    obtain ⟨⟨name, parameters⟩, found, same⟩ := Option.map_eq_some_iff.1 h
    cases same
    obtain ⟨v, uri, found⟩ := Option.bind_eq_some_iff.1 found
    obtain ⟨text, string, parts⟩ := Option.bind_eq_some_iff.1 found
    exact ⟨by simpa [hasKey] using free, v, text, parameters, uri, string, parts, rfl⟩

/-- Taking apart makes no map of parameters out of anything else. -/
theorem isSome_parameters?_unpackTree {v : Value} (h : (parameters? (unpackTree v)).isSome) :
    (parameters? v).isSome := by
  cases v with
  | mapping es =>
    have all : ∀ e ∈ unpackEntries (unpacked? es) es, e.1.isScalar ∧ e.2.isScalar := by
      rw [← isSome_scalarEntries?]
      simpa [parameters?, unpackTree, Value.mapping?, Value.untagged] using h
    have back : ∀ e ∈ es, e.1.isScalar ∧ e.2.isScalar := by
      cases parts : unpacked? es with
      | none =>
        rw [parts, unpackEntries_none, List.forall_mem_map] at all
        intro e he
        rw [Value.isScalar, Value.isScalar, ← scalarText?_unpackTree e.2]
        exact all e he
      | some p =>
        -- The map of parameters that was added is no scalar.
        obtain ⟨scheme, added⟩ := p
        obtain ⟨free, w, uri, parameters, found, _, _, rfl⟩ := eq_of_unpacked? parts
        rw [parts] at all
        have added : lookup? parametersKey
              (unpackEntries (some (scheme, [parametersEntry parameters])) es) =
            some (parametersEntry parameters).2 :=
          lookup?_parameters_unpackEntries found free
        cases (all _ (mem_of_lookup? added)).2
    rw [← isSome_scalarEntries?] at back
    simpa [parameters?, Value.mapping?, Value.untagged] using back
  | _ => exact h

/-- Where no URI can be joined, none can when everything below has been taken apart. -/
theorem packed?_unpackEntries_none (h : packed? es = none) :
    packed? (unpackEntries none es) = none := by
  cases found : packed? (unpackEntries none es) with
  | none => rfl
  | some text =>
    simp only [packed?, lookup?_unpackEntries_none, Option.bind_eq_bind, Option.bind_eq_some_iff,
      Option.map_eq_some_iff] at found
    obtain ⟨_, ⟨u, uri, rfl⟩, s, string, _, ⟨p, below, rfl⟩, ps, scalars, _⟩ := found
    rw [string?_unpackTree] at string
    have again := isSome_parameters?_unpackTree (Option.isSome_of_eq_some scalars)
    obtain ⟨qs, known⟩ := Option.isSome_iff_exists.1 again
    simp [packed?, uri, string, below, known] at h

theorem packEntries_unpackEntries_none (below : ∀ e ∈ es, packTree (unpackTree e.2) = e.2) :
    packEntries none (unpackEntries none es) = es := by
  induction es with
  | nil => rfl
  | cons e rest ih =>
    obtain ⟨k, v⟩ := e
    rw [List.forall_mem_cons] at below
    rw [unpackEntries, packEntries, below.1, ih below.2]

theorem packEntries_parameters {uri : String} {added : List Entry}
    (h : ∀ e ∈ added, e.1 = .string parametersKey) (rest : List Entry) :
    packEntries (some uri) (added ++ rest) = packEntries (some uri) rest := by
  induction added with
  | nil => rfl
  | cons e added ih =>
    obtain ⟨k, v⟩ := e
    obtain ⟨rfl, others⟩ := List.forall_mem_cons.1 h
    have notUri : (Value.string parametersKey).string? ≠ some uriKey := by decide
    have here : (Value.string parametersKey).string? = some parametersKey := rfl
    simp only [List.cons_append, packEntries, if_neg notUri, if_pos here, ih others]

/-- Joining where one URI has been taken apart writes it back and takes the parameters out. -/
theorem packEntries_unpackEntries_some {scheme uri : String} {added : List Entry}
    (uris : ∀ e ∈ es, e.1.string? = some uriKey → e.2 = .string uri)
    (free : ∀ e ∈ es, e.1.string? ≠ some parametersKey)
    (parts : ∀ e ∈ added, e.1 = .string parametersKey)
    (below : ∀ e ∈ es, packTree (unpackTree e.2) = e.2) :
    packEntries (some uri) (unpackEntries (some (scheme, added)) es) = es := by
  induction es generalizing added with
  | nil => rfl
  | cons e rest ih =>
    obtain ⟨k, v⟩ := e
    rw [List.forall_mem_cons] at uris free below
    rw [unpackEntries]
    split
    · rename_i same
      have value : v = .string uri := uris.1 same
      rw [packEntries]
      simp only [if_pos same]
      rw [packEntries_parameters parts,
        ih uris.2 free.2 (fun _ he => absurd he List.not_mem_nil) below.2, value]
    · rename_i other
      rw [packEntries]
      simp only [if_neg other, if_neg free.1, below.1]
      rw [ih uris.2 free.2 parts below.2]

/-- What a URI in settled entries is taken apart into is joined to the same URI. -/
theorem packed?_unpackEntries_some {scheme : String} {added : List Entry}
    (distinct : DistinctKeys es) (below : SettledEntries es)
    (parts : unpacked? es = some (scheme, added)) :
    ∃ uri, packed? (unpackEntries (some (scheme, added)) es) = some uri ∧
      lookup? uriKey es = some (.string uri) ∧ lookup? parametersKey es = none ∧
      ∀ e ∈ added, e.1 = .string parametersKey := by
  obtain ⟨free, v, uri, parameters, found, string, apart, rfl⟩ := eq_of_unpacked? parts
  have value : v = .string uri := by
    have settled := settledEntries_iff.1 below _ (mem_of_lookup? found)
    cases v with
    | string s => exact congrArg _ (Option.some.inj string)
    | tagged t w => rw [Settled] at settled; cases settled
    | _ => cases string
  refine ⟨uri, ?_, found.trans (congrArg some value), free, List.forall_mem_singleton.2 rfl⟩
  simp only [packed?, lookup?_uri_unpackEntries distinct.1 found, Option.bind_eq_bind,
    Option.bind_some, lookup?_parameters_unpackEntries found free, Value.string?,
    Value.untagged, parameters?_parametersEntry, pack_of_unpack? apart]
  rfl

end Parameters

mutual

/-- Taking URIs apart and joining them again leaves a settled tree as it was. -/
theorem packTree_unpackTree : {v : Value} → Settled v → packTree (unpackTree v) = v
  | .sequence items, h => by
    rw [Settled] at h
    rw [unpackTree, packTree, packItems_unpackItems h]
  | .mapping es, h => by
    rw [Settled] at h
    obtain ⟨distinct, settled, below⟩ := h
    have values := packTree_unpackTree_entries below
    rw [unpackTree, packTree]
    cases parts : unpacked? es with
    | none => rw [packed?_unpackEntries_none settled, packEntries_unpackEntries_none values]
    | some p =>
      obtain ⟨scheme, added⟩ := p
      obtain ⟨uri, packed, found, free, keys⟩ := packed?_unpackEntries_some distinct below parts
      rw [packed, packEntries_unpackEntries_some _ _ keys values]
      · intro e he same
        have again := lookup?_of_mem distinct he same
        rw [found] at again
        exact (Option.some.inj again).symm
      · intro e he same
        rw [lookup?_of_mem distinct he same] at free
        cases free
  | .null, _ | .bool _, _ | .int _, _ | .float _, _ | .string _, _ => rfl

theorem packItems_unpackItems : {items : List Value} → SettledItems items →
    packItems (unpackItems items) = items
  | [], _ => rfl
  | _ :: _, h => by
    rw [SettledItems] at h
    rw [unpackItems, packItems, packTree_unpackTree h.1, packItems_unpackItems h.2]

theorem packTree_unpackTree_entries : {es : List (Value × Value)} → SettledEntries es →
    ∀ e ∈ es, packTree (unpackTree e.2) = e.2
  | [], _ => nofun
  | (_, _) :: _, h => by
    rw [SettledEntries] at h
    exact List.forall_mem_cons.2 ⟨packTree_unpackTree h.1, packTree_unpackTree_entries h.2⟩

end
end RouteNotation.Uri
