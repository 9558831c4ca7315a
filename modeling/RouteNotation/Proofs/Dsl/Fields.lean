import RouteNotation.Dsl.Printer
import RouteNotation.Dsl.Reader
import RouteNotation.Proofs.Noted
import RouteNotation.Proofs.OrderedMap
import RouteNotation.Proofs.Route.UriTrees

/-!
Mappings written field by field and read field by field. Each way to write a field has a lemma on
the keys, and one that says how far reading gets.
-/

namespace RouteNotation.Dsl

open Yaml OrderedMap

namespace Fields
variable {fields : Fields} {key k : String}

def toEntries (fields : Fields) : List Entry := fields.entries.map fun f => entry f.1 f.2

theorem toValue_eq (fields : Fields) : fields.toValue = .mapping fields.toEntries := rfl

theorem mem_keys_put {v : Value} : k ∈ (fields.put key v).keys ↔ k ∈ fields.keys ∨ k = key :=
  mem_keys_insert

theorem mem_keys_putText? {text : Option String} :
    k ∈ (fields.putText? key text).keys ↔ k ∈ fields.keys ∨ (text.isSome ∧ k = key) := by
  cases text with
  | none => simp [putText?]
  | some text => simp [putText?, mem_keys_put]

theorem mem_keys_putEach {α : Type} {name : α → String} {value : α → Value} {as : List α} :
    k ∈ (as.foldl (fun (m : Fields) a => m.put (name a) (value a)) fields).keys ↔
      k ∈ fields.keys ∨ k ∈ as.map name := by
  induction as generalizing fields with
  | nil => simp
  | cons a as ih => rw [List.foldl_cons, ih, mem_keys_put, List.map_cons, List.mem_cons, or_assoc]

theorem mem_keys_putAttributes {attributes : Attributes} :
    k ∈ (fields.putAttributes attributes).keys ↔ k ∈ fields.keys ∨ k ∈ attributes.keys :=
  mem_keys_putEach

theorem mem_keys_putUnless {empty : Bool} {v : Value} :
    k ∈ (putUnless empty fields key v).keys ↔ k ∈ fields.keys ∨ (empty = false ∧ k = key) := by
  cases empty <;> simp [putUnless, mem_keys_put]

theorem lookup?_toEntries : lookup? key fields.toEntries = fields.get? key := by
  rw [toEntries, get?]
  induction fields.entries with
  | nil => rfl
  | cons f fs ih =>
    obtain ⟨k, v⟩ := f
    rw [List.map_cons, lookup]
    change (if k = key then some v else _) = _
    rw [ih]

end Fields

theorem not_mem_keys_noFields {k : String} : k ∉ noFields.keys := not_mem_keys_empty

theorem Fields.key_of_putTwo {key other k : String} {a b : Option String}
    (h : k ∈ ((noFields.putText? key a).putText? other b).keys) : k = key ∨ k = other := by
  simp only [Fields.mem_keys_putText?, not_mem_keys_noFields, false_or] at h
  exact h.imp And.right And.right

theorem mem_toEntries {fields : Fields} {key : String} {v : Value} :
    (Value.string key, v) ∈ fields.toEntries ↔ fields.get? key = some v := by
  constructor
  · intro h
    obtain ⟨f, hf, same⟩ := List.mem_map.1 h
    cases same
    exact get?_of_mem hf
  · intro h
    exact List.mem_map.2 ⟨_, mem_entries_of_get? h, rfl⟩

theorem get?_put (fields : Fields) (key k : String) (v : Value) :
    (fields.put key v).get? k = if k = key then some v else fields.get? k :=
  get?_update fields key k _

section Reads
variable {σ : Type} {read : σ → String → Value → Noted σ} {fields : Fields} {s t u : σ}

/-- Reading the fields from `s` on gives `t`, with nothing noted. -/
def Reads (read : σ → String → Value → Noted σ) (s : σ) (fields : Fields) (t : σ) : Prop :=
  fields.entries.foldlM (fun s f => read s f.1 f.2) s = pure t

theorem reads_noFields : Reads read s noFields s := rfl

theorem Reads.put (h : Reads read s fields t) (key : String) (new : key ∉ fields.keys) {v : Value}
    (here : read t key v = pure u) : Reads read s (fields.put key v) u := by
  rw [Reads, Fields.put, entries_insert_of_not_mem new, List.foldlM_append, h, pure_bind]
  simp only [List.foldlM_cons, List.foldlM_nil, here, pure_bind]

theorem Reads.putText? (result : Option String → σ) (h : Reads read s fields (result none))
    (key : String) (new : key ∉ fields.keys)
    (here : ∀ text, read (result none) key (.string text) = pure (result (some text)))
    (text : Option String) : Reads read s (fields.putText? key text) (result text) := by
  cases text with
  | none => exact h
  | some text => exact h.put key new (here text)

theorem Reads.putUnless (h : Reads read s fields t) (empty : Bool) (key : String)
    (new : key ∉ fields.keys) {v : Value} (nothing : empty = true → t = u)
    (here : empty = false → read t key v = pure u) :
    Reads read s (putUnless empty fields key v) u := by
  cases empty with
  | true => exact nothing rfl ▸ h
  | false => exact h.put key new (here rfl)

/-- Fields that are written in a row, where `result` is what has been read after some of them. -/
theorem Reads.putMore {α : Type} {name : α → String} {value : α → Value} (result : List α → σ)
    (before : List α) {as : List α} (h : Reads read s fields (result before))
    (new : ∀ a ∈ as, name a ∉ fields.keys) (nodup : (as.map name).Nodup)
    (here : ∀ as' a, a ∈ as → read (result as') (name a) (value a) = pure (result (as' ++ [a]))) :
    Reads read s (as.foldl (fun (m : Fields) a => m.put (name a) (value a)) fields)
      (result (before ++ as)) := by
  induction as generalizing fields before with
  | nil => simpa using h
  | cons a as ih =>
    rw [List.map_cons, List.nodup_cons] at nodup
    have first := h.put (name a) (new a List.mem_cons_self) (here before a List.mem_cons_self)
    have later : ∀ b ∈ as, name b ∉ (fields.put (name a) (value a)).keys := by
      intro b hb
      rw [Fields.mem_keys_put, not_or]
      exact ⟨new b (List.mem_cons_of_mem a hb),
        fun same => nodup.1 (same ▸ List.mem_map_of_mem hb)⟩
    rw [List.foldl_cons, ← List.singleton_append, ← List.append_assoc]
    exact ih _ first later nodup.2 fun as' b hb => here as' b (List.mem_cons_of_mem a hb)

theorem Reads.putEach {α : Type} {name : α → String} {value : α → Value} (result : List α → σ)
    {as : List α} (h : Reads read s fields (result [])) (new : ∀ a ∈ as, name a ∉ fields.keys)
    (nodup : (as.map name).Nodup)
    (here : ∀ as' a, a ∈ as → read (result as') (name a) (value a) = pure (result (as' ++ [a]))) :
    Reads read s (as.foldl (fun (m : Fields) a => m.put (name a) (value a)) fields) (result as) :=
  h.putMore result [] new nodup here

theorem Reads.putAttributes (result : Attributes → σ) {attributes : Attributes}
    (h : Reads read s fields (result .empty)) (new : ∀ k ∈ attributes.keys, k ∉ fields.keys)
    (here : ∀ m, ∀ k ∈ attributes.keys, ∀ text,
      read (result m) k (.string text) = pure (result (m.insert k text))) :
    Reads read s (fields.putAttributes attributes) (result attributes) := by
  have all : Reads read s (fields.putAttributes attributes)
      (result (.ofList attributes.entries)) := by
    refine Reads.putEach (fun as => result (.ofList as)) h
      (fun a ha => new a.1 (List.mem_map_of_mem ha)) attributes.nodup fun as' a ha => ?_
    rw [here _ a.1 (List.mem_map_of_mem ha), OrderedMap.ofList, OrderedMap.ofList,
      List.foldl_append]
    rfl
  rwa [ofList_entries] at all

theorem readAttribute_text {path key : String} {attributes : Attributes}
    (valid : Xml.isValidName key) (text : String) :
    readAttribute path attributes key (.string text) = pure (attributes.insert key text) := by
  rw [readAttribute, valid]
  rfl

theorem Reads.readFields (h : Reads read s fields t) :
    readFields read s fields.toEntries = pure t := by
  rw [Dsl.readFields, Fields.toEntries, List.foldlM_map]
  exact h

end Reads

section All
variable {P : String → Value → Prop} {fields : Fields} {key : String}

/-- Every field passes. -/
def Fields.All (P : String → Value → Prop) (fields : Fields) : Prop :=
  ∀ f ∈ fields.entries, P f.1 f.2

namespace Fields.All

theorem noFields : All P noFields := nofun

theorem put (h : All P fields) {v : Value} (here : P key v) : All P (fields.put key v) := by
  intro f hf
  rcases mem_entries_insert hf with old | rfl
  · exact h f old
  · exact here

theorem putText? (h : All P fields) (here : ∀ text, P key (.string text)) (text : Option String) :
    All P (fields.putText? key text) := by
  cases text with
  | none => exact h
  | some text => exact h.put (here text)

theorem putUnless (h : All P fields) {empty : Bool} {v : Value} (here : empty = false → P key v) :
    All P (putUnless empty fields key v) := by
  cases empty with
  | true => exact h
  | false => exact h.put (here rfl)

theorem putEach {α : Type} {name : α → String} {value : α → Value} {as : List α}
    (h : All P fields) (here : ∀ a ∈ as, P (name a) (value a)) :
    All P (as.foldl (fun (m : Fields) a => m.put (name a) (value a)) fields) := by
  induction as generalizing fields with
  | nil => exact h
  | cons a as ih =>
    rw [List.forall_mem_cons] at here
    exact ih (h.put here.1) here.2

theorem putAttributes (h : All P fields) {attributes : Attributes}
    (here : ∀ a ∈ attributes.entries, P a.1 (.string a.2)) :
    All P (fields.putAttributes attributes) :=
  h.putEach here

end Fields.All

open Uri

theorem distinctKeys_toEntries (fields : Fields) : DistinctKeys fields.toEntries := by
  constructor
  · intro e he s same
    obtain ⟨f, _, rfl⟩ := List.mem_map.1 he
    exact congrArg Value.string (Option.some.inj same)
  · have keys : fields.toEntries.filterMap (fun e => e.1.string?) = fields.keys := by
      rw [Fields.toEntries, List.filterMap_map, OrderedMap.keys, ← List.filterMap_eq_map]
      rfl
    rw [keys]
    exact fields.nodup

theorem Fields.All.of_lookup? {Q : Value → Prop} (h : fields.All fun k v => k = key → Q v)
    {v : Value} (found : lookup? key fields.toEntries = some v) : Q v := by
  rw [Fields.lookup?_toEntries] at found
  exact h _ (mem_entries_of_get? found) rfl

/-- Nothing under the key of parameters could be joined with a URI. -/
theorem packed?_of_parameters
    (h : fields.All fun k v => k = parametersKey → parameters? v = none) :
    packed? fields.toEntries = none := by
  cases found : lookup? parametersKey fields.toEntries with
  | none => simp [packed?, found]
  | some v => simp [packed?, found, h.of_lookup? found]

theorem packed?_of_uri (h : fields.All fun k v => k = uriKey → v.string? = none) :
    packed? fields.toEntries = none := by
  cases found : lookup? uriKey fields.toEntries with
  | none => simp [packed?, found]
  | some v => simp [packed?, found, h.of_lookup? found]

theorem settled_toValue (settled : fields.All fun _ v => Settled v)
    (unpaired : packed? fields.toEntries = none) : Settled fields.toValue := by
  rw [Fields.toValue_eq, Settled]
  refine ⟨distinctKeys_toEntries fields, unpaired, settledEntries_iff.2 fun e he => ?_⟩
  obtain ⟨f, hf, rfl⟩ := List.mem_map.1 he
  exact settled f hf

/-- A value that no URI beside it could be joined with, under this key. -/
def Quiet (key : String) (v : Value) : Prop :=
  Settled v ∧ (key = parametersKey → parameters? v = none)

theorem settled_string (s : String) : Settled (.string s) := by
  rw [Settled]
  trivial

theorem settled_sequence {items : List Value} (h : ∀ v ∈ items, Settled v) :
    Settled (.sequence items) := by
  rw [Settled]
  exact settledItems_iff.2 h

theorem quiet_string (key s : String) : Quiet key (.string s) := ⟨settled_string s, fun _ => rfl⟩

theorem quiet_sequence {items : List Value} (h : ∀ v ∈ items, Settled v) :
    Quiet key (.sequence items) :=
  ⟨settled_sequence h, fun _ => rfl⟩

theorem settled_of_quiet (h : fields.All Quiet) : Settled fields.toValue :=
  settled_toValue (fun f hf => (h f hf).1) (packed?_of_parameters fun f hf => (h f hf).2)

theorem settled_attributesValue (attributes : Attributes) : Settled (attributesValue attributes) :=
  settled_of_quiet (.putAttributes .noFields fun a _ => quiet_string a.1 a.2)

/-- A mapping with one entry has nothing to join. -/
theorem settled_ofEntry {v : Value} (h : Settled v) : Settled (.ofEntry key v) := by
  have one : Fields.All (fun k w => k = key ∧ w = v) (noFields.put key v) :=
    Fields.All.put .noFields ⟨rfl, rfl⟩
  have unpaired : packed? (noFields.put key v).toEntries = none := by
    by_cases parameters : key = parametersKey
    · apply packed?_of_uri
      rintro f hf same
      rw [(one f hf).1, parameters] at same
      exact absurd same (by decide)
    · apply packed?_of_parameters
      rintro f hf same
      rw [(one f hf).1] at same
      exact absurd same parameters
  exact settled_toValue (fun f hf => (one f hf).2.symm ▸ h) unpaired

/-- What must stand under a key stands there. -/
theorem get?_of_all {v : Value} (h : fields.All fun k w => k = key → w = v)
    (known : key ∈ fields.keys) : fields.get? key = some v := by
  obtain ⟨w, found⟩ := Option.isSome_iff_exists.1 (get?_isSome known)
  exact found.trans (congrArg some (h _ (mem_entries_of_get? found) rfl))

end All

end RouteNotation.Dsl
