import RouteNotation.Yaml.Value

/-!
Conditions on all mappings of a value tree, and trees without tags.
-/

namespace RouteNotation.Yaml

mutual

/-- `P` holds of every mapping in the tree, those in keys apart. -/
def Value.Everywhere (P : List Entry → Prop) : Value → Prop
  | .sequence items => ItemsEverywhere P items
  | .mapping es => P es ∧ EntriesEverywhere P es
  | .tagged _ v => v.Everywhere P
  | .null | .bool _ | .int _ | .float _ | .string _ => True

def ItemsEverywhere (P : List Entry → Prop) : List Value → Prop
  | [] => True
  | v :: rest => v.Everywhere P ∧ ItemsEverywhere P rest

def EntriesEverywhere (P : List Entry → Prop) : List (Value × Value) → Prop
  | [] => True
  | (_, v) :: rest => v.Everywhere P ∧ EntriesEverywhere P rest

end

mutual

/-- The mappings in the tree, those in keys apart. -/
def Value.mappings : Value → List (List Entry)
  | .sequence items => itemsMappings items
  | .mapping es => es :: entriesMappings es
  | .tagged _ v => v.mappings
  | .null | .bool _ | .int _ | .float _ | .string _ => []

def itemsMappings : List Value → List (List Entry)
  | [] => []
  | v :: rest => v.mappings ++ itemsMappings rest

def entriesMappings : List (Value × Value) → List (List Entry)
  | [] => []
  | (_, v) :: rest => v.mappings ++ entriesMappings rest

end

section
variable {P : List Entry → Prop}

mutual

theorem everywhere_iff : {v : Value} → (v.Everywhere P ↔ ∀ es ∈ v.mappings, P es)
  | .sequence _ => itemsEverywhere_iff_mappings
  | .mapping es => by
    rw [Value.mappings, List.forall_mem_cons, ← entriesEverywhere_iff_mappings]
    rfl
  | .tagged _ v => @everywhere_iff v
  | .null | .bool _ | .int _ | .float _ | .string _ => iff_of_true trivial nofun

theorem itemsEverywhere_iff_mappings : {items : List Value} →
    (ItemsEverywhere P items ↔ ∀ es ∈ itemsMappings items, P es)
  | [] => iff_of_true trivial nofun
  | v :: rest => by
    rw [itemsMappings, List.forall_mem_append, ← everywhere_iff, ← itemsEverywhere_iff_mappings]
    rfl

theorem entriesEverywhere_iff_mappings : {es : List (Value × Value)} →
    (EntriesEverywhere P es ↔ ∀ fs ∈ entriesMappings es, P fs)
  | [] => iff_of_true trivial nofun
  | (_, v) :: rest => by
    rw [entriesMappings, List.forall_mem_append, ← everywhere_iff, ← entriesEverywhere_iff_mappings]
    rfl

end

theorem everywhere_mappings (v : Value) : v.Everywhere (· ∈ v.mappings) :=
  everywhere_iff.2 fun _ h => h

end

mutual

/-- No tag is in the tree, nor in a key. -/
def Value.Untagged : Value → Prop
  | .sequence items => ItemsUntagged items
  | .mapping es => EntriesUntagged es
  | .tagged _ _ => False
  | .null | .bool _ | .int _ | .float _ | .string _ => True

def ItemsUntagged : List Value → Prop
  | [] => True
  | v :: rest => v.Untagged ∧ ItemsUntagged rest

def EntriesUntagged : List (Value × Value) → Prop
  | [] => True
  | (k, v) :: rest => (k.Untagged ∧ v.Untagged) ∧ EntriesUntagged rest

end

section
variable {P : List Entry → Prop} {es : List Entry} {v : Value}

theorem entriesEverywhere_iff : EntriesEverywhere P es ↔ ∀ e ∈ es, e.2.Everywhere P := by
  induction es with
  | nil => simp [EntriesEverywhere]
  | cons e rest ih => simp [EntriesEverywhere, ih]

theorem itemsEverywhere_iff {items : List Value} :
    ItemsEverywhere P items ↔ ∀ v ∈ items, v.Everywhere P := by
  induction items with
  | nil => simp [ItemsEverywhere]
  | cons v rest ih => simp [ItemsEverywhere, ih]

theorem everywhere_untagged : (v : Value) → (v.untagged.Everywhere P ↔ v.Everywhere P)
  | .tagged _ v => everywhere_untagged v
  | .null | .bool _ | .int _ | .float _ | .string _ | .sequence _ | .mapping _ => Iff.rfl

theorem everywhere_of_mapping? (h : v.Everywhere P) (found : v.mapping? = some es) :
    P es ∧ EntriesEverywhere P es := by
  rw [← everywhere_untagged] at h
  unfold Value.mapping? at found
  split at found
  · rename_i here
    cases found
    rwa [here] at h
  · cases found

theorem everywhere_of_sequence? {items : List Value} (h : v.Everywhere P)
    (found : v.sequence? = some items) : ItemsEverywhere P items := by
  rw [← everywhere_untagged] at h
  unfold Value.sequence? at found
  split at found
  · rename_i here
    cases found
    rwa [here] at h
  · cases found

theorem entriesUntagged_iff :
    EntriesUntagged es ↔ ∀ e ∈ es, e.1.Untagged ∧ e.2.Untagged := by
  induction es with
  | nil => simp [EntriesUntagged]
  | cons e rest ih => simp [EntriesUntagged, ih]

theorem itemsUntagged_iff {items : List Value} : ItemsUntagged items ↔ ∀ v ∈ items, v.Untagged := by
  induction items with
  | nil => simp [ItemsUntagged]
  | cons v rest ih => simp [ItemsUntagged, ih]

theorem everywhere_of_isScalar (h : v.isScalar) : v.Everywhere P := by
  induction v using Value.untagged.induct with
  | case1 tag v ih => exact ih h
  | case2 v bare =>
    cases v with
    | sequence items => cases h
    | mapping es => cases h
    | tagged tag v => exact absurd rfl (bare tag v)
    | _ => trivial

theorem eq_string_of_string? {s : String} (h : v.Untagged) (same : v.string? = some s) :
    v = .string s := by
  cases v with
  | string t => exact congrArg _ (Option.some.inj same)
  | tagged tag v => cases h
  | _ => cases same

theorem eq_sequence_of_sequence? {items : List Value} (h : v.Untagged)
    (same : v.sequence? = some items) : v = .sequence items := by
  cases v with
  | sequence others => exact congrArg _ (Option.some.inj same)
  | tagged tag v => cases h
  | _ => cases same

theorem eq_mapping_of_mapping? (h : v.Untagged) (same : v.mapping? = some es) :
    v = .mapping es := by
  cases v with
  | mapping fs => exact congrArg _ (Option.some.inj same)
  | tagged tag v => cases h
  | _ => cases same

end
end RouteNotation.Yaml
