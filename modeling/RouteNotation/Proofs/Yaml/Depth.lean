import RouteNotation.Route.GeneratedId
import RouteNotation.Route.Uri

/-!
How deep the collections of a value tree nest. A tag adds nothing. What is done to a tree before a
document is read from it makes it no deeper.
-/

namespace RouteNotation.Yaml

mutual

/-- How many sequences and mappings stand in one another; those in keys count too. -/
def Value.depth : Value → Nat
  | .sequence items => depthOfItems items + 1
  | .mapping entries => depthOfEntries entries + 1
  | .tagged _ v => v.depth
  | _ => 0

def depthOfItems : List Value → Nat
  | [] => 0
  | v :: rest => max v.depth (depthOfItems rest)

def depthOfEntries : List (Value × Value) → Nat
  | [] => 0
  | (k, v) :: rest => max (max k.depth v.depth) (depthOfEntries rest)

end

theorem depth_le_of_mem_items {v : Value} {items : List Value} (h : v ∈ items) :
    v.depth ≤ depthOfItems items := by
  induction items with
  | nil => cases h
  | cons w rest ih =>
    rw [depthOfItems]
    rcases List.mem_cons.1 h with rfl | h
    · omega
    · have := ih h
      omega

theorem depth_le_of_mem_entries {e : Entry} {es : List Entry} (h : e ∈ es) :
    e.2.depth ≤ depthOfEntries es := by
  induction es with
  | nil => cases h
  | cons f rest ih =>
    obtain ⟨k, v⟩ := f
    rw [depthOfEntries]
    rcases List.mem_cons.1 h with rfl | h
    · change v.depth ≤ _
      omega
    · have := ih h
      omega

theorem depth_untagged (v : Value) : v.untagged.depth = v.depth := by
  fun_induction Value.untagged v with
  | case1 tag v ih => rw [ih, Value.depth]
  | case2 v h => rfl

theorem depth_of_mapping? {v : Value} {es : List Entry} (h : v.mapping? = some es) :
    v.depth = depthOfEntries es + 1 := by
  rw [← depth_untagged]
  unfold Value.mapping? at h
  split at h
  · rename_i entries same
    cases Option.some.inj h
    rw [same, Value.depth]
  · contradiction

theorem depth_of_sequence? {v : Value} {items : List Value} (h : v.sequence? = some items) :
    v.depth = depthOfItems items + 1 := by
  rw [← depth_untagged]
  unfold Value.sequence? at h
  split at h
  · rename_i values same
    cases Option.some.inj h
    rw [same, Value.depth]
  · contradiction

mutual

theorem depth_packTree_le : (v : Value) → (Uri.packTree v).depth ≤ v.depth
  | .sequence items => by
    have := depthOfItems_packItems_le items
    simp only [Uri.packTree, Value.depth]
    omega
  | .mapping entries => by
    have := depthOfEntries_packEntries_le (Uri.packed? entries) entries
    simp only [Uri.packTree, Value.depth]
    omega
  | .null | .bool _ | .int _ | .float _ | .string _ | .tagged _ _ => Nat.le_refl _

theorem depthOfItems_packItems_le : (items : List Value) →
    depthOfItems (Uri.packItems items) ≤ depthOfItems items
  | [] => Nat.le_refl _
  | v :: rest => by
    have here := depth_packTree_le v
    have others := depthOfItems_packItems_le rest
    simp only [Uri.packItems, depthOfItems]
    omega

theorem depthOfEntries_packEntries_le (packed : Option String) : (es : List (Value × Value)) →
    depthOfEntries (Uri.packEntries packed es) ≤ depthOfEntries es
  | [] => Nat.le_refl _
  | (k, v) :: rest => by
    have here := depth_packTree_le v
    have others := depthOfEntries_packEntries_le packed rest
    unfold Uri.packEntries
    split
    · simp only [depthOfEntries]
      omega
    · split
      · simp only [depthOfEntries, Value.depth]
        omega
      · split <;> simp only [depthOfEntries] <;> omega

end

mutual

theorem depth_strip_le : (v : Value) → (GeneratedId.strip v).depth ≤ v.depth
  | .sequence items => by
    have := depthOfItems_stripItems_le items
    simp only [GeneratedId.strip, Value.depth]
    omega
  | .mapping entries => by
    have := depthOfEntries_stripEntries_le entries
    simp only [GeneratedId.strip, Value.depth]
    omega
  | .null | .bool _ | .int _ | .float _ | .string _ | .tagged _ _ => Nat.le_refl _

theorem depthOfItems_stripItems_le : (items : List Value) →
    depthOfItems (GeneratedId.stripItems items) ≤ depthOfItems items
  | [] => Nat.le_refl _
  | v :: rest => by
    have here := depth_strip_le v
    have others := depthOfItems_stripItems_le rest
    simp only [GeneratedId.stripItems, depthOfItems]
    omega

theorem depthOfEntries_stripEntries_le : (es : List (Value × Value)) →
    depthOfEntries (GeneratedId.stripEntries es) ≤ depthOfEntries es
  | [] => Nat.le_refl _
  | (k, v) :: rest => by
    have here := depth_strip_le v
    have others := depthOfEntries_stripEntries_le rest
    unfold GeneratedId.stripEntries
    split <;> simp only [depthOfEntries] <;> omega

end
end RouteNotation.Yaml
