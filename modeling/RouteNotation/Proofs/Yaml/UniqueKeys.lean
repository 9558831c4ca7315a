import RouteNotation.Proofs.Yaml.Everywhere
import RouteNotation.Route.Uri

/-!
No key stands twice in a mapping. Main statement: where this is so everywhere in a tree, it stays so
when URIs are joined.
-/

namespace RouteNotation.Yaml

/-- No key is that of two entries. -/
def UniqueKeys (es : List Entry) : Prop := es.Pairwise fun e f => e.1.same f.1 = false

theorem keys_packEntries_sublist (joined : Option String) (es : List Entry) :
    ((Uri.packEntries joined es).map Prod.fst).Sublist (es.map Prod.fst) := by
  induction es with
  | nil => exact .slnil
  | cons e rest ih =>
    unfold Uri.packEntries
    split
    · exact ih.cons_cons _
    · split
      · exact ih.cons_cons _
      · split
        · exact ih.cons _
        · exact ih.cons_cons _

theorem uniqueKeys_packEntries (joined : Option String) {es : List Entry} (h : UniqueKeys es) :
    UniqueKeys (Uri.packEntries joined es) := by
  rw [UniqueKeys, ← List.pairwise_map (f := Prod.fst) (R := fun k l : Value => k.same l = false)]
    at h ⊢
  exact h.sublist (keys_packEntries_sublist joined es)

mutual

theorem uniqueKeys_packTree : {v : Value} → v.Everywhere UniqueKeys →
    (Uri.packTree v).Everywhere UniqueKeys
  | .sequence _, h => uniqueKeys_packItems h
  | .mapping es, h => ⟨uniqueKeys_packEntries (Uri.packed? es) h.1, uniqueKeys_below _ h.2⟩
  | .tagged _ _, h => h
  | .null, _ | .bool _, _ | .int _, _ | .float _, _ | .string _, _ => trivial

theorem uniqueKeys_packItems : {items : List Value} → ItemsEverywhere UniqueKeys items →
    ItemsEverywhere UniqueKeys (Uri.packItems items)
  | [], _ => trivial
  | _ :: _, h => ⟨uniqueKeys_packTree h.1, uniqueKeys_packItems h.2⟩

theorem uniqueKeys_below (joined : Option String) : {es : List (Value × Value)} →
    EntriesEverywhere UniqueKeys es → EntriesEverywhere UniqueKeys (Uri.packEntries joined es)
  | [], _ => trivial
  | (k, v) :: rest, h => by
    have here : (Uri.packTree v).Everywhere UniqueKeys := uniqueKeys_packTree h.1
    have others := uniqueKeys_below joined h.2
    unfold Uri.packEntries
    split
    · exact ⟨here, others⟩
    · split
      · exact ⟨trivial, others⟩
      · split
        · exact others
        · exact ⟨here, others⟩

end

end RouteNotation.Yaml
