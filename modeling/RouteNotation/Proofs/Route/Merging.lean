import RouteNotation.Proofs.Noted
import RouteNotation.Route.Document

/-!
Documents under merging. The empty document changes nothing, and merging can be grouped in any way,
so a run in which each step adds a document of its own adds the merge of them all.
-/

namespace RouteNotation

namespace Document

@[simp] theorem empty_merge (d : Document) : empty.merge d = d := by
  simp [merge, empty]

@[simp] theorem merge_empty (d : Document) : d.merge empty = d := by
  simp [merge, empty]

theorem merge_assoc (d e f : Document) : (d.merge e).merge f = d.merge (e.merge f) := by
  simp [merge, Option.or_assoc]

def mergeAll (ds : List Document) : Document := ds.foldr merge empty

@[simp] theorem mergeAll_nil : mergeAll [] = empty := rfl

@[simp] theorem mergeAll_cons (d : Document) (ds : List Document) :
    mergeAll (d :: ds) = d.merge (mergeAll ds) := rfl

theorem mergeAll_append (ds es : List Document) :
    mergeAll (ds ++ es) = (mergeAll ds).merge (mergeAll es) := by
  induction ds with
  | nil => exact (empty_merge _).symm
  | cons d ds ih => rw [List.cons_append, mergeAll_cons, mergeAll_cons, ih, merge_assoc]

/-- Empty documents among others add nothing. -/
theorem mergeAll_eq_empty {ds : List Document} (h : ∀ d ∈ ds, d = empty) : mergeAll ds = empty := by
  induction ds with
  | nil => rfl
  | cons d ds ih =>
    obtain ⟨first, others⟩ := List.forall_mem_cons.1 h
    rw [mergeAll_cons, first, ih others, empty_merge]

theorem beans_mergeAll (ds : List Document) :
    (mergeAll ds).beans = ds.flatMap Document.beans := by
  induction ds with
  | nil => rfl
  | cons d ds ih =>
    rw [mergeAll_cons, List.flatMap_cons, ← ih]
    rfl

end Document

/-- What is read of some entities, of which those that pass can be read. -/
theorem map_filterMap_of_filter {α β γ : Type} {read : α → Option β} {passes : α → Bool}
    {f : β → γ} {g : α → γ} (h : ∀ a, (read a).map f = if passes a then some (g a) else none)
    (as : List α) : (as.filterMap read).map f = (as.filter passes).map g := by
  rw [List.map_filterMap, ← List.filterMap_eq_map, List.filterMap_filter]
  exact congrArg (List.filterMap · as) (funext h)

theorem Noted.value_foldlM_merge {α : Type} {f : Document → α → Noted Document} {add : α → Document}
    (h : ∀ d a, (f d a).value = d.merge (add a)) (d : Document) (as : List α) :
    (as.foldlM f d).value = d.merge (.mergeAll (as.map add)) := by
  induction as generalizing d with
  | nil => exact (Document.merge_empty d).symm
  | cons a as ih =>
    rw [List.foldlM_cons, value_bind, h, ih, List.map_cons, Document.mergeAll_cons,
      Document.merge_assoc]

end RouteNotation
