import RouteNotation.Conversion
import RouteNotation.Proofs.Dsl.StrippedEntities

/-!
What dropping generated ids costs. Main statement: `readDocument_withoutIds`, for all trees in which
no key stands twice.
-/

namespace RouteNotation

open Yaml Dsl

/-- `e` lacks the references of the tree that have a generated id, and no other entity of `d`. So it
has as many references exactly if there are none of those. -/
def LacksStamped (v : Value) (d e : Document) : Prop :=
  LosesReferences (stampedReferences v) d e ∧
    (e.references.length = d.references.length ↔ stampedReferences v = [])

/-- What is read of a tree with generated ids dropped has all beans, REST services and routes that
it has with them kept, and a REST configuration exactly if it has one then. It lacks the references
that are known by such an id. A tree that stands for no document stands for none either way. -/
theorem readDocument_withoutIds (options : Options) {v : Value} (unique : v.Everywhere UniqueKeys) :
    let keeping := { options with stripGeneratedIds := false }
    let dropping := { options with stripGeneratedIds := true }
    (∀ d, readDocument (preparedTree keeping v) = .ok d →
      ∃ e, readDocument (preparedTree dropping v) = .ok e ∧
        LacksStamped (Uri.packTree v) d.value e.value) ∧
    ∀ error, readDocument (preparedTree keeping v) = .error error →
      readDocument (preparedTree dropping v) = .error error := by
  refine ⟨fun d read => ?_, fun error wrong => error_readDocument_strip wrong⟩
  obtain ⟨e, reread, loses⟩ := losesReferences_readDocument (uniqueKeys_packTree unique) read
  exact ⟨e, reread, loses, loses.length_eq_iff⟩

/-- A bean, a route and two references. All but one of the references have a generated id. -/
def editedTree : Value :=
  .sequence [.mapping [
    entry "beans" (.sequence [.mapping [textEntry "id" "bean-12ab", textEntry "name" "a"]]),
    entry "reference" (.sequence [
      .mapping [textEntry "id" "ds-ab12", textEntry "interface" "I"],
      .mapping [textEntry "id" "queue", textEntry "interface" "J"]]),
    entry "route" (.mapping [textEntry "id" "route-00ff",
      entry "from" (.mapping [textEntry "id" "from-9c3d", textEntry "uri" "u"])])]]

theorem readDocument_withoutIds_editedTree :
    editedTree.Everywhere UniqueKeys ∧
      ∃ d e, readDocument (preparedTree { Options.default with stripGeneratedIds := false }
          editedTree) = .ok d ∧
        readDocument (preparedTree { Options.default with stripGeneratedIds := true }
          editedTree) = .ok e ∧
        d.value.references = [⟨"ds-ab12", "I", none⟩, ⟨"queue", "J", none⟩] ∧
        LosesReferences [⟨"ds-ab12", "I", none⟩] d.value e.value := by
  have unique : editedTree.Everywhere UniqueKeys := by
    have : ∀ es ∈ editedTree.mappings, es.Pairwise fun e f => e.1.same f.1 = false := by decide
    exact everywhere_iff.2 this
  obtain ⟨e, reread, loses, -⟩ := (readDocument_withoutIds .default unique).1 _ rfl
  have lost : stampedReferences (Uri.packTree editedTree) = [⟨"ds-ab12", "I", none⟩] := by
    decide +kernel
  rw [lost] at loses
  exact ⟨unique, _, e, rfl, reread, by decide +kernel, loses⟩

/-- The one reference of a tree, and then a note that it has no id. -/
theorem readDocument_stampedReference :
    let v : Value := .sequence [.ofEntry "reference"
      (.mapping [textEntry "id" "ds-ab12", textEntry "interface" "javax.sql.DataSource"])]
    ∃ d e, readDocument (preparedTree { Options.default with stripGeneratedIds := false } v) =
        .ok d ∧
      readDocument (preparedTree { Options.default with stripGeneratedIds := true } v) = .ok e ∧
      d = pure (.ofReference ⟨"ds-ab12", "javax.sql.DataSource", none⟩) ∧
      e = ⟨.empty, [.missingField "[0]/reference" "id"]⟩ := by
  refine ⟨_, _, rfl, rfl, ?_, ?_⟩ <;> decide +kernel

end RouteNotation
