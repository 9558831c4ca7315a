import RouteNotation.Proofs.Blueprint.BeanElements
import RouteNotation.Proofs.Dsl.BeanMappings

/-!
A bean is known by its id in markup and by its name in value trees. Main statement:
`beanNames_beanIds`, which says when conversion keeps it, in both directions.
-/

namespace RouteNotation

open Yaml Xml

/-- The names in the lists of beans of a value tree. -/
def beanNames (v : Value) : List (Option String) :=
  (Dsl.beanMappings v).map (scalarUnder? "name")

/-- The ids of the elements for beans in markup. -/
def beanIds (root : Element) : List (Option String) :=
  (Blueprint.beanElements root).map (·.attribute? "id")

theorem beanNames_readDocument (root : Element) :
    beanNames (Dsl.documentValue (Blueprint.readDocument root).value).value =
      (Blueprint.identifiedBeans root).map fun e =>
        (e.attribute? "name").or (e.attribute? "id") := by
  rw [beanNames, Dsl.names_documentValue]
  apply Blueprint.map_beans_readDocument
  intro e id b found name extra
  rw [extra, name, found]

theorem beanIds_readDocument (settings : Blueprint.Settings) {v : Value} {d : Noted Document}
    (read : Dsl.readDocument v = .ok d) :
    beanIds (Blueprint.documentElement settings d.value) =
      (Dsl.namedBeans v).map fun es =>
        (Dsl.lastScalarUnder? "id" es).or (scalarUnder? "name" es) := by
  rw [beanIds, Blueprint.beanElements_documentElement, List.map_map]
  refine Dsl.map_beans_readDocument (fun es name b found same extra => ?_) read
  rw [Function.comp_apply, Blueprint.id_beanElement, extra, same, found]

theorem or_eq_right_iff {α : Type} {a b : Option α} : a.or b = b ↔ ∀ x ∈ a, b = some x := by
  cases a with
  | none => simp
  | some x => simp [eq_comm]

/-- The names that are written for markup are the ids of its beans, unless a bean has an attribute
`name` with another value: then that is its name. The ids that are written for a value tree are the
names of its beans, unless a bean has a key `id` with another value: then that is its id. -/
theorem beanNames_beanIds (settings : Blueprint.Settings) (root : Element) (v : Value) :
    (let beans := Blueprint.identifiedBeans root
      let names := beanNames (Dsl.documentValue (Blueprint.readDocument root).value).value
      names = beans.map (fun e => (e.attribute? "name").or (e.attribute? "id")) ∧
        (names = beans.map (·.attribute? "id") ↔
          ∀ e ∈ beans, ∀ name ∈ e.attribute? "name", e.attribute? "id" = some name)) ∧
    ∀ d : Noted Document, Dsl.readDocument v = .ok d →
      let beans := Dsl.namedBeans v
      let names := d.value.beans.map fun b => some b.name
      let ids := beanIds (Blueprint.documentElement settings d.value)
      names = beans.map (scalarUnder? "name") ∧
        ids = beans.map (fun es => (Dsl.lastScalarUnder? "id" es).or (scalarUnder? "name" es)) ∧
        (ids = names ↔
          ∀ es ∈ beans, ∀ id ∈ Dsl.lastScalarUnder? "id" es, scalarUnder? "name" es = some id) := by
  constructor
  · refine ⟨beanNames_readDocument root, ?_⟩
    rw [beanNames_readDocument, List.map_inj_left]
    exact forall₂_congr fun e _ => or_eq_right_iff
  · intro d read
    have names : d.value.beans.map (fun b => some b.name) =
        (Dsl.namedBeans v).map (scalarUnder? "name") :=
      Dsl.map_beans_readDocument (fun es name b found same _ => by rw [found, same]) read
    refine ⟨names, beanIds_readDocument settings read, ?_⟩
    rw [beanIds_readDocument settings read, names, List.map_inj_left]
    exact forall₂_congr fun es _ => or_eq_right_iff

/-- Two beans in a group and one below it, one of them with its id as a name. -/
def namedRoot : Element :=
  .ofElements "blueprint" .empty [
    .ofElements "camelContext" .empty [
      .leaf "bean" (.ofList [("id", "a"), ("name", "a"), ("scope", "s")]), .leaf "bean" .empty],
    .leaf "bean" (.ofList [("class", "C"), ("id", "b")])]

def namedTree : Value :=
  .sequence [.ofEntry "beans" (.sequence [.mapping [textEntry "scope" "s", textEntry "name" "a"],
    .mapping [textEntry "type" "T"], .mapping [textEntry "id" "b", textEntry "name" "b"]])]

theorem beanNames_beanIds_namedRoot :
    beanNames (Dsl.documentValue (Blueprint.readDocument namedRoot).value).value =
        [some "a", some "b"] ∧
      ∃ d, Dsl.readDocument namedTree = .ok d ∧ d.value.beans.map Bean.name = ["a", "b"] ∧
        beanIds (Blueprint.documentElement .default d.value) = [some "a", some "b"] := by
  obtain ⟨⟨-, written⟩, read⟩ := beanNames_beanIds .default namedRoot namedTree
  have found : Blueprint.identifiedBeans namedRoot =
      [.leaf "bean" (.ofList [("id", "a"), ("name", "a"), ("scope", "s")]),
        .leaf "bean" (.ofList [("class", "C"), ("id", "b")])] := by decide +kernel
  rw [found] at written
  refine ⟨written.2 (by decide +kernel), _, rfl, by decide +kernel, ?_⟩
  exact (read _ rfl).2.1.trans (by decide +kernel)

/-- In both directions an attribute that is passed on under its own name takes the place of the name
or the id of its bean. -/
theorem beanNames_beanIds_replaced :
    let root : Element := .ofElements "blueprint" .empty [
      .leaf "bean" (.ofList [("id", "a"), ("name", "b")])]
    let v : Value := .sequence [.ofEntry "beans"
      (.sequence [.mapping [textEntry "name" "a", textEntry "id" "b"]])]
    (beanIds root = [some "a"] ∧
      beanNames (Dsl.documentValue (Blueprint.readDocument root).value).value = [some "b"]) ∧
    ∃ d, Dsl.readDocument v = .ok d ∧ d.value.beans.map Bean.name = ["a"] ∧
      beanIds (Blueprint.documentElement .default d.value) = [some "b"] := by
  refine ⟨⟨?_, ?_⟩, _, rfl, ?_, ?_⟩ <;> decide +kernel

end RouteNotation
