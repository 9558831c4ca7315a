import RouteNotation.Proofs.Dsl.StepBounds
import RouteNotation.Proofs.Yaml.Everywhere

/-!
Induction over the steps that are read from a value tree: what every way to make a step larger
keeps, holds of each step that comes out.
-/

namespace RouteNotation.Dsl

open Yaml OrderedMap

/-- A property that every way to make a step larger keeps, where the mappings that are read are all
known to satisfy `P`. -/
structure StepInvariant (P : List Entry → Prop) (Q : Step → Prop) : Prop where
  bare : ∀ kind, IsTag kind → Q (.bare kind)
  withAttribute : ∀ s key text, Q s → Xml.isValidName key → isReserved key = false →
    Q (s.withAttributes (s.attributes.insert key text))
  withText : ∀ s text, Q s → Q (s.withText text)
  withExpression : ∀ s path language body, Q s → body.Everywhere P →
    Q (s.withExpression (readExpression path language body).value)
  pushText : ∀ s tag value, Q s → IsTag tag → Q (s.push (.text tag value))
  pushElement : ∀ s tag child, Q s → IsTag tag → Q child → Q (s.push (.element tag child))
  pushNested : ∀ s child, Q s → Q child → Q (s.push (.nested child))

namespace StepInvariant
variable {P : List Entry → Prop} {Q : Step → Prop}

section Parts
variable {step : Step} {path key : String} (h : StepInvariant P Q)
include h

theorem pushRead (hs : Q step) {child : Option Step} (hc : ∀ c ∈ child, Q c) :
    Q (step.pushNested child) := by
  cases child with
  | none => exact hs
  | some c => exact h.pushNested step c hs (hc c rfl)

theorem textStep {kind : String} (text : String) (tag : IsTag kind) : Q (textStep kind text) := by
  have bare := h.bare kind tag
  unfold Dsl.textStep
  split
  · rename_i key short
    have names : Xml.isValidName key ∧ isReserved key = false := by
      unfold shorthand? at short
      split at short <;> cases short <;> decide
    exact h.withAttribute _ key text bare names.1 names.2
  · exact h.withText _ (some text) bare

theorem readWrapper (hs : Q step) {v : Value} (hv : v.Everywhere P) :
    Q (readWrapper path step v).value := by
  unfold Dsl.readWrapper
  split
  · exact hs
  · rename_i language body found
    split
    · exact hs
    · simp only [wrapped?, Option.bind_eq_bind, Option.bind_eq_some_iff] at found
      obtain ⟨es, mapping, ⟨tag, inner⟩, first, l, -, same⟩ := found
      cases same
      have below := (everywhere_of_mapping? hv mapping).2
      cases es with
      | nil => cases first
      | cons e rest =>
        obtain ⟨key, -, same⟩ := Option.map_eq_some_iff.1 first
        cases same
        exact h.withExpression step _ language _ hs below.1

theorem collapse? {item : Value} {s : Step} (hs : Q step) (found : collapse? step item = some s) :
    Q s := by
  unfold Dsl.collapse? at found
  simp only [Option.bind_eq_bind, Option.bind_eq_some_iff] at found
  obtain ⟨es, _, ⟨tag, body⟩, _, text, _, found⟩ := found
  split at found
  · contradiction
  · rename_i checked
    have ok : IsTag tag := by
      simp only [Bool.or_eq_true, not_or, Bool.not_eq_true, Bool.not_eq_eq_eq_not, Bool.not_true,
        Bool.not_eq_false] at checked
      exact ⟨checked.1.2, checked.2⟩
    split at found
    · split at found
      · rename_i language _ _
        cases Option.some.inj found
        exact h.withExpression step "" language (.string text) hs trivial
      · cases Option.some.inj found
        exact h.pushText step tag text hs ok
    · cases Option.some.inj found
      exact h.pushText step tag text hs ok

theorem readTextChild (hs : Q step) (tag : IsTag key) (v : Value) :
    Q (readTextChild path key step v).value := by
  unfold Dsl.readTextChild
  split
  · exact h.pushText step key _ hs tag
  · exact hs

theorem readTextField (hs : Q step) (tag : IsTag key) (v : Value) :
    Q (readTextField path key step v).value := by
  unfold Dsl.readTextField
  split
  · rename_i scalar
    rw [Bool.and_eq_true] at scalar
    obtain ⟨text, found⟩ := Option.isSome_iff_exists.1 scalar.1
    have written : Dsl.readAttribute path step.attributes key v =
        pure (step.attributes.insert key text) := by
      simp [Dsl.readAttribute, tag.1, found]
    rw [written]
    exact h.withAttribute step key text hs tag.1 tag.2
  · exact h.readTextChild hs tag v

end Parts

-- By recursion on the tree. The step that is being filled is generalised, and all entries that are
-- still to come are read into the larger one.
mutual

theorem readStepItem (h : StepInvariant P Q) (path found : String) : (item : Value) →
    item.Everywhere P → ∀ s ∈ (readStepItem path found item).value, Q s
  | .tagged _ v, hv => h.readStepItem path found v hv
  | .mapping ((k, body) :: more), hv => by
    intro s hs
    rw [Dsl.readStepItem] at hs
    split at hs
    · rename_i kind _
      have here : s ∈ (Dsl.readStep (childPath path kind) kind body).value := by
        dsimp only at hs
        split at hs <;> exact hs
      exact h.readStep (childPath path kind) kind body hv.2.1 s here
    · cases hs
  | .null, _ | .bool _, _ | .int _, _ | .float _, _ | .string _, _ | .sequence _, _
  | .mapping [], _ => nofun

theorem readStep (h : StepInvariant P Q) (path kind : String) : (body : Value) →
    body.Everywhere P → ∀ s ∈ (readStep path kind body).value, Q s
  | .mapping es, hv => by
    intro s hs
    rw [Dsl.readStep] at hs
    split at hs
    · cases hs
    · rename_i checked
      cases Option.some.inj hs
      exact h.readBody path (.ofTag kind) es hv.2 (h.bare kind (isTag_of_not checked))
  | .sequence _, _ | .tagged _ _, _ => by
    intro s hs
    rw [Dsl.readStep] at hs
    split at hs <;> cases hs
  | .null, _ => by
    intro s hs
    rw [Dsl.readStep] at hs
    split at hs
    · cases hs
    · rename_i checked
      cases Option.some.inj hs
      exact h.bare kind (isTag_of_not checked)
  | .bool _, _ | .int _, _ | .float _, _ | .string _, _ => by
    intro s hs
    simp only [Dsl.readStep] at hs
    split at hs
    · cases hs
    · rename_i checked
      cases Option.some.inj hs
      exact h.textStep _ (isTag_of_not checked)

theorem readBody (h : StepInvariant P Q) (path : String) (role : Role) :
    (es : List (Value × Value)) → EntriesEverywhere P es → {step : Step} → Q step →
      Q (readBody path role step es).value
  | [], _, _, hs => hs
  | (k, v) :: rest, ⟨hv, hr⟩, step, hs => by
    have others : ∀ {s : Step}, Q s → Q (Dsl.readBody path role s rest).value :=
      fun hs => h.readBody path role rest hr hs
    rw [Dsl.readBody]
    split
    · exact others hs
    · rename_i key _
      simp only
      split
      · have nested := h.readNested (childPath path key) v.describe role.isContainer hs v hv
        split <;> exact others nested
      · exact others (h.readWrapper hs hv)
      · exact others (h.withText step _ hs)
      · exact others hs
      · exact others (h.withExpression step _ _ v hs hv)
      · rename_i rule
        exact others (h.readChild path key v hv hs (unreserved_of_rule (.inr rule)))
      · rename_i rule
        exact others (h.readChild path key v hv hs (unreserved_of_rule (.inl rule)))

theorem readNested (h : StepInvariant P Q) (path found : String) (container : Bool) {step : Step}
    (hs : Q step) : (v : Value) → v.Everywhere P → Q (readNested path found container step v).value
  | .tagged _ v, hv => h.readNested path found container hs v hv
  | .sequence items, hv => by
    rw [Dsl.readNested]
    exact h.readNestedItems path container 0 items hv hs
  | .null, _ | .bool _, _ | .int _, _ | .float _, _ | .string _, _ | .mapping _, _ => hs

theorem readNestedItems (h : StepInvariant P Q) (path : String) (container : Bool) (index : Nat) :
    (items : List Value) → ItemsEverywhere P items → {step : Step} → Q step →
      Q (readNestedItems path container index step items).value
  | [], _, _, hs => hs
  | item :: rest, ⟨hv, hr⟩, step, hs => by
    rw [Dsl.readNestedItems]
    split
    · rename_i s collapsed
      split at collapsed
      · exact h.readNestedItems path container (index + 1) rest hr (h.collapse? hs collapsed)
      · contradiction
    · have nested := h.readStepItem (indexPath path index) item.describe item hv
      exact h.readNestedItems path container (index + 1) rest hr (h.pushRead hs nested)

theorem readChild (h : StepInvariant P Q) (path key : String) {step : Step} :
    (v : Value) → v.Everywhere P → Q step → isReserved key = false →
      Q (readChild path key step v).value
  | .sequence items, hv, hs, unreserved => by
    rw [Dsl.readChild]
    split
    · exact hs
    · rename_i valid
      exact h.readChildItems (childPath path key) key items hv hs ⟨by simpa using valid, unreserved⟩
  | .mapping es, hv, hs, unreserved => by
    rw [Dsl.readChild]
    split
    · exact hs
    · rename_i valid
      have tag : IsTag key := ⟨by simpa using valid, unreserved⟩
      exact h.pushElement step key _ hs tag
        (h.readBody (childPath path key) (.ofTag key) es hv.2 (h.bare key tag))
  | .null, _, hs, unreserved => by
    rw [Dsl.readChild]
    split
    · exact hs
    · rename_i valid
      have tag : IsTag key := ⟨by simpa using valid, unreserved⟩
      exact h.pushElement step key _ hs tag (h.bare key tag)
  | .bool _, _, hs, unreserved | .int _, _, hs, unreserved | .float _, _, hs, unreserved
  | .string _, _, hs, unreserved | .tagged _ _, _, hs, unreserved => by
    simp only [Dsl.readChild]
    split
    · exact hs
    · rename_i valid
      exact h.readTextField hs ⟨by simpa using valid, unreserved⟩ _

theorem readChildItems (h : StepInvariant P Q) (path key : String) :
    (items : List Value) → ItemsEverywhere P items → {step : Step} → Q step → IsTag key →
      Q (readChildItems path key step items).value
  | [], _, _, hs, _ => hs
  | .null :: rest, ⟨_, hr⟩, step, hs, tag => by
    rw [Dsl.readChildItems]
    exact h.readChildItems path key rest hr (h.pushElement step key _ hs tag (h.bare key tag)) tag
  | .mapping es :: rest, ⟨hv, hr⟩, step, hs, tag => by
    rw [Dsl.readChildItems]
    have child := h.readBody path (.ofTag key) es hv.2 (h.bare key tag)
    exact h.readChildItems path key rest hr (h.pushElement step key _ hs tag child) tag
  | .sequence _ :: rest, ⟨_, hr⟩, step, hs, tag | .tagged _ _ :: rest, ⟨_, hr⟩, step, hs, tag
  | .bool _ :: rest, ⟨_, hr⟩, step, hs, tag | .int _ :: rest, ⟨_, hr⟩, step, hs, tag
  | .float _ :: rest, ⟨_, hr⟩, step, hs, tag | .string _ :: rest, ⟨_, hr⟩, step, hs, tag => by
    simp only [Dsl.readChildItems, Noted.value_bind]
    exact h.readChildItems path key rest hr (h.readTextChild hs tag _) tag

end

end StepInvariant
end RouteNotation.Dsl
