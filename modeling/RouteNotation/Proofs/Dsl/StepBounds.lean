import RouteNotation.Dsl.StepReader
import RouteNotation.Proofs.Noted
import RouteNotation.Proofs.OrderedMap
import RouteNotation.Proofs.Route.StepDepth
import RouteNotation.Proofs.Yaml.Depth

/-!
What can be in a step that was read from a value tree, whatever the tree is: every name has been
checked, and the step is at most one deeper than the collections of its body.
-/

namespace RouteNotation.Dsl

open Yaml OrderedMap

/-- A tag that markup allows and that has no other meaning. -/
def IsTag (tag : String) : Prop := Xml.isValidName tag ∧ isReserved tag = false

theorem isTag_of_not {tag : String} (h : ¬(!Xml.isValidName tag || isReserved tag) = true) :
    IsTag tag := by
  simpa [IsTag] using h

/-- A step that may come from a value in which collections nest `n` deep. -/
abbrev Readable (n : Nat) (s : Step) : Prop := s.Within IsTag (Xml.isValidName ·) n

theorem mem_keys_readAttribute_iff {path key k : String} {m : Attributes} {v : Value} :
    k ∈ (readAttribute path m key v).value.keys ↔
      k ∈ m.keys ∨ (k = key ∧ Xml.isValidName k ∧ v.isScalar) := by
  unfold readAttribute Value.isScalar
  split
  · rename_i invalid
    refine (or_iff_left ?_).symm
    rintro ⟨rfl, valid, -⟩
    simp [valid] at invalid
  · rename_i valid
    have valid : Xml.isValidName key := by simpa using valid
    cases v.scalarText? with
    | none => simp
    | some text =>
      change k ∈ (m.insert key text).keys ↔ _
      rw [mem_keys_insert]
      refine or_congr_right ⟨?_, And.left⟩
      rintro rfl
      exact ⟨rfl, valid, rfl⟩

theorem mem_keys_readAttribute {path key k : String} {attributes : Attributes} {v : Value}
    (h : k ∈ (readAttribute path attributes key v).value.keys) :
    k ∈ attributes.keys ∨ (k = key ∧ Xml.isValidName k) :=
  (mem_keys_readAttribute_iff.1 h).imp_right fun ⟨same, valid, _⟩ => ⟨same, valid⟩

theorem valid_readAttribute {path key : String} {attributes : Attributes} {v : Value}
    (h : ∀ k ∈ attributes.keys, Xml.isValidName k) :
    ∀ k ∈ (readAttribute path attributes key v).value.keys, Xml.isValidName k := by
  intro k hk
  rcases mem_keys_readAttribute hk with hk | hk
  · exact h k hk
  · exact hk.2

theorem valid_readAttributes (path : String) (es : List Entry) :
    ∀ k ∈ (readAttributes path es).value.keys, Xml.isValidName k := by
  apply Noted.foldlM_induction (P := fun m : Attributes => ∀ k ∈ m.keys, Xml.isValidName k)
  · exact fun k hk => absurd hk not_mem_keys_empty
  · intro m e _ valid
    unfold readAttributeEntry
    split
    · exact valid_readAttribute valid
    · exact valid

theorem valid_readExpression (path : String) (language : Language) (body : Value) :
    ∀ k ∈ (readExpression path language body).value.attributes.keys, Xml.isValidName k := by
  unfold readExpression
  split
  · apply Noted.foldlM_induction
      (P := fun e : Expression => ∀ k ∈ e.attributes.keys, Xml.isValidName k)
    · exact fun k hk => absurd hk not_mem_keys_empty
    · intro e entry _ valid
      unfold readExpressionEntry
      split
      · exact valid
      · exact valid_readAttribute valid
      · exact valid
  · exact fun k hk => absurd hk not_mem_keys_empty

section Parts
variable {n : Nat} {step : Step} {path key : String}

theorem readable_textStep {kind : String} (text : String) (tag : IsTag kind) :
    Readable 1 (textStep kind text) := by
  have bare : Readable 1 (.bare kind) := .bare tag Nat.one_pos
  unfold textStep
  split
  · rename_i name short
    have valid : ∀ k ∈ (OrderedMap.single name text).keys, Xml.isValidName k := by
      intro k hk
      rw [mem_keys_single] at hk
      subst hk
      unfold shorthand? at short
      split at short <;> cases short <;> decide
    exact bare.withAttributes valid
  · have named : Readable 1 ((Step.bare kind).withText (some text)) := bare.withText
    exact named

theorem readable_readWrapper (h : Readable n step) (room : 1 < n) (v : Value) :
    Readable n (readWrapper path step v).value := by
  unfold readWrapper
  split
  · exact h
  · split
    · exact h
    · exact h.withExpression (valid_readExpression _ _ _) room

theorem readable_collapse? {item : Value} {s : Step} (h : Readable n step) (room : 1 < n)
    (found : collapse? step item = some s) : Readable n s := by
  unfold collapse? at found
  simp only [Option.bind_eq_bind, Option.bind_eq_some_iff] at found
  obtain ⟨es, _, ⟨tag, body⟩, _, text, _, found⟩ := found
  split at found
  · contradiction
  · rename_i checked
    have ok : IsTag tag := by
      simp only [Bool.or_eq_true, not_or, Bool.not_eq_true, Bool.not_eq_eq_eq_not, Bool.not_true,
        Bool.not_eq_false] at checked
      exact ⟨checked.1.2, checked.2⟩
    split at found
    · split at found
      · cases Option.some.inj found
        exact h.withExpression (fun k hk => absurd hk not_mem_keys_empty) room
      · cases Option.some.inj found
        exact h.pushText ok room
    · cases Option.some.inj found
      exact h.pushText ok room

theorem readable_readTextChild (h : Readable n step) (tag : IsTag key) (room : 1 < n) (v : Value) :
    Readable n (readTextChild path key step v).value := by
  unfold readTextChild
  split
  · exact h.pushText tag room
  · exact h

theorem readable_readTextField (h : Readable n step) (tag : IsTag key) (room : 1 < n) (v : Value) :
    Readable n (readTextField path key step v).value := by
  unfold readTextField
  split
  · apply h.withAttributes
    obtain ⟨_, _, _, _, _⟩ := step
    exact valid_readAttribute h.1.2.1
  · exact readable_readTextChild h tag room v

/-- Keys that go to children have no other meaning. -/
theorem unreserved_of_rule {role : Role} {has : Bool} {v : Value}
    (h : FieldRule.of role has key v = .child ∨ FieldRule.of role has key v = .lateExpression) :
    isReserved key = false := by
  unfold FieldRule.of at h
  split at h
  · simp at h
  · simp at h
  · split at h <;> simp at h
  · simp at h
  · simp at h
  · rename_i steps expression text children item
    have others : key ∉ reservedKeys := by
      simp only [reservedKeys, List.mem_cons, List.not_mem_nil, or_false, not_or]
      exact ⟨steps, children, item, expression, text⟩
    simpa [isReserved] using others

end Parts

mutual

theorem readable_readStepItem (path found : String) : (item : Value) →
    ∀ s ∈ (readStepItem path found item).value, Readable item.depth s
  | .tagged _ v => readable_readStepItem path found v
  | .mapping ((k, body) :: more) => by
    intro s hs
    rw [readStepItem] at hs
    split at hs
    · rename_i kind _
      have here : s ∈ (readStep (childPath path kind) kind body).value := by
        dsimp only at hs
        split at hs <;> exact hs
      refine (readable_readStep (childPath path kind) kind body s here).mono ?_
      simp only [Value.depth, depthOfEntries]
      omega
    · cases hs
  | .null | .bool _ | .int _ | .float _ | .string _ | .sequence _ | .mapping [] => nofun

theorem readable_readStep (path kind : String) : (body : Value) →
    ∀ s ∈ (readStep path kind body).value, Readable (body.depth + 1) s
  | .mapping es => by
    intro s hs
    rw [readStep] at hs
    split at hs
    · cases hs
    · rename_i checked
      have tag := isTag_of_not checked
      cases Option.some.inj hs
      exact readable_readBody path (.ofTag kind) es (.bare tag (by omega)) (by
        simp only [Value.depth]
        omega) (Nat.le_refl _)
  | .sequence _ | .tagged _ _ => by
    intro s hs
    rw [readStep] at hs
    split at hs <;> cases hs
  | .null => by
    intro s hs
    rw [readStep] at hs
    split at hs
    · cases hs
    · rename_i checked
      cases Option.some.inj hs
      exact .bare (isTag_of_not checked) (by omega)
  | .bool _ | .int _ | .float _ | .string _ => by
    intro s hs
    simp only [readStep] at hs
    split at hs
    · cases hs
    · rename_i checked
      cases Option.some.inj hs
      exact readable_textStep _ (isTag_of_not checked)

theorem readable_readBody (path : String) (role : Role) {n : Nat} :
    (es : List (Value × Value)) → {step : Step} → Readable (n + 1) step → 0 < n →
      depthOfEntries es + 1 ≤ n → Readable (n + 1) (readBody path role step es).value
  | [], _, h, _, _ => h
  | (k, v) :: rest, step, h, pos, deep => by
    rw [depthOfEntries] at deep
    have others : ∀ {s : Step}, Readable (n + 1) s →
        Readable (n + 1) (readBody path role s rest).value :=
      fun hs => readable_readBody path role rest hs pos (by omega)
    rw [readBody]
    split
    · exact others h
    · rename_i key _
      simp only
      split
      · have nested := readable_readNested (childPath path key) v.describe role.isContainer h pos v
          (by omega)
        split <;> exact others nested
      · exact others (readable_readWrapper h (by omega) v)
      · exact others h.withText
      · exact others h
      · exact others (h.withExpression (valid_readExpression _ _ _) (by omega))
      · rename_i rule
        exact others (readable_readChild path key v h (unreserved_of_rule (.inr rule)) pos
          (by omega))
      · rename_i rule
        exact others (readable_readChild path key v h (unreserved_of_rule (.inl rule)) pos
          (by omega))

theorem readable_readNested (path found : String) (container : Bool) {n : Nat} {step : Step}
    (h : Readable (n + 1) step) (pos : 0 < n) : (v : Value) → v.depth ≤ n →
      Readable (n + 1) (readNested path found container step v).value
  | .tagged _ v, deep => readable_readNested path found container h pos v deep
  | .sequence items, deep => by
    rw [readNested]
    exact readable_readNestedItems path container 0 items h pos (by
      simp only [Value.depth] at deep
      omega)
  | .null, _ | .bool _, _ | .int _, _ | .float _, _ | .string _, _ | .mapping _, _ => h

theorem readable_readNestedItems (path : String) (container : Bool) {n : Nat} (index : Nat) :
    (items : List Value) → {step : Step} → Readable (n + 1) step → 0 < n →
      depthOfItems items ≤ n →
      Readable (n + 1) (readNestedItems path container index step items).value
  | [], _, h, _, _ => h
  | item :: rest, step, h, pos, deep => by
    rw [depthOfItems] at deep
    rw [readNestedItems]
    split
    · rename_i s collapsed
      split at collapsed
      · exact readable_readNestedItems path container (index + 1) rest
          (readable_collapse? h (by omega) collapsed) pos (by omega)
      · contradiction
    · have nested := readable_readStepItem (indexPath path index) item.describe item
      exact readable_readNestedItems path container (index + 1) rest
        (h.pushNested fun s hs => (nested s hs).mono (by omega)) pos (by omega)

theorem readable_readChild (path key : String) {n : Nat} {step : Step} : (v : Value) →
    Readable (n + 1) step → isReserved key = false → 0 < n → v.depth + 1 ≤ n →
      Readable (n + 1) (readChild path key step v).value
  | .sequence items, h, unreserved, pos, deep => by
    rw [readChild]
    split
    · exact h
    · rename_i valid
      exact readable_readChildItems (childPath path key) key items h
        ⟨by simpa using valid, unreserved⟩ pos (by
          simp only [Value.depth] at deep
          omega)
  | .mapping es, h, unreserved, pos, deep => by
    rw [readChild]
    split
    · exact h
    · rename_i valid
      have tag : IsTag key := ⟨by simpa using valid, unreserved⟩
      have child := readable_readBody (childPath path key) (.ofTag key) (n := depthOfEntries es + 1)
        es (.bare tag (by omega)) (by omega) (by omega)
      exact h.pushChild tag (child.mono (by
        simp only [Value.depth] at deep
        omega))
  | .null, h, unreserved, pos, _ => by
    rw [readChild]
    split
    · exact h
    · rename_i valid
      have tag : IsTag key := ⟨by simpa using valid, unreserved⟩
      exact h.pushChild tag (.bare tag (by omega))
  | .bool b, h, unreserved, pos, _ | .int _, h, unreserved, pos, _
  | .float _, h, unreserved, pos, _ | .string _, h, unreserved, pos, _
  | .tagged _ _, h, unreserved, pos, _ => by
    simp only [readChild]
    split
    · exact h
    · rename_i valid
      exact readable_readTextField h ⟨by simpa using valid, unreserved⟩ (by omega) _

theorem readable_readChildItems (path key : String) {n : Nat} : (items : List Value) →
    {step : Step} → Readable (n + 1) step → IsTag key → 0 < n → depthOfItems items + 2 ≤ n →
      Readable (n + 1) (readChildItems path key step items).value
  | [], _, h, _, _, _ => h
  | .null :: rest, _, h, tag, pos, deep => by
    rw [depthOfItems] at deep
    rw [readChildItems]
    exact readable_readChildItems path key rest (h.pushChild tag (.bare tag (by omega))) tag pos
      (by omega)
  | .mapping es :: rest, _, h, tag, pos, deep => by
    simp only [depthOfItems, Value.depth] at deep
    rw [readChildItems]
    have child := readable_readBody path (.ofTag key) (n := depthOfEntries es + 1)
      es (.bare tag (by omega)) (by omega) (by omega)
    exact readable_readChildItems path key rest (h.pushChild tag (child.mono (by omega))) tag pos
      (by omega)
  | .sequence _ :: rest, _, h, tag, pos, deep | .tagged _ _ :: rest, _, h, tag, pos, deep
  | .bool _ :: rest, _, h, tag, pos, deep | .int _ :: rest, _, h, tag, pos, deep
  | .float _ :: rest, _, h, tag, pos, deep | .string _ :: rest, _, h, tag, pos, deep => by
    rw [depthOfItems] at deep
    simp only [readChildItems, Noted.value_bind]
    exact readable_readChildItems path key rest (readable_readTextChild h tag (by omega) _) tag pos
      (by omega)

end
end RouteNotation.Dsl
