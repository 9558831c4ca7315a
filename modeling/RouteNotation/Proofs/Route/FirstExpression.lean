import RouteNotation.Diagnostic
import RouteNotation.Proofs.OrderedMap
import RouteNotation.Route.Step

/-!
Steps that are read from parts of which several carry an expression. The first of them is the
expression of the step, and the later ones leave what their rule says. Main statement:
`Settles.bind`, from which a run follows from its parts.
-/

namespace RouteNotation

/-- Whether `t` is `s` with nothing but more children, another text or another attribute under a
key. -/
structure Step.Grows (key : String) (s t : Step) : Prop where
  kind : t.kind = s.kind
  expression : t.expression = s.expression
  keys : s.attributes.keys ⊆ t.attributes.keys
  others : ∀ j ≠ key, t.attributes.get? j = s.attributes.get? j
  text : key ≠ "text" → t.text = s.text
  slots : s.slots <+: t.slots

namespace Step.Grows
variable {key : String} {s t u : Step}

theorem refl (key : String) (s : Step) : s.Grows key s :=
  ⟨rfl, rfl, List.Subset.refl _, fun _ _ => rfl, fun _ => rfl, List.prefix_refl _⟩

theorem trans (first : s.Grows key t) (rest : t.Grows key u) : s.Grows key u :=
  ⟨rest.kind.trans first.kind, rest.expression.trans first.expression,
    List.Subset.trans first.keys rest.keys,
    fun j other => (rest.others j other).trans (first.others j other),
    fun other => (rest.text other).trans (first.text other), first.slots.trans rest.slots⟩

theorem push (key : String) (s : Step) (slot : Slot) : s.Grows key (s.push slot) :=
  ⟨rfl, rfl, List.Subset.refl _, fun _ _ => rfl, fun _ => rfl, List.prefix_append _ _⟩

theorem pushElement (key : String) (s : Step) (child : Option Step) :
    s.Grows key (s.pushElement child) := by
  cases child with
  | none => exact refl key s
  | some c => exact push key s _

theorem pushNested (key : String) (s : Step) (child : Option Step) :
    s.Grows key (s.pushNested child) := by
  cases child with
  | none => exact refl key s
  | some c => exact push key s _

theorem withAttribute (s : Step) (key text : String) :
    s.Grows key (s.withAttributes (s.attributes.insert key text)) :=
  ⟨rfl, rfl, fun _ mem => OrderedMap.mem_keys_insert.2 (.inl mem),
    fun _ other => (OrderedMap.get?_insert ..).trans (if_neg other), fun _ => rfl,
    List.prefix_refl _⟩

theorem withText (s : Step) (text : Option String) : s.Grows "text" (s.withText text) :=
  ⟨rfl, rfl, List.Subset.refl _, fun _ _ => rfl, fun other => absurd rfl other,
    List.prefix_refl _⟩

end Step.Grows

/-- What becomes of a part that carries an expression, when it is the first and when it is not. -/
structure ExpressionRule (α : Type) where
  expression : α → Expression
  notes : α → List Diagnostic
  lateAttributes : α → List String
  lateChildren : α → List Slot
  lateNotes : α → List Diagnostic

namespace ExpressionRule
variable {α : Type}

/-- Those that come too late for a step that has an expression or has none yet. -/
def late (has : Bool) (as : List α) : List α := if has then as else as.tail

theorem late_append (has : Bool) (as bs : List α) :
    late has (as ++ bs) = late has as ++ late (has || !as.isEmpty) bs := by
  cases has <;> cases as <;> simp [late]

/-- All that is noted about them. -/
def allNotes (rule : ExpressionRule α) (has : Bool) (as : List α) : List Diagnostic :=
  (if has then [] else as.head?.toList.flatMap rule.notes) ++ (late has as).flatMap rule.lateNotes

theorem allNotes_append (rule : ExpressionRule α) (has : Bool) (as bs : List α) :
    rule.allNotes has (as ++ bs) =
      rule.allNotes has as ++ rule.allNotes (has || !as.isEmpty) bs := by
  cases has <;> cases as <;> simp [allNotes, late]

end ExpressionRule

/-- Whether `r` is what reading adds to `s` where it meets the expressions in `as`; the other parts
note `others`. -/
structure Settles {α : Type} (rule : ExpressionRule α) (s : Step) (as : List α)
    (others : List Diagnostic) (r : Noted Step) : Prop where
  kind : r.value.kind = s.kind
  expression : r.value.expression = s.expression.or (as.head?.map rule.expression)
  attributes : s.attributes.keys ++ (ExpressionRule.late s.expression.isSome as).flatMap
    rule.lateAttributes ⊆ r.value.attributes.keys
  slots : ∃ added, r.value.slots = s.slots ++ added ∧
    ((ExpressionRule.late s.expression.isSome as).flatMap rule.lateChildren).Sublist added
  notes : r.notes.Perm (rule.allNotes s.expression.isSome as ++ others)

namespace Settles
variable {α : Type} {rule : ExpressionRule α} {s : Step} {as bs : List α}
variable {others more : List Diagnostic} {r : Noted Step}

theorem nothing (s : Step) : Settles rule s [] [] (pure s) where
  kind := rfl
  expression := Option.or_none.symm
  attributes := by simp [ExpressionRule.late]
  slots := ⟨[], (List.append_nil _).symm, by simp [ExpressionRule.late]⟩
  notes := by simp [ExpressionRule.allNotes, ExpressionRule.late]

/-- A part without an expression. -/
theorem other {key : String} (grows : s.Grows key r.value) : Settles rule s [] r.notes r where
  kind := grows.kind
  expression := grows.expression.trans Option.or_none.symm
  attributes := by simpa [ExpressionRule.late] using grows.keys
  slots := by
    obtain ⟨added, same⟩ := grows.slots
    exact ⟨added, same.symm, by simp [ExpressionRule.late]⟩
  notes := by simp [ExpressionRule.allNotes, ExpressionRule.late]

/-- Without an expression everything that is noted is noted by the other parts. -/
theorem of_value {r' : Noted Step} (h : Settles rule s [] others r) (same : r'.value = r.value) :
    Settles rule s [] r'.notes r' where
  kind := same ▸ h.kind
  expression := same ▸ h.expression
  attributes := same ▸ h.attributes
  slots := same ▸ h.slots
  notes := by simp [ExpressionRule.allNotes, ExpressionRule.late]

/-- The first expression. -/
theorem first {a : α} (free : s.expression = none)
    (value : r.value = s.withExpression (rule.expression a))
    (notes : r.notes = rule.notes a) : Settles rule s [a] [] r where
  kind := by rw [value]; rfl
  expression := by rw [value, free]; rfl
  attributes := by
    rw [value]
    simp [free, ExpressionRule.late, Step.withExpression, Step.attributes]
  slots := ⟨[], by rw [value]; exact (List.append_nil _).symm, by simp [free, ExpressionRule.late]⟩
  notes := by simp [notes, free, ExpressionRule.allNotes, ExpressionRule.late]

/-- An expression where there is one already. -/
theorem late {a : α} {key : String} (taken : s.expression.isSome) (grows : s.Grows key r.value)
    (attributes : rule.lateAttributes a ⊆ r.value.attributes.keys) {added : List Slot}
    (slots : r.value.slots = s.slots ++ added) (kept : (rule.lateChildren a).Sublist added)
    (notes : r.notes = rule.lateNotes a) : Settles rule s [a] [] r where
  kind := grows.kind
  expression := by
    obtain ⟨e, found⟩ := Option.isSome_iff_exists.1 taken
    rw [grows.expression, found]
    rfl
  attributes := by
    have both := List.append_subset.2 ⟨grows.keys, attributes⟩
    simpa [taken, ExpressionRule.late] using both
  slots := ⟨added, slots, by simpa [taken, ExpressionRule.late] using kept⟩
  notes := by simp [notes, taken, ExpressionRule.allNotes, ExpressionRule.late]

theorem bind {x : Noted Step} {k : Step → Noted Step} (first : Settles rule s as others x)
    (rest : Settles rule x.value bs more (k x.value)) :
    Settles rule s (as ++ bs) (others ++ more) (x >>= k) := by
  have has : x.value.expression.isSome = (s.expression.isSome || !as.isEmpty) := by
    rw [first.expression]
    cases s.expression <;> cases as <;> rfl
  refine ⟨rest.kind.trans first.kind, ?_, ?_, ?_, ?_⟩
  · rw [Noted.value_bind, rest.expression, first.expression, Option.or_assoc, List.head?_append,
      Option.map_or]
  · have first' := first.attributes
    have rest' := rest.attributes
    rw [has] at rest'
    rw [ExpressionRule.late_append, List.flatMap_append, ← List.append_assoc]
    exact List.append_subset.2
      ⟨List.Subset.trans first' (List.append_subset.1 rest').1, (List.append_subset.1 rest').2⟩
  · obtain ⟨added, slots, kept⟩ := first.slots
    obtain ⟨added', slots', kept'⟩ := rest.slots
    refine ⟨added ++ added', ?_, ?_⟩
    · rw [Noted.value_bind, slots', slots, List.append_assoc]
    · rw [ExpressionRule.late_append, ← has, List.flatMap_append]
      exact kept.append kept'
  · rw [Noted.notes_bind, ExpressionRule.allNotes_append, ← has]
    refine (first.notes.append rest.notes).trans ?_
    rw [List.append_assoc, List.append_assoc]
    refine List.Perm.append_left _ ?_
    rw [← List.append_assoc, ← List.append_assoc]
    exact List.perm_append_comm.append_right _

/-- In a step that has no expression yet the first one is its expression, and each of the others
leaves what the rule says. -/
theorem first_wins {a : α} {later : List α} (h : Settles rule s (a :: later) others r)
    (free : s.expression = none) :
    r.value.expression = some (rule.expression a) ∧
      later.flatMap rule.lateAttributes ⊆ r.value.attributes.keys ∧
      (later.flatMap rule.lateChildren).Sublist r.value.slots ∧
      r.notes.Perm (rule.notes a ++ later.flatMap rule.lateNotes ++ others) := by
  obtain ⟨-, expression, attributes, ⟨added, slots, kept⟩, notes⟩ := h
  simp only [free, ExpressionRule.allNotes, ExpressionRule.late, Option.isSome_none,
    Bool.false_eq_true, if_false, List.tail_cons, List.head?_cons, Option.toList_some,
    List.flatMap_singleton] at expression attributes kept notes
  refine ⟨expression, (List.append_subset.1 attributes).2, ?_, notes⟩
  rw [slots]
  exact kept.trans (List.sublist_append_right _ _)

end Settles
end RouteNotation
