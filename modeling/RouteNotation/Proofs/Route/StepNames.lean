import RouteNotation.Route.Step

/-!
What can be said of a step without a notation: whether it is a text alone, and conditions on all the
names in it, which are the kinds and tags at every depth and the keys of attributes.
-/

namespace RouteNotation

/-- A text and nothing else. -/
def isTextStep (s : Step) : Bool :=
  s.attributes.isEmpty && s.text.isSome && s.expression.isNone && s.slots.isEmpty

mutual

/-- Every kind and every tag in the step passes `tag`, and every attribute key passes `key`. -/
def Step.Names (tag key : String → Prop) : Step → Prop
  | ⟨kind, attributes, _, expression, slots⟩ =>
    tag kind ∧ (∀ k ∈ attributes.keys, key k) ∧
      (∀ e ∈ expression, ∀ k ∈ e.attributes.keys, key k) ∧ SlotsNames tag key slots

def SlotsNames (tag key : String → Prop) : List Slot → Prop
  | [] => True
  | .nested step :: rest => step.Names tag key ∧ SlotsNames tag key rest
  | .text t _ :: rest => tag t ∧ SlotsNames tag key rest
  | .element t step :: rest => tag t ∧ step.Names tag key ∧ SlotsNames tag key rest

end

variable {tag key tag' key' : String → Prop}

mutual

theorem Step.Names.mono (ht : ∀ t, tag t → tag' t) (hk : ∀ k, key k → key' k) :
    {s : Step} → s.Names tag key → s.Names tag' key'
  | ⟨_, _, _, _, _⟩, ⟨kind, keys, expression, slots⟩ =>
    ⟨ht _ kind, fun k h => hk k (keys k h), fun e he k h => hk k (expression e he k h),
      SlotsNames.mono ht hk slots⟩

theorem SlotsNames.mono (ht : ∀ t, tag t → tag' t) (hk : ∀ k, key k → key' k) :
    {ss : List Slot} → SlotsNames tag key ss → SlotsNames tag' key' ss
  | [], _ => trivial
  | .nested _ :: _, ⟨step, rest⟩ => ⟨step.mono ht hk, rest.mono ht hk⟩
  | .text _ _ :: _, ⟨t, rest⟩ => ⟨ht _ t, rest.mono ht hk⟩
  | .element _ _ :: _, ⟨t, step, rest⟩ => ⟨ht _ t, step.mono ht hk, rest.mono ht hk⟩

end

theorem slotsNames_append {ss ts : List Slot} :
    SlotsNames tag key (ss ++ ts) ↔ SlotsNames tag key ss ∧ SlotsNames tag key ts := by
  induction ss with
  | nil => simp [SlotsNames]
  | cons s ss ih => cases s <;> simp [SlotsNames, ih, and_assoc]

namespace Step.Names
variable {s : Step}

theorem kind (h : s.Names tag key) : tag s.kind := by
  obtain ⟨_, _, _, _, _⟩ := s
  exact h.1

theorem keys (h : s.Names tag key) : ∀ k ∈ s.attributes.keys, key k := by
  obtain ⟨_, _, _, _, _⟩ := s
  exact h.2.1

theorem withExpression {e : Expression} (h : s.Names tag key)
    (keys : ∀ k ∈ e.attributes.keys, key k) : (s.withExpression e).Names tag key := by
  obtain ⟨_, _, _, _, _⟩ := s
  refine ⟨h.1, h.2.1, ?_, h.2.2.2⟩
  rintro f ⟨⟩
  exact keys

theorem push {slot : Slot} (h : s.Names tag key) (last : SlotsNames tag key [slot]) :
    (s.push slot).Names tag key := by
  obtain ⟨_, _, _, _, _⟩ := s
  exact ⟨h.1, h.2.1, h.2.2.1, slotsNames_append.2 ⟨h.2.2.2, last⟩⟩

theorem pushElement {child : Option Step} (h : s.Names tag key)
    (inner : ∀ c ∈ child, c.Names tag key) : (s.pushElement child).Names tag key := by
  cases child with
  | none => exact h
  | some c => exact h.push ⟨(inner c rfl).kind, inner c rfl, trivial⟩

theorem pushNested {child : Option Step} (h : s.Names tag key)
    (inner : ∀ c ∈ child, c.Names tag key) : (s.pushNested child).Names tag key := by
  cases child with
  | none => exact h
  | some c => exact h.push ⟨inner c rfl, trivial⟩

end Step.Names

end RouteNotation
