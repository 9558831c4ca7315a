import RouteNotation.Proofs.Route.StepNames

/-!
Steps with names that any notation can write, and a bound on how deep they nest. Each way to make a
step larger has its lemma.
-/

namespace RouteNotation

mutual

/-- How many steps stand in one another; texts and expressions below a step count as one more. -/
def Step.depth : Step → Nat
  | ⟨_, _, _, expression, slots⟩ => max expression.toList.length (depthOfSlots slots) + 1

def depthOfSlots : List Slot → Nat
  | [] => 0
  | .nested step :: rest => max step.depth (depthOfSlots rest)
  | .text _ _ :: rest => max 1 (depthOfSlots rest)
  | .element _ step :: rest => max step.depth (depthOfSlots rest)

end

theorem depthOfSlots_append (ss ts : List Slot) :
    depthOfSlots (ss ++ ts) = max (depthOfSlots ss) (depthOfSlots ts) := by
  induction ss with
  | nil => simp [depthOfSlots]
  | cons s ss ih =>
    cases s <;> simp only [List.cons_append, depthOfSlots, ih] <;> omega

/-- A step whose tags pass `tag` and whose attribute keys pass `key`, at most `n` deep. -/
def Step.Within (tag key : String → Prop) (n : Nat) (s : Step) : Prop :=
  s.Names tag key ∧ s.depth ≤ n

namespace Step.Within
variable {tag key : String → Prop} {n : Nat} {s : Step}

theorem mono {m : Nat} (h : s.Within tag key n) (le : n ≤ m) : s.Within tag key m :=
  ⟨h.1, Nat.le_trans h.2 le⟩

theorem bare {kind : String} (h : tag kind) (pos : 0 < n) : (Step.bare kind).Within tag key n := by
  refine ⟨⟨h, nofun, nofun, trivial⟩, ?_⟩
  simp only [Step.bare, depth, depthOfSlots, Option.toList_none, List.length_nil]
  omega

theorem withAttributes {attributes : Attributes} (h : s.Within tag key n)
    (keys : ∀ k ∈ attributes.keys, key k) : (s.withAttributes attributes).Within tag key n := by
  obtain ⟨_, _, _, _, _⟩ := s
  exact ⟨⟨h.1.1, keys, h.1.2.2⟩, h.2⟩

theorem withText {text : Option String} (h : s.Within tag key n) :
    (s.withText text).Within tag key n := by
  obtain ⟨_, _, _, _, _⟩ := s
  exact h

theorem withExpression {e : Expression} (h : s.Within tag key n)
    (keys : ∀ k ∈ e.attributes.keys, key k) (room : 1 < n) :
    (s.withExpression e).Within tag key n := by
  obtain ⟨names, depth⟩ := h
  refine ⟨names.withExpression keys, ?_⟩
  obtain ⟨kind, attributes, text, expression, slots⟩ := s
  simp only [Step.depth] at depth
  simp only [Step.withExpression, Step.depth, Step.slots, Option.toList_some, List.length_singleton]
  omega

theorem push {slot : Slot} (h : s.Within tag key n) (names : SlotsNames tag key [slot])
    (depth : depthOfSlots [slot] + 1 ≤ n) : (s.push slot).Within tag key n := by
  obtain ⟨before, own⟩ := h
  refine ⟨before.push names, ?_⟩
  obtain ⟨kind, attributes, text, expression, slots⟩ := s
  simp only [Step.depth] at own
  simp only [Step.push, Step.depth, Step.slots, Step.expression, depthOfSlots_append]
  omega

theorem pushText {t value : String} (h : s.Within tag key n) (ok : tag t) (room : 1 < n) :
    (s.push (.text t value)).Within tag key n := by
  refine h.push ⟨ok, trivial⟩ ?_
  simp only [depthOfSlots]
  omega

theorem pushChild {t : String} {child : Step} (h : s.Within tag key (n + 1)) (ok : tag t)
    (inner : child.Within tag key n) : (s.push (.element t child)).Within tag key (n + 1) := by
  refine h.push ⟨ok, inner.1, trivial⟩ ?_
  have := inner.2
  simp only [depthOfSlots]
  omega

theorem pushNested {child : Option Step} (h : s.Within tag key (n + 1))
    (inner : ∀ c ∈ child, c.Within tag key n) : (s.pushNested child).Within tag key (n + 1) := by
  cases child with
  | none => exact h
  | some c =>
    have ok := inner c rfl
    refine h.push ⟨ok.1, trivial⟩ ?_
    have := ok.2
    simp only [depthOfSlots]
    omega

end Step.Within
end RouteNotation
