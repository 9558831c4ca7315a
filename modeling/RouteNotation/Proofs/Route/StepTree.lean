import RouteNotation.Proofs.Route.StepNames

/-!
All the steps in a step: itself first, then those below it in document order.
-/

namespace RouteNotation

mutual

def Step.subtree : Step → List Step
  | ⟨kind, attributes, text, expression, slots⟩ =>
    ⟨kind, attributes, text, expression, slots⟩ :: slotsSubtree slots

def slotsSubtree : List Slot → List Step
  | [] => []
  | .nested step :: rest | .element _ step :: rest => step.subtree ++ slotsSubtree rest
  | .text _ _ :: rest => slotsSubtree rest

end

theorem slotsSubtree_append (ss ts : List Slot) :
    slotsSubtree (ss ++ ts) = slotsSubtree ss ++ slotsSubtree ts := by
  induction ss with
  | nil => rfl
  | cons slot ss ih => cases slot <;> simp [slotsSubtree, ih]

theorem Step.mem_subtree (s : Step) : s ∈ s.subtree := by
  obtain ⟨_, _, _, _, _⟩ := s
  exact List.mem_cons_self

variable {tag key : String → Prop}

mutual

/-- What holds of all names in a step holds of all names in the steps below it. -/
theorem Step.Names.of_mem_subtree : {s : Step} → s.Names tag key →
    ∀ t ∈ s.subtree, t.Names tag key
  | ⟨_, _, _, _, _⟩, h => by
    rw [Step.subtree, List.forall_mem_cons]
    exact ⟨h, SlotsNames.of_mem_subtree h.2.2.2⟩

theorem SlotsNames.of_mem_subtree : {ss : List Slot} → SlotsNames tag key ss →
    ∀ t ∈ slotsSubtree ss, t.Names tag key
  | [], _ => nofun
  | .nested _ :: _, h =>
    List.forall_mem_append.2 ⟨h.1.of_mem_subtree, SlotsNames.of_mem_subtree h.2⟩
  | .element _ _ :: _, h =>
    List.forall_mem_append.2 ⟨h.2.1.of_mem_subtree, SlotsNames.of_mem_subtree h.2.2⟩
  | .text _ _ :: rest, h => by
    rw [slotsSubtree]
    exact SlotsNames.of_mem_subtree h.2

end
end RouteNotation
