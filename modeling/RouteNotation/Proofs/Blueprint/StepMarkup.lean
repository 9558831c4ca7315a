import RouteNotation.Blueprint.StepPrinter
import RouteNotation.Proofs.Route.StepNames
import RouteNotation.Proofs.Xml.Unwrapping

/-!
Steps as markup, said without wrappers: after the text and the expression comes one element for each
child, in order. Main statement: taking the wrappers out of what is printed gives just that.
-/

namespace RouteNotation.Blueprint

open Xml

mutual

/-- The element of a step, with one element for each child. -/
def plainElement : Step → Element
  | ⟨kind, attributes, text, expression, slots⟩ =>
    ⟨kind, attributes, text.toList.map .text ++
      ((expression.map expressionElement).toList ++ plainSlots slots).map .element⟩

def plainSlots : List Slot → List Element
  | [] => []
  | .nested step :: rest => plainElement step :: plainSlots rest
  | .text tag value :: rest => .ofText tag .empty value :: plainSlots rest
  | .element _ step :: rest => plainElement step :: plainSlots rest

end

/-- A name that no wrapper has. -/
def NoWrapper (tag : String) : Prop := tag ∉ [stepsTag, childrenTag, itemTag]

instance (tag : String) : Decidable (NoWrapper tag) := inferInstanceAs (Decidable (_ ∉ _))

theorem noWrapper_of_unreserved {tag : String} (h : isReserved tag = false) : NoWrapper tag := by
  intro wrapper
  have reserved : isReserved tag := by
    simp only [List.mem_cons, List.not_mem_nil, or_false] at wrapper
    rcases wrapper with rfl | rfl | rfl <;> decide
  rw [h] at reserved
  cases reserved

section Runs
variable {κ α : Type} [DecidableEq κ]

/-- Putting values into runs moves none. -/
theorem flatMap_runs (xs : List (κ × α)) :
    ((runs xs).flatMap fun run => run.2.map fun a => (run.1, a)) = xs := by
  induction xs with
  | nil => rfl
  | cons x xs ih =>
    obtain ⟨k, a⟩ := x
    unfold runs
    split
    · rename_i none
      rw [none] at ih
      simp [← ih]
    · rename_i k' as more some
      rw [some] at ih
      split
      · rename_i same
        subst same
        simpa using ih
      · simpa using ih

theorem mem_of_mem_runs {xs : List (κ × α)} {run : κ × List α} {a : α} (hr : run ∈ runs xs)
    (ha : a ∈ run.2) : (run.1, a) ∈ xs := by
  rw [← flatMap_runs xs]
  exact List.mem_flatMap.2 ⟨run, hr, List.mem_map.2 ⟨a, ha, rfl⟩⟩

end Runs

/-- The elements of a run stand in order where the run stood. -/
theorem unwrapContents_runElement {run : Option String × List Element} {rest : List Content}
    (h : ∀ e ∈ run.2, e.isWrapper = false) :
    unwrapContents (.element (runElement run) :: rest) =
      run.2.map (fun e => .element e.unwrap) ++ unwrapContents rest := by
  obtain ⟨key, es⟩ := run
  cases key with
  | none =>
    unfold runElement
    rw [unwrapContents_wrapper (by simp), unwrapContents_map h]
  | some tag =>
    unfold runElement
    split
    · rename_i steps same
      cases same
    · rename_i child same
      cases same
      rw [unwrapContents_element (h child (by simp))]
      rfl
    · rename_i children _ same
      cases same
      rw [unwrapContents_wrapper (by simp), unwrapContents_map h]

theorem unwrapContents_runs {xs : List (Option String × Element)}
    (h : ∀ x ∈ xs, x.2.isWrapper = false) :
    unwrapContents ((runs xs).map fun run => .element (runElement run)) =
      xs.map fun x => .element x.2.unwrap := by
  have each : ∀ rs : List (Option String × List Element),
      (∀ run ∈ rs, ∀ e ∈ run.2, e.isWrapper = false) →
      unwrapContents (rs.map fun run => .element (runElement run)) =
        (rs.flatMap fun run => run.2.map fun e => (run.1, e)).map fun x => .element x.2.unwrap := by
    intro rs
    induction rs with
    | nil => intro _; rfl
    | cons run rs ih =>
      intro hr
      simp only [List.mem_cons, forall_eq_or_imp] at hr
      rw [List.map_cons, unwrapContents_runElement hr.1, ih hr.2]
      simp
  rw [each (runs xs) fun run hr e he => h _ (mem_of_mem_runs hr he), flatMap_runs]

theorem name_stepElement (s : Step) : (stepElement s).name = s.kind := by
  obtain ⟨_, _, _, _, _⟩ := s
  rw [stepElement]
  rfl

theorem isWrapper_expressionElement (e : Expression) : (expressionElement e).isWrapper = false := by
  apply isWrapper_eq_false_of_name
  change e.language.tag ∉ _
  cases e.language <;> decide

@[simp] theorem unwrap_expressionElement (e : Expression) :
    (expressionElement e).unwrap = expressionElement e := by
  simp [expressionElement, Element.unwrap, unwrapContents_texts]

mutual

theorem unwrap_stepElement {key : String → Prop} : {s : Step} → s.Names NoWrapper key →
    (stepElement s).unwrap = plainElement s
  | ⟨kind, attributes, text, expression, slots⟩, ⟨_, _, _, named⟩ => by
    have slots := slotElements_unwrap named
    have expressions : ∀ e ∈ (expression.map expressionElement).toList, e.isWrapper = false := by
      cases expression with
      | none => nofun
      | some e => simp [isWrapper_expressionElement]
    rw [stepElement, Element.unwrap, plainElement, unwrapContents_append, unwrapContents_append,
      unwrapContents_texts, unwrapContents_map expressions,
      unwrapContents_runs fun x hx => (slots.1 x hx)]
    have same := slots.2
    cases expression <;> simp [← same, Function.comp_def]

theorem slotElements_unwrap {key : String → Prop} : {ss : List Slot} →
    SlotsNames NoWrapper key ss → (∀ x ∈ slotElements ss, x.2.isWrapper = false) ∧
      (slotElements ss).map (fun x => x.2.unwrap) = plainSlots ss
  | [], _ => ⟨nofun, rfl⟩
  | .nested step :: rest, ⟨here, named⟩ | .element _ step :: rest, ⟨_, here, named⟩ => by
    have others := slotElements_unwrap named
    have kept := isWrapper_eq_false_of_name (e := stepElement step)
      (by rw [name_stepElement]; exact here.kind)
    simp only [slotElements, plainSlots, List.mem_cons, forall_eq_or_imp, List.map_cons,
      unwrap_stepElement here, others.2]
    exact ⟨⟨kept, others.1⟩, trivial⟩
  | .text tag value :: rest, ⟨here, named⟩ => by
    have others := slotElements_unwrap named
    have kept := isWrapper_eq_false_of_name (e := .ofText tag .empty value) here
    simp only [slotElements, plainSlots, List.mem_cons, forall_eq_or_imp, List.map_cons,
      unwrap_ofText, others.2]
    exact ⟨⟨kept, others.1⟩, trivial⟩

end

/-- The element of one child. -/
def plainSlot : Slot → Element
  | .nested step | .element _ step => plainElement step
  | .text tag value => .ofText tag .empty value

theorem plainSlots_eq_map (ss : List Slot) : plainSlots ss = ss.map plainSlot := by
  induction ss with
  | nil => rfl
  | cons slot ss ih => cases slot <;> rw [plainSlots, ih] <;> rfl

/-- Grouping children and taking the groups out again loses, repeats and moves no child. -/
theorem unwrap_stepElement_inOrder {s : Step} (h : s.Names NoWrapper fun _ => True) :
    (stepElement s).unwrap = plainElement s ∧
      plainElement s = ⟨s.kind, s.attributes, s.text.toList.map .text ++
        (s.expression.toList.map expressionElement ++ s.slots.map plainSlot).map .element⟩ := by
  refine ⟨unwrap_stepElement h, ?_⟩
  obtain ⟨kind, attributes, text, expression, slots⟩ := s
  rw [plainElement, plainSlots_eq_map]
  cases expression <;> rfl

/-- Two runs of nested steps with a run of one tag and a lone child between them. -/
def interleavedStep : Step :=
  ⟨"choice", .ofList [("id", "c")], some "routing", some (.ofText .simple "${body}"),
    [.nested (.bare "log"), .nested ⟨"split", .empty, none, none,
        [.text "script" "a", .text "script" "b", .nested (.bare "stop")]⟩,
      .element "when" (.bare "when"), .text "when" "x", .element "when" (.bare "when"),
      .text "note" "y", .nested (.bare "to")]⟩

theorem unwrap_stepElement_interleavedStep :
    interleavedStep.Names NoWrapper (fun _ => True) ∧
      (stepElement interleavedStep).unwrap = plainElement interleavedStep ∧
      (stepElement interleavedStep).elements.map Element.name =
        ["simple", "steps", "children", "note", "steps"] ∧
      (stepElement interleavedStep).unwrap.elements.map Element.name =
        ["simple", "log", "split", "when", "when", "when", "note", "to"] := by
  have named : interleavedStep.Names NoWrapper fun _ => True := by
    simp [interleavedStep, Step.Names, SlotsNames, Step.bare, NoWrapper, stepsTag, childrenTag,
      itemTag]
  exact ⟨named, (unwrap_stepElement_inOrder named).1, by decide, by decide⟩

end RouteNotation.Blueprint
