import RouteNotation.Route.Document

/-!
Steps whose children stand in groups: all that have one tag together, and all nested steps together.
Groups come in the order in which their tags first come; the order in a group is kept.
-/

namespace RouteNotation

/-- Keeping first places commutes with a function that tells the members apart. -/
theorem eraseDups_map {α β : Type} [BEq α] [LawfulBEq α] [BEq β] [LawfulBEq β] {f : α → β} :
    (as : List α) → (∀ a ∈ as, ∀ b ∈ as, f a = f b → a = b) →
      (as.map f).eraseDups = as.eraseDups.map f
  | [], _ => rfl
  | a :: as, inj => by
    have others : (as.map f).filter (fun b => !b == f a) = (as.filter fun b => !b == a).map f := by
      rw [List.filter_map]
      congr 1
      apply List.filter_congr
      intro b hb
      have iff : f b = f a ↔ b = a :=
        ⟨inj b (List.mem_cons_of_mem a hb) a List.mem_cons_self, congrArg f⟩
      rw [Bool.eq_iff_iff]
      simpa using not_congr iff
    have shorter : (as.filter fun b => !b == a).length < (a :: as).length :=
      Nat.lt_succ_of_le (List.length_filter_le _ _)
    rw [List.map_cons, List.eraseDups_cons, others, List.eraseDups_cons, List.map_cons,
      eraseDups_map (as.filter fun b => !b == a) fun b hb c hc =>
        inj b (List.mem_cons_of_mem a (List.mem_filter.1 hb).1) c
          (List.mem_cons_of_mem a (List.mem_filter.1 hc).1)]
termination_by as => as.length
decreasing_by exact shorter

/-- The tags of the slots, each at its first place; nested steps have none. -/
def slotTags (slots : List Slot) : List (Option String) := (slots.map Slot.tag?).eraseDups

/-- The slots under one tag, or the nested steps. -/
def slotsUnder (tag : Option String) (slots : List Slot) : List Slot :=
  slots.filter (·.tag? = tag)

def regroup (slots : List Slot) : List Slot := (slotTags slots).flatMap (slotsUnder · slots)

mutual

/-- The step with the slots grouped by tag, at every depth. -/
def Step.regrouped : Step → Step
  | ⟨kind, attributes, text, expression, slots⟩ =>
    ⟨kind, attributes, text, expression, regroup (regroupedSlots slots)⟩

def Slot.regrouped : Slot → Slot
  | .nested step => .nested step.regrouped
  | .text tag value => .text tag value
  | .element tag step => .element tag step.regrouped

def regroupedSlots : List Slot → List Slot
  | [] => []
  | slot :: rest => slot.regrouped :: regroupedSlots rest

end

def Route.regrouped (route : Route) : Route :=
  { route with steps := route.steps.map Step.regrouped }

def Document.regrouped (d : Document) : Document :=
  { d with routes := d.routes.map Route.regrouped }

theorem regroupedSlots_eq_map (slots : List Slot) :
    regroupedSlots slots = slots.map Slot.regrouped := by
  induction slots with
  | nil => rfl
  | cons slot rest ih => rw [regroupedSlots, ih, List.map_cons]

theorem tag?_regrouped (slot : Slot) : slot.regrouped.tag? = slot.tag? := by
  cases slot <;> rw [Slot.regrouped] <;> rfl

/-- Grouping looks at tags only. -/
theorem regroup_regroupedSlots (slots : List Slot) :
    regroup (regroupedSlots slots) =
      (slotTags slots).flatMap fun tag => (slotsUnder tag slots).map Slot.regrouped := by
  have tags : Slot.tag? ∘ Slot.regrouped = Slot.tag? := funext tag?_regrouped
  have under : ∀ tag, slotsUnder tag (slots.map Slot.regrouped) =
      (slotsUnder tag slots).map Slot.regrouped := by
    intro tag
    simp only [slotsUnder, List.filter_map]
    congr 1
    apply List.filter_congr
    intro slot _
    simp [tag?_regrouped]
  simp only [regroup, regroupedSlots_eq_map, slotTags, List.map_map, tags, under]

theorem mem_slotTags {tag : Option String} {slots : List Slot} :
    tag ∈ slotTags slots ↔ ∃ slot ∈ slots, slot.tag? = tag := by
  rw [slotTags, List.mem_eraseDups, List.mem_map]

theorem mem_slotsUnder {tag : Option String} {slot : Slot} {slots : List Slot} :
    slot ∈ slotsUnder tag slots ↔ slot ∈ slots ∧ slot.tag? = tag := by
  simp [slotsUnder]

/-- Slots that are each alone under their tag have different tags. -/
theorem nodup_tags_of_alone {slots : List Slot}
    (h : ∀ slot ∈ slots, slotsUnder slot.tag? slots = [slot]) : (slots.map Slot.tag?).Nodup := by
  rw [List.nodup_iff_count]
  intro tag
  by_cases known : tag ∈ slots.map Slot.tag?
  · obtain ⟨slot, hs, rfl⟩ := List.mem_map.1 known
    have under : slots.filter ((· == slot.tag?) ∘ Slot.tag?) = slotsUnder slot.tag? slots := by
      apply List.filter_congr
      intro other _
      rw [Bool.eq_iff_iff]
      simp
    rw [List.count_eq_countP, List.countP_map, List.countP_eq_length_filter, under, h slot hs]
    exact Nat.le_refl 1
  · rw [List.count_eq_zero.2 known]
    exact Nat.zero_le 1

end RouteNotation
