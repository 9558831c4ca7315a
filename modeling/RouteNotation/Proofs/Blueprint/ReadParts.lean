import RouteNotation.Proofs.Blueprint.StepStability
import RouteNotation.Proofs.Route.StepParts
import RouteNotation.Proofs.Route.Tags
import RouteNotation.Proofs.Xml.ElementTree

/-!
What a step has of the elements it is read from. If nothing was noted, every element is one part of
the step and no part comes from anywhere else: `parts_readStep`. So of the texts just those are lost
that stand beside elements: `readStep_texts`.
-/

namespace RouteNotation

namespace Xml

/-- The part that an element is of a step. -/
def Element.part (e : Element) : Part := ⟨e.localName, e.attributes, e.leafText?⟩

end Xml

namespace Blueprint

open Xml

section Rules
variable {kind : String} {has : Bool} {e : Element}

theorem role_of_rule {l : Language} (h : ChildRule.of kind has e = .expression l) :
    has = false ∧ Role.ofTag e.localName = .expression l := by
  unfold ChildRule.of at h
  grind

theorem textOnly_of_rule {value : String} (h : ChildRule.of kind has e = .text value) :
    e.isTextOnly ∧ value = e.text?.getD "" := by
  unfold ChildRule.of at h
  grind

theorem part_of_textOnly (h : e.isTextOnly) :
    e.part = ⟨e.localName, .empty, some (e.text?.getD "")⟩ ∧ e.descendants = [] := by
  simp only [Element.isTextOnly, Bool.and_eq_true, Bool.not_eq_true', OrderedMap.isEmpty] at h
  obtain ⟨⟨none, leaf⟩, some⟩ := h
  have attributes : e.attributes = .empty := OrderedMap.ext (List.isEmpty_iff.1 none)
  obtain ⟨t, text⟩ := Option.isSome_iff_exists.1 some
  exact ⟨by simp [Element.part, Element.leafText?, attributes, leaf, text],
    Element.descendants_eq_nil leaf⟩

end Rules

theorem part_of_readExpression {path : String} {l : Language} {e : Element} {x : Expression}
    (role : Role.ofTag e.localName = .expression l) (h : readExpression path l e = pure x) :
    x.part = e.part ∧ e.descendants = [] := by
  rw [readExpression] at h
  split at h
  · exact absurd h Noted.unknownShape_bind_ne_pure
  · rename_i leaf
    rw [Noted.bind_eq_pure] at h
    obtain ⟨attributes, last⟩ := h
    rw [(readAttributes_eq_pure attributes).1] at last
    obtain rfl : (⟨l, e.text?, e.attributes⟩ : Expression) = x := congrArg Noted.value last
    refine ⟨?_, Element.descendants_eq_nil (Bool.eq_false_iff.2 leaf)⟩
    simp only [Expression.part, Element.part, Element.leafText?, if_neg leaf,
      Language.tag_of_role role]

theorem readStep_ne_none {path : String} {e : Element} : readStep path e ≠ pure none := by
  obtain ⟨name, attributes, children⟩ := e
  intro h
  rw [readStep] at h
  split at h
  · exact absurd h Noted.unknownShape_bind_ne_pure
  · cases congrArg Noted.value h

/-- A child that is read as a step with nothing noted gives its parts to the step. -/
theorem parts_of_child {path : String} {step s : Step} {push : Option Step → Step} {e : Element}
    {k : Step → Noted Step}
    (parts : ∀ c, (push c).parts = step.parts ++ c.toList.flatMap Step.parts)
    (below : ∀ {t}, readStep path e = pure (some t) → t.parts.Perm (e.subtree.map Element.part))
    (h : (readStep path e >>= fun c => k (push c)) = pure s) :
    ∃ next, next.parts.Perm (step.parts ++ e.subtree.map Element.part) ∧ k next = pure s := by
  rw [Noted.bind_eq_pure] at h
  obtain ⟨child, last⟩ := h
  rcases value : (readStep path e).value with _ | t
  · rw [value] at child
    exact absurd child readStep_ne_none
  · rw [value] at child last
    refine ⟨push (some t), ?_, last⟩
    rw [parts, Option.toList_some, List.flatMap_singleton]
    exact (below child).append_left _

mutual

/-- Where nothing is noted, the parts of a step are the elements it is read from. -/
theorem parts_readStep {path : String} : {e : Element} → {s : Step} →
    readStep path e = pure (some s) → s.parts.Perm (e.subtree.map Element.part)
  | ⟨name, attributes, children⟩, s, h => by
    obtain ⟨-, -, read⟩ := readStep_eq_pure h
    exact parts_readChildren read

theorem parts_readChildren {path : String} : {cs : List Content} → {step s : Step} →
    readChildren path step cs = pure s →
      s.parts.Perm (step.parts ++ (elementsWithin cs).map Element.part)
  | [], step, s, h => by
    rw [readChildren] at h
    cases congrArg Noted.value h
    simp [elementsWithin]
  | .text _ :: rest, step, s, h => by
    rw [readChildren] at h
    rw [elementsWithin]
    exact parts_readChildren h
  | .element e :: rest, step, s, h => by
    rw [elementsWithin_element, List.map_append, ← List.append_assoc]
    simp only [readChildren] at h
    let more (next : Step) : Noted Step := readChildren path next rest
    -- One case for each rule. A reserved tag and a late expression are always noted.
    split at h
    · exact absurd h Noted.unknownShape_bind_ne_pure
    · rename_i language rule
      obtain ⟨first, role⟩ := role_of_rule rule
      rw [Noted.bind_eq_pure] at h
      obtain ⟨part, below⟩ := part_of_readExpression role h.1
      have free : step.expression = none := by simpa using first
      have here := Step.parts_withExpression free
        (readExpression (childPath path e.localName) language e).value
      rw [part] at here
      rw [Element.subtree, below]
      exact (parts_readChildren h.2).trans (here.append_right _)
    · exact absurd h Noted.unknownShape_bind_ne_pure
    · rename_i value rule
      obtain ⟨only, rfl⟩ := textOnly_of_rule rule
      obtain ⟨part, below⟩ := part_of_textOnly only
      have read := parts_readChildren h
      rw [Step.parts_push] at read
      rwa [Element.subtree, below, List.map_singleton, part]
    · obtain ⟨next, parts, last⟩ :=
        parts_of_child (k := more) step.parts_pushElement parts_readStep h
      exact (parts_readChildren last).trans (parts.append_right _)
    · obtain ⟨next, parts, last⟩ :=
        parts_of_child (k := more) step.parts_pushNested parts_readStep h
      exact (parts_readChildren last).trans (parts.append_right _)

end

theorem exists_leafText {e : Element} {value : String} (member : .text value ∈ e.children)
    (some : ¬ Text.isBlankText value) (leaf : e.hasElements = false) :
    ∃ t, e.leafText? = Option.some t ∧ Text.StandsIn value t := by
  have within : value.toList <:+: e.characters.toList := by
    have mem : value ∈ e.children.filterMap Content.text? :=
      List.mem_filterMap.2 ⟨_, member, rfl⟩
    rw [Element.characters, String.toList_join, List.flatMap_def]
    exact List.infix_of_mem_flatten (List.mem_map_of_mem mem)
  have left : Text.trim e.characters ≠ "" := by
    rw [Text.trim, Ne, String.ofList_eq_empty_iff, Text.trimChars_eq_nil_iff]
    intro blank
    exact some (List.all_eq_true.2 fun c hc => blank c (within.mem hc))
  refine ⟨Text.trim e.characters, ?_, Text.standsIn_trim within⟩
  simp [Element.leafText?, leaf, Element.text?, left]

/-- The texts of a step that is read with nothing noted are those of the elements that hold no
element, one for one. Each text in such an element stands in one of them, unless it is blank; a text
beside elements is lost without a note. -/
theorem readStep_texts {path : String} {e : Element} {s : Step}
    (read : readStep path e = pure (some s)) :
    s.texts.Perm (e.subtree.filterMap Element.leafText?) ∧
      ∀ f ∈ e.subtree, f.hasElements = false → ∀ value, .text value ∈ f.children →
        ¬ Text.isBlankText value → ∃ t ∈ s.texts, Text.StandsIn value t := by
  have texts : s.texts.Perm (e.subtree.filterMap Element.leafText?) := by
    have parts := (parts_readStep read).filterMap Part.text
    rwa [List.filterMap_map] at parts
  refine ⟨texts, ?_⟩
  intro f hf leaf value member some
  obtain ⟨t, text, stands⟩ := exists_leafText member some leaf
  exact ⟨t, texts.mem_iff.2 (List.mem_filterMap.2 ⟨f, hf, text⟩), stands⟩

/-- Texts in a step, in an expression and in children, some of them cut in two. -/
def writtenFilter : Element :=
  ⟨"filter", .empty, [.text "\n  ", .element (.ofText "simple" .empty " a > 1 "),
    .element ⟨"description", .empty, [.text "only ", .text "some "]⟩,
    .element ⟨"log", .single "message" "m", [.text "late"]⟩]⟩

def filterStep : Step :=
  ⟨"filter", .empty, none, some (.ofText .simple "a > 1"), [.text "description" "only some",
    .nested ⟨"log", .single "message" "m", some "late", none, []⟩]⟩

theorem readStep_texts_writtenFilter :
    readStep "filter" writtenFilter = pure (some filterStep) ∧
      filterStep.texts.Perm ["a > 1", "only some", "late"] ∧
      ∃ t ∈ filterStep.texts, Text.StandsIn "some " t := by
  have read : readStep "filter" writtenFilter = pure (some filterStep) := by decide +kernel
  have leaves : writtenFilter.subtree.filterMap Element.leafText? =
    ["a > 1", "only some", "late"] := by decide +kernel
  obtain ⟨texts, kept⟩ := readStep_texts read
  exact ⟨read, leaves ▸ texts, kept ⟨"description", .empty, [.text "only ", .text "some "]⟩
    (by decide +kernel) (by decide) "some " (by simp [Element.children]) (by decide)⟩

/-- A text beside an element is dropped, and nothing is noted. -/
theorem readStep_texts_besideElement :
    let e : Element := ⟨"filter", .empty, [.text "hello",
      .element (.leaf "to" (.single "uri" "b"))]⟩
    ∃ s, readStep "filter" e = pure (some s) ∧ .text "hello" ∈ e.children ∧
      ¬ Text.isBlankText "hello" ∧ s.texts = [] := by
  refine ⟨⟨"filter", .empty, none, none, [.nested ⟨"to", .single "uri" "b", none, none, []⟩]⟩, ?_⟩
  decide +kernel

end Blueprint
end RouteNotation
