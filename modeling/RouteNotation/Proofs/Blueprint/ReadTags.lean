import RouteNotation.Proofs.Blueprint.ReadNames
import RouteNotation.Proofs.Blueprint.ReadParts
import RouteNotation.Proofs.Dsl.StepBounds
import RouteNotation.Proofs.Xml.LocalNames
import RouteNotation.Proofs.Xml.SpelledTree

/-!
The tags in a step that is read from markup. A tag is a name without its namespace, so it may have
stopped being a name: `readStep_tags` says which tags value trees can take, and that every element
is a part of the step or is left out with a note.
-/

namespace RouteNotation

open Yaml

namespace Dsl

/-- Whether a mapping under the tag can be read, both as a step and as a child. -/
def Takes (tag : String) : Prop :=
  ∀ path es, (readStep path tag (.mapping es)).value.isSome ∧
    ∀ step, ∃ child, (readChild path tag step (.mapping es)).value = step.push (.element tag child)

theorem takes_iff {tag : String} : Takes tag ↔ IsTag tag := by
  constructor
  · intro takes
    by_contra other
    have refused : (!Xml.isValidName tag || isReserved tag) = true := by
      by_contra passed
      exact other (isTag_of_not passed)
    have step := (takes "" []).1
    rw [readStep, if_pos refused] at step
    cases step
  · rintro ⟨valid, unreserved⟩ path es
    refine ⟨?_, fun step => ⟨(readBody (childPath path tag) (.ofTag tag) (.bare tag) es).value, ?_⟩⟩
    · simp [readStep, valid, unreserved]
    · simp [readChild, valid]

end Dsl

namespace Blueprint

open Xml

/-- Whether an element is left out of a step with a note: it is in one with a reserved tag, or it is
below an expression. -/
def Dropped (notes : List Diagnostic) (es : List Element) (f : Element) : Prop :=
  ∃ g ∈ es,
    (f ∈ g.subtree ∧ isReserved g.localName ∧
      ∃ path, .unknownShape path s!"reserved tag `{g.localName}` dropped" ∈ notes) ∨
    (f ∈ g.descendants ∧ (Role.ofTag g.localName).isExpression ∧
      ∃ path, .unknownShape path "nested elements inside an expression are ignored" ∈ notes)

/-- Whether an element is a part of the step. -/
def Kept (s : Step) (f : Element) : Prop :=
  isReserved f.localName = false ∧ f.localName ∈ s.parts.map Part.tag

theorem Dropped.mono {notes more : List Diagnostic} {es fs : List Element} {f : Element}
    (h : Dropped notes es f) (hn : notes ⊆ more) (he : es ⊆ fs) : Dropped more fs f := by
  obtain ⟨g, hg, ⟨below, reserved, path, note⟩ | ⟨below, role, path, note⟩⟩ := h
  · exact ⟨g, he hg, .inl ⟨below, reserved, path, hn note⟩⟩
  · exact ⟨g, he hg, .inr ⟨below, role, path, hn note⟩⟩

theorem Kept.mono {s t : Step} {f : Element} (h : Kept s f) (grows : s.parts ⊆ t.parts) :
    Kept t f :=
  ⟨h.1, List.map_subset _ grows h.2⟩

/-- The parts of `step` are still there, and each of the elements has been kept or dropped. -/
def Tells (step : Step) (es : List Element) (r : Noted Step) : Prop :=
  step.parts ⊆ r.value.parts ∧ ∀ f ∈ es, Kept r.value f ∨ Dropped r.notes es f

theorem Tells.bind {α : Type} {x : Noted α} {k : α → Noted Step} {step next : Step}
    {es fs : List Element} (grows : step.parts ⊆ next.parts)
    (each : ∀ f ∈ es, Kept next f ∨ Dropped x.notes es f) (rest : Tells next fs (k x.value)) :
    Tells step (es ++ fs) (x >>= k) := by
  refine ⟨List.Subset.trans grows rest.1, ?_⟩
  rw [List.forall_mem_append]
  constructor
  · intro f hf
    rcases each f hf with kept | dropped
    · exact .inl (kept.mono rest.1)
    · exact .inr (dropped.mono (List.subset_append_left _ _) (List.subset_append_left _ _))
  · intro f hf
    rcases rest.2 f hf with kept | dropped
    · exact .inl kept
    · exact .inr (dropped.mono (List.subset_append_right _ _) (List.subset_append_right _ _))

theorem Tells.note {α : Type} {x : Noted α} {k : α → Noted Step} {step : Step} {es : List Element}
    (rest : Tells step es (k x.value)) : Tells step es (x >>= k) :=
  Tells.bind (List.Subset.refl _) (List.forall_mem_nil _) rest

/-- A child that is read as a step, if it is one. -/
theorem Tells.child {path : String} {step : Step} {push : Option Step → Step} {e : Element}
    {k : Step → Noted Step} {fs : List Element}
    (parts : ∀ c, (push c).parts = step.parts ++ c.toList.flatMap Step.parts)
    (below : ∀ f ∈ e.subtree, (∃ s ∈ (readStep path e).value, Kept s f) ∨
      Dropped (readStep path e).notes e.subtree f)
    (rest : ∀ s, Tells s fs (k s)) :
    Tells step (e.subtree ++ fs) (readStep path e >>= fun c => k (push c)) := by
  refine Tells.bind ?_ ?_ (rest (push (readStep path e).value))
  · rw [parts]
    exact List.subset_append_left _ _
  · intro f hf
    refine (below f hf).imp_left ?_
    rintro ⟨s, hs, kept⟩
    apply kept.mono
    rw [parts, Option.mem_def.1 hs]
    simp

theorem tag_of_readExpression {path : String} {l : Language} {e : Element}
    (role : Role.ofTag e.localName = .expression l) :
    (readExpression path l e).value.part.tag = e.localName := by
  rw [← Language.tag_of_role role, readExpression]
  split <;> rfl

/-- Of an expression the element itself is kept. -/
theorem dropped_of_readExpression {path : String} {l : Language} {e : Element}
    (role : Role.ofTag e.localName = .expression l) :
    ∀ f ∈ e.descendants, Dropped (readExpression path l e).notes e.subtree f := by
  intro f hf
  have some : e.hasElements := by
    by_contra none
    rw [Element.descendants_eq_nil (Bool.eq_false_iff.2 none)] at hf
    cases hf
  refine ⟨e, e.mem_subtree, .inr ⟨hf, by rw [role]; rfl, path, ?_⟩⟩
  rw [readExpression, if_pos some]
  exact List.mem_cons_self

mutual

theorem tells_readStep (path : String) : (e : Element) → ∀ f ∈ e.subtree,
    (∃ s ∈ (readStep path e).value, Kept s f) ∨ Dropped (readStep path e).notes e.subtree f
  | ⟨name, attributes, children⟩ => by
    intro f hf
    rw [readStep]
    split
    · rename_i reserved
      exact .inr ⟨_, Element.mem_subtree _, .inl ⟨hf, reserved, path, List.mem_cons_self⟩⟩
    · rename_i unreserved
      have inner := tells_readChildren path ⟨localName name, (readAttributes path attributes).value,
        if Element.hasElements ⟨name, .empty, children⟩ then none
        else Element.text? ⟨name, .empty, children⟩, none, []⟩ children
      rcases List.mem_cons.1 hf with rfl | hf
      · exact .inl ⟨_, rfl, Bool.eq_false_iff.2 unreserved, List.mem_map.2
          ⟨_, inner.1 List.mem_cons_self, rfl⟩⟩
      · rcases inner.2 f hf with kept | dropped
        · exact .inl ⟨_, rfl, kept⟩
        · refine .inr (dropped.mono ?_ (List.subset_cons_self _ _))
          exact List.subset_append_of_subset_right _ (List.subset_append_left _ _)

theorem tells_readChildren (path : String) : (step : Step) → (cs : List Content) →
    Tells step (elementsWithin cs) (readChildren path step cs)
  | step, [] => by
    rw [readChildren]
    exact ⟨List.Subset.refl _, nofun⟩
  | step, .text _ :: rest => by
    rw [readChildren, elementsWithin]
    exact tells_readChildren path step rest
  | step, .element e :: rest => by
    rw [elementsWithin_element]
    have below := tells_readStep (childPath path e.localName) e
    have later : ∀ s, Tells s (elementsWithin rest) (readChildren path s rest) :=
      fun s => tells_readChildren path s rest
    simp only [readChildren]
    -- One case for each rule. A reserved tag is dropped with all that is below it, and of the first
    -- expression only what is below it is.
    split
    · rename_i rule
      refine Tells.bind (List.Subset.refl _) (fun f hf => .inr ⟨e, e.mem_subtree, .inl ⟨hf, ?_, _,
        List.mem_cons_self⟩⟩) (later step)
      exact reserved_of_rule.1 rule
    · rename_i language rule
      obtain ⟨first, role⟩ := role_of_rule rule
      have unreserved : isReserved e.localName = false := by
        rw [← Language.tag_of_role role]
        exact isReserved_language language
      have free : step.expression = none := by simpa using first
      have parts := Step.parts_withExpression free
        (readExpression (childPath path e.localName) language e).value
      refine Tells.bind ?_ ?_ (later _)
      · exact List.Subset.trans (List.subset_append_left _ _) parts.symm.subset
      · refine List.forall_mem_cons.2 ⟨.inl ⟨unreserved, ?_⟩,
          fun f hf => .inr (dropped_of_readExpression role f hf)⟩
        rw [(parts.map Part.tag).mem_iff, List.map_append, List.map_singleton]
        exact List.mem_append_right _ (List.mem_singleton.2 (tag_of_readExpression role).symm)
    · exact Tells.note (Tells.child step.parts_pushElement below later)
    · rename_i value rule
      obtain ⟨only, -⟩ := textOnly_of_rule rule
      have unreserved : isReserved e.localName = false := by
        rw [Bool.eq_false_iff, Ne, ← reserved_of_rule, rule]
        nofun
      have parts := Step.parts_push step (.text e.localName value)
      have none : ∀ f ∈ e.subtree, f = e := by simp [Element.subtree, (part_of_textOnly only).2]
      rw [← pure_bind () fun _ => readChildren path (step.push (.text e.localName value)) rest]
      refine Tells.bind ?_ (fun f hf => .inl ?_) (later _)
      · rw [parts]
        exact List.subset_append_left _ _
      · rw [none f hf]
        exact ⟨unreserved, by simp [parts, slotsParts]⟩
    · exact Tells.child step.parts_pushElement below later
    · exact Tells.child step.parts_pushNested below later

end

/-- A tag as it is read: a name without its namespace, which can be written again unless it opens
with a character that no name can open with. -/
def ReadTag (tag : String) : Prop :=
  ':' ∉ tag.toList ∧ isReserved tag = false ∧
    (isValidName tag ↔ ∃ c ∈ tag.toList.head?, canOpenName c) ∧
    (isValidName tag ↔ Dsl.Takes tag)

theorem readTag_localName {f : Element} (named : f.WellNamed)
    (unreserved : isReserved f.localName = false) : ReadTag f.localName := by
  obtain ⟨name, attributes, children⟩ := f
  refine ⟨colon_not_mem_localName name, unreserved, isValidName_localName named.1, ?_⟩
  rw [Dsl.takes_iff, Dsl.IsTag]
  exact ⟨fun valid => ⟨valid, unreserved⟩, And.left⟩

/-- Steps read from any element of any markup. An element gives no step exactly if its own tag is
reserved. In a step every tag, at every depth, is free of namespaces and not reserved, and value
trees take it exactly if its first character can open a name. Every element is kept as a part of the
step or else dropped with a note, and without a note nothing is dropped. -/
theorem readStep_tags {limit : Nat} {bytes : List UInt8} {root e : Element}
    (parsed : parse limit bytes = .ok root) (member : e ∈ root.subtree) (path : String) :
    ((readStep path e).value = none ↔ isReserved e.localName) ∧
      (∀ s ∈ (readStep path e).value, s.Names ReadTag (isReserved · = false)) ∧
      (∀ f ∈ e.subtree, (∃ s ∈ (readStep path e).value, Kept s f) ∨
        Dropped (readStep path e).notes e.subtree f) ∧
      ∀ s, readStep path e = pure (some s) →
        (s.parts.map Part.tag).Perm (e.subtree.map Element.localName) := by
  have named : ∀ f ∈ e.subtree, f.WellNamed :=
    ((wellNamed_of_parse parsed).of_mem_subtree e member).of_mem_subtree
  refine ⟨value_readStep_eq_none, fun s read => ?_, tells_readStep path e, fun s read => ?_⟩
  · exact names_of_subtree (fun f hf => readTag_localName (named f hf)) read
  · have parts := (parts_readStep read).map Part.tag
    rwa [List.map_map] at parts

section Example

/-- A branch with a namespace, and an element that is reserved. -/
def prefixedWhen : Element :=
  .ofElements "c:when" .empty [.leaf "c:steps" .empty, .leaf "c:log" .empty]

theorem parse_prefixedWhen :
    parse 0 (Utf8.encode "<c:when><c:steps/><c:log/></c:when>") = .ok prefixedWhen := by
  have none : Spaces [] := by decide
  have tag : ∀ name, TagSpelling name (OrderedMap.empty : Attributes).entries name.toList :=
    fun _ => .name
  have contents : ContentsSpelling prefixedWhen.children "<c:steps/><c:log/>".toList :=
    .cons (.spaces none) (.empty (tag "c:steps"))
      (.cons (.spaces none) (.empty (tag "c:log")) (.nil (.spaces none)))
  have root : ElementSpelling prefixedWhen "<c:when><c:steps/><c:log/></c:when>".toList :=
    .elements (tag "c:when") contents none
  have spelled : DocumentSpelling prefixedWhen "<c:when><c:steps/><c:log/></c:when>".toList :=
    .document List.mem_cons_self (.spaces none) root (.spaces none)
  have fits : exceeds 0 prefixedWhen.height = false := by decide
  have read := parse_of_spelling (by decide) spelled fits
  rwa [String.ofList_toList] at read

theorem readStep_tags_prefixedWhen :
    parse 0 (Utf8.encode "<c:when><c:steps/><c:log/></c:when>") = .ok prefixedWhen ∧
      readStep "when" prefixedWhen =
        ⟨some ⟨"when", .empty, none, none, [.nested (.bare "log")]⟩,
          [.unknownShape "when/steps" "reserved tag `steps` dropped"]⟩ ∧
      Dsl.Takes "log" ∧
      Dropped (readStep "when" prefixedWhen).notes prefixedWhen.subtree
        (.leaf "c:steps" .empty) := by
  have read : readStep "when" prefixedWhen =
    ⟨some ⟨"when", .empty, none, none, [.nested (.bare "log")]⟩,
      [.unknownShape "when/steps" "reserved tag `steps` dropped"]⟩ := by decide +kernel
  obtain ⟨-, names, told, -⟩ := readStep_tags parse_prefixedWhen prefixedWhen.mem_subtree "when"
  rw [read] at names told
  have log : ReadTag "log" := (names _ rfl).2.2.2.1.1
  have steps := told (.leaf "c:steps" .empty) (by decide)
  refine ⟨parse_prefixedWhen, read, log.2.2.2.1 (by decide), ?_⟩
  rw [read]
  refine steps.resolve_left ?_
  rintro ⟨s, -, unreserved, -⟩
  revert unreserved
  decide

end Example

/-- What is left of a name may be no name: then the tag is kept, with nothing noted, and value trees
refuse it. -/
theorem readStep_tags_digitTag :
    parse 0 (Utf8.encode "<x:1/>") = .ok (.leaf "x:1" .empty) ∧
      readStep "1" (.leaf "x:1" .empty) = pure (some (.bare "1")) ∧
      isValidName "1" = false ∧ (Dsl.readStep "1" "1" .null).value = none ∧
      (Dsl.readChild "" "1" (.bare "to") .null).value = .bare "to" := by
  have none : Spaces [] := by decide
  have tag : TagSpelling "x:1" (OrderedMap.empty : Attributes).entries "x:1".toList := .name
  have spelled : DocumentSpelling (.leaf "x:1" .empty) "<x:1/>".toList :=
    .document List.mem_cons_self (.spaces none) (.empty tag) (.spaces none)
  have read := parse_of_spelling (by decide) spelled (by decide : exceeds 0 _ = false)
  rw [String.ofList_toList] at read
  exact ⟨read, by decide +kernel⟩

end Blueprint
end RouteNotation
