import RouteNotation.Proofs.Blueprint.BeanElements

/-!
What is noted about beans without an id. Main statement: `missingId_path`, their paths count the
beans that are read and not those that are met.
-/

namespace RouteNotation

theorem indexPath_inj {path : String} {m n : Nat} :
    indexPath path m = indexPath path n ↔ m = n := by
  refine ⟨fun same => ?_, congrArg _⟩
  simp only [indexPath, toString, String.append_assoc, String.append_right_inj,
    String.append_left_inj] at same
  have digits : Nat.toDigits 10 m = Nat.toDigits 10 n := by
    rw [← Nat.toList_repr, same, Nat.toList_repr]
  calc
    m = Nat.ofDigitChars 10 (Nat.toDigits 10 m) 0 := Nat.ofDigitChars_ten_toDigits.symm
    _ = Nat.ofDigitChars 10 (Nat.toDigits 10 n) 0 := by rw [digits]
    _ = n := Nat.ofDigitChars_ten_toDigits

namespace Blueprint

open Xml

/-- The beans with an id in some content, directly or in groups. -/
def identifiedIn (cs : List Content) : List Element :=
  (contentsBeans cs).filter fun e => (e.attribute? "id").isSome

/-- The beans that stand directly in some content. -/
def beansIn (cs : List Content) : List Element :=
  (cs.filterMap Content.element?).filter (·.localName = "bean")

theorem identifiedIn_append (cs ds : List Content) :
    identifiedIn (cs ++ ds) = identifiedIn cs ++ identifiedIn ds := by
  simp [identifiedIn, contentsBeans_append]

theorem identifiedIn_unidentified {e : Element} (bean : e.localName = "bean")
    (noId : e.attribute? "id" = none) (cs : List Content) :
    identifiedIn (.element e :: cs) = identifiedIn cs := by
  obtain ⟨name, attributes, children⟩ := e
  have tag : localName name = "bean" := bean
  simp [identifiedIn, contentsBeans, sectionBeans, tag, noId]

theorem length_beans_readSections (d : Document) (cs : List Content) :
    (readSections d cs).value.beans.length = d.beans.length + (identifiedIn cs).length := by
  have read : ∀ e : Element, (readBean "" e).value.isSome = (e.attribute? "id").isSome := by
    intro e
    cases id : e.attribute? "id" <;> simp [readBean, id, Noted.skippedWithout]
  rw [value_readSections, Document.merge, List.length_append, beans_readSections, identifiedIn]
  simp [List.length_filterMap_eq_countP, List.countP_eq_length_filter, read]

theorem readSection_unidentified {e : Element} (bean : e.localName = "bean")
    (noId : e.attribute? "id" = none) (d : Document) :
    readSection d e = ⟨d, [.missingField (indexPath "bean" d.beans.length) "id"]⟩ := by
  have skipped : readBean (entityPath e d.beans.length) e =
      .skippedWithout (indexPath "bean" d.beans.length) "id" := by
    simp only [readBean, entityPath, noId, bean]
  rw [readSection_of_bean bean, skipped]
  simp [Noted.skippedWithout, bind, pure]

/-- The path of a bean without an id that stands behind this content. -/
def missingIdPath (before : List Content) : String := indexPath "bean" (identifiedIn before).length

theorem missingIdPath_skipped {e : Element} (bean : e.localName = "bean")
    (noId : e.attribute? "id" = none) (before between : List Content) :
    missingIdPath (before ++ .element e :: between) = missingIdPath (before ++ between) := by
  simp only [missingIdPath, identifiedIn_append, identifiedIn_unidentified bean noId]

/-- What is noted about some content that stands behind other content. -/
def notesBehind (before content : List Content) : List Diagnostic :=
  (readSections (readSections .empty before).value content).notes

/-- A bean without an id is noted where it is met, with the number of the beans that were read. -/
theorem notesBehind_unidentified {e : Element} (bean : e.localName = "bean")
    (noId : e.attribute? "id" = none) (before between after : List Content) :
    notesBehind before (between ++ .element e :: after) =
      notesBehind before between ++
        .missingField (missingIdPath (before ++ between)) "id" ::
          notesBehind (before ++ between) after := by
  have count : (readSections (readSections .empty before).value between).value.beans.length =
      (identifiedIn (before ++ between)).length := by
    simp only [length_beans_readSections, identifiedIn_append, List.length_append, Document.empty,
      List.length_nil, Nat.zero_add]
  have behind : (readSections .empty (before ++ between)).value =
      (readSections (readSections .empty before).value between).value := by
    rw [readSections_append, Noted.value_bind]
  simp only [notesBehind, missingIdPath, behind]
  rw [readSections_append, Noted.notes_bind, readSections, Noted.notes_bind,
    readSection_unidentified bean noId, count]
  rfl

theorem beansIn_bean {f : Element} (tag : f.localName = "bean") (cs : List Content) :
    beansIn (.element f :: cs) = f :: beansIn cs := by
  simp [beansIn, Content.element?, tag]

theorem beansIn_other {f : Element} (tag : f.localName ≠ "bean") (cs : List Content) :
    beansIn (.element f :: cs) = beansIn cs := by
  simp [beansIn, Content.element?, tag]

/-- The place of a bean, by its number. -/
theorem exists_place {cs : List Content} {n : Nat} {e : Element}
    (found : (beansIn cs)[n]? = some e) : e.localName = "bean" ∧
      ∃ before after, cs = before ++ .element e :: after ∧ (beansIn before).length = n := by
  induction cs generalizing n with
  | nil => cases found
  | cons c cs ih =>
    cases c with
    | text value =>
      obtain ⟨bean, before, after, rfl, count⟩ := ih found
      exact ⟨bean, .text value :: before, after, rfl, count⟩
    | element f =>
      by_cases tag : f.localName = "bean"
      · rw [beansIn_bean tag] at found
        cases n with
        | zero =>
          cases found
          exact ⟨tag, [], cs, rfl, rfl⟩
        | succ n =>
          obtain ⟨bean, before, after, rfl, count⟩ := ih found
          refine ⟨bean, .element f :: before, after, rfl, ?_⟩
          rw [beansIn_bean tag, List.length_cons, count]
      · rw [beansIn_other tag] at found
        obtain ⟨bean, before, after, rfl, count⟩ := ih found
        refine ⟨bean, .element f :: before, after, rfl, ?_⟩
        rw [beansIn_other tag, count]

/-- Where the bean with a number has no id, the number in the path of its diagnostic is that of the
beans with an id before it, in groups too, and so its own number exactly if these are as many. Two
beans without an id share their path exactly if no bean with an id stands between them. -/
theorem missingId_path {root : Element} (sections : root.localName ≠ "route") :
    (∀ n e, (root.elementsNamed "bean")[n]? = some e → e.attribute? "id" = none →
      ∃ before after, root.children = before ++ .element e :: after ∧
        (beansIn before).length = n ∧
        (readDocument root).notes =
          notesBehind [] before ++ .missingField (missingIdPath before) "id" ::
            notesBehind before after ∧
        (missingIdPath before = indexPath "bean" n ↔ (identifiedIn before).length = n)) ∧
    ∀ before e between f after,
      root.children = before ++ .element e :: (between ++ .element f :: after) →
      e.localName = "bean" → e.attribute? "id" = none →
      f.localName = "bean" → f.attribute? "id" = none →
      (readDocument root).notes =
        notesBehind [] before ++ .missingField (missingIdPath before) "id" ::
          (notesBehind before between ++
            .missingField (missingIdPath (before ++ .element e :: between)) "id" ::
              notesBehind (before ++ between) after) ∧
      (missingIdPath before = missingIdPath (before ++ .element e :: between) ↔
        identifiedIn between = []) := by
  have notes : (readDocument root).notes = notesBehind [] root.children := by
    rw [readDocument, if_neg sections]
    rfl
  constructor
  · intro n e found noId
    obtain ⟨bean, before, after, place, count⟩ := exists_place found
    refine ⟨before, after, place, count, ?_, indexPath_inj⟩
    rw [notes, place]
    exact notesBehind_unidentified bean noId [] before after
  · intro before e between f after place bean noId bean' noId'
    constructor
    · rw [notes, place, notesBehind_unidentified bean noId, List.nil_append,
        notesBehind_unidentified bean' noId', missingIdPath_skipped bean noId]
    · rw [missingIdPath_skipped bean noId, missingIdPath, missingIdPath, indexPath_inj,
        identifiedIn_append, List.length_append, Nat.left_eq_add, List.length_eq_zero_iff]

/-- Beans with and without an id, and one with an id in a group. -/
def mixedBeans : Element :=
  .ofElements "blueprint" .empty [
    .leaf "bean" (.single "id" "a"), .leaf "bean" .empty,
    .ofElements "camelContext" .empty [.leaf "bean" (.single "id" "b")],
    .leaf "bean" (.single "class" "C")]

theorem missingId_path_mixedBeans :
    (mixedBeans.elementsNamed "bean")[1]? = some (.leaf "bean" .empty) ∧
      (∃ before, (beansIn before).length = 1 ∧
        .missingField (missingIdPath before) "id" ∈ (readDocument mixedBeans).notes) ∧
      missingIdPath (mixedBeans.children.take 1) = "bean[1]" ∧
      missingIdPath (mixedBeans.children.take 1) ≠ missingIdPath (mixedBeans.children.take 3) := by
  have sections : mixedBeans.localName ≠ "route" := by decide +kernel
  have found : (mixedBeans.elementsNamed "bean")[1]? = some (.leaf "bean" .empty) := by
    decide +kernel
  obtain ⟨each, pair⟩ := missingId_path sections
  obtain ⟨before, after, place, count, notes, path⟩ := each 1 _ found rfl
  have between := pair (mixedBeans.children.take 1) (.leaf "bean" .empty)
    [.element (.ofElements "camelContext" .empty [.leaf "bean" (.single "id" "b")])]
    (.leaf "bean" (.single "class" "C")) [] rfl rfl rfl rfl rfl
  refine ⟨found, ⟨before, count, by simp [notes]⟩, by decide +kernel, fun same => ?_⟩
  have nothing := between.2.1 same
  revert nothing
  decide +kernel

/-- Two beans without an id behind each other get one path. -/
theorem missingId_path_shared :
    let bean : Element := .leaf "bean" .empty
    let root : Element := .ofElements "blueprint" .empty [bean, bean]
    (root.elementsNamed "bean")[1]? = some bean ∧ bean.attribute? "id" = none ∧
      readDocument root = ⟨.empty,
        [.missingField (indexPath "bean" 0) "id", .missingField (indexPath "bean" 0) "id"]⟩ := by
  decide +kernel

end Blueprint
end RouteNotation
