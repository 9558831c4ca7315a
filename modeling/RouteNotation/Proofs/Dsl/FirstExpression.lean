import RouteNotation.Proofs.Dsl.EntityValues
import RouteNotation.Proofs.Dsl.StepRoundTrip
import RouteNotation.Proofs.Route.FirstExpression

/-!
Bodies that hold several expressions, in any of the forms in which one can be written. Main
statement: `settles_readBody`.
-/

namespace RouteNotation.Dsl

open Yaml

/-- An expression as it is written in the body of a step. -/
inductive BodyExpression
  /-- Under its language: a mapping, or a scalar where the step takes one. -/
  | inline (language : Language) (v : Value)
  /-- In a mapping under a key of its own. -/
  | wrapped (language : Language) (body : Value)
  /-- As an entry of the list of steps. -/
  | collapsed (language : Language) (text : String)

section Forms

/-- An entry of the steps of a container that is a text under a language. -/
def collapsed? (item : Value) : Option BodyExpression := do
  let es ← item.mapping?
  let (tag, body) ← firstEntry? es
  let text ← body.scalarText?
  if es.length ≠ 1 then none
  else match Role.ofTag tag with
    | .expression language => some (.collapsed language text)
    | _ => none

/-- Whether a value under a language is taken as an expression. -/
def takenInline (role : Role) (v : Value) : Bool :=
  v.mapping?.isSome || (v.isScalar && role.takesScalarExpression)

/-- The expressions in an entry of a body, in order. -/
def entryExpressions (role : Role) (e : Entry) : List BodyExpression :=
  match e.1.scalarText? with
  | none => []
  | some "steps" =>
    if role.isContainer then (e.2.sequence?.getD []).filterMap collapsed? else []
  | some "expression" => (wrapped? e.2).toList.map fun w => .wrapped w.1 w.2
  | some key => match Role.ofTag key with
    | .expression language =>
      if takenInline role e.2 then [.inline language e.2] else []
    | _ => []

/-- The expressions in a body, in order. -/
def bodyExpressions (role : Role) (es : List Entry) : List BodyExpression :=
  es.flatMap (entryExpressions role)

namespace BodyExpression

def expression : BodyExpression → Expression
  | inline language v => (readExpression "" language v).value
  | wrapped language body => (readExpression "" language body).value
  | collapsed language text => .ofText language text

/-- What is noted when it is read as the expression of a step. -/
def notes (path : String) : BodyExpression → List Diagnostic
  | inline language v => (readExpression (childPath path language.tag) language v).notes
  | wrapped language body => (readExpression (childPath path "expression") language body).notes
  | collapsed _ _ => []

/-- The attributes it leaves in a step that has an expression: a scalar under its language is
one. -/
def lateAttributes : BodyExpression → List String
  | inline language v => if v.isScalar then [language.tag] else []
  | wrapped _ _ | collapsed _ _ => []

/-- The children it leaves in a step that has an expression: a mapping under a key of its own leaves
nothing. -/
def lateChildren : BodyExpression → List Slot
  | inline language (.mapping es) =>
    [.element language.tag (readBody "" (.ofTag language.tag) (.bare language.tag) es).value]
  | inline _ _ | wrapped _ _ => []
  | collapsed language text => [.text language.tag text]

/-- What is noted in a step that has an expression: nothing about an entry of its steps. -/
def lateNotes (path kind : String) : BodyExpression → List Diagnostic
  | inline language v =>
    .unknownShape (childPath path language.tag)
        s!"`{kind}` already has an expression, `{language.tag}` kept as a child" ::
      (readChild path language.tag (.bare kind) v).notes
  | wrapped _ _ =>
    [.unknownShape (childPath path "expression")
      s!"`{kind}` already has an expression, wrapper ignored"]
  | collapsed _ _ => []

end BodyExpression

def expressionRule (path kind : String) : ExpressionRule BodyExpression where
  expression := BodyExpression.expression
  notes := BodyExpression.notes path
  lateAttributes := BodyExpression.lateAttributes
  lateChildren := BodyExpression.lateChildren
  lateNotes := BodyExpression.lateNotes path kind

/-- Whether an entry is itself an expression. -/
def isExpressionEntry (role : Role) (e : Entry) : Bool :=
  e.1.scalarText? ≠ some "steps" && !(entryExpressions role e).isEmpty

/-- What is noted about an entry that is itself no expression. -/
def otherNotes (path kind : String) (e : Entry) : List Diagnostic :=
  if isExpressionEntry (.ofTag kind) e then []
  else (readBody path (.ofTag kind) (.bare kind) [e]).notes

end Forms

section Children
variable {path key : String} {s t : Step}

theorem grows_readTextChild (path tag : String) (s : Step) (v : Value) :
    s.Grows tag (readTextChild path tag s v).value := by
  unfold readTextChild
  split
  · exact .push _ s _
  · exact .refl _ s

theorem grows_readAttribute (path key : String) (s : Step) (v : Value) :
    s.Grows key (s.withAttributes (readAttribute path s.attributes key v).value) := by
  have same : s.withAttributes s.attributes = s := by cases s; rfl
  unfold readAttribute
  split
  · exact same.symm ▸ .refl _ s
  · split
    · exact .withAttribute s key _
    · exact same.symm ▸ .refl _ s

theorem grows_readTextField (path key : String) (s : Step) (v : Value) :
    s.Grows key (readTextField path key s v).value := by
  unfold readTextField
  split
  · exact grows_readAttribute path key s v
  · exact grows_readTextChild _ key s v

theorem grows_readChildItems (path key : String) (items : List Value) (s : Step) :
    s.Grows key (readChildItems path key s items).value := by
  induction items generalizing s with
  | nil => exact .refl _ s
  | cons item rest ih =>
    cases item with
    | null =>
      rw [readChildItems]
      exact (Step.Grows.push key s _).trans (ih _)
    | mapping es =>
      rw [readChildItems]
      exact (Step.Grows.push key s _).trans (ih _)
    | _ =>
      simp only [readChildItems]
      exact (grows_readTextChild path key s _).trans (ih _)

theorem grows_readChild (path key : String) (s : Step) (v : Value) :
    s.Grows key (readChild path key s v).value := by
  cases v with
  | sequence items =>
    rw [readChild]
    split
    · exact .refl _ s
    · exact grows_readChildItems _ key items s
  | mapping es =>
    rw [readChild]
    split
    · exact .refl _ s
    · exact .push _ s _
  | null =>
    rw [readChild]
    split
    · exact .refl _ s
    · exact .push _ s _
  | _ =>
    simp only [readChild]
    split
    · exact .refl _ s
    · exact grows_readTextField path key s _

theorem notes_readTextChild (path tag : String) (s t : Step) (v : Value) :
    (readTextChild path tag s v).notes = (readTextChild path tag t v).notes := by
  unfold readTextChild
  split <;> rfl

theorem notes_readTextField (path key : String) (s t : Step) (v : Value) :
    (readTextField path key s v).notes = (readTextField path key t v).notes := by
  unfold readTextField
  split
  · unfold readAttribute
    split
    · rfl
    · split <;> rfl
  · exact notes_readTextChild _ key s t v

theorem notes_readChildItems (path key : String) (items : List Value) (s t : Step) :
    (readChildItems path key s items).notes = (readChildItems path key t items).notes := by
  induction items generalizing s t with
  | nil => rfl
  | cons item rest ih =>
    cases item with
    | null =>
      rw [readChildItems, readChildItems]
      exact ih _ _
    | mapping es =>
      rw [readChildItems, readChildItems, Noted.notes_bind, Noted.notes_bind, ih]
    | _ =>
      simp only [readChildItems, Noted.notes_bind]
      rw [notes_readTextChild path key s t, ih]

/-- What is noted about a child does not depend on what the step holds. -/
theorem notes_readChild (path key : String) (s t : Step) (v : Value) :
    (readChild path key s v).notes = (readChild path key t v).notes := by
  cases v with
  | sequence items =>
    rw [readChild, readChild]
    split
    · rfl
    · exact notes_readChildItems _ key items s t
  | mapping es =>
    rw [readChild, readChild]
    split <;> rfl
  | null =>
    rw [readChild, readChild]
    split <;> rfl
  | _ =>
    simp only [readChild]
    split
    · rfl
    · exact notes_readTextField path key s t _

end Children

section Nested
variable {path : String} {kind : String} {s : Step}

theorem shorthand?_language (l : Language) : shorthand? l.tag = none := by
  cases l <;> rfl

theorem isValidName_language (l : Language) : Xml.isValidName l.tag = true := by
  cases l <;> decide

/-- What becomes of an entry of the steps of a container: an expression if it carries one, else a
child or a step, whatever the container holds. -/
theorem collapse?_cases (item : Value) :
    (∃ l text, collapsed? item = some (.collapsed l text) ∧ ∀ s : Step, collapse? s item =
      some (if s.expression.isNone then s.withExpression (.ofText l text)
        else s.push (.text l.tag text))) ∨
    (collapsed? item = none ∧ ∃ tag text, ∀ s, collapse? s item = some (s.push (.text tag text))) ∨
    (collapsed? item = none ∧ ∀ s, collapse? s item = none) := by
  simp only [collapsed?, collapse?, Option.bind_eq_bind]
  cases item.mapping? with
  | none => exact .inr (.inr ⟨rfl, fun _ => rfl⟩)
  | some es =>
    simp only [Option.bind_some]
    cases firstEntry? es with
    | none => exact .inr (.inr ⟨rfl, fun _ => rfl⟩)
    | some first =>
      obtain ⟨tag, body⟩ := first
      simp only [Option.bind_some]
      cases body.scalarText? with
      | none => exact .inr (.inr ⟨rfl, fun _ => rfl⟩)
      | some text =>
        simp only [Option.bind_some]
        by_cases several : es.length ≠ 1
        · simp only [ne_eq, several, not_false_eq_true, decide_true, Bool.true_or, if_true]
          exact .inr (.inr ⟨trivial, fun _ => trivial⟩)
        · simp only [several, decide_false, Bool.false_or, if_false]
          cases role : Role.ofTag tag with
          | expression l =>
            have plain : ((shorthand? tag).isSome || !Xml.isValidName tag || isReserved tag) =
                false := by
              rw [← Language.tag_of_role role, shorthand?_language, isValidName_language,
                isReserved_language]
              rfl
            refine .inl ⟨l, text, rfl, fun s => ?_⟩
            simp only [plain, Bool.false_eq_true, if_false, Language.tag_of_role role]
            split <;> rfl
          | _ =>
            refine .inr ?_
            cases (shorthand? tag).isSome || !Xml.isValidName tag || isReserved tag with
            | true => exact .inr ⟨rfl, fun _ => rfl⟩
            | false => exact .inl ⟨rfl, tag, text, fun _ => rfl⟩

theorem readNestedItems_cons (path : String) (container : Bool) (index : Nat) (s : Step)
    (item : Value) (rest : List Value) :
    readNestedItems path container index s (item :: rest) =
      readNestedItems path container index s [item] >>= fun s =>
        readNestedItems path container (index + 1) s rest := by
  simp only [readNestedItems]
  split <;> simp only [bind_assoc, pure_bind]

theorem notes_readNestedItem (path : String) (container : Bool) (index : Nat) (s t : Step)
    (item : Value) : (readNestedItems path container index s [item]).notes =
      (readNestedItems path container index t [item]).notes := by
  simp only [readNestedItems]
  cases container with
  | false => rfl
  | true =>
    rcases collapse?_cases item with ⟨l, text, -, made⟩ | ⟨-, tag, text, made⟩ | ⟨-, made⟩ <;>
      rw [made s, made t] <;> rfl

theorem notes_readNestedItems (path : String) (container : Bool) (index : Nat)
    (items : List Value) (s t : Step) : (readNestedItems path container index s items).notes =
      (readNestedItems path container index t items).notes := by
  induction items generalizing index s t with
  | nil => rfl
  | cons item rest ih =>
    rw [readNestedItems_cons, readNestedItems_cons (s := t), Noted.notes_bind, Noted.notes_bind,
      notes_readNestedItem path container index s t item, ih]

/-- The expressions among the steps of a step: only containers have any. -/
def collapsedIn (container : Bool) (items : List Value) : List BodyExpression :=
  if container then items.filterMap collapsed? else []

theorem settles_readNestedItem (path here : String) (container : Bool) (index : Nat) (s : Step)
    (item : Value) : Settles (expressionRule path kind) s (collapsedIn container [item])
      (readNestedItems here container index s [item]).notes
      (readNestedItems here container index s [item]) := by
  have step : collapse? s item = none ∨ container = false →
      s.Grows "steps" (readNestedItems here container index s [item]).value := by
    intro stays
    have none : (if container then collapse? s item else none) = none := by
      rcases stays with no | no <;> simp [no]
    simp only [readNestedItems, none]
    exact Step.Grows.pushNested _ s _
  cases container with
  | false => exact .other (step (.inr rfl))
  | true =>
    rcases collapse?_cases item with ⟨l, text, found, made⟩ | ⟨found, tag, text, made⟩ | ⟨found, no⟩
    · have as : collapsedIn true [item] = [.collapsed l text] := by simp [collapsedIn, found]
      have run : readNestedItems here true index s [item] =
          pure (if s.expression.isNone then s.withExpression (.ofText l text)
            else s.push (.text l.tag text)) := by
        simp only [readNestedItems, if_true, made]
      rw [as, run]
      cases has : s.expression with
      | none => exact .first has rfl rfl
      | some first =>
        exact .late (by rw [has]; rfl) (.push "steps" s _) (List.nil_subset _) rfl
          (List.Sublist.refl _) rfl
    · have as : collapsedIn true [item] = [] := by simp [collapsedIn, found]
      have run : readNestedItems here true index s [item] = pure (s.push (.text tag text)) := by
        simp only [readNestedItems, if_true, made]
      rw [as, run]
      exact .other (.push "steps" s _)
    · have as : collapsedIn true [item] = [] := by simp [collapsedIn, found]
      rw [as]
      exact .other (step (.inl (no s)))

theorem collapsedIn_cons (container : Bool) (item : Value) (rest : List Value) :
    collapsedIn container (item :: rest) =
      collapsedIn container [item] ++ collapsedIn container rest := by
  cases container with
  | false => rfl
  | true =>
    simp only [collapsedIn, if_true]
    rw [← List.filterMap_append]
    rfl

theorem settles_readNestedItems (path here : String) (container : Bool) (index : Nat)
    (items : List Value) (s : Step) :
    Settles (expressionRule path kind) s (collapsedIn container items)
      (readNestedItems here container index s items).notes
      (readNestedItems here container index s items) := by
  induction items generalizing index s with
  | nil =>
    have none : collapsedIn container [] = [] := by cases container <;> rfl
    rw [none]
    exact .nothing s
  | cons item rest ih =>
    rw [readNestedItems_cons, collapsedIn_cons, Noted.notes_bind]
    exact (settles_readNestedItem path here container index s item).bind (ih _ _)

/-- A list of steps is looked for behind tags. -/
theorem readNested_cases (path found : String) (container : Bool) (v : Value) :
    (∃ items, v.sequence? = some items ∧ ∀ s, readNested path found container s v =
      readNestedItems path container 0 s items) ∨
    (v.sequence? = none ∧ ∀ s, readNested path found container s v =
      expected path "a list of steps" found >>= fun _ => pure s) := by
  induction v using Value.untagged.induct with
  | case1 tag v ih =>
    simp only [readNested]
    exact ih
  | case2 v bare =>
    cases v with
    | tagged tag v => exact absurd rfl (bare tag v)
    | sequence items => exact .inl ⟨items, rfl, fun s => by rw [readNested]⟩
    | _ => exact .inr ⟨rfl, fun s => by simp only [readNested]⟩

theorem notes_readNested (path found : String) (container : Bool) (s t : Step) (v : Value) :
    (readNested path found container s v).notes = (readNested path found container t v).notes := by
  rcases readNested_cases path found container v with ⟨items, -, read⟩ | ⟨-, read⟩
  · rw [read, read]
    exact notes_readNestedItems path container 0 items s t
  · rw [read, read]
    rfl

theorem settles_readNested (path kind here found : String) (container : Bool) (s : Step)
    (v : Value) : Settles (expressionRule path kind) s
      (collapsedIn container (v.sequence?.getD [])) (readNested here found container s v).notes
      (readNested here found container s v) := by
  rcases readNested_cases here found container v with ⟨items, list, read⟩ | ⟨other, read⟩
  · rw [read, list]
    exact settles_readNestedItems path here container 0 items s
  · have none : collapsedIn container [] = [] := by cases container <;> rfl
    rw [read, other]
    exact none ▸ .other (.refl "steps" s)

end Nested

section Bodies
variable {path key : String} {s : Step} {k v : Value}

/-- Whether an entry of a body is settled as its expressions say. -/
def SettlesEntry (path : String) (s : Step) (e : Entry) : Prop :=
  Settles (expressionRule path s.kind) s (entryExpressions (.ofTag s.kind) e)
    (otherNotes path s.kind e) (readBody path (.ofTag s.kind) s [e])

/-- An entry that is no expression, if what is noted about it does not depend on the step. -/
theorem settlesEntry_of_none (none : entryExpressions (.ofTag s.kind) (k, v) = [])
    (settled : Settles (expressionRule path s.kind) s []
      (readBody path (.ofTag s.kind) s [(k, v)]).notes (readBody path (.ofTag s.kind) s [(k, v)]))
    (notes : (readBody path (.ofTag s.kind) (.bare s.kind) [(k, v)]).notes =
      (readBody path (.ofTag s.kind) s [(k, v)]).notes) : SettlesEntry path s (k, v) := by
  have others : otherNotes path s.kind (k, v) =
      (readBody path (.ofTag s.kind) s [(k, v)]).notes := by
    simpa [otherNotes, isExpressionEntry, none] using notes
  rwa [SettlesEntry, none, others]

theorem settlesEntry_unnamed (unnamed : k.scalarText? = none) : SettlesEntry path s (k, v) := by
  have read (t : Step) : readBody path (.ofTag s.kind) t [(k, v)] = do
      .unknownShape path "non-scalar key skipped"
      return t := by
    simp only [readBody, unnamed]
  refine settlesEntry_of_none (by simp only [entryExpressions, unnamed]) ?_ ?_
  · rw [read]
    exact .other (.refl "" s)
  · rw [read, read]
    rfl

theorem settlesEntry_steps (scalar : k.scalarText? = some "steps") :
    SettlesEntry path s (k, v) := by
  have as : entryExpressions (.ofTag s.kind) (k, v) =
      collapsedIn (Role.ofTag s.kind).isContainer (v.sequence?.getD []) := by
    simp only [entryExpressions, scalar, collapsedIn]
  cases container : (Role.ofTag s.kind).isContainer with
  | false =>
    have read (t : Step) : readBody path (.ofTag s.kind) t [(k, v)] =
        .unknownShape (childPath path "steps") s!"`{t.kind}` does not take nested steps" >>=
          fun _ => readNested (childPath path "steps") v.describe false t v := by
      simp only [readBody, scalar, FieldRule.of, container, Bool.not_false, if_true, bind_pure]
    refine settlesEntry_of_none (by rw [as, container]; rfl) ?_ ?_
    · rw [read]
      have nested := settles_readNested path s.kind (childPath path "steps") v.describe false s v
      exact nested.of_value rfl
    · rw [read, read, Noted.notes_bind, Noted.notes_bind, notes_readNested _ _ _ (.bare s.kind) s]
      rfl
  | true =>
    have read (t : Step) : readBody path (.ofTag s.kind) t [(k, v)] =
        readNested (childPath path "steps") v.describe true t v := by
      simp only [readBody, scalar, FieldRule.of, container, Bool.not_true, Bool.false_eq_true,
        if_false, bind_pure]
    have others : otherNotes path s.kind (k, v) =
        (readNested (childPath path "steps") v.describe true s v).notes := by
      have entry : isExpressionEntry (.ofTag s.kind) (k, v) = false := by
        simp [isExpressionEntry, scalar]
      rw [otherNotes, entry, read, notes_readNested _ _ _ _ s]
      rfl
    rw [SettlesEntry, as, container, others, read]
    exact settles_readNested path s.kind (childPath path "steps") v.describe true s v

theorem settlesEntry_wrapper (scalar : k.scalarText? = some "expression") :
    SettlesEntry path s (k, v) := by
  have as : entryExpressions (.ofTag s.kind) (k, v) =
      (wrapped? v).toList.map fun w => .wrapped w.1 w.2 := by
    simp only [entryExpressions, scalar]
  have read (t : Step) : readBody path (.ofTag s.kind) t [(k, v)] =
      readWrapper (childPath path "expression") t v := by
    simp only [readBody, scalar, FieldRule.of, bind_pure]
  cases found : wrapped? v with
  | none =>
    refine settlesEntry_of_none (by rw [as, found]; rfl) ?_ ?_
    · rw [read, readWrapper, found]
      exact .other (.refl "expression" s)
    · rw [read, read, readWrapper, readWrapper, found]
      rfl
  | some w =>
    obtain ⟨l, body⟩ := w
    have others : otherNotes path s.kind (k, v) = [] := by
      simp [otherNotes, isExpressionEntry, as, found, scalar]
    rw [SettlesEntry, as, found, others, read, readWrapper, found]
    cases has : s.expression with
    | none =>
      refine .first has ?_ (List.append_nil _)
      exact congrArg s.withExpression (value_readExpression _ "" l body)
    | some first =>
      exact .late (by rw [has]; rfl) (.refl "expression" s) (List.nil_subset _)
        (List.append_nil _).symm (List.Sublist.refl _) rfl

theorem ne_of_unreserved {reserved : String} (h : isReserved key = false)
    (is : isReserved reserved = true) : key ≠ reserved := by
  rintro rfl
  rw [h] at is
  cases is

/-- The expressions under a key without a meaning of its own. -/
theorem entryExpressions_of_key (role : Role) (scalar : k.scalarText? = some key)
    (noSteps : key ≠ "steps") (noWrapper : key ≠ "expression") :
    entryExpressions role (k, v) = match Role.ofTag key with
      | .expression l =>
        if takenInline role v then [.inline l v] else []
      | _ => [] := by
  unfold entryExpressions
  rw [scalar]
  split
  · contradiction
  · rename_i same
    exact absurd (Option.some.inj same) noSteps
  · rename_i same
    exact absurd (Option.some.inj same) noWrapper
  · rename_i same
    cases same
    rfl

/-- A child that is a mapping is a step under its tag. -/
theorem readChild_mapping (es : List Entry) (valid : Xml.isValidName key = true) :
    (readChild path key s (.mapping es)).value =
      s.push (.element key (readBody "" (.ofTag key) (.bare key) es).value) := by
  have here := value_readBody (childPath path key) "" (.ofTag key) (.bare key) es
  simp only [readChild, valid, Bool.not_true, Bool.false_eq_true, if_false, Noted.value_bind, here]
  rfl

/-- What a late expression under its language leaves among the children. -/
theorem slots_lateChild (path : String) (s : Step) (l : Language) (v : Value) :
    ∃ added, (readChild path l.tag s v).value.slots = s.slots ++ added ∧
      (BodyExpression.inline l v).lateChildren.Sublist added := by
  obtain ⟨added, slots⟩ := (grows_readChild path l.tag s v).slots
  cases v with
  | mapping es =>
    rw [readChild_mapping es (isValidName_language l)]
    exact ⟨[.element l.tag _], rfl, List.Sublist.refl _⟩
  | _ => exact ⟨added, slots.symm, List.nil_sublist added⟩

theorem readChild_attribute {text : String} (scalar : v.scalarText? = some text)
    (valid : Xml.isValidName key = true) (noChild : isTextChild key = false) :
    readChild path key s v = pure (s.withAttributes (s.attributes.insert key text)) := by
  have field : readTextField path key s v =
      pure (s.withAttributes (s.attributes.insert key text)) := by
    simp only [readTextField, Value.isScalar, scalar, noChild, readAttribute, valid,
      Option.isSome_some, Bool.not_false, Bool.and_self, Bool.not_true, Bool.false_eq_true,
      if_true, if_false, pure_bind]
  cases v with
  | null | sequence | mapping => cases scalar
  | _ => simp only [readChild, valid, Bool.not_true, Bool.false_eq_true, if_false, field]

/-- What a late expression under its language leaves among the attributes. -/
theorem attributes_lateChild (path : String) (s : Step) (l : Language) (v : Value) :
    (BodyExpression.inline l v).lateAttributes ⊆
      (readChild path l.tag s v).value.attributes.keys := by
  cases scalar : v.scalarText? with
  | none => simp [BodyExpression.lateAttributes, Value.isScalar, scalar]
  | some text =>
    have noChild : isTextChild l.tag = false := by cases l <;> decide
    have key : l.tag ∈ (s.withAttributes (s.attributes.insert l.tag text)).attributes.keys :=
      OrderedMap.mem_keys_insert.2 (.inr rfl)
    rw [readChild_attribute scalar (isValidName_language l) noChild]
    simpa [BodyExpression.lateAttributes, Value.isScalar, scalar] using key

theorem settlesEntry_inline {l : Language} (scalar : k.scalarText? = some l.tag)
    (takes : takenInline (.ofTag s.kind) v = true) : SettlesEntry path s (k, v) := by
  have unreserved := isReserved_language l
  have noSteps : l.tag ≠ "steps" := ne_of_unreserved unreserved rfl
  have noWrapper : l.tag ≠ "expression" := ne_of_unreserved unreserved rfl
  have as : entryExpressions (.ofTag s.kind) (k, v) = [.inline l v] := by
    rw [entryExpressions_of_key _ scalar noSteps noWrapper, role_language]
    exact if_pos takes
  have rule (has : Bool) : FieldRule.of (.ofTag s.kind) has l.tag v =
      if has then .lateExpression else .expression l := by
    rw [rule_of_unreserved unreserved, role_language]
    exact if_pos takes
  have others : otherNotes path s.kind (k, v) = [] := by
    simp [otherNotes, isExpressionEntry, as, scalar, noSteps]
  rw [SettlesEntry, as, others]
  cases has : s.expression with
  | none =>
    have read : readBody path (.ofTag s.kind) s [(k, v)] = do
        return s.withExpression (← readExpression (childPath path l.tag) l v) := by
      simp only [readBody, scalar, has, Option.isSome_none, rule, Bool.false_eq_true, if_false]
    rw [read]
    refine .first has ?_ (List.append_nil _)
    exact congrArg s.withExpression (value_readExpression _ "" l v)
  | some first =>
    have read : readBody path (.ofTag s.kind) s [(k, v)] =
        .unknownShape (childPath path l.tag)
          s!"`{s.kind}` already has an expression, `{l.tag}` kept as a child" >>= fun _ =>
        readChild path l.tag s v := by
      simp only [readBody, scalar, has, Option.isSome_some, rule, if_true, bind_pure]
    obtain ⟨added, slots, kept⟩ := slots_lateChild path s l v
    rw [read]
    refine .late (by rw [has]; rfl) (grows_readChild path l.tag s v)
      (attributes_lateChild path s l v) slots kept ?_
    exact congrArg (_ :: ·) (notes_readChild path l.tag s (.bare s.kind) v)

/-- Whether there is an expression already only counts for expressions. -/
theorem rule_of_other (role : Role) (noSteps : key ≠ "steps") (noWrapper : key ≠ "expression")
    (noExpression : (Role.ofTag key).isExpression = false ∨ takenInline role v = false) :
    ∃ rule, (∀ has, FieldRule.of role has key v = rule) ∧
      (rule = .child ∨ rule = .reserved ∨ ∃ text, rule = .text text) := by
  cases reserved : isReserved key with
  | false => exact ⟨.child, fun _ => rule_child reserved noExpression, .inl rfl⟩
  | true =>
    simp only [isReserved, reservedKeys, List.contains_eq_mem, List.mem_cons, List.not_mem_nil,
      or_false, decide_eq_true_eq] at reserved
    rcases reserved with rfl | rfl | rfl | rfl | rfl
    · contradiction
    · exact ⟨.reserved, fun _ => rfl, .inr (.inl rfl)⟩
    · exact ⟨.reserved, fun _ => rfl, .inr (.inl rfl)⟩
    · contradiction
    · cases text : v.scalarText? with
      | none => exact ⟨.reserved, fun _ => by simp only [FieldRule.of, text], .inr (.inl rfl)⟩
      | some t => exact ⟨.text t, fun _ => by simp only [FieldRule.of, text], .inr (.inr ⟨t, rfl⟩)⟩

theorem settlesEntry_other (scalar : k.scalarText? = some key) (noSteps : key ≠ "steps")
    (noWrapper : key ≠ "expression")
    (noExpression : (Role.ofTag key).isExpression = false ∨
      takenInline (.ofTag s.kind) v = false) : SettlesEntry path s (k, v) := by
  have as : entryExpressions (.ofTag s.kind) (k, v) = [] := by
    rw [entryExpressions_of_key _ scalar noSteps noWrapper]
    cases role : Role.ofTag key with
    | expression l =>
      rw [role] at noExpression
      simpa [Role.isExpression] using noExpression
    | _ => rfl
  obtain ⟨rule, same, what⟩ := rule_of_other (.ofTag s.kind) noSteps noWrapper noExpression
  rcases what with rfl | rfl | ⟨text, rfl⟩
  · have read (t : Step) : readBody path (.ofTag s.kind) t [(k, v)] = readChild path key t v := by
      simp only [readBody, scalar, same, bind_pure]
    refine settlesEntry_of_none as ?_ ?_
    · rw [read]
      exact .other (grows_readChild path key s v)
    · rw [read, read]
      exact notes_readChild path key _ s v
  · have read (t : Step) : readBody path (.ofTag s.kind) t [(k, v)] = do
        expected (childPath path key) "no reserved key" v.describe
        return t := by
      simp only [readBody, scalar, same]
    refine settlesEntry_of_none as ?_ ?_
    · rw [read]
      exact .other (.refl key s)
    · rw [read, read]
      rfl
  · have read (t : Step) : readBody path (.ofTag s.kind) t [(k, v)] =
        pure (t.withText (some text)) := by
      simp only [readBody, scalar, same]
    refine settlesEntry_of_none as ?_ ?_
    · rw [read]
      exact .other (.withText s _)
    · rw [read, read]
      rfl

/-- Every entry is settled: the cases are those in which its key can be judged. -/
theorem settlesEntry (path : String) (s : Step) (e : Entry) : SettlesEntry path s e := by
  obtain ⟨k, v⟩ := e
  cases scalar : k.scalarText? with
  | none => exact settlesEntry_unnamed scalar
  | some key =>
    by_cases steps : key = "steps"
    · exact settlesEntry_steps (steps ▸ scalar)
    by_cases wrapper : key = "expression"
    · exact settlesEntry_wrapper (wrapper ▸ scalar)
    cases takes : takenInline (.ofTag s.kind) v with
    | false => exact settlesEntry_other scalar steps wrapper (.inr takes)
    | true =>
      cases role : Role.ofTag key with
      | expression l =>
        rw [← Language.tag_of_role role] at scalar
        exact settlesEntry_inline scalar takes
      | _ => exact settlesEntry_other scalar steps wrapper (.inl (by rw [role]; rfl))

/-- Every expression in a body is settled, in order. -/
theorem settles_readBody (path : String) (s : Step) (es : List Entry) :
    Settles (expressionRule path s.kind) s (bodyExpressions (.ofTag s.kind) es)
      (es.flatMap (otherNotes path s.kind)) (readBody path (.ofTag s.kind) s es) := by
  induction es generalizing s with
  | nil => exact .nothing s
  | cons e rest ih =>
    have first := settlesEntry path s e
    have others := ih (readBody path (.ofTag s.kind) s [e]).value
    rw [first.kind] at others
    rw [readBody_cons]
    exact first.bind others

end Bodies
end RouteNotation.Dsl
