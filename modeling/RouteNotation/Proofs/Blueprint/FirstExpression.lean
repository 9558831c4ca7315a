import RouteNotation.Proofs.Blueprint.EntityValues
import RouteNotation.Proofs.Blueprint.ReadParts
import RouteNotation.Proofs.Route.FirstExpression
import RouteNotation.Proofs.Route.Tags

/-!
Elements that hold several expressions. Main statement: `settles_readChildren`.
-/

namespace RouteNotation.Blueprint

open Xml

section Expressions

/-- The language of an element that is an expression. -/
def language? (e : Element) : Option Language :=
  match Role.ofTag e.localName with
  | .expression language => some language
  | _ => none

/-- The expressions among elements, in order. -/
def expressionsOf (es : List Element) : List (Language × Element) :=
  es.flatMap fun e => (language? e).toList.map fun language => (language, e)

/-- An expression read as a child; no language is reserved, so it is always read. -/
def childStep (e : Element) : Step := (readStep "" e).value.getD (.bare e.localName)

/-- What is noted about an expression that comes too late. -/
def lateExpression (path kind tag : String) : Diagnostic :=
  .unknownShape (childPath path tag)
    s!"`{kind}` already has an expression, `{tag}` kept as a child"

/-- The first expression is read as one, and the others as children. -/
def expressionRule (path kind : String) : ExpressionRule (Language × Element) where
  expression x := (readExpression "" x.1 x.2).value
  notes x := (readExpression (childPath path x.1.tag) x.1 x.2).notes
  lateAttributes _ := []
  lateChildren x := [.element x.1.tag (childStep x.2)]
  lateNotes x :=
    lateExpression path kind x.1.tag :: (readStep (childPath path x.1.tag) x.2).notes

/-- What is noted about an element that is no expression. -/
def otherNotes (path kind : String) (e : Element) : List Diagnostic :=
  if (language? e).isSome then [] else (readChildren path (.bare kind) [.element e]).notes

end Expressions

section Children
variable {path : String} {s : Step} {e : Element}

theorem readChildren_cons (c : Content) (cs : List Content) :
    readChildren path s (c :: cs) =
      readChildren path s [c] >>= fun s => readChildren path s cs := by
  cases c with
  | text value => simp only [readChildren, pure_bind]
  | element e =>
    simp only [readChildren]
    split <;> simp only [bind_assoc, pure_bind]

theorem kind_readChild (path : String) (s : Step) (c : Content) :
    (readChildren path s [c]).value.kind = s.kind := by
  cases c with
  | text value => rfl
  | element e =>
    rw [readChildren]
    split
    · rfl
    · rfl
    · exact (Step.Grows.pushElement e.localName s _).kind
    · rfl
    · exact (Step.Grows.pushElement e.localName s _).kind
    · exact (Step.Grows.pushNested e.localName s _).kind

theorem kind_readChildren (path : String) (s : Step) (cs : List Content) :
    (readChildren path s cs).value.kind = s.kind := by
  induction cs generalizing s with
  | nil => rfl
  | cons c cs ih => rw [readChildren_cons, Noted.value_bind, ih, kind_readChild]

/-- The step of an element, unless its tag is reserved. -/
theorem readStep_childStep (path : String) (unreserved : isReserved e.localName = false) :
    (readStep path e).value = some (childStep e) ∧ (childStep e).kind = e.localName := by
  rw [childStep, value_readStep path ""]
  obtain ⟨name, attributes, children⟩ := e
  have free : isReserved (localName name) = false := unreserved
  simp only [readStep, free, Bool.false_eq_true, if_false]
  exact ⟨rfl, kind_readChildren "" _ children⟩

theorem role_of_language? {l : Language} (h : language? e = some l) :
    Role.ofTag e.localName = .expression l := by
  unfold language? at h
  split at h
  · rename_i role
    cases h
    exact role
  · cases h

/-- Whether there is an expression already only counts for expressions. -/
theorem rule_of_other (h : language? e = none) (kind : String) (has : Bool) :
    ChildRule.of kind has e = ChildRule.of kind false e := by
  unfold ChildRule.of
  dsimp only
  split
  · rfl
  · split
    · rename_i role
      rw [language?, role] at h
      cases h
    · rfl
    · rfl
    · rfl

theorem rule_of_language {l : Language} (h : language? e = some l) (kind : String) (has : Bool) :
    ChildRule.of kind has e = if has then .lateExpression else .expression l := by
  have role := role_of_language? h
  have unreserved : isReserved e.localName = false := by
    rw [← Language.tag_of_role role]
    exact isReserved_language l
  unfold ChildRule.of
  dsimp only
  rw [unreserved, role]
  rfl

theorem notes_readChild_of_other (h : language? e = none) :
    otherNotes path s.kind e = (readChildren path s [.element e]).notes := by
  have rule := rule_of_other h s.kind s.expression.isSome
  have bare : ChildRule.of (Step.bare s.kind).kind (Step.bare s.kind).expression.isSome e =
    ChildRule.of s.kind false e := rfl
  rw [otherNotes, h]
  simp only [readChildren, rule, bare]
  cases ChildRule.of s.kind false e <;> rfl

theorem grows_readChild_of_other (h : language? e = none) :
    s.Grows e.localName (readChildren path s [.element e]).value := by
  rw [readChildren]
  split
  · exact .refl _ s
  · rename_i rule
    rw [rule_of_other h] at rule
    have role := (role_of_rule rule).2
    rw [language?, role] at h
    cases h
  · exact .pushElement _ s _
  · exact .push _ s _
  · exact .pushElement _ s _
  · exact .pushNested _ s _

theorem settles_readChild (path : String) (s : Step) (e : Element) :
    Settles (expressionRule path s.kind) s ((language? e).toList.map fun l => (l, e))
      (otherNotes path s.kind e) (readChildren path s [.element e]) := by
  cases found : language? e with
  | none =>
    rw [notes_readChild_of_other found]
    exact .other (grows_readChild_of_other found)
  | some l =>
    have none : otherNotes path s.kind e = [] := by simp [otherNotes, found]
    have tag : l.tag = e.localName := Language.tag_of_role (role_of_language? found)
    rw [none]
    cases has : s.expression with
    | none =>
      have read : readChildren path s [.element e] = do
          return s.withExpression (← readExpression (childPath path l.tag) l e) := by
        simp only [readChildren, has, Option.isSome_none, rule_of_language found, tag,
          Bool.false_eq_true, if_false]
      rw [read]
      refine .first has ?_ (List.append_nil _)
      exact congrArg s.withExpression (value_readExpression _ "" l e)
    | some first =>
      have read : readChildren path s [.element e] = do
          lateExpression path s.kind l.tag |> Noted.note
          return s.pushElement (← readStep (childPath path l.tag) e) := by
        simp only [readChildren, has, Option.isSome_some, rule_of_language found, tag, if_true]
        rfl
      have unreserved : isReserved e.localName = false := tag ▸ isReserved_language l
      obtain ⟨value, kind⟩ := readStep_childStep (childPath path l.tag) unreserved
      have pushed : s.pushElement (readStep (childPath path l.tag) e).value =
          s.push (.element l.tag (childStep e)) := by
        rw [value, tag, ← kind]
        rfl
      rw [read]
      refine .late (by rw [has]; rfl) (.pushElement l.tag s _) (List.nil_subset _)
        (congrArg Step.slots pushed) (List.Sublist.refl _) (congrArg (_ :: ·) (List.append_nil _))

/-- Every expression among the children is settled, in order. -/
theorem settles_readChildren (path : String) (s : Step) (cs : List Content) :
    Settles (expressionRule path s.kind) s (expressionsOf (cs.filterMap Content.element?))
      ((cs.filterMap Content.element?).flatMap (otherNotes path s.kind))
      (readChildren path s cs) := by
  induction cs generalizing s with
  | nil => exact .nothing s
  | cons c cs ih =>
    rw [readChildren_cons]
    have rest := ih (readChildren path s [c]).value
    rw [kind_readChild] at rest
    cases c with
    | text value => exact rest
    | element e => exact (settles_readChild path s e).bind rest

end Children
end RouteNotation.Blueprint
