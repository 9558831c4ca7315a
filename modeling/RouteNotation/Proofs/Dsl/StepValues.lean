import RouteNotation.Proofs.Dsl.FieldValues
import RouteNotation.Proofs.Dsl.FirstExpression

/-!
What becomes of the texts in the tree of a step when nothing is noted: the step holds them, or they
are passed over. Main statements: `values_readStepItem` and
`values_readSteps`.
-/

namespace RouteNotation.Dsl

open Yaml

section Kept
variable {path key j x : String} {role : Role} {s t : Step} {k v : Value}

theorem keeps_collapse? (key : String) {item : Value} (found : collapse? s item = some t) :
    s.Keeps key t := by
  rcases collapse?_cases item with ⟨l, text, -, made⟩ | ⟨-, tag, text, made⟩ | ⟨-, made⟩
  · rw [made] at found
    cases has : s.expression with
    | none =>
      rw [has] at found
      cases found
      exact .withExpression key has _
    | some e =>
      rw [has] at found
      cases found
      exact (Step.Grows.push key s _).keeps
  · rw [made] at found
    cases found
    exact (Step.Grows.push key s _).keeps
  · rw [made] at found
    cases found

theorem keeps_readNestedItems (key path : String) (container : Bool) (index : Nat)
    (items : List Value) (s : Step) :
    s.Keeps key (readNestedItems path container index s items).value := by
  induction items generalizing index s with
  | nil => exact (Step.Grows.refl key s).keeps
  | cons item rest ih =>
    rw [readNestedItems]
    split
    · rename_i t collapsed
      split at collapsed
      · exact (keeps_collapse? key collapsed).trans (ih _ t)
      · cases collapsed
    · exact (Step.Grows.pushNested key s _).keeps.trans (ih _ _)

theorem keeps_readNested (key path found : String) (container : Bool) (s : Step) (v : Value) :
    s.Keeps key (readNested path found container s v).value := by
  rcases readNested_cases path found container v with ⟨items, -, read⟩ | ⟨-, read⟩
  · rw [read]
    exact keeps_readNestedItems key path container 0 items s
  · rw [read]
    exact (Step.Grows.refl key s).keeps

theorem keeps_readWrapper (key path : String) (s : Step) (v : Value) :
    s.Keeps key (readWrapper path s v).value := by
  unfold readWrapper
  split
  · exact (Step.Grows.refl key s).keeps
  · split
    · exact (Step.Grows.refl key s).keeps
    · rename_i free
      exact .withExpression key (Option.not_isSome_iff_eq_none.1 free) _

theorem key_of_text {has : Bool} {text : String}
    (rule : FieldRule.of role has key v = .text text) :
    key = "text" ∧ v.scalarText? = some text := by
  unfold FieldRule.of at rule
  split at rule
  · cases rule
  · cases rule
  · split at rule
    · rename_i scalar
      cases rule
      exact ⟨rfl, scalar⟩
    · cases rule
  · cases rule
  · cases rule
  · split at rule
    · split at rule
      · split at rule <;> cases rule
      · cases rule
    · cases rule

theorem free_of_expression {has : Bool} {l : Language}
    (rule : FieldRule.of role has key v = .expression l) : has = false := by
  unfold FieldRule.of at rule
  split at rule
  · cases rule
  · cases rule
  · split at rule <;> cases rule
  · cases rule
  · cases rule
  · split at rule
    · split at rule
      · split at rule
        · cases rule
        · rename_i free
          exact Bool.eq_false_iff.2 free
      · cases rule
    · cases rule

theorem keeps_readEntry (scalar : k.scalarText? = some key) :
    s.Keeps key (readBody path role s [(k, v)]).value := by
  simp only [readBody, scalar]
  split
  · split
    · exact keeps_readNested key _ _ _ s v
    · exact keeps_readNested key _ _ _ s v
  · exact keeps_readWrapper key _ s v
  · rename_i rule
    obtain rfl := (key_of_text rule).1
    exact (Step.Grows.withText s _).keeps
  · exact (Step.Grows.refl key s).keeps
  · rename_i rule
    have free : s.expression = none := by simpa using free_of_expression rule
    exact .withExpression key free _
  · exact (grows_readChild path key s v).keeps
  · exact (grows_readChild path key s v).keeps

/-- What is held under a key stays while the entries under other keys are read. -/
theorem keeps_readBody {es : List Entry} (once : ∀ e ∈ es, e.1.scalarText? ≠ some key)
    (held : s.Holds key x) :
    (readBody path role s es).value.Holds key x := by
  induction es generalizing s with
  | nil => exact held
  | cons e rest ih =>
    obtain ⟨first, others⟩ := List.forall_mem_cons.1 once
    rw [readBody_cons, Noted.value_bind]
    refine ih others ?_
    obtain ⟨l, w⟩ := e
    cases other : l.scalarText? with
    | none =>
      simp only [readBody, other]
      exact held
    | some j =>
      have different : key ≠ j := by
        rintro rfl
        exact first other
      exact (keeps_readEntry other).holds different held

end Kept

section Taken
variable {path key x : String} {role : Role} {s t : Step} {k v : Value}

theorem mem_values_textStep (kind text : String) : text ∈ (textStep kind text).values := by
  unfold textStep
  rw [Step.values_eq]
  refine List.mem_append_left _ (List.mem_append.2 ?_)
  split
  · exact .inl (List.mem_singleton_self text)
  · exact .inr (List.mem_singleton_self text)

/-- The mapping of which the first entry is looked at, and nothing is beside it if it is the only
one. -/
theorem eq_of_firstEntry? {es : List Entry} {tag : String} {body : Value}
    (clear : v.Clear) (mapping : v.mapping? = some es) (first : firstEntry? es = some (tag, body)) :
    ∃ k more, v = .mapping ((k, body) :: more) ∧ es = (k, body) :: more := by
  cases es with
  | nil => cases first
  | cons e more =>
    obtain ⟨k, w⟩ := e
    simp only [Option.map_eq_some_iff, firstEntry?, Prod.mk.injEq] at first
    obtain ⟨_, -, -, rfl⟩ := first
    exact ⟨k, more, clear.eq_mapping mapping, rfl⟩

/-- An entry of the steps of a container that is a text is held as one. -/
theorem values_collapse? {item : Value} (clear : item.Clear) (found : collapse? s item = some t) :
    ∀ x ∈ item.texts, x ∈ t.lowerValues := by
  unfold collapse? at found
  simp only [Option.bind_eq_bind, Option.bind_eq_some_iff] at found
  obtain ⟨es, mapping, ⟨tag, body⟩, first, text, scalar, found⟩ := found
  obtain ⟨k, more, rfl, rfl⟩ := eq_of_firstEntry? clear mapping first
  split at found
  · cases found
  · rename_i alone
    obtain rfl : more = [] := by
      rw [← List.length_eq_zero_iff]
      simp only [Bool.or_eq_true, not_or, decide_eq_true_eq, List.length_cons] at alone
      omega
    intro x hx
    simp only [Value.texts, entriesTexts, List.append_nil, texts_of_scalarText? scalar,
      List.mem_singleton] at hx
    subst hx
    split at found
    · split at found
      · cases found
        exact Step.mem_lowerValues_withExpression s (List.mem_singleton_self x)
      · cases found
        exact Step.mem_lowerValues_text s tag x
    · cases found
      exact Step.mem_lowerValues_text s tag x

theorem values_readTextChild (run : readTextChild path key s v = pure t) :
    ∀ x ∈ v.texts, x ∈ t.lowerValues := by
  unfold readTextChild at run
  split at run
  · rename_i text scalar
    obtain rfl := Noted.eq_of_pure run
    intro x hx
    rw [texts_of_scalarText? scalar, List.mem_singleton] at hx
    subst hx
    exact Step.mem_lowerValues_text s key x
  · exact absurd run Noted.unknownShape_bind_ne_pure

theorem values_readTextField (run : readTextField path key s v = pure t) :
    ∀ x ∈ v.texts, t.Holds key x := by
  unfold readTextField at run
  split at run
  · rw [Noted.bind_eq_pure] at run
    obtain rfl := Noted.eq_of_pure run.2
    exact fun x hx => .inl (holds_readAttribute run.1 hx)
  · exact fun x hx => .inr (.inr (values_readTextChild run x hx))

theorem values_withExpression {l : Language} (clear : v.Clear)
    (run : (do return s.withExpression (← readExpression path l v)) = (pure t : Noted Step)) :
    ∀ x ∈ v.texts, x ∈ t.lowerValues ∨ x ∈ expressionUnread v := by
  rw [Noted.bind_eq_pure] at run
  obtain rfl := Noted.eq_of_pure run.2
  exact fun x hx => (values_readExpression clear run.1 x hx).imp_left
    (Step.mem_lowerValues_withExpression s)

theorem values_readWrapper (clear : v.Clear) (run : readWrapper path s v = pure t) :
    ∀ x ∈ v.texts, x ∈ t.lowerValues ∨ x ∈ wrapperUnread v := by
  unfold readWrapper at run
  split at run
  · exact absurd run Noted.unknownShape_bind_ne_pure
  · rename_i l body found
    split at run
    · exact absurd run Noted.unknownShape_bind_ne_pure
    · simp only [wrapped?, Option.bind_eq_bind, Option.bind_eq_some_iff] at found
      obtain ⟨es, mapping, ⟨tag, inner⟩, first, language, -, same⟩ := found
      cases same
      obtain ⟨k, more, rfl, rfl⟩ := eq_of_firstEntry? clear mapping first
      have taken := values_withExpression (clear.entry _ List.mem_cons_self) run
      have unread : wrapperUnread (.mapping ((k, inner) :: more)) =
        expressionUnread inner ++ entriesTexts more := rfl
      intro x hx
      rw [unread, List.mem_append]
      rcases List.mem_append.1 hx with here | beside
      · exact (taken x here).imp_right .inl
      · exact .inr (.inr beside)

/-- A rule that leaves no diagnostic does not ask for an expression. -/
theorem rule_unasked {has : Bool} {rule : FieldRule} (same : FieldRule.of role has key v = rule)
    (early : rule ≠ .lateExpression) : FieldRule.of role false key v = rule := by
  rw [← same] at early ⊢
  unfold FieldRule.of at early ⊢
  split
  · rfl
  · rfl
  · rfl
  · rfl
  · rfl
  · split
    · split
      · cases has with
        | false => rfl
        | true => simp_all
      · rfl
    · rfl

/-- One entry of a body, by what becomes of steps and of children. -/
theorem values_readEntry (clear : v.Clear)
    (nested : ∀ here found container t, readNested here found container s v = pure t →
      ∀ x ∈ v.texts, x ∈ t.lowerValues ∨ x ∈ nestedUnread v)
    (child : ∀ key t, readChild path key s v = pure t →
      ∀ x ∈ v.texts, t.Holds key x ∨ x ∈ childUnread key v)
    (run : readBody path role s [(k, v)] = pure t) :
    ∃ key, k.scalarText? = some key ∧
      ∀ x ∈ v.texts, t.Holds key x ∨ x ∈ bodyEntryUnread role key v := by
  cases scalar : k.scalarText? with
  | none =>
    simp only [readBody, scalar] at run
    exact absurd run Noted.unknownShape_bind_ne_pure
  | some key =>
    refine ⟨key, rfl, ?_⟩
    unfold bodyEntryUnread
    simp only [readBody, scalar] at run
    cases rule : FieldRule.of role s.expression.isSome key v with
    | steps =>
      rw [rule_unasked rule (by decide)]
      simp only [rule] at run
      split at run
      · exact absurd run Noted.unknownShape_bind_ne_pure
      · rw [bind_pure] at run
        exact fun x hx => (nested _ _ _ t run x hx).imp_left fun lower => .inr (.inr lower)
    | wrapper =>
      rw [rule_unasked rule (by decide)]
      simp only [rule, bind_pure] at run
      exact fun x hx => (values_readWrapper clear run x hx).imp_left fun lower => .inr (.inr lower)
    | text value =>
      obtain ⟨rfl, text⟩ := key_of_text rule
      simp only [rule] at run
      obtain rfl := Noted.eq_of_pure run
      intro x hx
      rw [texts_of_scalarText? text, List.mem_singleton] at hx
      exact .inl (.inr (.inl ⟨rfl, congrArg some hx.symm⟩))
    | reserved =>
      simp only [rule] at run
      exact absurd run Noted.unknownShape_bind_ne_pure
    | expression l =>
      rw [rule_unasked rule (by simp)]
      simp only [rule] at run
      exact fun x hx => (values_withExpression clear run x hx).imp_left
        fun lower => .inr (.inr lower)
    | lateExpression =>
      simp only [rule] at run
      exact absurd run Noted.unknownShape_bind_ne_pure
    | child =>
      rw [rule_unasked rule (by decide)]
      simp only [rule, bind_pure] at run
      exact child key t run

theorem lower_readNestedItems {container : Bool} {index : Nat} {items : List Value}
    (run : readNestedItems path container index s items = pure t) :
    s.lowerValues ⊆ t.lowerValues := by
  have kept := (keeps_readNestedItems "steps" path container index items s).lower
  rwa [run] at kept

theorem lower_readChildItems {items : List Value}
    (run : readChildItems path key s items = pure t) : s.lowerValues ⊆ t.lowerValues := by
  have kept := (grows_readChildItems path key items s).keeps.lower
  rwa [run] at kept

end Taken

mutual

theorem values_readStepItem (path found : String) : (v : Value) → v.Clear →
    ∀ {r}, readStepItem path found v = pure r →
      ∀ x ∈ v.texts, x ∈ r.toList.flatMap Step.values ∨ x ∈ stepItemUnread v
  | .tagged _ _, clear, _, _, _, _ => clear.untagged.elim
  | .mapping ((k, body) :: more), clear, r, run, x, hx => by
    simp only [readStepItem] at run
    split at run
    · rename_i kind scalar
      split at run
      · exact absurd run Noted.unknownShape_bind_ne_pure
      · rename_i alone
        obtain rfl : more = [] := by simpa using alone
        have only : x ∈ body.texts := by simpa [Value.texts, entriesTexts] using hx
        have read := values_readStep _ kind body (clear.entry _ List.mem_cons_self) run x only
        simpa only [stepItemUnread, scalar, Option.getD_some] using read
    · exact absurd run Noted.unknownShape_bind_ne_pure
  | .mapping [], _, _, _, _, hx => by cases hx
  | .null, _, _, _, _, hx => by cases hx
  | .bool _, _, _, run, _, _ | .int _, _, _, run, _, _ | .float _, _, _, run, _, _
  | .string _, _, _, run, _, _ | .sequence _, _, _, run, _, _ =>
    absurd run Noted.unknownShape_bind_ne_pure

theorem values_readStep (path kind : String) : (body : Value) → body.Clear →
    ∀ {r}, readStep path kind body = pure r →
      ∀ x ∈ body.texts, x ∈ r.toList.flatMap Step.values ∨ x ∈ stepUnread kind body
  | .tagged _ _, clear, _, _, _, _ => clear.untagged.elim
  | .mapping es, clear, r, run, x, hx => by
    simp only [readStep] at run
    split at run
    · exact absurd run Noted.unknownShape_bind_ne_pure
    · rw [Noted.bind_eq_pure] at run
      obtain rfl := Noted.eq_of_pure run.2
      rw [Option.toList_some, List.flatMap_singleton]
      exact values_readBody path (.ofTag kind) es clear run.1 x hx
  | .null, _, _, _, _, hx => by cases hx
  | .sequence _, _, _, run, _, _ => by
    simp only [readStep] at run
    split at run
    · exact absurd run Noted.unknownShape_bind_ne_pure
    · exact absurd run Noted.unknownShape_bind_ne_pure
  | .bool _, _, _, run, x, hx | .int _, _, _, run, x, hx | .float _, _, _, run, x, hx
  | .string _, _, _, run, x, hx => by
    simp only [readStep] at run
    split at run
    · exact absurd run Noted.unknownShape_bind_ne_pure
    · obtain rfl := Noted.eq_of_pure run
      cases List.mem_singleton.1 hx
      rw [Option.toList_some, List.flatMap_singleton]
      exact .inl (mem_values_textStep kind _)

theorem values_readBody (path : String) (role : Role) : (es : List (Value × Value)) →
    (Value.mapping es).Clear → ∀ {s t}, readBody path role s es = pure t →
      ∀ x ∈ entriesTexts es, x ∈ t.values ∨ x ∈ bodyUnread role es
  | [], _, _, _, _, _, hx => by cases hx
  | (k, v) :: rest, clear, s, t, run, x, hx => by
    have below : v.Clear := clear.entry _ List.mem_cons_self
    rw [readBody_cons, Noted.bind_eq_pure] at run
    obtain ⟨key, scalar, taken⟩ := values_readEntry below
      (fun here found container t => values_readNested here found container v below)
      (fun key t => values_readChild path key v below) run.1
    rw [bodyUnread_cons scalar, List.mem_append]
    rcases List.mem_append.1 hx with here | later
    · by_cases again : readUnder key rest
      · rw [if_pos again]
        exact .inr (.inl here)
      · -- What the entry leaves stays while the rest is read under other keys.
        rw [if_neg again]
        refine (taken x here).imp (fun held => ?_) .inl
        have last : t = (readBody path role _ rest).value := (congrArg Noted.value run.2).symm
        rw [last]
        exact (keeps_readBody (not_readUnder again) held).mem_values
    · exact (values_readBody path role rest clear.tail run.2 x later).imp_right .inr

theorem values_readNested (path found : String) (container : Bool) : (v : Value) → v.Clear →
    ∀ {s t}, readNested path found container s v = pure t →
      ∀ x ∈ v.texts, x ∈ t.lowerValues ∨ x ∈ nestedUnread v
  | .tagged _ _, clear, _, _, _, _, _ => clear.untagged.elim
  | .sequence items, clear, s, t, run, x, hx => by
    rw [readNested] at run
    exact values_readNestedItems path container 0 items clear.item run x hx
  | .null, _, _, _, _, _, hx => by cases hx
  | .bool _, _, _, _, run, _, _ | .int _, _, _, _, run, _, _ | .float _, _, _, _, run, _, _
  | .string _, _, _, _, run, _, _ | .mapping _, _, _, _, run, _, _ =>
    absurd run Noted.unknownShape_bind_ne_pure

theorem values_readNestedItems (path : String) (container : Bool) (index : Nat) :
    (items : List Value) → (∀ v ∈ items, v.Clear) →
      ∀ {s t}, readNestedItems path container index s items = pure t →
        ∀ x ∈ itemsTexts items, x ∈ t.lowerValues ∨ x ∈ nestedItemsUnread items
  | [], _, _, _, _, _, hx => by cases hx
  | item :: rest, clear, s, t, run, x, hx => by
    obtain ⟨below, others⟩ := List.forall_mem_cons.1 clear
    rw [nestedItemsUnread, List.mem_append]
    rw [readNestedItems] at run
    split at run
    · rename_i made collapsed
      split at collapsed
      · rcases List.mem_append.1 hx with here | after
        · exact .inl (lower_readNestedItems run (values_collapse? below collapsed x here))
        · have later := values_readNestedItems path container (index + 1) rest others run x after
          exact later.imp_right .inr
      · cases collapsed
    · rw [Noted.bind_eq_pure] at run
      rcases List.mem_append.1 hx with here | after
      · refine (values_readStepItem _ _ item below run.1 x here).imp (fun held => ?_) .inl
        apply lower_readNestedItems run.2
        cases read : (readStepItem (indexPath path index) item.describe item).value with
        | none => simp [read] at held
        | some child =>
          rw [read, Option.toList_some, List.flatMap_singleton] at held
          exact Step.mem_lowerValues_nested s held
      · have later := values_readNestedItems path container (index + 1) rest others run.2 x after
        exact later.imp_right .inr

theorem values_readChild (path key : String) : (v : Value) → v.Clear →
    ∀ {s t}, readChild path key s v = pure t →
      ∀ x ∈ v.texts, t.Holds key x ∨ x ∈ childUnread key v
  | .tagged _ _, clear, _, _, _, _, _ => clear.untagged.elim
  | .sequence items, clear, s, t, run, x, hx => by
    rw [readChild] at run
    split at run
    · exact absurd run Noted.unknownShape_bind_ne_pure
    · exact (values_readChildItems _ key items clear.item run x hx).imp_left
        fun lower => .inr (.inr lower)
  | .mapping es, clear, s, t, run, x, hx => by
    rw [readChild] at run
    split at run
    · exact absurd run Noted.unknownShape_bind_ne_pure
    · rw [Noted.bind_eq_pure] at run
      obtain rfl := Noted.eq_of_pure run.2
      exact (values_readBody _ (.ofTag key) es clear run.1 x hx).imp_left
        fun held => .inr (.inr (Step.mem_lowerValues_element s key held))
  | .null, _, _, _, _, _, hx => by cases hx
  | .bool _, _, s, t, run, x, hx | .int _, _, s, t, run, x, hx | .float _, _, s, t, run, x, hx
  | .string _, _, s, t, run, x, hx => by
    simp only [readChild] at run
    split at run
    · exact absurd run Noted.unknownShape_bind_ne_pure
    · exact .inl (values_readTextField run x hx)

theorem values_readChildItems (path key : String) : (items : List Value) →
    (∀ v ∈ items, v.Clear) → ∀ {s t}, readChildItems path key s items = pure t →
      ∀ x ∈ itemsTexts items, x ∈ t.lowerValues ∨ x ∈ childItemsUnread key items
  | [], _, _, _, _, _, hx => by cases hx
  | .tagged _ _ :: _, clear, _, _, _, _, _ => (clear _ List.mem_cons_self).untagged.elim
  | .null :: rest, clear, s, t, run, x, hx => by
    rw [readChildItems] at run
    exact values_readChildItems path key rest (List.forall_mem_cons.1 clear).2 run x hx
  | .mapping es :: rest, clear, s, t, run, x, hx => by
    obtain ⟨below, others⟩ := List.forall_mem_cons.1 clear
    rw [childItemsUnread, List.mem_append, stepUnread]
    rw [readChildItems, Noted.bind_eq_pure] at run
    rcases List.mem_append.1 hx with here | after
    · refine (values_readBody path (.ofTag key) es below run.1 x here).imp (fun held => ?_) .inl
      exact lower_readChildItems run.2 (Step.mem_lowerValues_element s key held)
    · exact (values_readChildItems path key rest others run.2 x after).imp_right .inr
  | .bool _ :: rest, clear, s, t, run, x, hx | .int _ :: rest, clear, s, t, run, x, hx
  | .float _ :: rest, clear, s, t, run, x, hx | .string _ :: rest, clear, s, t, run, x, hx
  | .sequence _ :: rest, clear, s, t, run, x, hx => by
    obtain ⟨-, others⟩ := List.forall_mem_cons.1 clear
    rw [childItemsUnread, List.mem_append]
    simp only [readChildItems, Noted.bind_eq_pure] at run
    rcases List.mem_append.1 hx with here | after
    · exact .inl (lower_readChildItems run.2 (values_readTextChild run.1 x here))
    · exact (values_readChildItems path key rest others run.2 x after).imp_right .inr

end

section Lists
variable {path : String} {v : Value}

theorem values_readStepItems {index : Nat} {items : List Value} {steps : List Step}
    (clear : ∀ v ∈ items, v.Clear) (run : readStepItems path index items = pure steps) :
    ∀ x ∈ itemsTexts items, x ∈ steps.flatMap Step.values ∨ x ∈ items.flatMap stepItemUnread := by
  induction items generalizing index steps with
  | nil => nofun
  | cons item rest ih =>
    obtain ⟨below, others⟩ := List.forall_mem_cons.1 clear
    rw [readStepItems, Noted.bind_eq_pure, Noted.bind_eq_pure] at run
    obtain ⟨first, later, last⟩ := run
    obtain rfl := Noted.eq_of_pure last
    intro x hx
    rw [List.flatMap_append, List.flatMap_cons, List.mem_append, List.mem_append]
    rcases List.mem_append.1 hx with here | after
    · exact (values_readStepItem _ _ item below first x here).imp .inl .inl
    · exact (ih others later x after).imp .inr .inr

theorem values_readSteps {steps : List Step} (clear : v.Clear)
    (run : readSteps path v = pure steps) :
    ∀ x ∈ v.texts, x ∈ steps.flatMap Step.values ∨ x ∈ stepsUnread v := by
  unfold readSteps at run
  split at run
  · rename_i items found
    rw [stepsUnread, found]
    obtain rfl := clear.eq_sequence found
    exact values_readStepItems clear.item run
  · exact absurd run Noted.unknownShape_bind_ne_pure

end Lists
end RouteNotation.Dsl
