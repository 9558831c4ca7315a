import RouteNotation.Proofs.Blueprint.ReadNames
import RouteNotation.Proofs.Dsl.DocumentInduction
import RouteNotation.Proofs.Route.StepTree

/-!
Which keys get into the attributes of a document that is read from a value tree. In steps none is
reserved. Elsewhere the keys are those of a mapping in the tree, reserved or not. Main statement:
`readDocument_attributeKeys`.
-/

namespace RouteNotation.Dsl

open Yaml OrderedMap

/-- Whether the entry writes an attribute `key`, where the keys in `own` have a meaning. -/
def Writes (own : List String) (key : String) (e : Entry) : Prop :=
  e.1.scalarText? = some key ∧ key ∉ own ∧ Xml.isValidName key ∧ e.2.isScalar

/-- Whether the attributes are just those that some mapping writes. -/
def TakenFrom (P : List Entry → Prop) (own : List String) (m : Attributes) : Prop :=
  ∃ es, P es ∧ ∀ key, key ∈ m.keys ↔ ∃ e ∈ es, Writes own key e

section Keys
variable {path : String} {σ : Type} {own : List String}

/-- A key that has a meaning is no attribute. -/
theorem or_writes_iff {before : Prop} {key field : String} {v : Value} (meant : field ∈ own) :
    before ↔ before ∨ (key = field ∧ key ∉ own ∧ Xml.isValidName key ∧ v.isScalar) :=
  (or_iff_left fun h => h.2.1 (h.1 ▸ meant)).symm

theorem mem_keys_readAttribute_of_other {m : Attributes} {key field : String} {v : Value}
    (other : field ∉ own) : key ∈ (readAttribute path m field v).value.keys ↔
      key ∈ m.keys ∨ (key = field ∧ key ∉ own ∧ Xml.isValidName key ∧ v.isScalar) := by
  refine mem_keys_readAttribute_iff.trans (or_congr_right (and_congr_right fun same => ?_))
  exact (and_iff_right (same ▸ other)).symm

/-- A run over entries, each of which writes an attribute or none. -/
theorem mem_keys_foldlM (attributes : σ → Attributes) {f : σ → Entry → Noted σ}
    (h : ∀ s e key, key ∈ (attributes (f s e).value).keys ↔
      key ∈ (attributes s).keys ∨ Writes own key e) (s : σ) (es : List Entry) (key : String) :
    key ∈ (attributes (es.foldlM f s).value).keys ↔
      key ∈ (attributes s).keys ∨ ∃ e ∈ es, Writes own key e := by
  induction es generalizing s with
  | nil => simp
  | cons e es ih =>
    rw [List.foldlM_cons, Noted.value_bind, ih, h, or_assoc]
    simp only [List.mem_cons, exists_eq_or_imp]

theorem mem_keys_readFields (attributes : σ → Attributes) {read : σ → String → Value → Noted σ}
    (h : ∀ s field v key, key ∈ (attributes (read s field v).value).keys ↔
      key ∈ (attributes s).keys ∨ (key = field ∧ key ∉ own ∧ Xml.isValidName key ∧ v.isScalar))
    (s : σ) (es : List Entry) (key : String) :
    key ∈ (attributes (readFields read s es).value).keys ↔
      key ∈ (attributes s).keys ∨ ∃ e ∈ es, Writes own key e := by
  refine mem_keys_foldlM attributes (fun s e key => ?_) s es key
  rw [Writes]
  split
  · rename_i field text
    rw [h, text, Option.some.injEq, eq_comm]
  · rename_i none
    rw [none]
    simp

end Keys

section Maps
variable {P : List Entry → Prop} {es : List Entry}

theorem takenFrom_of_keys {own : List String} {m : Attributes} (here : P es)
    (h : ∀ key, key ∈ m.keys ↔ key ∈ (OrderedMap.empty : Attributes).keys ∨
      ∃ e ∈ es, Writes own key e) : TakenFrom P own m :=
  ⟨es, here, fun key => (h key).trans (or_iff_right not_mem_keys_empty)⟩

theorem takenFrom_readAttributes (path : String) (here : P es) :
    TakenFrom P [] (readAttributes path es).value := by
  refine takenFrom_of_keys here (mem_keys_foldlM id (fun m e key => ?_) .empty es)
  unfold readAttributeEntry
  rw [Writes]
  split
  · rename_i field text
    rw [text, Option.some.injEq, eq_comm]
    exact mem_keys_readAttribute_of_other List.not_mem_nil
  · rename_i none
    simp [none]

/-- An expression that is a scalar has no attributes. -/
theorem takenFrom_readExpression (path : String) (language : Language) {body : Value}
    (hv : body.Everywhere P) : (readExpression path language body).value.attributes = .empty ∨
      TakenFrom P ["expression"] (readExpression path language body).value.attributes := by
  unfold readExpression
  split
  · rename_i es
    refine .inr (takenFrom_of_keys hv.1
      (mem_keys_foldlM Expression.attributes (fun x e key => ?_) _ es))
    unfold readExpressionEntry
    rw [Writes]
    split
    · rename_i text
      rw [text, Option.some.injEq, eq_comm]
      exact or_writes_iff List.mem_cons_self
    · rename_i field other text
      rw [text, Option.some.injEq, eq_comm]
      exact mem_keys_readAttribute_of_other (mt List.mem_singleton.1 other)
    · rename_i none
      simp [none]
  · exact .inl rfl

theorem takenFrom_readOperation (path : String) (here : P es) :
    TakenFrom P ["description", "to"] (readOperation path es).value.attributes := by
  refine takenFrom_of_keys here (mem_keys_readFields Operation.attributes
    (fun o field v key => ?_) .empty es)
  unfold readOperationField
  split
  · exact or_writes_iff (by decide)
  · split <;> exact or_writes_iff (by decide)
  · rename_i notDescription notTo
    have other : field ∉ ["description", "to"] := by
      rw [List.mem_cons, List.mem_singleton]
      rintro (same | same)
      · exact notDescription same
      · exact notTo same
    exact mem_keys_readAttribute_of_other other

/-- A configuration has the scalars as attributes and takes a list of properties from mappings. -/
theorem takenFrom_readRestConfiguration (path : String) (here : P es)
    (inside : EntriesEverywhere P es) :
    TakenFrom P [] (readRestConfiguration path es).value.attributes ∧
      ∀ list ∈ (readRestConfiguration path es).value.propertyLists.entries, ∀ m ∈ list.2,
        TakenFrom P [] m := by
  constructor
  · refine takenFrom_of_keys here (mem_keys_readFields RestConfiguration.attributes
      (fun c field v key => ?_) _ es)
    unfold readConfigurationField
    dsimp only
    split
    · exact mem_keys_readAttribute_of_other List.not_mem_nil
    · rename_i notScalar
      have none : ¬ (key = field ∧ key ∉ ([] : List String) ∧ Xml.isValidName key ∧ v.isScalar) :=
        fun h => notScalar h.2.2.2
      refine Iff.trans ?_ (or_iff_left none).symm
      split
      · exact Iff.rfl
      · split <;> exact Iff.rfl
  · apply readFields_induction (P := fun c : RestConfiguration =>
      ∀ list ∈ c.propertyLists.entries, ∀ m ∈ list.2, TakenFrom P [] m)
    · nofun
    · intro c e he key lists
      unfold readConfigurationField
      dsimp only
      split
      · exact lists
      · split
        · exact lists
        · split
          · rename_i maps found
            have maps := everywhere_of_mappings? (entriesEverywhere_iff.1 inside e he) found
            intro list hl m hm
            -- A list takes the place of one that was read before under the same key.
            rcases mem_entries_insert hl with hl | rfl
            · exact lists list hl m hm
            · obtain ⟨fs, hf, rfl⟩ := mapM_value hm
              exact takenFrom_readAttributes _ (maps fs hf).1
          · exact lists

theorem takenFrom_readRestApi (path : String) (inside : EntriesEverywhere P es) :
    ∀ list ∈ (readRestApi path es).value.operations.entries, ∀ o ∈ list.2,
      TakenFrom P ["description", "to"] o.attributes := by
  apply readFields_induction (P := fun api : RestApi => ∀ list ∈ api.operations.entries,
    ∀ o ∈ list.2, TakenFrom P ["description", "to"] o.attributes)
  · nofun
  · intro api e he key lists
    unfold readRestField
    split
    · exact lists
    · exact lists
    · exact lists
    · split
      · dsimp only
        split
        · rename_i maps found
          have maps := everywhere_of_mappings? (entriesEverywhere_iff.1 inside e he) found
          intro list hl o ho
          rcases mem_of_mem_append hl ho with ⟨l, hl, ho⟩ | ho
          · exact lists l hl o ho
          · obtain ⟨fs, hf, rfl⟩ := mapM_value ho
            exact takenFrom_readOperation _ (maps fs hf).1
        · exact lists
      · exact lists

end Maps

section Steps
variable {P : List Entry → Prop}

/-- No attribute of the step itself has a reserved key; those of its expression come from a
mapping, if it has any. -/
def OwnKeys (P : List Entry → Prop) (s : Step) : Prop :=
  (∀ k ∈ s.attributes.keys, isReserved k = false) ∧
    ∀ x ∈ s.expression, x.attributes = .empty ∨ TakenFrom P ["expression"] x.attributes

/-- The same at every depth. -/
def AllOwnKeys (P : List Entry → Prop) (s : Step) : Prop := ∀ t ∈ s.subtree, OwnKeys P t

theorem allOwnKeys_iff {s : Step} :
    AllOwnKeys P s ↔ OwnKeys P s ∧ ∀ t ∈ slotsSubtree s.slots, OwnKeys P t := by
  obtain ⟨_, _, _, _, _⟩ := s
  rw [AllOwnKeys, Step.subtree, List.forall_mem_cons]
  rfl

theorem AllOwnKeys.push {s : Step} {slot : Slot} (h : AllOwnKeys P s)
    (last : ∀ t ∈ slotsSubtree [slot], OwnKeys P t) : AllOwnKeys P (s.push slot) := by
  rw [allOwnKeys_iff] at h ⊢
  refine ⟨h.1, ?_⟩
  change ∀ t ∈ slotsSubtree (s.slots ++ [slot]), OwnKeys P t
  rw [slotsSubtree_append, List.forall_mem_append]
  exact ⟨h.2, last⟩

theorem stepInvariant_allOwnKeys : StepInvariant P (AllOwnKeys P) where
  bare kind _ := allOwnKeys_iff.2 ⟨⟨fun k hk => absurd hk not_mem_keys_empty, nofun⟩, nofun⟩
  withAttribute s key text h _ unreserved := by
    rw [allOwnKeys_iff] at h ⊢
    refine ⟨⟨fun k hk => ?_, h.1.2⟩, h.2⟩
    rcases mem_keys_insert.1 hk with hk | rfl
    · exact h.1.1 k hk
    · exact unreserved
  withText s text h := by
    rw [allOwnKeys_iff] at h ⊢
    exact h
  withExpression s path language body h hv := by
    rw [allOwnKeys_iff] at h ⊢
    refine ⟨⟨h.1.1, fun x hx => ?_⟩, h.2⟩
    cases Option.some.inj hx
    exact takenFrom_readExpression path language hv
  pushText s tag value h _ := h.push nofun
  pushElement s tag child h _ hc := h.push (by simpa [slotsSubtree, AllOwnKeys] using hc)
  pushNested s child h hc := h.push (by simpa [slotsSubtree, AllOwnKeys] using hc)

end Steps

/-- Where the keys of the attributes in a document come from. -/
structure DocumentKeys (P : List Entry → Prop) (d : Document) : Prop where
  steps : ∀ r ∈ d.routes, ∀ s ∈ r.steps, AllOwnKeys P s
  configuration : ∀ c ∈ d.restConfiguration, TakenFrom P [] c.attributes ∧
    ∀ list ∈ c.propertyLists.entries, ∀ m ∈ list.2, TakenFrom P [] m
  operations : ∀ api ∈ d.restApis, ∀ list ∈ api.operations.entries, ∀ o ∈ list.2,
    TakenFrom P ["description", "to"] o.attributes

theorem documentInvariant_documentKeys {P : List Entry → Prop} :
    DocumentInvariant P (DocumentKeys P) where
  empty := ⟨nofun, nofun, nofun⟩
  merge d e hd he := by
    refine ⟨List.forall_mem_append.2 ⟨hd.steps, he.steps⟩, fun c hc => ?_,
      List.forall_mem_append.2 ⟨hd.operations, he.operations⟩⟩
    rcases Option.or_eq_some_iff.1 hc with first | ⟨-, second⟩
    · exact hd.configuration c first
    · exact he.configuration c second
  beans _ _ _ := ⟨nofun, nofun, nofun⟩
  reference _ _ _ _ := ⟨nofun, nofun, nofun⟩
  restConfiguration path es here inside := by
    refine ⟨nofun, fun c hc => ?_, nofun⟩
    cases Option.some.inj hc
    exact takenFrom_readRestConfiguration path here inside
  restApi path es _ inside :=
    ⟨nofun, nofun, List.forall_mem_singleton.2 (takenFrom_readRestApi path inside)⟩
  route path es inside r hr :=
    ⟨List.forall_mem_singleton.2 (stepInvariant_allOwnKeys.readRoute path inside r hr), nofun,
      nofun⟩

theorem localName_unwrap_stepElement (s : Step) :
    (Blueprint.stepElement s).unwrap.localName = Xml.localName s.kind := by
  obtain ⟨_, _, _, _, _⟩ := s
  rfl

/-- Attributes and tags of a document that was read. Every tag in a step is a name and not reserved,
and no attribute of a step has a reserved key. The attributes of expressions, of the configuration,
of its lists of properties and of operations have just the keys that a mapping in the tree writes,
so a reserved key gets in exactly if it stands there. When markup is read, attributes are all kept
exactly if none has a reserved key, and an element is refused exactly if its name without its
namespace is reserved. -/
theorem readDocument_attributeKeys {v : Value} {d : Noted Document}
    (read : readDocument v = .ok d) :
    (∀ r ∈ d.value.routes, ∀ s ∈ r.steps, s.Names IsTag (Xml.isValidName ·) ∧ ∀ t ∈ s.subtree,
      (∀ k ∈ t.attributes.keys, isReserved k = false) ∧
      (∀ x ∈ t.expression, x.attributes = .empty ∨
        TakenFrom (· ∈ v.mappings) ["expression"] x.attributes) ∧
      ∀ path, (Blueprint.readStep path (Blueprint.stepElement t).unwrap).value = none ↔
        isReserved (Xml.localName t.kind)) ∧
    (∀ c ∈ d.value.restConfiguration, TakenFrom (· ∈ v.mappings) [] c.attributes ∧
      ∀ list ∈ c.propertyLists.entries, ∀ m ∈ list.2, TakenFrom (· ∈ v.mappings) [] m) ∧
    (∀ api ∈ d.value.restApis, ∀ list ∈ api.operations.entries, ∀ o ∈ list.2,
      TakenFrom (· ∈ v.mappings) ["description", "to"] o.attributes) ∧
    (∀ path m, Blueprint.readAttributes path m = pure m ↔ ∀ k ∈ m.keys, isReserved k = false) ∧
    ∀ kind has e, Blueprint.ChildRule.of kind has e = .reserved ↔ isReserved e.localName := by
  have keys := documentInvariant_documentKeys.readDocument (everywhere_mappings v) read
  have bounds := readable_readDocument (Nat.le_add_right v.depth 3) read
  refine ⟨fun r hr s hs => ⟨((bounds.routes r hr).2.2 s hs).1, fun t ht => ?_⟩,
    keys.configuration, keys.operations, fun _ _ => Blueprint.readAttributes_eq_self_iff,
    fun _ _ _ => Blueprint.reserved_of_rule⟩
  obtain ⟨unreserved, expression⟩ := keys.steps r hr s hs t ht
  refine ⟨unreserved, expression, fun path => ?_⟩
  rw [Blueprint.value_readStep_eq_none, localName_unwrap_stepElement]

/-- A route whose steps have attributes, a text and an expression, with a service beside it. -/
def keyedTree : Value :=
  .sequence [
    .ofEntry "restConfiguration" (.mapping [textEntry "component" "jetty", textEntry "text" "t",
      entry "corsHeaders" (.sequence [.mapping [textEntry "key" "k"]])]),
    .ofEntry "rest" (.ofEntry "get" (.mapping [textEntry "uri" "/u", textEntry "to" "direct:a"])),
    .ofEntry "from" (.mapping [textEntry "uri" "a:b", entry "steps" (.sequence [
      .ofEntry "filter" (.mapping [textEntry "id" "f", textEntry "children" "c",
        entry "simple" (.mapping [textEntry "expression" "x", textEntry "trim" "no"])])])])]

theorem readDocument_attributeKeys_keyedTree :
    ∃ d, readDocument keyedTree = .ok d ∧
      (∀ c ∈ d.value.restConfiguration,
        TakenFrom (· ∈ keyedTree.mappings) [] c.attributes ∧ "text" ∈ c.attributes.keys) ∧
      ∀ r ∈ d.value.routes, ∀ s ∈ r.steps, s.kind = "filter" ∧ s.attributes = .single "id" "f" ∧
        (∀ k ∈ s.attributes.keys, isReserved k = false) ∧
        ∀ x ∈ s.expression, TakenFrom (· ∈ keyedTree.mappings) ["expression"] x.attributes := by
  refine ⟨_, rfl, ?_⟩
  obtain ⟨steps, configuration, -, -, -⟩ := readDocument_attributeKeys (v := keyedTree) rfl
  refine ⟨fun c hc => ⟨(configuration c hc).1, ?_⟩, fun r hr s hs => ?_⟩
  · revert c
    decide +kernel
  · obtain ⟨kind, attributes, trim⟩ : s.kind = "filter" ∧ s.attributes = .single "id" "f" ∧
        ∀ x ∈ s.expression, x.attributes ≠ .empty := by
      revert r s
      decide +kernel
    obtain ⟨unreserved, expression, -⟩ := (steps r hr s hs).2 s s.mem_subtree
    exact ⟨kind, attributes, unreserved, fun x hx => (expression x hx).resolve_left (trim x hx)⟩

/-- Reserved keys get into all maps but those of steps, with nothing noted. -/
theorem readDocument_attributeKeys_reserved :
    let v : Value := .sequence [
      .ofEntry "restConfiguration" (.mapping [textEntry "steps" "1",
        entry "corsHeaders" (.sequence [.mapping [textEntry "text" "2"]])]),
      .ofEntry "rest" (.ofEntry "get" (.ofEntry "children" (.string "3"))),
      .ofEntry "from" (.mapping [textEntry "uri" "a", entry "steps" (.sequence [
        .ofEntry "filter" (.ofEntry "simple"
          (.mapping [textEntry "expression" "x", textEntry "item" "4"]))])])]
    readDocument v = .ok ⟨⟨[], [],
      some ⟨.single "steps" "1", .single "corsHeaders" [.single "text" "2"]⟩,
      [⟨none, none, .empty, none, .single .get [⟨.single "children" "3", none, none⟩]⟩],
      [⟨none, none, .empty, none, ⟨"a", .empty, .empty⟩,
        [⟨"filter", .empty, none, some ⟨.simple, some "x", .single "item" "4"⟩, []⟩]⟩]⟩, []⟩ ∧
      ∀ k ∈ ["steps", "text", "children", "item"], isReserved k := by
  decide +kernel

end RouteNotation.Dsl
