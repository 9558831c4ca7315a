import RouteNotation.Dsl.Reader
import RouteNotation.Proofs.Noted

/-!
What is read of a value does not depend on the path that its diagnostics get, nor on the places in
lists that such a path counts.
-/

namespace RouteNotation.Dsl
open Yaml

section Steps
variable (p q : String)

theorem value_readAttribute (attributes : Attributes) (key : String) (v : Value) :
    (readAttribute p attributes key v).value = (readAttribute q attributes key v).value := by
  unfold readAttribute
  split
  · rfl
  · split <;> rfl

theorem value_readAttributes (es : List Entry) :
    (readAttributes p es).value = (readAttributes q es).value := by
  refine Noted.value_foldlM_congr (fun attributes e => ?_) _ es
  unfold readAttributeEntry
  split
  · exact value_readAttribute p q attributes _ e.2
  · rfl

theorem value_readExpression (language : Language) (body : Value) :
    (readExpression p language body).value = (readExpression q language body).value := by
  unfold readExpression
  split
  · refine Noted.value_foldlM_congr (fun expression e => ?_) _ _
    unfold readExpressionEntry
    split
    · rfl
    · exact Noted.value_bind_congr (value_readAttribute p q _ _ _) fun _ => rfl
    · rfl
  · rfl

theorem value_readWrapper (step : Step) (v : Value) :
    (readWrapper p step v).value = (readWrapper q step v).value := by
  unfold readWrapper
  split
  · rfl
  · split
    · rfl
    · exact Noted.value_bind_congr (value_readExpression p q _ _) fun _ => rfl

theorem value_readTextChild (tag : String) (step : Step) (v : Value) :
    (readTextChild p tag step v).value = (readTextChild q tag step v).value := by
  unfold readTextChild
  split <;> rfl

theorem value_readTextField (key : String) (step : Step) (v : Value) :
    (readTextField p key step v).value = (readTextField q key step v).value := by
  unfold readTextField
  split
  · exact Noted.value_bind_congr (value_readAttribute p q _ _ _) fun _ => rfl
  · exact value_readTextChild _ _ _ _ _

end Steps

mutual

theorem value_readStepItem (p q found other : String) :
    (v : Value) → (readStepItem p found v).value = (readStepItem q other v).value
  | .tagged _ v => by
    simp only [readStepItem]
    exact value_readStepItem p q found other v
  | .mapping ((k, body) :: _) => by
    simp only [readStepItem]
    split
    · split
      · exact value_readStep _ _ _ body
      · exact value_readStep _ _ _ body
    · rfl
  | .null | .bool _ | .int _ | .float _ | .string _ | .sequence _ | .mapping [] => by
    simp only [readStepItem]
    rfl

theorem value_readStep (p q kind : String) :
    (body : Value) → (readStep p kind body).value = (readStep q kind body).value
  | .mapping es => by
    simp only [readStep]
    split
    · rfl
    · exact congrArg some (value_readBody p q (.ofTag kind) (.bare kind) es)
  | .null | .bool _ | .int _ | .float _ | .string _ | .sequence _ | .tagged _ _ => by
    simp only [readStep]
    split <;> rfl

theorem value_readBody (p q : String) (role : Role) (step : Step) :
    (es : List (Value × Value)) → (readBody p role step es).value = (readBody q role step es).value
  | [] => by simp only [readBody, Noted.value_pure]
  | (k, v) :: rest => by
    have others := fun step => value_readBody p q role step rest
    simp only [readBody]
    split
    · exact others step
    · split
      · have nested := fun key => value_readNested (childPath p key) (childPath q key) v.describe
          v.describe role.isContainer step v
        split
        · exact Noted.value_bind_congr rfl fun _ => Noted.value_bind_congr (nested _) others
        · exact Noted.value_bind_congr (nested _) others
      · exact Noted.value_bind_congr (value_readWrapper _ _ _ _) others
      · exact others _
      · exact others step
      · exact Noted.value_bind_congr (value_readExpression _ _ _ _) fun _ => others _
      · exact Noted.value_bind_congr rfl fun _ => Noted.value_bind_congr
          (value_readChild _ _ _ _ v) others
      · exact Noted.value_bind_congr (value_readChild _ _ _ _ v) others

theorem value_readNested (p q found other : String) (container : Bool) (step : Step) :
    (v : Value) → (readNested p found container step v).value =
      (readNested q other container step v).value
  | .tagged _ v => by
    simp only [readNested]
    exact value_readNested p q found other container step v
  | .sequence items => by
    simp only [readNested]
    exact value_readNestedItems p q container 0 0 step items
  | .null | .bool _ | .int _ | .float _ | .string _ | .mapping _ => by
    simp only [readNested]
    rfl

theorem value_readNestedItems (p q : String) (container : Bool) (i j : Nat) (step : Step) :
    (items : List Value) → (readNestedItems p container i step items).value =
      (readNestedItems q container j step items).value
  | [] => by simp only [readNestedItems, Noted.value_pure]
  | item :: rest => by
    have others := fun step => value_readNestedItems p q container (i + 1) (j + 1) step rest
    simp only [readNestedItems]
    split
    · exact others _
    · exact Noted.value_bind_congr (value_readStepItem _ _ _ _ item) fun _ => others _

theorem value_readChild (p q key : String) (step : Step) :
    (v : Value) → (readChild p key step v).value = (readChild q key step v).value
  | .sequence items => by
    simp only [readChild]
    split
    · rfl
    · exact value_readChildItems _ _ key step items
  | .mapping es => by
    simp only [readChild]
    split
    · rfl
    · exact Noted.value_bind_congr (value_readBody _ _ _ _ es) fun _ => rfl
  | .null => by
    simp only [readChild]
    split <;> rfl
  | .bool _ | .int _ | .float _ | .string _ | .tagged _ _ => by
    simp only [readChild]
    split
    · rfl
    · exact value_readTextField _ _ _ _ _

theorem value_readChildItems (p q key : String) (step : Step) :
    (items : List Value) → (readChildItems p key step items).value =
      (readChildItems q key step items).value
  | [] => by simp only [readChildItems, Noted.value_pure]
  | .null :: rest => by
    simp only [readChildItems]
    exact value_readChildItems p q key _ rest
  | .mapping es :: rest => by
    simp only [readChildItems]
    exact Noted.value_bind_congr (value_readBody _ _ _ _ es) fun _ =>
      value_readChildItems p q key _ rest
  | .bool _ :: rest | .int _ :: rest | .float _ :: rest | .string _ :: rest |
    .sequence _ :: rest | .tagged _ _ :: rest => by
    simp only [readChildItems]
    exact Noted.value_bind_congr (value_readTextChild _ _ _ _ _) fun _ =>
      value_readChildItems p q key _ rest

end


theorem value_readStepItems (p q : String) (i j : Nat) (items : List Value) :
    (readStepItems p i items).value = (readStepItems q j items).value := by
  induction items generalizing i j with
  | nil => rfl
  | cons item rest ih =>
    exact Noted.value_bind_congr (value_readStepItem _ _ _ _ item) fun _ =>
      Noted.value_bind_congr (ih (i + 1) (j + 1)) fun _ => rfl

section Entities
variable (p q : String)

theorem value_readSteps (v : Value) : (readSteps p v).value = (readSteps q v).value := by
  unfold readSteps
  split
  · exact value_readStepItems p q 0 0 _
  · rfl

theorem value_readArguments (v : Value) :
    (readArguments p v).value = (readArguments q v).value := by
  unfold readArguments
  split
  · refine Noted.value_bind_congr (Noted.value_foldlM_congr (fun arguments e => ?_) _ _) fun _ => rfl
    unfold readIndexedArgument
    split <;> rfl
  · refine Noted.value_foldlM_congr (fun arguments item => ?_) _ _
    unfold readArgument
    split <;> rfl
  · rfl

theorem value_readProperties (bean : Bean) (v : Value) :
    (readProperties p bean v).value = (readProperties q bean v).value := by
  unfold readProperties
  split
  · refine Noted.value_foldlM_congr (fun bean e => ?_) _ _
    unfold readProperty
    split <;> rfl
  · rfl

theorem value_readBeanField (bean : Bean) (key : String) (v : Value) :
    (readBeanField p bean key v).value = (readBeanField q bean key v).value := by
  unfold readBeanField
  split
  · rfl
  · rfl
  · rfl
  · rfl
  · exact Noted.value_bind_congr (value_readArguments _ _ v) fun _ => rfl
  · exact value_readProperties _ _ bean v
  · exact Noted.value_bind_congr (value_readAttribute p q _ _ v) fun _ => rfl

/-- Fields whose values do not depend on the path are read alike under any two. -/
theorem value_readFields {σ : Type} {read : String → σ → String → Value → Noted σ}
    (h : ∀ s key v, (read p s key v).value = (read q s key v).value) (s : σ) (es : List Entry) :
    (readFields (read p) s es).value = (readFields (read q) s es).value := by
  refine Noted.value_foldlM_congr (fun s e => ?_) s es
  split
  · exact h s _ e.2
  · rfl

theorem value_readBean (es : List Entry) : (readBean p es).value = (readBean q es).value := by
  unfold readBean
  split
  · rfl
  · exact congrArg some (value_readFields p q (value_readBeanField p q) _ es)

theorem value_readBeanItem (item : Value) :
    (readBeanItem p item).value = (readBeanItem q item).value := by
  unfold readBeanItem
  split
  · exact Noted.value_bind_congr (value_readBean p q _) fun _ => rfl
  · rfl

theorem value_readReference (es : List Entry) :
    (readReference p es).value = (readReference q es).value := by
  unfold readReference
  split <;> rfl

theorem value_readConfigurationField (configuration : RestConfiguration) (key : String)
    (v : Value) : (readConfigurationField p configuration key v).value =
      (readConfigurationField q configuration key v).value := by
  unfold readConfigurationField
  dsimp only
  split
  · exact Noted.value_bind_congr (value_readAttribute p q _ key v) fun _ => rfl
  · split
    · rfl
    · split
      · exact Noted.value_bind_congr
          (Noted.value_mapM_congr (value_readAttributes _ _) _) fun _ => rfl
      · rfl

theorem value_readRestConfiguration (es : List Entry) :
    (readRestConfiguration p es).value = (readRestConfiguration q es).value :=
  value_readFields p q (value_readConfigurationField p q) _ es

theorem value_readOperationField (operation : Operation) (key : String) (v : Value) :
    (readOperationField p operation key v).value =
      (readOperationField q operation key v).value := by
  unfold readOperationField
  split
  · rfl
  · split <;> rfl
  · exact Noted.value_bind_congr (value_readAttribute p q _ key v) fun _ => rfl

theorem value_readOperation (es : List Entry) :
    (readOperation p es).value = (readOperation q es).value :=
  value_readFields p q (value_readOperationField p q) _ es

theorem value_readRestField (api : RestApi) (key : String) (v : Value) :
    (readRestField p api key v).value = (readRestField q api key v).value := by
  unfold readRestField
  split
  · rfl
  · rfl
  · rfl
  · split
    · dsimp only
      split
      · exact Noted.value_bind_congr
          (Noted.value_mapM_congr (value_readOperation _ _) _) fun _ => rfl
      · rfl
    · exact Noted.value_bind_congr (value_readAttribute p q _ key v) fun _ => rfl

theorem value_readRestApi (es : List Entry) :
    (readRestApi p es).value = (readRestApi q es).value :=
  value_readFields p q (value_readRestField p q) _ es

theorem value_readEndpointField (draft : EndpointDraft) (key : String) (v : Value) :
    (readEndpointField p draft key v).value = (readEndpointField q draft key v).value := by
  unfold readEndpointField
  dsimp only
  split
  · rfl
  · split
    · exact Noted.value_bind_congr (value_readAttributes _ _ _) fun _ => rfl
    · rfl
  · exact Noted.value_bind_congr (value_readSteps _ _ v) fun _ => rfl
  · exact Noted.value_bind_congr (value_readAttribute p q _ key v) fun _ => rfl

theorem value_readRouteField (draft : RouteDraft) (key : String) (v : Value) :
    (readRouteField p draft key v).value = (readRouteField q draft key v).value := by
  unfold readRouteField
  dsimp only
  split
  · rfl
  · rfl
  · rfl
  · split
    · exact Noted.value_bind_congr
        (value_readFields _ _ (value_readEndpointField _ _) _ _) fun _ => rfl
    · rfl
  · exact Noted.value_bind_congr (value_readSteps _ _ v) fun _ => rfl
  · exact Noted.value_bind_congr (value_readAttribute p q _ key v) fun _ => rfl

theorem value_readRoute (es : List Entry) : (readRoute p es).value = (readRoute q es).value := by
  refine Noted.value_bind_congr (value_readFields p q (value_readRouteField p q) _ es) fun draft => ?_
  unfold RouteDraft.finish
  split <;> rfl

end Entities

end RouteNotation.Dsl
