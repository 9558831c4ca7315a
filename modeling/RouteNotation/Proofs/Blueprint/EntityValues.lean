import RouteNotation.Blueprint.Reader
import RouteNotation.Proofs.Noted

/-!
What is read of an element does not depend on the path that its diagnostics get. A path counts the
entities before, so this is what keeps one entity from changing another.
-/

namespace RouteNotation.Blueprint
open Xml

section Steps

theorem value_readExpression (p q : String) (language : Language) (e : Element) :
    (readExpression p language e).value = (readExpression q language e).value := by
  unfold readExpression
  split <;> rfl

mutual

theorem value_readStep (p q : String) : (e : Element) → (readStep p e).value = (readStep q e).value
  | ⟨name, attributes, children⟩ => by
    simp only [readStep]
    split
    · rfl
    · exact congrArg some (value_readChildren p q _ children)

theorem value_readChildren (p q : String) (step : Step) :
    (cs : List Content) → (readChildren p step cs).value = (readChildren q step cs).value
  | [] => rfl
  | .text _ :: rest => value_readChildren p q step rest
  | .element e :: rest => by
    have child := value_readStep (childPath p e.localName) (childPath q e.localName) e
    have others := fun step => value_readChildren p q step rest
    simp only [readChildren]
    split
    · exact others step
    · exact Noted.value_bind_congr (value_readExpression _ _ _ e) fun _ => others _
    · exact Noted.value_bind_congr rfl fun _ => Noted.value_bind_congr child fun _ => others _
    · exact others _
    · exact Noted.value_bind_congr child fun _ => others _
    · exact Noted.value_bind_congr child fun _ => others _

end

end Steps

section Entities
variable (p q : String)

theorem value_readArgument (bean : Bean) (e : Element) :
    (readArgument p bean e).value = (readArgument q bean e).value := by
  unfold readArgument
  split <;> rfl

theorem value_readProperty (bean : Bean) (e : Element) :
    (readProperty p bean e).value = (readProperty q bean e).value := by
  unfold readProperty
  split
  · rfl
  · split <;> rfl

theorem value_readBeanChild (bean : Bean) (e : Element) :
    (readBeanChild p bean e).value = (readBeanChild q bean e).value := by
  unfold readBeanChild
  dsimp only
  split
  · exact value_readArgument _ _ bean e
  · exact value_readProperty _ _ bean e
  · rfl

theorem value_readBean (e : Element) : (readBean p e).value = (readBean q e).value := by
  unfold readBean
  split
  · rfl
  · exact congrArg some (Noted.value_foldlM_congr (value_readBeanChild p q) _ _)

theorem value_readReference (e : Element) :
    (readReference p e).value = (readReference q e).value := by
  unfold readReference
  split <;> rfl

theorem value_readOperationChild (operation : Operation) (e : Element) :
    (readOperationChild p operation e).value = (readOperationChild q operation e).value := by
  unfold readOperationChild
  dsimp only
  split <;> rfl

theorem value_readOperation (e : Element) :
    (readOperation p e).value = (readOperation q e).value :=
  Noted.value_foldlM_congr (value_readOperationChild p q) _ _

theorem value_readRestChild (api : RestApi) (e : Element) :
    (readRestChild p api e).value = (readRestChild q api e).value := by
  unfold readRestChild
  dsimp only
  split
  · rfl
  · split
    · exact Noted.value_bind_congr (value_readOperation _ _ e) fun _ => rfl
    · rfl

theorem value_readRestApi (e : Element) : (readRestApi p e).value = (readRestApi q e).value :=
  Noted.value_foldlM_congr (value_readRestChild p q) _ _

theorem value_readParameter (endpoint : Endpoint) (e : Element) :
    (readParameter p endpoint e).value = (readParameter q endpoint e).value := by
  unfold readParameter
  dsimp only
  split <;> rfl

theorem value_readEndpoint (e : Element) :
    (readEndpoint p e).value = (readEndpoint q e).value := by
  unfold readEndpoint
  split
  · rfl
  · exact congrArg some (Noted.value_foldlM_congr (value_readParameter p q) _ _)

theorem value_readRouteStep (draft : RouteDraft) (e : Element) :
    (readRouteStep p draft e).value = (readRouteStep q draft e).value :=
  Noted.value_bind_congr (value_readStep p q e) fun _ => rfl

theorem value_readRouteChild (draft : RouteDraft) (e : Element) :
    (readRouteChild p draft e).value = (readRouteChild q draft e).value := by
  unfold readRouteChild
  dsimp only
  split
  · split
    · exact Noted.value_bind_congr (value_readEndpoint _ _ e) fun _ => rfl
    · rfl
  · split
    · exact value_readRouteStep _ _ draft e
    · rfl
  · exact value_readRouteStep _ _ draft e

theorem value_finish (draft : RouteDraft) : (draft.finish p).value = (draft.finish q).value := by
  unfold RouteDraft.finish
  split <;> rfl

theorem value_readRoute (e : Element) : (readRoute p e).value = (readRoute q e).value :=
  Noted.value_bind_congr (Noted.value_foldlM_congr (value_readRouteChild p q) _ _)
    (value_finish p q)

end Entities
end RouteNotation.Blueprint
