import RouteNotation.Route.Step
import RouteNotation.Text.Cut

/-!
A routing definition: the document that both notations are read into and written from. Every list
keeps document order.
-/

namespace RouteNotation

/-- The value of a property: a literal, or the name of another bean. -/
inductive PropertyValue
  | literal (text : String)
  | reference (bean : String)
  deriving DecidableEq, Repr

namespace PropertyValue

def referenceMark : String := "#bean:"

/-- The mark makes a reference, provided that a name follows. -/
def ofText (text : String) : PropertyValue :=
  match Text.dropStart? referenceMark text with
  | some name => if name.isEmpty then .literal text else .reference name
  | none => .literal text

def toText : PropertyValue → String
  | .literal text => text
  | .reference bean => referenceMark ++ bean

end PropertyValue

structure Bean where
  name : String
  type : Option String
  factoryBean : Option String
  factoryMethod : Option String
  /-- Constructor arguments by position. -/
  arguments : List String
  properties : OrderedMap String PropertyValue
  /-- Other attributes. -/
  extra : Attributes
  deriving DecidableEq, Repr

def Bean.named (name : String) : Bean := ⟨name, none, none, none, [], .empty, .empty⟩

/-- A reference to a service. -/
structure Reference where
  id : String
  interface : String
  filter : Option String
  deriving DecidableEq, Repr

structure RestConfiguration where
  attributes : Attributes
  /-- Lists of properties under their tags. -/
  propertyLists : OrderedMap String (List Attributes)
  deriving DecidableEq, Repr

/-- One operation under a verb. -/
structure Operation where
  attributes : Attributes
  description : Option String
  /-- The endpoint that does the work. -/
  target : Option String
  deriving DecidableEq, Repr

def Operation.empty : Operation := ⟨.empty, none, none⟩

structure RestApi where
  id : Option String
  path : Option String
  attributes : Attributes
  description : Option String
  operations : OrderedMap HttpVerb (List Operation)
  deriving DecidableEq, Repr

def RestApi.empty : RestApi := ⟨none, none, .empty, none, .empty⟩

/-- Where the messages of a route come from. -/
structure Endpoint where
  uri : String
  parameters : Attributes
  attributes : Attributes
  deriving DecidableEq, Repr

def Endpoint.empty : Endpoint := ⟨"", .empty, .empty⟩

structure Route where
  id : Option String
  errorHandler : Option String
  attributes : Attributes
  description : Option String
  source : Endpoint
  steps : List Step
  deriving DecidableEq

structure Document where
  beans : List Bean
  references : List Reference
  restConfiguration : Option RestConfiguration
  restApis : List RestApi
  routes : List Route
  deriving DecidableEq

namespace Document

def empty : Document := ⟨[], [], none, [], []⟩

def isEmpty (d : Document) : Bool :=
  d.beans.isEmpty && d.references.isEmpty && d.restConfiguration.isNone && d.restApis.isEmpty &&
    d.routes.isEmpty

/-- The entities of `d` before those of `e`; of two REST configurations the first stays. -/
def merge (d e : Document) : Document :=
  ⟨d.beans ++ e.beans, d.references ++ e.references, d.restConfiguration.or e.restConfiguration,
    d.restApis ++ e.restApis, d.routes ++ e.routes⟩

def ofBean (b : Bean) : Document := { empty with beans := [b] }
def ofReference (r : Reference) : Document := { empty with references := [r] }
def ofRestConfiguration (c : RestConfiguration) : Document :=
  { empty with restConfiguration := some c }
def ofRestApi (a : RestApi) : Document := { empty with restApis := [a] }
def ofRoute (r : Route) : Document := { empty with routes := [r] }

end Document
end RouteNotation
