/-!
What a tag stands for in a routing definition. A tag names a container, a clause, an expression
language or none of these; everything else that hangs on a tag is a table here too.
-/

namespace RouteNotation

/-- Steps that hold a list of nested steps. -/
inductive Container
  | multicast | when | split | otherwise | aggregate | doTry | doCatch | doFinally | filter
  | idempotentConsumer | loop | resequence | step | transacted | choice
  deriving DecidableEq, Repr

namespace Container

def all : List Container :=
  [.multicast, .when, .split, .otherwise, .aggregate, .doTry, .doCatch, .doFinally, .filter,
    .idempotentConsumer, .loop, .resequence, .step, .transacted, .choice]

def tag : Container → String
  | .multicast => "multicast"
  | .when => "when"
  | .split => "split"
  | .otherwise => "otherwise"
  | .aggregate => "aggregate"
  | .doTry => "doTry"
  | .doCatch => "doCatch"
  | .doFinally => "doFinally"
  | .filter => "filter"
  | .idempotentConsumer => "idempotentConsumer"
  | .loop => "loop"
  | .resequence => "resequence"
  | .step => "step"
  | .transacted => "transacted"
  | .choice => "choice"

def ofTag? (tag : String) : Option Container := all.find? (·.tag = tag)

/-- Containers with a predicate or an expression of their own. -/
def takesExpression : Container → Bool
  | .when | .filter | .split | .loop | .idempotentConsumer | .resequence | .aggregate => true
  | _ => false

theorem ofTag?_tag (c : Container) : ofTag? c.tag = some c := by cases c <;> decide

end Container

/-- Languages of expressions and predicates. -/
inductive Language
  | constant | simple | groovy | header | java | xpath | xquery | xtokenize | jsonpath | method
  | mvel | ognl | python | ref | spel | tokenize | variable | datasonnet | exchangeProperty
  deriving DecidableEq, Repr

namespace Language

def all : List Language :=
  [.constant, .simple, .groovy, .header, .java, .xpath, .xquery, .xtokenize, .jsonpath, .method,
    .mvel, .ognl, .python, .ref, .spel, .tokenize, .variable, .datasonnet, .exchangeProperty]

def tag : Language → String
  | .constant => "constant"
  | .simple => "simple"
  | .groovy => "groovy"
  | .header => "header"
  | .java => "java"
  | .xpath => "xpath"
  | .xquery => "xquery"
  | .xtokenize => "xtokenize"
  | .jsonpath => "jsonpath"
  | .method => "method"
  | .mvel => "mvel"
  | .ognl => "ognl"
  | .python => "python"
  | .ref => "ref"
  | .spel => "spel"
  | .tokenize => "tokenize"
  | .variable => "variable"
  | .datasonnet => "datasonnet"
  | .exchangeProperty => "exchangeProperty"

def ofTag? (tag : String) : Option Language := all.find? (·.tag = tag)

theorem ofTag?_tag (l : Language) : ofTag? l.tag = some l := by cases l <;> decide

end Language

/-- Children that carry an expression and are never steps. -/
def clauseTags : List String :=
  ["correlationExpression", "completionPredicate", "completionSizeExpression",
    "completionTimeoutExpression", "onWhen", "retryWhile", "handled", "continued"]

/-- What a tag stands for, as a step or as a child. -/
inductive Role
  | container (c : Container)
  | clause
  | expression (l : Language)
  | plain
  deriving DecidableEq, Repr

namespace Role

def ofTag (tag : String) : Role :=
  match Container.ofTag? tag with
  | some c => .container c
  | none =>
    if clauseTags.contains tag then .clause
    else match Language.ofTag? tag with
      | some l => .expression l
      | none => .plain

def isContainer : Role → Bool
  | .container _ => true
  | _ => false

/-- Whether a bare text under a language tag is the expression of the step. -/
def takesScalarExpression : Role → Bool
  | .container c => c.takesExpression
  | .clause => true
  | .expression _ | .plain => false

/-- Whether the expression stands in the body under its language tag, without a key of its own. -/
def hasInlineExpression : Role → Bool
  | .container _ | .clause => true
  | .expression _ | .plain => false

end Role

/-- How the occurrences of a branch are written. -/
inductive Multiplicity
  /-- As a list, even when there is one. -/
  | list
  /-- As a single value, unless there are several. -/
  | single
  deriving DecidableEq, Repr

/-- The branches a step can have. -/
def branch? (parent child : String) : Option Multiplicity :=
  match parent, child with
  | "choice", "when" => some .list
  | "choice", "otherwise" => some .single
  | "doTry", "doCatch" => some .list
  | "doTry", "doFinally" => some .single
  | _, _ => none

/-- Tags whose scalar value is a child with text and not an attribute. -/
def isTextChild (tag : String) : Bool := ["description", "exception"].contains tag

/-- The attribute that takes the whole body of a step when the body is a scalar. -/
def shorthand? (kind : String) : Option String :=
  match kind with
  | "to" | "toD" | "wireTap" | "inOnly" | "inOut" => some "uri"
  | "log" => some "message"
  | _ => none

def reservedKeys : List String := ["steps", "children", "item", "expression", "text"]

/-- Whether the key has a meaning in the structure of a body, or of markup, and so names nothing. -/
def isReserved (key : String) : Bool := reservedKeys.contains key

/-- Operations of a REST service. -/
inductive HttpVerb
  | get | post | put | delete | patch | options | head
  deriving DecidableEq, Repr

namespace HttpVerb

def all : List HttpVerb := [.get, .post, .put, .delete, .patch, .options, .head]

def tag : HttpVerb → String
  | .get => "get"
  | .post => "post"
  | .put => "put"
  | .delete => "delete"
  | .patch => "patch"
  | .options => "options"
  | .head => "head"

/-- The verb with this tag, in capitals or not. -/
def ofTag? (tag : String) : Option HttpVerb := all.find? (·.tag = tag.toLower)

end HttpVerb
end RouteNotation
