/-!
Recoverable problems. Reading and writing a definition never stops for a shape that has no rule: it
goes on without it and notes a diagnostic. `Noted` is a value with the diagnostics noted on the
way, in order.
-/

namespace RouteNotation

inductive DiagnosticKind
  /-- No rule fits the element or the key. -/
  | unknownShape
  /-- An entity was left out because a required field is missing. -/
  | missingRequiredField
  deriving DecidableEq, Repr

def DiagnosticKind.describe : DiagnosticKind → String
  | .unknownShape => "unknown shape"
  | .missingRequiredField => "missing required field"

/-- One problem, with the slash-separated path of the place where it was met. -/
structure Diagnostic where
  kind : DiagnosticKind
  path : String
  message : String
  deriving DecidableEq, Repr

namespace Diagnostic

def unknownShape (path message : String) : Diagnostic := ⟨.unknownShape, path, message⟩

def missingField (path field : String) : Diagnostic :=
  ⟨.missingRequiredField, path, s!"`{field}` is required, entity skipped"⟩

def describe (d : Diagnostic) : String := s!"{d.kind.describe} at {d.path}: {d.message}"

end Diagnostic

/-- The path of `segment` below `parent`. -/
def childPath (parent segment : String) : String :=
  if parent.isEmpty then segment else s!"{parent}/{segment}"

/-- The path of an entry of the list at `path`. -/
def indexPath (path : String) (index : Nat) : String := s!"{path}[{index}]"

structure Noted (α : Type) where
  value : α
  notes : List Diagnostic
  deriving DecidableEq, Repr

namespace Noted

instance : Monad Noted where
  pure a := ⟨a, []⟩
  bind x f := ⟨(f x.value).value, x.notes ++ (f x.value).notes⟩

@[simp] theorem value_pure {α : Type} (a : α) : (pure a : Noted α).value = a := rfl
@[simp] theorem notes_pure {α : Type} (a : α) : (pure a : Noted α).notes = [] := rfl

@[simp] theorem value_bind {α β : Type} (x : Noted α) (f : α → Noted β) :
    (x >>= f).value = (f x.value).value := rfl

@[simp] theorem notes_bind {α β : Type} (x : Noted α) (f : α → Noted β) :
    (x >>= f).notes = x.notes ++ (f x.value).notes := rfl

@[simp] theorem value_map {α β : Type} (x : Noted α) (f : α → β) :
    (f <$> x).value = f x.value := rfl

@[simp] theorem notes_map {α β : Type} (x : Noted α) (f : α → β) : (f <$> x).notes = x.notes := by
  change x.notes ++ [] = x.notes
  simp

instance : LawfulMonad Noted := LawfulMonad.mk' Noted
  (fun x => by cases x; simp [Functor.map])
  (fun _ _ => rfl)
  (fun _ _ _ => by simp [bind, List.append_assoc])

/-- Notes one diagnostic. -/
def note (d : Diagnostic) : Noted Unit := ⟨(), [d]⟩

def unknownShape (path message : String) : Noted Unit := note (.unknownShape path message)

def missingField (path field : String) : Noted Unit := note (.missingField path field)

/-- An entity that is left out for want of `field`. -/
def skippedWithout {α : Type} (path field : String) : Noted (Option α) :=
  ⟨none, [.missingField path field]⟩

end Noted
end RouteNotation
