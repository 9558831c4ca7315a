/-!
Cutting a text at a separating character: at its first place, at its last place, or at every one.
-/

namespace RouteNotation.Text

/-- The parts before and after the first `c`. -/
def cutChars (c : Char) : List Char → Option (List Char × List Char)
  | [] => none
  | d :: rest =>
    if d = c then some ([], rest) else (cutChars c rest).map fun p => (d :: p.1, p.2)

def cut? (c : Char) (s : String) : Option (String × String) :=
  (cutChars c s.toList).map fun p => (.ofList p.1, .ofList p.2)

/-- The pieces between the places where `c` stands; there is always at least one. -/
def pieceChars (c : Char) : List Char → List (List Char)
  | [] => [[]]
  | d :: rest =>
    if d = c then [] :: pieceChars c rest
    else match pieceChars c rest with
      | [] => [[d]]
      | piece :: pieces => (d :: piece) :: pieces

def pieces (c : Char) (s : String) : List String :=
  (pieceChars c s.toList).map .ofList

/-- What follows the last `c`, or the whole text when there is none. -/
def afterLastChars (c : Char) (cs : List Char) : List Char :=
  (cs.reverse.takeWhile (· ≠ c)).reverse

def afterLast (c : Char) (s : String) : String := .ofList (afterLastChars c s.toList)

/-- What follows `start`, when the text begins with it. -/
def dropStart? (start : String) (s : String) : Option String :=
  if start.toList.isPrefixOf s.toList then some (.ofList (s.toList.drop start.length)) else none

def contains (c : Char) (s : String) : Bool := s.toList.contains c

/-- Putting the separator back gives the text that was cut. -/
theorem eq_of_cutChars {c : Char} {cs before after : List Char}
    (h : cutChars c cs = some (before, after)) : cs = before ++ c :: after ∧ c ∉ before := by
  induction cs generalizing before with
  | nil => simp [cutChars] at h
  | cons d rest ih =>
    simp only [cutChars] at h
    split at h
    · cases h; simp_all
    · obtain ⟨⟨b, a⟩, hp, heq⟩ := Option.map_eq_some_iff.1 h
      cases heq
      have := ih hp
      simp_all [eq_comm]

theorem cutChars_append {c : Char} {before after : List Char} (h : c ∉ before) :
    cutChars c (before ++ c :: after) = some (before, after) := by
  induction before with
  | nil => simp [cutChars]
  | cons d rest ih =>
    simp only [List.mem_cons, not_or] at h
    simp [cutChars, Ne.symm h.1, ih h.2]

end RouteNotation.Text
