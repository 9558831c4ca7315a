import RouteNotation.Route.Tag

/-!
What the tables of tags say of one another.
-/

namespace RouteNotation

/-- Whether a tag in this role is a language. -/
def Role.isExpression : Role → Bool
  | .expression _ => true
  | .container _ | .clause | .plain => false

theorem isReserved_language (l : Language) : isReserved l.tag = false := by
  cases l <;> decide

theorem role_language (l : Language) : Role.ofTag l.tag = .expression l := by
  cases l <;> decide

theorem Language.tag_of_role {tag : String} {l : Language} (h : Role.ofTag tag = .expression l) :
    l.tag = tag := by
  unfold Role.ofTag at h
  split at h
  · cases h
  · split at h
    · cases h
    · split at h
      · rename_i language found
        cases h
        simpa using List.find?_some found
      · cases h

theorem HttpVerb.ofTag?_tag (verb : HttpVerb) : ofTag? verb.tag = some verb := by
  cases verb <;> decide +kernel

theorem HttpVerb.tag_injective {v w : HttpVerb} (h : v.tag = w.tag) : v = w := by
  have same := congrArg ofTag? h
  rw [ofTag?_tag, ofTag?_tag] at same
  exact Option.some.inj same

end RouteNotation
