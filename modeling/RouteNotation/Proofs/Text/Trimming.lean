import Mathlib.Data.List.DropRight
import RouteNotation.Text.Blank

/-!
Texts without the blanks at their ends: nothing is left to trim, blanks at the ends make no
difference, and between two characters that are not blank everything stays.
-/

namespace RouteNotation.Text

theorem trimChars_eq (cs : List Char) :
    trimChars cs = (cs.dropWhile isBlank).rdropWhile isBlank := rfl

/-- What is cut off behind leaves the first character where it is. -/
theorem dropWhile_trimChars (cs : List Char) :
    (trimChars cs).dropWhile isBlank = trimChars cs := by
  rw [trimChars_eq, List.dropWhile_eq_self_iff]
  intro nonempty
  have kept := List.rdropWhile_prefix isBlank (cs.dropWhile isBlank)
  rw [kept.getElem nonempty]
  exact List.dropWhile_get_zero_not isBlank cs _

theorem trimChars_trimChars (cs : List Char) : trimChars (trimChars cs) = trimChars cs := by
  have behind : (trimChars cs).rdropWhile isBlank = trimChars cs := List.rdropWhile_idempotent _ _
  rw [trimChars_eq (trimChars cs), dropWhile_trimChars, behind]

theorem trim_trim (s : String) : trim (trim s) = trim s := by
  rw [trim, trim, String.toList_ofList, trimChars_trimChars]

/-- The text without blanks at its ends, unless nothing is left. -/
def trimmed? (s : String) : Option String :=
  if (trim s).isEmpty then none else some (trim s)

theorem trimmed?_eq (s : String) : trimmed? s = if trim s = "" then none else some (trim s) := by
  simp only [trimmed?, String.isEmpty_iff]

theorem trimmed?_eq_iff {s t : String} :
    trimmed? s = trimmed? t ↔ trimChars s.toList = trimChars t.toList := by
  have same : trim s = trim t ↔ trimChars s.toList = trimChars t.toList := String.ofList_inj
  rw [← same, trimmed?_eq, trimmed?_eq]
  constructor
  · intro h
    split at h <;> split at h
    · rename_i left right
      rw [left, right]
    · cases h
    · cases h
    · exact Option.some.inj h
  · intro h
    rw [h]

theorem trimChars_eq_nil_iff {cs : List Char} : trimChars cs = [] ↔ ∀ c ∈ cs, isBlank c := by
  constructor
  · intro none c hc
    rw [trimChars_eq, List.rdropWhile_eq_nil_iff] at none
    rw [← @List.takeWhile_append_dropWhile _ isBlank cs, List.mem_append] at hc
    rcases hc with front | back
    · exact List.all_eq_true.1 List.all_takeWhile c front
    · exact none c back
  · intro blank
    exact trimChars_eq_nil (List.all_eq_true.2 blank)

theorem trimmed?_eq_none {s : String} : trimmed? s = none ↔ trim s = "" := by
  rw [trimmed?_eq]
  split
  · rename_i empty
    simp [empty]
  · rename_i some
    simp [some]

theorem dropWhile_sublist {α : Type} (p : α → Bool) {as bs : List α} (h : as.Sublist bs) :
    (as.dropWhile p).Sublist (bs.dropWhile p) := by
  induction h with
  | slnil => exact List.Sublist.refl _
  | @cons as bs b h ih =>
    rw [List.dropWhile_cons]
    split
    · exact ih
    · exact ((List.dropWhile_sublist p).trans h).cons b
  | @cons_cons as bs a h ih =>
    rw [List.dropWhile_cons, List.dropWhile_cons]
    split
    · exact ih
    · exact h.cons_cons a

theorem rdropWhile_sublist {α : Type} (p : α → Bool) {as bs : List α} (h : as.Sublist bs) :
    (as.rdropWhile p).Sublist (bs.rdropWhile p) :=
  (dropWhile_sublist p h.reverse).reverse

section Ends
variable {bs cs ds : List Char}

theorem trimChars_blank_append (blank : ∀ c ∈ bs, isBlank c) :
    trimChars (bs ++ cs) = trimChars cs := by
  rw [trimChars_eq, List.dropWhile_append_of_pos blank, trimChars_eq]

theorem trimChars_append_blank (blank : ∀ c ∈ bs, isBlank c) :
    trimChars (cs ++ bs) = trimChars cs := by
  rw [trimChars_eq, trimChars_eq, List.dropWhile_append]
  split
  · rename_i none
    have all : bs.dropWhile isBlank = [] := List.dropWhile_eq_nil_iff.2 blank
    rw [all, List.isEmpty_iff.1 none]
  · rw [List.rdropWhile, List.reverse_append,
      List.dropWhile_append_of_pos fun c hc => blank c (List.mem_reverse.1 hc)]
    rfl

theorem trimChars_between {mid : List Char} (front : ¬ ∀ c ∈ cs, isBlank c)
    (back : ¬ ∀ c ∈ ds, isBlank c) :
    trimChars (cs ++ mid ++ ds) =
      cs.dropWhile isBlank ++ mid ++ ds.rdropWhile isBlank := by
  have opens : (cs.dropWhile isBlank).isEmpty = false := by
    rw [List.isEmpty_eq_false_iff, Ne, List.dropWhile_eq_nil_iff]
    exact front
  have closes : (ds.reverse.dropWhile isBlank).isEmpty = false := by
    rw [List.isEmpty_eq_false_iff, Ne, List.dropWhile_eq_nil_iff]
    intro blank
    exact back fun c hc => blank c (List.mem_reverse.2 hc)
  rw [trimChars_eq, List.append_assoc, List.dropWhile_append, opens, if_neg nofun,
    ← List.append_assoc, List.rdropWhile, List.reverse_append, List.dropWhile_append, closes,
    if_neg nofun, List.reverse_append, List.reverse_reverse]
  rfl

end Ends

/-- What is cut off at the two ends is blank. -/
theorem blanks_around (cs : List Char) : ∃ front back, (∀ c ∈ front, isBlank c) ∧
    (∀ c ∈ back, isBlank c) ∧ front ++ trimChars cs ++ back = cs := by
  refine ⟨cs.takeWhile isBlank, (cs.dropWhile isBlank).rtakeWhile isBlank,
    List.all_eq_true.1 List.all_takeWhile, fun c hc => List.mem_rtakeWhile_imp hc, ?_⟩
  rw [trimChars_eq, List.append_assoc, List.rdropWhile_append_rtakeWhile,
    List.takeWhile_append_dropWhile]

/-- Whether `s` stands in `t` as it was before blanks were cut off at its ends. -/
def StandsIn (s t : String) : Prop :=
  ∃ front back, (∀ c ∈ front, isBlank c) ∧ (∀ c ∈ back, isBlank c) ∧
    s.toList <:+: front ++ t.toList ++ back

theorem standsIn_trim {s t : String} (h : s.toList <:+: t.toList) : StandsIn s (trim t) := by
  obtain ⟨front, back, blankFront, blankBack, whole⟩ := blanks_around t.toList
  refine ⟨front, back, blankFront, blankBack, ?_⟩
  rwa [trim, String.toList_ofList, whole]

end RouteNotation.Text
