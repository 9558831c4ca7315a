import RouteNotation.Proofs.Yaml.Everywhere

/-!
The texts of numbers and of words. Numbers start with a digit, a sign or a point, so a key that
reads as a word is a string.
-/

namespace RouteNotation.Yaml

/-- Whether a text starts in a way in which the text of a number can. -/
def startsNumber (text : String) : Bool :=
  text.toList.head?.any fun c => c.isDigit || c = '-' || c = '.'

theorem startsNumber_append {first : String} (rest : String) (h : startsNumber first = true) :
    startsNumber (first ++ rest) = true := by
  unfold startsNumber at h ⊢
  rw [String.toList_append, List.head?_append]
  cases same : first.toList.head? with
  | none => simp [same] at h
  | some c => rwa [same] at h

/-- The digits of a number, of which there is one at least. -/
theorem toDigits_eq_cons (n : Nat) :
    ∃ c rest, Nat.toDigits 10 n = c :: rest ∧ c.isDigit = true := by
  have digits : ∀ c ∈ Nat.toDigits 10 n, c.isDigit = true := fun c hc =>
    Nat.isDigit_of_mem_toDigits (by decide) (by decide) hc
  cases same : Nat.toDigits 10 n with
  | nil => exact absurd same Nat.toDigits_ne_nil
  | cons c rest =>
    rw [same] at digits
    exact ⟨c, rest, rfl, digits c List.mem_cons_self⟩

theorem startsNumber_ofList {c : Char} (rest : List Char) (digit : c.isDigit = true) :
    startsNumber (.ofList (c :: rest)) = true := by
  simp [startsNumber, digit]

theorem startsNumber_repr (n : Nat) : startsNumber n.repr = true := by
  obtain ⟨c, rest, digits, digit⟩ := toDigits_eq_cons n
  simp [startsNumber, digits, digit]

theorem startsNumber_int (i : Int) : startsNumber (toString i) = true := by
  cases i with
  | ofNat n => exact startsNumber_repr n
  | negSucc n =>
    have sign : toString (Int.negSucc n) = "-" ++ (n + 1).repr := rfl
    rw [sign]
    exact startsNumber_append _ (by decide)

theorem startsNumber_render (layout : DecimalLayout) (d : Decimal) :
    startsNumber (layout.render d) = true := by
  obtain ⟨c, rest, digits, digit⟩ := toDigits_eq_cons d.digits
  unfold DecimalLayout.render
  simp only [digits]
  split
  · split
    · exact startsNumber_ofList _ digit
    · split
      · rename_i inside
        obtain ⟨n, same⟩ : ∃ n, (((c :: rest).length : Int) + d.power).toNat = n + 1 :=
          ⟨_, (Nat.succ_pred (by omega)).symm⟩
        rw [same]
        exact startsNumber_ofList _ digit
      · exact startsNumber_ofList _ (by decide)
  · exact startsNumber_append _ (startsNumber_ofList _ digit)

theorem startsNumber_floatText (x : Binary64) : startsNumber (Value.floatText x) = true := by
  cases x with
  | nan => decide
  | infinite negative => cases negative <;> decide
  | finite negative significand exponent =>
    cases negative with
    | true => exact startsNumber_append _ (by decide)
    | false =>
      change startsNumber ("" ++ Value.floatLayout.render _) = true
      rw [String.empty_append]
      exact startsNumber_render _ _

/-- A key that reads as a word, and not as a truth value, is a string. -/
theorem eq_string_of_scalarText? {k : Value} {word : String} (untagged : k.Untagged)
    (h : k.scalarText? = some word) (noNumber : startsNumber word = false)
    (noTruth : word ≠ "true" ∧ word ≠ "false") : k = .string word := by
  cases k with
  | string s => exact congrArg _ (Option.some.inj h)
  | tagged tag v => exact untagged.elim
  | int i =>
    have number := startsNumber_int i
    rw [Option.some.inj h, noNumber] at number
    cases number
  | float x =>
    have number := startsNumber_floatText x
    rw [Option.some.inj h, noNumber] at number
    cases number
  | bool b =>
    cases b with
    | true => exact absurd (Option.some.inj h).symm noTruth.1
    | false => exact absurd (Option.some.inj h).symm noTruth.2
  | null | sequence | mapping => cases h

end RouteNotation.Yaml
