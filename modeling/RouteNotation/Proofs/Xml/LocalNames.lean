import RouteNotation.Proofs.Text.Bytes
import RouteNotation.Proofs.Xml.NamedTree

/-!
Names that lose their namespace. Every byte that is left may stand in a name, so the only question
is whether the first one may open it: `isValidName_localName`.
-/

namespace RouteNotation.Xml

/-- Whether a character in a name could also be its first. -/
def canOpenName (c : Char) : Bool := !(c.isDigit || c == '-' || c == '.')

theorem isNameByte_of_valid {name : String} (valid : isValidName name) :
    ∀ b ∈ Utf8.encode name, isNameByte b := by
  unfold isValidName at valid
  split at valid
  · cases valid
  · rename_i b rest bytes
    rw [Bool.and_eq_true, List.all_eq_true] at valid
    rw [bytes, List.forall_mem_cons]
    exact ⟨by simp [isNameByte, valid.1], valid.2⟩

theorem localName_suffix (name : String) : (localName name).toList <:+ name.toList := by
  rw [localName, Text.afterLast, String.toList_ofList, Text.afterLastChars]
  have front := List.reverse_suffix.2 (@List.takeWhile_prefix _ (name.toList.reverse) (· ≠ ':'))
  rwa [List.reverse_reverse] at front

theorem isNameByte_localName {name : String} (valid : isValidName name) :
    ∀ b ∈ Utf8.encode (localName name), isNameByte b := by
  obtain ⟨front, whole⟩ := localName_suffix name
  have all := isNameByte_of_valid valid
  rw [← Utf8.bytesOf_toList, ← whole, Utf8.bytesOf_append] at all
  rw [← Utf8.bytesOf_toList]
  exact fun b hb => all b (List.mem_append_right _ hb)

theorem isNameStart_first {c : Char} {b : UInt8} {bs : List UInt8}
    (bytes : String.utf8EncodeChar c = b :: bs) (passes : isNameByte b) :
    isNameStart b = canOpenName c := by
  -- A character of one byte is one of 128, which can be tried. Any other opens with a byte that may
  -- open a name, and is none of those that may not.
  by_cases short : c.toNat < 128
  · rw [Utf8.utf8EncodeChar_of_ascii short] at bytes
    obtain ⟨rfl, -⟩ := List.cons.inj bytes
    have each : ∀ n < 128, isNameByte (UInt8.ofNat n) →
      isNameStart (UInt8.ofNat n) = canOpenName (Char.ofNat n) := by decide
    rw [each _ short passes, Char.ofNat_toNat]
  · have long : 128 ≤ c.toNat := Nat.le_of_not_lt short
    have large := Utf8.large_of_not_ascii long b (by simp [bytes])
    have byte : isNameStart b = true := by
      have : (128 : UInt8) ≤ b := UInt8.le_iff_toNat_le.2 large
      simp [isNameStart, this]
    have char : ∀ d : Char, d.toNat < 128 → c ≠ d := fun d hd same => by rw [same] at long; omega
    have digit : c.isDigit = false := by
      rw [Char.isDigit, Bool.and_eq_false_iff]
      exact .inr (decide_eq_false fun le => Nat.not_le_of_lt (by decide : '9'.toNat < 128)
        (Nat.le_trans long (UInt32.le_iff_toNat_le.1 le)))
    rw [byte, canOpenName, digit, beq_false_of_ne (char '-' (by decide)),
      beq_false_of_ne (char '.' (by decide))]
    rfl

/-- A name that loses its namespace stays a name, unless what is left is nothing or opens with a
character that may only come later. -/
theorem isValidName_localName {name : String} (valid : isValidName name) :
    isValidName (localName name) ↔ ∃ c ∈ (localName name).toList.head?, canOpenName c := by
  have bytes := isNameByte_localName valid
  rw [← Utf8.bytesOf_toList] at bytes
  unfold isValidName
  rw [← Utf8.bytesOf_toList]
  cases chars : (localName name).toList with
  | nil => simp
  | cons c cs =>
    cases first : String.utf8EncodeChar c with
    | nil => exact absurd first (by simp)
    | cons b bs =>
      rw [chars, Utf8.bytesOf_cons, first, List.cons_append, List.forall_mem_cons] at bytes
      rw [Utf8.bytesOf_cons, first, List.cons_append]
      simp only [isNameStart_first first bytes.1, List.all_eq_true.2 bytes.2, Bool.and_true,
        List.head?_cons, Option.mem_some_iff, exists_eq_left']

end RouteNotation.Xml
