import RouteNotation.Text.Numeral

/-!
Numbers in base ten are read back from their digits.
-/

namespace RouteNotation.Numeral

theorem digit?_of_isDigit {c : Char} (h : c.isDigit = true) :
    digit? 10 c = some (c.toNat - '0'.toNat) := by
  have small : c.toNat - '0'.toNat < 10 := by
    simp only [Char.isDigit, Bool.and_eq_true, decide_eq_true_eq, UInt32.le_iff_toNat_le] at h
    have last : c.toNat ≤ 57 := h.2
    have zero : '0'.toNat = 48 := rfl
    omega
  simp only [digit?, h, if_true, small]

theorem digits?_of_isDigit {cs : List Char} (h : ∀ c ∈ cs, c.isDigit = true) (total : Nat) :
    digits? 10 cs total = some (Nat.ofDigitChars 10 cs total) := by
  induction cs generalizing total with
  | nil => rfl
  | cons c cs ih =>
    rw [List.forall_mem_cons] at h
    rw [digits?, digit?_of_isDigit h.1, Nat.ofDigitChars_cons, Nat.mul_comm 10]
    exact ih h.2 _

theorem readBelow?_repr {n bound : Nat} (h : n < bound) :
    readBelow? 10 bound n.repr.toList = some n := by
  have digits : ∀ c ∈ Nat.toDigits 10 n, c.isDigit = true := fun c hc =>
    Nat.isDigit_of_mem_toDigits (by decide) (by decide) hc
  have value := digits?_of_isDigit digits 0
  rw [Nat.ofDigitChars_ten_toDigits] at value
  rw [Nat.toList_repr]
  unfold readBelow? read?
  split
  · rename_i rest plus
    rw [plus] at digits
    exact absurd (digits '+' List.mem_cons_self) (by decide)
  · have nonempty : (Nat.toDigits 10 n).isEmpty = false := by simp [Nat.toDigits_ne_nil]
    simp only [nonempty, Bool.false_eq_true, if_false, value]
    simpa using h

end RouteNotation.Numeral
