import RouteNotation.Text.Utf8

/-!
The ASCII bytes of a text are its ASCII characters: every byte of a longer form is 128 or more. So a
reader that looks for one ASCII byte finds the character and nothing else.
-/

namespace RouteNotation.Utf8

theorem encode_ofList (cs : List Char) :
    encode (.ofList cs) = cs.flatMap String.utf8EncodeChar := by
  simp [encode, List.utf8Encode]

theorem encode_eq_flatMap (s : String) : encode s = s.toList.flatMap String.utf8EncodeChar := by
  rw [← encode_ofList, String.ofList_toList]

@[simp] theorem encode_empty : encode "" = [] := rfl

theorem of_mem_utf8EncodeChar {c : Char} {b : UInt8} (h : b ∈ String.utf8EncodeChar c) :
    (c.toNat < 128 ∧ b = UInt8.ofNat c.toNat) ∨ 128 ≤ b.toNat := by
  simp only [String.utf8EncodeChar] at h
  split at h
  · rename_i short
    exact .inl ⟨Nat.lt_succ_of_le short, List.mem_singleton.1 h⟩
  · right
    -- The longer forms are a lead byte from 192 on and trailing bytes from 128 on.
    split at h
    · simp only [List.mem_cons, List.not_mem_nil, or_false] at h
      rcases h with rfl | rfl <;> simp only [UInt8.toNat_ofNat'] <;> omega
    · split at h
      · simp only [List.mem_cons, List.not_mem_nil, or_false] at h
        rcases h with rfl | rfl | rfl <;> simp only [UInt8.toNat_ofNat'] <;> omega
      · simp only [List.mem_cons, List.not_mem_nil, or_false] at h
        rcases h with rfl | rfl | rfl | rfl <;> simp only [UInt8.toNat_ofNat'] <;> omega

/-- A character that stands nowhere in a text leaves no byte in it. -/
theorem not_mem_encode {s : String} {c : Char} (ascii : c.toNat < 128) (h : c ∉ s.toList) :
    UInt8.ofNat c.toNat ∉ encode s := by
  intro hb
  rw [encode_eq_flatMap] at hb
  obtain ⟨d, hd, hb⟩ := List.mem_flatMap.1 hb
  rcases of_mem_utf8EncodeChar hb with ⟨small, same⟩ | large
  · have eq : c.toNat = d.toNat := by
      have := congrArg UInt8.toNat same
      simp only [UInt8.toNat_ofNat'] at this
      omega
    have : c = d := Char.toNat_inj.1 eq
    exact h (this ▸ hd)
  · simp only [UInt8.toNat_ofNat'] at large
    omega

end RouteNotation.Utf8
