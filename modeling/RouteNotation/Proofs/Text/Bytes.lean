import RouteNotation.Proofs.Text.Ascii

/-!
The bytes of characters in a row. Main statement: a run of ASCII characters whose bytes stand
somewhere among those of a text stands in the text itself.
-/

namespace RouteNotation.Utf8

/-- The UTF-8 bytes of some characters. -/
def bytesOf (cs : List Char) : List UInt8 := cs.flatMap String.utf8EncodeChar

theorem encode_ofList_eq (cs : List Char) : encode (.ofList cs) = bytesOf cs := encode_ofList cs

theorem bytesOf_toList (s : String) : bytesOf s.toList = encode s := (encode_eq_flatMap s).symm

@[simp] theorem bytesOf_nil : bytesOf [] = [] := rfl

theorem bytesOf_cons (c : Char) (cs : List Char) :
    bytesOf (c :: cs) = String.utf8EncodeChar c ++ bytesOf cs := List.flatMap_cons

theorem bytesOf_append (cs ds : List Char) : bytesOf (cs ++ ds) = bytesOf cs ++ bytesOf ds :=
  List.flatMap_append

theorem utf8EncodeChar_of_ascii {c : Char} (ascii : c.toNat < 128) :
    String.utf8EncodeChar c = [UInt8.ofNat c.toNat] := by
  have short : c.val.toNat ≤ 127 := Nat.le_of_lt_succ ascii
  rw [String.utf8EncodeChar, if_pos short]
  rfl

theorem bytesOf_cons_of_ascii {c : Char} (ascii : c.toNat < 128) (cs : List Char) :
    bytesOf (c :: cs) = UInt8.ofNat c.toNat :: bytesOf cs := by
  rw [bytesOf_cons, utf8EncodeChar_of_ascii ascii]
  rfl

theorem not_mem_bytesOf {cs : List Char} {c : Char} (ascii : c.toNat < 128) (h : c ∉ cs) :
    UInt8.ofNat c.toNat ∉ bytesOf cs := by
  rw [← encode_ofList_eq]
  exact not_mem_encode ascii (by rwa [String.toList_ofList])

theorem large_of_not_ascii {c : Char} (long : 128 ≤ c.toNat) :
    ∀ b ∈ String.utf8EncodeChar c, 128 ≤ b.toNat := by
  intro b hb
  rcases of_mem_utf8EncodeChar hb with ⟨short, _⟩ | large
  · omega
  · exact large

theorem toNat_ofNat_of_ascii {c : Char} (ascii : c.toNat < 128) :
    (UInt8.ofNat c.toNat).toNat = c.toNat := by
  rw [UInt8.toNat_ofNat']
  omega

section Marks
variable {mark cs : List Char}

theorem prefix_of_bytesOf (ascii : ∀ m ∈ mark, m.toNat < 128) (h : bytesOf mark <+: bytesOf cs) :
    mark <+: cs := by
  induction mark generalizing cs with
  | nil => exact List.nil_prefix
  | cons m mark ih =>
    obtain ⟨first, others⟩ := List.forall_mem_cons.1 ascii
    rw [bytesOf_cons_of_ascii first] at h
    cases cs with
    | nil => simp at h
    | cons c cs =>
      by_cases short : c.toNat < 128
      · rw [bytesOf_cons_of_ascii short, List.cons_prefix_cons] at h
        have same : m = c := by
          apply Char.toNat_inj.1
          rw [← toNat_ofNat_of_ascii first, ← toNat_ofNat_of_ascii short, h.1]
        rw [same]
        exact List.cons_prefix_cons.2 ⟨rfl, ih others h.2⟩
      · rw [bytesOf_cons] at h
        cases bytes : String.utf8EncodeChar c with
        | nil => exact absurd bytes (by simp)
        | cons b bs =>
          have large := large_of_not_ascii (Nat.le_of_not_lt short) b (by simp [bytes])
          rw [bytes, List.cons_append, List.cons_prefix_cons] at h
          rw [← h.1, toNat_ofNat_of_ascii first] at large
          omega

/-- Where no byte is the first of the mark, the mark cannot begin. -/
theorem infix_of_append {first : UInt8} {rest bytes tail : List UInt8} (other : first ∉ bytes)
    (h : first :: rest <:+: bytes ++ tail) : first :: rest <:+: tail := by
  induction bytes with
  | nil => exact h
  | cons b bytes ih =>
    rw [List.mem_cons, not_or] at other
    rcases List.infix_cons_iff.1 h with here | later
    · exact absurd (List.cons_prefix_cons.1 here).1 other.1
    · exact ih other.2 later

theorem infix_of_bytesOf {m : Char} (ascii : ∀ c ∈ m :: mark, c.toNat < 128)
    (h : bytesOf (m :: mark) <:+: bytesOf cs) : m :: mark <:+: cs := by
  have first := ascii m List.mem_cons_self
  -- The bytes of a character that is not ASCII are all too large for the mark to begin there.
  induction cs with
  | nil =>
    rw [bytesOf_cons_of_ascii first] at h
    simp at h
  | cons c cs ih =>
    by_cases short : c.toNat < 128
    · have whole := h
      rw [bytesOf_cons_of_ascii short] at h
      rcases List.infix_cons_iff.1 h with here | later
      · rw [← bytesOf_cons_of_ascii short] at here
        exact (prefix_of_bytesOf ascii here).isInfix
      · exact (ih later).trans (List.suffix_cons c cs).isInfix
    · have large := large_of_not_ascii (Nat.le_of_not_lt short)
      have other : UInt8.ofNat m.toNat ∉ String.utf8EncodeChar c := by
        intro there
        have big := large _ there
        rw [toNat_ofNat_of_ascii first] at big
        omega
      rw [bytesOf_cons_of_ascii first, bytesOf_cons] at h
      have later := infix_of_append other h
      rw [← bytesOf_cons_of_ascii first] at later
      exact (ih later).trans (List.suffix_cons c cs).isInfix

end Marks

end RouteNotation.Utf8
