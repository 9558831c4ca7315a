/-!
Text as its UTF-8 bytes. Main statements: a text is read back from its bytes, and the bytes of two
texts in a row are the two lists of bytes in a row.
-/

namespace RouteNotation.Utf8

/-- The UTF-8 bytes of a text. -/
def encode (s : String) : List UInt8 := s.toByteArray.data.toList

/-- The text with these UTF-8 bytes, if they are well formed. -/
def decode? (bytes : List UInt8) : Option String := String.fromUTF8? ⟨bytes.toArray⟩

theorem decode?_encode (s : String) : decode? (encode s) = some s := by
  simp [decode?, encode, String.fromUTF8?, s.isValidUTF8, String.fromUTF8]

theorem encode_append (s t : String) : encode (s ++ t) = encode s ++ encode t := by
  simp [encode, String.toByteArray_append]

theorem encode_of_decode? {bytes : List UInt8} {s : String} (h : decode? bytes = some s) :
    encode s = bytes := by
  simp only [decode?, String.fromUTF8?] at h
  split at h
  · cases h; simp [encode, String.fromUTF8]
  · cases h

end RouteNotation.Utf8
