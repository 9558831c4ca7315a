/-!
Blank characters are those with the White_Space property, so a no-break space and an ideographic
space are blank while a zero-width space and a byte order mark are not.
-/

namespace RouteNotation.Text

/-- The White_Space property, as ranges of code points. -/
def isBlank (c : Char) : Bool :=
  let n := c.toNat
  (0x09 ≤ n && n ≤ 0x0D) || n == 0x20 || n == 0x85 || n == 0xA0 || n == 0x1680 ||
    (0x2000 ≤ n && n ≤ 0x200A) || n == 0x2028 || n == 0x2029 || n == 0x202F || n == 0x205F ||
    n == 0x3000

def trimChars (cs : List Char) : List Char :=
  ((cs.dropWhile isBlank).reverse.dropWhile isBlank).reverse

/-- The text without the blank characters at its two ends. -/
def trim (s : String) : String := .ofList (trimChars s.toList)

/-- Nothing but blank characters, or nothing at all. -/
def isBlankText (s : String) : Bool := s.toList.all isBlank

theorem trimChars_eq_nil {cs : List Char} (h : cs.all isBlank) : trimChars cs = [] := by
  have : cs.dropWhile isBlank = [] := by
    induction cs with
    | nil => rfl
    | cons c cs ih => simp_all
  simp [trimChars, this]

end RouteNotation.Text
