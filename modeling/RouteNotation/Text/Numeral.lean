/-!
Natural numbers written in digits of a base, with or without a leading plus sign.
-/

namespace RouteNotation.Numeral

/-- The value of a digit; letters count from ten in either case. -/
def digit? (base : Nat) (c : Char) : Option Nat :=
  let value :=
    if c.isDigit then c.toNat - '0'.toNat
    else if c.isLower then c.toNat - 'a'.toNat + 10
    else if c.isUpper then c.toNat - 'A'.toNat + 10
    else base
  if value < base then some value else none

def digits? (base : Nat) : List Char → Nat → Option Nat
  | [], total => some total
  | c :: rest, total => do digits? base rest (total * base + (← digit? base c))

/-- A number of one digit or more. -/
def read? (base : Nat) (cs : List Char) : Option Nat :=
  if cs.isEmpty then none else digits? base cs 0

/-- A number below `bound`; a single plus sign may stand before the digits. -/
def readBelow? (base bound : Nat) (cs : List Char) : Option Nat :=
  let digits := match cs with
    | '+' :: rest => rest
    | _ => cs
  (read? base digits).filter (· < bound)

/-- The character with this number; a surrogate is none. -/
def char? (n : Nat) : Option Char :=
  if h : n.isValidChar then some (Char.ofNatAux n h) else none

end RouteNotation.Numeral
