import RouteNotation.Text.Numeral
import RouteNotation.Yaml.Fault
import RouteNotation.Yaml.Tag
import RouteNotation.Yaml.Value

/-!
What a plain scalar stands for: null, a truth value, a number or else a string.
-/

namespace RouteNotation.Yaml.Scalar

def isNull (s : String) : Bool := ["~", "null", "Null", "NULL"].contains s

def bool? (s : String) : Option Bool :=
  if ["true", "True", "TRUE"].contains s then some true
  else if ["false", "False", "FALSE"].contains s then some false
  else none

/-- The text behind one character of a sign, or all of it. -/
def dropSign (signs : List Char) : List Char → List Char
  | c :: rest => if signs.contains c then rest else c :: rest
  | [] => []

/-- Digits with a leading zero, which are no number. -/
def isPaddedDigits (cs : List Char) : Bool :=
  match dropSign ['-', '+'] cs with
  | '0' :: rest => !rest.isEmpty && rest.all Char.isDigit
  | _ => false

/-- Digits behind the mark of their base; no mark stands for ten, which admits no padding. -/
def magnitude? (padded : Bool) : List Char → Option Nat
  | '0' :: 'x' :: digits => Numeral.read? 16 digits
  | '0' :: 'o' :: digits => Numeral.read? 8 digits
  | '0' :: 'b' :: digits => Numeral.read? 2 digits
  | digits => if padded then none else Numeral.read? 10 digits

/-- A whole number of any size. -/
def integer? (cs : List Char) : Option Int :=
  let padded := isPaddedDigits cs
  match cs with
  | '-' :: rest => (magnitude? padded rest).map fun n => -(n : Int)
  | '+' :: rest => (magnitude? padded rest).map Int.ofNat
  | _ => (magnitude? padded cs).map Int.ofNat

/-- The digits before and after the point and the exponent of a number in decimal notation. -/
def decimalParts? (cs : List Char) : Option (List Char × List Char × Int) := do
  let whole := cs.takeWhile Char.isDigit
  let rest := cs.dropWhile Char.isDigit
  let (fraction, rest) := match rest with
    | '.' :: rest => (rest.takeWhile Char.isDigit, rest.dropWhile Char.isDigit)
    | _ => ([], rest)
  if whole.isEmpty && fraction.isEmpty then none
  else match rest with
    | [] => some (whole, fraction, 0)
    | e :: rest =>
      if e = 'e' || e = 'E' then
        let n ← Numeral.read? 10 (dropSign ['-', '+'] rest)
        some (whole, fraction, if rest.head? = some '-' then -(n : Int) else n)
      else none

/-- The number nearest to one in decimal notation. -/
def nearest? (cs : List Char) : Option Binary64 := do
  let (whole, fraction, exponent) ← decimalParts? (dropSign ['-'] cs)
  let digits ← Numeral.digits? 10 (whole ++ fraction) 0
  return .ofDecimal (cs.head? = some '-') digits (exponent - fraction.length)

/-- A number in decimal notation, if it is not beyond all finite numbers. -/
def decimal? (cs : List Char) : Option Binary64 := (nearest? cs).filter Binary64.isFinite

def float? (s : String) : Option Binary64 :=
  if [".nan", ".NaN", ".NAN"].contains s then some .nan
  else if ["-.inf", "-.Inf", "-.INF"].contains s then some (.infinite true)
  else match s.toList with
    | '+' :: rest =>
      if [".inf", ".Inf", ".INF"].contains (String.ofList rest) then some (.infinite false)
      else if rest.head? = some '-' then none
      else decimal? rest
    | cs => if [".inf", ".Inf", ".INF"].contains s then some (.infinite false) else decimal? cs

/-- Whether so many bits hold an integer, if need be with a sign. -/
def fitsBits (bits : Nat) (i : Int) : Bool :=
  -Int.ofNat (Nat.pow 2 (bits - 1)) ≤ i && i < Int.ofNat (Nat.pow 2 bits)

/-- An integer that 64 bits hold. One that needs up to 128 bits is refused, and a larger one is none
here. -/
def integerValue? (s : String) : Except Fault (Option Value) :=
  match integer? s.toList with
  | none => .ok none
  | some i =>
    if fitsBits 64 i then .ok (some (.int i))
    else if fitsBits 128 i then .error .wideInteger
    else .ok none

/-- The value of a plain scalar. -/
def resolve (s : String) : Except Fault Value :=
  if s.isEmpty || isNull s then .ok .null
  else match bool? s with
    | some b => .ok (.bool b)
    | none => do
      match ← integerValue? s with
      | some v => return v
      | none =>
        if isPaddedDigits s.toList then return .string s
        else match float? s with
          | some x => return .float x
          | none => return .string s

/-- The value that a tag of a core type makes of a scalar; other tags make it a string. -/
def resolveTagged (tag : List UInt8) (s : String) : Except Fault Value :=
  if tag = Tag.core "bool" then
    match bool? s with
    | some b => .ok (.bool b)
    | none => .error .scalarTagMismatch
  else if tag = Tag.core "int" then do
    match ← integerValue? s with
    | some v => return v
    | none => .error .scalarTagMismatch
  else if tag = Tag.core "float" then
    match float? s with
    | some x => .ok (.float x)
    | none => .error .scalarTagMismatch
  else if tag = Tag.core "null" then
    if isNull s then .ok .null else .error .scalarTagMismatch
  else .ok (.string s)

/-- Whether a string would be read as something else, or at least looks like a number. -/
def isAmbiguous (s : String) : Bool :=
  match resolve s with
  | .ok (.string _) => isPaddedDigits s.toList
  | _ => true

end RouteNotation.Yaml.Scalar
