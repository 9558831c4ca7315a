import RouteNotation.Decimal.Binary64

/-!
The shortest decimal that reads back as a given finite number, and its text. Among the shortest the
one nearest to the number is taken, and an exact tie goes to the even digit.
-/

namespace RouteNotation

/-- The number `digits * 10 ^ power`. -/
structure Decimal where
  digits : Nat
  power : Int
  deriving DecidableEq, Repr

namespace Binary64

/-- The decimals with `power` that round to `significand * 2 ^ exponent`, if there are any: the
nearest of the two neighbours that lie in the rounding interval. All is counted in quarters of a
unit in the last place; below a power of two the units are half as wide. The ends of the interval
round to the number when its significand is even. -/
def onGrid? (significand : Nat) (exponent power : Int) : Option Decimal :=
  let below := if significand = leastFull ∧ leastExponent < exponent then 1 else 2
  let (up, down) := scaled 1 1 (2 - exponent)
  let (up, down) := match power with
    | .ofNat n => (up, down * Nat.pow 10 n)
    | .negSucc n => (up * Nat.pow 10 (n + 1), down)
  let value := 4 * significand * up
  let low := (4 * significand - below) * up
  let high := (4 * significand + 2) * up
  let inside := fun d : Nat =>
    if significand % 2 = 0 then decide (low ≤ d * down ∧ d * down ≤ high)
    else decide (low < d * down ∧ d * down < high)
  let d := value / down
  match inside d, inside (d + 1) with
  | true, true =>
    match compare (2 * (value % down)) down with
    | .lt => some ⟨d, power⟩
    | .gt => some ⟨d + 1, power⟩
    | .eq => some ⟨if d % 2 = 0 then d else d + 1, power⟩
  | true, false => some ⟨d, power⟩
  | false, true => some ⟨d + 1, power⟩
  | false, false => none

/-- The shortest decimal for `significand * 2 ^ exponent`. The search goes from a grid that is too
coarse to one with seventeen digits, where there is always a hit. -/
def shortest (significand : Nat) (exponent : Int) : Decimal :=
  let coarsest : Int := ((significand.log2 : Int) + exponent + 1) * 30103 / 100000 + 1
  ((List.range 20).findSome? fun i : Nat => onGrid? significand exponent (coarsest - i)).getD ⟨0, 0⟩

end Binary64

/-- Where positional notation ends: it is used while the decimal point falls after
`leastPoint` and no further than `greatestPoint`. -/
structure DecimalLayout where
  leastPoint : Int
  greatestPoint : Int

namespace DecimalLayout

/-- A decimal in positional notation, or else with one digit before the point and an exponent. -/
def render (layout : DecimalLayout) (d : Decimal) : String :=
  let digits := Nat.toDigits 10 d.digits
  let point : Int := digits.length + d.power
  let zeros (n : Int) : List Char := List.replicate n.toNat '0'
  if layout.leastPoint < point ∧ point ≤ layout.greatestPoint then
    if 0 ≤ d.power then .ofList (digits ++ zeros d.power ++ ['.', '0'])
    else if 0 < point then
      .ofList (digits.take point.toNat ++ '.' :: digits.drop point.toNat)
    else .ofList ('0' :: '.' :: zeros (-point) ++ digits)
  else
    let fraction := digits.drop 1
    .ofList (digits.take 1 ++ (if fraction.isEmpty then [] else '.' :: fraction)) ++
      s!"e{point - 1}"

end DecimalLayout
end RouteNotation
