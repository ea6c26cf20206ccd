/-!
# Shortest decimals

The decimal with the fewest digits that reads back as a given binary floating-point number, and of
those the nearest. A number `m · 2^q` owns the interval of reals that round to it, with its ends
if `m` is even. The candidates with `n` digits are the two neighbours of the number on the grid of
decimals with `n` digits; the first grid with a neighbour in the interval wins. All arithmetic is
exact.
-/

namespace HtmlTemplate.Decimal

/-- A positive floating-point number `mantissa · 2^exponent`. The numbers below the smallest
mantissa of an exponent are spaced half as wide. -/
structure Binary where
  mantissa : Nat
  exponent : Int
  /-- The mantissa is the smallest of its exponent, and the exponent is not the least one. -/
  atPowerOfTwo : Bool
  deriving DecidableEq, Repr

/-- A decimal number `digits · 10^exponent`. -/
structure Scaled where
  digits : Nat
  exponent : Int
  deriving DecidableEq, Repr

/-- The positive finite number with the given bits, sign aside; zero has none. -/
def Binary.ofBits? (bits : UInt64) : Option Binary :=
  let fraction : Nat := bits.toNat % Nat.pow 2 52
  let field : Nat := bits.toNat / Nat.pow 2 52 % Nat.pow 2 11
  if field == 2047 then none
  else if field == 0 then if fraction == 0 then none else some ⟨fraction, -1074, false⟩
  else some ⟨fraction + Nat.pow 2 52, (field : Int) - 1075, fraction == 0 && field != 1⟩

/-- `x · 2^b · 10^t` and a second such number, brought to a common scale of whole numbers: here the
factor of the first. -/
def scale (x : Nat) (b t : Int) : Nat := x * Nat.pow 2 b.toNat * Nat.pow 10 t.toNat

/-- Compares `d · 10^p` with `x · 2^q`. -/
def compareWith (d : Nat) (p : Int) (x : Nat) (q : Int) : Ordering :=
  compare (scale d (-q) p) (scale x q (-p))

/-- Whether `d · 10^p` rounds to the number. Bounds are in quarters of the last binary place. -/
def Binary.owns (v : Binary) (d : Nat) (p : Int) : Bool :=
  let q := v.exponent - 2
  let lower := compareWith d p (4 * v.mantissa - if v.atPowerOfTwo then 1 else 2) q
  let upper := compareWith d p (4 * v.mantissa + 2) q
  let closed := v.mantissa % 2 == 0
  (lower == .gt || closed && lower == .eq) && (upper == .lt || closed && upper == .eq)

/-- The greatest `e` with `10^e` at most the number. The guess from the binary exponent, with the
logarithm of two to five places, is off by one at most. -/
def Binary.magnitude (v : Binary) : Int :=
  let guess := ((v.mantissa.log2 : Int) + v.exponent) * 30103 / 100000
  if compareWith 1 guess v.mantissa v.exponent == .gt then guess - 1
  else if compareWith 1 (guess + 1) v.mantissa v.exponent == .gt then guess
  else guess + 1

/-- The nearest of the number's neighbours on the grid `10^p` that rounds to it; of two that are
equally near, the even one. -/
def Binary.nearestOn? (v : Binary) (p : Int) : Option Scaled :=
  let d := scale v.mantissa v.exponent (-p) / scale 1 (-v.exponent) p
  match v.owns d p, v.owns (d + 1) p with
  | false, false => none
  | true, false => some ⟨d, p⟩
  | false, true => some ⟨d + 1, p⟩
  | true, true =>
    match compareWith (2 * d + 1) p (2 * v.mantissa) v.exponent with
    | .lt => some ⟨d + 1, p⟩
    | .gt => some ⟨d, p⟩
    | .eq => some ⟨if d % 2 == 0 then d else d + 1, p⟩

/-- Tries grids with more and more digits, `more` of them after `n` digits. -/
def Binary.shortestFrom (v : Binary) (magnitude : Int) (n : Nat) : Nat → Scaled
  | 0 => ⟨0, 0⟩
  | more + 1 =>
    match v.nearestOn? (magnitude - n) with
    | some d => d
    | none => v.shortestFrom magnitude (n + 1) more

/-- The shortest decimal of a number; seventeen digits always suffice. -/
def Binary.shortest (v : Binary) : Scaled := v.shortestFrom v.magnitude 0 17

end HtmlTemplate.Decimal
