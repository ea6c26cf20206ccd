import HtmlTemplate.Decimal.Shortest

/-!
# Floating-point numbers as text
-/

namespace HtmlTemplate.Decimal

/-- The exponents of the first digit from which and below which a number is written positionally;
beyond them it gets an exponent. -/
structure Layout where
  least : Int
  beyond : Int
  deriving DecidableEq, Repr

/-- Positional from `0.00001` to `1000000000000000.0`. -/
def Layout.data : Layout := ⟨-5, 16⟩

def zeros (n : Nat) : List Char := List.replicate n '0'

/-- Digits with a point after the first `whole` of them, filled up by zeros, and at least one digit
on either side. -/
def positional (digits : List Char) (whole : Int) : List Char :=
  if whole ≤ 0 then '0' :: '.' :: zeros (-whole).toNat ++ digits
  else if digits.length ≤ whole then digits ++ zeros (whole - digits.length).toNat ++ ['.', '0']
  else digits.take whole.toNat ++ '.' :: digits.drop whole.toNat

/-- The first digit, a point and the others if there are any, and the exponent with its sign. -/
def scientific (digits : List Char) (exponent : Int) : List Char :=
  let fraction := digits.drop 1
  digits.take 1 ++ (if fraction.isEmpty then [] else '.' :: fraction) ++
    'e' :: (if exponent < 0 then '-' else '+') :: Nat.toDigits 10 exponent.natAbs

/-- The digits of a decimal without zeros at their end. -/
def Scaled.significant (d : Scaled) : List Char :=
  ((Nat.toDigits 10 d.digits).reverse.dropWhile (· == '0')).reverse

def Scaled.written (n : Layout) (d : Scaled) : List Char :=
  let exponent : Int := d.exponent + (Nat.toDigits 10 d.digits).length - 1
  if n.least ≤ exponent && exponent < n.beyond then positional d.significant (exponent + 1)
  else scientific d.significant exponent

/-- The text of a finite floating-point number. -/
def floatText (x : Float) : String :=
  let bits := x.toBits
  let sign := if bits.toNat / Nat.pow 2 63 == 0 then [] else ['-']
  match Binary.ofBits? bits with
  | none => String.ofList (sign ++ ['0', '.', '0'])
  | some v => String.ofList (sign ++ v.shortest.written .data)

end HtmlTemplate.Decimal
