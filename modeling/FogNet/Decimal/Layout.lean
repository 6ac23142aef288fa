import FogNet.Decimal.Shortest

/-!
# Laying digits out

A `Layout` says how the selected digits of a double become text: which decimal exponents are written
positionally, and whether a positive exponent carries its sign.
-/

namespace FogNet.Decimal

/-- The choices a number format makes once the digits are known. -/
structure Layout where
  /-- The least decimal exponent that is written positionally. -/
  lowest : Int
  /-- The greatest decimal exponent that is written positionally. -/
  highest : Int
  /-- Whether a positive exponent carries a plus sign. -/
  plusSign : Bool

/-- Digits at their place around the point, with one zero kept where a side would be empty. -/
def positional (text : List Char) (exponent : Int) : List Char :=
  if 0 ≤ exponent then
    let whole := exponent.toNat + 1
    let padded := text ++ List.replicate (whole - text.length) '0'
    let rest := padded.drop whole
    padded.take whole ++ '.' :: (if rest.isEmpty then ['0'] else rest)
  else '0' :: '.' :: (List.replicate ((-exponent).toNat - 1) '0' ++ text)

/-- One digit, the others behind a point, and the exponent. -/
def Layout.scientific (l : Layout) (text : List Char) (exponent : Int) : List Char :=
  let rest := text.drop 1
  let sign := if exponent < 0 then ['-'] else if l.plusSign then ['+'] else []
  text.take 1 ++ (if rest.isEmpty then [] else '.' :: rest) ++
    'e' :: sign ++ Nat.toDigits 10 exponent.natAbs

/-- The text of a finite double in this layout; nothing for the others. -/
def Layout.render? (l : Layout) (x : Float) : Option String :=
  (Double.ofFloat? x).map fun d =>
    let sign := if d.negative then ['-'] else []
    if d.mantissa = 0 then String.ofList (sign ++ ['0', '.', '0'])
    else
      let c := shortest d
      let text := Nat.toDigits 10 c.digits
      let exponent := c.exponent + ((text.length : Int) - 1)
      let body :=
        if l.lowest ≤ exponent ∧ exponent ≤ l.highest then positional text exponent
        else l.scientific text exponent
      String.ofList (sign ++ body)

end FogNet.Decimal
