/-!
# Remainder of doubles

The remainder of the quotient that is cut off toward zero, computed exactly. It has the sign of
the dividend, and there is none for an infinite dividend or a zero divisor.
-/

namespace Scriptlet.Number

open Float.Model (UnpackedFloat Format)

def undefined : Float := Float.ofModel (.pack .notANumber)

/-- The double `± mantissa * 2 ^ exponent`, rounded if it has too many digits. -/
def ofDyadic (sign : UnpackedFloat.Sign) (mantissa : Nat) (exponent : Int) : Float :=
  if mantissa = 0 then Float.ofModel (.pack (.zero sign))
  else Float.ofModel (.pack (UnpackedFloat.round Format.binary64 sign mantissa exponent))

def remainder (x y : Float) : Float :=
  match x.toModel.unpack, y.toModel.unpack with
  | .notANumber, _ => undefined
  | _, .notANumber => undefined
  | .infinity _, _ => undefined
  | _, .zero _ => undefined
  | .zero _, _ => x
  | .finite .., .infinity _ => x
  | .finite sign m e _, .finite _ n f _ =>
      let unit := min e f
      ofDyadic sign ((m <<< (e - unit).toNat) % (n <<< (f - unit).toNat)) unit

end Scriptlet.Number
