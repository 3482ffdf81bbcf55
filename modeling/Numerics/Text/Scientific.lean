/-!
# Scientific notation

`Text.ofFloat` writes a double with seventeen significant digits and a power of ten. A finite double
is a whole number times a power of two, so its digits are found by exact arithmetic on whole
numbers: the value is divided by the power of ten of its last digit and rounded by `roundHalfEven`.

Seventeen digits tell any two doubles apart.
-/

namespace Numerics.Text

/-- The whole number nearest to `num / den`; a half goes to the even one. -/
def roundHalfEven (num den : Nat) : Nat :=
  let q := num / den
  let r := num % den
  if 2 * r < den then q
  else if den < 2 * r then q + 1
  else q + q % 2

/-- The whole number nearest to a fraction is within half a unit of it. -/
theorem roundHalfEven_near {num den : Nat} (h : 0 < den) :
  2 * num ≤ (2 * roundHalfEven num den + 1) * den
    ∧ (2 * roundHalfEven num den) * den ≤ 2 * num + den
  := by
  have hdiv := Nat.div_add_mod num den
  have hlt := Nat.mod_lt num h
  generalize hq : num / den = q at hdiv
  generalize hr : num % den = r at hdiv hlt
  rw [Nat.mul_comm den q] at hdiv
  unfold roundHalfEven
  simp only [hq, hr]
  split
  · grind
  · split
    · grind
    · rcases Nat.mod_two_eq_zero_or_one q with he | he <;> rw [he] <;> grind

/-- A fraction of whole numbers. -/
structure Fraction where
  num : Nat
  den : Nat

/-- The fraction `f` times a power of ten with the given exponent. -/
def Fraction.shift (f : Fraction) : Int → Fraction
  | .ofNat k => { f with num := f.num * Nat.pow 10 k }
  | .negSucc k => { f with den := f.den * Nat.pow 10 (k + 1) }

/-- The number of decimal digits of `n`. -/
def digitCount (n : Nat) : Nat :=
  (Nat.toDigits 10 n).length

/-- The exponent of the leading decimal digit of the positive fraction `f`. -/
def Fraction.exponent (f : Fraction) : Int :=
  let guess : Int := (digitCount f.num : Int) - digitCount f.den
  let shifted := f.shift (-guess)
  if shifted.den ≤ shifted.num then guess else guess - 1

/-- A number in scientific notation: `digits` is the leading digit and those after the point. -/
structure Scientific where
  digits : Nat
  exponent : Int

/-- The number of digits after the point. -/
def places : Nat := 16

/-- The positive fraction `f` with one digit before the point and `places` after it. -/
def Scientific.ofFraction (f : Fraction) : Scientific :=
  let e := f.exponent
  let shifted := f.shift (places - e)
  let digits := roundHalfEven shifted.num shifted.den
  if digits < Nat.pow 10 (places + 1) then ⟨digits, e⟩ else ⟨Nat.pow 10 places, e + 1⟩

/-- The digits of `s` with a point after the first, and the exponent after the letter `e`. -/
def Scientific.toText (s : Scientific) : String :=
  let digits := Nat.toDigits 10 s.digits
  let digits := List.replicate (places + 1 - digits.length) '0' ++ digits
  String.ofList (digits.take 1) ++ "." ++ String.ofList (digits.drop 1) ++ "e"
    ++ (if s.exponent < 0 then "-" else "") ++ toString s.exponent.natAbs

/-- The absolute value of the finite double with the given exponent and fraction bits. -/
def magnitude (exponent fraction : Nat) : Fraction :=
  let m := if exponent = 0 then fraction else fraction + Nat.pow 2 52
  let e := max exponent 1
  ⟨m <<< (e - 1075), 1 <<< (1075 - e)⟩

/-- The double `x` in scientific notation, or in letters if it is not a finite number. -/
def ofFloat (x : Float) : String :=
  let exponent := (x.toBits >>> 52 &&& 0x7ff).toNat
  let fraction := (x.toBits &&& 0xfffffffffffff).toNat
  let sign := if x.toBits >>> 63 = 1 then "-" else ""
  if exponent = 2047 then
    if fraction = 0 then sign ++ "inf" else "NaN"
  else
    let f := magnitude exponent fraction
    sign ++ (if f.num = 0 then ⟨0, 0⟩ else Scientific.ofFraction f).toText

end Numerics.Text
