/-!
# Samples

Curves are made from `samples`, given as a list of abscissae and a list of ordinates. The lists have
to be equally long and not empty; of the two faults the difference in length is reported.
-/

namespace Numerics.Curve

/-- Why no curve could be made. -/
inductive Failure where
  /-- There are no samples. -/
  | noSamples
  /-- The lists of abscissae and of ordinates differ in length. -/
  | lengthMismatch
  /-- Two nodes have the same abscissa. -/
  | duplicateNode
  /-- There is no exponent, or the exponents do not increase. -/
  | invalidExponents
  /-- There are fewer samples than terms. -/
  | tooFewSamples
  /-- The samples do not tell the terms apart. -/
  | singular
deriving DecidableEq

/-- The failure in words. -/
def Failure.message : Failure → String
  | .noSamples => "no samples supplied"
  | .lengthMismatch => "xs and ys must have the same length"
  | .duplicateNode => "interpolation nodes must have distinct x values"
  | .invalidExponents => "basis exponents must be non-empty and strictly increasing"
  | .tooFewSamples => "fewer samples than basis terms"
  | .singular => "normal equations are singular"

variable {α : Type}

/-- The abscissae `xs` paired with the ordinates `ys`. -/
def samples (xs ys : List α) : Except Failure (List (α × α)) :=
  if xs.length ≠ ys.length then .error .lengthMismatch
  else if xs.isEmpty then .error .noSamples
  else .ok (xs.zip ys)

theorem samples_eq {xs ys : List α} (hlength : xs.length = ys.length) (hxs : xs ≠ []) :
  samples xs ys = .ok (xs.zip ys)
  := by
  rw [samples, if_neg (Decidable.not_not.mpr hlength), List.isEmpty_eq_false_iff.mpr hxs]
  rfl

theorem samples_eq_ok {xs ys : List α} {pairs : List (α × α)} (h : samples xs ys = .ok pairs) :
  xs.length = ys.length ∧ pairs = xs.zip ys
  := by
  rw [samples] at h
  split at h
  case isTrue => cases h
  case isFalse hlength =>
    split at h
    case isTrue => cases h
    case isFalse =>
      cases h
      exact ⟨Decidable.not_not.mp hlength, rfl⟩

theorem ne_nil_of_samples {xs ys : List α} {pairs : List (α × α)} (h : samples xs ys = .ok pairs) :
  xs ≠ []
  := by
  rintro rfl
  rw [samples] at h
  split at h
  · cases h
  · cases h

end Numerics.Curve
