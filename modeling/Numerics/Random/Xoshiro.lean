/-!
# Random numbers

`Xoshiro` is the generator xoshiro256++, whose four words are filled from a seed by a permuted
congruential generator, and `Xoshiro.choose` is a uniform choice below a bound.

The choice multiplies a random word by the bound and takes the upper word of the product. Words for
which the lower word of the product lies beyond a whole multiple of the bound are rejected, so that
every choice has the same number of words.
-/

namespace Numerics.Random

/-- The bits of `x` moved up by `k` places, those at the top coming in again at the bottom. -/
def rotateLeft (x : UInt64) (k : UInt64) : UInt64 :=
  (x <<< k) ||| (x >>> (64 - k))

/-- The bits of `x` moved down by `k` places, those at the bottom coming in again at the top. -/
def rotateRight (x : UInt32) (k : UInt32) : UInt32 :=
  (x >>> k) ||| (x <<< (32 - k))

/-! ### The seed -/

/-- The state of the congruential generator after `s`. -/
def nextSeed (s : UInt64) : UInt64 :=
  s * 6364136223846793005 + 11634580027462260723

/-- The half word that the state `s` of the congruential generator stands for. -/
def seedOutput (s : UInt64) : UInt32 :=
  rotateRight ((((s >>> 18) ^^^ s) >>> 27).toUInt32) (s >>> 59).toUInt32

/-- The word made of the two states after `s`, the first giving its lower half, and the second of
them. -/
def seedWord (s : UInt64) : UInt64 × UInt64 :=
  let s₁ := nextSeed s
  let s₂ := nextSeed s₁
  ((seedOutput s₂).toUInt64 <<< 32 ||| (seedOutput s₁).toUInt64, s₂)

/-! ### The generator -/

/-- The state of the generator. -/
structure Xoshiro where
  s₀ : UInt64
  s₁ : UInt64
  s₂ : UInt64
  s₃ : UInt64
deriving DecidableEq

namespace Xoshiro

/-- The generator for a seed. -/
def ofSeed (seed : UInt64) : Xoshiro :=
  let (s₀, t) := seedWord seed
  let (s₁, t) := seedWord t
  let (s₂, t) := seedWord t
  let (s₃, _) := seedWord t
  ⟨s₀, s₁, s₂, s₃⟩

/-- The word that a state stands for. -/
def output (g : Xoshiro) : UInt64 :=
  rotateLeft (g.s₀ + g.s₃) 23 + g.s₀

/-- The next state. -/
def next (g : Xoshiro) : Xoshiro :=
  let s₂ := g.s₂ ^^^ g.s₀
  let s₃ := g.s₃ ^^^ g.s₁
  { s₀ := g.s₀ ^^^ s₃
    s₁ := g.s₁ ^^^ s₂
    s₂ := s₂ ^^^ (g.s₁ <<< 17)
    s₃ := rotateLeft s₃ 45 }

/-- The largest lower part of a product that is not rejected. -/
def zone (bound : Nat) : Nat :=
  (bound <<< (63 - bound.log2)) - 1

/-- The upper word of a product with `bound` is below `bound`. -/
theorem product_lt {bound : Nat} (h : 0 < bound) (v : UInt64) :
  v.toNat * bound / UInt64.size < bound
  := by
  rw [Nat.div_lt_iff_lt_mul (by decide), Nat.mul_comm bound]
  exact Nat.mul_lt_mul_of_pos_right v.toNat_lt h

/-- The upper word of the product of `v` and `bound`. -/
def scaled {bound : Nat} (h : 0 < bound) (v : UInt64) : Fin bound :=
  ⟨v.toNat * bound / UInt64.size, product_lt h v⟩

/-- A choice below `bound` after at most the given number of rejections, and the state after it. -/
def below {bound : Nat} (h : 0 < bound) : (rejections : Nat) → Xoshiro → Fin bound × Xoshiro
  | 0, g => (scaled h g.output, g.next)
  | rejections + 1, g =>
    if g.output.toNat * bound % UInt64.size ≤ zone bound then
      (scaled h g.output, g.next)
    else
      below h rejections g.next

/-- A choice below `bound`, and the state after it. Four words have `2 ^ 256` states, so a word that
is not rejected comes within as many trials or never. -/
def choose (g : Xoshiro) {bound : Nat} (h : 0 < bound) : Fin bound × Xoshiro :=
  below h (Nat.pow 2 256) g

end Xoshiro

end Numerics.Random
