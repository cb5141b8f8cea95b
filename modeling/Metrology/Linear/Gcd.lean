/-!
# Extended greatest common divisors

Bezout coefficients by Euclid's algorithm with quotients rounded toward zero.
-/

namespace Metrology
namespace Linear

/-- The remainders and coefficients of Euclid's algorithm from a given stage on. -/
def euclid (a b s s' t t' : Int) : Int × Int × Int :=
  if b = 0 then (a, s, t)
  else
    let q := a.tdiv b
    euclid b (a - q * b) s' (s - q * s') t' (t - q * t')
termination_by b.natAbs
decreasing_by
  rename_i hb
  have h : a - a.tdiv b * b = a.tmod b := by
    rw [Int.tmod_def, Int.mul_comm]
  rw [h, Int.natAbs_tmod]
  exact Nat.mod_lt _ (Int.natAbs_pos.2 hb)

/-- `(g, s, t)` where `g` is the nonnegative greatest common divisor and `s * a + t * b = g`. -/
def extendedGcd (a b : Int) : Int × Int × Int :=
  let (g, s, t) := euclid a b 1 0 0 1
  if g < 0 then (-g, -s, -t) else (g, s, t)

end Linear
end Metrology
