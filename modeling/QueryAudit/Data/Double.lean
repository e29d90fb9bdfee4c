/-!
# QueryAudit.Data.Double

The range of binary floating point numbers with 53 digits and exponents below
1024.

* `Double.unit_dvd_round`, `Double.round_near` — a rounded number has 53 binary
  digits before its zeros, and lies within half a unit of the given one;
* `Double.round_eq_self` — a number of at most 53 binary digits is not rounded.
-/

namespace QueryAudit.Double

/-- The unit of the last of 53 binary digits that start with the first of `n`. -/
def unit (n : Nat) : Nat := 1 <<< (n.log2 - 52)

/-- The multiple of the unit of `n` that is nearest to `n`.  Of two that are
equally near it is the even one. -/
def round (n : Nat) : Nat :=
  if unit n < 2 * (n % unit n) ∨ (unit n = 2 * (n % unit n) ∧ n / unit n % 2 = 1) then
    (n / unit n + 1) * unit n
  else n / unit n * unit n

/-- The least magnitude that rounds to infinity: half a unit in the last place
above the largest finite number. -/
def overflow : Nat := 1 <<< 1024 - 1 <<< 970

theorem unit_pos (n : Nat) : 0 < unit n := by
  rw [unit, Nat.one_shiftLeft]
  exact Nat.two_pow_pos _

/-- A rounded number is a multiple of the unit. -/
theorem unit_dvd_round (n : Nat) : unit n ∣ round n := by
  unfold round
  split <;> exact Nat.dvd_mul_left ..

/-- A rounded number lies within half a unit of the given one. -/
theorem round_near (n : Nat) :
    2 * round n ≤ 2 * n + unit n ∧ 2 * n ≤ 2 * round n + unit n := by
  have hn := Nat.div_add_mod' n (unit n)
  have hlt : n % unit n < unit n := Nat.mod_lt _ (unit_pos n)
  unfold round
  split <;> rename_i h
  · rw [Nat.add_mul, Nat.one_mul]
    generalize n / unit n * unit n = low at hn ⊢
    omega
  · generalize n / unit n * unit n = low at hn ⊢
    omega

/-- A number of at most 53 binary digits is its own nearest. -/
theorem round_eq_self {n : Nat} (h : n.log2 < 53) : round n = n := by
  have hunit : unit n = 1 := by
    rw [unit, show n.log2 - 52 = 0 by omega]
    rfl
  simp [round, hunit, Nat.mod_one]

end QueryAudit.Double
