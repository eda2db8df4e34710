/-!
Natural numbers as double-precision floats hold them: the 53 leading bits, rounded to the nearest
(`divNearest_near`), so that small numbers are held exactly (`round_of_lt`).
-/
namespace ContentSchema.Double

/-- The nearest quotient; of two that are equally near, the even one. -/
def divNearest (n unit : Nat) : Nat :=
  if 2 * (n % unit) < unit ∨ 2 * (n % unit) = unit ∧ n / unit % 2 = 0 then n / unit
  else n / unit + 1

/-- The double nearest to the number, where there is no largest double. -/
def round (n : Nat) : Nat :=
  let unit := 1 <<< (n.log2 + 1 - 53)
  divNearest n unit * unit

/-- Half a unit above the largest double; from there on a number is rounded to infinity. -/
def limit : Nat := 1 <<< 1024 - 1 <<< 970

theorem divNearest_near {n unit : Nat} (h : 0 < unit) :
    2 * n ≤ 2 * (divNearest n unit * unit) + unit ∧
      2 * (divNearest n unit * unit) ≤ 2 * n + unit := by
  have whole := Nat.div_add_mod n unit
  have below := Nat.mod_lt n h
  have next : (n / unit + 1) * unit = n / unit * unit + unit := Nat.succ_mul ..
  rw [Nat.mul_comm] at whole
  unfold divNearest
  split <;> omega

theorem divNearest_one (n : Nat) : divNearest n 1 = n := by
  simp [divNearest, Nat.mod_one]

theorem round_of_lt {n : Nat} (h : n < 1 <<< 53) : round n = n := by
  have bits : n.log2 + 1 - 53 = 0 := by
    by_cases zero : n = 0
    · subst zero
      rfl
    · rw [Nat.one_shiftLeft] at h
      have := (Nat.log2_lt zero).mpr h
      omega
  rw [round, bits, Nat.shiftLeft_zero, divNearest_one, Nat.mul_one]

end ContentSchema.Double
