import Mathlib.NumberTheory.LucasPrimality
import Mathlib.Tactic.NormNum.Prime
import Mathlib.Tactic.ReduceModChar

/-!
# The order of the field

Signals of a circuit are elements of the scalar field of the curve BN254. What is said of a circuit
elsewhere is said of every prime order that leaves room for the comparators; here this one is shown
to be such an order. A number is prime when some element has all the order that it may have, which
can be tested when the prime factors of the number before are known (`prime_of_pow`). They are shown
to be prime in the same way, down to factors that are small enough for trial division.
-/

namespace CircuitGraph.Circom

/-- The order of the scalar field of BN254. -/
def fieldOrder : ℕ :=
  21888242871839275222246405745257275088548364400416034343698204186575808495617

/-- A number is prime when an element has the number before as its order. The prime factors of that
number are given with their exponents. -/
theorem prime_of_pow {n : ℕ} (a : ZMod n) (factors : List (ℕ × ℕ))
    (hprod : (factors.map fun f => f.1 ^ f.2).prod = n - 1) (hprime : ∀ f ∈ factors, f.1.Prime)
    (hpow : a ^ (n - 1) = 1 ∧ ∀ f ∈ factors, a ^ ((n - 1) / f.1) ≠ 1) : n.Prime := by
  refine lucas_primality n a hpow.1 fun q hq hdvd => ?_
  -- a prime that divides the product of the powers is one of their bases
  rw [← hprod] at hdvd
  obtain ⟨x, hx, hqx⟩ := (Prime.dvd_prod_iff hq.prime).1 hdvd
  obtain ⟨f, hf, rfl⟩ := List.mem_map.1 hx
  obtain rfl := (Nat.prime_dvd_prime_iff_eq hq (hprime f hf)).1 (hq.dvd_of_dvd_pow hqx)
  exact hpow.2 f hf

/-! ## The factors -/

/-- A factor of the number before `65865678001877903`. -/
theorem prime_639533339 : Nat.Prime 639533339 := by
  refine prime_of_pow 2 [(2, 1), (229, 1), (853, 1), (1637, 1)] (by norm_num) (by norm_num) ?_
  norm_num
  reduce_mod_char
  decide

/-- A factor of the number before `13818364434197438864469338081`. -/
theorem prime_65865678001877903 : Nat.Prime 65865678001877903 := by
  refine prime_of_pow 5 [(2, 1), (83, 1), (379, 1), (1637, 1), (639533339, 1)] (by norm_num) ?_ ?_
  · simp only [List.forall_mem_cons]
    exact ⟨by norm_num, by norm_num, by norm_num, by norm_num, prime_639533339, nofun⟩
  · norm_num
    reduce_mod_char
    decide

/-- The greatest factor of the number before the order. -/
theorem prime_13818364434197438864469338081 : Nat.Prime 13818364434197438864469338081 := by
  refine prime_of_pow 3 [(2, 5), (5, 1), (823, 1), (1593227, 1), (65865678001877903, 1)]
    (by norm_num) ?_ ?_
  · simp only [List.forall_mem_cons]
    exact ⟨by norm_num, by norm_num, by norm_num, by norm_num, prime_65865678001877903, nofun⟩
  · norm_num
    reduce_mod_char
    decide

/-- A factor of the number before `5156902474397`. -/
theorem prime_12048837557 : Nat.Prime 12048837557 := by
  refine prime_of_pow 2 [(2, 2), (7, 2), (661, 1), (93001, 1)] (by norm_num) (by norm_num) ?_
  norm_num
  reduce_mod_char
  decide

/-- A factor of the number before `1670836401704629`. -/
theorem prime_5156902474397 : Nat.Prime 5156902474397 := by
  refine prime_of_pow 2 [(2, 2), (107, 1), (12048837557, 1)] (by norm_num) ?_ ?_
  · simp only [List.forall_mem_cons]
    exact ⟨by norm_num, by norm_num, prime_12048837557, nofun⟩
  · norm_num
    reduce_mod_char
    decide

/-- A factor of the number before the order. -/
theorem prime_1670836401704629 : Nat.Prime 1670836401704629 := by
  refine prime_of_pow 2 [(2, 2), (3, 4), (5156902474397, 1)] (by norm_num) ?_ ?_
  · simp only [List.forall_mem_cons]
    exact ⟨by norm_num, by norm_num, prime_5156902474397, nofun⟩
  · norm_num
    reduce_mod_char
    decide

/-- A factor of the number before the order. -/
theorem prime_405928799 : Nat.Prime 405928799 := by
  refine prime_of_pow 22 [(2, 1), (11, 1), (3691, 1), (4999, 1)] (by norm_num) (by norm_num) ?_
  norm_num
  reduce_mod_char
  decide

/-! ## The order -/

/-- The order is prime. -/
theorem prime_fieldOrder : fieldOrder.Prime := by
  rw [fieldOrder]
  refine prime_of_pow 5
    [(2, 28), (3, 2), (13, 1), (29, 1), (983, 1), (11003, 1), (237073, 1), (405928799, 1),
     (1670836401704629, 1), (13818364434197438864469338081, 1)] (by norm_num) ?_ ?_
  · simp only [List.forall_mem_cons]
    exact ⟨by norm_num, by norm_num, by norm_num, by norm_num, by norm_num, by norm_num,
      by norm_num, prime_405928799, prime_1670836401704629, prime_13818364434197438864469338081,
      nofun⟩
  · norm_num
    reduce_mod_char
    decide

instance : Fact fieldOrder.Prime := ⟨prime_fieldOrder⟩

/-- The field has room for the widest comparators. -/
theorem two_pow_lt_fieldOrder : 2 ^ 253 < fieldOrder := by
  rw [fieldOrder]
  norm_num

end CircuitGraph.Circom
