import CircuitGraph.Circom.SourceUnit
import Mathlib.Algebra.BigOperators.Group.Finset.Basic
import Mathlib.Algebra.BigOperators.Ring.Finset
import Mathlib.Algebra.Field.ZMod

/-!
# What a template body constrains

An assignment gives a field element to every signal. `SourceUnit.Holds` says that an assignment
keeps all constraints of a template body. A constraint is an equation of the field; what is assigned
without a constraint constrains nothing; and an instance of a library template stands for what the
library promises of the template. The hash is a parameter of which nothing is known but that it is a
function.

Comparisons rest on bits: `in[0] + 2 ^ n - in[1]` is decomposed into `n + 1` bits, and the last one
tells which input is greater. As long as `2 ^ (n + 1)` is less than the order of the field, there is
one decomposition at most (`IsBits.eq_of_lt`).
-/

namespace CircuitGraph.Circom

variable {p : ℕ}

/-! ## Values -/

/-- The place of an array that is meant when the counter has a value. -/
def Accessor.atCount (i : ℕ) : Accessor → Accessor
  | .element (.counter offset) => .element (.fixed (i + offset))
  | accessor => accessor

/-- The signal that is meant when the counter has a value; there is no counter outside of a loop. -/
def Ref.atCount (r : Ref) : Option ℕ → Ref
  | none => r
  | some i => ⟨r.name, r.path.map (Accessor.atCount i)⟩

/-- What an operator computes. The two operators on integers take the least residues. -/
def BinaryOp.eval [Fact p.Prime] : BinaryOp → ZMod p → ZMod p → ZMod p
  | add, x, y => x + y
  | sub, x, y => x - y
  | mul, x, y => x * y
  | div, x, y => x / y
  | quotient, x, y => (x.val / y.val : ℕ)
  | remainder, x, y => (x.val % y.val : ℕ)

/-- The value of an expression. -/
def Expr.eval [Fact p.Prime] (σ : Ref → ZMod p) (counter : Option ℕ) : Expr → ZMod p
  | ref r => σ (r.atCount counter)
  | const n => n
  | binary op left right => op.eval (left.eval σ counter) (right.eval σ counter)

/-! ## Library templates -/

/-- The bits of a field element, the lowest first. -/
structure IsBits (n : ℕ) (x : ZMod p) (b : ℕ → ZMod p) : Prop where
  /-- Each bit is zero or one. -/
  bit : ∀ i < n, b i = 0 ∨ b i = 1
  /-- The bits make up the element. -/
  sum : x = ∑ i ∈ Finset.range n, b i * 2 ^ i

/-- The outcome of comparing two field elements as numbers of `n` bits. -/
def IsLess (n : ℕ) (x y out : ZMod p) : Prop :=
  ∃ b, IsBits (n + 1) (x + 2 ^ n - y) b ∧ out = 1 - b n

/-- What the library promises of an instance of a template. -/
def Template.Holds (hash : List (ZMod p) → ZMod p) (σ : Ref → ZMod p) (c : Ref) : Template → Prop
  | greaterThan n =>
    IsLess n (σ ((c.field "in").atPlace 1)) (σ ((c.field "in").atPlace 0)) (σ (c.field "out"))
  | lessThan n =>
    IsLess n (σ ((c.field "in").atPlace 0)) (σ ((c.field "in").atPlace 1)) (σ (c.field "out"))
  | greaterEqThan n =>
    IsLess n (σ ((c.field "in").atPlace 1)) (σ ((c.field "in").atPlace 0) + 1) (σ (c.field "out"))
  | lessEqThan n =>
    IsLess n (σ ((c.field "in").atPlace 0)) (σ ((c.field "in").atPlace 1) + 1) (σ (c.field "out"))
  | isEqual =>
    σ (c.field "out") =
      if σ ((c.field "in").atPlace 0) = σ ((c.field "in").atPlace 1) then 1 else 0
  | num2Bits n => IsBits n (σ (c.field "in")) fun i => σ ((c.field "out").atPlace i)
  | poseidon inputs =>
    σ (c.field "out") =
      hash ((List.range inputs).map fun k => σ ((c.field "inputs").atPlace k))
  | multiMux1 width => ∀ j < width,
    σ ((c.field "out").atPlace j) = σ (((c.field "c").atPlace j).atPlace 0) +
      σ (c.field "s") *
        (σ (((c.field "c").atPlace j).atPlace 1) - σ (((c.field "c").atPlace j).atPlace 0))

/-! ## Statements -/

variable [Fact p.Prime]

/-- An assignment keeps a statement. -/
def Statement.Holds (hash : List (ZMod p) → ZMod p) (σ : Ref → ZMod p) (counter : Option ℕ) :
    Statement → Prop
  | signal _ | signalArray _ _ | componentArray _ _ | assign _ _ => True
  | component name template => template.Holds hash σ ⟨name, []⟩
  | instantiate target template => template.Holds hash σ (target.atCount counter)
  | constrain target value => σ (target.atCount counter) = value.eval σ counter
  | equate left right => left.eval σ counter = right.eval σ counter

/-- An assignment keeps a command: a loop runs the counter from zero up to its count. -/
def Command.Holds (hash : List (ZMod p) → ZMod p) (σ : Ref → ZMod p) : Command → Prop
  | single s => s.Holds hash σ none
  | loop count body => ∀ i < count, ∀ s ∈ body, s.Holds hash σ (some i)

/-- An assignment keeps a block. -/
def Block.Holds (hash : List (ZMod p) → ZMod p) (σ : Ref → ZMod p) (b : Block) : Prop :=
  ∀ command ∈ b.commands, command.Holds hash σ

/-- An assignment keeps all constraints of a template body. -/
def SourceUnit.Holds (hash : List (ZMod p) → ZMod p) (σ : Ref → ZMod p) (u : SourceUnit) : Prop :=
  ∀ b ∈ u.blocks, b.Holds hash σ

/-- Two assignments agree on an input: on the signal, or on every element of the array. -/
def InputDecl.Agrees (σ τ : Ref → ZMod p) (d : InputDecl) : Prop :=
  match d.size with
  | none => σ ⟨d.name, []⟩ = τ ⟨d.name, []⟩
  | some size => ∀ i < size, σ ⟨d.name, [.element (.fixed i)]⟩ = τ ⟨d.name, [.element (.fixed i)]⟩

/-! ## Bits -/

/-- The number that bits make up is less than the power of two that belongs to their number. -/
theorem sum_lt_two_pow {n : ℕ} {b : ℕ → ℕ} (h : ∀ i < n, b i ≤ 1) :
    ∑ i ∈ Finset.range n, b i * 2 ^ i < 2 ^ n := by
  induction n with
  | zero => simp
  | succ n ih =>
    have hlast : b n * 2 ^ n ≤ 1 * 2 ^ n := Nat.mul_le_mul_right _ (h n (Nat.lt_succ_self n))
    have hrest := ih fun i hi => h i (Nat.lt_succ_of_lt hi)
    rw [Finset.sum_range_succ, pow_succ]
    omega

/-- A number has its bits in one way only. -/
theorem eq_of_sum_eq {n : ℕ} {b c : ℕ → ℕ} (hb : ∀ i < n, b i ≤ 1) (hc : ∀ i < n, c i ≤ 1)
    (h : ∑ i ∈ Finset.range n, b i * 2 ^ i = ∑ i ∈ Finset.range n, c i * 2 ^ i) :
    ∀ i < n, b i = c i := by
  induction n with
  | zero => exact fun i hi => absurd hi (Nat.not_lt_zero i)
  | succ n ih =>
    have hb' : ∀ i < n, b i ≤ 1 := fun i hi => hb i (Nat.lt_succ_of_lt hi)
    have hc' : ∀ i < n, c i ≤ 1 := fun i hi => hc i (Nat.lt_succ_of_lt hi)
    have hltb := sum_lt_two_pow hb'
    have hltc := sum_lt_two_pow hc'
    rw [Finset.sum_range_succ, Finset.sum_range_succ] at h
    -- the lower bits do not reach the place of the last one
    have hlast : b n = c n := by
      have h1 := hb n (Nat.lt_succ_self n)
      have h2 := hc n (Nat.lt_succ_self n)
      rcases Nat.le_one_iff_eq_zero_or_eq_one.1 h1 with hbn | hbn <;>
        rcases Nat.le_one_iff_eq_zero_or_eq_one.1 h2 with hcn | hcn <;>
        rw [hbn, hcn] at h ⊢ <;> omega
    rw [hlast] at h
    have hrest := ih hb' hc' (Nat.add_right_cancel h)
    intro i hi
    rcases Nat.lt_or_eq_of_le (Nat.le_of_lt_succ hi) with hi | rfl
    · exact hrest i hi
    · exact hlast

/-- The binary digits of a number up to a place make up what is left of it there. -/
theorem sum_digits (k n : ℕ) : ∑ i ∈ Finset.range n, k / 2 ^ i % 2 * 2 ^ i = k % 2 ^ n := by
  induction n with
  | zero => rw [Finset.sum_range_zero, pow_zero, Nat.mod_one]
  | succ n ih => rw [Finset.sum_range_succ, ih, Nat.mod_pow_succ, Nat.mul_comm (2 ^ n)]

/-- A number that is small enough has bits in the field, which are its digits. -/
theorem isBits_natCast {n k : ℕ} (h : k < 2 ^ n) :
    IsBits n (k : ZMod p) fun i => ((k / 2 ^ i % 2 : ℕ) : ZMod p) where
  bit := by
    intro i _
    rcases Nat.mod_two_eq_zero_or_one (k / 2 ^ i) with hdigit | hdigit
    · exact .inl (by rw [hdigit, Nat.cast_zero])
    · exact .inr (by rw [hdigit, Nat.cast_one])
  sum := by
    have hsum := congrArg (Nat.cast (R := ZMod p)) (sum_digits k n)
    rw [Nat.mod_eq_of_lt h, Nat.cast_sum] at hsum
    rw [← hsum]
    refine Finset.sum_congr rfl fun i _ => ?_
    rw [Nat.cast_mul, Nat.cast_pow, Nat.cast_ofNat]

/-- The number that is made up of bits in the field, before it is reduced. -/
theorem IsBits.eq_natCast {n : ℕ} {x : ZMod p} {b : ℕ → ZMod p} (h : IsBits n x b) :
    x = ((∑ i ∈ Finset.range n, (b i).val * 2 ^ i : ℕ) : ZMod p) := by
  rw [h.sum, Nat.cast_sum]
  refine Finset.sum_congr rfl fun i _ => ?_
  rw [Nat.cast_mul, ZMod.natCast_zmod_val, Nat.cast_pow, Nat.cast_ofNat]

/-- As a number, a bit is one at most. -/
theorem IsBits.val_le_one {n : ℕ} {x : ZMod p} {b : ℕ → ZMod p} (h : IsBits n x b) :
    ∀ i < n, (b i).val ≤ 1 := by
  intro i hi
  rcases h.bit i hi with hb | hb
  · rw [hb, ZMod.val_zero]
    exact Nat.zero_le 1
  · rw [hb, ZMod.val_one]

/-- As a number, a field element with so many bits is less than the power of two. -/
theorem IsBits.val_lt {n : ℕ} (hp : 2 ^ n < p) {x : ZMod p} {b : ℕ → ZMod p} (h : IsBits n x b) :
    x.val < 2 ^ n := by
  have hsum := sum_lt_two_pow h.val_le_one
  rw [h.eq_natCast, ZMod.val_natCast_of_lt (hsum.trans hp)]
  exact hsum

/-- A field element has its bits in one way only when their number fits the field. -/
theorem IsBits.eq_of_lt {n : ℕ} (hp : 2 ^ n < p) {x : ZMod p} {b c : ℕ → ZMod p}
    (hb : IsBits n x b) (hc : IsBits n x c) : ∀ i < n, b i = c i := by
  have hsum : ∑ i ∈ Finset.range n, (b i).val * 2 ^ i =
      ∑ i ∈ Finset.range n, (c i).val * 2 ^ i := by
    have hcast := hb.eq_natCast.symm.trans hc.eq_natCast
    rw [ZMod.natCast_eq_natCast_iff'] at hcast
    rwa [Nat.mod_eq_of_lt ((sum_lt_two_pow hb.val_le_one).trans hp),
      Nat.mod_eq_of_lt ((sum_lt_two_pow hc.val_le_one).trans hp)] at hcast
  intro i hi
  exact ZMod.val_injective p (eq_of_sum_eq hb.val_le_one hc.val_le_one hsum i hi)

/-- A comparison has one outcome only when the field has room for one bit more. -/
theorem IsLess.eq_of_lt {n : ℕ} (hp : 2 ^ (n + 1) < p) {x y out out' : ZMod p}
    (h : IsLess n x y out) (h' : IsLess n x y out') : out = out' := by
  obtain ⟨b, hb, rfl⟩ := h
  obtain ⟨c, hc, rfl⟩ := h'
  rw [hb.eq_of_lt hp hc n (Nat.lt_succ_self n)]

/-! ## Comparisons -/

/-- A comparison decomposes a number of one bit more, and tells whether that bit is missing. -/
theorem isLess_iff {n : ℕ} {x y out : ZMod p} :
    IsLess n x y out ↔ ∃ k : ℕ, k < 2 ^ (n + 1) ∧ x + 2 ^ n - y = (k : ZMod p) ∧
      out = if k < 2 ^ n then 1 else 0 := by
  constructor
  · rintro ⟨b, hb, rfl⟩
    have hlow : ∑ i ∈ Finset.range n, (b i).val * 2 ^ i < 2 ^ n :=
      sum_lt_two_pow fun i hi => hb.val_le_one i (Nat.lt_succ_of_lt hi)
    refine ⟨_, sum_lt_two_pow hb.val_le_one, hb.eq_natCast, ?_⟩
    rw [Finset.sum_range_succ]
    rcases hb.bit n (Nat.lt_succ_self n) with hlast | hlast
    · rw [hlast, ZMod.val_zero, Nat.zero_mul, Nat.add_zero, if_pos hlow, sub_zero]
    · rw [hlast, ZMod.val_one, Nat.one_mul, if_neg (Nat.not_lt_of_le (Nat.le_add_left _ _)),
        sub_self]
  · rintro ⟨k, hk, hsum, rfl⟩
    rw [IsLess, hsum]
    refine ⟨_, isBits_natCast hk, ?_⟩
    split_ifs with hlt
    · rw [Nat.div_eq_of_lt hlt, Nat.zero_mod, Nat.cast_zero, sub_zero]
    · have hdigit : k / 2 ^ n = 1 := by
        rw [pow_succ] at hk
        exact Nat.div_eq_of_lt_le (by omega) (by omega)
      rw [hdigit, Nat.one_mod, Nat.cast_one, sub_self]

/-- A comparison may come out as true when the difference has no bit at the last place. -/
theorem isLess_one {n k : ℕ} {x y : ZMod p} (h : x + 2 ^ n - y = (k : ZMod p)) (hk : k < 2 ^ n) :
    IsLess n x y 1 :=
  isLess_iff.2 ⟨k, hk.trans (Nat.pow_lt_pow_right Nat.one_lt_two (Nat.lt_succ_self n)), h,
    (if_pos hk).symm⟩

/-- Numbers whose difference has no more bits than are compared can be compared. -/
theorem isLess_natCast {n a b : ℕ} (hle : b ≤ a + 2 ^ n) (hlt : a < b + 2 ^ n) :
    IsLess n (a : ZMod p) (b : ZMod p) (if a < b then 1 else 0) := by
  refine isLess_iff.2 ⟨a + 2 ^ n - b, ?_, ?_, ?_⟩
  · rw [pow_succ]
    omega
  · rw [Nat.cast_sub hle, Nat.cast_add, Nat.cast_pow, Nat.cast_ofNat]
  · have hiff : a + 2 ^ n - b < 2 ^ n ↔ a < b := by omega
    rw [if_congr hiff rfl rfl]

/-- Numbers that are the same in the field, and less than twice its order, are the same or differ by
the order. -/
theorem eq_or_eq_add_of_natCast_eq {a b : ℕ} (h : (a : ZMod p) = (b : ZMod p)) (ha : a < 2 * p)
    (hb : b < 2 * p) : a = b ∨ a = b + p ∨ b = a + p := by
  rw [ZMod.natCast_eq_natCast_iff'] at h
  -- each of the two is reduced by the order once at most
  have hreduced : ∀ n < 2 * p, n = n % p ∨ n = n % p + p := by
    intro n hn
    rcases Nat.lt_or_ge n p with hlt | hge
    · exact .inl (Nat.mod_eq_of_lt hlt).symm
    · have hrest : n % p = n - p := by
        rw [Nat.mod_eq_sub_mod hge, Nat.mod_eq_of_lt (by omega)]
      omega
  have ha := hreduced a ha
  have hb := hreduced b hb
  omega

/-- The outcome of comparing numbers, whether or not the difference wraps around. -/
theorem IsLess.exists_of_natCast {n a b : ℕ} {out : ZMod p}
    (h : IsLess n (a : ZMod p) (b : ZMod p) out) (ha : a + 2 ^ n < 2 * p)
    (hb : b + 2 ^ (n + 1) ≤ 2 * p) :
    ∃ k : ℕ, k < 2 ^ (n + 1) ∧ (out = if k < 2 ^ n then 1 else 0) ∧
      (a + 2 ^ n = k + b ∨ a + 2 ^ n = k + b + p ∨ k + b = a + 2 ^ n + p) := by
  obtain ⟨k, hk, hsum, hout⟩ := isLess_iff.1 h
  have hcast : ((a + 2 ^ n : ℕ) : ZMod p) = ((k + b : ℕ) : ZMod p) := by
    rw [Nat.cast_add, Nat.cast_add, Nat.cast_pow, Nat.cast_ofNat]
    exact sub_eq_iff_eq_add.1 hsum
  exact ⟨k, hk, hout, eq_or_eq_add_of_natCast_eq hcast ha (by omega)⟩

/-- Among numbers of `n` bits, a comparison is only true of a number that is less. -/
theorem IsLess.val_lt_of_one {n m : ℕ} (hp : 2 ^ (n + 1) < p) {x : ZMod p}
    (h : IsLess n x (m : ZMod p) 1) (hx : x.val < 2 ^ n) (hm : m ≤ 2 ^ n) : x.val < m := by
  rw [← ZMod.natCast_zmod_val x] at h
  have hpow : 2 ^ (n + 1) = 2 ^ n * 2 := pow_succ _ _
  obtain ⟨k, hk, hout, hsum⟩ := h.exists_of_natCast (by omega) (by omega)
  split_ifs at hout with hlt
  · omega
  · exact absurd hout one_ne_zero

/-! ## Division -/

/-- What constrains the quotient and the remainder of a division. -/
structure IsDivision (bits modulus : ℕ) (x quotient rest : ZMod p) : Prop where
  /-- Together they make up the dividend. -/
  sum : x = quotient * modulus + rest
  /-- The quotient has so many bits. -/
  quotient_bits : ∃ b, IsBits bits quotient b
  /-- The remainder compares as less than the modulus. -/
  less : IsLess bits rest (modulus : ZMod p) 1

/-- A quotient and a rest that are bounded make up a number less than the product of the bounds. -/
theorem mul_add_lt {q r k m : ℕ} (hq : q < k) (hr : r < m) : q * m + r < k * m :=
  calc q * m + r < q * m + m := Nat.add_lt_add_left hr _
    _ = (q + 1) * m := (Nat.succ_mul _ _).symm
    _ ≤ k * m := Nat.mul_le_mul_right _ hq

/-- In a division in the field with a remainder below the modulus, the remainder is that of numbers
exactly if the sum is less than the order of the field. -/
theorem val_eq_mod_iff {m : ℕ} (hm : 0 < m) (hmp : m < p) {x q r : ZMod p} (hsum : x = q * m + r)
    (hr : r.val < m) : r.val = x.val % m ↔ q.val * m + r.val < p := by
  have hcast : x = ((q.val * m + r.val : ℕ) : ZMod p) := by
    rw [Nat.cast_add, Nat.cast_mul, ZMod.natCast_zmod_val, ZMod.natCast_zmod_val]
    exact hsum
  constructor
  · intro hmod
    -- the modulus can be cancelled, so the quotient is that of numbers as well
    have hne : (m : ZMod p) ≠ 0 := fun hzero =>
      Nat.not_le_of_lt hmp (Nat.le_of_dvd hm ((ZMod.natCast_eq_zero_iff m p).1 hzero))
    have hquotient : q = ((x.val / m : ℕ) : ZMod p) := by
      refine mul_right_cancel₀ hne (add_right_cancel (b := r) ?_)
      calc q * m + r = ((x.val / m * m + x.val % m : ℕ) : ZMod p) := by
            rw [Nat.div_add_mod', ZMod.natCast_zmod_val, hsum]
        _ = ((x.val / m : ℕ) : ZMod p) * m + r := by
          rw [← hmod, Nat.cast_add, Nat.cast_mul, ZMod.natCast_zmod_val]
    rw [hquotient, ZMod.val_natCast_of_lt ((Nat.div_le_self _ _).trans_lt (ZMod.val_lt x)), hmod,
      Nat.div_add_mod']
    exact ZMod.val_lt x
  · intro hlt
    rw [hcast, ZMod.val_natCast_of_lt hlt, Nat.mul_add_mod_of_lt hr]

namespace IsDivision

variable {n m : ℕ} {x q r : ZMod p}

/-- The quotient is less than the power of two. -/
theorem quotient_lt (hp : 2 ^ (n + 1) < p) (h : IsDivision n m x q r) : q.val < 2 ^ n :=
  let ⟨_, hbits⟩ := h.quotient_bits
  hbits.val_lt ((Nat.pow_lt_pow_right Nat.one_lt_two (Nat.lt_succ_self n)).trans hp)

/-- The remainder is that of numbers exactly if it has no more bits than are compared and the sum is
less than the order of the field. -/
theorem val_eq_mod_iff (hp : 2 ^ (n + 1) < p) (hm : 0 < m) (hle : m ≤ 2 ^ n)
    (h : IsDivision n m x q r) :
    r.val < m ∧ r.val = x.val % m ↔ r.val < 2 ^ n ∧ q.val * m + r.val < p := by
  have hpow : 2 ^ (n + 1) = 2 ^ n * 2 := pow_succ _ _
  have hmp : m < p := by omega
  constructor
  · rintro ⟨hr, hmod⟩
    exact ⟨hr.trans_le hle, (Circom.val_eq_mod_iff hm hmp h.sum hr).1 hmod⟩
  · rintro ⟨hr, hlt⟩
    have hr := h.less.val_lt_of_one hp hr hle
    exact ⟨hr, (Circom.val_eq_mod_iff hm hmp h.sum hr).2 hlt⟩

end IsDivision

end CircuitGraph.Circom
