import CircuitGraph.Proofs.Circom.Allocation
import Mathlib.Order.Bounds.Basic
import Mathlib.Order.Interval.Finset.Nat

/-!
# Names never clash

Whatever names are asked for, in whatever order and with whatever suffixes, each request is answered
by a name that is free together with the names derived from it, so no two requests share a name, and
none is given a reserved name or the name of the template (`servesFreshly`). The name is the base
when the base is free, and otherwise the base with the least number from two on with which it is, as
long as this number has 32 bits (`Allocation.Answers`).

It has 32 bits unless very many names are claimed. A claimed name spoils at most one of the numbers
that have no tenfold below `2 ^ 32`, since of two numbers that begin the same text one begins the
digits of the other. There are `ampleNames` such numbers, and this bound is sharp: the suffixes that
append zeros let one name spoil several numbers, so `ampleNames` names spoil all numbers of 32 bits,
and the counter goes round to zero (`served_crowd`).
-/

namespace CircuitGraph.Circom

/-- Neither a name nor a name derived from it is claimed. -/
def Unclaimed (claimed suffixes : List String) (name : String) : Prop :=
  name ∉ claimed ∧ ∀ suffix ∈ suffixes, name ++ suffix ∉ claimed

/-- A base with a number behind it. -/
def numbered (base : String) (k : Nat) : String := s!"{base}_{k}"

/-- Different numbers give different names. -/
theorem numbered_injective (base : String) : Function.Injective (numbered base) := fun _ _ heq =>
  Text.repr_injective ((String.append_right_inj _).1 heq)

/-- The least number that has no tenfold below `2 ^ 32`. -/
def leastAmple : Nat := 429496730

/-- How many of the numbers below `2 ^ 32` have no tenfold below it. -/
def ampleNames : Nat := 2 ^ 32 - leastAmple

/-- A name answers a request, given the names that have been claimed before. -/
structure Allocation.Answers (claimed : List String) (r : Request) (a : Allocation) : Prop where
  /-- The suffixes are those of the request. -/
  suffixes_eq : a.suffixes = r.suffixes
  /-- The name is free together with the names derived from it. -/
  unclaimed : Unclaimed claimed r.suffixes a.name
  /-- The base is given out when it is free. -/
  name_eq_base : Unclaimed claimed r.suffixes r.base → a.name = r.base
  /-- When the base is not free, there is a least number from two on with which it is, limited by
  the claimed names. The number is put behind the base if it has 32 bits, and it has unless very
  many names are claimed besides the reserved ones. -/
  name_eq_numbered : ¬ Unclaimed claimed r.suffixes r.base →
    ∃ k, IsLeast {k | 2 ≤ k ∧ Unclaimed claimed r.suffixes (numbered r.base k)} k ∧
      k ≤ (r.suffixes.length + 1) * claimed.length + 1 ∧
      (k < 2 ^ 32 → a.name = numbered r.base k) ∧
      ((claimed.toFinset \ reservedNames.toFinset).card < ampleNames → k < 2 ^ 32)

variable {claimed claimed' suffixes : List String} {base : String}

/-- Being free depends on which names are claimed, not on how they are listed. -/
theorem Unclaimed.congr (h : ∀ n, n ∈ claimed ↔ n ∈ claimed') {name : String} :
    Unclaimed claimed suffixes name ↔ Unclaimed claimed' suffixes name := by
  simp only [Unclaimed, h]

/-- The order in which the claimed names are listed does not matter for an answer. -/
theorem Allocation.Answers.perm {r : Request} {a : Allocation} (h : a.Answers claimed r)
    (hperm : claimed.Perm claimed') : a.Answers claimed' r := by
  have hcongr {name : String} :
      Unclaimed claimed r.suffixes name ↔ Unclaimed claimed' r.suffixes name :=
    Unclaimed.congr fun _ => hperm.mem_iff
  have hfinset : claimed.toFinset = claimed'.toFinset := List.toFinset_eq_of_perm _ _ hperm
  refine ⟨h.suffixes_eq, hcongr.1 h.unclaimed, fun hfree => h.name_eq_base (hcongr.2 hfree),
    fun htaken => ?_⟩
  have hnumbered := h.name_eq_numbered (mt hcongr.1 htaken)
  simpa only [hcongr, hfinset, hperm.length_eq] using hnumbered

/-! ## Numbers of 32 bits -/

/-- A number whose digits continue those of another number is at least ten times as large. -/
theorem ten_mul_le_of_toDigits {j k : Nat} {c : Char} {cs : List Char}
    (h : Nat.toDigits 10 k = Nat.toDigits 10 j ++ c :: cs) : 10 * j ≤ k := by
  have hvalue : k = 10 ^ (cs.length + 1) * j + Nat.ofDigitChars 10 (c :: cs) 0 := by
    rw [← Nat.ofDigitChars_ten_toDigits (n := k), h, Nat.ofDigitChars_append,
      Nat.ofDigitChars_ten_toDigits, Nat.ofDigitChars_eq_ofDigitChars_zero, List.length_cons]
  have hpow : 10 ≤ 10 ^ (cs.length + 1) := Nat.le_self_pow (Nat.succ_ne_zero _) 10
  calc 10 * j ≤ 10 ^ (cs.length + 1) * j := Nat.mul_le_mul_right j hpow
    _ ≤ k := by omega

/-- Numbered names of one base that begin the same text have the same number, or one number is at
least ten times as large as the other. -/
theorem eq_or_ten_mul_le {j k : Nat} {s s' : String}
    (h : numbered base j ++ s = numbered base k ++ s') : j = k ∨ 10 * j ≤ k ∨ 10 * k ≤ j := by
  have hdigits : Nat.toDigits 10 j ++ s.toList = Nat.toDigits 10 k ++ s'.toList := by
    have htext := congrArg String.toList h
    simpa [numbered, Nat.toList_repr] using htext
  rcases List.append_eq_append_iff.1 hdigits with ⟨rest, hk, -⟩ | ⟨rest, hj, -⟩
  · cases rest with
    | nil => exact .inl (Text.toDigits_injective (by simpa using hk.symm))
    | cons c cs => exact .inr (.inl (ten_mul_le_of_toDigits hk))
  · cases rest with
    | nil => exact .inl (Text.toDigits_injective (by simpa using hj))
    | cons c cs => exact .inr (.inr (ten_mul_le_of_toDigits hj))

/-- No reserved name begins with a numbered one, since it has no digits. -/
theorem numbered_append_not_mem_reservedNames (base : String) (k : Nat) (s : String) :
    numbered base k ++ s ∉ reservedNames := by
  have hdigits : ∀ name ∈ reservedNames, (name.toList.all fun c => !c.isDigit) = true := by decide
  intro hmem
  obtain ⟨c, hc⟩ := List.exists_mem_of_ne_nil _ (Nat.toDigits_ne_nil (b := 10) (n := k))
  have hdigit : c.isDigit = true := Nat.isDigit_of_mem_toDigits (by decide) (by decide) hc
  have htext : c ∈ (numbered base k ++ s).toList := by
    simp [numbered, Nat.toList_repr, hc]
  simpa [hdigit] using List.all_eq_true.1 (hdigits _ hmem) c htext

/-- A number of 32 bits makes a base free, unless very many names are claimed. -/
theorem exists_unclaimed_of_card_lt (suffixes : List String) (base : String)
    (h : (claimed.toFinset \ reservedNames.toFinset).card < ampleNames) :
    ∃ k, 2 ≤ k ∧ k < 2 ^ 32 ∧ Unclaimed claimed suffixes (numbered base k) := by
  by_contra hnone
  push Not at hnone
  -- the numbers without a tenfold of 32 bits
  let numbers := Finset.Ico leastAmple (2 ^ 32)
  have hspoilt : ∀ k ∈ numbers,
      ∃ s : String, numbered base k ++ s ∈ claimed.toFinset \ reservedNames.toFinset := by
    intro k hk
    obtain ⟨hlow, hhigh⟩ := Finset.mem_Ico.1 hk
    unfold leastAmple at hlow
    have hnot := hnone k (by omega) hhigh
    rw [Unclaimed, not_and_or] at hnot
    push Not at hnot
    have hclaimed : ∃ s : String, numbered base k ++ s ∈ claimed := by
      rcases hnot with hname | ⟨s, -, hs⟩
      · exact ⟨"", by simpa using hname⟩
      · exact ⟨s, hs⟩
    obtain ⟨s, hs⟩ := hclaimed
    refine ⟨s, Finset.mem_sdiff.2 ⟨List.mem_toFinset.2 hs, fun hreserved => ?_⟩⟩
    exact numbered_append_not_mem_reservedNames base k s (List.mem_toFinset.1 hreserved)
  choose! suffix hmem using hspoilt
  have hinj : Set.InjOn (fun k => numbered base k ++ suffix k) (numbers : Set Nat) := by
    intro j hj k hk hjk
    have hj' := Finset.mem_Ico.1 hj
    have hk' := Finset.mem_Ico.1 hk
    unfold leastAmple at hj' hk'
    rcases eq_or_ten_mul_le hjk with heq | hle | hle
    · exact heq
    · omega
    · omega
  have hcard := Finset.card_le_card_of_injOn _ hmem hinj
  rw [Nat.card_Ico] at hcard
  unfold ampleNames at h
  omega

/-! ## Zeros behind a number -/

/-- A text of zeros. -/
def zeros (n : Nat) : String := String.ofList (List.replicate n '0')

/-- A zero behind the digits of a number makes its tenfold of it. -/
theorem toDigits_append_zero {n : Nat} (h : 0 < n) :
    Nat.toDigits 10 n ++ ['0'] = Nat.toDigits 10 (10 * n) :=
  Nat.toDigits_append_toDigits (b := 10) (d := 0) (by decide) h (by decide)

/-- Zeros behind a numbered name multiply the number. -/
theorem numbered_append_zeros (base : String) {k : Nat} (hk : 0 < k) (n : Nat) :
    numbered base k ++ zeros n = numbered base (10 ^ n * k) := by
  have hdigits : ∀ n, Nat.toDigits 10 k ++ List.replicate n '0' = Nat.toDigits 10 (10 ^ n * k) := by
    intro n
    induction n with
    | zero => simp
    | succ n ih =>
      have hpos : 0 < 10 ^ n * k := Nat.mul_pos (Nat.pow_pos (by decide)) hk
      rw [List.replicate_succ', ← List.append_assoc, ih, toDigits_append_zero hpos, Nat.pow_succ',
        Nat.mul_assoc]
  rw [String.ext_iff]
  simp [numbered, zeros, Nat.toList_repr, hdigits]

/-- Some tenfold of a number below `2 ^ 32` has no tenfold below it. -/
theorem exists_leastAmple_le {n k : Nat} (hk : k < 2 ^ 32) (h : leastAmple ≤ 10 ^ n * k) :
    ∃ i ≤ n, leastAmple ≤ 10 ^ i * k ∧ 10 ^ i * k < 2 ^ 32 := by
  unfold leastAmple at h ⊢
  induction n generalizing k with
  | zero => exact ⟨0, Nat.le_refl 0, h, by omega⟩
  | succ n ih =>
    by_cases hlarge : 429496730 ≤ k
    · exact ⟨0, Nat.zero_le _, by omega, by omega⟩
    · rw [Nat.pow_succ, Nat.mul_assoc] at h
      obtain ⟨i, hi, hlow, hhigh⟩ := ih (by omega) h
      rw [← Nat.mul_assoc, ← Nat.pow_succ] at hlow hhigh
      exact ⟨i + 1, Nat.succ_le_succ hi, hlow, hhigh⟩

/-- Nothing but its own digits begins with the digit of zero. -/
theorem numbered_zero_append_ne {base s : String} {k : Nat} (hk : 0 < k) :
    numbered base 0 ++ s ≠ numbered base k := by
  intro h
  have hdigits : Nat.toDigits 10 0 ++ s.toList = Nat.toDigits 10 k := by
    have htext := congrArg String.toList h
    simpa [numbered, Nat.toList_repr] using htext
  refine Text.head?_toDigits_ne hk ?_
  rw [← hdigits]
  rfl

/-! ## One request -/

namespace NameTable

variable (t : NameTable)

/-- A name is free in a table when it is unclaimed. -/
theorem isFree_iff_unclaimed {name : String} :
    t.isFree suffixes name = true ↔ Unclaimed t.taken suffixes name := by
  simp [isFree_iff, family, Unclaimed]

/-- The base is free with a number from two on when it is not free itself, and the least such number
is limited by the taken names. -/
theorem exists_isLeast_unclaimed (suffixes : List String) {base : String}
    (h : ¬ Unclaimed t.taken suffixes base) :
    ∃ k, IsLeast {k | 2 ≤ k ∧ Unclaimed t.taken suffixes (numbered base k)} k ∧
      k ≤ (suffixes.length + 1) * t.taken.length + 1 := by
  let names : Nat → String := counted (fun k => k + 2) base
  have hinj : Function.Injective names := counted_injective (fun _ _ => Nat.add_right_cancel) base
  -- one name more than can be spoilt is enough
  obtain ⟨j, hj, hfree⟩ : ∃ j ≤ (suffixes.length + 1) * t.taken.length,
      Unclaimed t.taken suffixes (names j) := by
    by_contra hnone
    push Not at hnone
    have hle := t.le_of_spoilt suffixes hinj ((suffixes.length + 1) * t.taken.length + 1)
      fun j hj => Bool.eq_false_iff.2 fun hfree =>
        hnone j (Nat.le_of_lt_succ hj) (t.isFree_iff_unclaimed.1 hfree)
    omega
  cases j with
  | zero => exact absurd hfree h
  | succ m =>
    classical
    have hmem : 2 ≤ m + 2 ∧ Unclaimed t.taken suffixes (numbered base (m + 2)) :=
      ⟨Nat.le_add_left 2 m, hfree⟩
    have hexists : ∃ k, 2 ≤ k ∧ Unclaimed t.taken suffixes (numbered base k) := ⟨m + 2, hmem⟩
    exact ⟨_, Nat.isLeast_find hexists, (Nat.find_min' hexists hmem).trans (Nat.succ_le_succ hj)⟩

/-- The least number with which the base is free is put behind the base, if it has 32 bits. -/
theorem fresh_eq_numbered {k : Nat} (hk : k < 2 ^ 32) (hbase : ¬ Unclaimed t.taken suffixes base)
    (h : IsLeast {k | 2 ≤ k ∧ Unclaimed t.taken suffixes (numbered base k)} k) :
    t.fresh base suffixes = numbered base k := by
  obtain ⟨⟨htwo, hfree⟩, hleast⟩ := h
  obtain ⟨m, rfl⟩ := Nat.exists_eq_add_of_le' htwo
  -- the tries up to this one show the numbers from two on
  have hname : ∀ i ≤ m, candidate base (i + 1) = numbered base (i + 2) := fun i hi => by
    rw [candidate, counterAt_of_lt (by omega)]
    rfl
  rw [← hname m (Nat.le_refl m)] at hfree ⊢
  refine t.fresh_eq_candidate suffixes (t.isFree_iff_unclaimed.2 hfree) fun j hj => ?_
  refine Bool.eq_false_iff.2 fun hfree => ?_
  rw [t.isFree_iff_unclaimed] at hfree
  cases j with
  | zero => exact hbase hfree
  | succ i =>
    rw [hname i (by omega)] at hfree
    have hle := hleast ⟨Nat.le_add_left 2 i, hfree⟩
    omega

/-- A table answers a request. -/
theorem answers_allocate (r : Request) :
    Allocation.Answers t.taken r ⟨(t.allocate r.base r.suffixes).1, r.suffixes⟩ where
  suffixes_eq := rfl
  unclaimed := t.isFree_iff_unclaimed.1 (t.isFree_fresh r.suffixes r.base)
  name_eq_base hbase :=
    t.fresh_eq_candidate r.suffixes (t.isFree_iff_unclaimed.2 hbase) (k := 0) nofun
  name_eq_numbered hbase := by
    obtain ⟨k, hleast, hle⟩ := t.exists_isLeast_unclaimed r.suffixes hbase
    refine ⟨k, hleast, hle, fun hk => t.fresh_eq_numbered hk hbase hleast, fun hcard => ?_⟩
    obtain ⟨n, htwo, hlt, hn⟩ := exists_unclaimed_of_card_lt r.suffixes r.base hcard
    exact (hleast.2 ⟨htwo, hn⟩).trans_lt hlt

end NameTable

/-! ## All requests -/

namespace NameTable

/-- Each request is answered, given the names that were taken at the start and those that have been
given out before. -/
theorem answers_serve (t : NameTable) (requests : List Request) {i : Nat} {r : Request}
    {a : Allocation} (hr : requests[i]? = some r) (ha : (t.serve requests).1[i]? = some a) :
    a.Answers (((t.serve requests).1.take i).flatMap Allocation.names ++ t.taken) r := by
  induction requests generalizing t i with
  | nil => cases hr
  | cons first requests ih =>
    rw [serve_cons] at ha ⊢
    cases i with
    | zero =>
      cases hr
      cases ha
      exact t.answers_allocate _
    | succ i =>
      refine (ih _ hr ha).perm ?_
      -- the first name counts among those taken when the rest is served
      rw [List.take_succ_cons, List.flatMap_cons]
      change (_ ++ (family _ _ ++ t.taken)).Perm _
      rw [← List.append_assoc]
      exact List.perm_append_comm.append_right _

/-- No name that is given out was taken at the start. -/
theorem not_mem_taken_of_mem_serve (t : NameTable) (requests : List Request) :
    ∀ a ∈ (t.serve requests).1, ∀ n ∈ a.names, n ∉ t.taken := by
  induction requests generalizing t with
  | nil => exact List.forall_mem_nil _
  | cons first requests ih =>
    rw [serve_cons]
    refine List.forall_mem_cons.2 ⟨?_, fun a ha n hn htaken => ?_⟩
    · exact (t.isFree_iff first.suffixes).1 (t.isFree_fresh first.suffixes first.base)
    · exact ih _ a ha n hn (List.mem_append_right _ htaken)

/-- No two requests are given the same name. -/
theorem pairwise_disjoint_serve (t : NameTable) (requests : List Request) :
    (t.serve requests).1.Pairwise fun a b => a.names.Disjoint b.names := by
  induction requests generalizing t with
  | nil => exact .nil
  | cons first requests ih =>
    rw [serve_cons]
    refine List.pairwise_cons.2 ⟨fun b hb n hn hn' => ?_, ih _⟩
    -- the names of the first request are taken when the others are served
    exact not_mem_taken_of_mem_serve _ requests b hb n hn' (List.mem_append_left _ hn)

/-- Names that are free and distinct are given out as they are asked for. -/
theorem serve_of_free (t : NameTable) {names : List String} (hnodup : names.Nodup)
    (hfree : ∀ n ∈ names, n ∉ t.taken) :
    t.serve (names.map fun name => ⟨name, []⟩) =
      (names.map fun name => ⟨name, []⟩, ⟨names.reverse ++ t.taken⟩) := by
  induction names generalizing t with
  | nil => rfl
  | cons name names ih =>
    obtain ⟨hname, hnodup⟩ := List.nodup_cons.1 hnodup
    rw [List.forall_mem_cons] at hfree
    have hfresh : t.fresh name [] = name :=
      t.fresh_eq_candidate [] (t.isFree_iff_unclaimed.2 ⟨hfree.1, nofun⟩) (k := 0) nofun
    have hallocate : t.allocate name [] = (name, ⟨name :: t.taken⟩) := by
      rw [allocate, hfresh]
      rfl
    -- the name is taken when the others are asked for, but it is none of them
    have hrest := ih ⟨name :: t.taken⟩ hnodup fun n hn htaken => by
      rcases List.mem_cons.1 htaken with rfl | htaken
      · exact hname hn
      · exact hfree.2 n hn htaken
    simp only [List.map_cons, serve_cons, hallocate, hrest, List.reverse_cons, List.append_assoc,
      List.singleton_append]

end NameTable

/-! ## A crowd of names -/

/-- All numbered names of 32 bits without a tenfold, except for the first one. -/
def crowdNames : List String := (List.range' (leastAmple + 1) (ampleNames - 1)).map (numbered "x")

/-- Suffixes that lead from each number of 32 bits to one without a tenfold, and one that leads from
the base to the first of these. -/
def crowdSuffixes : List String := s!"_{leastAmple}" :: (List.range 9).map fun n => zeros (n + 1)

/-- Requests for the names of the crowd, and at last for their base with the suffixes. -/
def crowd : List Request := crowdNames.map (fun name => ⟨name, []⟩) ++ [⟨"x", crowdSuffixes⟩]

/-- The names that are claimed before the last request of the crowd. -/
def crowdClaimed : List String := crowdNames ++ numbered "x" leastAmple :: reservedNames

/-- Besides the reserved names, the numbered ones of 32 bits without a tenfold are claimed. -/
theorem mem_crowdClaimed {n : String} : n ∈ crowdClaimed ↔
    (∃ k, leastAmple ≤ k ∧ k < 2 ^ 32 ∧ numbered "x" k = n) ∨ n ∈ reservedNames := by
  simp only [crowdClaimed, crowdNames, List.mem_append, List.mem_cons, List.mem_map,
    List.mem_range'_1, ← or_assoc]
  refine or_congr_left ⟨?_, ?_⟩
  · rintro (⟨k, ⟨hlow, hhigh⟩, rfl⟩ | rfl)
    · unfold ampleNames leastAmple at *
      exact ⟨k, by omega, by omega, rfl⟩
    · exact ⟨leastAmple, Nat.le_refl _, by decide, rfl⟩
  · rintro ⟨k, hlow, hhigh, rfl⟩
    rcases Nat.eq_or_lt_of_le hlow with rfl | hlow
    · exact .inr rfl
    · unfold ampleNames leastAmple at *
      exact .inl ⟨k, ⟨by omega, by omega⟩, rfl⟩

/-- A number is free in the crowd when no number of the crowd begins with its digits. -/
theorem unclaimed_crowd {j : Nat} (suffixes : List String)
    (h : ∀ k, leastAmple ≤ k → k < 2 ^ 32 → ∀ s, numbered "x" j ++ s ≠ numbered "x" k) :
    Unclaimed crowdClaimed suffixes (numbered "x" j) := by
  have hnot : ∀ s, numbered "x" j ++ s ∉ crowdClaimed := by
    intro s hmem
    rcases mem_crowdClaimed.1 hmem with ⟨k, hlow, hhigh, heq⟩ | hmem
    · exact h k hlow hhigh s heq.symm
    · exact numbered_append_not_mem_reservedNames "x" j s hmem
  exact ⟨by simpa using hnot "", fun s _ => hnot s⟩

/-- The base is not free in the crowd. -/
theorem not_unclaimed_crowd_base : ¬ Unclaimed crowdClaimed crowdSuffixes "x" := by
  rintro ⟨-, hsuffixes⟩
  have hfirst : "x" ++ s!"_{leastAmple}" = numbered "x" leastAmple := by
    rw [numbered, String.append_assoc]
    rfl
  exact hsuffixes _ List.mem_cons_self
    (mem_crowdClaimed.2 (.inl ⟨leastAmple, Nat.le_refl _, by decide, hfirst.symm⟩))

/-- No number of 32 bits from two on makes the base free in the crowd. -/
theorem not_unclaimed_crowd {k : Nat} (htwo : 2 ≤ k) (hk : k < 2 ^ 32) :
    ¬ Unclaimed crowdClaimed crowdSuffixes (numbered "x" k) := by
  rintro ⟨hname, hsuffixes⟩
  have hlarge : leastAmple ≤ 10 ^ 9 * k := by
    unfold leastAmple
    omega
  obtain ⟨i, hi, hlow, hhigh⟩ := exists_leastAmple_le hk hlarge
  have hmem := mem_crowdClaimed.2 (.inl ⟨_, hlow, hhigh, rfl⟩)
  -- the name itself or one with zeros behind it is claimed
  cases i with
  | zero => exact hname (by simpa using hmem)
  | succ i =>
    rw [← numbered_append_zeros "x" (by omega)] at hmem
    refine hsuffixes _ (List.mem_cons_of_mem _ (List.mem_map.2 ⟨i, ?_, rfl⟩)) hmem
    exact List.mem_range.2 (by omega)

/-- Zero makes the base free in the crowd. -/
theorem unclaimed_crowd_zero : Unclaimed crowdClaimed crowdSuffixes (numbered "x" 0) := by
  refine unclaimed_crowd _ fun k hlow _ s => numbered_zero_append_ne ?_
  unfold leastAmple at hlow
  omega

/-- The least number from two on that makes the base free in the crowd does not have 32 bits. -/
theorem isLeast_crowd :
    IsLeast {k | 2 ≤ k ∧ Unclaimed crowdClaimed crowdSuffixes (numbered "x" k)} (2 ^ 32) := by
  refine ⟨⟨by decide, unclaimed_crowd _ fun k hlow hhigh s heq => ?_⟩, ?_⟩
  · have htext : numbered "x" (2 ^ 32) ++ s = numbered "x" k ++ "" := by simpa using heq
    have hcases := eq_or_ten_mul_le htext
    unfold leastAmple at hlow
    omega
  · rintro k ⟨htwo, hk⟩
    by_contra hlt
    exact not_unclaimed_crowd htwo (Nat.lt_of_not_le hlt) hk

/-- The crowd claims just as many names as are ample. -/
theorem card_crowdClaimed :
    (crowdClaimed.toFinset \ reservedNames.toFinset).card = ampleNames := by
  have hset : crowdClaimed.toFinset \ reservedNames.toFinset =
      (Finset.Ico leastAmple (2 ^ 32)).image (numbered "x") := by
    ext n
    rw [Finset.mem_sdiff, List.mem_toFinset, List.mem_toFinset, Finset.mem_image, mem_crowdClaimed]
    constructor
    · rintro ⟨⟨k, hlow, hhigh, rfl⟩ | hreserved, hnot⟩
      · exact ⟨k, Finset.mem_Ico.2 ⟨hlow, hhigh⟩, rfl⟩
      · exact absurd hreserved hnot
    · rintro ⟨k, hk, rfl⟩
      obtain ⟨hlow, hhigh⟩ := Finset.mem_Ico.1 hk
      refine ⟨.inl ⟨k, hlow, hhigh, rfl⟩, fun hreserved => ?_⟩
      exact numbered_append_not_mem_reservedNames "x" k "" (by simpa using hreserved)
  rw [hset, Finset.card_image_of_injective _ (numbered_injective "x"), Nat.card_Ico]
  rfl

/-- The names of the crowd are served as they are, and the base gets the number zero. -/
theorem serve_crowd : ((NameTable.initial (numbered "x" leastAmple)).serve crowd).1 =
    crowdNames.map (fun name => ⟨name, []⟩) ++ [⟨numbered "x" 0, crowdSuffixes⟩] := by
  have hnodup : crowdNames.Nodup := List.Nodup.map (numbered_injective "x") List.nodup_range'
  have hfree : ∀ n ∈ crowdNames, n ∉ (NameTable.initial (numbered "x" leastAmple)).taken := by
    intro n hn htaken
    obtain ⟨k, hk, rfl⟩ := List.mem_map.1 hn
    rcases List.mem_cons.1 htaken with heq | hreserved
    · have hk := (List.mem_range'_1.1 hk).1
      rw [numbered_injective "x" heq] at hk
      omega
    · exact numbered_append_not_mem_reservedNames "x" k "" (by simpa using hreserved)
  -- the table that is left has the claimed names in another order
  let t : NameTable := ⟨crowdNames.reverse ++ (NameTable.initial (numbered "x" leastAmple)).taken⟩
  have hcongr {name : String} :
      t.isFree crowdSuffixes name = true ↔ Unclaimed crowdClaimed crowdSuffixes name := by
    rw [t.isFree_iff_unclaimed]
    exact Unclaimed.congr fun n => by simp [t, crowdClaimed, NameTable.initial]
  have hzero : candidate "x" (2 ^ 32 - 1) = numbered "x" 0 := rfl
  have hfresh : t.fresh "x" crowdSuffixes = numbered "x" 0 := by
    rw [← hzero]
    refine t.fresh_eq_candidate _ (hcongr.2 unclaimed_crowd_zero) fun j hj => ?_
    refine Bool.eq_false_iff.2 fun hj' => ?_
    cases j with
    | zero => exact not_unclaimed_crowd_base (hcongr.1 hj')
    | succ i =>
      rw [hcongr, candidate, counterAt_of_lt (by omega)] at hj'
      exact not_unclaimed_crowd (Nat.le_add_left 2 i) (by omega) hj'
  have hlast : (t.serve [⟨"x", crowdSuffixes⟩]).1 = [⟨numbered "x" 0, crowdSuffixes⟩] :=
    congrArg (fun name => [(⟨name, crowdSuffixes⟩ : Allocation)]) hfresh
  rw [crowd, NameTable.serve_append, NameTable.serve_of_free _ hnodup hfree]
  exact congrArg (fun last => crowdNames.map (fun name => ⟨name, []⟩) ++ last) hlast

/-! ## The whole sequence -/

/-- Requests are served, each by a name of its own. -/
structure ServesFreshly (template : String) (requests : List Request)
    (allocations : List Allocation) : Prop where
  /-- There are as many answers as requests. -/
  length_eq : allocations.length = requests.length
  /-- Each request is answered, given the reserved names, that of the template and those given out
  before. -/
  answers : ∀ (i : Nat) (r : Request) (a : Allocation), requests[i]? = some r →
    allocations[i]? = some a →
    a.Answers ((allocations.take i).flatMap Allocation.names ++ template :: reservedNames) r
  /-- The names of different requests are different, and so are the names derived from them. -/
  disjoint : allocations.Pairwise fun a b => a.names.Disjoint b.names
  /-- No name that is given out is reserved or the name of the template. -/
  outside : ∀ a ∈ allocations, ∀ n ∈ a.names, n ∉ reservedNames ∧ n ≠ template

/-- **Names never clash.** Every request for a name is served freshly. -/
theorem servesFreshly (template : String) (requests : List Request) :
    ServesFreshly template requests ((NameTable.initial template).serve requests).1 where
  length_eq := by
    have hsuffixes := congrArg List.length
      ((NameTable.initial template).map_suffixes_serve requests)
    simpa using hsuffixes
  answers _ _ _ hr ha := NameTable.answers_serve _ requests hr ha
  disjoint := NameTable.pairwise_disjoint_serve _ requests
  outside a ha n hn := by
    have hnot := NameTable.not_mem_taken_of_mem_serve _ requests a ha n hn
    exact ⟨fun h => hnot (List.mem_cons_of_mem _ h), fun h => hnot (h ▸ List.mem_cons_self)⟩

/-- The bound on the names is sharp: the base of the crowd is not given the least number that makes
it free, with `ampleNames` names claimed besides the reserved ones and less than `2 ^ 32` in all. -/
theorem served_crowd :
    let served := ((NameTable.initial (numbered "x" leastAmple)).serve crowd).1
    (served.flatMap Allocation.names ++ numbered "x" leastAmple :: reservedNames).length < 2 ^ 32 ∧
      ∃ (i : Nat) (r : Request) (a : Allocation), crowd[i]? = some r ∧ served[i]? = some a ∧
        let claimed := (served.take i).flatMap Allocation.names ++
          numbered "x" leastAmple :: reservedNames
        (claimed.toFinset \ reservedNames.toFinset).card = ampleNames ∧
          ¬ Unclaimed claimed r.suffixes r.base ∧
          IsLeast {k | 2 ≤ k ∧ Unclaimed claimed r.suffixes (numbered r.base k)} (2 ^ 32) ∧
          a.name = numbered r.base 0 ∧ a.name ≠ numbered r.base (2 ^ 32) := by
  have hnames : (crowdNames.map fun name => (⟨name, []⟩ : Allocation)).flatMap Allocation.names =
      crowdNames := by
    rw [List.flatMap_map]
    exact List.flatMap_singleton' _
  have hlength : crowdNames.length = ampleNames - 1 := by
    rw [crowdNames, List.length_map, List.length_range']
  dsimp only
  rw [serve_crowd]
  refine ⟨?_, crowdNames.length, ⟨"x", crowdSuffixes⟩, ⟨numbered "x" 0, crowdSuffixes⟩, ?_, ?_, ?_⟩
  · rw [List.flatMap_append, hnames]
    simp [hlength, Allocation.names, family, crowdSuffixes, reservedNames, ampleNames, leastAmple]
  · simp [crowd]
  · simp
  · have hclaimed : List.take crowdNames.length (crowdNames.map (fun name => ⟨name, []⟩) ++
        [(⟨numbered "x" 0, crowdSuffixes⟩ : Allocation)]) =
          crowdNames.map fun name => ⟨name, []⟩ := List.take_left' (List.length_map _)
    have hne : numbered "x" 0 ≠ numbered "x" (2 ^ 32) := fun heq =>
      absurd (numbered_injective "x" heq) (by decide)
    rw [hclaimed, hnames]
    exact ⟨card_crowdClaimed, not_unclaimed_crowd_base, isLeast_crowd, rfl, hne⟩

/-- A number is passed over when a name that was derived has taken it. -/
example : ((NameTable.initial "T").serve
    [⟨"x", ["_2"]⟩, ⟨"x", []⟩, ⟨"y", []⟩, ⟨"y", ["_3"]⟩, ⟨"T", []⟩]).1.map Allocation.name =
      ["x", "x_3", "y", "y_2", "T_2"] := by
  decide

end CircuitGraph.Circom
