import CircuitGraph.Gadget.Setting
import CircuitGraph.Graph.Port
import CircuitGraph.Proofs.Config.Accepted
import Mathlib.Algebra.Ring.Nat

/-!
# Settings that resolve

What is known once the parameters of a gadget have been read: the setting belongs to the gadget and
keeps its bounds (`admits_of_resolve`), and its ports are the ones that the gadget declares
(`names_ports_of_resolve`). The second is not obvious for a hash, whose ports are found by reading
the parameter `inputs` once more, against the fixed limit instead of the configured one.
-/

namespace CircuitGraph

open CircuitGraph.Text

/-- Two steps succeed when the first does and the second does on its result. -/
theorem bind_eq_ok {ε α β : Type} {x : Except ε α} {f : α → Except ε β} {b : β} :
    (x >>= f) = .ok b ↔ ∃ a, x = .ok a ∧ f a = .ok b := by
  cases x with
  | error e => simp [bind, Except.bind]
  | ok a => simp [bind, Except.bind]

/-- A step that succeeds has a result. -/
theorem exists_eq_ok {ε α : Type} {x : Except ε α} (h : x.isOk = true) : ∃ a, x = .ok a := by
  cases x with
  | error e => cases h
  | ok a => exact ⟨a, rfl⟩

/-- Something that is returned after a step fails only when the step does. -/
theorem bind_pure_eq_error {ε α β : Type} {x : Except ε α} {f : α → β} {e : ε} :
    (x >>= fun a => pure (f a)) = .error e ↔ x = .error e := by
  cases x with
  | error e => simp [bind, Except.bind]
  | ok a => simp [bind, Except.bind, pure, Except.pure]

/-- A result that is returned is the result. -/
theorem pure_eq_ok {ε α : Type} {a b : α} : (pure a : Except ε α) = .ok b ↔ a = b := by
  simp [pure, Except.pure]

namespace Params

/-- A parameter that is read is the number that its text writes. -/
theorem word_eq_ok {p : Params} {name : String} {n : Nat} (h : p.word name = .ok n) :
    ∃ text, p.find? name = some text ∧ readWord? (trim text) = some n := by
  unfold word given? at h
  cases hfind : p.find? name with
  | none => simp [hfind] at h
  | some text =>
    refine ⟨text, rfl, ?_⟩
    by_cases hblank : trim text = ""
    · simp [hfind, hblank] at h
    · cases hread : readWord? (trim text) with
      | none => simp [hfind, hblank, hread] at h
      | some m => simpa [hfind, hblank, hread] using h

/-- A parameter that is read is a word. -/
theorem word_le {p : Params} {name : String} {n : Nat} (h : p.word name = .ok n) : n ≤ maxWord :=
  let ⟨_, _, hread⟩ := word_eq_ok h
  readWord?_le hread

/-- A parameter that is read within bounds keeps them. -/
theorem wordWithin_eq_ok {p : Params} {name : String} {min max n : Nat}
    (h : p.wordWithin name min max = .ok n) : p.word name = .ok n ∧ min ≤ n ∧ n ≤ max := by
  obtain ⟨value, hword, hbounds⟩ := bind_eq_ok.1 h
  split_ifs at hbounds with hin
  cases pure_eq_ok.1 hbounds
  exact ⟨hword, hin⟩

end Params

/-- The number of values that a hash declares, when the parameter writes it. -/
theorem hashArity?_eq_some {params : Params} {n : Nat} (h : params.word "inputs" = .ok n)
    (hone : 1 ≤ n) (hmax : n ≤ Gadget.maxHashInputs) : hashArity? params = some n := by
  obtain ⟨text, hfind, hread⟩ := Params.word_eq_ok h
  simp [hashArity?, hfind, hread, hone, hmax]

/-- A word that is accepted has no more bits than the comparators. -/
theorem Config.lt_of_checkWidth {config : Config} {name : String} {value : Nat} {u : Unit}
    (hword : value ≤ maxWord) (h : config.checkWidth name value = .ok u) :
    value < 2 ^ config.comparatorBits := by
  unfold Config.checkWidth at h
  split_ifs at h with hfits
  unfold Config.fits at hfits
  rw [Bool.or_eq_true, decide_eq_true_iff, decide_eq_true_iff, Nat.one_shiftLeft] at hfits
  rcases hfits with hbits | hlt
  · calc value ≤ maxWord := hword
      _ < 2 ^ 64 := by decide
      _ ≤ 2 ^ config.comparatorBits := Nat.pow_le_pow_right Nat.two_pos hbits
  · exact hlt

/-- The bounds that a setting of a gadget keeps. -/
def Gadget.Admits (config : Config) : Gadget → Setting → Prop
  | .rangeCheck, .rangeCheck min max => min ≤ max ∧ max < 2 ^ config.comparatorBits
  | .hash, .hash inputs => 1 ≤ inputs ∧ inputs ≤ config.maxHashInputs
  | .conditional, .conditional _ => True
  | .merkleProof, .merkleProof depth => 1 ≤ depth ∧ depth ≤ config.maxMerkleDepth
  | .modulo, .modulo modulus => 1 ≤ modulus ∧ modulus < 2 ^ config.comparatorBits
  | _, _ => False

/-- The gadget that a setting belongs to. -/
def Setting.gadget : Setting → Gadget
  | .rangeCheck _ _ => .rangeCheck
  | .hash _ => .hash
  | .conditional _ => .conditional
  | .merkleProof _ => .merkleProof
  | .modulo _ => .modulo

/-- A setting keeps the bounds of its own gadget only. -/
theorem Gadget.eq_of_admits {config : Config} {gadget : Gadget} {setting : Setting}
    (h : gadget.Admits config setting) : gadget = setting.gadget := by
  cases gadget with
  | rangeCheck =>
    cases setting with
    | rangeCheck min max => rfl
    | _ => exact h.elim
  | hash =>
    cases setting with
    | hash inputs => rfl
    | _ => exact h.elim
  | conditional =>
    cases setting with
    | conditional condition => rfl
    | _ => exact h.elim
  | merkleProof =>
    cases setting with
    | merkleProof depth => rfl
    | _ => exact h.elim
  | modulo =>
    cases setting with
    | modulo modulus => rfl
    | _ => exact h.elim

/-- The input ports that a setting needs, in order. -/
def Setting.ports : Setting → List String
  | .rangeCheck _ _ | .modulo _ => ["in"]
  | .hash inputs => (List.range inputs).map hashPort
  | .conditional _ => ["cond", "then", "else"]
  | .merkleProof _ => ["leaf", "root"]

namespace Gadget

/-- Reading the parameters that have all been given is what resolves a gadget. -/
theorem readSetting_of_resolve {config : Config} {gadget : Gadget} {params : Params}
    {setting : Setting} (h : gadget.resolve config params = .ok setting) :
    gadget.readSetting config params = .ok setting := by
  unfold resolve at h
  split at h
  · cases h
  · exact h

/-- A setting that is read belongs to its gadget and keeps its bounds. -/
theorem admits_of_resolve {config : Config} {gadget : Gadget} {params : Params} {setting : Setting}
    (h : gadget.resolve config params = .ok setting) : gadget.Admits config setting := by
  have hread := readSetting_of_resolve h
  cases gadget with
  | rangeCheck =>
    obtain ⟨min, -, hread⟩ := bind_eq_ok.1 hread
    obtain ⟨max, hmax, hread⟩ := bind_eq_ok.1 hread
    split_ifs at hread with hlt
    · cases hread
    · obtain ⟨u, hwidth, hread⟩ := bind_eq_ok.1 hread
      cases pure_eq_ok.1 hread
      exact ⟨Nat.le_of_not_lt hlt, Config.lt_of_checkWidth (Params.word_le hmax) hwidth⟩
  | hash =>
    obtain ⟨n, hn, hread⟩ := bind_eq_ok.1 hread
    cases pure_eq_ok.1 hread
    exact (Params.wordWithin_eq_ok hn).2
  | conditional =>
    obtain ⟨n, -, hread⟩ := bind_eq_ok.1 hread
    cases pure_eq_ok.1 hread
    trivial
  | merkleProof =>
    obtain ⟨n, hn, hread⟩ := bind_eq_ok.1 hread
    cases pure_eq_ok.1 hread
    exact (Params.wordWithin_eq_ok hn).2
  | modulo =>
    obtain ⟨n, hn, hread⟩ := bind_eq_ok.1 hread
    obtain ⟨u, hwidth, hread⟩ := bind_eq_ok.1 hread
    cases pure_eq_ok.1 hread
    obtain ⟨-, hone, hword⟩ := Params.wordWithin_eq_ok hn
    exact ⟨hone, Config.lt_of_checkWidth hword hwidth⟩

/-- The ports that a gadget declares are those that its setting needs. -/
theorem names_ports_of_resolve {config : Config} (hc : config.Accepted) {gadget : Gadget}
    {params : Params} {setting : Setting} (h : gadget.resolve config params = .ok setting) :
    (gadget.ports params).names = setting.ports ∧ gadget.ports params ≠ .unresolved := by
  obtain rfl := eq_of_admits (admits_of_resolve h)
  cases setting with
  | hash inputs =>
    obtain ⟨n, hn, hread⟩ := bind_eq_ok.1 (readSetting_of_resolve h)
    cases pure_eq_ok.1 hread
    obtain ⟨hword, hone, hmax⟩ := Params.wordWithin_eq_ok hn
    rw [Setting.gadget, Gadget.ports,
      hashArity?_eq_some hword hone (Nat.le_trans hmax hc.hashInputs.2)]
    exact ⟨rfl, nofun⟩
  | _ => exact ⟨rfl, nofun⟩

end Gadget

end CircuitGraph
