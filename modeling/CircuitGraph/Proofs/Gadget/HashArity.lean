import CircuitGraph.Proofs.Gadget.Setting
import CircuitGraph.Proofs.Text.Word

/-!
# How many values a hash takes

The parameter `inputs` of a hash is read twice: for the ports, against the number of values that
there are templates for, and for the setting, against the configured limit. `ArityAgrees` says that
the two readings never part, whatever the text of the parameter is: a hash whose ports are counted
has that many inputs, or exceeds the configured limit and is refused for this reason only, and a
hash whose ports are not known has no setting. Which texts give ports is said without reading them
(`Writes`).
-/

namespace CircuitGraph

open CircuitGraph.Text

/-! ## Reading a parameter -/

/-- Nothing is left of a text when all of it is blank. -/
theorem Text.trim_eq_empty_iff {text : String} :
    trim text = "" ↔ ∀ c ∈ text.toList, isBlank c = true := by
  constructor
  · intro h c hc
    obtain ⟨before, after, htext, hblank⟩ := exists_blanks_trim text
    rw [h, String.toList_empty, List.append_nil] at htext
    exact hblank c (htext ▸ hc)
  · intro h
    have htext : text.toList = text.toList ++ [] ++ [] := by simp
    exact trim_eq_of_blanks htext (by simpa using h) (List.forall_mem_nil _)

/-- A parameter is read as the number that its text writes. -/
theorem Params.word_eq_ok_iff {p : Params} {name : String} {n : Nat} :
    p.word name = .ok n ↔
      ∃ text, p.find? name = some text ∧ Writes text n ∧ n ≤ maxWord := by
  constructor
  · intro h
    obtain ⟨text, hfind, hread⟩ := word_eq_ok h
    exact ⟨text, hfind, readWord?_trim_eq_some_iff.1 hread⟩
  · rintro ⟨text, hfind, hwrites⟩
    have hread := readWord?_trim_eq_some_iff.2 hwrites
    -- a text of blanks would be read as nothing
    have hgiven : trim text ≠ "" := by
      intro hempty
      rw [hempty] at hread
      cases hread
    simp [word, given?, hfind, hgiven, hread]

/-- A parameter that is not read is blank, if there is one, or its text writes no number of 64
bits. -/
theorem Params.of_word_eq_error {p : Params} {name : String} {e : ParamError}
    (h : p.word name = .error e) :
    (e = .missing name ∧
      ∀ text, p.find? name = some text → ∀ c ∈ text.toList, isBlank c = true) ∨
    ∃ text, p.find? name = some text ∧ e = .notAnInteger name (trim text) ∧
      (¬ ∀ c ∈ text.toList, isBlank c = true) ∧ ∀ n, Writes text n → maxWord < n := by
  unfold word given? at h
  cases hfind : p.find? name with
  | none =>
    rw [hfind] at h
    cases h
    exact .inl ⟨rfl, nofun⟩
  | some text =>
    rw [hfind] at h
    dsimp only at h
    split_ifs at h with hblank
    · cases h
      refine .inl ⟨rfl, fun other hother => ?_⟩
      cases hother
      exact trim_eq_empty_iff.1 hblank
    · cases hread : readWord? (trim text) with
      | some n => simp [hread] at h
      | none =>
        dsimp only at h
        rw [hread] at h
        cases h
        refine .inr ⟨text, rfl, rfl, mt trim_eq_empty_iff.2 hblank, fun n hn => ?_⟩
        by_contra hle
        have hsome := readWord?_trim_eq_some_iff.2 ⟨hn, Nat.le_of_not_lt hle⟩
        exact nomatch hread.symm.trans hsome

/-- A parameter that is read is not missing. -/
theorem Params.word_eq_missing_of_given? {p : Params} {name : String}
    (h : (p.given? name).isNone = true) : p.word name = .error (.missing name) := by
  rw [word, Option.isNone_iff_eq_none.1 h]

/-! ## The two readings -/

/-- A hash is resolved by reading its parameter within the configured limit. -/
theorem Gadget.resolve_hash (config : Config) (params : Params) :
    Gadget.hash.resolve config params =
      (do return .hash (← params.wordWithin "inputs" 1 config.maxHashInputs)) := by
  have hrequired : Gadget.hash.requiredParams = ["inputs"] := rfl
  unfold resolve
  rw [hrequired, List.find?_singleton]
  cases hgiven : (params.given? "inputs").isNone with
  | true =>
    have hword := Params.word_eq_missing_of_given? hgiven
    simp only [if_true, Params.wordWithin, hword]
    rfl
  | false =>
    simp only [Bool.false_eq_true, if_false, readSetting]

/-- A number that is read is compared with the configured limit. -/
theorem Gadget.resolve_hash_of_word (config : Config) {params : Params} {n : Nat}
    (h : params.word "inputs" = .ok n) : Gadget.hash.resolve config params =
      if 1 ≤ n ∧ n ≤ config.maxHashInputs then .ok (.hash n)
      else .error (.outOfRange "inputs" n 1 config.maxHashInputs) := by
  rw [resolve_hash, Params.wordWithin, h]
  change (if _ then _ else _ : Except ParamError Nat) >>= _ = _
  split_ifs <;> rfl

/-- When there is no number to be read, the hash fails in the same way. -/
theorem Gadget.resolve_hash_of_error (config : Config) {params : Params} {e : ParamError}
    (h : params.word "inputs" = .error e) : Gadget.hash.resolve config params = .error e := by
  rw [resolve_hash, Params.wordWithin, h]
  rfl

/-- The number of ports of a hash is the one that the text of its parameter writes. -/
theorem hashArity?_eq_some_iff {params : Params} {n : Nat} :
    hashArity? params = some n ↔ ∃ text, params.find? "inputs" = some text ∧ Writes text n ∧
      1 ≤ n ∧ n ≤ Gadget.maxHashInputs := by
  have hword : Gadget.maxHashInputs ≤ maxWord := by decide
  simp only [hashArity?, Option.bind_eq_bind, Option.bind_eq_some_iff, readWord?_trim_eq_some_iff,
    Option.ite_none_right_eq_some, Option.some.injEq]
  constructor
  · rintro ⟨text, htext, count, ⟨hwrites, -⟩, hbounds, rfl⟩
    exact ⟨text, htext, hwrites, hbounds⟩
  · rintro ⟨text, htext, hwrites, hbounds⟩
    exact ⟨text, htext, n, ⟨hwrites, hbounds.2.trans hword⟩, hbounds, rfl⟩

/-- The ports of a hash are counted when there is a number of them. -/
theorem Gadget.ports_hash_eq_indexed_iff {params : Params} {n : Nat} :
    Gadget.hash.ports params = .indexed n ↔ hashArity? params = some n := by
  cases h : hashArity? params <;> simp [ports, h]

/-- The ports of a hash are not known when there is no number of them. -/
theorem Gadget.ports_hash_eq_unresolved_iff {params : Params} :
    Gadget.hash.ports params = .unresolved ↔ hashArity? params = none := by
  cases h : hashArity? params <;> simp [ports, h]

/-- What can be wrong with the number of values of a hash. -/
inductive ArityFault (config : Config) (params : Params) : ParamError → Prop
  /-- No number is given. -/
  | missing (hblank : ∀ text, params.find? "inputs" = some text → ∀ c ∈ text.toList,
      isBlank c = true) : ArityFault config params (.missing "inputs")
  /-- Something is given that is no number of 64 bits. -/
  | notAnInteger {text : String} (htext : params.find? "inputs" = some text)
      (hgiven : ¬ ∀ c ∈ text.toList, isBlank c = true) (hnone : ∀ n, Writes text n → maxWord < n) :
      ArityFault config params (.notAnInteger "inputs" (trim text))
  /-- There are no values, or more than any template takes. -/
  | outOfRange {text : String} {n : Nat} (htext : params.find? "inputs" = some text)
      (hwrites : Writes text n) (hout : n = 0 ∨ Gadget.maxHashInputs < n) (hword : n ≤ maxWord) :
      ArityFault config params (.outOfRange "inputs" n 1 config.maxHashInputs)

/-- A hash without a number of ports has no setting. -/
theorem exists_arityFault {config : Config} {params : Params}
    (hlimit : config.maxHashInputs ≤ Gadget.maxHashInputs) (hnone : hashArity? params = none) :
    ∃ e, Gadget.hash.resolve config params = .error e ∧ ArityFault config params e := by
  cases hword : params.word "inputs" with
  | error e =>
    refine ⟨e, Gadget.resolve_hash_of_error config hword, ?_⟩
    rcases Params.of_word_eq_error hword with ⟨rfl, hblank⟩ | ⟨text, htext, rfl, hgiven, hlong⟩
    · exact .missing hblank
    · exact .notAnInteger htext hgiven hlong
  | ok n =>
    obtain ⟨text, htext, hwrites, hle⟩ := Params.word_eq_ok_iff.1 hword
    -- the number is read, so there would be ports if it kept the bounds
    have hout : ¬ (1 ≤ n ∧ n ≤ Gadget.maxHashInputs) := fun hbounds =>
      nomatch hnone.symm.trans (hashArity?_eq_some_iff.2 ⟨text, htext, hwrites, hbounds⟩)
    have hexceeds : ¬ (1 ≤ n ∧ n ≤ config.maxHashInputs) := fun hbounds =>
      hout ⟨hbounds.1, hbounds.2.trans hlimit⟩
    refine ⟨.outOfRange "inputs" n 1 config.maxHashInputs, ?_, ?_⟩
    · rw [Gadget.resolve_hash_of_word config hword, if_neg hexceeds]
    · exact .outOfRange htext hwrites (by omega) hle

/-- The ports of a hash and the outcome of resolving it tell of the same number of values. -/
structure ArityAgrees (config : Config) (params : Params) (ports : PortSet)
    (outcome : Except ParamError Setting) : Prop where
  /-- A hash has a setting when its ports are counted and keep the configured limit; the setting
  has as many inputs as there are ports. -/
  resolves_iff : ∀ n, outcome = .ok (.hash n) ↔ ports = .indexed n ∧ n ≤ config.maxHashInputs
  /-- There is no other setting. -/
  hash_of_ok : ∀ setting, outcome = .ok setting → ∃ n, setting = .hash n
  /-- When the ports are not known, there is no setting, for one of three reasons. -/
  fails : ports = .unresolved → ∃ e, outcome = .error e ∧ ArityFault config params e
  /-- When the ports exceed the configured limit, this is what is reported. -/
  exceeds : ∀ n, ports = .indexed n → config.maxHashInputs < n →
    outcome = .error (.outOfRange "inputs" n 1 config.maxHashInputs)
  /-- The ports are counted when the parameter writes a number for which there is a template. -/
  indexed_iff : ∀ n, ports = .indexed n ↔ ∃ text, params.find? "inputs" = some text ∧
    Writes text n ∧ 1 ≤ n ∧ n ≤ Gadget.maxHashInputs
  /-- The ports of a hash are counted or not known. -/
  not_fixed : ∀ names, ports ≠ .fixed names

/-- **The number of hashed values.** Under an accepted configuration, the ports of a hash and its
setting tell of the same number of values. -/
theorem arityAgrees_of_check (config : Config) (hc : config.check = .ok ()) (id : String)
    (params : Params) :
    ArityAgrees config params (Node.mk id (.gadget .hash params)).ports
      (Gadget.hash.resolve config params) := by
  have hlimit := (Config.accepted_of_check hc).hashInputs.2
  -- a number for which there is a template is read
  have hword {n : Nat} (h : hashArity? params = some n) : params.word "inputs" = .ok n := by
    obtain ⟨text, htext, hwrites, -, hmost⟩ := hashArity?_eq_some_iff.1 h
    exact Params.word_eq_ok_iff.2 ⟨text, htext, hwrites, hmost.trans (by decide)⟩
  change ArityAgrees config params (Gadget.hash.ports params) _
  constructor
  case resolves_iff =>
    intro n
    rw [Gadget.ports_hash_eq_indexed_iff]
    constructor
    · intro hok
      rw [Gadget.resolve_hash] at hok
      obtain ⟨m, hwithin, hhash⟩ := bind_eq_ok.1 hok
      cases pure_eq_ok.1 hhash
      obtain ⟨hread, hone, hmax⟩ := Params.wordWithin_eq_ok hwithin
      obtain ⟨text, htext, hwrites, -⟩ := Params.word_eq_ok_iff.1 hread
      exact ⟨hashArity?_eq_some_iff.2 ⟨text, htext, hwrites, hone, hmax.trans hlimit⟩, hmax⟩
    · rintro ⟨harity, hmax⟩
      obtain ⟨-, -, -, hone, -⟩ := hashArity?_eq_some_iff.1 harity
      rw [Gadget.resolve_hash_of_word config (hword harity), if_pos ⟨hone, hmax⟩]
  case hash_of_ok =>
    intro setting hok
    rw [Gadget.resolve_hash] at hok
    obtain ⟨n, -, hhash⟩ := bind_eq_ok.1 hok
    exact ⟨n, (pure_eq_ok.1 hhash).symm⟩
  case fails =>
    exact fun hports => exists_arityFault hlimit (Gadget.ports_hash_eq_unresolved_iff.1 hports)
  case exceeds =>
    intro n hports hmax
    have harity := Gadget.ports_hash_eq_indexed_iff.1 hports
    rw [Gadget.resolve_hash_of_word config (hword harity), if_neg (by omega)]
  case indexed_iff =>
    intro n
    rw [Gadget.ports_hash_eq_indexed_iff, hashArity?_eq_some_iff]
  case not_fixed =>
    intro names
    cases h : hashArity? params <;> simp [Gadget.ports, h]

/-- Seven values, written in an unusual way, are more than the four that are allowed here. -/
theorem arityAgrees_seven :
    let config : Config := { maxHashInputs := 4 }
    let params : Params := .ofList [("inputs", "\u3000+0007\n")]
    config.check = .ok () ∧
      ArityAgrees config params (Node.mk "h" (.gadget .hash params)).ports
        (Gadget.hash.resolve config params) ∧
      Gadget.hash.resolve config params = .error (.outOfRange "inputs" 7 1 4) := by
  intro config params
  have hc : ({ maxHashInputs := 4 } : Config).check = .ok () := rfl
  have hagrees := arityAgrees_of_check config hc "h" params
  exact ⟨hc, hagrees, hagrees.exceeds 7 (by decide) (by decide)⟩

end CircuitGraph
