import CircuitGraph.Graph.Port
import CircuitGraph.Proofs.Text.Separator
import CircuitGraph.Proofs.Text.Word
import Mathlib.Data.List.Nodup
import Mathlib.Data.List.Range

/-!
# Declared names and accepted names

A node declares its ports by name, but whether an edge may arrive at a port is read off the digits
of the name. The two notions agree on every name that is not padded
(`PortSet.mem_names_of_contains`) and no declared name is padded (`Node.isPadded_of_mem_names`), so
they differ by the padded names only: `in00` is accepted where `in0` is declared.
-/

namespace CircuitGraph

open CircuitGraph.Text

/-! ## Indexed names -/

/-- The digits of a number write it, as long as it has 64 bits. -/
theorem wordOfDigits?_toDigits {n : Nat} (h : n ≤ maxWord) :
    wordOfDigits? (Nat.toDigits 10 n) = some n := by
  have hdigits : ∀ c ∈ Nat.toDigits 10 n, c.isDigit = true := fun c => isDigit_of_mem_toDigits
  exact wordOfDigits?_eq_some_iff.2
    ⟨Nat.toDigits_ne_nil, hdigits, (ofDigits_toDigits n).symm, h⟩

/-- The characters of an indexed name. -/
theorem toList_hashPort (k : Nat) : (hashPort k).toList = 'i' :: 'n' :: Nat.toDigits 10 k := by
  rw [← Nat.toList_repr]
  exact String.toList_append

/-- An indexed name writes its position. -/
theorem indexedPosition?_hashPort {k : Nat} (h : k ≤ maxWord) :
    indexedPosition? (hashPort k) = some k := by
  rw [indexedPosition?, toList_hashPort]
  exact wordOfDigits?_toDigits h

/-- Different positions have different names. -/
theorem hashPort_injective : Function.Injective hashPort := by
  intro j k h
  have hlist := congrArg String.toList h
  rw [toList_hashPort, toList_hashPort] at hlist
  exact toDigits_injective (List.cons.inj (List.cons.inj hlist).2).2

/-- Whether a name writes a position in another way than the name of that position does, that is
with zeros in front. -/
def isPadded (port : String) : Bool :=
  match indexedPosition? port with
  | some k => port != hashPort k
  | none => false

/-- A name that writes a position and is not padded is the name of the position. -/
theorem eq_hashPort_of_indexedPosition? {port : String} {k : Nat}
    (h : indexedPosition? port = some k) (hport : isPadded port = false) : port = hashPort k := by
  unfold isPadded at hport
  rw [h] at hport
  simpa using hport

/-- The name of a position is not padded. -/
theorem isPadded_hashPort {k : Nat} (h : k ≤ maxWord) : isPadded (hashPort k) = false := by
  unfold isPadded
  rw [indexedPosition?_hashPort h]
  exact bne_self_eq_false _

/-! ## Ports -/

/-- A port at which an edge may arrive is declared, unless its name is padded or the ports are
unresolved. -/
theorem PortSet.mem_names_of_contains {ports : PortSet} {port : String}
    (h : ports.contains port = true) (hresolved : ports ≠ .unresolved)
    (hport : isPadded port = false) : port ∈ ports.names := by
  cases ports with
  | fixed names => exact List.contains_iff_mem.1 h
  | indexed count =>
    obtain ⟨k, hk, hlt⟩ := (Option.any_eq_true _ _).1 h
    rw [eq_hashPort_of_indexedPosition? hk hport]
    exact List.mem_map_of_mem (List.mem_range.2 (of_decide_eq_true hlt))
  | unresolved => exact absurd rfl hresolved

/-- A padded name at which an edge may arrive writes the position of a declared port. -/
theorem PortSet.exists_of_isPadded {ports : PortSet} {port : String}
    (h : ports.contains port = true) (hplain : ∀ name ∈ ports.names, isPadded name = false)
    (hresolved : ports ≠ .unresolved) (hport : isPadded port = true) :
    ∃ k, indexedPosition? port = some k ∧ hashPort k ∈ ports.names := by
  cases ports with
  | fixed names =>
    have hname := hplain port (List.contains_iff_mem.1 h)
    exact Bool.noConfusion (hname.symm.trans hport)
  | indexed count =>
    obtain ⟨k, hk, hlt⟩ := (Option.any_eq_true _ _).1 h
    exact ⟨k, hk, List.mem_map_of_mem (List.mem_range.2 (of_decide_eq_true hlt))⟩
  | unresolved => exact absurd rfl hresolved

/-- A hash has at most as many ports as there are templates for. -/
theorem le_of_hashArity? {params : Params} {n : Nat} (h : hashArity? params = some n) :
    n ≤ Gadget.maxHashInputs := by
  obtain ⟨text, -, h⟩ := Option.bind_eq_some_iff.1 h
  obtain ⟨count, -, h⟩ := Option.bind_eq_some_iff.1 h
  split at h
  · rename_i hbounds
    cases h
    exact hbounds.2
  · cases h

/-- What is known of the ports that a node can have: fixed names are distinct and write no position,
and there are not more counted ports than a hash can have. -/
def PortSet.Usual : PortSet → Prop
  | fixed names => names.Nodup ∧ ∀ port ∈ names, indexedPosition? port = none
  | indexed count => count ≤ Gadget.maxHashInputs
  | unresolved => True

namespace PortSet

variable {ports : PortSet}

/-- No port is declared twice. -/
theorem Usual.nodup_names (h : ports.Usual) : ports.names.Nodup := by
  cases ports with
  | fixed names => exact h.1
  | indexed count => exact List.nodup_range.map hashPort_injective
  | unresolved => exact List.nodup_nil

/-- No declared name is padded. -/
theorem Usual.isPadded_eq_false (h : ports.Usual) {port : String} (hport : port ∈ ports.names) :
    isPadded port = false := by
  cases ports with
  | fixed names => rw [isPadded, h.2 port hport]
  | indexed count =>
    obtain ⟨k, hk, rfl⟩ := List.mem_map.1 hport
    have hle : k ≤ Gadget.maxHashInputs := (List.mem_range.1 hk).le.trans h
    exact isPadded_hashPort (hle.trans (by decide))
  | unresolved => cases hport

end PortSet

namespace Node

/-- The ports of every node are of this form. -/
theorem usual_ports (node : Node) : node.ports.Usual := by
  unfold ports
  split
  · exact ⟨List.nodup_nil, nofun⟩
  · exact ⟨by decide, by decide⟩
  · rename_i gadget params hkind
    cases gadget with
    | hash =>
      dsimp only [Gadget.ports]
      split
      · rename_i count hcount
        exact le_of_hashArity? hcount
      · trivial
    | _ => exact ⟨by decide, by decide⟩
  · exact ⟨by decide, by decide⟩

/-- No port of a node is declared twice. -/
theorem nodup_names_ports (node : Node) : node.ports.names.Nodup := node.usual_ports.nodup_names

/-- No declared name of a node is padded. -/
theorem isPadded_of_mem_names {node : Node} {port : String} (h : port ∈ node.ports.names) :
    isPadded port = false := node.usual_ports.isPadded_eq_false h

end Node

end CircuitGraph
