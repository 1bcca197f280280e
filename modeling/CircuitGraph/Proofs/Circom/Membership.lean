import CircuitGraph.Proofs.Circom.Mention
import CircuitGraph.Proofs.Circom.Range

/-!
# Merkle proofs decide membership

A Merkle proof climbs from its leaf up to the root: on each level the hash below and a path element
are hashed, on the sides that a path index selects (`climb`). `Fragment.DecidesMembership` says that
the result tells whether the climb ends at the root, for whatever leaf, root and path, and that the
path indices are bits; `Fragment.ReadsPath` says that the path is read from the two arrays of the
fragment, all entries of both and no others.

The commands run through a loop. One run of its body is one step of the climb (`climb_step`), and
the levels are those of the climb by induction on the counter (`level_eq_climbOf`).
-/

namespace CircuitGraph.Circom

variable {p : ℕ}

/-- A fragment whose result tells whether the path of a leaf ends at a root. -/
structure Fragment.DecidesMembership (p : ℕ) [Fact p.Prime] (depth : ℕ) (elements indices : String)
    (leaf root result : Ref) (f : Fragment) : Prop where
  /-- Every path index is zero or one. -/
  bit : ∀ (hash : List (ZMod p) → ZMod p) (σ : Ref → ZMod p), (∀ b ∈ f.blocks, b.Holds hash σ) →
    ∀ i < depth, σ (entry indices i) = 0 ∨ σ (entry indices i) = 1
  /-- The result tells whether the climb ends at the root. -/
  sound : ∀ (hash : List (ZMod p) → ZMod p) (σ : Ref → ZMod p), (∀ b ∈ f.blocks, b.Holds hash σ) →
    σ result = if σ root = climbOf hash σ leaf elements indices depth then 1 else 0
  /-- Any leaf, root and path with such indices can be checked: whatever the inputs are, and the
  signals that the fragment does not declare, the other signals can be chosen. -/
  complete : ∀ (hash : List (ZMod p) → ZMod p) (τ : Ref → ZMod p),
    (∀ i < depth, τ (entry indices i) = 0 ∨ τ (entry indices i) = 1) →
      ∃ σ : Ref → ZMod p, (∀ b ∈ f.blocks, b.Holds hash σ) ∧ σ leaf = τ leaf ∧ σ root = τ root ∧
        (∀ i, σ (entry elements i) = τ (entry elements i)) ∧
        (∀ i, σ (entry indices i) = τ (entry indices i)) ∧ ∀ r, r.name ∉ f.declares → σ r = τ r

/-- A fragment that reads a path from two arrays of its own. -/
structure Fragment.ReadsPath (depth : ℕ) (elements indices : String) (f : Fragment) : Prop where
  /-- The arrays are the inputs of the fragment. -/
  inputs : f.inputs = [⟨elements, some depth⟩, ⟨indices, some depth⟩]
  /-- The two arrays have different names. -/
  ne : elements ≠ indices
  /-- All entries of the first array are read, and no others. -/
  elements : ∀ r, r ∈ f.refs ∧ r.name = elements ↔ ∃ i < depth, r = entry elements i
  /-- All entries of the second array are read, and no others. -/
  indices : ∀ r, r ∈ f.refs ∧ r.name = indices ↔ ∃ i < depth, r = entry indices i

/-! ## Reading the path -/

/-- The names of a Merkle proof are distinct. -/
theorem ne_of_merkleSuffixes (name : String) :
    (name ≠ name ++ "_level" ∧ name ≠ name ++ "_mux" ∧ name ≠ name ++ "_hash") ∧
      (name ++ "_level" ≠ name ++ "_mux" ∧ name ++ "_level" ≠ name ++ "_hash") ∧
      name ++ "_mux" ≠ name ++ "_hash" := by
  have hnodup := nodup_family areSuffixes_merkle.nodup name
  simpa only [family, merkleSuffixes, List.map_cons, List.map_nil, List.nodup_cons, List.mem_cons,
    List.not_mem_nil, or_false, not_or, List.nodup_nil, not_false_iff, and_true] using hnodup

/-- What a Merkle proof declares: the arrays, and the names that belong to its own. -/
theorem declares_merkleProof (heading : Heading) (name elements indices : String) (depth : ℕ)
    (leaf root : Ref) :
    (Fragment.merkleProof heading name elements indices depth leaf root).declares =
      [elements, indices, name ++ "_level", name ++ "_mux", name ++ "_hash", name] := by
  rfl

/-- When the names are distinct, those of the arrays are not those of the signals that the commands
declare. -/
theorem ne_of_nodup_declares {heading : Heading} {name elements indices : String} {depth : ℕ}
    {leaf root : Ref}
    (h : (Fragment.merkleProof heading name elements indices depth leaf root).declares.Nodup) :
    elements ≠ indices ∧
      elements ∉ [name ++ "_level", name ++ "_mux", name ++ "_hash", name] ∧
      indices ∉ [name ++ "_level", name ++ "_mux", name ++ "_hash", name] := by
  rw [declares_merkleProof, List.nodup_cons, List.nodup_cons, List.mem_cons, not_or] at h
  exact ⟨h.1.1, h.1.2, h.2.1⟩

/-- What a level of a Merkle proof mentions: signals and components that belong to its name, and one
entry of each array. -/
theorem name_of_mem_refs_merkleLevel {level mux node elements indices : String} {i : ℕ} :
    ∀ s ∈ Fragment.merkleLevel (signalRef level) (signalRef mux) (signalRef node)
      (signalRef elements) (signalRef indices), ∀ r ∈ s.refs (some i),
        r.name ∈ [level, mux, node] ∨ r = entry elements i ∨ r = entry indices i := by
  simp [Fragment.merkleLevel, entry, Ref.atCount, Ref.atCounter, Ref.atPlace, Ref.field, signalRef,
    Accessor.atCount]

section

variable {heading : Heading} {name elements indices : String} {depth : ℕ} {leaf root : Ref}

/-- What a Merkle proof mentions: its operands, the signals and components that belong to its name,
and the entries of its arrays. -/
theorem name_of_mem_refs_merkleProof :
    ∀ r ∈ (Fragment.merkleProof heading name elements indices depth leaf root).refs,
      r.name ∈ [leaf.name, root.name, name ++ "_level", name ++ "_mux", name ++ "_hash", name] ∨
        ∃ i < depth, r = entry elements i ∨ r = entry indices i := by
  rw [Fragment.refs, Fragment.merkleProof, List.flatMap_singleton]
  simp only [List.forall_mem_flatMap, Fragment.merkleCommands, List.forall_mem_append,
    List.forall_mem_cons, List.forall_mem_map]
  refine ⟨?_, ?_, ?_⟩
  · simp [Ref.atCount, Ref.atPlace, signalRef]
  · intro r hr
    obtain ⟨i, hi, hr⟩ := List.mem_flatMap.1 hr
    obtain ⟨s, hs, hr⟩ := List.mem_flatMap.1 hr
    rcases name_of_mem_refs_merkleLevel s hs r hr with hname | hentry
    · refine .inl (List.mem_cons_of_mem _ (List.mem_cons_of_mem _ ?_))
      exact List.mem_append_left [name] hname
    · exact .inr ⟨i, List.mem_range.1 hi, hentry⟩
  · simp [compare, Ref.atCount, Ref.atPlace, Ref.field, signalRef]

/-- A Merkle proof mentions both entries of every level. -/
theorem entry_mem_refs_merkleProof {i : ℕ} (hi : i < depth) :
    entry elements i ∈ (Fragment.merkleProof heading name elements indices depth leaf root).refs ∧
      entry indices i ∈
        (Fragment.merkleProof heading name elements indices depth leaf root).refs := by
  have hloop {s : Statement} {r : Ref}
      (hs : s ∈ Fragment.merkleLevel (signalRef (name ++ "_level")) (signalRef (name ++ "_mux"))
        (signalRef (name ++ "_hash")) (signalRef elements) (signalRef indices))
      (hr : r ∈ s.refs (some i)) :
      r ∈ (Fragment.merkleProof heading name elements indices depth leaf root).refs := by
    rw [Fragment.refs, Fragment.merkleProof, List.flatMap_singleton]
    refine List.mem_flatMap.2 ⟨_, List.mem_append_right _ List.mem_cons_self, ?_⟩
    exact List.mem_flatMap.2 ⟨i, List.mem_range.2 hi, List.mem_flatMap.2 ⟨s, hs, hr⟩⟩
  have hentry (array : String) :
      ((signalRef array).atCounter 0).atCount (some i) = entry array i := by
    simp [entry, Ref.atCount, Ref.atCounter, Ref.atPlace, signalRef, Accessor.atCount]
  constructor
  · -- the path element is wired to the multiplexer, and so is the path index
    refine hloop (List.mem_of_getElem? (rfl : _[3]? = some _)) (List.mem_cons_of_mem _ ?_)
    exact List.mem_singleton.2 (hentry elements).symm
  · refine hloop (List.mem_of_getElem? (rfl : _[6]? = some _)) (List.mem_cons_of_mem _ ?_)
    exact List.mem_singleton.2 (hentry indices).symm

/-- A Merkle proof reads its path from its two arrays. -/
theorem readsPath_merkleProof
    (hnodup : (Fragment.merkleProof heading name elements indices depth leaf root).declares.Nodup)
    (hleaf : leaf.name ∉
      (Fragment.merkleProof heading name elements indices depth leaf root).declares)
    (hroot : root.name ∉
      (Fragment.merkleProof heading name elements indices depth leaf root).declares) :
    (Fragment.merkleProof heading name elements indices depth leaf root).ReadsPath depth elements
      indices := by
  obtain ⟨hne, helements, hindices⟩ := ne_of_nodup_declares hnodup
  -- neither of the arrays has a name that is mentioned otherwise
  have hother {r : Ref}
      (hr : r ∈ (Fragment.merkleProof heading name elements indices depth leaf root).refs)
      {array : String} (harray : array ∈ [elements, indices])
      (hnew : array ∉ [name ++ "_level", name ++ "_mux", name ++ "_hash", name])
      (hname : r.name = array) : ∃ i < depth, r = entry elements i ∨ r = entry indices i := by
    rcases name_of_mem_refs_merkleProof r hr with hmem | hentry
    · rw [hname] at hmem
      rcases List.mem_cons.1 hmem with rfl | hmem
      · exact absurd (List.mem_append_left [_, _, _, _] harray) hleaf
      · rcases List.mem_cons.1 hmem with rfl | hmem
        · exact absurd (List.mem_append_left [_, _, _, _] harray) hroot
        · exact absurd hmem hnew
    · exact hentry
  refine ⟨rfl, hne, fun r => ⟨?_, ?_⟩, fun r => ⟨?_, ?_⟩⟩
  · rintro ⟨hr, hname⟩
    obtain ⟨i, hi, rfl | rfl⟩ := hother hr (by simp) helements hname
    · exact ⟨i, hi, rfl⟩
    · exact absurd hname.symm hne
  · rintro ⟨i, hi, rfl⟩
    exact ⟨(entry_mem_refs_merkleProof hi).1, rfl⟩
  · rintro ⟨hr, hname⟩
    obtain ⟨i, hi, rfl | rfl⟩ := hother hr (by simp) hindices hname
    · exact absurd hname hne
    · exact ⟨i, hi, rfl⟩
  · rintro ⟨i, hi, rfl⟩
    exact ⟨(entry_mem_refs_merkleProof hi).2, rfl⟩

end

/-! ## Assignments -/

/-- The value on a side of a level: the hash below on the left where the path index is zero, and on
the right where it is not. -/
def side (below element index : ZMod p) (j : ℕ) : ZMod p :=
  if j = 0 ↔ index = 0 then below else element

/-- The value on the left. -/
theorem side_zero (below element index : ZMod p) :
    side below element index 0 = if index = 0 then below else element := by
  simp [side]

/-- The value on the right. -/
theorem side_one (below element index : ZMod p) :
    side below element index 1 = if index = 0 then element else below := by
  simp [side]

/-- The hash on the next level is that of the values on both sides. -/
theorem climbOf_succ (hash : List (ZMod p) → ZMod p) (σ : Ref → ZMod p) (leaf : Ref)
    (elements indices : String) (i : ℕ) :
    climbOf hash σ leaf elements indices (i + 1) =
      hash ([0, 1].map (side (climbOf hash σ leaf elements indices i) (σ (entry elements i))
        (σ (entry indices i)))) := by
  rw [List.map_cons, List.map_singleton, side_zero, side_one, climbOf, climb]
  split_ifs
  · rfl
  · rfl

/-- An assignment in which the signals of a Merkle proof have the values that belong to the climb
from its leaf. -/
def withClimb (hash : List (ZMod p) → ZMod p) (τ : Ref → ZMod p) (name elements indices : String)
    (depth : ℕ) (leaf root : Ref) (r : Ref) : ZMod p :=
  let below := climbOf hash τ leaf elements indices
  if r.name = name ++ "_level" then
    match r.path with
    | [.element (.fixed i)] => below i
    | _ => τ r
  else if r.name = name ++ "_mux" then
    match r.path with
    | [.element (.fixed i), .field "c", .element (.fixed j), .element (.fixed k)] =>
      if j = k then below i else τ (entry elements i)
    | [.element (.fixed i), .field "s"] => τ (entry indices i)
    | [.element (.fixed i), .field "out", .element (.fixed j)] =>
      side (below i) (τ (entry elements i)) (τ (entry indices i)) j
    | _ => τ r
  else if r.name = name ++ "_hash" then
    match r.path with
    | [.element (.fixed i), .field "inputs", .element (.fixed j)] =>
      side (below i) (τ (entry elements i)) (τ (entry indices i)) j
    | [.element (.fixed i), .field "out"] => below (i + 1)
    | _ => τ r
  else withComparison τ name (below depth) (τ root) (if below depth = τ root then 1 else 0) r

section

variable {hash : List (ZMod p) → ZMod p} {τ : Ref → ZMod p} {name elements indices : String}
  {depth : ℕ} {leaf root : Ref}

/-- The values on the levels. -/
theorem withClimb_level (i : ℕ) :
    withClimb hash τ name elements indices depth leaf root (entry (name ++ "_level") i) =
      climbOf hash τ leaf elements indices i :=
  if_pos rfl

/-- The signals of the multiplexers. -/
theorem withClimb_mux {r : Ref} (h : r.name = name ++ "_mux") :
    withClimb hash τ name elements indices depth leaf root r =
      match r.path with
      | [.element (.fixed i), .field "c", .element (.fixed j), .element (.fixed k)] =>
        if j = k then climbOf hash τ leaf elements indices i else τ (entry elements i)
      | [.element (.fixed i), .field "s"] => τ (entry indices i)
      | [.element (.fixed i), .field "out", .element (.fixed j)] =>
        side (climbOf hash τ leaf elements indices i) (τ (entry elements i)) (τ (entry indices i)) j
      | _ => τ r := by
  obtain ⟨-, ⟨hlevel, -⟩, -⟩ := ne_of_merkleSuffixes name
  rw [withClimb, if_neg (h ▸ hlevel.symm), if_pos h]

/-- The signals of the hashes. -/
theorem withClimb_hash {r : Ref} (h : r.name = name ++ "_hash") :
    withClimb hash τ name elements indices depth leaf root r =
      match r.path with
      | [.element (.fixed i), .field "inputs", .element (.fixed j)] =>
        side (climbOf hash τ leaf elements indices i) (τ (entry elements i)) (τ (entry indices i)) j
      | [.element (.fixed i), .field "out"] => climbOf hash τ leaf elements indices (i + 1)
      | _ => τ r := by
  obtain ⟨-, ⟨-, hlevel⟩, hmux⟩ := ne_of_merkleSuffixes name
  rw [withClimb, if_neg (h ▸ hlevel.symm), if_neg (h ▸ hmux.symm), if_pos h]

/-- The signals of the comparison with the root. -/
theorem withClimb_of_ne {r : Ref}
    (h : r.name ∉ [name ++ "_level", name ++ "_mux", name ++ "_hash"]) :
    withClimb hash τ name elements indices depth leaf root r =
      withComparison τ name (climbOf hash τ leaf elements indices depth) (τ root)
        (if climbOf hash τ leaf elements indices depth = τ root then 1 else 0) r := by
  simp only [List.mem_cons, List.not_mem_nil, or_false, not_or] at h
  rw [withClimb, if_neg h.1, if_neg h.2.1, if_neg h.2.2]

/-- Signals that do not belong to the Merkle proof keep their values. -/
theorem withClimb_of_not_mem {r : Ref}
    (h : r.name ∉ [name ++ "_level", name ++ "_mux", name ++ "_hash", name]) :
    withClimb hash τ name elements indices depth leaf root r = τ r := by
  rw [withClimb_of_ne fun hmem => h (List.mem_append_left [name] hmem), withComparison_of_ne]
  exact fun heq => h (List.mem_append_right [_, _, _] (List.mem_singleton.2 heq))

end

variable [Fact p.Prime] {hash : List (ZMod p) → ZMod p} {σ : Ref → ZMod p}

/-- A level is kept when its signals have the values that belong to the climb. -/
theorem merkleLevel_hold_withClimb {τ : Ref → ZMod p} {name elements indices : String} {depth : ℕ}
    {leaf root : Ref} {i : ℕ} (hbit : τ (entry indices i) = 0 ∨ τ (entry indices i) = 1)
    (helements : elements ∉ [name ++ "_level", name ++ "_mux", name ++ "_hash", name])
    (hindices : indices ∉ [name ++ "_level", name ++ "_mux", name ++ "_hash", name]) :
    ∀ s ∈ Fragment.merkleLevel (signalRef (name ++ "_level")) (signalRef (name ++ "_mux"))
      (signalRef (name ++ "_hash")) (signalRef elements) (signalRef indices),
        s.Holds hash (withClimb hash τ name elements indices depth leaf root) (some i) := by
  let σ := withClimb hash τ name elements indices depth leaf root
  let mux := entry (name ++ "_mux") i
  let node := entry (name ++ "_hash") i
  let below := climbOf hash τ leaf elements indices
  let value := side (below i) (τ (entry elements i)) (τ (entry indices i))
  have helement : σ (entry elements i) = τ (entry elements i) := withClimb_of_not_mem helements
  have hindex : σ (entry indices i) = τ (entry indices i) := withClimb_of_not_mem hindices
  have hlevel (j : ℕ) : σ (entry (name ++ "_level") j) = below j := withClimb_level j
  have hchoice (j k : ℕ) : σ (((mux.field "c").atPlace j).atPlace k) =
      if j = k then below i else τ (entry elements i) := withClimb_mux rfl
  have hselector : σ (mux.field "s") = τ (entry indices i) := withClimb_mux rfl
  have hout (j : ℕ) : σ ((mux.field "out").atPlace j) = value j := withClimb_mux rfl
  have hinput (j : ℕ) : σ ((node.field "inputs").atPlace j) = value j := withClimb_hash rfl
  have hnode : σ (node.field "out") = below (i + 1) := withClimb_hash rfl
  refine merkleLevel_hold_iff.2 ⟨?_, ?_, ?_, ?_, ?_, ?_, ?_, ?_, ?_, ?_, ?_⟩
  · rw [Nat.cast_one, Nat.cast_zero, mul_eq_zero, sub_eq_zero]
    change σ _ = 0 ∨ 1 = σ _
    rw [hindex]
    exact hbit.imp_right Eq.symm
  · -- the multiplexer puts the values on the sides that the index selects
    change ∀ j < 2, σ ((mux.field "out").atPlace j) = σ _ + σ (mux.field "s") * (σ _ - σ _)
    intro j hj
    rw [hout, hchoice, hchoice, hselector]
    rcases Nat.le_one_iff_eq_zero_or_eq_one.1 (Nat.le_of_lt_succ hj) with rfl | rfl
    · exact (side_zero _ _ _).trans (add_mul_sub_eq hbit).symm
    · exact (side_one _ _ _).trans (add_mul_sub_eq hbit).symm
  · exact (hchoice 0 0).trans (hlevel i).symm
  · exact (hchoice 0 1).trans helement.symm
  · exact (hchoice 1 0).trans helement.symm
  · exact (hchoice 1 1).trans (hlevel i).symm
  · exact hselector.trans hindex.symm
  · change σ (node.field "out") = hash [σ ((node.field "inputs").atPlace 0),
      σ ((node.field "inputs").atPlace 1)]
    rw [hnode, hinput, hinput]
    exact climbOf_succ hash τ leaf elements indices i
  · exact (hinput 0).trans (hout 0).symm
  · exact (hinput 1).trans (hout 1).symm
  · exact (hlevel (i + 1)).trans hnode.symm

/-! ## The statements -/

section

variable {name elements indices : String} {depth : ℕ} {leaf root : Ref}

variable {heading : Heading}

/-- A Merkle proof decides membership when its operands and its arrays have other names than its own
signals. -/
theorem decidesMembership_merkleProof
    (hnodup : (Fragment.merkleProof heading name elements indices depth leaf root).declares.Nodup)
    (hleaf : leaf.name ∉
      (Fragment.merkleProof heading name elements indices depth leaf root).declares)
    (hroot : root.name ∉
      (Fragment.merkleProof heading name elements indices depth leaf root).declares) :
    (Fragment.merkleProof heading name elements indices depth leaf root).DecidesMembership p depth
      elements indices leaf root (outputOf name) where
  bit := by
    intro hash σ hσ i hi
    have hcommands := hσ _ (List.mem_singleton_self _)
    exact (climb_step ((merkleCommands_hold_iff.1 hcommands).2.1 i hi)).1
  sound := by
    intro hash σ hσ
    exact outputOf_eq_of_merkleCommands (hσ _ (List.mem_singleton_self _))
  complete := by
    intro hash τ hτ
    obtain ⟨-, helements, hindices⟩ := ne_of_nodup_declares hnodup
    obtain ⟨⟨hlevel, hmux, hhash⟩, -⟩ := ne_of_merkleSuffixes name
    let σ := withClimb hash τ name elements indices depth leaf root
    let top := climbOf hash τ leaf elements indices depth
    have hkept {r : Ref} (hr : r.name ∉
        (Fragment.merkleProof heading name elements indices depth leaf root).declares) :
        σ r = τ r :=
      withClimb_of_not_mem fun hmem => hr (List.mem_append_right [_, _] hmem)
    have hown {r : Ref} (hr : r.name = name) :
        σ r = withComparison τ name top (τ root) (if top = τ root then 1 else 0) r :=
      withClimb_of_ne (by simp [hr, hlevel, hmux, hhash])
    have hleft : σ (((signalRef name).field "in").atPlace 0) = top :=
      (hown rfl).trans withComparison_left
    have hright : σ (((signalRef name).field "in").atPlace 1) = τ root :=
      (hown rfl).trans withComparison_right
    have hout : σ (outputOf name) = if top = τ root then 1 else 0 :=
      (hown rfl).trans withComparison_out
    refine ⟨σ, fun b hb => ?_, hkept hleaf, hkept hroot, fun i => withClimb_of_not_mem helements,
      fun i => withClimb_of_not_mem hindices, fun r => hkept⟩
    rw [List.mem_singleton.1 hb]
    refine merkleCommands_hold_iff.2 ⟨(withClimb_level 0).trans (hkept hleaf).symm,
      fun i hi => merkleLevel_hold_withClimb (hτ i hi) helements hindices,
      compare_holds_iff.2 ⟨?_, hleft.trans (withClimb_level depth).symm,
        hright.trans (hkept hroot).symm⟩⟩
    change σ (outputOf name) = if σ _ = σ _ then 1 else 0
    rw [hout, hleft, hright]

end

/-! ## Emission -/

/-- The gate of a Merkle proof has the depth that is read and the values at the ports. -/
theorem Gate.ofNode_merkleProof {config : Config} {node : Node} {value? : String → Option Ref}
    {gate : Gate} {params : Params} {depth : ℕ} (hkind : node.kind = .gadget .merkleProof params)
    (hresolve : Gadget.merkleProof.resolve config params = .ok (.merkleProof depth))
    (h : ofNode config node value? = .ok gate) :
    ∃ leaf root, value? "leaf" = some leaf ∧ value? "root" = some root ∧
      gate = .merkleProof depth leaf root := by
  rw [ofNode_gadget hkind hresolve] at h
  obtain ⟨leaf, hleaf, h⟩ := bind_eq_ok.1 h
  obtain ⟨root, hroot, hgate⟩ := bind_eq_ok.1 h
  exact ⟨leaf, root, operand_eq_ok hleaf, operand_eq_ok hroot, (pure_eq_ok.1 hgate).symm⟩

/-- In whatever is emitted, every Merkle proof decides membership: at any place of any order, and
over any field. It reads its path from its own arrays, and mentions those of no other fragment. -/
theorem decidesMembership_of_emitUnit {config : Config} {order : LinearOrder} {u : SourceUnit}
    (hu : emitUnit config order = .ok u) {before after : List Vertex} {v : Vertex}
    (hsplit : order.vertices = before ++ v :: after) {params : Params} {depth : ℕ}
    (hkind : v.node.kind = .gadget .merkleProof params)
    (hresolve : Gadget.merkleProof.resolve config params = .ok (.merkleProof depth)) :
    ∃ (f : Fragment) (left right : List Fragment) (elements indices : String)
      (leaf root result : Ref),
      f.OfVertex config order.index before v (.merkleProof depth leaf root) ∧
      leaf.AtPort config order.index before v "leaf" ∧
      root.AtPort config order.index before v "root" ∧
      f.result = some result ∧ u = .ofFragments config (left ++ f :: right) ∧
      left.length = before.length ∧ right.length = after.length ∧
      f.ReadsPath depth elements indices ∧
      (∀ other ∈ left ++ right, ∀ array ∈ other.arrays, ∀ r ∈ f.refs, r.name ≠ array) ∧
      ∀ (p : ℕ) [Fact p.Prime], f.DecidesMembership p depth elements indices leaf root result := by
  obtain ⟨s', hs', rfl⟩ := emitUnit_eq_ok.1 hu
  rw [hsplit] at hs'
  obtain ⟨s, gate, right, hs, hgate, hfragments⟩ := hs'.exists_fragments_of_split
  obtain ⟨leaf, root, hleafValue, hrootValue, rfl⟩ := Gate.ofNode_merkleProof hkind hresolve hgate
  have hnodup := ((Gate.merkleProof depth leaf root).grants_fragment config v.node s.names).nodup
  have hleaf := hs.not_mem_declares_of_mem_operands hgate (r := leaf) List.mem_cons_self
  have hroot := hs.not_mem_declares_of_mem_operands hgate (r := root)
    (List.mem_cons_of_mem _ List.mem_cons_self)
  have hlength := hs'.length_fragments
  rw [hfragments, List.length_append, List.length_append, List.length_cons, List.length_cons,
    hs.length_fragments] at hlength
  refine ⟨_, s.fragments, right, _, _, leaf, root, _, ⟨s, hs, hgate, rfl⟩,
    ⟨s, hs, hleafValue⟩, ⟨s, hs, hrootValue⟩, rfl, ?_,
    hs.length_fragments, by omega, ?_, ?_,
    fun p _ => decidesMembership_merkleProof hnodup hleaf hroot⟩
  · rw [hfragments]
  · exact readsPath_merkleProof hnodup hleaf hroot
  · exact hs.name_ne_of_mem_arrays hgate hs' hfragments

/-- Two Merkle proofs, of different depths, for one leaf. -/
def rootChange : Graph where
  nodes :=
    [Exhibit.secret "x" "Leaf", Exhibit.exposed "r" "Root",
     Exhibit.gadget "m" .merkleProof [("depth", "2")],
     Exhibit.gadget "n" .merkleProof [("depth", "3")], Exhibit.output "o" .boolean "Before",
     Exhibit.output "q" .boolean "After"]
  edges :=
    [Graph.wire "x" "m" "leaf", Graph.wire "r" "m" "root", Graph.wire "x" "n" "leaf",
     Graph.wire "r" "n" "root", Graph.wire "m" "o" "in", Graph.wire "n" "q" "in"]

/-- The second of the Merkle proofs decides membership, and leaves the path of the first alone. -/
theorem decidesMembership_rootChange :
    let order : LinearOrder := ⟨rootChange.index, rootChange.vertices⟩
    let v : Vertex := ⟨3, Exhibit.gadget "n" .merkleProof [("depth", "3")]⟩
    ∃ u before after params, emitUnit {} order = .ok u ∧ order.vertices = before ++ v :: after ∧
      v.node.kind = .gadget .merkleProof params ∧
      Gadget.merkleProof.resolve {} params = .ok (.merkleProof 3) ∧
      ∃ (f : Fragment) (left right : List Fragment) (elements indices : String)
        (leaf root result : Ref),
        f.OfVertex {} order.index before v (.merkleProof 3 leaf root) ∧
        leaf.AtPort {} order.index before v "leaf" ∧ root.AtPort {} order.index before v "root" ∧
        f.result = some result ∧ u = .ofFragments {} (left ++ f :: right) ∧
        left.length = before.length ∧ right.length = after.length ∧
        f.ReadsPath 3 elements indices ∧
        (∀ other ∈ left ++ right, ∀ array ∈ other.arrays, ∀ r ∈ f.refs, r.name ≠ array) ∧
        ∀ (p : ℕ) [Fact p.Prime], f.DecidesMembership p 3 elements indices leaf root result := by
  intro order v
  have hsplit : order.vertices =
      [⟨0, Exhibit.secret "x" "Leaf"⟩, ⟨1, Exhibit.exposed "r" "Root"⟩,
       ⟨2, Exhibit.gadget "m" .merkleProof [("depth", "2")]⟩] ++
        v :: [⟨4, Exhibit.output "o" .boolean "Before"⟩,
          ⟨5, Exhibit.output "q" .boolean "After"⟩] := rfl
  have hresolve : Gadget.merkleProof.resolve {} (Params.ofList [("depth", "3")]) =
      .ok (.merkleProof 3) := rfl
  obtain ⟨u, hu⟩ := exists_eq_ok (rfl : (emitUnit {} order).isOk = true)
  exact ⟨u, _, _, _, hu, hsplit, rfl, hresolve,
    decidesMembership_of_emitUnit hu hsplit rfl hresolve⟩

end CircuitGraph.Circom
