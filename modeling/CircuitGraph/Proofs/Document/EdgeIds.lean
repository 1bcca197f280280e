import CircuitGraph.Proofs.Document.Ports
import CircuitGraph.Proofs.Graph.Dataflow
import CircuitGraph.Proofs.Graph.Designation
import CircuitGraph.Proofs.Text.Separator
import CircuitGraph.Proofs.Validation.Report

/-!
# Ids of imported edges

Edges of a document may come without an id, and importing names such an edge for its position. A
diagnostic tells an edge by its id, and an edge is removed by its id, so the ids of an imported
graph should be distinct (`Graph.Addressable`). The ids that are made up are distinct among
themselves, but a given id may look like one of them. The main statement is that this is the only
thing that can go wrong: when the given ids are distinct, the edges are addressable exactly if no
given id is the one made up for another edge (`Document.Clashes`).
-/

namespace CircuitGraph

/-! ## Addressable edges -/

/-- Every edge can be addressed by its id. -/
structure Graph.Addressable (g : Graph) : Prop where
  /-- The ids are distinct. -/
  nodup : (g.edges.map Edge.id).Nodup
  /-- The id of an edge finds and removes the edge and no other one. -/
  designates : ∀ i edge, g.edges[i]? = some edge → g.Designates edge.id i
  /-- A diagnostic that names an edge tells which one it is, whatever the configuration. -/
  reports : ∀ config, ∀ d ∈ g.validate config, ∀ id, d.edgeId = some id →
    ∃! i : Nat, (g.edges.map Edge.id)[i]? = some id

namespace Graph

variable {g : Graph}

/-- The links of a graph have its edges, in order. -/
theorem map_edge_links (g : Graph) : g.index.links.map Link.edge = g.edges := by
  simp only [index, List.map_map]
  exact List.zipIdx_map_fst 0 g.edges

/-- A diagnostic that names an edge names one of the graph. -/
theorem mem_ids_of_edgeId {config : Config} {d : Diagnostic} (h : d ∈ g.validate config)
    {id : String} (hid : d.edgeId = some id) : id ∈ g.edges.map Edge.id := by
  rcases Validation.form_of_mem_report (Validation.mem_validate_iff.1 h) with
    ⟨_, _, hd⟩ | ⟨_, hd⟩ | ⟨edge, _, hd, hedge⟩
  · rw [hd] at hid
    cases hid
  · rw [hd] at hid
    cases hid
  · rw [hd] at hid
    cases hid
    refine List.mem_map_of_mem ?_
    rcases hedge with hlink | hwire
    · rwa [map_edge_links] at hlink
    · obtain ⟨w, hw, rfl⟩ := List.mem_map.1 hwire
      exact g.edge_mem_of_mem_wires hw

/-- Edges with distinct ids are addressable. -/
theorem addressable_of_nodup (h : (g.edges.map Edge.id).Nodup) : g.Addressable where
  nodup := h
  designates i edge hi := by
    refine designates_of_forall_ne hi fun j hj other hother heq => ?_
    have hlength : i < (g.edges.map Edge.id).length := by
      rw [List.length_map]
      exact (List.getElem?_eq_some_iff.1 hi).1
    refine List.nodup_iff_getElem?_ne_getElem?.1 h j i hj hlength ?_
    simp [hi, hother, heq]
  reports config d hd id hid := by
    obtain ⟨i, hi, rfl⟩ := List.getElem_of_mem (mem_ids_of_edgeId hd hid)
    refine ⟨i, List.getElem?_eq_getElem hi, fun j hj => ?_⟩
    obtain ⟨hj', hget⟩ := List.getElem?_eq_some_iff.1 hj
    exact h.getElem_inj_iff.1 hget

end Graph

/-! ## Ids that are made up -/

/-- The id of the edge that an edge of a document becomes at a position. -/
def DocumentEdge.importedId (e : DocumentEdge) (position : Nat) : String :=
  if e.id = "" then s!"e{position}" else e.id

/-- Positions give different ids. -/
theorem positionId_injective {i j : Nat} (h : s!"e{i}" = s!"e{j}") : i = j := by
  simp only [toString, String.append_right_inj] at h
  exact Text.repr_injective h

namespace Document

/-- The edge at the position `i` has no id, and that at the position `j` has the id that is made up
for it. -/
def Clashes (d : Document) (i j : Nat) : Prop :=
  ∃ e e', d.edges[i]? = some e ∧ d.edges[j]? = some e' ∧ e.id = "" ∧ e'.id = s!"e{i}"

variable {d : Document} {g : Graph}

/-- The ids of the imported edges are those that they are given or that are made up for them. -/
theorem map_id_edges (h : d.toGraph = .ok g) :
    g.edges.map Edge.id = d.edges.zipIdx.map fun e => e.1.importedId e.2 := by
  rw [(toGraph_eq_ok h).2]
  have hbecomes := forall₂_importEdges g.nodes (claimedByHandles g.nodes d.edges) 0 d.edges
  have hids := hbecomes.imp fun e edge hedge => hedge.id_eq.symm
  rw [← List.forall₂_map_right_iff, ← List.forall₂_map_left_iff (f := fun e => _)] at hids
  exact (List.forall₂_eq_eq_eq ▸ hids).symm

/-- An id that is given to two edges belongs to one position. -/
theorem position_eq_of_id_eq (hids : ((d.edges.map DocumentEdge.id).filter (· ≠ "")).Nodup)
    {i j : Nat} {e e' : DocumentEdge} (hi : d.edges[i]? = some e) (hj : d.edges[j]? = some e')
    (hgiven : e.id ≠ "") (heq : e.id = e'.id) : i = j := by
  rw [List.Nodup, List.pairwise_filter, List.pairwise_map, List.pairwise_iff_getElem] at hids
  obtain ⟨hi', rfl⟩ := List.getElem?_eq_some_iff.1 hi
  obtain ⟨hj', rfl⟩ := List.getElem?_eq_some_iff.1 hj
  have hgiven' : d.edges[j].id ≠ "" := heq ▸ hgiven
  rcases Nat.lt_trichotomy i j with hlt | hsame | hgt
  · exact absurd heq (hids i j hi' hj' hlt (by simpa using hgiven) (by simpa using hgiven'))
  · exact hsame
  · exact absurd heq.symm (hids j i hj' hi' hgt (by simpa using hgiven') (by simpa using hgiven))

/-- When the given ids are distinct, two imported edges share their id only if the one has none of
its own and the other is given the id that is made up for it. -/
theorem importedId_eq_iff (hids : ((d.edges.map DocumentEdge.id).filter (· ≠ "")).Nodup)
    {i j : Nat} {e e' : DocumentEdge} (hi : d.edges[i]? = some e) (hj : d.edges[j]? = some e') :
    e.importedId i = e'.importedId j ↔ i = j ∨ d.Clashes i j ∨ d.Clashes j i := by
  have hnonempty (k : Nat) : s!"e{k}" ≠ "" := by simp [toString]
  unfold DocumentEdge.importedId
  constructor
  · intro heq
    by_cases he : e.id = ""
    · by_cases he' : e'.id = ""
      · rw [if_pos he, if_pos he'] at heq
        exact .inl (positionId_injective heq)
      · rw [if_pos he, if_neg he'] at heq
        exact .inr (.inl ⟨e, e', hi, hj, he, heq.symm⟩)
    · by_cases he' : e'.id = ""
      · rw [if_neg he, if_pos he'] at heq
        exact .inr (.inr ⟨e', e, hj, hi, he', heq⟩)
      · rw [if_neg he, if_neg he'] at heq
        exact .inl (position_eq_of_id_eq hids hi hj he heq)
  · rintro (rfl | ⟨f, f', hf, hf', hnone, hgiven⟩ | ⟨f', f, hf', hf, hnone, hgiven⟩)
    · rw [Option.some.inj (hi.symm.trans hj)]
    · obtain rfl : e = f := Option.some.inj (hi.symm.trans hf)
      obtain rfl : e' = f' := Option.some.inj (hj.symm.trans hf')
      rw [if_pos hnone, hgiven, if_neg (hnonempty i)]
    · obtain rfl : e = f := Option.some.inj (hi.symm.trans hf)
      obtain rfl : e' = f' := Option.some.inj (hj.symm.trans hf')
      rw [if_pos hnone, hgiven, if_neg (hnonempty j)]

/-- The ids of the imported edges are distinct if no given id is made up for another edge. -/
theorem nodup_ids_iff (h : d.toGraph = .ok g)
    (hids : ((d.edges.map DocumentEdge.id).filter (· ≠ "")).Nodup) :
    (g.edges.map Edge.id).Nodup ↔ ∀ i j, ¬ d.Clashes i j := by
  have hget (i : Nat) : (g.edges.map Edge.id)[i]? =
      (d.edges[i]?).map fun e => e.importedId i := by
    rw [map_id_edges h, List.getElem?_map, List.getElem?_zipIdx, Option.map_map, Nat.zero_add]
    rfl
  constructor
  · rintro hnodup i j ⟨e, e', hi, hj, hnone, hgiven⟩
    have heq : (g.edges.map Edge.id)[i]? = (g.edges.map Edge.id)[j]? := by
      rw [hget, hget, hi, hj, Option.map_some, Option.map_some,
        (importedId_eq_iff hids hi hj).2 (.inr (.inl ⟨e, e', hi, hj, hnone, hgiven⟩))]
    have hlength : i < (g.edges.map Edge.id).length := by
      rw [map_id_edges h, List.length_map, List.length_zipIdx]
      exact (List.getElem?_eq_some_iff.1 hi).1
    obtain rfl : i = j := (List.getElem?_inj hlength hnodup).1 heq
    rw [Option.some.inj (hj.symm.trans hi), hnone] at hgiven
    simp [toString] at hgiven
  · intro hclash
    rw [List.nodup_iff_getElem?_ne_getElem?]
    intro i j hlt hlength heq
    obtain ⟨e', hj, hid⟩ := Option.map_eq_some_iff.1
      ((hget j).symm.trans (List.getElem?_eq_getElem hlength))
    obtain ⟨e, hi, hid'⟩ := Option.map_eq_some_iff.1
      ((hget i).symm.trans (heq.trans (List.getElem?_eq_getElem hlength)))
    rcases (importedId_eq_iff hids hi hj).1 (hid'.trans hid.symm) with hsame | hij | hji
    · exact hlt.ne hsame
    · exact hclash i j hij
    · exact hclash j i hji

/-- **Addressable edges.** When a document can be imported and the ids that it gives are distinct,
the edges of the graph can be addressed by their ids, unless some given id is the one that is made
up for an edge without an id. -/
theorem addressable_iff_of_toGraph (h : d.toGraph = .ok g)
    (hids : ((d.edges.map DocumentEdge.id).filter (· ≠ "")).Nodup) :
    g.Addressable ↔ ∀ i j, ¬ d.Clashes i j :=
  ⟨fun ha => (nodup_ids_iff h hids).1 ha.nodup,
    fun hclash => Graph.addressable_of_nodup ((nodup_ids_iff h hids).2 hclash)⟩

/-- Of three edges the second has no id, and it can be told from the others, which have one. -/
theorem addressable_unnamed :
    let d : Document :=
      { name := none
        nodes := [⟨"x", "input", { label := "X" }⟩, ⟨"y", "input", { label := "Y" }⟩,
          ⟨"op", "operation", { operation := "add" }⟩, ⟨"out", "output", { label := "sum" }⟩]
        edges := [⟨"e2", "x", "op", none, none⟩, ⟨"", "y", "op", none, none⟩,
          ⟨"e-out", "op", "out", none, none⟩]
        createdAt := none }
    let g : Graph :=
      { nodes := [⟨"x", .input .secret "X"⟩, ⟨"y", .input .secret "Y"⟩, ⟨"op", .operation .add⟩,
          ⟨"out", .output .boolean "sum"⟩]
        edges := [⟨"e2", "x", "out", "op", "a"⟩, ⟨"e1", "y", "out", "op", "b"⟩,
          ⟨"e-out", "op", "out", "out", "in"⟩] }
    d.toGraph = .ok g ∧ ((d.edges.map DocumentEdge.id).filter (· ≠ "")).Nodup ∧
      (g.Addressable ↔ ∀ i j, ¬ d.Clashes i j) ∧ g.Addressable := by
  intro d g
  have h : d.toGraph = .ok g := by cbv
  have hids : ((d.edges.map DocumentEdge.id).filter (· ≠ "")).Nodup := by decide
  exact ⟨h, hids, addressable_iff_of_toGraph h hids, Graph.addressable_of_nodup (by decide)⟩

/-- The first edge is given the id that is made up for the second one. Removing the second edge by
its id removes the first one. -/
theorem not_addressable_unnamed :
    let d : Document :=
      { name := none
        nodes := [⟨"x", "input", { label := "X" }⟩, ⟨"y", "input", { label := "Y" }⟩,
          ⟨"op", "operation", { operation := "add" }⟩]
        edges := [⟨"e1", "x", "op", none, none⟩, ⟨"", "y", "op", none, none⟩]
        createdAt := none }
    let g : Graph :=
      { nodes := [⟨"x", .input .secret "X"⟩, ⟨"y", .input .secret "Y"⟩, ⟨"op", .operation .add⟩]
        edges := [⟨"e1", "x", "out", "op", "a"⟩, ⟨"e1", "y", "out", "op", "b"⟩] }
    d.toGraph = .ok g ∧ ((d.edges.map DocumentEdge.id).filter (· ≠ "")).Nodup ∧
      g.removeEdge "e1" = { g with edges := [⟨"e1", "y", "out", "op", "b"⟩] } ∧
      d.Clashes 1 0 ∧ ¬ g.Addressable := by
  intro d g
  have h : d.toGraph = .ok g := by cbv
  refine ⟨h, by decide, by decide, ⟨_, _, rfl, rfl, rfl, rfl⟩, fun ha => ?_⟩
  exact absurd ha.nodup (by decide)

end Document

end CircuitGraph
