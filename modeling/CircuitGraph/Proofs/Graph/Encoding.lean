import CircuitGraph.Graph.Encoding
import CircuitGraph.Proofs.Json.Pretty

/-!
# Saving and loading a graph

Reading the text of a graph gives the graph back (`Graph.parse?_pretty`): all nodes and edges in
order, with their labels, ports and parameters, whatever characters these are made of.

The text is read back as the value that was written, since that value is made of texts
(`Graph.isTextual_toJson`). What is left is that decoding a value undoes encoding it, for
parameters, nodes, edges and graphs, each with a lemma of its own.
-/

namespace CircuitGraph

open CircuitGraph.Json

/-! ## Lists and records -/

/-- Decoding one by one what has been encoded gives the list back. -/
theorem mapM_map_eq_some {α β : Type} {encode : α → β} {decode : β → Option α} (l : List α)
    (h : ∀ x ∈ l, decode (encode x) = some x) : (l.map encode).mapM decode = some l := by
  induction l with
  | nil => rfl
  | cons x l ih =>
    rw [List.map_cons, List.mapM_cons, h x List.mem_cons_self,
      ih fun y hy => h y (List.mem_cons_of_mem _ hy)]
    rfl

/-- An array of what has been encoded is decoded to the list. -/
theorem Json.Value.list?_map {α : Type} {encode : α → Value} {decode : Value → Option α}
    (l : List α) (h : ∀ x ∈ l, decode (encode x) = some x) :
    Value.list? decode (.array (l.map encode)) = some l :=
  mapM_map_eq_some l h

namespace Params

/-- A name above all others is put at the end. -/
theorem insertEntry_of_lt {name text : String} {entries : List (String × String)}
    (h : ∀ e ∈ entries, e.1 < name) :
    insertEntry name text entries = entries ++ [(name, text)] := by
  induction entries with
  | nil => rfl
  | cons e entries ih =>
    rw [List.forall_mem_cons] at h
    rw [insertEntry, if_neg (String.lt_asymm h.1), if_pos h.1, ih h.2, List.cons_append]

/-- Inserting ascending names one after the other puts them behind those that are there. -/
theorem entries_foldl_insert (p : Params) (entries : List (String × String))
    (h : (p.entries ++ entries).Pairwise fun a b => a.1 < b.1) :
    (entries.foldl (fun p (name, text) => p.insert name text) p).entries =
      p.entries ++ entries := by
  induction entries generalizing p with
  | nil => exact (List.append_nil _).symm
  | cons e entries ih =>
    have hlast : (p.insert e.1 e.2).entries = p.entries ++ [e] :=
      insertEntry_of_lt fun other hother => (List.pairwise_append.1 h).2.2 other hother e
        List.mem_cons_self
    have hrest : ((p.insert e.1 e.2).entries ++ entries).Pairwise fun a b => a.1 < b.1 := by
      rw [hlast, List.append_assoc]
      exact h
    rw [List.foldl_cons, ih _ hrest, hlast, List.append_assoc]
    rfl

/-- The parameters of their own entries. -/
theorem ofList_entries (p : Params) : ofList p.entries = p := by
  have hentries : (ofList p.entries).entries = p.entries :=
    entries_foldl_insert empty p.entries p.ascending
  generalize ofList p.entries = q at hentries
  cases p
  cases q
  cases hentries
  rfl

/-- Decoding parameters undoes encoding them. -/
theorem ofJson?_toJson (p : Params) : ofJson? p.toJson = some p := by
  have hentries : ((p.entries.map fun e => (e.1, Value.ofString e.2)).map
      fun m => (some m.1, m.2)).mapM entryOfJson? = some p.entries := by
    rw [List.map_map]
    exact mapM_map_eq_some p.entries fun _ _ => rfl
  rw [toJson, Value.ofMembers, ofJson?, hentries, Option.map_some, ofList_entries]

end Params

/-! ## Nodes and edges -/

/-- Decoding an edge undoes encoding it. -/
theorem Edge.ofJson?_toJson (e : Edge) : Edge.ofJson? e.toJson = some e := rfl

/-- Parameters can be taken over in full wherever an object may stand. -/
theorem Params.isReadable_toJson (p : Params) (depth : Nat) :
    p.toJson.isReadable (depth + 1) = true := by
  rw [toJson, Value.ofMembers, Value.isReadable]
  induction p.entries with
  | nil => rfl
  | cons e entries ih =>
    rw [List.map_cons, List.map_cons, Value.membersAreReadable, ih]
    rfl

/-- Decoding a node undoes encoding it. -/
theorem Node.ofJson?_toJson (node : Node) : Node.ofJson? node.toJson = some node := by
  obtain ⟨id, kind⟩ := node
  cases kind with
  | input visibility label => cases visibility <;> rfl
  | operation operator => cases operator <;> rfl
  | gadget gadget params =>
    have hreadable : Value.membersAreReadable nodeNesting
        [(some "id", .ofString id), (some "kind", .ofString "AdvancedOperation"),
         (some "operator", .ofString gadget.name), (some "params", params.toJson)] = true := by
      have hparams : params.toJson.isReadable nodeNesting = true := params.isReadable_toJson 123
      simp [Value.membersAreReadable, Value.isReadable, Value.ofString, hparams]
    have hgadget : Gadget.ofName? gadget.name = some gadget := Gadget.ofName?_name gadget
    refine (if_pos hreadable).trans ?_
    change ((Gadget.ofName? gadget.name).bind fun gadget =>
      (Params.ofJson? params.toJson).bind fun params => some (NodeKind.gadget gadget params)).bind
        (fun kind => some (Node.mk id kind)) = _
    rw [hgadget, Option.bind_some, Params.ofJson?_toJson]
    rfl
  | output type label => cases type <;> rfl

/-- Decoding a graph undoes encoding it. -/
theorem Graph.ofJson?_toJson (g : Graph) : Graph.ofJson? g.toJson = some g := by
  have hnodes := Value.list?_map g.nodes fun node _ => node.ofJson?_toJson
  have hedges := Value.list?_map g.edges fun e _ => e.ofJson?_toJson
  change ((Value.list? Node.ofJson? (.array (g.nodes.map Node.toJson))).bind fun nodes =>
    (Value.list? Edge.ofJson? (.array (g.edges.map Edge.toJson))).bind fun edges =>
      some (Graph.mk nodes edges)) = some g
  rw [hnodes, hedges]
  rfl

/-! ## Texts -/

/-- Parameters are made of texts. -/
theorem Params.isTextual_toJson (p : Params) : p.toJson.isTextual = true := by
  refine Value.membersAreTextual_map _ fun m hm => ?_
  obtain ⟨e, -, rfl⟩ := List.mem_map.1 hm
  rfl

/-- A node is made of texts. -/
theorem Node.isTextual_toJson (node : Node) : node.toJson.isTextual = true := by
  obtain ⟨id, kind⟩ := node
  cases kind with
  | input visibility label => rfl
  | operation operator => rfl
  | gadget gadget params =>
    have hparams : params.toJson.isTextual = true := params.isTextual_toJson
    refine Value.membersAreTextual_map _ fun m hm => ?_
    simp only [NodeKind.members, List.mem_cons, List.not_mem_nil, or_false] at hm
    rcases hm with rfl | rfl | rfl | rfl
    · rfl
    · rfl
    · rfl
    · exact hparams
  | output type label => rfl

/-- A graph is made of texts. -/
theorem Graph.isTextual_toJson (g : Graph) : g.toJson.isTextual = true := by
  have hnodes : (Value.array (g.nodes.map Node.toJson)).isTextual = true :=
    Value.areTextual_map g.nodes Node.isTextual_toJson
  have hedges : (Value.array (g.edges.map Edge.toJson)).isTextual = true :=
    Value.areTextual_map g.edges fun _ => rfl
  refine Value.membersAreTextual_map _ fun m hm => ?_
  simp only [List.mem_cons, List.not_mem_nil, or_false] at hm
  rcases hm with rfl | rfl
  · exact hnodes
  · exact hedges

/-- Reading the text of a graph gives the graph back. -/
theorem Graph.parse?_pretty (g : Graph) : Graph.parse? g.pretty = some g := by
  rw [parse?, pretty, Value.parse_pretty g.isTextual_toJson]
  exact g.ofJson?_toJson

end CircuitGraph
