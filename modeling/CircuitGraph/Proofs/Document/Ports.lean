import CircuitGraph.Document.Import
import CircuitGraph.Proofs.Gadget.Setting
import CircuitGraph.Proofs.Graph.Port

/-!
# Ports of imported edges

The edges of an editor's document may leave out at which port they arrive. Importing gives each of
them a port, and `Document.AssignsPorts` says which: the edges without a handle into an id draw, one
after the other, the declared ports that no handle into that id takes, wherever in the document the
edge with the handle stands; and the first declared port when those are used up. So when there are
as many edges into an id as it has ports, and their handles do not clash, every port gets one edge.

The argument is about one id at a time. Of all the ports that are claimed while edges are imported,
only those claimed at that id count (`claimedAt`), and what is free for it is a list from which each
edge without a handle takes the first port (`openPorts_importEdges`).
-/

namespace CircuitGraph

/-! ## What is imported -/

/-- The edge that an edge of a document becomes, but for the port of one without a handle. -/
structure DocumentEdge.Becomes (nodes : List Node) (e : DocumentEdge) (position : Nat)
    (edge : Edge) : Prop where
  /-- The id is kept; an edge without one is named for its position. -/
  id_eq : edge.id = if e.id = "" then s!"e{position}" else e.id
  /-- The source is kept. -/
  source_eq : edge.source = e.source
  /-- The port at the source is the one that the handle names. -/
  sourcePort_eq : edge.sourcePort = sourcePortOfHandle e.sourceHandle
  /-- The target is kept. -/
  target_eq : edge.target = e.target
  /-- The port at the target is the one that the handle names, if there is a handle. -/
  targetPort_eq : ∀ handle, e.targetHandle = some handle →
    edge.targetPort = portOfHandle (declaredPorts nodes e.target) handle

/-- The edges of a document become edges of the graph, each at its place. -/
theorem forall₂_importEdges (nodes : List Node) (claimed : List (String × String)) (position : Nat)
    (es : List DocumentEdge) :
    List.Forall₂ (fun e edge => e.1.Becomes nodes e.2 edge) (es.zipIdx position)
      (importEdges nodes claimed position es) := by
  induction es generalizing claimed position with
  | nil => exact .nil
  | cons e es ih =>
    rw [List.zipIdx_cons, importEdges]
    refine .cons ⟨rfl, rfl, rfl, rfl, fun handle hhandle => ?_⟩ (ih _ _)
    rw [targetPortOf, hhandle]

/-- The nodes of a list of which every member succeeds, each at its place. -/
theorem forall₂_of_mapM_eq_ok {ε α β : Type} {f : α → Except ε β} {xs : List α} {ys : List β}
    (h : xs.mapM f = .ok ys) : List.Forall₂ (fun x y => f x = .ok y) xs ys := by
  induction xs generalizing ys with
  | nil =>
    rw [List.mapM_nil, pure_eq_ok] at h
    exact h ▸ .nil
  | cons x xs ih =>
    rw [List.mapM_cons, bind_eq_ok] at h
    obtain ⟨y, hy, h⟩ := h
    obtain ⟨rest, hrest, h⟩ := bind_eq_ok.1 h
    obtain rfl := pure_eq_ok.1 h
    exact .cons hy (ih hrest)

/-- A node keeps its id. -/
theorem DocumentNode.id_of_toNode {n : DocumentNode} {node : Node} (h : n.toNode = .ok node) :
    node.id = n.id := by
  unfold toNode at h
  dsimp only at h
  -- whatever the canvas type, the kind is read first and then put under the id
  split at h
  all_goals
    obtain ⟨kind, -, h⟩ := bind_eq_ok.1 h
    exact pure_eq_ok.1 h ▸ rfl

/-- The graph of a document has the nodes of the document and its imported edges. -/
theorem Document.toGraph_eq_ok {d : Document} {g : Graph} (h : d.toGraph = .ok g) :
    d.nodes.mapM DocumentNode.toNode = .ok g.nodes ∧
      g.edges = importEdges g.nodes (claimedByHandles g.nodes d.edges) 0 d.edges := by
  obtain ⟨nodes, hnodes, h⟩ := bind_eq_ok.1 h
  obtain rfl := pure_eq_ok.1 h
  exact ⟨hnodes, rfl⟩

/-! ## The ports at one id -/

/-- The ports that the handles into an id name, in the order of the edges. -/
def handledPorts (nodes : List Node) (id : String) (es : List DocumentEdge) : List String :=
  es.filterMap fun e =>
    if e.target = id then e.targetHandle.map (portOfHandle (declaredPorts nodes id)) else none

/-- The ports of a list that are not among those claimed. -/
def unclaimedPorts (declared claimed : List String) : List String :=
  declared.filter fun port => port ∉ claimed

/-- Whether an edge leads into an id and leaves its port open. -/
def DocumentEdge.isOpenInto (id : String) (e : DocumentEdge) : Bool :=
  e.target == id && e.targetHandle.isNone

/-- The ports that the edges without a handle into an id get, in the order of the edges. -/
def openPorts (id : String) (es : List DocumentEdge) (edges : List Edge) : List String :=
  ((es.zip edges).filter fun pair => pair.1.isOpenInto id).map fun pair => pair.2.targetPort

/-- The ports at which edges arrive at an id, in the order of the edges. -/
def portsInto (id : String) (edges : List Edge) : List String :=
  (edges.filter fun edge => edge.target = id).map Edge.targetPort

/-- A number of ports drawn from a list, and one and the same port when the list is used up. -/
def drawPorts (free : List String) (last : String) (count : Nat) : List String :=
  (free ++ List.replicate count last).take count

/-- The first port is drawn first. -/
theorem drawPorts_succ (free : List String) (last : String) (count : Nat) :
    drawPorts free last (count + 1) = free.headD last :: drawPorts free.tail last count := by
  cases free with
  | nil =>
    rw [drawPorts, List.nil_append, List.take_replicate, Nat.min_self, List.replicate_succ]
    rw [List.tail_nil, drawPorts, List.nil_append, List.take_replicate, Nat.min_self]
    rfl
  | cons port free =>
    rw [drawPorts, List.cons_append, List.take_succ_cons, List.replicate_succ', ← List.append_assoc,
      List.take_append_of_le_length (by rw [List.length_append, List.length_replicate]; omega)]
    rfl

/-- As many ports are drawn as are asked for. -/
theorem length_drawPorts (free : List String) (last : String) (count : Nat) :
    (drawPorts free last count).length = count := by
  rw [drawPorts, List.length_take, List.length_append, List.length_replicate]
  omega

/-- A list with just enough ports is drawn as it is. -/
theorem drawPorts_length (free : List String) (last : String) :
    drawPorts free last free.length = free := List.take_left

/-! ## Claiming ports -/

/-- What is claimed at an id, after one more port has been claimed somewhere. -/
theorem claimedAt_cons (target port : String) (claimed : List (String × String)) (id : String) :
    claimedAt ((target, port) :: claimed) id =
      if target = id then port :: claimedAt claimed id else claimedAt claimed id := by
  unfold claimedAt
  by_cases h : target = id
  · rw [if_pos h]
    exact List.filterMap_cons_some (if_pos h)
  · rw [if_neg h]
    exact List.filterMap_cons_none (if_neg h)

/-- At first exactly the ports that handles name are claimed. -/
theorem claimedAt_claimedByHandles (nodes : List Node) (id : String) (es : List DocumentEdge) :
    claimedAt (claimedByHandles nodes es) id = handledPorts nodes id es := by
  rw [claimedAt, claimedByHandles, handledPorts, List.filterMap_filterMap]
  refine List.filterMap_congr fun e _ => ?_
  cases e.targetHandle with
  | none => simp
  | some handle =>
    by_cases h : e.target = id
    · simp [h]
    · simp [h]

/-- No port is declared twice. -/
theorem nodup_declaredPorts (nodes : List Node) (id : String) :
    (declaredPorts nodes id).Nodup := by
  unfold declaredPorts
  split
  · exact Node.nodup_names_ports _
  · exact List.nodup_nil

/-- A port is free if it is the first one that is not claimed. -/
theorem freePort_eq (declared claimed : List String) :
    freePort declared claimed =
      (unclaimedPorts declared claimed).headD (declared.headD "in") := by
  have hunclaimed : unclaimedPorts declared claimed =
      declared.filter fun port => !claimed.contains port :=
    List.filter_congr fun port _ => by simp
  rw [List.headD_eq_head?_getD, hunclaimed, List.head?_filter, freePort]
  cases declared.find? fun port => !claimed.contains port <;> rfl

/-- Claiming a port takes it from those that are not claimed. -/
theorem unclaimedPorts_cons (declared : List String) (port : String) (claimed : List String) :
    unclaimedPorts declared (port :: claimed) =
      (unclaimedPorts declared claimed).filter (· ≠ port) := by
  rw [unclaimedPorts, unclaimedPorts, List.filter_filter]
  exact List.filter_congr fun p _ => by simp

/-- Claiming a port twice changes nothing. -/
theorem unclaimedPorts_cons_of_mem (declared : List String) {port : String} {claimed : List String}
    (h : port ∈ claimed) :
    unclaimedPorts declared (port :: claimed) = unclaimedPorts declared claimed := by
  rw [unclaimedPorts_cons, List.filter_eq_self]
  intro p hp
  have hp : p ∉ claimed := of_decide_eq_true (List.mem_filter.1 hp).2
  exact decide_eq_true (ne_of_mem_of_not_mem h hp).symm

/-- Claiming the port that is free leaves the others unclaimed. -/
theorem unclaimedPorts_freePort {declared : List String} (claimed : List String)
    (hdeclared : declared.Nodup) :
    unclaimedPorts declared (freePort declared claimed :: claimed) =
      (unclaimedPorts declared claimed).tail := by
  have hnodup : (unclaimedPorts declared claimed).Nodup := hdeclared.filter _
  rw [unclaimedPorts_cons, freePort_eq]
  cases hfree : unclaimedPorts declared claimed with
  | nil => rfl
  | cons port free =>
    rw [hfree, List.nodup_cons] at hnodup
    rw [List.headD_cons, List.filter_cons_of_neg (by simp), List.tail_cons, List.filter_eq_self]
    intro p hp
    exact decide_eq_true (ne_of_mem_of_not_mem hp hnodup.1)

/-- An edge that does not leave its port open at an id claims nothing new there, if what its handle
names has been claimed. -/
theorem unclaimedPorts_of_not_isOpenInto {nodes : List Node} {id : String} {e : DocumentEdge}
    {claimed : List (String × String)} (hopen : e.isOpenInto id = false)
    (hhandled : ∀ port ∈ handledPorts nodes id [e], port ∈ claimedAt claimed id)
    (declared : List String) :
    unclaimedPorts declared (claimedAt ((e.target, targetPortOf nodes claimed e) :: claimed) id) =
      unclaimedPorts declared (claimedAt claimed id) := by
  rw [claimedAt_cons]
  by_cases htarget : e.target = id
  · rw [if_pos htarget]
    cases hhandle : e.targetHandle with
    | none =>
      rw [DocumentEdge.isOpenInto, htarget, hhandle] at hopen
      simp at hopen
    | some handle =>
      have hport : targetPortOf nodes claimed e ∈ claimedAt claimed id := by
        refine hhandled _ ?_
        simp [handledPorts, targetPortOf, htarget, hhandle]
      exact unclaimedPorts_cons_of_mem declared hport
  · rw [if_neg htarget]

/-- The edges without a handle into an id draw the ports that are declared and not claimed, provided
that what the handles into the id name has been claimed. -/
theorem openPorts_importEdges {nodes : List Node} {id : String} {claimed : List (String × String)}
    {position : Nat} {es : List DocumentEdge}
    (hhandled : ∀ port ∈ handledPorts nodes id es, port ∈ claimedAt claimed id) :
    openPorts id es (importEdges nodes claimed position es) =
      drawPorts (unclaimedPorts (declaredPorts nodes id) (claimedAt claimed id))
        ((declaredPorts nodes id).headD "in") (es.countP (DocumentEdge.isOpenInto id)) := by
  induction es generalizing claimed position with
  | nil => rfl
  | cons e es ih =>
    have hcons : handledPorts nodes id (e :: es) =
        handledPorts nodes id [e] ++ handledPorts nodes id es := List.filterMap_append (l := [e])
    rw [hcons] at hhandled
    -- whatever is claimed for this edge, the claims of the handles after it remain
    have hrest : ∀ port ∈ handledPorts nodes id es,
        port ∈ claimedAt ((e.target, targetPortOf nodes claimed e) :: claimed) id := by
      intro port hport
      rw [claimedAt_cons]
      have hmem := hhandled port (List.mem_append_right _ hport)
      split
      · exact List.mem_cons_of_mem _ hmem
      · exact hmem
    rw [importEdges, openPorts, List.zip_cons_cons]
    cases hopen : e.isOpenInto id with
    | false =>
      rw [List.filter_cons_of_neg (by simp [hopen]), List.countP_cons_of_neg (by simp [hopen])]
      rw [← unclaimedPorts_of_not_isOpenInto hopen
        fun port hport => hhandled port (List.mem_append_left _ hport)]
      exact ih hrest
    | true =>
      obtain ⟨htarget, hhandle⟩ : e.target = id ∧ e.targetHandle = none := by
        simpa [DocumentEdge.isOpenInto] using hopen
      have hport : targetPortOf nodes claimed e =
          freePort (declaredPorts nodes id) (claimedAt claimed id) := by
        rw [targetPortOf, hhandle, htarget]
      rw [List.filter_cons_of_pos (by simp [hopen]), List.countP_cons_of_pos (by simp [hopen]),
        List.map_cons, drawPorts_succ, ← freePort_eq, ← hport,
        ← unclaimedPorts_freePort _ (nodup_declaredPorts nodes id), ← hport]
      have hclaimed : claimedAt ((e.target, targetPortOf nodes claimed e) :: claimed) id =
          targetPortOf nodes claimed e :: claimedAt claimed id := by
        rw [claimedAt_cons, if_pos htarget]
      rw [← hclaimed, ← ih hrest]
      rfl

/-- The edges into an id arrive at the ports that its handles name and at those drawn. -/
theorem perm_portsInto (nodes : List Node) (id : String) (claimed : List (String × String))
    (position : Nat) (es : List DocumentEdge) :
    (portsInto id (importEdges nodes claimed position es)).Perm
      (handledPorts nodes id es ++ openPorts id es (importEdges nodes claimed position es)) := by
  induction es generalizing claimed position with
  | nil => exact .nil
  | cons e es ih =>
    rw [importEdges, openPorts, List.zip_cons_cons, portsInto, handledPorts]
    by_cases htarget : e.target = id
    · rw [List.filter_cons_of_pos (by simp [htarget]), List.map_cons]
      cases hhandle : e.targetHandle with
      | none =>
        rw [List.filterMap_cons_none (by simp [hhandle]),
          List.filter_cons_of_pos (by simp [DocumentEdge.isOpenInto, htarget, hhandle])]
        exact ((ih _ _).cons _).trans List.perm_middle.symm
      | some handle =>
        have hport : targetPortOf nodes claimed e =
            portOfHandle (declaredPorts nodes id) handle := by
          rw [targetPortOf, hhandle, htarget]
        rw [List.filterMap_cons_some (by rw [if_pos htarget, hhandle, Option.map_some, ← hport]),
          List.filter_cons_of_neg (by simp [DocumentEdge.isOpenInto, hhandle])]
        exact (ih _ _).cons _
    · rw [List.filter_cons_of_neg (by simp [htarget]),
        List.filterMap_cons_none (by rw [if_neg htarget]),
        List.filter_cons_of_neg (by simp [DocumentEdge.isOpenInto, htarget])]
      exact ih _ _

/-- Distinct declared ports and those that are not claimed beside them are all that is declared. -/
theorem perm_append_unclaimedPorts {declared claimed : List String} (hdeclared : declared.Nodup)
    (hclaimed : claimed.Nodup) (hsub : claimed ⊆ declared) :
    (claimed ++ unclaimedPorts declared claimed).Perm declared := by
  refine (List.perm_ext_iff_of_nodup ?_ hdeclared).2 fun port => ?_
  · refine List.nodup_append.2 ⟨hclaimed, hdeclared.filter _, fun port hport p hp heq => ?_⟩
    have hp : p ∉ claimed := of_decide_eq_true (List.mem_filter.1 hp).2
    exact hp (heq ▸ hport)
  · rw [List.mem_append, unclaimedPorts, List.mem_filter, decide_eq_true_iff]
    constructor
    · rintro (hport | ⟨hport, -⟩)
      · exact hsub hport
      · exact hport
    · intro hport
      by_cases hmem : port ∈ claimed
      · exact .inl hmem
      · exact .inr ⟨hport, hmem⟩

/-! ## Importing a document -/

/-- What importing a document says about the ports of its edges. -/
structure Document.AssignsPorts (d : Document) (g : Graph) : Prop where
  /-- The nodes become nodes, each at its place and under its id. -/
  nodes : List.Forall₂ (fun n node => n.toNode = .ok node ∧ node.id = n.id) d.nodes g.nodes
  /-- The edges become edges, each at its place. -/
  edges : List.Forall₂ (fun e edge => e.1.Becomes g.nodes e.2 edge) d.edges.zipIdx g.edges
  /-- The edges into an id without a handle draw the declared ports that no handle into the id
  names, and the first declared port when these are used up. -/
  open_eq : ∀ id, openPorts id d.edges g.edges =
    drawPorts (unclaimedPorts (declaredPorts g.nodes id) (handledPorts g.nodes id d.edges))
      ((declaredPorts g.nodes id).headD "in") (d.edges.countP (DocumentEdge.isOpenInto id))
  /-- Among the ports to draw no port is twice. -/
  nodup : ∀ id,
    (unclaimedPorts (declaredPorts g.nodes id) (handledPorts g.nodes id d.edges)).Nodup
  /-- If the handles into an id name distinct declared ports and there are as many edges into it as
  it has ports, each port gets one edge. -/
  complete : ∀ id, (handledPorts g.nodes id d.edges).Nodup →
    handledPorts g.nodes id d.edges ⊆ declaredPorts g.nodes id →
    g.edges.countP (fun edge => edge.target = id) = (declaredPorts g.nodes id).length →
    ∀ port ∈ declaredPorts g.nodes id,
      g.edges.countP (fun edge => edge.target = id ∧ edge.targetPort = port) = 1

namespace Document

variable {d : Document} {g : Graph}

/-- The edges of an imported document that leave their port open at an id. -/
theorem openPorts_eq (h : d.toGraph = .ok g) (id : String) : openPorts id d.edges g.edges =
    drawPorts (unclaimedPorts (declaredPorts g.nodes id) (handledPorts g.nodes id d.edges))
      ((declaredPorts g.nodes id).headD "in") (d.edges.countP (DocumentEdge.isOpenInto id)) := by
  have hclaimed := claimedAt_claimedByHandles g.nodes id d.edges
  rw [(toGraph_eq_ok h).2, openPorts_importEdges fun port hport => hclaimed ▸ hport, hclaimed]

/-- If the handles do not clash and the number of edges is right, the edges into an id arrive at its
declared ports. -/
theorem perm_portsInto_declaredPorts (h : d.toGraph = .ok g) {id : String}
    (hnodup : (handledPorts g.nodes id d.edges).Nodup)
    (hsub : handledPorts g.nodes id d.edges ⊆ declaredPorts g.nodes id)
    (hcount : g.edges.countP (fun edge => edge.target = id) = (declaredPorts g.nodes id).length) :
    (portsInto id g.edges).Perm (declaredPorts g.nodes id) := by
  have hall := perm_append_unclaimedPorts (nodup_declaredPorts g.nodes id) hnodup hsub
  have hinto : (portsInto id g.edges).Perm
      (handledPorts g.nodes id d.edges ++ openPorts id d.edges g.edges) := by
    rw [(toGraph_eq_ok h).2]
    exact perm_portsInto _ _ _ _ _
  have hlength : (openPorts id d.edges g.edges).length =
      (unclaimedPorts (declaredPorts g.nodes id) (handledPorts g.nodes id d.edges)).length := by
    have hinto := hinto.length_eq
    have hall := hall.length_eq
    rw [List.length_append] at hinto hall
    rw [portsInto, List.length_map, ← List.countP_eq_length_filter] at hinto
    omega
  have hopen := openPorts_eq h id
  rw [hopen, length_drawPorts] at hlength
  rw [hlength, drawPorts_length] at hopen
  rw [hopen] at hinto
  exact hinto.trans hall

/-- **Ports of imported edges.** Whenever a document can be imported, its edges are given their
ports as `Document.AssignsPorts` says. -/
theorem assignsPorts_of_toGraph (h : d.toGraph = .ok g) : d.AssignsPorts g := by
  obtain ⟨hnodes, hedges⟩ := toGraph_eq_ok h
  constructor
  · exact (forall₂_of_mapM_eq_ok hnodes).imp fun n node hn => ⟨hn, DocumentNode.id_of_toNode hn⟩
  · rw [hedges]
    exact forall₂_importEdges _ _ _ _
  · exact openPorts_eq h
  · exact fun id => (nodup_declaredPorts g.nodes id).filter _
  · intro id hnodup hsub hcount port hport
    have hperm := perm_portsInto_declaredPorts h hnodup hsub hcount
    calc g.edges.countP (fun edge => edge.target = id ∧ edge.targetPort = port)
        = (portsInto id g.edges).count port := by
          rw [portsInto, List.count, List.countP_map, List.countP_filter]
          exact List.countP_congr fun edge _ => by simp [and_comm]
      _ = (declaredPorts g.nodes id).count port := hperm.count_eq port
      _ = 1 := List.count_eq_one_of_mem (nodup_declaredPorts g.nodes id) hport

/-- Of two edges into an equality the second has a handle for the first port, so that the first one
gets the second port. -/
theorem assignsPorts_equals :
    let d : Document :=
      { name := none
        nodes := [⟨"x", "input", { label := "X" }⟩, ⟨"y", "input", { label := "Y" }⟩,
          ⟨"op", "operation", { operation := "equals" }⟩]
        edges := [⟨"1", "x", "op", none, none⟩, ⟨"2", "y", "op", none, "input-a"⟩]
        createdAt := none }
    let g : Graph :=
      { nodes := [⟨"x", .input .secret "X"⟩, ⟨"y", .input .secret "Y"⟩, ⟨"op", .operation .eq⟩]
        edges := [⟨"1", "x", "out", "op", "b"⟩, ⟨"2", "y", "out", "op", "a"⟩] }
    d.toGraph = .ok g ∧ d.AssignsPorts g := by
  intro d g
  have h : d.toGraph = .ok g := by cbv
  exact ⟨h, assignsPorts_of_toGraph h⟩

end Document

end CircuitGraph
