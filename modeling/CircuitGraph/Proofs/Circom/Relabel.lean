import CircuitGraph.Proofs.Circom.Allocation
import CircuitGraph.Proofs.Circom.Rename
import CircuitGraph.Proofs.Graph.Image

/-!
# Emission under other ids and labels

Two emissions of the same nodes under other ids and labels ask for different names and are given
different ones, with numbers where names collide in the one and not in the other. But they ask in
the same order, and they never write a name that they have not been given. So when `f` takes each
name that is given out in the one emission to its counterpart in the other (`Renames`), the other
emission writes the same fragments with the names renamed by `f` (`Emits.rename`).
-/

namespace CircuitGraph.Circom

/-! ## Counterparts -/

/-- A renaming takes what is given out to its counterparts, and derived names to derived ones. -/
structure Renames (f : String → String) (as as' : List Allocation) : Prop where
  /-- Each name is taken to its counterpart. -/
  eq : as' = as.map fun a => ⟨f a.name, a.suffixes⟩
  /-- A derived name is taken to the one that is derived from the counterpart. -/
  derived : ∀ a ∈ as, ∀ suffix ∈ a.suffixes, f (a.name ++ suffix) = f a.name ++ suffix

namespace Renames

variable {f : String → String} {as as' bs bs' : List Allocation}

/-- All names of a family are taken to those of its counterpart. -/
theorem map_names (h : Renames f as as') {a : Allocation} (ha : a ∈ as) :
    a.names.map f = family a.suffixes (f a.name) := by
  rw [Allocation.names, family, family, List.map_cons, List.map_map]
  exact congrArg _ (List.map_congr_left fun suffix hsuffix => h.derived a ha suffix hsuffix)

/-- The names that are given out are taken to those that are given out in their place. -/
theorem map_flatMap_names (h : Renames f as as') :
    (as.flatMap Allocation.names).map f = as'.flatMap Allocation.names := by
  rw [h.eq, List.map_flatMap, List.flatMap_map]
  exact List.flatMap_congr fun a ha => h.map_names ha

/-- The first name is taken to the first counterpart. -/
theorem name_eq {a a' : Allocation} (h : Renames f (a :: as) (a' :: as')) : a'.name = f a.name :=
  congrArg Allocation.name (List.cons.inj h.eq).1

/-- Behind the first name the others are taken to their counterparts. -/
theorem tail {a a' : Allocation} (h : Renames f (a :: as) (a' :: as')) : Renames f as as' where
  eq := (List.cons.inj h.eq).2
  derived b hb := h.derived b (List.mem_cons_of_mem _ hb)

/-- What is given out first and what is given out later has counterparts. -/
theorem of_append (h : Renames f (as ++ bs) (as' ++ bs')) (hlength : as'.length = as.length) :
    Renames f as as' ∧ Renames f bs bs' := by
  have heq := h.eq
  rw [List.map_append] at heq
  obtain ⟨ha, hb⟩ := List.append_inj heq (by rw [hlength, List.length_map])
  exact ⟨⟨ha, fun a hmem => h.derived a (List.mem_append_left _ hmem)⟩,
    ⟨hb, fun b hmem => h.derived b (List.mem_append_right _ hmem)⟩⟩

end Renames

/-- The renaming that takes the names of one family to those of another, by their suffixes, and all
other names where `f` takes them. -/
def redirect (a a' : Allocation) (f : String → String) (n : String) : String :=
  if n ∈ a.names then a'.name ++ String.ofList (n.toList.drop a.name.toList.length) else f n

/-- A name of the family is taken to the one with the same suffix. -/
theorem redirect_append (a a' : Allocation) (f : String → String) {suffix : String}
    (h : suffix ∈ "" :: a.suffixes) : redirect a a' f (a.name ++ suffix) = a'.name ++ suffix := by
  have hmem : a.name ++ suffix ∈ a.names := by
    rw [Allocation.names, family_eq_map]
    exact List.mem_map_of_mem h
  rw [redirect, if_pos hmem, String.toList_append, List.drop_left, String.ofList_toList]

/-- The name of the family is taken to that of the other one. -/
theorem redirect_name (a a' : Allocation) (f : String → String) :
    redirect a a' f a.name = a'.name := by
  have hempty := redirect_append a a' f List.mem_cons_self
  rwa [String.append_empty, String.append_empty] at hempty

/-- There is a renaming when the same suffixes were asked for. -/
theorem exists_renames {as as' : List Allocation}
    (hsuffixes : as'.map Allocation.suffixes = as.map Allocation.suffixes)
    (hnodup : (as.flatMap Allocation.names).Nodup) : ∃ f, Renames f as as' := by
  induction as generalizing as' with
  | nil =>
    rw [List.map_nil, List.map_eq_nil_iff] at hsuffixes
    exact ⟨id, hsuffixes, nofun⟩
  | cons a as ih =>
    cases as' with
    | nil => cases hsuffixes
    | cons a' as' =>
      obtain ⟨hfirst, hrest⟩ := List.cons.inj hsuffixes
      rw [List.flatMap_cons, List.nodup_append'] at hnodup
      obtain ⟨-, hnodup, hdisjoint⟩ := hnodup
      obtain ⟨f, hf⟩ := ih hrest hnodup
      -- the names of the first family are redirected, the others go where they went before
      have hold : ∀ b ∈ as, ∀ n ∈ b.names, redirect a a' f n = f n := fun b hb n hn =>
        if_neg fun hmem => hdisjoint hmem (List.mem_flatMap.2 ⟨b, hb, hn⟩)
      refine ⟨redirect a a' f, ?_, ?_⟩
      · rw [List.map_cons, redirect_name, ← hfirst, hf.eq]
        refine congrArg _ (List.map_congr_left fun b hb => ?_)
        rw [hold b hb b.name List.mem_cons_self]
      · intro b hb suffix hsuffix
        rcases List.mem_cons.1 hb with rfl | hb
        · rw [redirect_append b a' f (List.mem_cons_of_mem _ hsuffix), redirect_name]
        · rw [hold b hb b.name List.mem_cons_self,
            hold b hb _ (List.mem_cons_of_mem _ (List.mem_map_of_mem hsuffix)),
            hf.derived b hb suffix hsuffix]

/-! ## Fragments -/

namespace Fragment

variable {f : String → String} {name : String}

/-- An input under another name. -/
theorem rename_input (visibility : Visibility) :
    (input visibility name).rename f = input visibility (f name) := by
  cases visibility <;> rfl

/-- An output under another name. -/
theorem rename_output (value : Ref) :
    (output name value).rename f = output (f name) (value.rename f) := rfl

/-- An operation under other names. -/
theorem rename_operation (bits : Nat) (kind : String) (operator : Operator) (a b : Ref) :
    (operation bits ⟨name, kind⟩ name operator a b).rename f =
      operation bits ⟨f name, kind⟩ (f name) operator (a.rename f) (b.rename f) := by
  cases operator <;> rfl

/-- A range check under other names. -/
theorem rename_rangeCheck (bits : Nat) (kind : String) (min max : Nat) (value : Ref)
    (h : ∀ suffix ∈ rangeSuffixes, f (name ++ suffix) = f name ++ suffix) :
    (rangeCheck bits ⟨name, kind⟩ name min max value).rename f =
      rangeCheck bits ⟨f name, kind⟩ (f name) min max (value.rename f) := by
  simp only [rangeSuffixes, List.forall_mem_cons] at h
  rw [rangeCheck, rangeCheck, rangeStatements, rangeStatements, ← h.1, ← h.2.1]
  rfl

/-- A hash under other names. -/
theorem rename_hash (kind : String) (values : List Ref) :
    (hash ⟨name, kind⟩ name values).rename f =
      hash ⟨f name, kind⟩ (f name) (values.map (Ref.rename f)) := by
  have hstatements : (hashStatements name values).map (Statement.rename f) =
      hashStatements (f name) (values.map (Ref.rename f)) := by
    rw [hashStatements, hashStatements, List.map_cons, List.map_map, List.zipIdx_map,
      List.map_map, List.length_map]
    rfl
  have hblock : (Block.ofStatements (some ⟨name, kind⟩) (hashStatements name values)).rename f =
      Block.ofStatements (some ⟨f name, kind⟩)
        (hashStatements (f name) (values.map (Ref.rename f))) := by
    rw [← hstatements, Block.ofStatements, Block.ofStatements, Block.rename, List.map_map,
      List.map_map]
    rfl
  exact congrArg (fun b => Fragment.mk [.poseidon] [] [] [] [b] (some (outputOf (f name)))) hblock

/-- A choice under other names. -/
theorem rename_conditional (kind : String) (condition : Nat) (selector chosen otherwise : Ref)
    (h : ∀ suffix ∈ conditionalSuffixes, f (name ++ suffix) = f name ++ suffix) :
    (conditional ⟨name, kind⟩ name condition selector chosen otherwise).rename f =
      conditional ⟨f name, kind⟩ (f name) condition (selector.rename f) (chosen.rename f)
        (otherwise.rename f) := by
  simp only [conditionalSuffixes, List.forall_mem_cons] at h
  rw [conditional, conditional, conditionalStatements, conditionalStatements, ← h.1]
  rfl

/-- A Merkle proof under other names. -/
theorem rename_merkleProof (kind elements indices : String) (depth : Nat) (leaf root : Ref)
    (h : ∀ suffix ∈ merkleSuffixes, f (name ++ suffix) = f name ++ suffix) :
    (merkleProof ⟨name, kind⟩ name elements indices depth leaf root).rename f =
      merkleProof ⟨f name, kind⟩ (f name) (f elements) (f indices) depth (leaf.rename f)
        (root.rename f) := by
  simp only [merkleSuffixes, List.forall_mem_cons] at h
  rw [merkleProof, merkleProof, merkleCommands, merkleCommands, ← h.1, ← h.2.1, ← h.2.2.1]
  rfl

/-- A remainder under other names. -/
theorem rename_modulo (bits : Nat) (kind : String) (modulus : Nat) (value : Ref)
    (h : ∀ suffix ∈ moduloSuffixes, f (name ++ suffix) = f name ++ suffix) :
    (modulo bits ⟨name, kind⟩ name modulus value).rename f =
      modulo bits ⟨f name, kind⟩ (f name) modulus (value.rename f) := by
  simp only [moduloSuffixes, List.forall_mem_cons] at h
  rw [modulo, modulo, moduloStatements, moduloStatements, ← h.1, ← h.2.1, ← h.2.2.1]
  rfl

end Fragment

/-! ## Gates -/

namespace Gate

variable {f : String → String}

/-- A gate with other names in its operands, and another label where it has one. -/
def rename (f : String → String) (label : String) : Gate → Gate
  | input visibility _ => input visibility label
  | output _ value => output label (value.rename f)
  | operation operator a b => operation operator (a.rename f) (b.rename f)
  | rangeCheck min max value => rangeCheck min max (value.rename f)
  | hash values => hash (values.map (Ref.rename f))
  | conditional condition selector chosen otherwise =>
    conditional condition (selector.rename f) (chosen.rename f) (otherwise.rename f)
  | merkleProof depth leaf root => merkleProof depth (leaf.rename f) (root.rename f)
  | modulo modulus value => modulo modulus (value.rename f)

/-- A renamed gate has the renamed fragment, when the names that it is given are the counterparts
of those that the gate is given. -/
theorem fragment_rename (config : Config) {gate : Gate} {label : String} {node node' : Node}
    {t t' : NameTable} (hdescribe : node'.describe = node.describe)
    (h : Renames f (t.serve (gate.requests node.id)).1
      (t'.serve ((gate.rename f label).requests node'.id)).1) :
    ((gate.rename f label).fragment config node' t').1 =
      (gate.fragment config node t).1.rename f := by
  cases gate with
  | input visibility l =>
    refine Eq.trans ?_ (Fragment.rename_input visibility).symm
    exact congrArg (Fragment.input visibility) h.name_eq
  | output l value =>
    refine Eq.trans ?_ (Fragment.rename_output value).symm
    exact congrArg (fun n => Fragment.output n (value.rename f)) h.name_eq
  | operation operator a b =>
    refine Eq.trans ?_ (Fragment.rename_operation config.comparatorBits _ operator a b).symm
    exact congrArg₂ (fun n kind => Fragment.operation config.comparatorBits ⟨n, kind⟩ n operator
      (a.rename f) (b.rename f)) h.name_eq hdescribe
  | rangeCheck min max value =>
    refine Eq.trans ?_ (Fragment.rename_rangeCheck config.comparatorBits _ min max value
      (h.derived _ List.mem_cons_self)).symm
    exact congrArg₂ (fun n kind => Fragment.rangeCheck config.comparatorBits ⟨n, kind⟩ n min max
      (value.rename f)) h.name_eq hdescribe
  | hash values =>
    refine Eq.trans ?_ (Fragment.rename_hash _ values).symm
    exact congrArg₂ (fun n kind => Fragment.hash ⟨n, kind⟩ n (values.map (Ref.rename f))) h.name_eq
      hdescribe
  | conditional condition selector chosen otherwise =>
    refine Eq.trans ?_ (Fragment.rename_conditional _ condition selector chosen otherwise
      (h.derived _ List.mem_cons_self)).symm
    exact congrArg₂ (fun n kind => Fragment.conditional ⟨n, kind⟩ n condition (selector.rename f)
      (chosen.rename f) (otherwise.rename f)) h.name_eq hdescribe
  | merkleProof depth leaf root =>
    refine Eq.trans ?_ (Fragment.rename_merkleProof _ _ _ depth leaf root
      (h.derived _ List.mem_cons_self)).symm
    -- three names are given out: that of the gate and those of the two arrays
    have helements := h.tail.name_eq
    have hindices := h.tail.tail.name_eq
    refine Eq.trans (congrArg₂ (fun n kind => Fragment.merkleProof ⟨n, kind⟩ n _ _ depth
      (leaf.rename f) (root.rename f)) h.name_eq hdescribe) ?_
    exact congrArg₂ (fun elements indices => Fragment.merkleProof _ _ elements indices depth
      (leaf.rename f) (root.rename f)) helements hindices
  | modulo modulus value =>
    refine Eq.trans ?_ (Fragment.rename_modulo config.comparatorBits _ modulus value
      (h.derived _ List.mem_cons_self)).symm
    exact congrArg₂ (fun n kind => Fragment.modulo config.comparatorBits ⟨n, kind⟩ n modulus
      (value.rename f)) h.name_eq hdescribe

/-- An operand is renamed when the value at its port is. -/
theorem operand_rename {node node' : Node} {value? value?' : String → Option Ref}
    (hvalue : ∀ port, value?' port = (value? port).map (Ref.rename f)) {port : String} {r : Ref}
    (h : operand node value? port = .ok r) : operand node' value?' port = .ok (r.rename f) := by
  rw [operand, hvalue, operand_eq_ok h]
  rfl

/-- The operands of a hash are renamed when those at its ports are. -/
theorem hashOperands_rename {operand operand' : String → Except EmitError Ref}
    (hoperand : ∀ port r, operand port = .ok r → operand' port = .ok (r.rename f))
    {count position : Nat} {values : List Ref}
    (h : hashOperands operand count position = .ok values) :
    hashOperands operand' count position = .ok (values.map (Ref.rename f)) := by
  induction count generalizing position values with
  | zero =>
    cases pure_eq_ok.1 h
    rfl
  | succ count ih =>
    obtain ⟨r, hr, h⟩ := bind_eq_ok.1 h
    obtain ⟨rest, hrest, h⟩ := bind_eq_ok.1 h
    cases pure_eq_ok.1 h
    exact bind_eq_ok.2 ⟨_, hoperand _ r hr, bind_eq_ok.2 ⟨_, ih hrest, rfl⟩⟩

/-- The gate of a gadget is renamed when the operands at its ports are. -/
theorem ofSetting_rename {operand operand' : String → Except EmitError Ref}
    (hoperand : ∀ port r, operand port = .ok r → operand' port = .ok (r.rename f))
    {setting : Setting} {gate : Gate} (h : ofSetting operand setting = .ok gate) (label : String) :
    ofSetting operand' setting = .ok (gate.rename f label) := by
  cases setting with
  | rangeCheck min max =>
    obtain ⟨r, hr, h⟩ := bind_eq_ok.1 h
    cases pure_eq_ok.1 h
    exact bind_eq_ok.2 ⟨_, hoperand _ r hr, rfl⟩
  | hash inputs =>
    obtain ⟨values, hvalues, h⟩ := bind_eq_ok.1 h
    cases pure_eq_ok.1 h
    exact bind_eq_ok.2 ⟨_, hashOperands_rename hoperand hvalues, rfl⟩
  | conditional condition =>
    obtain ⟨c, hcond, h⟩ := bind_eq_ok.1 h
    obtain ⟨t, hthen, h⟩ := bind_eq_ok.1 h
    obtain ⟨e, helse, h⟩ := bind_eq_ok.1 h
    cases pure_eq_ok.1 h
    exact bind_eq_ok.2 ⟨_, hoperand _ c hcond,
      bind_eq_ok.2 ⟨_, hoperand _ t hthen, bind_eq_ok.2 ⟨_, hoperand _ e helse, rfl⟩⟩⟩
  | merkleProof depth =>
    obtain ⟨l, hleaf, h⟩ := bind_eq_ok.1 h
    obtain ⟨r, hroot, h⟩ := bind_eq_ok.1 h
    cases pure_eq_ok.1 h
    exact bind_eq_ok.2 ⟨_, hoperand _ l hleaf, bind_eq_ok.2 ⟨_, hoperand _ r hroot, rfl⟩⟩
  | modulo modulus =>
    obtain ⟨r, hr, h⟩ := bind_eq_ok.1 h
    cases pure_eq_ok.1 h
    exact bind_eq_ok.2 ⟨_, hoperand _ r hr, rfl⟩

/-- The gate of a node with another label is renamed when the values at the ports are. -/
theorem ofNode_rename {config : Config} {node node' : Node} {value? value?' : String → Option Ref}
    {label : String} (hkind : node'.kind = node.kind.withLabel label)
    (hvalue : ∀ port, value?' port = (value? port).map (Ref.rename f)) {gate : Gate}
    (h : ofNode config node value? = .ok gate) :
    ofNode config node' value?' = .ok (gate.rename f label) := by
  have hoperand : ∀ port r, operand node value? port = .ok r →
      operand node' value?' port = .ok (r.rename f) := fun _ _ => operand_rename hvalue
  unfold ofNode at h ⊢
  dsimp only at h ⊢
  rw [hkind]
  split at h
  · rename_i hnode
    cases h
    rw [hnode]
    rfl
  · rename_i hnode
    obtain ⟨a, ha, h⟩ := bind_eq_ok.1 h
    obtain ⟨b, hb, h⟩ := bind_eq_ok.1 h
    cases pure_eq_ok.1 h
    rw [hnode]
    exact bind_eq_ok.2 ⟨_, hoperand _ a ha, bind_eq_ok.2 ⟨_, hoperand _ b hb, rfl⟩⟩
  · rename_i gadget params hnode
    rw [hnode]
    dsimp only [NodeKind.withLabel]
    cases hresolve : gadget.resolve config params with
    | ok setting =>
      rw [hresolve] at h
      exact ofSetting_rename hoperand h label
    | error e =>
      rw [hresolve] at h
      cases h
  · rename_i hnode
    obtain ⟨value, hvalue, h⟩ := bind_eq_ok.1 h
    cases pure_eq_ok.1 h
    rw [hnode]
    exact bind_eq_ok.2 ⟨_, hoperand _ value hvalue, rfl⟩

end Gate

/-! ## Emissions -/

/-- A vertex and its counterpart are emitted alike: they differ in ids and labels only, and the
wires that arrive at them come from the same positions to the same ports. -/
structure AlikeAt (φ : Vertex → Vertex) (index index' : Index) (v : Vertex) : Prop where
  /-- The nodes differ in ids and labels only. -/
  unlabelled_eq : (φ v).node.kind.unlabelled = v.node.kind.unlabelled
  /-- The position stays. -/
  position_eq : (φ v).position = v.position
  /-- The wires that arrive come from the same positions to the same ports. -/
  incoming_eq : (index'.incoming v.position).map (fun w => (w.edge.targetPort, w.source.position)) =
    (index.incoming v.position).map fun w => (w.edge.targetPort, w.source.position)

variable {f : String → String} {φ : Vertex → Vertex} {config : Config} {index index' : Index}

/-- A renamed result is found where the result is. -/
theorem Emission.lookup_rename (results : List (Nat × Ref)) (p : Nat) :
    (results.map fun e => (e.1, e.2.rename f)).lookup p =
      (results.lookup p).map (Ref.rename f) := by
  induction results with
  | nil => rfl
  | cons e results ih =>
    obtain ⟨q, r⟩ := e
    rw [List.map_cons, List.lookup_cons, List.lookup_cons, ih]
    cases p == q <;> rfl

/-- The value at a port is renamed when the results are. -/
theorem AlikeAt.value?_rename {v : Vertex} (h : AlikeAt φ index index' v)
    (results : List (Nat × Ref)) (port : String) :
    Emission.value? index' (results.map fun e => (e.1, e.2.rename f)) (φ v) port =
      (Emission.value? index results v port).map (Ref.rename f) := by
  have hvalue : ∀ (index : Index) (results : List (Nat × Ref)) (v : Vertex),
      Emission.value? index results v port =
        ((index.incoming v.position).map fun w =>
          (w.edge.targetPort, w.source.position)).findSome? fun k =>
            if k.1 = port then results.lookup k.2 else none := by
    intro index results v
    rw [List.findSome?_map]
    rfl
  rw [hvalue, hvalue, h.position_eq, h.incoming_eq, List.map_findSome?]
  refine congrArg (fun g => List.findSome? g _) (funext fun k => ?_)
  rw [Emission.lookup_rename, Function.comp_apply]
  split <;> rfl

/-- A node with another label asks for names with the same suffixes. -/
theorem map_suffixes_requests {node node' : Node}
    (h : node'.kind.unlabelled = node.kind.unlabelled) :
    node'.requests.map Request.suffixes = node.requests.map Request.suffixes := by
  obtain ⟨label, hlabel⟩ := NodeKind.exists_eq_withLabel h
  unfold Node.requests
  rw [hlabel]
  cases node.kind <;> rfl

/-- Counterparts are given names with the same suffixes. -/
theorem map_suffixes_allocationsOf (config : Config) {vs : List Vertex}
    (h : ∀ v ∈ vs, (φ v).node.kind.unlabelled = v.node.kind.unlabelled) :
    (allocationsOf config (vs.map φ)).map Allocation.suffixes =
      (allocationsOf config vs).map Allocation.suffixes := by
  rw [allocationsOf, allocationsOf, NameTable.map_suffixes_serve, NameTable.map_suffixes_serve,
    requestsOf, requestsOf, List.flatMap_map, List.map_flatMap, List.map_flatMap]
  exact List.flatMap_congr fun v hv => map_suffixes_requests (h v hv)

/-- Counterparts are emitted as the renamed fragments, and their results are the renamed ones. -/
theorem Emits.rename {vs : List Vertex} {s s' : Emission} (hs : Emits config index vs s)
    (hs' : Emits config index' (vs.map φ) s') (halike : ∀ v ∈ vs, AlikeAt φ index index' v)
    (hf : Renames f (allocationsOf config vs) (allocationsOf config (vs.map φ))) :
    s'.fragments = s.fragments.map (Fragment.rename f) ∧
      s'.results = s.results.map fun e => (e.1, e.2.rename f) := by
  induction hs generalizing s' with
  | initial =>
    rw [hs'.eq_initial]
    exact ⟨rfl, rfl⟩
  | @step vs s v gate hs hgate ih =>
    rw [List.map_append, List.map_singleton] at hs'
    obtain ⟨s', gate', hsInit', hgate', rfl⟩ := hs'.exists_of_append
    have hv := halike v (by simp)
    have hinit : ∀ u ∈ vs, AlikeAt φ index index' u := fun u hu =>
      halike u (List.mem_append_left _ hu)
    -- what the last vertex is given comes behind what the others are given
    have hisOf := (Gate.fits_of_ofNode hgate).isOf
    have hisOf' := (Gate.fits_of_ofNode hgate').isOf
    rw [List.map_append, List.map_singleton, hs.allocationsOf_append hisOf,
      hsInit'.allocationsOf_append hisOf'] at hf
    have hlength := congrArg List.length
      (map_suffixes_allocationsOf config fun u hu => (hinit u hu).unlabelled_eq)
    rw [List.length_map, List.length_map] at hlength
    obtain ⟨hfInit, hfLast⟩ := hf.of_append hlength
    obtain ⟨hfragments, hresults⟩ := ih hsInit' hinit hfInit
    obtain ⟨label, hlabel⟩ := NodeKind.exists_eq_withLabel hv.unlabelled_eq
    -- the gate is the renamed one, since the results of the vertices before are
    have hrenamed : gate' = gate.rename f label := by
      refine Except.ok.inj (hgate'.symm.trans ?_)
      rw [hresults]
      exact Gate.ofNode_rename hlabel (hv.value?_rename s.results) hgate
    rw [hrenamed] at hfLast
    have hdescribe : (φ v).node.describe = v.node.describe := by
      unfold Node.describe
      rw [hlabel]
      cases v.node.kind with
      | input visibility _ => cases visibility <;> rfl
      | output type _ => cases type <;> rfl
      | _ => rfl
    have hfragment := Gate.fragment_rename config hdescribe hfLast
    simp only [Emission.after, hrenamed, hfragment, hfragments, hresults, hv.position_eq,
      List.map_append, List.map_singleton, true_and]
    cases hresult : (gate.fragment config v.node s.names).1.result with
    | none => simp [Fragment.rename, hresult]
    | some r => simp [Fragment.rename, hresult]

/-- Every name that is written has been given out. -/
theorem Emits.mem_names_of_mem_pieces {vs : List Vertex} {s : Emission}
    (hs : Emits config index vs s) {n : String}
    (hn : Piece.name n ∈ (SourceUnit.ofFragments config s.fragments).pieces) :
    n ∈ (allocationsOf config vs).flatMap Allocation.names := by
  classical
  -- a renaming that only spares what is given out leaves what is written as it is
  let f : String → String := fun n =>
    if n ∈ (allocationsOf config vs).flatMap Allocation.names then n else n ++ "_"
  have hspared : ∀ a ∈ allocationsOf config vs, ∀ n ∈ a.names, f n = n := fun a ha n hn =>
    if_pos (List.mem_flatMap.2 ⟨a, ha, hn⟩)
  have hf : Renames f (allocationsOf config vs) (allocationsOf config vs) := by
    refine ⟨?_, fun a ha suffix hsuffix => ?_⟩
    · refine (List.map_id'' (fun _ => rfl) _).symm.trans (List.map_congr_left fun a ha => ?_)
      rw [hspared a ha a.name List.mem_cons_self]
    · rw [hspared a ha a.name List.mem_cons_self,
        hspared a ha _ (List.mem_cons_of_mem _ (List.mem_map_of_mem hsuffix))]
  have hfragments := (hs.rename (φ := id) (by rwa [List.map_id]) (fun v _ => ⟨rfl, rfl, rfl⟩)
    (by rwa [List.map_id])).1
  have hpieces := congrArg (fun l => (SourceUnit.ofFragments config l).pieces) hfragments
  rw [SourceUnit.ofFragments_rename, SourceUnit.pieces_rename] at hpieces
  have hfixed := List.map_inj_left.1 ((List.map_id _).trans hpieces) _ hn
  by_contra hnot
  have hsame : n = n ++ "_" := (Piece.name.inj hfixed).trans (if_neg hnot)
  have hlength := congrArg String.length hsame
  rw [String.length_append] at hlength
  exact absurd hlength (by simp)

end CircuitGraph.Circom
