import CircuitGraph.Proofs.Graph.Designation
import CircuitGraph.Proofs.Text.Separator

/-!
# Undoing a wire by its id

A wire is drawn under an id made of the id of its source, a dash, the id of its target, a colon and
the port. Removing the id at the end of an editing session should take this wire away again. Ids of
nodes may hold dashes and colons themselves, and then two wires may get one id although they differ:
a dash or a colon of the one is read at another place of the other (`Connection.id_eq_iff`). Of such
wires only the first one can be undone. `Graph.DrawsUndoably` says so for a whole session; without
dashes in sources and colons in targets every wire can be undone.
-/

namespace CircuitGraph

open CircuitGraph.Text

/-- What a wire is drawn between. -/
@[ext]
structure Connection where
  /-- The id of the source. -/
  source : String
  /-- The id of the target. -/
  target : String
  /-- The port at the target. -/
  port : String
deriving DecidableEq, Repr

namespace Connection

/-- The id under which the wire is drawn. -/
def id (c : Connection) : String := Graph.wireId c.source c.target c.port

/-- The wire. -/
def edge (c : Connection) : Edge := Graph.wire c.source c.target c.port

/-- The id of a connection is read as that of another one when a separator is taken to be one that
stands further right: the colon, if the sources are the same, or else the dash. -/
def SlidesTo (c c' : Connection) : Prop :=
  (c.source = c'.source ∧ Slides ":" c.target c.port c'.target c'.port) ∨
    Slides "-" c.source (c.target ++ ":" ++ c.port) c'.source (c'.target ++ ":" ++ c'.port)

/-- The id of one of two connections is read as that of the other one. -/
def Entangled (c c' : Connection) : Prop := c.SlidesTo c' ∨ c'.SlidesTo c

variable {c c' : Connection}

/-- Two connections share their id when they are the same or entangled. -/
theorem id_eq_iff : c.id = c'.id ↔ c = c' ∨ c.Entangled c' := by
  have hid (c : Connection) : c.id = "e" ++ (c.source ++ "-" ++ (c.target ++ ":" ++ c.port)) := by
    simp [id, Graph.wireId, toString, String.append_assoc]
  have hdash (a b a' b' : String) : a ++ "-" ++ b = a' ++ "-" ++ b' ↔
      (a = a' ∧ b = b') ∨ Slides "-" a b a' b' ∨ Slides "-" a' b' a b :=
    append_separator_eq_iff rfl
  have hcolon (a b a' b' : String) : a ++ ":" ++ b = a' ++ ":" ++ b' ↔
      (a = a' ∧ b = b') ∨ Slides ":" a b a' b' ∨ Slides ":" a' b' a b :=
    append_separator_eq_iff rfl
  rw [hid, hid, String.append_right_inj, hdash, hcolon, Entangled, SlidesTo, SlidesTo,
    Connection.ext_iff]
  constructor
  · rintro (⟨hsource, ⟨htarget, hport⟩ | hcolon | hcolon⟩ | hdash | hdash)
    · exact .inl ⟨hsource, htarget, hport⟩
    · exact .inr (.inl (.inl ⟨hsource, hcolon⟩))
    · exact .inr (.inr (.inl ⟨hsource.symm, hcolon⟩))
    · exact .inr (.inl (.inr hdash))
    · exact .inr (.inr (.inr hdash))
  · rintro (⟨hsource, htarget, hport⟩ | (⟨hsource, hcolon⟩ | hdash) | ⟨hsource, hcolon⟩ | hdash)
    · exact .inl ⟨hsource, .inl ⟨htarget, hport⟩⟩
    · exact .inl ⟨hsource, .inr (.inl hcolon)⟩
    · exact .inr (.inl hdash)
    · exact .inl ⟨hsource.symm, .inr (.inr hcolon)⟩
    · exact .inr (.inr hdash)

/-- Whether the source holds no dash and the target no colon. -/
def IsPlain (c : Connection) : Prop := '-' ∉ c.source.toList ∧ ':' ∉ c.target.toList

/-- The id of a connection is not read as that of a plain one. -/
theorem not_slidesTo (h : c'.IsPlain) : ¬ c.SlidesTo c' := by
  rintro (⟨-, hcolon⟩ | hdash)
  · exact not_slides rfl h.2 hcolon
  · exact not_slides rfl h.1 hdash

/-- Plain connections are not entangled. -/
theorem not_entangled (h : c.IsPlain) (h' : c'.IsPlain) : ¬ c.Entangled c' := by
  rintro (hslides | hslides)
  · exact not_slidesTo h' hslides
  · exact not_slidesTo h hslides

end Connection

namespace Graph

/-- Draws one wire after the other. -/
def connectAll (g : Graph) (cs : List Connection) : Graph :=
  cs.foldl (fun g c => g.connect c.source c.target c.port) g

/-- Drawing a wire appends its edge and changes nothing else. -/
theorem connect_eq (g : Graph) (c : Connection) :
    g.connect c.source c.target c.port = { g with edges := g.edges ++ [c.edge] } := rfl

/-- Drawing wires appends their edges in order and changes nothing else. -/
theorem connectAll_eq (g : Graph) (cs : List Connection) :
    g.connectAll cs = { g with edges := g.edges ++ cs.map Connection.edge } := by
  induction cs generalizing g with
  | nil => simp [connectAll]
  | cons c cs ih =>
    have hcons : g.connectAll (c :: cs) = (g.connect c.source c.target c.port).connectAll cs := rfl
    rw [hcons, ih, connect_eq, List.map_cons, List.append_assoc, List.singleton_append]

/-- Drawing wires on a graph without edges can be undone by id, but for entangled connections. -/
structure DrawsUndoably (g : Graph) (cs : List Connection) : Prop where
  /-- The graph gets the edges of the connections, in order. -/
  drawn : g.connectAll cs = { g with edges := cs.map Connection.edge }
  /-- The ids are distinct exactly if no two connections are entangled. -/
  nodup_ids : (cs.map Connection.id).Nodup ↔ cs.Pairwise fun c c' => ¬ c.Entangled c'
  /-- The id of a connection finds and removes its edge, and no other one, exactly if no connection
  that was drawn before is entangled with it. -/
  designates : ∀ i c, cs[i]? = some c → ((g.connectAll cs).Designates c.id i ↔
    ∀ j < i, ∀ c', cs[j]? = some c' → ¬ c'.Entangled c)
  /-- Without dashes in sources and colons in targets no two connections are entangled. -/
  plain : (∀ c ∈ cs, c.IsPlain) → cs.Pairwise fun c c' => ¬ c.Entangled c'

/-- The ids of distinct connections are distinct if no two of them are entangled. -/
theorem nodup_map_id_iff {cs : List Connection} (hcs : cs.Nodup) :
    (cs.map Connection.id).Nodup ↔ cs.Pairwise fun c c' => ¬ c.Entangled c' := by
  rw [List.Nodup, List.pairwise_map]
  constructor
  · intro h
    exact h.imp fun hne hentangled => hne (Connection.id_eq_iff.2 (.inr hentangled))
  · intro h
    refine (h.and hcs).imp fun ⟨hnot, hne⟩ heq => ?_
    rcases Connection.id_eq_iff.1 heq with hsame | hentangled
    · exact hne hsame
    · exact hnot hentangled

/-- The edges of distinct connections are distinct. -/
theorem nodup_map_edge {cs : List Connection} (hcs : cs.Nodup) :
    (cs.map Connection.edge).Nodup := by
  refine hcs.map fun c c' heq => ?_
  obtain ⟨-, hsource, -, htarget, hport⟩ := Edge.mk.inj heq
  exact Connection.ext hsource htarget hport

/-- An id leads to the edge of its connection if no connection before is entangled with it. -/
theorem designates_id_iff {g : Graph} {cs : List Connection} (hcs : cs.Nodup)
    (hg : g.edges = cs.map Connection.edge) {i : Nat} {c : Connection} (hi : cs[i]? = some c) :
    g.Designates c.id i ↔ ∀ j < i, ∀ c', cs[j]? = some c' → ¬ c'.Entangled c := by
  have hedge : g.edges[i]? = some c.edge := by simp [hg, hi]
  have hdesignates := designates_iff (hg ▸ nodup_map_edge hcs) hedge
  refine hdesignates.trans (forall₂_congr fun j hj => ?_)
  rw [hg]
  constructor
  · intro h c' hc' hentangled
    exact h c'.edge (by simp [hc']) (Connection.id_eq_iff.2 (.inr hentangled))
  · intro h other hother hid
    obtain ⟨c', hc', rfl⟩ : ∃ c', cs[j]? = some c' ∧ c'.edge = other := by simpa using hother
    rcases Connection.id_eq_iff.1 hid with rfl | hentangled
    · -- a connection is listed once
      have hlength := (List.getElem?_eq_some_iff.1 hi).1
      exact List.nodup_iff_getElem?_ne_getElem?.1 hcs j i hj hlength (hc'.trans hi.symm)
    · exact h c' hc' hentangled

/-- **Undoing wires.** Whichever distinct connections are drawn on a graph without edges, each of
them can be undone by its id, unless it is entangled with one that was drawn before. -/
theorem drawsUndoably_of_nodup (g : Graph) (hg : g.edges = []) (cs : List Connection)
    (hcs : cs.Nodup) : g.DrawsUndoably cs := by
  have hdrawn : g.connectAll cs = { g with edges := cs.map Connection.edge } := by
    rw [connectAll_eq, hg, List.nil_append]
  have hedges : (g.connectAll cs).edges = cs.map Connection.edge := by rw [hdrawn]
  constructor
  · exact hdrawn
  · exact nodup_map_id_iff hcs
  · exact fun i c hi => designates_id_iff hcs hedges hi
  · intro hplain
    refine List.pairwise_of_forall_mem_list fun c hc c' hc' => ?_
    exact Connection.not_entangled (hplain c hc) (hplain c' hc')

/-- Two operands are wired to a sum, which is wired to a difference. The ids of the nodes hold
dashes. -/
theorem drawsUndoably_dashes :
    let cs : List Connection :=
      [⟨"7-x", "1-add", "a"⟩, ⟨"8-y", "1-add", "b"⟩, ⟨"1-add", "5-sub", "a"⟩]
    empty.edges = [] ∧ cs.Nodup ∧ empty.DrawsUndoably cs :=
  ⟨rfl, by decide, drawsUndoably_of_nodup _ rfl _ (by decide)⟩

/-- Two wires into two sums are drawn under one id. Looking for it gives the first wire, and
removing it leaves the second one, whose id it is as well. -/
theorem entangled_sums :
    let first : Connection := ⟨"x", "1-sum", "a"⟩
    let second : Connection := ⟨"x-1", "sum", "a"⟩
    let drawn := empty.connectAll [first, second]
    [first, second].Nodup ∧ first.id = second.id ∧ drawn.edge? second.id = some first.edge ∧
      drawn.removeEdge second.id = { nodes := [], edges := [second.edge] } ∧
      ¬ drawn.Designates second.id 1 := by
  intro first second drawn
  have hfound : drawn.edge? second.id = some first.edge := by decide
  refine ⟨by decide, by decide, hfound, by decide, fun h => ?_⟩
  obtain ⟨edge, hedge, hsecond⟩ := h.found
  have heq : first.edge = second.edge := by
    cases hedge
    exact Option.some.inj (hfound.symm.trans hsecond)
  exact absurd heq (by decide)

end Graph

end CircuitGraph
