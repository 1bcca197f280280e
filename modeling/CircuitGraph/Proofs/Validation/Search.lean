import CircuitGraph.Proofs.Validation.Cycle
import Mathlib.Logic.Function.Basic

/-!
# The search for cycles, step by step

`Validation.cycles` gives the cycles that the depth-first search closes, but not the order of events
in it. Here the search is a machine that marks every position as new, active or done, keeps the
path it is on, and follows one wire at a time (`Search.step`). Its history is part of its state: the
wires that it has followed and those among them that closed a cycle.

What a step can do is said once (`Search.step_cases`). Every state that is reached keeps
`Search.Inv`: the active positions are those of the path, none of them twice, and the wires that
have been followed or still belong to the path are those that leave the positions met so far. So
every step does some of a finite amount of work, the search stops (`Search.Inv.exists_last`), and
then it has followed every wire once (`Search.Inv.perm_followed`).
-/

namespace CircuitGraph.Validation

/-- How far the search is with a position. -/
inductive Visit
  /-- The position has not been met. -/
  | new
  /-- The position is on the path. -/
  | active
  /-- The position has been left for good. -/
  | done
deriving DecidableEq

/-- A state of the search. -/
structure Search where
  /-- How far the search is with each position. -/
  visits : Nat → Visit
  /-- The current path, the innermost vertex first. -/
  path : List Frame
  /-- The roots whose turn has not come. -/
  roots : List Vertex
  /-- The wires that have been followed. -/
  followed : List Wire
  /-- The wires that closed a cycle. -/
  closing : List Wire
  /-- The cycles that have been reported. -/
  reports : List Diagnostic

namespace Search

/-! ## The machine -/

/-- The search before its first step. -/
def start (index : Index) : Search where
  visits := fun _ => .new
  path := []
  roots := index.owners
  followed := []
  closing := []
  reports := []

/-- The vertices on the path, the outermost first. -/
def stack (s : Search) : List Vertex := (s.path.map Frame.vertex).reverse

/-- The place of a vertex on the path. -/
def place? (s : Search) (v : Vertex) : Option Nat :=
  s.stack.findIdx? fun u => u.position == v.position

/-- The vertices on the path from the place of a given one on; all of them if it has no place. -/
def stackFrom (s : Search) (v : Vertex) : List Vertex := s.stack.drop ((s.place? v).getD 0)

/-- The report of the cycle that closes when the path returns to a vertex. -/
def reportOf (s : Search) (v : Vertex) : Diagnostic :=
  let path := " -> ".intercalate ((s.stackFrom v).map Vertex.id ++ [v.id])
  .atNode .cycleDetected v.id s!"cycle detected: {path}"

/-- Goes to a vertex. -/
def enter (s : Search) (index : Index) (v : Vertex) : Search :=
  { s with
    visits := Function.update s.visits v.position .active
    path := ⟨v, index.outgoing v.position⟩ :: s.path }

/-- Leaves the innermost vertex for the path behind it. -/
def leave (s : Search) (v : Vertex) (path : List Frame) : Search :=
  { s with visits := Function.update s.visits v.position .done, path }

/-- Takes the next wire from the innermost vertex. -/
def advance (s : Search) (w : Wire) (path : List Frame) : Search :=
  { s with path, followed := s.followed ++ [w] }

/-- Reports the cycle that a wire closes. -/
def close (s : Search) (w : Wire) : Search :=
  { s with closing := s.closing ++ [w], reports := s.reports ++ [s.reportOf w.target] }

/-- One step of the search; there is none when the path and the roots are used up. -/
def step (index : Index) (s : Search) : Option Search :=
  match s.path, s.roots with
  | [], [] => none
  | [], root :: roots =>
    let s := { s with roots }
    if s.visits root.position = .new then some (s.enter index root) else some s
  | ⟨v, []⟩ :: path, _ => some (s.leave v path)
  | ⟨v, w :: pending⟩ :: path, _ =>
    let s := s.advance w (⟨v, pending⟩ :: path)
    match s.visits w.target.position with
    | .new => some (s.enter index w.target)
    | .active => some (s.close w)
    | .done => some s

/-- The wire that is followed next. -/
def next? (s : Search) : Option Wire := s.path.head?.bind fun f => f.pending.head?

/-- A number of steps leads from one state to another. -/
def Runs (index : Index) : Search → Search → Prop :=
  Relation.ReflTransGen fun s s' => s.step index = some s'

/-- What a step can do. -/
inductive Step (index : Index) (s : Search) : Search → Prop
  /-- The next root has been met. -/
  | pass {root : Vertex} {roots : List Vertex} (hpath : s.path = [])
    (hroots : s.roots = root :: roots) (h : s.visits root.position ≠ .new) :
    Step index s { s with roots }
  /-- The search goes to the next root. -/
  | begin {root : Vertex} {roots : List Vertex} (hpath : s.path = [])
    (hroots : s.roots = root :: roots) (h : s.visits root.position = .new) :
    Step index s (enter { s with roots } index root)
  /-- The wires of the innermost vertex are used up. -/
  | leave {v : Vertex} {path : List Frame} (hpath : s.path = ⟨v, []⟩ :: path) :
    Step index s (s.leave v path)
  /-- A wire leads to a vertex that is new. -/
  | enter {v : Vertex} {w : Wire} {pending : List Wire} {path : List Frame}
    (hpath : s.path = ⟨v, w :: pending⟩ :: path) (h : s.visits w.target.position = .new) :
    Step index s ((s.advance w (⟨v, pending⟩ :: path)).enter index w.target)
  /-- A wire leads back to the path. -/
  | close {v : Vertex} {w : Wire} {pending : List Wire} {path : List Frame}
    (hpath : s.path = ⟨v, w :: pending⟩ :: path) (h : s.visits w.target.position = .active) :
    Step index s ((s.advance w (⟨v, pending⟩ :: path)).close w)
  /-- A wire leads to a vertex that is done. -/
  | skip {v : Vertex} {w : Wire} {pending : List Wire} {path : List Frame}
    (hpath : s.path = ⟨v, w :: pending⟩ :: path) (h : s.visits w.target.position = .done) :
    Step index s (s.advance w (⟨v, pending⟩ :: path))

variable {index : Index} {s s' : Search}

/-- A step does one of these things. -/
theorem step_cases (h : s.step index = some s') : Step index s s' := by
  unfold step at h
  split at h
  · cases h
  · rename_i root roots hpath hroots
    dsimp only at h
    split at h
    · rename_i hroot
      exact Option.some.inj h ▸ .begin hpath hroots hroot
    · rename_i hroot
      exact Option.some.inj h ▸ .pass hpath hroots hroot
  · rename_i v path hpath
    exact Option.some.inj h ▸ .leave hpath
  · rename_i v w pending path hpath
    dsimp only at h
    split at h
    · rename_i hvisit
      exact Option.some.inj h ▸ .enter hpath hvisit
    · rename_i hvisit
      exact Option.some.inj h ▸ .close hpath hvisit
    · rename_i hvisit
      exact Option.some.inj h ▸ .skip hpath hvisit

/-- The search stops when the path and the roots are used up. -/
theorem step_eq_none_iff : s.step index = none ↔ s.path = [] ∧ s.roots = [] := by
  constructor
  · intro h
    unfold step at h
    split at h
    · rename_i hpath hroots
      exact ⟨hpath, hroots⟩
    · dsimp only at h
      split at h
      · cases h
      · cases h
    · cases h
    · dsimp only at h
      split at h
      · cases h
      · cases h
      · cases h
  · rintro ⟨hpath, hroots⟩
    unfold step
    rw [hpath, hroots]

/-! ## What is on the path -/

/-- The positions of the path. -/
def positions (s : Search) : List Nat := s.path.map fun f => f.vertex.position

/-- The wires that belong to the path and are still to be followed. -/
def pending (s : Search) : List Wire := s.path.flatMap Frame.pending

/-- The position of the innermost vertex is the first one. -/
theorem positions_eq_cons {f : Frame} {path : List Frame} (h : s.path = f :: path) :
    s.positions = f.vertex.position :: path.map fun f => f.vertex.position := by
  rw [positions, h, List.map_cons]

/-- The wires of the innermost vertex are the first ones. -/
theorem pending_eq_append {f : Frame} {path : List Frame} (h : s.path = f :: path) :
    s.pending = f.pending ++ path.flatMap Frame.pending := by
  rw [pending, h, List.flatMap_cons]

/-- Going to a new vertex adds the wires that leave it to those that leave what has been met. -/
theorem perm_met_enter {v : Vertex} (hv : s.visits v.position = .new) :
    (index.outgoing v.position ++
      index.wires.filter fun w => s.visits w.source.position ≠ .new).Perm
      (index.wires.filter fun w => (s.enter index v).visits w.source.position ≠ .new) := by
  let met := index.wires.filter fun w => (s.enter index v).visits w.source.position ≠ .new
  -- what has been met is split into what leaves the vertex and what had been met before
  have hleaves : (met.filter fun w => w.source.position == v.position) =
      index.outgoing v.position := by
    rw [List.filter_filter]
    refine List.filter_congr fun w _ => ?_
    by_cases hw : w.source.position = v.position
    · simp [enter, hw]
    · simp [hw]
  have hbefore : (met.filter fun w => !(w.source.position == v.position)) =
      index.wires.filter fun w => s.visits w.source.position ≠ .new := by
    rw [List.filter_filter]
    refine List.filter_congr fun w _ => ?_
    by_cases hw : w.source.position = v.position
    · simp [hw, hv]
    · simp [enter, hw]
  have hsplit := List.filter_append_perm (fun w => w.source.position == v.position) met
  rwa [hleaves, hbefore] at hsplit

/-- What is known of every state that is reached. -/
structure Inv (index : Index) (s : Search) : Prop where
  /-- The path is one. -/
  isPath : IsPath index s.path
  /-- The active positions are those of the path. -/
  active_iff : ∀ p, s.visits p = .active ↔ p ∈ s.positions
  /-- No position is on the path twice. -/
  nodup : s.positions.Nodup
  /-- The roots own their ids. -/
  roots : ∀ root ∈ s.roots, root ∈ index.owners
  /-- What has been followed or is to be followed is the wires that leave the positions met. -/
  wires : (s.followed ++ s.pending).Perm
    (index.wires.filter fun w => s.visits w.source.position ≠ .new)

namespace Inv

/-- Nothing has been met before the first step. -/
theorem start (index : Index) : (start index).Inv index where
  isPath := .nil index
  active_iff p := by simp [Search.start, positions]
  nodup := List.nodup_nil
  roots _ h := h
  wires := by simp [Search.start, pending]

/-- A root may be passed. -/
theorem pass (h : s.Inv index) {root : Vertex} {roots : List Vertex}
    (hroots : s.roots = root :: roots) : Inv index { s with roots } where
  isPath := h.isPath
  active_iff := h.active_iff
  nodup := h.nodup
  roots v hv := h.roots v (hroots ▸ List.mem_cons_of_mem _ hv)
  wires := h.wires

/-- Going to a new vertex keeps the invariant, if what results is a path. -/
theorem enter (h : s.Inv index) {v : Vertex} (hv : s.visits v.position = .new)
    (hpath : IsPath index (s.enter index v).path) : (s.enter index v).Inv index where
  isPath := hpath
  active_iff p := by
    by_cases hp : p = v.position
    · simp [Search.enter, positions, hp]
    · simpa [Search.enter, positions, hp] using h.active_iff p
  nodup := by
    refine List.nodup_cons.2 ⟨fun hmem => ?_, h.nodup⟩
    rw [(h.active_iff v.position).2 hmem] at hv
    cases hv
  roots := h.roots
  wires := by
    have hswap : (s.followed ++ (index.outgoing v.position ++ s.pending)).Perm
        (index.outgoing v.position ++ (s.followed ++ s.pending)) := by
      rw [← List.append_assoc, ← List.append_assoc]
      exact List.perm_append_comm.append_right _
    exact hswap.trans ((h.wires.append_left _).trans (perm_met_enter hv))

/-- The innermost vertex is active. -/
theorem visits_head (h : s.Inv index) {f : Frame} {path : List Frame}
    (hpath : s.path = f :: path) : s.visits f.vertex.position = .active := by
  rw [h.active_iff, positions_eq_cons hpath]
  exact List.mem_cons_self

variable {v : Vertex} {path : List Frame}

/-- Leaving the innermost vertex keeps the invariant. -/
theorem leave (h : s.Inv index) (hpath : s.path = ⟨v, []⟩ :: path) :
    (s.leave v path).Inv index := by
  have hv : s.visits v.position = .active := h.visits_head hpath
  obtain ⟨hisPath, hactive, hnodup, hroots, hwires⟩ := h
  rw [hpath] at hisPath
  rw [positions_eq_cons hpath] at hactive hnodup
  rw [pending_eq_append hpath] at hwires
  obtain ⟨hnot, hnodup⟩ := List.nodup_cons.1 hnodup
  constructor
  · exact hisPath.pop
  · intro p
    have hp := hactive p
    by_cases hpv : p = v.position
    · simpa [Search.leave, positions, hpv] using hnot
    · simpa [Search.leave, positions, hpv] using hp
  · exact hnodup
  · exact hroots
  · have hmet : ∀ w ∈ index.wires, decide ((s.leave v path).visits w.source.position ≠ .new) =
        decide (s.visits w.source.position ≠ .new) := by
      intro w _
      by_cases hw : w.source.position = v.position
      · simp [Search.leave, hw, hv]
      · simp [Search.leave, hw]
    rw [List.filter_congr hmet]
    exact hwires

/-- Taking a wire from the innermost vertex keeps the invariant. -/
theorem advance (h : s.Inv index) {w : Wire} {wires : List Wire}
    (hpath : s.path = ⟨v, w :: wires⟩ :: path) :
    (s.advance w (⟨v, wires⟩ :: path)).Inv index := by
  obtain ⟨hisPath, hactive, hnodup, hroots, hwires⟩ := h
  rw [hpath] at hisPath
  rw [positions_eq_cons hpath] at hactive hnodup
  rw [pending_eq_append hpath] at hwires
  constructor
  · exact hisPath.skip
  · exact hactive
  · exact hnodup
  · exact hroots
  · rw [pending_eq_append rfl, Search.advance, List.append_assoc]
    exact hwires

/-- Reporting a cycle keeps the invariant. -/
theorem close (h : s.Inv index) (w : Wire) : (s.close w).Inv index where
  isPath := h.isPath
  active_iff := h.active_iff
  nodup := h.nodup
  roots := h.roots
  wires := h.wires

/-- Every step keeps the invariant. -/
theorem step (hi : index.Sound) (h : s.Inv index) (hstep : s.step index = some s') :
    s'.Inv index := by
  cases step_cases hstep with
  | pass hpath hroots _ => exact h.pass hroots
  | @begin root roots hpath hroots hroot =>
    refine (h.pass hroots).enter hroot ?_
    rw [Search.enter, hpath]
    exact .start (h.roots root (hroots ▸ List.mem_cons_self))
  | leave hpath => exact h.leave hpath
  | enter hpath hnew =>
    refine (h.advance hpath).enter hnew ?_
    have hisPath := h.isPath
    rw [hpath] at hisPath
    exact hisPath.push hi
  | close hpath _ => exact (h.advance hpath).close _
  | skip hpath _ => exact h.advance hpath

end Inv

/-- Every state that is reached keeps the invariant. -/
theorem Runs.inv (hi : index.Sound) (hruns : Runs index (start index) s) : s.Inv index := by
  induction hruns with
  | refl => exact .start index
  | tail _ hstep ih => exact ih.step hi hstep

/-- Whatever holds before the first step and is kept by the steps of the states that are reached
holds of all of them. -/
theorem Runs.preserves (hi : index.Sound) {P : Search → Prop} (hstart : P (start index))
    (hkeep : ∀ {s s'}, Runs index (start index) s → s.Inv index → s.step index = some s' →
      P s → P s')
    (hruns : Runs index (start index) s) : P s := by
  induction hruns with
  | refl => exact hstart
  | tail hruns hstep ih => exact hkeep hruns (Runs.inv hi hruns) hstep ih

/-- The wire that is taken next belongs to the index. -/
theorem Inv.mem_wires (h : s.Inv index) {v : Vertex} {w : Wire} {wires : List Wire}
    {path : List Frame} (hpath : s.path = ⟨v, w :: wires⟩ :: path) : w ∈ index.wires := by
  have hframe : (⟨v, w :: wires⟩ : Frame) ∈ s.path := hpath ▸ List.mem_cons_self
  exact (Index.mem_outgoing.1 (h.isPath.pending _ hframe w List.mem_cons_self)).1

/-! ## The search stops -/

/-- The work that is left: a wire may need two steps, and so may a root. -/
def work (index : Index) (s : Search) : Nat :=
  2 * (index.wires.length - s.followed.length) + 2 * s.roots.length + s.path.length

/-- There is always a wire left for the next one to be followed. -/
theorem Inv.followed_lt (h : s.Inv index) {v : Vertex} {w : Wire} {wires : List Wire}
    {path : List Frame} (hpath : s.path = ⟨v, w :: wires⟩ :: path) :
    s.followed.length < index.wires.length := by
  have hlength := h.wires.length_eq
  rw [pending_eq_append hpath, List.length_append, List.length_append, List.length_cons]
    at hlength
  have hle := List.length_filter_le
    (fun w => decide (s.visits w.source.position ≠ .new)) index.wires
  omega

/-- Going to a vertex adds its frame to the work. -/
theorem work_enter (s : Search) (v : Vertex) :
    (s.enter index v).work index = s.work index + 1 := rfl

/-- Following a wire does two steps of the work. -/
theorem Inv.work_advance (h : s.Inv index) {v : Vertex} {w : Wire} {wires : List Wire}
    {path : List Frame} (hpath : s.path = ⟨v, w :: wires⟩ :: path) :
    (s.advance w (⟨v, wires⟩ :: path)).work index + 2 = s.work index := by
  have hlt := h.followed_lt hpath
  unfold work Search.advance
  rw [hpath]
  simp only [List.length_append, List.length_cons, List.length_nil]
  omega

/-- Every step does some of the work. -/
theorem Inv.work_lt (h : s.Inv index) (hstep : s.step index = some s') :
    s'.work index < s.work index := by
  cases step_cases hstep with
  | @pass root roots hpath hroots _ =>
    have hlength : s.roots.length = roots.length + 1 := by rw [hroots, List.length_cons]
    unfold work
    dsimp only
    omega
  | @begin root roots hpath hroots _ =>
    have hlength : s.roots.length = roots.length + 1 := by rw [hroots, List.length_cons]
    rw [work_enter]
    unfold work
    dsimp only
    omega
  | @leave v path hpath =>
    have hlength : s.path.length = path.length + 1 := by rw [hpath, List.length_cons]
    unfold work Search.leave
    dsimp only
    omega
  | enter hpath _ =>
    have hadvance := h.work_advance hpath
    rw [work_enter]
    omega
  | @close v w wires path hpath _ =>
    have hadvance := h.work_advance hpath
    have hclose : ((s.advance w (⟨v, wires⟩ :: path)).close w).work index =
        (s.advance w (⟨v, wires⟩ :: path)).work index := rfl
    omega
  | skip hpath _ =>
    have hadvance := h.work_advance hpath
    omega

/-- Every search comes to an end. -/
theorem Inv.exists_last (hi : index.Sound) (h : s.Inv index) :
    ∃ last, Runs index s last ∧ last.step index = none := by
  induction hwork : s.work index using Nat.strong_induction_on generalizing s with
  | _ n ih =>
    cases hstep : s.step index with
    | none => exact ⟨s, .refl, hstep⟩
    | some s' =>
      obtain ⟨last, hruns, hlast⟩ := ih _ (hwork ▸ h.work_lt hstep) (h.step hi hstep) rfl
      exact ⟨last, hruns.head hstep, hlast⟩

/-- Of two states that are reached, the one comes before the other. -/
theorem Runs.total {s₁ s₂ : Search} (h₁ : Runs index s s₁) (h₂ : Runs index s s₂) :
    Runs index s₁ s₂ ∨ Runs index s₂ s₁ :=
  Relation.ReflTransGen.total_of_right_unique
    (fun _ _ _ hb hc => Option.some.inj (hb.symm.trans hc)) h₁ h₂

/-- A state without a next step is behind every state that is reached. -/
theorem Runs.to_last {last : Search} (hlast : last.step index = none) (h : Runs index s s')
    (hruns : Runs index s last) : Runs index s' last := by
  rcases h.total hruns with hto | hfrom
  · exact hto
  · rcases Relation.ReflTransGen.cases_head hfrom with rfl | ⟨_, hstep, _⟩
    · exact .refl
    · rw [hlast] at hstep
      cases hstep

/-! ## Every wire is followed -/

/-- What owns an id has been met or is still to be a root. -/
def Met (index : Index) (s : Search) : Prop :=
  ∀ v ∈ index.owners, v ∈ s.roots ∨ s.visits v.position ≠ .new

/-- At first all owners are roots. -/
theorem Met.start (index : Index) : (start index).Met index := fun _ h => .inl h

/-- No step makes a position new again. -/
theorem visits_ne_new_of_step (hstep : s.step index = some s') {p : Nat} (h : s.visits p ≠ .new) :
    s'.visits p ≠ .new := by
  have hupdate : ∀ (q : Nat) (visit : Visit), visit ≠ .new →
      Function.update s.visits q visit p ≠ .new := by
    intro q visit hvisit
    by_cases hp : p = q
    · rwa [hp, Function.update_self]
    · rwa [Function.update_of_ne hp]
  cases step_cases hstep with
  | pass => exact h
  | begin => exact hupdate _ _ (by decide)
  | leave => exact hupdate _ _ (by decide)
  | enter => exact hupdate _ _ (by decide)
  | close => exact h
  | skip => exact h

/-- Every step keeps what has been met. -/
theorem Met.step (h : s.Met index) (hstep : s.step index = some s') : s'.Met index := by
  intro v hv
  rcases h v hv with hroot | hmet
  · cases step_cases hstep with
    | @pass root roots hpath hroots hmet =>
      rw [hroots] at hroot
      rcases List.mem_cons.1 hroot with rfl | hroot
      · exact .inr hmet
      · exact .inl hroot
    | @begin root roots hpath hroots hnew =>
      rw [hroots] at hroot
      rcases List.mem_cons.1 hroot with rfl | hroot
      · exact .inr (by simp [Search.enter])
      · exact .inl hroot
    | leave => exact .inl hroot
    | enter => exact .inl hroot
    | close => exact .inl hroot
    | skip => exact .inl hroot
  · exact .inr (visits_ne_new_of_step hstep hmet)

/-- Every state that is reached has met what it has to. -/
theorem Runs.met (hi : index.Sound) (hruns : Runs index (start index) s) : s.Met index :=
  hruns.preserves hi (.start index) fun _ _ hstep h => h.step hstep

/-- At the end every wire has been followed, each one once. -/
theorem Inv.perm_followed (hi : index.Sound) (h : s.Inv index) (hmet : s.Met index)
    (hlast : s.step index = none) : s.followed.Perm index.wires := by
  obtain ⟨hpath, hroots⟩ := step_eq_none_iff.1 hlast
  have hwires := h.wires
  rw [pending, hpath, List.flatMap_nil, List.append_nil] at hwires
  rwa [List.filter_eq_self.2] at hwires
  intro w hw
  have hsource := (hmet w.source (hi.source_mem_owners hw)).resolve_left (by rw [hroots]; simp)
  exact decide_eq_true hsource

end Search

end CircuitGraph.Validation
