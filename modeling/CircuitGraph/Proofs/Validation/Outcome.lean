import CircuitGraph.Proofs.Validation.Search

/-!
# What the search comes to

The machine of `Search.step` makes the reports of `Validation.cyclesDetected`, in the same order: no
step changes the reports that have been made together with those that `follow` and `searchFrom`
would still make (`Search.Inv.outcome_eq_of_step`).

The wires that closed a cycle are all that kept the graph from being acyclic
(`Search.Settled.acyclic`), so when nothing is reported the wires form no cycle
(`acyclic_of_cyclesDetected`). The invariant is about the positions that have been left for good,
those that are neither fresh nor on the current path: with the wires that closed a cycle taken away,
every one of them ends (`Left`). It is carried by what is known of the path (`Followed`): a wire
that leaves a vertex of the path is still to be followed, leads to a position that ends, or is the
one along which the search went on. So when the wires of the innermost vertex are used up, all of
them lead to positions that end, and the vertex may be left.
-/

namespace CircuitGraph

/-! ## Leaving out wires -/

namespace Index

/-- An index without some of its wires. -/
def without (index : Index) (wires : List Wire) : Index :=
  { index with wires := index.wires.filter fun w => w ∉ wires }

variable {index index' : Index}

/-- The wires of what is left are wires. -/
theorem wires_without_subset (index : Index) (wires : List Wire) :
    (index.without wires).wires ⊆ index.wires := List.filter_sublist.subset

/-- Nothing may be left out. -/
theorem without_nil (index : Index) : index.without [] = index := by simp [without]

/-- Leaving out more leaves fewer wires. -/
theorem wires_without_append_subset (index : Index) (wires more : List Wire) :
    (index.without (wires ++ more)).wires ⊆ (index.without wires).wires := by
  intro w hw
  obtain ⟨hmem, hnot⟩ := List.mem_filter.1 hw
  have hnot : w ∉ wires ++ more := of_decide_eq_true hnot
  exact List.mem_filter.2 ⟨hmem, decide_eq_true fun h => hnot (List.mem_append_left _ h)⟩

/-- With fewer wires fewer leave a position. -/
theorem outgoing_subset (hsub : index'.wires ⊆ index.wires) (p : Nat) :
    index'.outgoing p ⊆ index.outgoing p := List.filter_subset _ hsub

/-- What ends also ends with fewer wires. -/
theorem Ends.mono (hsub : index'.wires ⊆ index.wires) {p : Nat} (h : index.Ends p) :
    index'.Ends p := by
  refine Subrelation.accessible ?_ h
  rintro b a ⟨w, hw, hab⟩
  exact ⟨w, hsub hw, hab⟩

end Index

namespace Validation

/-! ## What ends -/

/-- What is known of the wires that leave the vertices of a path: each is still to be followed,
leads to a position that ends, or leads to `above`, the next vertex inwards. -/
def Followed (index : Index) (above : Option Nat) : List Frame → Prop
  | [] => True
  | f :: path =>
    (∀ w ∈ index.outgoing f.vertex.position,
      w ∈ f.pending ∨ index.Ends w.target.position ∨ above = some w.target.position) ∧
      Followed index (some f.vertex.position) path

/-- Every position that is neither fresh nor on the path ends. -/
def Left (index : Index) (fresh : List Nat) (path : List Frame) : Prop :=
  ∀ p, p ∉ fresh → (∀ f ∈ path, f.vertex.position ≠ p) → index.Ends p

variable {index index' : Index} {path : List Frame}

/-- Nothing more is known of a path once the vertex above it is known to end. -/
theorem Followed.of_ends {p : Nat} {path : List Frame} (h : Followed index (some p) path)
    (hp : index.Ends p) : Followed index none path := by
  cases path with
  | nil => trivial
  | cons f path =>
    refine ⟨fun w hw => ?_, h.2⟩
    rcases h.1 w hw with hpending | hends | habove
    · exact .inl hpending
    · exact .inr (.inl hends)
    · cases habove
      exact .inr (.inl hp)

/-- The innermost vertex of a path ends when its wires are used up. -/
theorem Followed.ends {v : Vertex} {path : List Frame} (h : Followed index none (⟨v, []⟩ :: path)) :
    index.Ends v.position := by
  refine Index.ends_of_outgoing fun w hw => ?_
  rcases h.1 w hw with hpending | hends | habove
  · cases hpending
  · exact hends
  · cases habove

/-- When a wire of the innermost vertex is taken, it has to be known what it leads to. -/
theorem Followed.skip {above : Option Nat} {v : Vertex} {w : Wire} {pending : List Wire}
    {path : List Frame} (h : Followed index none (⟨v, w :: pending⟩ :: path))
    (hw : w ∈ index.outgoing v.position →
      index.Ends w.target.position ∨ above = some w.target.position) :
    Followed index above (⟨v, pending⟩ :: path) := by
  refine ⟨fun u hu => ?_, h.2⟩
  rcases h.1 u hu with hpending | hends | habove
  · rcases List.mem_cons.1 hpending with rfl | hpending
    · exact .inr (hw hu)
    · exact .inl hpending
  · exact .inr (.inl hends)
  · cases habove

/-- Leaving the innermost vertex keeps the invariant. -/
theorem Left.pop {fresh : List Nat} {v : Vertex} {path : List Frame}
    (hleft : Left index fresh (⟨v, []⟩ :: path)) (hv : index.Ends v.position) :
    Left index fresh path := by
  intro p hp hpath
  by_cases hpv : v.position = p
  · exact hpv ▸ hv
  · refine hleft p hp fun f hf => ?_
    rcases List.mem_cons.1 hf with rfl | hf
    · exact hpv
    · exact hpath f hf

/-- Taking a wire from the innermost vertex keeps the invariant. -/
theorem Left.skip {fresh : List Nat} {v : Vertex} {w : Wire} {pending : List Wire}
    {path : List Frame} (hleft : Left index fresh (⟨v, w :: pending⟩ :: path)) :
    Left index fresh (⟨v, pending⟩ :: path) := by
  intro p hp hpath
  refine hleft p hp fun f hf => ?_
  rcases List.mem_cons.1 hf with rfl | hf
  · exact hpath ⟨v, pending⟩ List.mem_cons_self
  · exact hpath f (List.mem_cons_of_mem _ hf)

/-- Going on to another vertex keeps the invariant. -/
theorem Left.push {fresh : List Nat} {t : Vertex} {wires : List Wire} {path : List Frame}
    (hleft : Left index fresh path) :
    Left index (fresh.erase t.position) (⟨t, wires⟩ :: path) := by
  intro p hp hpath
  have htp : t.position ≠ p := hpath _ List.mem_cons_self
  exact hleft p (fun hfresh => hp ((List.mem_erase_of_ne htp.symm).2 hfresh)) fun f hf =>
    hpath f (List.mem_cons_of_mem _ hf)

/-- Before the search every position that has no vertex is left, for no wire leaves it. -/
theorem left_positions (hi : index.Sound) : Left index index.positions [] := by
  intro p hp _
  refine Index.ends_of_outgoing fun w hw => ?_
  obtain ⟨hmem, hs⟩ := Index.mem_outgoing.1 hw
  have hsource := Index.mem_vertices_of_mem_owners (hi.source_mem_owners hmem)
  exact absurd (hs ▸ List.mem_map_of_mem hsource) hp

/-- What is known of a path is known with fewer wires. -/
theorem Followed.mono (hsub : index'.wires ⊆ index.wires) {above : Option Nat}
    (h : Followed index above path) : Followed index' above path := by
  induction path generalizing above with
  | nil => trivial
  | cons f path ih =>
    refine ⟨fun w hw => ?_, ih h.2⟩
    have hw := h.1 w (Index.outgoing_subset hsub _ hw)
    exact hw.imp_right (Or.imp_left (Index.Ends.mono hsub))

/-- What has been left ends with fewer wires. -/
theorem Left.mono (hsub : index'.wires ⊆ index.wires) {fresh : List Nat}
    (h : Left index fresh path) : Left index' fresh path :=
  fun p hp hpath => (h p hp hpath).mono hsub

namespace Search

variable {s s' : Search}

/-! ## Closing a cycle -/

/-- A position is active when it is on the path. -/
theorem Inv.any_path_iff (h : s.Inv index) {p : Nat} :
    (s.path.any fun f => f.vertex.position == p) = true ↔ s.visits p = .active := by
  rw [h.active_iff, positions, List.any_eq_true, List.mem_map]
  exact exists_congr fun f => and_congr_right fun _ => beq_iff_eq

/-- When an owner is active, it has a place on the path, and the vertices from there on are those
between it and the innermost one. -/
theorem Inv.stackFrom_eq (hi : index.Sound) (h : s.Inv index) {t : Vertex} (ht : t ∈ index.owners)
    (hactive : s.visits t.position = .active) :
    (s.place? t).isSome ∧ s.stackFrom t = t :: pathFrom s.path t.position := by
  obtain ⟨after, hsplit⟩ := h.isPath.exists_split hi ht (h.any_path_iff.2 hactive)
  have hstack : s.stack = after.reverse ++ t :: pathFrom s.path t.position := by
    rw [stack, hsplit, List.reverse_append, List.reverse_cons, List.append_assoc]
    rfl
  -- no vertex further outwards is at this position, for no position is on the path twice
  have hafter : after.reverse.findIdx? (fun u => u.position == t.position) = none := by
    rw [List.findIdx?_eq_none_iff]
    intro u hu
    have hnodup : (s.path.map Frame.vertex).Pairwise fun u v => u.position ≠ v.position :=
      List.pairwise_map.2 (List.pairwise_map.1 h.nodup)
    rw [hsplit] at hnodup
    have hne := (List.pairwise_cons.1 (List.pairwise_append.1 hnodup).2.1).1 u
      (List.mem_reverse.1 hu)
    exact beq_false_of_ne hne.symm
  have hplace : s.place? t = some after.reverse.length := by
    rw [place?, hstack, List.findIdx?_append, hafter, List.findIdx?_cons]
    simp
  refine ⟨by rw [hplace]; rfl, ?_⟩
  rw [stackFrom, hplace, hstack]
  exact List.drop_left

/-- The report that is made is that of the cycle which `follow` closes. -/
theorem Inv.cycleReport?_eq (hi : index.Sound) (h : s.Inv index) {t : Vertex}
    (ht : t ∈ index.owners) (hactive : s.visits t.position = .active) :
    cycleReport? (t :: pathFrom s.path t.position) = some (s.reportOf t) := by
  rw [cycleReport?, reportOf, (h.stackFrom_eq hi ht hactive).2]

/-! ## The reports agree -/

/-- The positions that have not been met. -/
def fresh (index : Index) (s : Search) : List Nat :=
  index.positions.filter fun p => s.visits p = .new

/-- Going to a vertex takes it from the positions that have not been met. -/
theorem fresh_enter (hi : index.Sound) (s : Search) (v : Vertex) :
    (s.enter index v).fresh index = (s.fresh index).erase v.position := by
  unfold fresh
  rw [(hi.nodup_positions.filter _).erase_eq_filter, List.filter_filter]
  refine List.filter_congr fun p _ => ?_
  by_cases hp : p = v.position
  · simp [enter, hp]
  · simp [enter, hp]

/-- Leaving a vertex that has been met takes nothing from them. -/
theorem fresh_leave {v : Vertex} (hv : s.visits v.position ≠ .new) (path : List Frame) :
    (s.leave v path).fresh index = s.fresh index := by
  refine List.filter_congr fun p _ => ?_
  by_cases hp : p = v.position
  · simp [leave, hp, hv]
  · simp [leave, hp]

/-- An owner has not been met when it is new. -/
theorem mem_fresh_iff {v : Vertex} (hv : v ∈ index.owners) :
    v.position ∈ s.fresh index ↔ s.visits v.position = .new := by
  have hposition : v.position ∈ index.positions :=
    List.mem_map_of_mem (Index.mem_vertices_of_mem_owners hv)
  rw [fresh, List.mem_filter, decide_eq_true_iff]
  exact and_iff_right hposition

/-- The cycles that `follow` and `searchFrom` close when they go on from a path and its roots. -/
def remaining (index : Index) (fresh : List Nat) (path : List Frame) (roots : List Vertex) :
    List (List Vertex) :=
  (follow index fresh path).1 ++ searchFrom index (follow index fresh path).2 roots

section

variable {fresh : List Nat} {v : Vertex} {w : Wire} {wires : List Wire} {path : List Frame}
  {root : Vertex} {roots : List Vertex}

/-- A root that has been met is passed. -/
theorem remaining_pass (h : root.position ∉ fresh) :
    remaining index fresh [] (root :: roots) = remaining index fresh [] roots := by
  rw [remaining, remaining, follow, searchFrom, if_neg h]

/-- A root that has not been met is where the search goes on. -/
theorem remaining_begin (h : root.position ∈ fresh) :
    remaining index fresh [] (root :: roots) =
      remaining index (fresh.erase root.position) [⟨root, index.outgoing root.position⟩] roots := by
  rw [remaining, follow, searchFrom, if_pos h]
  rfl

/-- A vertex is left when its wires are used up. -/
theorem remaining_leave :
    remaining index fresh (⟨v, []⟩ :: path) roots = remaining index fresh path roots := by
  rw [remaining, follow]
  rfl

/-- A wire to a fresh position leads on. -/
theorem remaining_enter (h : w.target.position ∈ fresh) :
    remaining index fresh (⟨v, w :: wires⟩ :: path) roots =
      remaining index (fresh.erase w.target.position)
        (⟨w.target, index.outgoing w.target.position⟩ :: ⟨v, wires⟩ :: path) roots := by
  rw [remaining, follow, dif_pos h]
  rfl

/-- A wire that leads back to the path closes a cycle. -/
theorem remaining_close (h : w.target.position ∉ fresh)
    (hon : (⟨v, wires⟩ :: path).any (fun f => f.vertex.position == w.target.position) = true) :
    remaining index fresh (⟨v, w :: wires⟩ :: path) roots =
      (w.target :: pathFrom (⟨v, wires⟩ :: path) w.target.position) ::
        remaining index fresh (⟨v, wires⟩ :: path) roots := by
  rw [remaining, follow, dif_neg h, if_pos hon]
  rfl

/-- A wire to a position that has been met and left is skipped. -/
theorem remaining_skip (h : w.target.position ∉ fresh)
    (hon : ¬ (⟨v, wires⟩ :: path).any (fun f => f.vertex.position == w.target.position) = true) :
    remaining index fresh (⟨v, w :: wires⟩ :: path) roots =
      remaining index fresh (⟨v, wires⟩ :: path) roots := by
  rw [remaining, follow, dif_neg h, if_neg hon]
  rfl

end

/-- The reports that have been made and those that are still to be made. -/
def outcome (index : Index) (s : Search) : List Diagnostic :=
  s.reports ++ (remaining index (s.fresh index) s.path s.roots).filterMap cycleReport?

/-- At first no position has been met. -/
theorem fresh_start (index : Index) : (start index).fresh index = index.positions :=
  List.filter_eq_self.2 fun p _ => by simp [start]

/-- From its start the search makes the reports of the check. -/
theorem outcome_start (index : Index) : (start index).outcome index = cyclesDetected index := by
  rw [outcome, fresh_start, start, remaining, follow]
  rfl

/-- At the end all reports have been made. -/
theorem outcome_last (hlast : s.step index = none) : s.outcome index = s.reports := by
  obtain ⟨hpath, hroots⟩ := step_eq_none_iff.1 hlast
  rw [outcome, remaining, hpath, hroots, follow, searchFrom]
  exact List.append_nil _

/-- No step changes the reports that will have been made. -/
theorem Inv.outcome_eq_of_step (hi : index.Sound) (h : s.Inv index)
    (hstep : s.step index = some s') : s'.outcome index = s.outcome index := by
  unfold outcome
  cases step_cases hstep with
  | @pass root roots hpath hroots hmet =>
    have hroot := (mem_fresh_iff (s := s) (h.roots root (hroots ▸ List.mem_cons_self))).not.2 hmet
    rw [hroots, hpath, remaining_pass hroot]
    rfl
  | @begin root roots hpath hroots hnew =>
    have hroot := (mem_fresh_iff (s := s) (h.roots root (hroots ▸ List.mem_cons_self))).2 hnew
    rw [hroots, fresh_enter hi, Search.enter, hpath, remaining_begin hroot]
    rfl
  | leave hpath =>
    rw [fresh_leave (by simp [h.visits_head hpath]), hpath, remaining_leave]
    rfl
  | enter hpath hnew =>
    have hw := (mem_fresh_iff (s := s) (hi.target_mem_owners (h.mem_wires hpath))).2 hnew
    rw [fresh_enter hi, hpath, remaining_enter hw]
    rfl
  | @close v w wires path hpath hactive =>
    have ht := hi.target_mem_owners (h.mem_wires hpath)
    have hw := (mem_fresh_iff (s := s) ht).not.2 (by simp [hactive])
    have hadvance := h.advance hpath
    have hreport : cycleReport? (w.target :: pathFrom (⟨v, wires⟩ :: path) w.target.position) =
        some ((s.advance w (⟨v, wires⟩ :: path)).reportOf w.target) :=
      hadvance.cycleReport?_eq hi ht hactive
    rw [hpath, remaining_close hw (hadvance.any_path_iff.2 hactive),
      List.filterMap_cons_some hreport]
    exact List.append_assoc _ _ _
  | @skip v w wires path hpath hdone =>
    have ht := hi.target_mem_owners (h.mem_wires hpath)
    have hw := (mem_fresh_iff (s := s) ht).not.2 (by simp [hdone])
    have hactive : ¬ (s.advance w (⟨v, wires⟩ :: path)).visits w.target.position = .active := by
      simp [Search.advance, hdone]
    have hon := (h.advance hpath).any_path_iff.not.2 hactive
    rw [hpath, remaining_skip hw hon]
    rfl

/-- A step reports a cycle when it closes one. -/
theorem length_closing_of_step (hstep : s.step index = some s')
    (h : s.closing.length = s.reports.length) : s'.closing.length = s'.reports.length := by
  cases step_cases hstep with
  | close => simpa [close, advance] using h
  | _ => exact h

/-- There is one report for each wire that closed a cycle. -/
theorem Runs.length_closing (hi : index.Sound) (hruns : Runs index (start index) s) :
    s.closing.length = s.reports.length :=
  hruns.preserves (P := fun s => s.closing.length = s.reports.length) hi rfl
    fun _ _ => length_closing_of_step

/-- Every state that is reached has the same outcome. -/
theorem Runs.outcome_eq (hi : index.Sound) (hruns : Runs index (start index) s) :
    s.outcome index = cyclesDetected index :=
  hruns.preserves (P := fun s => s.outcome index = cyclesDetected index) hi (outcome_start index)
    fun _ hinv hstep h => (hinv.outcome_eq_of_step hi hstep).trans h

/-! ## What closes no cycle -/

/-- With the wires that closed a cycle taken away, what is known of the positions that have been
left. -/
structure Settled (index : Index) (s : Search) : Prop where
  /-- The wires that leave the path are to be followed, lead to a position that ends, or lead to the
  next vertex on it. -/
  followed : Followed (index.without s.closing) none s.path
  /-- Every position that has been left ends. -/
  left : Left (index.without s.closing) (s.fresh index) s.path

/-- Before the first step no wire leaves a position that is not fresh. -/
theorem Settled.start (hi : index.Sound) : (start index).Settled index where
  followed := trivial
  left := by
    rw [fresh_start]
    exact (left_positions hi).mono (index.wires_without_subset _)

/-- Every step keeps what is known of the positions that have been left. -/
theorem Settled.step (hi : index.Sound) (hinv : s.Inv index) (h : s.Settled index)
    (hstep : s.step index = some s') : s'.Settled index := by
  obtain ⟨hfollowed, hleft⟩ := h
  have hsub := Index.outgoing_subset (index.wires_without_subset s.closing)
  cases step_cases hstep with
  | pass hpath hroots hmet => exact ⟨hfollowed, hleft⟩
  | @begin root roots hpath hroots hnew =>
    constructor
    · rw [Search.enter, hpath]
      exact ⟨fun u hu => .inl (hsub _ hu), trivial⟩
    · rw [fresh_enter hi]
      exact hleft.push
  | @leave v path hpath =>
    rw [hpath] at hfollowed hleft
    have hv := hfollowed.ends
    constructor
    · exact hfollowed.2.of_ends hv
    · rw [fresh_leave (by simp [hinv.visits_head hpath])]
      exact hleft.pop hv
  | @enter v w wires path hpath hnew =>
    rw [hpath] at hfollowed hleft
    have hbehind := hfollowed.skip fun _ => .inr (Eq.refl (some w.target.position))
    constructor
    · exact ⟨fun u hu => .inl (hsub _ hu), hbehind⟩
    · rw [fresh_enter hi]
      exact hleft.skip.push
  | @close v w wires path hpath hactive =>
    rw [hpath] at hfollowed hleft
    have hmore := index.wires_without_append_subset s.closing [w]
    constructor
    · -- the wire that is taken closes a cycle, so it is no longer counted
      refine (hfollowed.mono hmore).skip fun hw => ?_
      have hnot := (List.mem_filter.1 (Index.mem_outgoing.1 hw).1).2
      simp at hnot
    · exact hleft.skip.mono hmore
  | @skip v w wires path hpath hdone =>
    rw [hpath] at hfollowed hleft
    have ht := hi.target_mem_owners (hinv.mem_wires hpath)
    have hfresh := (mem_fresh_iff (s := s) ht).not.2 (by simp [hdone])
    -- the target has been left: it is neither fresh nor on the path
    have hw : (index.without s.closing).Ends w.target.position := by
      refine hleft _ hfresh fun f hf hposition => ?_
      have hactive := (hinv.active_iff w.target.position).2
        (List.mem_map.2 ⟨f, hpath ▸ hf, hposition⟩)
      rw [hdone] at hactive
      cases hactive
    exact ⟨hfollowed.skip fun _ => .inl hw, hleft.skip⟩

/-- Every state that is reached is settled. -/
theorem Runs.settled (hi : index.Sound) (hruns : Runs index (start index) s) : s.Settled index :=
  hruns.preserves hi (.start hi) fun _ hinv hstep h => h.step hi hinv hstep

/-- At the end the wires that closed no cycle form none. -/
theorem Settled.acyclic (hi : index.Sound) (h : s.Settled index) (hmet : s.Met index)
    (hlast : s.step index = none) : (index.without s.closing).Acyclic := by
  obtain ⟨hpath, hroots⟩ := step_eq_none_iff.1 hlast
  refine Index.acyclic_of_ends fun p => Index.ends_of_outgoing fun w hw => ?_
  have ht := hi.target_mem_owners
    (index.wires_without_subset _ (Index.mem_outgoing.1 hw).1)
  have hvisit := (hmet w.target ht).resolve_left (by rw [hroots]; simp)
  exact h.left _ ((mem_fresh_iff ht).not.2 hvisit) (by rw [hpath]; simp)

end Search

/-- A graph whose check for cycles reports nothing has none. -/
theorem acyclic_of_cyclesDetected (hi : index.Sound) (h : cyclesDetected index = []) :
    index.Acyclic := by
  obtain ⟨last, hruns, hlast⟩ := (Search.Inv.start index).exists_last hi
  have hreports : last.reports = [] := by
    rw [← Search.outcome_last hlast, hruns.outcome_eq hi, h]
  have hclosing : last.closing = [] := by
    rw [← List.length_eq_zero_iff, hruns.length_closing hi, hreports, List.length_nil]
  have hac := (hruns.settled hi).acyclic hi (hruns.met hi) hlast
  rwa [hclosing, Index.without_nil] at hac

end Validation

end CircuitGraph
