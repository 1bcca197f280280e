import Mathlib.Data.List.Count
import Mathlib.Logic.Relation

/-!
# A search that marks what it pushes

A search keeps a mark for each position and a stack of the positions that it still has to look at. A
position is marked when it is pushed, so it is pushed once, and every turn of the loop takes one
position from the stack (`Sweep.Runs`).

`Sweep.Follows` says what holds after each turn: the marks lie on paths from the starts, what
follows a marked position is marked unless the position is still on the stack, and there have been
as many turns as positions have left the stack. So the loop comes to its end after as many turns as
there are marks, and then it has marked exactly what the starts lead to (`Sweep.exists_runs`).
-/

namespace CircuitGraph

/-- The marks of a search and its stack. -/
structure Sweep where
  /-- Whether the position has been marked. -/
  marked : List Bool
  /-- The positions that have not been looked at, the last one pushed first. -/
  stack : List Nat

namespace Sweep

/-- Marks a position and pushes it, unless it is marked already. -/
def push (s : Sweep) (p : Nat) : Sweep :=
  if s.marked[p]? = some false then ⟨s.marked.set p true, p :: s.stack⟩ else s

/-- The search among a number of positions when the starts have been pushed. -/
def start (n : Nat) (starts : List Nat) : Sweep := starts.foldl push ⟨List.replicate n false, []⟩

/-- The loop goes in a number of turns to the state in which the stack is empty. -/
inductive Runs (next : Nat → List Nat) : Sweep → Nat → Sweep → Prop
  /-- Nothing is on the stack. -/
  | done {marked : List Bool} : Runs next ⟨marked, []⟩ 0 ⟨marked, []⟩
  /-- The position on top is taken away, and what follows it is pushed. -/
  | turn {marked : List Bool} {p turns : Nat} {stack : List Nat} {s : Sweep}
      (h : Runs next ((next p).foldl push ⟨marked, stack⟩) turns s) :
      Runs next ⟨marked, p :: stack⟩ (turns + 1) s

/-- A position is marked. -/
def Marks (s : Sweep) (p : Nat) : Prop := s.marked[p]? = some true

/-! ## Pushing -/

variable {s : Sweep} {p q : Nat}

/-- What pushing several positions does to a search. -/
structure Pushes (s : Sweep) (ps : List Nat) (s' : Sweep) : Prop where
  /-- There are as many positions as before. -/
  length_eq : s'.marked.length = s.marked.length
  /-- What is marked afterwards are the positions and what was marked before. -/
  marks_iff : ∀ q, s'.Marks q ↔ s.Marks q ∨ q ∈ ps
  /-- What is on the stack is marked, when it was before. -/
  stack : (∀ q ∈ s.stack, s.Marks q) → ∀ q ∈ s'.stack, s'.Marks q
  /-- What was on the stack is still there. -/
  subset : s.stack ⊆ s'.stack
  /-- What has been marked is on the stack. -/
  new : ∀ q, s'.Marks q → s.Marks q ∨ q ∈ s'.stack
  /-- There are as many new marks as new positions on the stack. -/
  count_eq : s'.marked.count true + s.stack.length = s.marked.count true + s'.stack.length

/-- Positions are pushed one after the other. -/
theorem Pushes.trans {s' s'' : Sweep} {ps qs : List Nat} (h : s.Pushes ps s')
    (h' : s'.Pushes qs s'') : s.Pushes (ps ++ qs) s'' where
  length_eq := h'.length_eq.trans h.length_eq
  marks_iff q := by rw [h'.marks_iff, h.marks_iff, List.mem_append, or_assoc]
  stack hs := h'.stack (h.stack hs)
  subset := List.Subset.trans h.subset h'.subset
  new q hq := by
    rcases h'.new q hq with hmarks | hstack
    · exact (h.new q hmarks).imp_right fun hstack => h'.subset hstack
    · exact .inr hstack
  count_eq := by
    have hcount := h.count_eq
    have hcount' := h'.count_eq
    omega

/-- Pushing a position that is not marked. -/
theorem pushes_unmarked (hp : s.marked[p]? = some false) :
    s.Pushes [p] ⟨s.marked.set p true, p :: s.stack⟩ := by
  obtain ⟨hlt, hfalse⟩ := List.getElem?_eq_some_iff.1 hp
  have hmarks (q : Nat) : Marks ⟨s.marked.set p true, p :: s.stack⟩ q ↔ s.Marks q ∨ q = p := by
    rw [Marks, Marks, List.getElem?_set]
    by_cases hq : p = q
    · subst hq
      simp [hlt]
    · simp [hq, Ne.symm hq]
  have hcount : (s.marked.set p true).count true = s.marked.count true + 1 := by
    rw [List.count_set hlt, hfalse]
    rfl
  refine ⟨List.length_set, fun q => by rw [hmarks, List.mem_singleton], fun hs q hq => ?_,
    List.subset_cons_self _ _, fun q hq => ?_, ?_⟩
  · rw [hmarks]
    exact (List.mem_cons.1 hq).symm.imp_left (hs q)
  · exact ((hmarks q).1 hq).imp_right fun heq => List.mem_cons.2 (.inl heq)
  · rw [hcount, List.length_cons]
    omega

/-- Pushing a position. -/
theorem pushes_push (hp : p < s.marked.length) : s.Pushes [p] (s.push p) := by
  rw [push]
  split
  · rename_i hfalse
    exact pushes_unmarked hfalse
  · rename_i hne
    have hmarks : s.Marks p := by
      rw [List.getElem?_eq_getElem hp, Option.some.injEq, Bool.not_eq_false] at hne
      rw [Marks, List.getElem?_eq_getElem hp, hne]
    refine ⟨rfl, fun q => ?_, fun hs => hs, fun _ => id, fun q hq => .inl hq, rfl⟩
    rw [List.mem_singleton]
    exact ⟨.inl, fun h => h.elim id fun heq => heq ▸ hmarks⟩

/-- Pushing several positions. -/
theorem pushes_foldl {ps : List Nat} (hps : ∀ p ∈ ps, p < s.marked.length) :
    s.Pushes ps (ps.foldl push s) := by
  induction ps generalizing s with
  | nil => exact ⟨rfl, by simp, fun hs => hs, fun _ => id, fun q hq => .inl hq, rfl⟩
  | cons p ps ih =>
    rw [List.forall_mem_cons] at hps
    have hpush := pushes_push hps.1
    exact hpush.trans (ih fun q hq => hpush.length_eq ▸ hps.2 q hq)

/-! ## The loop -/

variable {next : Nat → List Nat} {starts : List Nat} {n turns : Nat}

/-- What holds of a search after a number of turns. -/
structure Follows (s : Sweep) (next : Nat → List Nat) (starts : List Nat) (n turns : Nat) :
    Prop where
  /-- There is a mark for each position. -/
  length_eq : s.marked.length = n
  /-- The starts are marked. -/
  marks_starts : ∀ a ∈ starts, s.Marks a
  /-- A path leads from a start to every marked position. -/
  path : ∀ p, s.Marks p → ∃ a ∈ starts, Relation.ReflTransGen (fun a b => b ∈ next a) a p
  /-- What is on the stack is marked. -/
  stack : ∀ p ∈ s.stack, s.Marks p
  /-- What follows a marked position is marked, once the position is not on the stack. -/
  closed : ∀ p, s.Marks p → p ∉ s.stack → ∀ q ∈ next p, s.Marks q
  /-- Every turn has taken one marked position away. -/
  turns_eq : turns + s.stack.length = s.marked.count true

/-- The starts are pushed before the first turn. -/
theorem follows_start (hstarts : ∀ a ∈ starts, a < n) :
    (start n starts).Follows next starts n 0 := by
  have hnone (p : Nat) : ¬ Marks ⟨List.replicate n false, []⟩ p := by
    rw [Marks, List.getElem?_replicate]
    split <;> simp
  have hpushes : Pushes ⟨List.replicate n false, []⟩ starts (start n starts) :=
    pushes_foldl fun p hp => by simpa using hstarts p hp
  have hmarks (p : Nat) : (start n starts).Marks p ↔ p ∈ starts := by
    rw [hpushes.marks_iff, or_iff_right (hnone p)]
  constructor
  case length_eq => simpa using hpushes.length_eq
  case marks_starts => exact fun a ha => (hmarks a).2 ha
  case path => exact fun p hp => ⟨p, (hmarks p).1 hp, .refl⟩
  case stack => exact hpushes.stack nofun
  case closed => exact fun p hp hstack => absurd ((hpushes.new p hp).resolve_left (hnone p)) hstack
  case turns_eq =>
    have hcount : (List.replicate n false).count true = 0 := by
      simp [List.count_replicate]
    have hpushed := hpushes.count_eq
    simp only [hcount, List.length_nil] at hpushed
    omega

/-- A turn keeps what holds. -/
theorem Follows.turn (h : s.Follows next starts n turns) (hnext : ∀ a, ∀ b ∈ next a, b < n)
    {stack : List Nat} (hstack : s.stack = p :: stack) :
    ((next p).foldl push ⟨s.marked, stack⟩).Follows next starts n (turns + 1) := by
  have hpushes : Pushes ⟨s.marked, stack⟩ (next p) ((next p).foldl push ⟨s.marked, stack⟩) :=
    pushes_foldl fun q hq => h.length_eq ▸ hnext p q hq
  have hp : s.Marks p := h.stack p (hstack ▸ List.mem_cons_self)
  constructor
  case length_eq => exact hpushes.length_eq.trans h.length_eq
  case marks_starts => exact fun a ha => (hpushes.marks_iff a).2 (.inl (h.marks_starts a ha))
  case path =>
    intro q hq
    rcases (hpushes.marks_iff q).1 hq with hold | hnew
    · exact h.path q hold
    · obtain ⟨a, ha, hpath⟩ := h.path p hp
      exact ⟨a, ha, hpath.tail hnew⟩
  case stack => exact hpushes.stack fun q hq => h.stack q (hstack ▸ List.mem_cons_of_mem p hq)
  case closed =>
    intro q hq hout r hr
    refine (hpushes.marks_iff r).2 ?_
    -- the position has been marked before, since it would be on the stack otherwise
    have hold := (hpushes.new q hq).resolve_right hout
    by_cases hqp : q = p
    · exact .inr (hqp ▸ hr)
    · refine .inl (h.closed q hold (fun hmem => ?_) r hr)
      rw [hstack] at hmem
      exact hout (hpushes.subset ((List.mem_cons.1 hmem).resolve_left hqp))
  case turns_eq =>
    have hcount := hpushes.count_eq
    have hturns := h.turns_eq
    rw [hstack, List.length_cons] at hturns
    dsimp only at hcount
    omega

/-- When the stack is empty, exactly what the starts lead to is marked. -/
theorem Follows.marks_iff (h : s.Follows next starts n turns) (hstack : s.stack = []) :
    s.Marks p ↔ ∃ a ∈ starts, Relation.ReflTransGen (fun a b => b ∈ next a) a p := by
  refine ⟨h.path p, ?_⟩
  rintro ⟨a, ha, hpath⟩
  induction hpath with
  | refl => exact h.marks_starts a ha
  | tail _ hstep ih => exact h.closed _ ih (hstack ▸ List.not_mem_nil) _ hstep

/-- The loop comes to its end from any state that it may be in. -/
theorem Follows.exists_runs (h : s.Follows next starts n turns)
    (hnext : ∀ a, ∀ b ∈ next a, b < n) :
    ∃ s' rest, s.Runs next rest s' ∧ s'.Follows next starts n (turns + rest) ∧ s'.stack = [] := by
  obtain ⟨marked, stack⟩ := s
  induction hleft : n - turns generalizing marked stack turns with
  | zero =>
    -- there are no more turns than marks, and no more marks than positions
    have hturns : turns + stack.length = marked.count true := h.turns_eq
    have hcount : marked.count true ≤ n := h.length_eq ▸ List.count_le_length
    have hempty : stack = [] := List.eq_nil_of_length_eq_zero (by omega)
    subst hempty
    exact ⟨_, 0, .done, h, rfl⟩
  | succ left ih =>
    cases stack with
    | nil => exact ⟨_, 0, .done, h, rfl⟩
    | cons p stack =>
      obtain ⟨s', rest, hruns, hfollows, hempty⟩ := ih _ _ (h.turn hnext rfl) (by omega)
      rw [Nat.add_assoc, Nat.add_comm 1] at hfollows
      exact ⟨s', rest + 1, .turn hruns, hfollows, hempty⟩

/-- The loop ends after as many turns as there are marks, and marks exactly what the starts lead
to. -/
theorem exists_runs (hstarts : ∀ a ∈ starts, a < n) (hnext : ∀ a, ∀ b ∈ next a, b < n) :
    ∃ s, (start n starts).Runs next (s.marked.count true) s ∧ s.marked.length = n ∧
      ∀ p, s.Marks p ↔ ∃ a ∈ starts, Relation.ReflTransGen (fun a b => b ∈ next a) a p := by
  obtain ⟨s, turns, hruns, hfollows, hempty⟩ := (follows_start hstarts).exists_runs hnext
  have hturns : turns = s.marked.count true := by simpa [hempty] using hfollows.turns_eq
  exact ⟨s, hturns ▸ hruns, hfollows.length_eq, fun p => hfollows.marks_iff hempty⟩

/-- When the positions that the starts lead to are listed once each, the loop takes as many turns as
the list is long, and its marks say which positions are listed. -/
theorem exists_runs_of_mem_iff (hstarts : ∀ a ∈ starts, a < n) (hnext : ∀ a, ∀ b ∈ next a, b < n)
    {found : List Nat} (hnodup : found.Nodup) (hmem : ∀ p, p ∈ found ↔
      ∃ a ∈ starts, Relation.ReflTransGen (fun a b => b ∈ next a) a p) :
    ∃ s, (start n starts).Runs next found.length s ∧
      s.marked = (List.range n).map fun p => decide (p ∈ found) := by
  obtain ⟨s, hruns, hlength, hmarks⟩ := exists_runs hstarts hnext
  have hmarked : s.marked = (List.range n).map fun p => decide (p ∈ found) := by
    refine List.ext_getElem (by simp [hlength]) fun p hp hp' => ?_
    have hiff : s.marked[p] = true ↔ p ∈ found := by
      rw [hmem, ← hmarks, Marks, List.getElem?_eq_getElem hp, Option.some.injEq]
    rw [List.getElem_map, List.getElem_range, Bool.eq_iff_iff, hiff, decide_eq_true_iff]
  -- all that is found is a position, because it is marked
  have hperm : ((List.range n).filter fun p => decide (p ∈ found)).Perm found := by
    refine (List.perm_ext_iff_of_nodup (List.nodup_range.filter _) hnodup).2 fun p => ?_
    rw [List.mem_filter, List.mem_range, decide_eq_true_iff, and_iff_right_iff_imp]
    intro hp
    have hp : s.marked[p]? = some true := (hmarks p).2 ((hmem p).1 hp)
    exact hlength ▸ (List.getElem?_eq_some_iff.1 hp).1
  have hcount : s.marked.count true = found.length := by
    rw [← hperm.length_eq, hmarked, List.count_eq_countP, List.countP_map,
      List.countP_eq_length_filter]
    exact congrArg List.length (List.filter_congr fun p _ => by simp)
  exact ⟨s, hcount ▸ hruns, hmarked⟩

end Sweep

end CircuitGraph
