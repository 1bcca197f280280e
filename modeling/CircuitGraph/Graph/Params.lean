/-!
# Parameters

The parameters of a gadget are texts under names. A `Params` keeps one text for each name, with the
names in ascending order, so two parameter maps with the same content are equal. Inserting a name
that is present replaces its text.
-/

namespace CircuitGraph

/-- Texts under distinct names. -/
structure Params where
  /-- The names and their texts. -/
  entries : List (String × String)
  /-- The names ascend. -/
  ascending : entries.Pairwise fun a b => a.1 < b.1
deriving DecidableEq

namespace Params

/-- No parameters. -/
def empty : Params := ⟨[], .nil⟩

/-- Puts a text under a name in a list with ascending names. -/
def insertEntry (name text : String) : List (String × String) → List (String × String)
  | [] => [(name, text)]
  | (other, old) :: rest =>
    if name < other then (name, text) :: (other, old) :: rest
    else if other < name then (other, old) :: insertEntry name text rest
    else (other, text) :: rest

/-- Inserting adds no name but the given one. -/
theorem name_of_mem_insertEntry {name text : String} {entries : List (String × String)}
    {e : String × String} (h : e ∈ insertEntry name text entries) :
    e.1 = name ∨ ∃ old ∈ entries, old.1 = e.1 := by
  fun_induction insertEntry name text entries <;> grind

/-- Inserting keeps the names ascending. -/
theorem ascending_insertEntry {name text : String} {entries : List (String × String)}
    (h : entries.Pairwise fun a b => a.1 < b.1) :
    (insertEntry name text entries).Pairwise fun a b => a.1 < b.1 := by
  fun_induction insertEntry name text entries with
  | case1 => simp
  | case2 other old rest hlt =>
    refine List.pairwise_cons.2 ⟨fun e he => ?_, h⟩
    rcases List.mem_cons.1 he with rfl | he
    · exact hlt
    · exact String.lt_trans hlt (List.rel_of_pairwise_cons h he)
  | case3 other old rest _ hgt ih =>
    refine List.pairwise_cons.2 ⟨fun e he => ?_, ih (List.pairwise_cons.1 h).2⟩
    rcases name_of_mem_insertEntry he with hn | ⟨o, ho, hn⟩
    · exact hn ▸ hgt
    · exact hn ▸ List.rel_of_pairwise_cons h ho
  | case4 other old rest _ _ =>
    exact List.pairwise_cons.2 ⟨fun e he => List.rel_of_pairwise_cons h he,
      (List.pairwise_cons.1 h).2⟩

/-- Puts a text under a name, in place of the one that is there. -/
def insert (p : Params) (name text : String) : Params :=
  ⟨insertEntry name text p.entries, ascending_insertEntry p.ascending⟩

/-- The parameters of a list; of repeated names the last one counts. -/
def ofList (entries : List (String × String)) : Params :=
  entries.foldl (fun p (name, text) => p.insert name text) empty

/-- The text under a name. -/
def find? (p : Params) (name : String) : Option String := p.entries.lookup name

/-- Whether there are no parameters. -/
def isEmpty (p : Params) : Bool := p.entries.isEmpty

end Params

end CircuitGraph
