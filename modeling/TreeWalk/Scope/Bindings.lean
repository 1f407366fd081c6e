import TreeWalk.Value

/-!
# Bindings

What the names of one scope stand for.  The entries are kept in the order of their names, each name
once, so bindings that answer every question alike are equal.

Results:
1. writing a name changes what it stands for and nothing else (`Bindings.get?_insert`);
2. bindings with the same answers are the same (`Bindings.ext_get?`), so names may be written in any
   order (`Bindings.insert_comm`).
-/

namespace TreeWalk

/-- One name and what it stands for. -/
abbrev Entry := String × Value

namespace Entries

/-- The entries of ascending names. -/
def Sorted (entries : List Entry) : Prop :=
  entries.Pairwise fun a b => a.1 < b.1

/-- The value beside a name. -/
def find? (name : String) : List Entry → Option Value
  | [] => none
  | entry :: entries => if entry.1 = name then some entry.2 else find? name entries

/-- The entries with a value put beside a name, in place of the old one or where it belongs. -/
def insert (name : String) (value : Value) : List Entry → List Entry
  | [] => [(name, value)]
  | entry :: entries =>
    if name < entry.1 then (name, value) :: entry :: entries
    else if entry.1 < name then entry :: insert name value entries
    else (name, value) :: entries

theorem eq_of_not_lt {a b : String} (left : ¬ a < b) (right : ¬ b < a) : a = b :=
  String.le_antisymm (String.not_lt.mp right) (String.not_lt.mp left)

theorem mem_insert {name : String} {value : Value} {entries : List Entry} {entry : Entry}
    (member : entry ∈ insert name value entries) : entry = (name, value) ∨ entry ∈ entries := by
  induction entries with
  | nil => simpa [insert] using member
  | cons head tail ih =>
    unfold insert at member
    split at member
    · simpa using member
    · split at member
      · rcases List.mem_cons.mp member with rfl | inTail
        · exact .inr (List.mem_cons_self ..)
        · exact (ih inTail).imp_right (List.mem_cons_of_mem _)
      · rcases List.mem_cons.mp member with rfl | inTail
        · exact .inl rfl
        · exact .inr (List.mem_cons_of_mem _ inTail)

theorem sorted_insert {entries : List Entry} (sorted : Sorted entries) (name : String)
    (value : Value) : Sorted (insert name value entries) := by
  induction entries with
  | nil => simp [insert, Sorted]
  | cons head tail ih =>
    obtain ⟨below, sortedTail⟩ := List.pairwise_cons.mp sorted
    unfold insert
    split
    · next first =>
      refine List.pairwise_cons.mpr ⟨fun entry member => ?_, sorted⟩
      rcases List.mem_cons.mp member with rfl | inTail
      · exact first
      · exact String.lt_trans first (below entry inTail)
    · split
      · next later =>
        refine List.pairwise_cons.mpr ⟨fun entry member => ?_, ih sortedTail⟩
        rcases mem_insert member with rfl | inTail
        · exact later
        · exact below entry inTail
      · next notFirst notLater =>
        have same := eq_of_not_lt notFirst notLater
        exact List.pairwise_cons.mpr ⟨fun entry member => same ▸ below entry member, sortedTail⟩

theorem find?_insert (name key : String) (value : Value) (entries : List Entry) :
    find? key (insert name value entries) =
      if key = name then some value else find? key entries := by
  induction entries with
  | nil => simp [insert, find?, eq_comm]
  | cons head tail ih =>
    unfold insert
    split
    · simp [find?, eq_comm]
    · split
      · next later =>
        have differ : head.1 ≠ name := fun same => String.lt_irrefl _ (same ▸ later)
        by_cases here : head.1 = key
        · simp [find?, here, here ▸ differ]
        · simp [find?, here, ih]
      · next notFirst notLater =>
        have same := eq_of_not_lt notFirst notLater
        by_cases here : name = key
        · simp [find?, here]
        · simp [find?, here, Ne.symm here, ← same]

theorem find?_eq_none_of_lt (name : String) (entries : List Entry)
    (below : ∀ entry ∈ entries, name < entry.1) : find? name entries = none := by
  induction entries with
  | nil => rfl
  | cons head tail ih =>
    have differ : head.1 ≠ name := fun same =>
      String.lt_irrefl _ (same ▸ below head (List.mem_cons_self ..))
    rw [find?, if_neg differ]
    exact ih fun entry member => below entry (List.mem_cons_of_mem _ member)

theorem eq_of_find? {a b : List Entry} (sortedA : Sorted a) (sortedB : Sorted b)
    (same : ∀ name, find? name a = find? name b) : a = b := by
  induction a generalizing b with
  | nil =>
    cases b with
    | nil => rfl
    | cons head tail => simpa [find?] using same head.1
  | cons x xs ih =>
    cases b with
    | nil => simpa [find?] using same x.1
    | cons y ys =>
      obtain ⟨belowX, sortedX⟩ := List.pairwise_cons.mp sortedA
      obtain ⟨belowY, sortedY⟩ := List.pairwise_cons.mp sortedB
      have notLess : ¬ x.1 < y.1 := fun less => by
        have none := find?_eq_none_of_lt x.1 (y :: ys) fun entry member => by
          rcases List.mem_cons.mp member with rfl | inTail
          · exact less
          · exact String.lt_trans less (belowY entry inTail)
        have found := same x.1
        rw [none, find?, if_pos rfl] at found
        cases found
      have notMore : ¬ y.1 < x.1 := fun less => by
        have none := find?_eq_none_of_lt y.1 (x :: xs) fun entry member => by
          rcases List.mem_cons.mp member with rfl | inTail
          · exact less
          · exact String.lt_trans less (belowX entry inTail)
        have found := same y.1
        rw [none, find?, if_pos rfl] at found
        cases found
      have sameName : x.1 = y.1 := eq_of_not_lt notLess notMore
      have sameValue : x.2 = y.2 := by simpa [find?, sameName] using same x.1
      have sameTail : xs = ys := ih sortedX sortedY fun name => by
        by_cases here : x.1 = name
        · rw [find?_eq_none_of_lt name xs (here ▸ belowX),
            find?_eq_none_of_lt name ys (here ▸ sameName ▸ belowY)]
        · simpa [find?, here, sameName ▸ here] using same name
      rw [sameTail, Prod.ext sameName sameValue]

end Entries

/-- The bindings of a scope. -/
structure Bindings where
  entries : List Entry
  sorted : Entries.Sorted entries

namespace Bindings

def empty : Bindings :=
  ⟨[], List.Pairwise.nil⟩

/-- What a name stands for. -/
def get? (bindings : Bindings) (name : String) : Option Value :=
  Entries.find? name bindings.entries

/-- The bindings after a name is bound, anew or again. -/
def insert (bindings : Bindings) (name : String) (value : Value) : Bindings :=
  ⟨Entries.insert name value bindings.entries, Entries.sorted_insert bindings.sorted name value⟩

/-- The bound names, in ascending order. -/
def names (bindings : Bindings) : List String :=
  bindings.entries.map Prod.fst

@[simp] theorem get?_empty (name : String) : empty.get? name = none :=
  rfl

theorem get?_insert (bindings : Bindings) (name key : String) (value : Value) :
    (bindings.insert name value).get? key =
      if key = name then some value else bindings.get? key :=
  Entries.find?_insert name key value bindings.entries

theorem ext_get? {a b : Bindings} (same : ∀ name, a.get? name = b.get? name) : a = b := by
  cases a with
  | mk entriesA sortedA =>
    cases b with
    | mk entriesB sortedB =>
      cases Entries.eq_of_find? sortedA sortedB same
      rfl

/-- It does not matter in which order two names are bound. -/
theorem insert_comm (bindings : Bindings) {a b : String} (differ : a ≠ b) (v w : Value) :
    (bindings.insert a v).insert b w = (bindings.insert b w).insert a v := by
  refine ext_get? fun name => ?_
  simp only [get?_insert]
  by_cases isB : name = b
  · rw [if_pos isB, if_neg fun isA => differ (isA.symm.trans isB), if_pos isB]
  · rw [if_neg isB, if_neg isB]

end Bindings

end TreeWalk
