import TreeWalk.Scope.Bindings

/-!
# Scopes

A scope binds names and may lie inside an older scope, in which names are looked up that it does
not bind itself.  Scopes are shared: a function keeps the number of the scope it was made in and
sees what is bound there later.

Results:
1. opening a scope changes no other (`Scopes.scope?_push`), and binding a name changes nothing but
   what that name stands for in that scope (`Scopes.scope?_bind`), so what is done to different
   names and scopes may be done in any order (`Scopes.bind_comm`, `Scopes.push_bind`);
2. a look-up takes the scope's own binding and otherwise asks the scope around it
   (`Scopes.find?_of_own`, `Scopes.find?_of_outer`, `Scopes.find?_of_outermost`), so what it finds
   is bound in one of the scopes that it gets to (`Scopes.of_find?`), and other names make no
   difference to it (`Scopes.find?_bind_of_ne`).
-/

namespace TreeWalk

/-- A scope: its own bindings, and the scope around it. -/
structure Scope where
  bindings : Bindings
  outer : Option ScopeId

/-- All scopes there are, each at its number. -/
structure Scopes where
  all : Array Scope

namespace Scopes

def empty : Scopes :=
  ⟨#[]⟩

/-- How many scopes there are, which is also the number of the next one. -/
def size (scopes : Scopes) : Nat :=
  scopes.all.size

/-- The scope of a given number. -/
def scope? (scopes : Scopes) (id : ScopeId) : Option Scope :=
  scopes.all[id]?

/-- Opens a scope that binds nothing yet. -/
def push (scopes : Scopes) (outer : Option ScopeId) : Scopes :=
  ⟨scopes.all.push ⟨.empty, outer⟩⟩

/-- Binds a name in one scope. -/
def bind (scopes : Scopes) (id : ScopeId) (name : String) (value : Value) : Scopes :=
  ⟨scopes.all.modify id fun scope => { scope with bindings := scope.bindings.insert name value }⟩

/-- What a name stands for, seen from a scope: its binding in the nearest scope that has one.  An
outer scope is older than the scope inside it; a link to any other is not followed. -/
def find? (scopes : Scopes) (name : String) (id : ScopeId) : Option Value :=
  match scopes.scope? id with
  | none => none
  | some scope =>
    match scope.bindings.get? name with
    | some value => some value
    | none =>
      match scope.outer with
      | none => none
      | some outer => if outer < id then scopes.find? name outer else none
termination_by id

/-- A scope as it is shown: the names bound in it, and whether it lies inside another. -/
def describe (scopes : Scopes) (id : ScopeId) : String :=
  match scopes.scope? id with
  | none => ""
  | some scope =>
    let quoted := scope.bindings.names.map fun name => "\"" ++ name ++ "\""
    "Environment \x7b names: [" ++ ", ".intercalate quoted ++ "], enclosed: " ++
      (if scope.outer.isSome then "true" else "false") ++ " \x7d"

/-! ## Opening and binding -/

@[simp] theorem size_push (scopes : Scopes) (outer : Option ScopeId) :
    (scopes.push outer).size = scopes.size + 1 :=
  Array.size_push ..

@[simp] theorem size_bind (scopes : Scopes) (id : ScopeId) (name : String) (value : Value) :
    (scopes.bind id name value).size = scopes.size := by
  simp [size, bind]

theorem scope?_push (scopes : Scopes) (outer : Option ScopeId) (id : ScopeId) :
    (scopes.push outer).scope? id =
      if id = scopes.size then some ⟨.empty, outer⟩ else scopes.scope? id :=
  Array.getElem?_push

theorem scope?_bind (scopes : Scopes) (id other : ScopeId) (name : String) (value : Value) :
    (scopes.bind id name value).scope? other =
      if other = id then
        (scopes.scope? id).map fun s => { s with bindings := s.bindings.insert name value }
      else scopes.scope? other := by
  simp only [scope?, bind]
  rw [Array.getElem?_modify]
  by_cases same : id = other
  · simp [same]
  · simp [same, Ne.symm same]

theorem lt_size_of_scope? {scopes : Scopes} {id : ScopeId} {s : Scope}
    (there : scopes.scope? id = some s) : id < scopes.size :=
  (Array.getElem?_eq_some_iff.mp there).1

theorem exists_scope? {scopes : Scopes} {id : ScopeId} (older : id < scopes.size) :
    ∃ s, scopes.scope? id = some s :=
  ⟨_, Array.getElem?_eq_getElem older⟩

theorem scope?_eq_none {scopes : Scopes} {id : ScopeId} (missing : scopes.size ≤ id) :
    scopes.scope? id = none :=
  Array.getElem?_eq_none missing

theorem ext_scope? {a b : Scopes} (same : ∀ id, a.scope? id = b.scope? id) : a = b := by
  cases a
  exact congrArg Scopes.mk (Array.ext_getElem? same)

/-- Two bindings of different names may be made in either order. -/
theorem bind_comm (scopes : Scopes) (id other : ScopeId) {a b : String} (differ : a ≠ b)
    (v w : Value) :
    (scopes.bind id a v).bind other b w = (scopes.bind other b w).bind id a v := by
  refine ext_scope? fun n => ?_
  simp only [scope?_bind]
  by_cases isId : n = id <;> by_cases isOther : n = other
  · subst isId isOther
    simp [Function.comp_def, Bindings.insert_comm _ differ]
  all_goals simp_all

/-- A scope that is there does not change when another one is opened. -/
theorem push_bind (scopes : Scopes) {id : ScopeId} (there : id < scopes.size) (name : String)
    (v : Value) (outer : Option ScopeId) :
    (scopes.bind id name v).push outer = (scopes.push outer).bind id name v := by
  refine ext_scope? fun n => ?_
  have old : id ≠ scopes.size := Nat.ne_of_lt there
  simp only [scope?_push, scope?_bind, size_bind, if_neg old]
  by_cases new : n = scopes.size
  · simp [new, old.symm]
  · simp [new]

/-! ## Looking up -/

theorem find?_of_own {scopes : Scopes} {id : ScopeId} {scope : Scope} {name : String}
    {value : Value} (there : scopes.scope? id = some scope)
    (own : scope.bindings.get? name = some value) : scopes.find? name id = some value := by
  rw [find?, there]
  simp [own]

theorem find?_of_outer {scopes : Scopes} {id outer : ScopeId} {scope : Scope} {name : String}
    (there : scopes.scope? id = some scope) (absent : scope.bindings.get? name = none)
    (around : scope.outer = some outer) (older : outer < id) :
    scopes.find? name id = scopes.find? name outer := by
  rw [find?, there]
  simp [absent, around, older]

theorem find?_of_outermost {scopes : Scopes} {id : ScopeId} {scope : Scope} {name : String}
    (there : scopes.scope? id = some scope) (absent : scope.bindings.get? name = none)
    (alone : scope.outer = none) : scopes.find? name id = none := by
  rw [find?, there]
  simp [absent, alone]

theorem get?_of_scope?_bind {scopes : Scopes} {start : ScopeId} {s : Scope}
    (there : scopes.scope? start = some s) (id : ScopeId) {name key : String} (differ : key ≠ name)
    (v : Value) : ∃ bindings, (scopes.bind id name v).scope? start = some ⟨bindings, s.outer⟩ ∧
      bindings.get? key = s.bindings.get? key := by
  rw [scope?_bind]
  split
  · next here =>
    subst here
    rw [there]
    exact ⟨_, rfl, by rw [Bindings.get?_insert, if_neg differ]⟩
  · exact ⟨s.bindings, there, rfl⟩

/-- A binding makes no difference to other names. -/
theorem find?_bind_of_ne (scopes : Scopes) (id : ScopeId) {name key : String} (differ : key ≠ name)
    (v : Value) (start : ScopeId) :
    (scopes.bind id name v).find? key start = scopes.find? key start := by
  -- An outer scope is looked at only if it is older, so the induction is on the scope.
  induction start using Nat.strongRecOn with
  | ind start ih =>
    unfold find?
    cases there : scopes.scope? start with
    | none =>
      have there' : (scopes.bind id name v).scope? start = none := by
        rw [scope?_bind]
        split <;> simp_all
      rw [there']
    | some s =>
      obtain ⟨bindings, there', same⟩ := get?_of_scope?_bind there id differ v
      simp only [there', same]
      cases s.bindings.get? key with
      | some _ => rfl
      | none =>
        cases s.outer with
        | none => rfl
        | some outer =>
          dsimp only
          split
          · next older => exact ih outer older
          · rfl

/-- What is found is as everything is that is bound in a region which no outer link leaves. -/
theorem of_find? {scopes : Scopes} {region : ScopeId → Prop} {good : Value → Prop}
    (bound : ∀ {id s name v}, region id → scopes.scope? id = some s →
      s.bindings.get? name = some v → good v)
    (outer : ∀ {id s outer}, region id → scopes.scope? id = some s → s.outer = some outer →
      outer < id → region outer)
    {name : String} {id : ScopeId} {value : Value} (inside : region id)
    (found : scopes.find? name id = some value) : good value := by
  -- An outer scope is looked at only if it is older, so the induction is on the scope.
  induction id using Nat.strongRecOn with
  | ind id ih =>
    unfold find? at found
    split at found
    · cases found
    · next there =>
      split at found
      · next own =>
        cases found
        exact bound inside there own
      · split at found
        · cases found
        · next around =>
          split at found
          · next older => exact ih _ older (outer inside there around older) found
          · cases found

end Scopes

end TreeWalk
