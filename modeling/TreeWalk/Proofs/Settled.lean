import TreeWalk.Eval

/-!
# Settled scopes

A scope may bind a name to a return in progress if whoever made it did so.  As long as evaluation
cannot get at such a binding, it does not make one either.

Results:
1. a region that binds good values only stays so when scopes are opened and good values are bound in
   it (`Scopes.Confines.push`, `Scopes.Confines.bind`), and what is looked up in it is good
   (`Scopes.Confines.of_find?`);
2. what can be reached from a scope without such bindings makes a region that is free of them
   (`Scopes.Untainted.settled`).
-/

namespace TreeWalk

/-! ## What can be reached -/

/-- `Reaches scopes start id`: looking up names and calling functions can lead from the one scope to
the other. -/
inductive Scopes.Reaches (scopes : Scopes) (start : ScopeId) : ScopeId → Prop
  | start : Reaches scopes start start
  | outer {id outer : ScopeId} {scope : Scope} :
      Reaches scopes start id → scopes.scope? id = some scope → scope.outer = some outer →
      outer < id → Reaches scopes start outer
  | function {id : ScopeId} {scope : Scope} {name : String} {closure : Closure} :
      Reaches scopes start id → scopes.scope? id = some scope →
      scope.bindings.get? name = some (.function closure) → Reaches scopes start closure.scope

/-- No return in progress is bound in a scope that can be reached. -/
def Scopes.Untainted (scopes : Scopes) (start : ScopeId) : Prop :=
  ∀ {id : ScopeId} {scope : Scope} {name : String} {value : Value}, scopes.Reaches start id →
    scopes.scope? id = some scope → scope.bindings.get? name = some value → value.isReturned = false

/-- The value is no return in progress, and neither can it reach one. -/
structure Value.Untainted (scopes : Scopes) (value : Value) : Prop where
  plain : value.isReturned = false
  inside : ∀ closure, value = .function closure → scopes.Untainted closure.scope

/-! ## Regions -/

/-- `scopes.Confines region good`: in the scopes of the region, names stand for good values only,
and no outer link leads out of it.  Scopes that are not opened yet belong to it. -/
structure Scopes.Confines (region : ScopeId → Prop) (good : Value → Prop) (scopes : Scopes) :
    Prop where
  fresh : ∀ id, scopes.size ≤ id → region id
  bound : ∀ {id scope name value}, region id → scopes.scope? id = some scope →
    scope.bindings.get? name = some value → good value
  outer : ∀ {id scope outer}, region id → scopes.scope? id = some scope →
    scope.outer = some outer → outer < id → region outer

namespace Scopes.Confines

variable {region : ScopeId → Prop} {good : Value → Prop} {scopes : Scopes}

theorem of_find? (confines : scopes.Confines region good) {name : String} {id : ScopeId}
    {value : Value} (inside : region id) (found : scopes.find? name id = some value) :
    good value :=
  Scopes.of_find? confines.bound confines.outer inside found

theorem push (confines : scopes.Confines region good) {outer : ScopeId} (inside : region outer) :
    (scopes.push (some outer)).Confines region good := by
  refine ⟨?_, ?_, ?_⟩
  · intro id missing
    rw [size_push] at missing
    exact confines.fresh id (Nat.le_of_succ_le missing)
  · intro id scope name value member there own
    rw [scope?_push] at there
    split at there
    · -- The new scope binds nothing.
      cases there
      cases own
    · exact confines.bound member there own
  · intro id scope outer' member there around older
    rw [scope?_push] at there
    split at there
    · cases there
      cases around
      exact inside
    · exact confines.outer member there around older

theorem bind (confines : scopes.Confines region good) (id : ScopeId) (name : String) {value : Value}
    (isGood : good value) : (scopes.bind id name value).Confines region good := by
  refine ⟨?_, ?_, ?_⟩
  · intro other missing
    rw [size_bind] at missing
    exact confines.fresh other missing
  · intro other scope key bound member there own
    rw [scope?_bind] at there
    split at there
    · next same =>
      subst same
      obtain ⟨before, found, rfl⟩ := Option.map_eq_some_iff.mp there
      rw [Bindings.get?_insert] at own
      split at own
      · cases own
        exact isGood
      · exact confines.bound member found own
    · exact confines.bound member there own
  · intro other scope outer member there around older
    rw [scope?_bind] at there
    split at there
    · next same =>
      subst same
      obtain ⟨before, found, rfl⟩ := Option.map_eq_some_iff.mp there
      exact confines.outer member found around older
    · exact confines.outer member there around older

end Scopes.Confines

/-! ## Regions without returns in progress -/

/-- The value is no return in progress, and a function is one of the region. -/
structure Value.Settled (region : ScopeId → Prop) (value : Value) : Prop where
  plain : value.isReturned = false
  inside : ∀ closure, value = .function closure → region closure.scope

/-- Scopes in which a region is closed and binds no return in progress.  Scopes that are not opened
yet belong to it. -/
structure Settled (region : ScopeId → Prop) (scopes : Scopes) : Prop where
  fresh : ∀ id, scopes.size ≤ id → region id
  bound : ∀ {id scope name value}, region id → scopes.scope? id = some scope →
    scope.bindings.get? name = some value → value.Settled region
  outer : ∀ {id scope outer}, region id → scopes.scope? id = some scope →
    scope.outer = some outer → outer < id → region outer

/-- What can be reached from some scopes, together with all scopes that are still to be opened. -/
def Scopes.Region (scopes : Scopes) (starts : ScopeId → Prop) (id : ScopeId) : Prop :=
  (∃ start, starts start ∧ scopes.Reaches start id) ∨ scopes.size ≤ id

theorem Scopes.Untainted.settled {scopes : Scopes} {starts : ScopeId → Prop}
    (untainted : ∀ start, starts start → scopes.Untainted start) :
    TreeWalk.Settled (scopes.Region starts) scopes := by
  refine ⟨fun id missing => .inr missing, ?_, ?_⟩
  · intro id scope name value inside there own
    rcases inside with ⟨start, isStart, reaches⟩ | missing
    · refine ⟨untainted start isStart reaches there own, ?_⟩
      rintro closure rfl
      exact .inl ⟨start, isStart, reaches.function there own⟩
    · rw [scope?_eq_none missing] at there
      cases there
  · intro id scope outer inside there around older
    rcases inside with ⟨start, isStart, reaches⟩ | missing
    · exact .inl ⟨start, isStart, reaches.outer there around older⟩
    · rw [scope?_eq_none missing] at there
      cases there

namespace Settled

variable {region : ScopeId → Prop} {scopes : Scopes}

theorem iff_confines :
    Settled region scopes ↔ scopes.Confines region (Value.Settled region) :=
  ⟨fun ⟨fresh, bound, outer⟩ => ⟨fresh, bound, outer⟩,
    fun ⟨fresh, bound, outer⟩ => ⟨fresh, bound, outer⟩⟩

theorem of_find? (settled : Settled region scopes) {name : String} {id : ScopeId} {value : Value}
    (inside : region id) (found : scopes.find? name id = some value) : value.Settled region :=
  (iff_confines.mp settled).of_find? inside found

theorem push (settled : Settled region scopes) {outer : ScopeId} (inside : region outer) :
    Settled region (scopes.push (some outer)) :=
  iff_confines.mpr ((iff_confines.mp settled).push inside)

theorem bind (settled : Settled region scopes) (id : ScopeId) (name : String) {value : Value}
    (isSettled : value.Settled region) : Settled region (scopes.bind id name value) :=
  iff_confines.mpr ((iff_confines.mp settled).bind id name isSettled)

end Settled

end TreeWalk
