import TreeWalk.Proofs.Built

/-!
# Scopes that can arise

Scopes come about by being opened, and names by being bound in them to values that are at hand.
Evaluation does nothing else, so whatever holds of all scopes that can arise in this way holds
before, during and after every evaluation.

Results:
1. scopes that can arise have no dangling links, and each lies inside an older one
   (`Scopes.Arise.closed`);
2. one step: what is put together from actions that stay with such scopes stays with them
   (`Stays.bind`);
3. by induction on how it is put together, every action of the evaluator stays with them
   (`Built.stays`).
-/

namespace TreeWalk

/-! ## Scopes -/

/-- Scopes that come about when scopes are opened, on their own or inside others, and names are
bound in them. -/
inductive Scopes.Arise : Scopes → Prop
  | empty : Arise .empty
  | outermost {scopes : Scopes} : Arise scopes → Arise (scopes.push none)
  | inside {scopes : Scopes} {outer : ScopeId} :
      Arise scopes → outer < scopes.size → Arise (scopes.push (some outer))
  | bind {scopes : Scopes} {id : ScopeId} {name : String} {v : Value} :
      Arise scopes → id < scopes.size → v.Within scopes.size → Arise (scopes.bind id name v)

/-- Every function that is bound was made in a scope that is there, and every scope lies inside an
older one, if inside any. -/
structure Scopes.Closed (scopes : Scopes) : Prop where
  bound : ∀ {id s name v}, scopes.scope? id = some s → s.bindings.get? name = some v →
    v.Within scopes.size
  outer : ∀ {id s outer}, scopes.scope? id = some s → s.outer = some outer → outer < id

namespace Scopes

namespace Closed

variable {scopes : Scopes}

theorem push (closed : scopes.Closed) {outer : Option ScopeId}
    (older : ∀ id ∈ outer, id < scopes.size) : (scopes.push outer).Closed := by
  refine ⟨fun {id s name v} there own => ?_, fun {id s around} there isOuter => ?_⟩
  · rw [scope?_push] at there
    split at there
    · -- The new scope binds nothing.
      cases there
      cases own
    · rw [size_push]
      exact (closed.bound there own).mono (Nat.le_succ _)
  · rw [scope?_push] at there
    split at there
    · next new =>
      cases there
      exact new ▸ older around isOuter
    · exact closed.outer there isOuter

theorem bind (closed : scopes.Closed) (id : ScopeId) (name : String) {v : Value}
    (within : v.Within scopes.size) : (scopes.bind id name v).Closed := by
  refine ⟨fun {other s key w} there own => ?_, fun {other s around} there isOuter => ?_⟩
  · rw [size_bind]
    rw [scope?_bind] at there
    split at there
    · obtain ⟨before, found, rfl⟩ := Option.map_eq_some_iff.mp there
      rw [Bindings.get?_insert] at own
      split at own
      · cases own
        exact within
      · exact closed.bound found own
    · exact closed.bound there own
  · rw [scope?_bind] at there
    split at there
    · next same =>
      subst same
      obtain ⟨before, found, rfl⟩ := Option.map_eq_some_iff.mp there
      exact closed.outer found isOuter
    · exact closed.outer there isOuter

theorem find? (closed : scopes.Closed) {name : String} {id : ScopeId} {v : Value}
    (found : scopes.find? name id = some v) : v.Within scopes.size :=
  @of_find? scopes (fun _ => True) _ (fun _ => closed.bound) (fun _ _ _ _ => trivial) _ _ _ trivial
    found

end Closed

theorem Arise.push {scopes : Scopes} (arise : scopes.Arise) {outer : Option ScopeId}
    (older : ∀ id ∈ outer, id < scopes.size) : (scopes.push outer).Arise := by
  cases outer with
  | none => exact .outermost arise
  | some outer => exact .inside arise (older outer rfl)

theorem Arise.closed {scopes : Scopes} (arise : scopes.Arise) : scopes.Closed := by
  induction arise with
  | empty => exact ⟨nofun, nofun⟩
  | outermost _ ih => exact ih.push nofun
  | inside _ older ih => exact ih.push fun id isOuter => Option.mem_some.mp isOuter ▸ older
  | bind _ _ within ih => exact ih.bind _ _ within

end Scopes

/-! ## Actions that stay with such scopes -/

section

variable {α β : Type}

/-- `Stays size good action`: if there are so many scopes and they can arise, then so can those that
the action leaves.  They are no fewer, and a result is good in view of how many they are. -/
def Stays (size : Nat) (good : Nat → α → Prop) (action : Action α) : Prop :=
  ∀ scopes : Scopes, scopes.Arise → size ≤ scopes.size →
    (action scopes).scopes.Arise ∧ scopes.size ≤ (action scopes).scopes.size ∧
      ∀ a, (action scopes).outcome = .ok a → good (action scopes).scopes.size a

namespace Stays

variable {size : Nat} {good : Nat → α → Prop} {good' : Nat → β → Prop}

theorem pure {a : α} (isGood : ∀ n, size ≤ n → good n a) : Stays size good (Pure.pure a) :=
  fun _ arise enough => ⟨arise, Nat.le_refl _, fun _ same => by
    cases same
    exact isGood _ enough⟩

theorem stop (reason : Stop) : Stays size good (Action.stop reason) :=
  fun _ arise _ => ⟨arise, Nat.le_refl _, nofun⟩

theorem emit (event : Event) : Stays size (fun _ _ => True) (Action.emit event) :=
  fun _ arise _ => ⟨arise, Nat.le_refl _, fun _ _ => trivial⟩

theorem bind {action : Action α} {next : α → Action β} (first : Stays size good action)
    (second : ∀ n a, size ≤ n → good n a → Stays n good' (next a)) :
    Stays size good' (action >>= next) := by
  intro scopes arise enough
  obtain ⟨mid, grown, isGood⟩ := first scopes arise enough
  rcases ran : action scopes with ⟨reason | a, scopes', events⟩ <;>
    simp only [ran] at mid grown isGood
  · rw [Action.bind_of_error ran]
    exact ⟨mid, grown, nofun⟩
  · rw [Action.bind_of_ok ran]
    have more := Nat.le_trans enough grown
    obtain ⟨last, grown', isGood'⟩ :=
      second scopes'.size a more (isGood a rfl) scopes' mid (Nat.le_refl _)
    exact ⟨last, Nat.le_trans grown grown', isGood'⟩

theorem find? (name : String) (scope : ScopeId) :
    Stays size ResultWithin (Action.find? name scope) :=
  fun _ arise _ => ⟨arise, Nat.le_refl _, fun _ same _ isFound => by
    cases same
    exact arise.closed.find? isFound⟩

theorem bindName {scope : ScopeId} (there : scope < size) (name : String) {v : Value}
    (within : v.Within size) : Stays size (fun _ _ => True) (Action.bindName scope name v) :=
  fun _ arise enough =>
    ⟨.bind arise (Nat.lt_of_lt_of_le there enough) (within.mono enough),
      Nat.le_of_eq (Scopes.size_bind ..).symm, fun _ _ => trivial⟩

theorem opening {outer : Option ScopeId} (there : ∀ id ∈ outer, id < size) :
    Stays size (fun n scope => scope < n) (Action.opening outer) := by
  intro scopes arise enough
  have grown : (scopes.push outer).size = scopes.size + 1 := Scopes.size_push ..
  have older : ∀ id ∈ outer, id < scopes.size := fun id isOuter =>
    Nat.lt_of_lt_of_le (there id isOuter) enough
  refine ⟨arise.push older, ?_, fun scope same => ?_⟩
  · exact grown ▸ Nat.le_succ _
  · cases same
    exact grown ▸ Nat.lt_succ_self _

end Stays

theorem Built.stays {size : Nat} {good : Nat → α → Prop} {action : Action α}
    (built : Built size good action) : Stays size good action := by
  induction built with
  | pure isGood => exact .pure isGood
  | stop reason => exact .stop reason
  | emit event => exact .emit event
  | find? name scope => exact .find? name scope
  | bindName there name within => exact .bindName there name within
  | opening there => exact .opening there
  | bind _ _ first second => exact .bind first second

end

end TreeWalk
