import TreeWalk.Eval

/-!
# Contracts of actions

What is known of an action in given scopes: of each event on the way, of the reason why it stops, if
it does, and of its result otherwise.

Results:
1. if names stand for good values only, that stays so when scopes are opened and good values are
   bound (`Scopes.BindsOnly.push`, `Scopes.BindsOnly.bind`), and a good value is what is found
   (`Scopes.BindsOnly.find?`);
2. there is one lemma for each way to build an action, to be applied from its end to its beginning
   (`Action.Meets.bind`, `Action.Meets.bindName` and so on).
-/

namespace TreeWalk

/-! ## What names stand for -/

/-- Whatever a name stands for in any of the scopes is good. -/
structure Scopes.BindsOnly (good : Value → Prop) (scopes : Scopes) : Prop where
  bound : ∀ {id s name v}, scopes.scope? id = some s → s.bindings.get? name = some v → good v

namespace Scopes.BindsOnly

variable {good good' : Value → Prop} {scopes : Scopes}

theorem empty : Scopes.empty.BindsOnly good :=
  ⟨nofun⟩

theorem imp (binds : scopes.BindsOnly good) (weaker : ∀ v, good v → good' v) :
    scopes.BindsOnly good' :=
  ⟨fun there own => weaker _ (binds.bound there own)⟩

theorem push (binds : scopes.BindsOnly good) (outer : Option ScopeId) :
    (scopes.push outer).BindsOnly good := by
  refine ⟨fun {id s name v} there own => ?_⟩
  rw [scope?_push] at there
  split at there
  · -- The new scope binds nothing.
    cases there
    cases own
  · exact binds.bound there own

theorem bind (binds : scopes.BindsOnly good) (id : ScopeId) (name : String) {v : Value}
    (isGood : good v) : (scopes.bind id name v).BindsOnly good := by
  refine ⟨fun {other s key w} there own => ?_⟩
  rw [scope?_bind] at there
  split at there
  · obtain ⟨before, found, rfl⟩ := Option.map_eq_some_iff.mp there
    rw [Bindings.get?_insert] at own
    split at own
    · cases own
      exact isGood
    · exact binds.bound found own
  · exact binds.bound there own

theorem find? (binds : scopes.BindsOnly good) {name : String} {id : ScopeId} {v : Value}
    (found : scopes.find? name id = some v) : good v :=
  @of_find? scopes (fun _ => True) _ (fun _ => binds.bound) (fun _ _ _ _ => trivial) _ _ _ trivial
    found

end Scopes.BindsOnly

/-! ## What an action does -/

namespace Action

variable {α β : Type}

/-- In these scopes, the action lets no events be seen but those in `seen`.  If it stops, `stops`
holds of the reason and of the scopes it leaves, and otherwise `post` of the result and of them. -/
structure Meets (seen : Event → Prop) (stops : Stop → Scopes → Prop) (action : Action α)
    (scopes : Scopes) (post : α → Scopes → Prop) : Prop where
  events : ∀ event ∈ (action scopes).events, seen event
  stopped : ∀ reason, (action scopes).outcome = .error reason → stops reason (action scopes).scopes
  done : ∀ a, (action scopes).outcome = .ok a → post a (action scopes).scopes

namespace Meets

variable {seen : Event → Prop} {stops : Stop → Scopes → Prop} {scopes : Scopes}
variable {action : Action α} {next : α → Action β} {post post' : α → Scopes → Prop}
variable {last : β → Scopes → Prop}

theorem imp (meets : action.Meets seen stops scopes post)
    (weaker : ∀ a scopes', post a scopes' → post' a scopes') :
    action.Meets seen stops scopes post' :=
  ⟨meets.events, meets.stopped, fun a yields => weaker a _ (meets.done a yields)⟩

theorem pure {a : α} (holds : post a scopes) : Meets seen stops (Pure.pure a) scopes post :=
  ⟨nofun, nofun, fun _ yields => by
    cases yields
    exact holds⟩

theorem stop {reason : Stop} (holds : stops reason scopes) :
    Meets seen stops (Action.stop reason) scopes post :=
  ⟨nofun, fun _ stopped => by
    cases stopped
    exact holds, nofun⟩

/-- An action meets a contract if what comes behind it meets one in view of its result. -/
theorem bind (first : action.Meets seen stops scopes fun a scopes' =>
      (next a).Meets seen stops scopes' last) :
    (action >>= next).Meets seen stops scopes last := by
  rcases ran : action scopes with ⟨reason | a, scopes', events⟩
  · obtain ⟨isSeen, stopped, _⟩ := first
    rw [ran] at isSeen stopped
    refine ⟨?_, ?_, ?_⟩ <;> rw [bind_of_error ran]
    · exact isSeen
    · rintro _ ⟨⟩
      exact stopped reason rfl
    · exact nofun
  · obtain ⟨isSeen, _, done⟩ := first
    rw [ran] at isSeen done
    obtain ⟨isSeen', stopped', done'⟩ := done a rfl
    refine ⟨?_, ?_, ?_⟩ <;> rw [bind_of_ok ran]
    · exact fun event there => (List.mem_append.mp there).elim (isSeen event) (isSeen' event)
    · exact stopped'
    · exact done'

theorem emit {event : Event} {post : Unit → Scopes → Prop} (isSeen : seen event)
    (holds : post () scopes) : (Action.emit event).Meets seen stops scopes post :=
  ⟨fun _ there => List.mem_singleton.mp there ▸ isSeen, nofun, fun _ _ => holds⟩

theorem find? {name : String} {scope : ScopeId} {post : Option Value → Scopes → Prop}
    (holds : post (scopes.find? name scope) scopes) :
    (Action.find? name scope).Meets seen stops scopes post :=
  ⟨nofun, nofun, fun _ yields => by
    cases yields
    exact holds⟩

theorem bindName {scope : ScopeId} {name : String} {value : Value} {post : Unit → Scopes → Prop}
    (holds : post () (scopes.bind scope name value)) :
    (Action.bindName scope name value).Meets seen stops scopes post :=
  ⟨nofun, nofun, fun _ _ => holds⟩

theorem newScope {outer : ScopeId} {post : ScopeId → Scopes → Prop}
    (holds : post scopes.size (scopes.push (some outer))) :
    (Action.newScope outer).Meets seen stops scopes post :=
  ⟨nofun, nofun, fun _ yields => by
    cases yields
    exact holds⟩

theorem ofExcept {result : Except EvalError α}
    (fails : ∀ e, result = .error e → stops (.error e) scopes)
    (holds : ∀ a, result = .ok a → post a scopes) :
    (Action.ofExcept result).Meets seen stops scopes post := by
  cases result with
  | error e => exact stop (fails e rfl)
  | ok a => exact pure (holds a rfl)

theorem unlessReturned {value : Value} {next : Action Value} {post : Value → Scopes → Prop}
    (signal : value.isReturned → post value scopes)
    (plain : ¬ value.isReturned → next.Meets seen stops scopes post) :
    (Eval.unlessReturned value next).Meets seen stops scopes post := by
  unfold Eval.unlessReturned
  split
  · next returned => exact pure (signal returned)
  · next other => exact plain other

end Meets

end Action

end TreeWalk
