import TreeWalk.Scope

/-!
# Actions

An action of the evaluator runs on all scopes there are.  It yields a result or stops, and in
either case it leaves the scopes as they are then and a list of the events on the way.

Results:
1. actions are a monad in which a stop skips what follows it and keeps what was done before it
   (the instance of `LawfulMonad`).
-/

namespace TreeWalk

/-- What can be seen of an evaluation from outside while it runs. -/
inductive Event where
  /-- A value was applied to arguments, whether or not it can be. -/
  | applied (callee : Value) (args : List Value)
  /-- A value was printed. -/
  | printed (value : Value)
deriving DecidableEq

/-- Why an action yields no result. -/
inductive Stop where
  | error (error : EvalError)
  /-- Calls are nested deeper than they may be. -/
  | tooDeep
deriving DecidableEq

/-- What comes of an action: its result, the scopes after it, and the events on the way. -/
structure Run (α : Type) where
  outcome : Except Stop α
  scopes : Scopes
  events : List Event

/-- An action of the evaluator. -/
def Action (α : Type) : Type :=
  Scopes → Run α

namespace Action

variable {α β : Type}

/-! ## Sequencing -/

/-- The action that does nothing and yields `a`. -/
@[always_inline, inline]
protected def pure (a : α) : Action α := fun scopes =>
  ⟨.ok a, scopes, []⟩

/-- One action after another, unless the first stops. -/
@[always_inline, inline]
protected def bind (action : Action α) (next : α → Action β) : Action β := fun scopes =>
  match action scopes with
  | ⟨.error stop, scopes, events⟩ => ⟨.error stop, scopes, events⟩
  | ⟨.ok a, scopes, before⟩ =>
    match next a scopes with
    | ⟨outcome, scopes, after⟩ => ⟨outcome, scopes, before ++ after⟩

instance : Monad Action where
  pure := Action.pure
  bind := Action.bind

theorem pure_apply (a : α) (scopes : Scopes) :
    (pure a : Action α) scopes = ⟨.ok a, scopes, []⟩ :=
  rfl

theorem bind_of_error {action : Action α} {stop : Stop} {scopes scopes' : Scopes}
    {events : List Event} (stopped : action scopes = ⟨.error stop, scopes', events⟩)
    (next : α → Action β) : (action >>= next) scopes = ⟨.error stop, scopes', events⟩ := by
  show Action.bind action next scopes = _
  rw [Action.bind, stopped]

theorem bind_of_ok {action : Action α} {a : α} {scopes scopes' : Scopes} {events : List Event}
    (done : action scopes = ⟨.ok a, scopes', events⟩) (next : α → Action β) :
    (action >>= next) scopes =
      ⟨(next a scopes').outcome, (next a scopes').scopes, events ++ (next a scopes').events⟩ := by
  show Action.bind action next scopes = _
  rw [Action.bind, done]

instance : LawfulMonad Action := LawfulMonad.mk' Action
  (by
    intro α action
    funext scopes
    show (action >>= fun a => pure a) scopes = action scopes
    rcases h : action scopes with ⟨_ | a, scopes', events⟩
    · rw [bind_of_error h]
    · rw [bind_of_ok h]
      simp [pure_apply])
  (by
    intro α β a next
    funext scopes
    rw [bind_of_ok (pure_apply a scopes)]
    simp)
  (by
    intro α β γ action next last
    funext scopes
    rcases h : action scopes with ⟨_ | a, scopes', events⟩
    · rw [bind_of_error h, bind_of_error (bind_of_error h next)]
    · rw [bind_of_ok h]
      rcases h' : next a scopes' with ⟨_ | b, scopes'', events'⟩
      · rw [bind_of_error h', bind_of_error (by rw [bind_of_ok h, h'])]
      · rw [bind_of_ok h', bind_of_ok (by rw [bind_of_ok h, h'])]
        simp [List.append_assoc])

/-! ## Primitive actions -/

/-- Stops. -/
def stop (reason : Stop) : Action α := fun scopes =>
  ⟨.error reason, scopes, []⟩

/-- Yields what was computed, or stops with the error that came of it. -/
def ofExcept : Except EvalError α → Action α
  | .ok a => pure a
  | .error e => stop (.error e)

/-- Lets an event be seen. -/
def emit (event : Event) : Action Unit := fun scopes =>
  ⟨.ok (), scopes, [event]⟩

/-- What a name stands for, seen from a scope. -/
def find? (name : String) (scope : ScopeId) : Action (Option Value) := fun scopes =>
  ⟨.ok (scopes.find? name scope), scopes, []⟩

/-- Binds a name in a scope. -/
def bindName (scope : ScopeId) (name : String) (value : Value) : Action Unit := fun scopes =>
  ⟨.ok (), scopes.bind scope name value, []⟩

/-- Opens a scope inside another. -/
def newScope (outer : ScopeId) : Action ScopeId := fun scopes =>
  ⟨.ok scopes.size, scopes.push (some outer), []⟩

end Action

end TreeWalk
