import TreeWalk.Proofs.Arise

/-!
# Histories

Two things are done to scopes: one more is opened, or a name is bound in one of them.  A history
tells what was done, in order, and scopes are what their history makes of none.

Results:
1. a history tells the link of every scope, which is the one that it was opened with
   (`Feasible.outer?_replay`), and what a name is bound to in it, which is the value bound last
   (`Feasible.own?_replay`);
2. changes that an action makes continue the history of the scopes it is run on
   (`Action.Makes.continues`);
3. by induction on how it is put together, every action of the evaluator makes changes
   (`Built.makes`).
-/

namespace TreeWalk

/-! ## Changes -/

/-- What is done to scopes. -/
inductive Change where
  | opened (outer : Option ScopeId)
  | bound (scope : ScopeId) (name : String) (value : Value)

namespace Change

/-- The scopes behind the change. -/
def apply (scopes : Scopes) : Change → Scopes
  | opened outer => scopes.push outer
  | bound scope name value => scopes.bind scope name value

/-- It is done inside a scope or to a scope that is there, with a value that belongs to those. -/
def Fits (scopes : Scopes) : Change → Prop
  | opened outer => ∀ id ∈ outer, id < scopes.size
  | bound scope _ value => scope < scopes.size ∧ value.Within scopes.size

/-- The link of the scope that is opened, if one is. -/
def link? : Change → Option (Option ScopeId)
  | opened outer => some outer
  | bound .. => none

/-- The value that the name is bound to in the scope, if it is. -/
def value? (scope : ScopeId) (name : String) : Change → Option Value
  | opened _ => none
  | bound scope' name' value => if scope' = scope ∧ name' = name then some value else none

end Change

/-! ## Scopes and their history -/

/-- What a history makes of no scopes. -/
def replay (history : List Change) : Scopes :=
  history.foldl Change.apply .empty

/-- The links that scopes were opened with, in the order in which they were opened. -/
def links (history : List Change) : List (Option ScopeId) :=
  history.filterMap Change.link?

/-- The value that a name was bound to last in a scope. -/
def latest (history : List Change) (scope : ScopeId) (name : String) : Option Value :=
  (history.filterMap (Change.value? scope name)).getLast?

theorem replay_concat (history : List Change) (change : Change) :
    replay (history ++ [change]) = change.apply (replay history) :=
  List.foldl_append

theorem links_concat (history : List Change) (change : Change) :
    links (history ++ [change]) = links history ++ change.link?.toList := by
  rw [links, List.filterMap_append, ← links]
  cases change <;> rfl

theorem latest_concat (history : List Change) (change : Change) (scope : ScopeId) (name : String) :
    latest (history ++ [change]) scope name =
      (change.value? scope name).or (latest history scope name) := by
  rw [latest, latest, List.filterMap_append, List.getLast?_append, List.filterMap_cons]
  cases change.value? scope name <;> rfl

/-- What a scope itself binds a name to. -/
def Scopes.own? (scopes : Scopes) (id : ScopeId) (name : String) : Option Value :=
  (scopes.scope? id).bind fun s => s.bindings.get? name

/-- The link of a scope. -/
def Scopes.outer? (scopes : Scopes) (id : ScopeId) : Option (Option ScopeId) :=
  (scopes.scope? id).map Scope.outer

namespace Scopes

theorem own?_push (scopes : Scopes) (outer : Option ScopeId) (id : ScopeId) (name : String) :
    (scopes.push outer).own? id name = scopes.own? id name := by
  rw [own?, own?, scope?_push]
  split
  · next new =>
    -- A scope that is not there binds nothing, and neither does a new one.
    rw [scope?_eq_none (Nat.le_of_eq new.symm)]
    rfl
  · rfl

theorem own?_bind (scopes : Scopes) {scope : ScopeId} (there : scope < scopes.size) (name : String)
    (value : Value) (id : ScopeId) (key : String) :
    (scopes.bind scope name value).own? id key =
      if scope = id ∧ name = key then some value else scopes.own? id key := by
  obtain ⟨s, found⟩ := exists_scope? there
  rw [own?, own?, scope?_bind]
  by_cases here : id = scope
  · subst here
    rw [if_pos rfl, found]
    show (s.bindings.insert name value).get? key = _
    rw [Bindings.get?_insert]
    by_cases same : key = name
    · rw [if_pos same, if_pos ⟨rfl, same.symm⟩]
    · rw [if_neg same, if_neg fun both => same both.2.symm]
      rfl
  · rw [if_neg here, if_neg fun both => here both.1.symm]

theorem outer?_push (scopes : Scopes) (outer : Option ScopeId) (id : ScopeId) :
    (scopes.push outer).outer? id = if id = scopes.size then some outer else scopes.outer? id := by
  rw [outer?, outer?, scope?_push]
  split <;> rfl

theorem outer?_bind (scopes : Scopes) (scope : ScopeId) (name : String) (value : Value)
    (id : ScopeId) : (scopes.bind scope name value).outer? id = scopes.outer? id := by
  rw [outer?, outer?, scope?_bind]
  split
  · next here =>
    subst here
    rw [Option.map_map]
    rfl
  · rfl

end Scopes

/-! ## What a history tells -/

/-- Every change of the history fits the scopes that there were before it. -/
inductive Feasible : List Change → Prop
  | nil : Feasible []
  | concat {history : List Change} {change : Change} (before : Feasible history)
      (fits : change.Fits (replay history)) : Feasible (history ++ [change])

namespace Feasible

variable {history : List Change}

theorem arise (feasible : Feasible history) : (replay history).Arise := by
  induction feasible with
  | nil => exact .empty
  | @concat history change _ fits ih =>
    rw [replay_concat]
    cases change with
    | opened outer => exact ih.push fits
    | bound scope name value => exact ih.bind fits.1 fits.2

theorem of_isPrefix {before : List Change} (feasible : Feasible history)
    (earlier : before <+: history) : Feasible before := by
  induction feasible with
  | nil => exact List.prefix_nil.mp earlier ▸ .nil
  | concat shorter fits ih =>
    rcases List.prefix_concat_iff.mp earlier with rfl | earlier'
    · exact shorter.concat fits
    · exact ih earlier'

/-- There are as many scopes as were opened. -/
theorem length_links (feasible : Feasible history) :
    (links history).length = (replay history).size := by
  induction feasible with
  | nil => rfl
  | @concat history change _ _ ih =>
    rw [links_concat, replay_concat, List.length_append, ih]
    cases change with
    | opened outer => exact (Scopes.size_push ..).symm
    | bound scope name value => exact (Scopes.size_bind ..).symm

/-- The link of a scope is the one that it was opened with. -/
theorem outer?_replay (feasible : Feasible history) (id : ScopeId) :
    (replay history).outer? id = (links history)[id]? := by
  induction feasible with
  | nil => rfl
  | @concat history change before _ ih =>
    rw [links_concat, replay_concat]
    cases change with
    | opened outer =>
      rw [Change.apply, Scopes.outer?_push, ih, ← before.length_links]
      show _ = (links history ++ [outer])[id]?
      grind
    | bound scope name value =>
      rw [Change.apply, Scopes.outer?_bind, ih]
      exact congrArg (·[id]?) (List.append_nil _).symm

/-- What a scope binds a name to is the value that was bound last. -/
theorem own?_replay (feasible : Feasible history) (id : ScopeId) (name : String) :
    (replay history).own? id name = latest history id name := by
  induction feasible with
  | nil => rfl
  | concat _ fits ih =>
    rw [latest_concat, replay_concat]
    rename_i change _
    cases change with
    | opened outer =>
      rw [Change.apply, Scopes.own?_push, ih]
      rfl
    | bound scope key value =>
      rw [Change.apply, Scopes.own?_bind _ fits.1, ih, Change.value?]
      split <;> rfl

end Feasible

/-! ## Histories of evaluation -/

/-- `action.Makes scopes changes`: run on these scopes, the action makes the changes, in order, and
each of them fits the scopes before it. -/
inductive Action.Makes : {α : Type} → Action α → Scopes → List Change → Prop
  | pure {α : Type} (a : α) (scopes : Scopes) : Makes (Pure.pure a) scopes []
  | stop {α : Type} (reason : Stop) (scopes : Scopes) :
      Makes (Action.stop reason : Action α) scopes []
  | emit (event : Event) (scopes : Scopes) : Makes (Action.emit event) scopes []
  | find? (name : String) (scope : ScopeId) (scopes : Scopes) :
      Makes (Action.find? name scope) scopes []
  | bindName {scope : ScopeId} {name : String} {value : Value} {scopes : Scopes}
      (fits : (Change.bound scope name value).Fits scopes) :
      Makes (Action.bindName scope name value) scopes [.bound scope name value]
  | opening {outer : Option ScopeId} {scopes : Scopes} (fits : (Change.opened outer).Fits scopes) :
      Makes (Action.opening outer) scopes [.opened outer]
  | stopped {α β : Type} {action : Action α} {reason : Stop} {scopes scopes' : Scopes}
      {events : List Event} {changes : List Change}
      (ran : action scopes = ⟨.error reason, scopes', events⟩) (first : Makes action scopes changes)
      (next : α → Action β) : Makes (action >>= next) scopes changes
  | bind {α β : Type} {action : Action α} {next : α → Action β} {a : α} {scopes scopes' : Scopes}
      {events : List Event} {changes changes' : List Change}
      (ran : action scopes = ⟨.ok a, scopes', events⟩) (first : Makes action scopes changes)
      (second : Makes (next a) scopes' changes') :
      Makes (action >>= next) scopes (changes ++ changes')

/-- The changes lead to the scopes that the action leaves. -/
theorem Action.Makes.continues {α : Type} {action : Action α} {scopes : Scopes}
    {changes : List Change} (made : action.Makes scopes changes) {history : List Change}
    (feasible : Feasible history) (reached : replay history = scopes) :
    Feasible (history ++ changes) ∧ replay (history ++ changes) = (action scopes).scopes := by
  induction made generalizing history with
  | pure | stop | emit | find? =>
    rw [List.append_nil]
    exact ⟨feasible, reached⟩
  | bindName fits | opening fits =>
    rw [replay_concat, reached]
    exact ⟨feasible.concat (reached ▸ fits), rfl⟩
  | stopped ran _ next ih =>
    rw [Action.bind_of_error ran]
    have continued := ih feasible reached
    rwa [ran] at continued
  | bind ran _ _ first second =>
    rw [Action.bind_of_ok ran, ← List.append_assoc]
    obtain ⟨feasible', reached'⟩ := first feasible reached
    rw [ran] at reached'
    exact second feasible' reached'

/-- What is put together as evaluation is makes changes. -/
theorem Built.makes {α : Type} {size : Nat} {good : Nat → α → Prop} {action : Action α}
    (built : Built size good action) {scopes : Scopes} (arise : scopes.Arise)
    (enough : size ≤ scopes.size) : ∃ changes, action.Makes scopes changes := by
  induction built generalizing scopes with
  | pure => exact ⟨[], .pure _ _⟩
  | stop reason => exact ⟨[], .stop _ _⟩
  | emit event => exact ⟨[], .emit _ _⟩
  | find? name scope => exact ⟨[], .find? _ _ _⟩
  | bindName there name within =>
    exact ⟨_, .bindName ⟨Nat.lt_of_lt_of_le there enough, within.mono enough⟩⟩
  | opening there =>
    exact ⟨_, .opening fun id isOuter => Nat.lt_of_lt_of_le (there id isOuter) enough⟩
  | @bind α β size good good' action next first _ firstMakes secondMakes =>
    obtain ⟨changes, made⟩ := firstMakes arise enough
    obtain ⟨mid, grown, isGood⟩ := first.stays scopes arise enough
    rcases ran : action scopes with ⟨reason | a, scopes', events⟩
    · exact ⟨changes, .stopped ran made next⟩
    · rw [ran] at mid grown isGood
      have more := Nat.le_trans enough grown
      obtain ⟨changes', made'⟩ := secondMakes _ a more (isGood a rfl) mid (Nat.le_refl _)
      exact ⟨changes ++ changes', .bind ran made made'⟩

end TreeWalk
