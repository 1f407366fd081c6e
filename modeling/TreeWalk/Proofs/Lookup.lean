import Mathlib.Data.List.Induction
import TreeWalk.Proofs.History

/-!
# Nearest bindings

A program that uses the interpreter holds handles to scopes.  It opens scopes, on their own or
inside others, copies handles, binds names and has programs evaluated, in any order.  Functions are
values, so a scope may bind a name to a function that was made in it or further inside.  The links
between scopes make no circle all the same: every scope lies inside an older one.

Results:
1. following the links from a scope that is there ends (`Scopes.Closed.exists_chain`), and what a
   name stands for is bound in the first scope of that chain that binds it
   (`Scopes.Chain.find?_eq`);
2. one step: what is asked for is put together as evaluation is (`Request.built`), so it makes
   changes, and handles stay handles to scopes that are there (`Client.Sound.perform`);
3. by induction on what was asked for, the changes are on record (`exists_records`) and are the
   history of the scopes (`Records.told`), and at every moment of it a look-up finds the latest
   value in the nearest scope that binds the name (`look_up_is_nearest_binding`).
-/

namespace TreeWalk

/-! ## Chains -/

/-- `scopes.Chain id chain`: from a scope on, links lead through the scopes of the chain, up to one
that lies in no other. -/
inductive Scopes.Chain (scopes : Scopes) : ScopeId → List ScopeId → Prop
  | outermost {id : ScopeId} (alone : scopes.outer? id = some none) : Chain scopes id [id]
  | inside {id outer : ScopeId} {chain : List ScopeId}
      (around : scopes.outer? id = some (some outer)) (rest : Chain scopes outer chain) :
      Chain scopes id (id :: chain)

namespace Scopes

variable {scopes : Scopes}

theorem Closed.lt_of_outer? (closed : scopes.Closed) {id outer : ScopeId}
    (around : scopes.outer? id = some (some outer)) : outer < id := by
  obtain ⟨s, there, isOuter⟩ := Option.map_eq_some_iff.mp around
  exact closed.outer there isOuter

theorem Closed.exists_chain (closed : scopes.Closed) {id : ScopeId} (there : id < scopes.size) :
    ∃ chain, scopes.Chain id chain := by
  -- An outer scope is older, so the induction is on the scope.
  induction id using Nat.strongRecOn with
  | ind id ih =>
    obtain ⟨s, found⟩ := exists_scope? there
    have isOuter : scopes.outer? id = some s.outer := congrArg (Option.map Scope.outer) found
    cases around : s.outer with
    | none => exact ⟨[id], .outermost (around ▸ isOuter)⟩
    | some outer =>
      rw [around] at isOuter
      have older := closed.lt_of_outer? isOuter
      obtain ⟨chain, rest⟩ := ih outer older (Nat.lt_trans older there)
      exact ⟨id :: chain, .inside isOuter rest⟩

namespace Chain

variable {id : ScopeId} {chain : List ScopeId}

theorem le (leads : scopes.Chain id chain) (closed : scopes.Closed) :
    ∀ other ∈ chain, other ≤ id := by
  induction leads with
  | outermost _ => exact List.forall_mem_singleton.mpr (Nat.le_refl _)
  | inside around _ ih =>
    refine List.forall_mem_cons.mpr ⟨Nat.le_refl _, fun other member => ?_⟩
    exact Nat.le_trans (ih other member) (Nat.le_of_lt (closed.lt_of_outer? around))

/-- Every scope of a chain is older than those before it. -/
theorem descends (leads : scopes.Chain id chain) (closed : scopes.Closed) :
    chain.Pairwise (· > ·) := by
  induction leads with
  | outermost _ => exact List.pairwise_singleton _ _
  | inside around rest ih =>
    refine List.pairwise_cons.mpr ⟨fun other member => ?_, ih⟩
    exact Nat.lt_of_le_of_lt (rest.le closed other member) (closed.lt_of_outer? around)

/-- A look-up goes through the chain and takes the first binding. -/
theorem find?_eq (leads : scopes.Chain id chain) (closed : scopes.Closed) (name : String) :
    scopes.find? name id = chain.findSome? fun scope => scopes.own? scope name := by
  have own {id : ScopeId} {s : Scope} (there : scopes.scope? id = some s) :
      scopes.own? id name = s.bindings.get? name := congrArg (Option.bind · _) there
  induction leads with
  | outermost alone =>
    obtain ⟨s, there, isOuter⟩ := Option.map_eq_some_iff.mp alone
    rw [List.findSome?_cons, own there]
    cases bound : s.bindings.get? name with
    | some v => exact find?_of_own there bound
    | none => exact find?_of_outermost there bound isOuter
  | inside around _ ih =>
    obtain ⟨s, there, isOuter⟩ := Option.map_eq_some_iff.mp around
    rw [List.findSome?_cons, own there]
    cases bound : s.bindings.get? name with
    | some v => exact find?_of_own there bound
    | none =>
      rw [find?_of_outer there bound isOuter (closed.lt_of_outer? around)]
      exact ih

end Chain

end Scopes

/-! ## Requests -/

instance Value.decidableWithin (size : Nat) : (v : Value) → Decidable (v.Within size)
  | .returned v => decidableWithin size v
  | .function closure => inferInstanceAs (Decidable (closure.scope < size))
  | .int _ | .bool _ | .str _ | .null | .error _ | .builtin _ => .isTrue trivial

/-- What a user of the interpreter asks for.  Handles are told by the order in which they were
got. -/
inductive Request where
  /-- Opens a scope on its own. -/
  | new
  /-- Opens a scope inside that of a handle. -/
  | enclose (handle : Nat)
  /-- Copies a handle. -/
  | share (handle : Nat)
  /-- Copies the handle that is kept in the function that a name stands for. -/
  | take (handle : Nat) (name : String)
  | set (handle : Nat) (name : String) (value : Value)
  /-- Evaluates a program, with calls nested at most so deep. -/
  | run (depth handle : Nat) (program : Program)

namespace Request

/-- No value is set that belongs to a scope still to be opened. -/
def Fits (size : Nat) : Request → Prop
  | set _ _ value => value.Within size
  | _ => True

instance (size : Nat) : (request : Request) → Decidable (request.Fits size)
  | set _ _ value => value.decidableWithin size
  | new | enclose _ | share _ | take _ _ | run _ _ _ => .isTrue trivial

/-- What is done with the scope of a handle, if there is such a handle. -/
def through (handles : List ScopeId) (handle : Nat) (action : ScopeId → Action (List ScopeId)) :
    Action (List ScopeId) :=
  match handles[handle]? with
  | none => pure []
  | some scope => action scope

/-- What is done at a request.  It yields the handles that are got by it. -/
def action (handles : List ScopeId) : Request → Action (List ScopeId)
  | new => do
    let scope ← Action.opening none
    pure [scope]
  | enclose handle => through handles handle fun outer => do
    let scope ← Action.opening (some outer)
    pure [scope]
  | share handle => through handles handle fun scope => pure [scope]
  | take handle name => through handles handle fun scope => do
    match ← Action.find? name scope with
    | some (.function closure) => pure [closure.scope]
    | _ => pure []
  | set handle name value => through handles handle fun scope => do
    Action.bindName scope name value
    pure []
  | run depth handle program => through handles handle fun scope => do
    let _ ← Eval.program depth scope program
    pure []

end Request

/-- A user of the interpreter: the scopes there are, and the handles got so far, in order. -/
structure Client where
  scopes : Scopes
  handles : List ScopeId

/-- What has been done when evaluation stops is not undone. -/
def Client.perform (client : Client) (request : Request) : Client :=
  if request.Fits client.scopes.size then
    let run := request.action client.handles client.scopes
    ⟨run.scopes, client.handles ++ run.outcome.toOption.getD []⟩
  else client

/-- A user who has asked for all this, one after another. -/
def Client.after (requests : List Request) : Client :=
  requests.foldl Client.perform ⟨.empty, []⟩

/-- The changes that were made at the requests, in order. -/
inductive Records : List Request → List Change → Prop
  | start : Records [] []
  | served {requests : List Request} {request : Request} {history changes : List Change}
      (earlier : Records requests history)
      (fits : request.Fits (Client.after requests).scopes.size)
      (made : (request.action (Client.after requests).handles).Makes
        (Client.after requests).scopes changes) :
      Records (requests ++ [request]) (history ++ changes)
  | refused {requests : List Request} {request : Request} {history : List Change}
      (earlier : Records requests history)
      (unfit : ¬ request.Fits (Client.after requests).scopes.size) :
      Records (requests ++ [request]) history

/-- Handles are to scopes that are there. -/
def HandlesWithin (size : Nat) (handles : List ScopeId) : Prop :=
  ∀ scope ∈ handles, scope < size

namespace Request

variable {size : Nat} {handles : List ScopeId}

theorem built_one {action : Action ScopeId} (built : Built size (fun n scope => scope < n) action) :
    Built size HandlesWithin (action >>= fun scope => pure [scope]) :=
  built.bind fun _ _ _ there => .pure fun _ more =>
    List.forall_mem_singleton.mpr (Nat.lt_of_lt_of_le there more)

theorem built_through (within : HandlesWithin size handles) (handle : Nat)
    {action : ScopeId → Action (List ScopeId)}
    (built : ∀ scope, scope < size → Built size HandlesWithin (action scope)) :
    Built size HandlesWithin (through handles handle action) := by
  unfold through
  cases held : handles[handle]? with
  | none => exact .pure fun _ _ => nofun
  | some scope => exact built scope (within scope (List.mem_of_getElem? held))

theorem built (within : HandlesWithin size handles) (request : Request) (fits : request.Fits size) :
    Built size HandlesWithin (request.action handles) := by
  cases request with
  | new => exact built_one (.opening nofun)
  | enclose handle =>
    exact built_through within handle fun outer there => built_one (.newScope there)
  | share handle =>
    refine built_through within handle fun scope there => .pure fun _ more => ?_
    exact List.forall_mem_singleton.mpr (Nat.lt_of_lt_of_le there more)
  | take handle name =>
    refine built_through within handle fun scope _ => ?_
    refine (Built.find? name scope).bind fun n found _ isFound => ?_
    split
    · next closure =>
      exact .pure fun _ more =>
        List.forall_mem_singleton.mpr (Nat.lt_of_lt_of_le (isFound _ rfl) more)
    · exact .pure fun _ _ => nofun
  | set handle name value =>
    refine built_through within handle fun scope there => ?_
    exact (Built.bindName there name fits).bind fun _ _ _ _ => .pure fun _ _ => nofun
  | run depth handle program =>
    refine built_through within handle fun scope there => ?_
    exact (built_program there depth program).bind fun _ _ _ _ => .pure fun _ _ => nofun

end Request

/-! ## Records -/

/-- The client's scopes can arise, and its handles are to scopes that are there. -/
structure Client.Sound (client : Client) : Prop where
  arise : client.scopes.Arise
  within : HandlesWithin client.scopes.size client.handles

theorem Client.Sound.perform {client : Client} (sound : client.Sound) (request : Request) :
    (client.perform request).Sound := by
  unfold Client.perform
  split
  · next fits =>
    have built := request.built sound.within fits
    obtain ⟨arise, grown, isGood⟩ := built.stays _ sound.arise (Nat.le_refl _)
    refine ⟨arise, List.forall_mem_append.mpr ⟨fun scope held => ?_, ?_⟩⟩
    · exact Nat.lt_of_lt_of_le (sound.within scope held) grown
    · cases got : (request.action client.handles client.scopes).outcome with
      | error reason => exact nofun
      | ok handles => exact isGood handles got
  · exact sound

theorem Client.after_concat (requests : List Request) (request : Request) :
    after (requests ++ [request]) = (after requests).perform request :=
  List.foldl_append

theorem Client.sound_after (requests : List Request) : (after requests).Sound := by
  induction requests using List.reverseRecOn with
  | nil => exact ⟨.empty, nofun⟩
  | append_singleton requests request ih => exact after_concat .. ▸ ih.perform request

theorem exists_records (requests : List Request) : ∃ history, Records requests history := by
  induction requests using List.reverseRecOn with
  | nil => exact ⟨[], .start⟩
  | append_singleton requests request ih =>
    obtain ⟨history, recorded⟩ := ih
    by_cases fits : request.Fits (Client.after requests).scopes.size
    · have sound := Client.sound_after requests
      obtain ⟨changes, made⟩ :=
        (request.built sound.within fits).makes sound.arise (Nat.le_refl _)
      exact ⟨history ++ changes, .served recorded fits made⟩
    · exact ⟨history, .refused recorded fits⟩

/-- What is on record is the history of the scopes. -/
theorem Records.told {requests : List Request} {history : List Change}
    (recorded : Records requests history) :
    Feasible history ∧ replay history = (Client.after requests).scopes := by
  induction recorded with
  | start => exact ⟨.nil, rfl⟩
  | served _ fits made ih =>
    rw [Client.after_concat, Client.perform, if_pos fits]
    exact made.continues ih.1 ih.2
  | refused _ unfit ih =>
    rw [Client.after_concat, Client.perform, if_neg unfit]
    exact ih

/-! ## Look-ups -/

theorem Eval.name_apply (scope : ScopeId) (ident : Ident) (scopes : Scopes) :
    Eval.name scope ident scopes =
      ⟨match scopes.find? ident.name scope, Builtin.ofName? ident.name with
        | some value, _ => .ok value
        | none, some builtin => .ok (.builtin builtin)
        | none, none => .error (.error (.unbound ident.name)), scopes, []⟩ := by
  have found : Action.find? ident.name scope scopes =
    ⟨.ok (scopes.find? ident.name scope), scopes, []⟩ := rfl
  rw [Eval.name, Action.bind_of_ok found]
  cases scopes.find? ident.name scope with
  | some value => rfl
  | none => cases Builtin.ofName? ident.name <;> rfl

/-- What a name stands for in a chain of scopes: the latest value in the first of them that binds
it. -/
def nearest (history : List Change) (chain : List ScopeId) (name : String) : Option Value :=
  chain.findSome? fun scope => latest history scope name

/-- Whatever was asked for, handles are to scopes that are there, and the changes that were made are
on record.  At every moment the links of the scopes are those that the scopes were opened with and
lead to older scopes, so each scope has a chain.  A look-up yields the nearest binding in it, and so
does the evaluation of a name, with the built-in function of the name where there is no binding, and
an error where there is no such function either. -/
theorem look_up_is_nearest_binding (requests : List Request) :
    HandlesWithin (Client.after requests).scopes.size (Client.after requests).handles ∧
    (∃ history, Records requests history) ∧
    ∀ history, Records requests history →
      replay history = (Client.after requests).scopes ∧
      ∀ before, before <+: history →
        (∀ id, (replay before).outer? id = (links before)[id]?) ∧
        (∀ id outer : ScopeId, (links before)[id]? = some (some outer) → outer < id) ∧
        ∀ id, id < (replay before).size → ∃ chain,
          (replay before).Chain id chain ∧ chain.Pairwise (· > ·) ∧
          (∀ name, (replay before).find? name id = nearest before chain name) ∧
          ∀ ident : Ident, Eval.name id ident (replay before) =
            ⟨match nearest before chain ident.name, Builtin.ofName? ident.name with
              | some value, _ => .ok value
              | none, some builtin => .ok (.builtin builtin)
              | none, none => .error (.error (.unbound ident.name)), replay before, []⟩ := by
  refine ⟨(Client.sound_after requests).within, exists_records requests, ?_⟩
  intro history recorded
  obtain ⟨told, reached⟩ := recorded.told
  refine ⟨reached, fun before earlier => ?_⟩
  have feasible := told.of_isPrefix earlier
  have closed := feasible.arise.closed
  refine ⟨feasible.outer?_replay, fun id outer link => ?_, fun id there => ?_⟩
  · exact closed.lt_of_outer? ((feasible.outer?_replay id).trans link)
  · obtain ⟨chain, leads⟩ := closed.exists_chain there
    have found (name : String) : (replay before).find? name id = nearest before chain name := by
      rw [leads.find?_eq closed, nearest]
      simp only [feasible.own?_replay]
    refine ⟨chain, leads, leads.descends closed, found, fun ident => ?_⟩
    rw [Eval.name_apply, found]

/-- The outer scope binds a function that was made in the inner one, through a copy of its handle.
The inner scope finds it there. -/
example : (Client.after [.new, .enclose 0, .share 0,
    .set 2 "f" (.function ⟨[], .mk .lbrace [], 1⟩)]).scopes.find? "f" 1 =
      some (.function ⟨[], .mk .lbrace [], 1⟩) := by
  cbv

end TreeWalk
