import TreeWalk.Proofs.Contract
import TreeWalk.Proofs.Writes
import TreeWalk.Session

/-!
# Well-scoped programs

Names are looked up when they are needed, in a chain of scopes that others keep on changing, and the
body of a function is evaluated long after the function was made.  Still it can be told from the
text of a program that no name will be missing: it is enough that each is bound further up, in the
order in which the text is read.

Results:
1. scopes only grow, so a name that is bound for a scope stays bound (`Scopes.Sees.grows`), and a
   function that finds all it needs goes on finding it (`Value.Resolves.grows`);
2. one step: what is put together from actions that miss no name misses none (`Resolving.bind`);
3. by induction on the tree, what is well scoped misses no name if the names in sight are bound, and
   afterwards those are bound too that it brings into sight (`resolving_expr`, `resolving_stmt`); by
   induction on their depth, calls miss none (`callsResolve_call`);
4. hence a well-scoped program misses no name (`wellScoped_never_unbound`).
-/

namespace TreeWalk

/-! ## What is in sight -/

/-- The expression is a function as it stands. -/
def Expr.isFn : Expr → Bool
  | .fn _ _ => true
  | _ => false

/-- The names in sight behind a statement. -/
def Stmt.visible (names : List String) : Stmt → List String
  | .bind _ ident _ => ident.name :: names
  | .ret _ _ | .expr _ _ => names

mutual

/-- Every name in the expression is in sight or that of a built-in function. -/
def Expr.wellScoped (names : List String) : Expr → Bool
  | .ident ident => ident.name ∈ "len" :: "puts" :: names
  | .int _ | .str _ | .bool _ => true
  | .prefixOp _ right => right.wellScoped names
  | .infixOp left _ right => left.wellScoped names && right.wellScoped names
  | .ifElse cond yes no =>
    cond.wellScoped names && (yes.wellScoped names && Block.branchWellScoped names no)
  | .fn params body => body.wellScoped (params.map Ident.name ++ names)
  | .call callee args => callee.wellScoped names && Expr.listWellScoped names args

/-- Each expression is looked at with the same names in sight. -/
def Expr.listWellScoped (names : List String) : List Expr → Bool
  | [] => true
  | e :: es => e.wellScoped names && Expr.listWellScoped names es

/-- A function may use the name that it is bound to. -/
def Stmt.wellScoped (names : List String) : Stmt → Bool
  | .bind _ ident value => value.wellScoped (if value.isFn then ident.name :: names else names)
  | .ret _ value | .expr _ value => value.wellScoped names

/-- Each statement brings a name into sight for those behind it. -/
def Stmt.listWellScoped (names : List String) : List Stmt → Bool
  | [] => true
  | s :: ss => s.wellScoped names && Stmt.listWellScoped (s.visible names) ss

/-- A block brings names into sight for the rest of itself only. -/
def Block.wellScoped (names : List String) : Block → Bool
  | .mk _ statements => Stmt.listWellScoped names statements

/-- A branch that is not there misses no name. -/
def Block.branchWellScoped (names : List String) : Option Block → Bool
  | none => true
  | some no => no.wellScoped names

end

/-- At the beginning of a program nothing is in sight. -/
def Program.wellScoped (program : Program) : Bool :=
  Stmt.listWellScoped [] program.statements

/-! ## Scopes that grow -/

/-- No scope is gone or has moved, and no name has lost its binding. -/
def Scopes.Grows (before after : Scopes) : Prop :=
  ∀ (id : ScopeId) (s : Scope), before.scope? id = some s →
    ∃ bindings, after.scope? id = some ⟨bindings, s.outer⟩ ∧
      ∀ name, (s.bindings.get? name).isSome → (bindings.get? name).isSome

/-- The scope is there, and all of the names are bound for it. -/
structure Scopes.Sees (scopes : Scopes) (scope : ScopeId) (names : List String) : Prop where
  there : scope < scopes.size
  found : ∀ name ∈ names, (scopes.find? name scope).isSome

theorem WritesOnly.grows {scope : ScopeId} {names : List String} {before after : Scopes}
    (writes : WritesOnly scope names before after) : before.Grows after := by
  intro id s there
  by_cases own : id = scope
  · subst own
    obtain ⟨bindings, there', rebinds⟩ := writes.own there
    exact ⟨bindings, there', rebinds.kept⟩
  · exact ⟨s.bindings, writes.others own there, fun _ bound => bound⟩

namespace Scopes

theorem Grows.refl (scopes : Scopes) : scopes.Grows scopes :=
  fun _ s there => ⟨s.bindings, there, fun _ bound => bound⟩

theorem Grows.trans {before mid after : Scopes} (first : before.Grows mid)
    (second : mid.Grows after) : before.Grows after := by
  intro id s there
  obtain ⟨_, there', kept⟩ := first id s there
  obtain ⟨bindings, there'', kept'⟩ := second id _ there'
  exact ⟨bindings, there'', fun name bound => kept' name (kept name bound)⟩

theorem grows_bind (scopes : Scopes) (scope : ScopeId) (name : String) (value : Value) :
    scopes.Grows (scopes.bind scope name value) :=
  (scopes.writesOnly_bind scope name value).grows

theorem grows_push (scopes : Scopes) (outer : Option ScopeId) :
    scopes.Grows (scopes.push outer) := by
  have same : WritesOnly scopes.size [] (scopes.push outer) (scopes.push outer) :=
    Extends.writesOnly (fun _ _ there => there) _ _
  exact (same.extends_of_push.writesOnly 0 []).grows

variable {before after scopes : Scopes}

theorem Grows.size_le (grows : before.Grows after) : before.size ≤ after.size := by
  refine Nat.le_of_not_lt fun fewer => ?_
  obtain ⟨s, there⟩ := exists_scope? fewer
  obtain ⟨_, there', _⟩ := grows _ s there
  exact Nat.lt_irrefl _ (Array.getElem?_eq_some_iff.mp there').1

theorem Grows.find? (grows : before.Grows after) {name : String} {id : ScopeId}
    (found : (before.find? name id).isSome) : (after.find? name id).isSome := by
  -- An outer scope is looked at only if it is older, so the induction is on the scope.
  induction id using Nat.strongRecOn with
  | ind id ih =>
    cases there : before.scope? id with
    | none =>
      rw [Scopes.find?, there] at found
      cases found
    | some s =>
      obtain ⟨bindings, there', kept⟩ := grows id s there
      cases own : bindings.get? name with
      | some value =>
        rw [find?_of_own there' own]
        rfl
      | none =>
        have absent : s.bindings.get? name = none := by
          rw [← Option.not_isSome_iff_eq_none]
          intro bound
          have bound' := kept name bound
          rw [own] at bound'
          cases bound'
        cases around : s.outer with
        | none =>
          rw [find?_of_outermost there absent around] at found
          cases found
        | some outer =>
          by_cases older : outer < id
          · rw [find?_of_outer there absent around older] at found
            rw [find?_of_outer there' own around older]
            exact ih outer older found
          · rw [Scopes.find?, there] at found
            simp [absent, around, older] at found

namespace Sees

variable {scope : ScopeId} {names names' : List String}

theorem grows (sees : before.Sees scope names) (grows : before.Grows after) :
    after.Sees scope names :=
  ⟨Nat.lt_of_lt_of_le sees.there grows.size_le, fun name member =>
    grows.find? (sees.found name member)⟩

theorem mono (sees : scopes.Sees scope names) (fewer : names' ⊆ names) :
    scopes.Sees scope names' :=
  ⟨sees.there, fun name member => sees.found name (fewer member)⟩

/-- A new scope sees what the scope around it does. -/
theorem push (sees : scopes.Sees scope names) :
    (scopes.push (some scope)).Sees scopes.size names := by
  refine ⟨?_, fun name member => ?_⟩
  · rw [size_push]
    exact Nat.lt_succ_self _
  · have new : (scopes.push (some scope)).scope? scopes.size = some ⟨.empty, some scope⟩ := by
      rw [scope?_push, if_pos rfl]
    rw [find?_of_outer new rfl rfl sees.there]
    exact (scopes.grows_push _).find? (sees.found name member)

theorem bind (sees : scopes.Sees scope names) (name : String) (value : Value) :
    (scopes.bind scope name value).Sees scope (name :: names) := by
  have kept := sees.grows (scopes.grows_bind scope name value)
  refine ⟨kept.there, List.forall_mem_cons.mpr ⟨?_, kept.found⟩⟩
  obtain ⟨s, there⟩ := exists_scope? sees.there
  have there' : (scopes.bind scope name value).scope? scope =
      some { s with bindings := s.bindings.insert name value } := by
    rw [scope?_bind, if_pos rfl, there]
    rfl
  have own : (s.bindings.insert name value).get? name = some value := by
    rw [Bindings.get?_insert, if_pos rfl]
  rw [find?_of_own there' own]
  rfl

end Sees

end Scopes

/-! ## Functions that find what they need -/

/-- A function finds all that its body needs, in the scope that it was made in and among its
parameters. -/
def Value.Resolves (scopes : Scopes) : Value → Prop
  | .returned v => v.Resolves scopes
  | .function closure => ∃ names, scopes.Sees closure.scope names ∧
    closure.body.wellScoped (closure.params.map Ident.name ++ names) = true
  | _ => True

namespace Value

variable {before after scopes : Scopes} {v : Value}

theorem Resolves.grows (resolves : v.Resolves before) (grows : before.Grows after) :
    v.Resolves after := by
  induction v with
  | returned v ih => exact ih resolves
  | function closure =>
    obtain ⟨names, sees, wellScoped⟩ := resolves
    exact ⟨names, sees.grows grows, wellScoped⟩
  | _ => trivial

theorem Resolves.unwrap (resolves : v.Resolves scopes) : v.unwrap.Resolves scopes := by
  cases v <;> exact resolves

theorem Resolves.function {params : List Ident} {body : Block} {scope : ScopeId}
    {names : List String} (sees : scopes.Sees scope names)
    (wellScoped : body.wellScoped (params.map Ident.name ++ names) = true) :
    (Value.function ⟨params, body, scope⟩).Resolves scopes :=
  ⟨names, sees, wellScoped⟩

theorem IsScalar.resolves (scalar : v.IsScalar) (scopes : Scopes) : v.Resolves scopes := by
  cases v with
  | int _ | bool _ | str _ => trivial
  | _ => cases scalar

end Value

/-- So does every function that is bound. -/
abbrev Scopes.Resolved (scopes : Scopes) : Prop :=
  scopes.BindsOnly (Value.Resolves scopes)

namespace Scopes

variable {scopes : Scopes}

theorem Resolved.push (resolved : scopes.Resolved) (outer : Option ScopeId) :
    (scopes.push outer).Resolved :=
  (resolved.imp fun _ vGood => vGood.grows (scopes.grows_push outer)).push outer

/-- A function may need the name that it is being bound to. -/
theorem Resolved.bind (resolved : scopes.Resolved) (scope : ScopeId) (name : String) {v : Value}
    (resolves : v.Resolves (scopes.bind scope name v)) : (scopes.bind scope name v).Resolved :=
  (resolved.imp fun _ vGood => vGood.grows (scopes.grows_bind scope name v)).bind scope name
    resolves

end Scopes

/-! ## Actions that miss no name -/

section

variable {α β : Type}

/-- It is not for a missing name that an action stops. -/
def Stop.NotUnbound (reason : Stop) : Prop :=
  ∀ name, reason ≠ .error (.unbound name)

/-- In these scopes the action misses no name.  Scopes only grow, every function that is bound still
finds what it needs, and a result is good in view of the scopes there are then. -/
def Resolving (action : Action α) (scopes : Scopes) (good : α → Scopes → Prop) : Prop :=
  action.Meets (fun _ => True) (fun reason _ => reason.NotUnbound) scopes fun a after =>
    scopes.Grows after ∧ after.Resolved ∧ good a after

/-- Arguments, or the return in progress that stands in their place, find what they need. -/
def ArgsResolve (scopes : Scopes) : Except Value (List Value) → Prop
  | .error signal => signal.Resolves scopes
  | .ok values => ∀ v ∈ values, v.Resolves scopes

namespace Resolving

variable {scopes : Scopes} {good : α → Scopes → Prop} {good' : β → Scopes → Prop}

theorem pure {a : α} (resolved : scopes.Resolved) (isGood : good a scopes) :
    Resolving (Pure.pure a) scopes good :=
  Action.Meets.pure ⟨.refl _, resolved, isGood⟩

theorem stop {reason : Stop} (other : reason.NotUnbound) :
    Resolving (Action.stop reason) scopes good :=
  Action.Meets.stop other

theorem bind {action : Action α} {next : α → Action β} (first : Resolving action scopes good)
    (second : ∀ a after, scopes.Grows after → after.Resolved → good a after →
      Resolving (next a) after good') : Resolving (action >>= next) scopes good' := by
  refine Action.Meets.bind (first.imp fun a mid ⟨grows, resolved, isGood⟩ => ?_)
  refine (second a mid grows resolved isGood).imp fun b after ⟨grows', rest⟩ => ?_
  exact ⟨grows.trans grows', rest⟩

theorem emit (event : Event) (resolved : scopes.Resolved) :
    Resolving (Action.emit event) scopes fun _ _ => True :=
  Action.Meets.emit trivial ⟨.refl _, resolved, trivial⟩

theorem ofExcept {result : Except EvalError α} (resolved : scopes.Resolved)
    (fails : ∀ e, result = .error e → ∀ name, e ≠ .unbound name)
    (isGood : ∀ a, result = .ok a → good a scopes) :
    Resolving (Action.ofExcept result) scopes good :=
  Action.Meets.ofExcept (fun e failed name same => fails e failed name (Stop.error.inj same))
    fun a done => ⟨.refl _, resolved, isGood a done⟩

theorem unlessReturned {v : Value} {next : Action Value} {good : Value → Scopes → Prop}
    (resolved : scopes.Resolved) (isGood : good v scopes)
    (resolving : ¬ v.isReturned → Resolving next scopes good) :
    Resolving (Eval.unlessReturned v next) scopes good :=
  Action.Meets.unlessReturned (fun _ => ⟨.refl _, resolved, isGood⟩) resolving

theorem bindName {scope : ScopeId} {names : List String} (resolved : scopes.Resolved)
    (sees : scopes.Sees scope names) (name : String) {v : Value}
    (resolves : v.Resolves (scopes.bind scope name v)) :
    Resolving (Action.bindName scope name v) scopes fun _ after =>
      after.Sees scope (name :: names) :=
  Action.Meets.bindName ⟨scopes.grows_bind scope name v, resolved.bind scope name resolves,
    sees.bind name v⟩

theorem newScope {outer : ScopeId} {names : List String} (resolved : scopes.Resolved)
    (sees : scopes.Sees outer names) :
    Resolving (Action.newScope outer) scopes fun scope after => after.Sees scope names :=
  Action.Meets.newScope ⟨scopes.grows_push _, resolved.push _, sees.push⟩

end Resolving

end

/-! ## Names, operators and built-in functions -/

theorem resolving_name {scopes : Scopes} (resolved : scopes.Resolved) {scope : ScopeId}
    {names : List String} (sees : scopes.Sees scope names) {ident : Ident}
    (inSight : ident.name ∈ "len" :: "puts" :: names) :
    Resolving (Eval.name scope ident) scopes fun v after => v.Resolves after := by
  refine Action.Meets.bind (Action.Meets.find? ?_)
  cases found : scopes.find? ident.name scope with
  | some v => exact Resolving.pure resolved (resolved.find? found)
  | none =>
    have builtin : ∃ builtin, Builtin.ofName? ident.name = some builtin := by
      rcases List.mem_cons.mp inSight with isLen | inSight
      · exact ⟨.len, Builtin.ofName?_eq_some.mpr isLen.symm⟩
      · rcases List.mem_cons.mp inSight with isPuts | inSight
        · exact ⟨.puts, Builtin.ofName?_eq_some.mpr isPuts.symm⟩
        · have bound := sees.found _ inSight
          rw [found] at bound
          cases bound
    obtain ⟨builtin, isBuiltin⟩ := builtin
    simp only [isBuiltin]
    exact Resolving.pure resolved trivial

theorem prefixOp_ne_unbound {op : Operator} {right : Value} {e : EvalError}
    (failed : right.prefixOp op = .error e) (name : String) : e ≠ .unbound name := by
  unfold Value.prefixOp at failed
  split at failed <;> cases failed
  exact nofun

theorem ofOperands_ne_unbound (left : String) (op : Operator) (right name : String) :
    EvalError.ofOperands left op right ≠ .unbound name := by
  unfold EvalError.ofOperands
  split <;> exact nofun

theorem intOp_ne_unbound {op : Operator} {m n : Int64} {e : EvalError}
    (failed : Value.intOp m op n = .error e) (name : String) : e ≠ .unbound name := by
  unfold Value.intOp at failed
  split at failed
  case h_4 =>
    split at failed <;> cases failed
    exact nofun
  all_goals cases failed
  exact ofOperands_ne_unbound _ _ _ name

theorem infixOp_ne_unbound {op : Operator} {left right : Value} {e : EvalError}
    (failed : left.infixOp op right = .error e) (name : String) : e ≠ .unbound name := by
  unfold Value.infixOp at failed
  split at failed
  · exact intOp_ne_unbound failed name
  all_goals cases failed
  exact ofOperands_ne_unbound _ _ _ name

theorem resolving_puts {scopes : Scopes} (resolved : scopes.Resolved) (values : List Value) :
    Resolving (Eval.puts values) scopes fun v after => v.Resolves after := by
  induction values generalizing scopes with
  | nil => exact .pure resolved trivial
  | cons v values ih => exact (Resolving.emit _ resolved).bind fun _ _ _ resolved _ => ih resolved

theorem resolving_builtin {scopes : Scopes} (resolved : scopes.Resolved) (function : Builtin)
    (args : List Value) :
    Resolving (Eval.builtin function args) scopes fun v after => v.Resolves after := by
  cases function with
  | len =>
    refine .ofExcept resolved (fun e failed name => ?_) fun v done => ?_
    · unfold Eval.len at failed
      split at failed <;> cases failed <;> exact nofun
    · unfold Eval.len at done
      split at done <;> cases done
      trivial
  | puts => exact resolving_puts resolved args

/-! ## Trees -/

/-- Applying a value to arguments misses no name if all of them find what they need. -/
def CallsResolve (apply : Value → List Value → Action Value) : Prop :=
  ∀ (callee : Value) (args : List Value) (scopes : Scopes), scopes.Resolved →
    callee.Resolves scopes → (∀ arg ∈ args, arg.Resolves scopes) →
    Resolving (apply callee args) scopes fun v after => v.Resolves after

/-- What a statement yields finds what it needs, and unless it is a return in progress, all names
are bound that are in sight behind the statement. -/
def ResultResolves (scope : ScopeId) (names : List String) (result : Option Value)
    (scopes : Scopes) : Prop :=
  (∀ v ∈ result, v.Resolves scopes) ∧
    ((∀ v ∈ result, ¬ v.isReturned) → scopes.Sees scope names)

section

variable {apply : Value → List Value → Action Value} {scope : ScopeId}

mutual

theorem resolving_expr (calls : CallsResolve apply) {names : List String} {scopes : Scopes}
    (resolved : scopes.Resolved) (sees : scopes.Sees scope names) :
    ∀ e : Expr, e.wellScoped names = true →
      Resolving (Eval.expr apply scope e) scopes fun v after => v.Resolves after
  | .ident ident, wellScoped => by
    unfold Eval.expr
    unfold Expr.wellScoped at wellScoped
    exact resolving_name resolved sees (of_decide_eq_true wellScoped)
  | .int _, _ | .str _, _ | .bool _, _ => by
    unfold Eval.expr
    exact .pure resolved trivial
  | .fn params body, wellScoped => by
    unfold Eval.expr
    unfold Expr.wellScoped at wellScoped
    exact .pure resolved ⟨names, sees, wellScoped⟩
  | .prefixOp op right, wellScoped => by
    unfold Eval.expr
    unfold Expr.wellScoped at wellScoped
    refine (resolving_expr calls resolved sees right wellScoped).bind fun r _ _ resolved rGood => ?_
    refine .unlessReturned resolved rGood fun _ => ?_
    exact .ofExcept resolved (fun _ => prefixOp_ne_unbound) fun _ done =>
      (Value.isScalar_prefixOp done).resolves _
  | .infixOp left op right, wellScoped => by
    unfold Eval.expr
    unfold Expr.wellScoped at wellScoped
    obtain ⟨leftScoped, rightScoped⟩ := Bool.and_eq_true_iff.mp wellScoped
    refine (resolving_expr calls resolved sees left leftScoped).bind
      fun l _ grows resolved lGood => ?_
    refine .unlessReturned resolved lGood fun _ => ?_
    refine (resolving_expr calls resolved (sees.grows grows) right rightScoped).bind
      fun r _ _ resolved rGood => ?_
    refine .unlessReturned resolved rGood fun _ => ?_
    exact .ofExcept resolved (fun _ => infixOp_ne_unbound) fun _ done =>
      (Value.isScalar_infixOp done).resolves _
  | .ifElse cond yes no, wellScoped => by
    unfold Eval.expr
    unfold Expr.wellScoped at wellScoped
    obtain ⟨condScoped, branches⟩ := Bool.and_eq_true_iff.mp wellScoped
    obtain ⟨yesScoped, noScoped⟩ := Bool.and_eq_true_iff.mp branches
    refine (resolving_expr calls resolved sees cond condScoped).bind
      fun c _ grows resolved cGood => ?_
    refine .unlessReturned resolved cGood fun _ => ?_
    split
    · exact resolving_block calls resolved (sees.grows grows) yes yesScoped
    · exact resolving_branch calls resolved (sees.grows grows) no noScoped
  | .call callee args, wellScoped => by
    unfold Eval.expr
    unfold Expr.wellScoped at wellScoped
    obtain ⟨calleeScoped, argsScoped⟩ := Bool.and_eq_true_iff.mp wellScoped
    refine (resolving_expr calls resolved sees callee calleeScoped).bind
      fun f _ grows resolved fGood => ?_
    refine .unlessReturned resolved fGood fun _ => ?_
    refine (resolving_exprs calls resolved (sees.grows grows) args argsScoped).bind
      fun values _ grows resolved valuesGood => ?_
    cases values with
    | error signal => exact .pure resolved valuesGood
    | ok values => exact calls f values _ resolved (fGood.grows grows) valuesGood

theorem resolving_exprs (calls : CallsResolve apply) {names : List String} {scopes : Scopes}
    (resolved : scopes.Resolved) (sees : scopes.Sees scope names) :
    ∀ es : List Expr, Expr.listWellScoped names es = true →
      Resolving (Eval.exprs apply scope es) scopes fun values after => ArgsResolve after values
  | [], _ => by
    unfold Eval.exprs
    exact .pure resolved nofun
  | e :: es, wellScoped => by
    unfold Eval.exprs
    unfold Expr.listWellScoped at wellScoped
    obtain ⟨firstScoped, restScoped⟩ := Bool.and_eq_true_iff.mp wellScoped
    refine (resolving_expr calls resolved sees e firstScoped).bind
      fun v _ grows resolved vGood => ?_
    split
    · exact .pure resolved vGood
    · refine (resolving_exprs calls resolved (sees.grows grows) es restScoped).bind
        fun values _ grows resolved valuesGood => ?_
      cases values with
      | error signal => exact .pure resolved valuesGood
      | ok values =>
        exact .pure resolved (List.forall_mem_cons.mpr ⟨vGood.grows grows, valuesGood⟩)

theorem resolving_branch (calls : CallsResolve apply) {names : List String} {scopes : Scopes}
    (resolved : scopes.Resolved) (sees : scopes.Sees scope names) :
    ∀ no : Option Block, Block.branchWellScoped names no = true →
      Resolving (Eval.branch apply scope no) scopes fun v after => v.Resolves after
  | none, _ => by
    unfold Eval.branch
    exact .pure resolved trivial
  | some no, wellScoped => by
    unfold Eval.branch
    unfold Block.branchWellScoped at wellScoped
    exact resolving_block calls resolved sees no wellScoped

theorem resolving_stmt (calls : CallsResolve apply) {names : List String} {scopes : Scopes}
    (resolved : scopes.Resolved) (sees : scopes.Sees scope names) :
    ∀ s : Stmt, s.wellScoped names = true →
      Resolving (Eval.stmt apply scope s) scopes (ResultResolves scope (s.visible names))
  | .bind _ ident value, wellScoped => by
    unfold Eval.stmt
    unfold Stmt.wellScoped at wellScoped
    cases isFn : value.isFn with
    | false =>
      rw [isFn] at wellScoped
      refine (resolving_expr calls resolved sees value wellScoped).bind
        fun v after grows resolved vGood => ?_
      split
      · next signal =>
        exact .pure resolved ⟨fun _ isV => Option.mem_some.mp isV ▸ vGood, fun plain =>
          absurd signal (plain v rfl)⟩
      · have vGood := vGood.grows (after.grows_bind scope ident.name v)
        refine (Resolving.bindName resolved (sees.grows grows) ident.name vGood).bind
          fun _ _ _ resolved sees => ?_
        exact .pure resolved ⟨nofun, fun _ => sees⟩
    | true =>
      cases value with
      | fn params body =>
        -- What the body needs may be missing when the function is made, but not once it is bound.
        rw [isFn] at wellScoped
        unfold Expr.wellScoped at wellScoped
        unfold Eval.expr
        rw [pure_bind]
        have seesOwn := sees.bind ident.name (.function ⟨params, body, scope⟩)
        have fGood := Value.Resolves.function seesOwn wellScoped
        refine (Resolving.bindName resolved sees ident.name fGood).bind
          fun _ _ _ resolved sees => ?_
        exact .pure resolved ⟨nofun, fun _ => sees⟩
      | _ => cases isFn
  | .ret _ value, wellScoped => by
    unfold Eval.stmt
    unfold Stmt.wellScoped at wellScoped
    refine (resolving_expr calls resolved sees value wellScoped).bind
      fun v _ grows resolved vGood => ?_
    have sees := sees.grows grows
    split <;> exact .pure resolved ⟨fun _ isV => Option.mem_some.mp isV ▸ vGood, fun _ => sees⟩
  | .expr _ value, wellScoped => by
    unfold Eval.stmt
    unfold Stmt.wellScoped at wellScoped
    refine (resolving_expr calls resolved sees value wellScoped).bind
      fun v _ grows resolved vGood => ?_
    exact .pure resolved ⟨fun _ isV => Option.mem_some.mp isV ▸ vGood, fun _ => sees.grows grows⟩

theorem resolving_stmts (calls : CallsResolve apply) {names : List String} {scopes : Scopes}
    (resolved : scopes.Resolved) (sees : scopes.Sees scope names) {last : Value}
    (lastGood : last.Resolves scopes) :
    ∀ ss : List Stmt, Stmt.listWellScoped names ss = true →
      Resolving (Eval.stmts apply scope last ss) scopes fun v after => v.Resolves after
  | [], _ => by
    unfold Eval.stmts
    exact .pure resolved lastGood
  | s :: ss, wellScoped => by
    unfold Eval.stmts
    unfold Stmt.listWellScoped at wellScoped
    obtain ⟨firstScoped, restScoped⟩ := Bool.and_eq_true_iff.mp wellScoped
    refine (resolving_stmt calls resolved sees s firstScoped).bind
      fun result after _ resolved resultGood => ?_
    have vGood : (result.getD .null).Resolves after := by
      cases result with
      | none => trivial
      | some v => exact resultGood.1 v rfl
    refine .unlessReturned resolved vGood fun plain => ?_
    have sees := resultGood.2 fun v isV => by
      rw [Option.mem_def.mp isV] at plain
      exact plain
    exact resolving_stmts calls resolved sees vGood ss restScoped

theorem resolving_block (calls : CallsResolve apply) {names : List String} {scopes : Scopes}
    (resolved : scopes.Resolved) (sees : scopes.Sees scope names) :
    ∀ b : Block, b.wellScoped names = true →
      Resolving (Eval.block apply scope b) scopes fun v after => v.Resolves after
  | .mk _ statements, wellScoped => by
    unfold Eval.block
    unfold Block.wellScoped at wellScoped
    have nothing : Value.null.Resolves scopes := trivial
    exact resolving_stmts calls resolved sees nothing statements wellScoped

end

theorem resolving_top (calls : CallsResolve apply) {names : List String} {scopes : Scopes}
    (resolved : scopes.Resolved) (sees : scopes.Sees scope names) {last : Option Value}
    {ss : List Stmt} (wellScoped : Stmt.listWellScoped names ss = true) :
    Resolving (Eval.top apply scope last ss) scopes fun _ _ => True := by
  induction ss generalizing names scopes last with
  | nil => exact .pure resolved trivial
  | cons s ss ih =>
    unfold Eval.top
    unfold Stmt.listWellScoped at wellScoped
    obtain ⟨firstScoped, restScoped⟩ := Bool.and_eq_true_iff.mp wellScoped
    refine (resolving_stmt calls resolved sees s firstScoped).bind
      fun result after _ resolved resultGood => ?_
    split
    · exact .pure resolved trivial
    · next other =>
      refine ih resolved (resultGood.2 fun v isV => ?_) restScoped
      cases v with
      | returned w => exact absurd isV (other w)
      | _ => exact nofun

end

/-! ## Calls -/

theorem resolving_bindParams {scopes : Scopes} {scope : ScopeId} {names : List String}
    (resolved : scopes.Resolved) (sees : scopes.Sees scope names) {params : List Ident}
    {args : List Value} (same : params.length = args.length)
    (argsGood : ∀ arg ∈ args, arg.Resolves scopes) :
    Resolving (Eval.bindParams scope params args) scopes fun _ after =>
      after.Sees scope (params.map Ident.name ++ names) := by
  induction params generalizing scopes names args with
  | nil => exact .pure resolved sees
  | cons param params ih =>
    cases args with
    | nil => cases same
    | cons arg args =>
      obtain ⟨argGood, restGood⟩ := List.forall_mem_cons.mp argsGood
      have argGood := argGood.grows (scopes.grows_bind scope param.name arg)
      refine (Resolving.bindName resolved sees param.name argGood).bind
        fun _ after grows resolved sees => ?_
      have rest := ih resolved sees (Nat.succ.inj same) fun a member =>
        (restGood a member).grows grows
      refine rest.imp fun _ _ ⟨grows, resolved, sees⟩ => ⟨grows, resolved, sees.mono ?_⟩
      exact List.perm_middle.symm.subset

theorem callsResolve_applyWith {body : ScopeId → Block → Action Value}
    (bodies : ∀ {scope names scopes} (b : Block), scopes.Resolved → scopes.Sees scope names →
      b.wellScoped names = true → Resolving (body scope b) scopes fun v after => v.Resolves after) :
    CallsResolve (Eval.applyWith body) := by
  intro callee args scopes resolved calleeGood argsGood
  refine (Resolving.emit (.applied callee args) resolved).bind fun _ after grows resolved _ => ?_
  cases callee with
  | function closure =>
    show Resolving (if closure.params.length = args.length then _ else _) after _
    obtain ⟨names, sees, wellScoped⟩ := calleeGood
    split
    · next same =>
      refine (Resolving.newScope resolved (sees.grows grows)).bind
        fun scope _ grows' resolved sees => ?_
      refine (resolving_bindParams resolved sees same fun arg member =>
        ((argsGood arg member).grows grows).grows grows').bind fun _ _ _ resolved sees => ?_
      refine (bodies closure.body resolved sees wellScoped).bind fun v _ _ resolved vGood => ?_
      exact .pure resolved vGood.unwrap
    · exact .stop nofun
  | builtin function => exact resolving_builtin resolved function args
  | _ => exact .stop nofun

theorem callsResolve_call (depth : Nat) : CallsResolve (Eval.call depth) := by
  induction depth with
  | zero => exact callsResolve_applyWith fun _ _ _ _ => .stop nofun
  | succ depth ih =>
    exact callsResolve_applyWith fun b resolved sees wellScoped =>
      resolving_block ih resolved sees b wellScoped

/-! ## Programs -/

theorem Scopes.resolved_fresh : Session.fresh.scopes.Resolved := by
  have nothing : Scopes.empty.Resolved := .empty
  exact nothing.push none

/-- Nothing catches an error, so if a name were missing anywhere in the run, the run would stop with
just that. -/
theorem wellScoped_never_unbound {program : Program} (wellScoped : program.wellScoped = true)
    (depth : Nat) (name : String) :
    (Eval.program depth Session.fresh.scope program Session.fresh.scopes).outcome ≠
      .error (.error (.unbound name)) := by
  have sees : Session.fresh.scopes.Sees Session.fresh.scope [] := ⟨Nat.one_pos, nofun⟩
  have resolving : Resolving (Eval.program depth Session.fresh.scope program)
      Session.fresh.scopes fun _ _ => True :=
    resolving_top (callsResolve_call depth) Scopes.resolved_fresh sees wellScoped
  exact fun stops => resolving.stopped _ stops name rfl

/-- `if (n < 1) { let g = fn() { f(n) }; g } else { f(n - 1) }`. -/
def countdown : Block :=
  let call (arg : Expr) : Expr := .call (.ident (.ofName "f")) [arg]
  let once : Expr := .fn [] (.mk .lbrace [.expr (.ident "f") (call (.ident (.ofName "n")))])
  .mk .lbrace [.expr .ifWord (.ifElse (.infixOp (.ident (.ofName "n")) .lt (.int 1))
    (.mk .lbrace [.bind .letWord (.ofName "g") once, .expr (.ident "g") (.ident (.ofName "g"))])
    (some (.mk .lbrace [.expr (.ident "f")
      (call (.infixOp (.ident (.ofName "n")) .minus (.int 1)))])))]

/-- A function that calls itself and yields another one that calls it in turn. -/
theorem wellScoped_never_unbound_of_recursion :
    Program.wellScoped ⟨[.bind .letWord (.ofName "f") (.fn [.ofName "n"] countdown),
      .expr (.ident "f") (.call (.ident (.ofName "f")) [.int 2])]⟩ = true ∧
    (Eval.program 5 Session.fresh.scope
      ⟨[.bind .letWord (.ofName "f") (.fn [.ofName "n"] countdown),
        .expr (.ident "f") (.call (.ident (.ofName "f")) [.int 2])]⟩
      Session.fresh.scopes).outcome ≠ .error (.error (.unbound "f")) :=
  have wellScoped : Program.wellScoped
      ⟨[.bind .letWord (.ofName "f") (.fn [.ofName "n"] countdown),
        .expr (.ident "f") (.call (.ident (.ofName "f")) [.int 2])]⟩ = true := by decide
  ⟨wellScoped, wellScoped_never_unbound wellScoped 5 "f"⟩

end TreeWalk
