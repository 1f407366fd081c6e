import TreeWalk.Eval

/-!
# What evaluation writes

Scopes are shared by the functions that were made in them, and they may be reached in many ways.
Nevertheless a program binds names in one place only: in the scope that it is evaluated in.  A
function binds its parameters and whatever its body binds in a scope of its own.

Results:
1. one step: what two actions write one after the other is what either of them writes
   (`Writes.bind`), and an action that opens a scope first and then writes to that scope writes to
   none that was there before (`Opens.newScope`);
2. by induction on the tree, evaluation writes nothing but the names of the bindings outside
   functions, provided that calls write nothing (`writes_expr`, `writes_stmt`, `writes_block`); and
   they write nothing, by induction on their depth (`opens_call`);
3. together that is true of programs, statements, blocks, expressions and calls in any scopes
   (`eval_writes_only_lets`).
-/

namespace TreeWalk

/-! ## The bindings in a tree -/

mutual

/-- The names that are bound where an expression is evaluated.  The body of a function is evaluated
elsewhere. -/
def Expr.lets : Expr → List String
  | .ident _ | .int _ | .str _ | .bool _ | .fn _ _ => []
  | .prefixOp _ right => right.lets
  | .infixOp left _ right => left.lets ++ right.lets
  | .ifElse cond yes no => cond.lets ++ (yes.lets ++ Block.branchLets no)
  | .call callee args => callee.lets ++ Expr.listLets args

/-- The names that are bound where expressions are evaluated one by one. -/
def Expr.listLets : List Expr → List String
  | [] => []
  | e :: es => e.lets ++ Expr.listLets es

/-- The names that are bound where a statement is evaluated. -/
def Stmt.lets : Stmt → List String
  | .bind _ name value => value.lets ++ [name.name]
  | .ret _ value | .expr _ value => value.lets

/-- The names that are bound where statements are evaluated one by one. -/
def Stmt.listLets : List Stmt → List String
  | [] => []
  | s :: ss => s.lets ++ Stmt.listLets ss

/-- The names that are bound where a block is evaluated. -/
def Block.lets : Block → List String
  | .mk _ statements => Stmt.listLets statements

/-- The names that are bound where a branch is evaluated that may be missing. -/
def Block.branchLets : Option Block → List String
  | none => []
  | some no => no.lets

end

/-- The names that are bound where a program is evaluated. -/
def Program.lets (program : Program) : List String :=
  Stmt.listLets program.statements

/-! ## What changes in scopes -/

/-- Every scope that was there is still there, with the same bindings and in the same place. -/
def Scopes.Extends (before after : Scopes) : Prop :=
  ∀ (id : ScopeId) (s : Scope), before.scope? id = some s → after.scope? id = some s

/-- `Rebinds names before after`: no name has lost its binding, and what the other names stand for
is the same. -/
structure Bindings.Rebinds (names : List String) (before after : Bindings) : Prop where
  kept : ∀ name, (before.get? name).isSome → (after.get? name).isSome
  same : ∀ name, name ∉ names → after.get? name = before.get? name

/-- `WritesOnly scope names before after`: all that differs is what the given names stand for in the
given scope. -/
structure WritesOnly (scope : ScopeId) (names : List String) (before after : Scopes) : Prop where
  others : ∀ {id s}, id ≠ scope → before.scope? id = some s → after.scope? id = some s
  own : ∀ {s}, before.scope? scope = some s →
    ∃ bindings, after.scope? scope = some ⟨bindings, s.outer⟩ ∧ s.bindings.Rebinds names bindings

theorem Scopes.Extends.writesOnly {before after : Scopes} (extended : before.Extends after)
    (scope : ScopeId) (names : List String) : WritesOnly scope names before after :=
  ⟨fun _ there => extended _ _ there, fun {s} there =>
    ⟨s.bindings, extended _ _ there, fun _ bound => bound, fun _ _ => rfl⟩⟩

namespace WritesOnly

variable {scope : ScopeId} {names names' : List String} {before mid after : Scopes}

theorem mono (writes : WritesOnly scope names before after) (more : names ⊆ names') :
    WritesOnly scope names' before after := by
  refine ⟨writes.others, fun there => ?_⟩
  obtain ⟨bindings, found, rebinds⟩ := writes.own there
  exact ⟨bindings, found, rebinds.kept, fun name other =>
    rebinds.same name fun member => other (more member)⟩

theorem trans (first : WritesOnly scope names before mid)
    (second : WritesOnly scope names' mid after) :
    WritesOnly scope (names ++ names') before after := by
  refine ⟨fun differ there => second.others differ (first.others differ there), fun there => ?_⟩
  obtain ⟨bindings, found, rebinds⟩ := first.own there
  obtain ⟨bindings', found', rebinds'⟩ := second.own found
  refine ⟨bindings', found', fun name bound => rebinds'.kept name (rebinds.kept name bound), ?_⟩
  intro name other
  obtain ⟨notFirst, notSecond⟩ := not_or.mp fun member => other (List.mem_append.mpr member)
  rw [rebinds'.same name notSecond, rebinds.same name notFirst]

/-- In a scope that is new, nothing is written that was there before. -/
theorem extends_of_push {outer : Option ScopeId}
    (writes : WritesOnly before.size names (before.push outer) after) :
    before.Extends after := by
  intro id s there
  have old : id ≠ before.size := by
    rintro rfl
    rw [Scopes.scope?, Scopes.size, Array.getElem?_size] at there
    cases there
  refine writes.others old ?_
  rw [Scopes.scope?_push, if_neg old, there]

end WritesOnly

theorem Scopes.writesOnly_bind (scopes : Scopes) (scope : ScopeId) (name : String) (value : Value) :
    WritesOnly scope [name] scopes (scopes.bind scope name value) := by
  refine ⟨fun differ there => ?_, fun {s} there => ?_⟩
  · rw [Scopes.scope?_bind, if_neg differ, there]
  · refine ⟨s.bindings.insert name value, ?_, fun key bound => ?_, fun key other => ?_⟩
    · rw [Scopes.scope?_bind, if_pos rfl, there]
      rfl
    · rw [Bindings.get?_insert]
      split
      · rfl
      · exact bound
    · rw [Bindings.get?_insert, if_neg fun same => other (List.mem_singleton.mpr same)]

/-! ## What an action writes -/

section

variable {α β : Type}

/-- Whatever comes of the action, it has written the given names in the given scope and nothing
else. -/
def Writes (scope : ScopeId) (names : List String) (action : Action α) : Prop :=
  ∀ scopes, WritesOnly scope names scopes (action scopes).scopes

/-- Whatever comes of the action, all it has done to scopes is to open new ones. -/
def Opens (action : Action α) : Prop :=
  ∀ scopes : Scopes, scopes.Extends (action scopes).scopes

namespace Opens

theorem writes {action : Action α} (opens : Opens action) (scope : ScopeId) (names : List String) :
    Writes scope names action :=
  fun scopes => (opens scopes).writesOnly scope names

theorem pure (a : α) : Opens (Pure.pure a) :=
  fun _ _ _ there => there

theorem stop (reason : Stop) : Opens (Action.stop reason : Action α) :=
  fun _ _ _ there => there

theorem emit (event : Event) : Opens (Action.emit event) :=
  fun _ _ _ there => there

theorem find? (name : String) (scope : ScopeId) : Opens (Action.find? name scope) :=
  fun _ _ _ there => there

theorem ofExcept (result : Except EvalError α) : Opens (Action.ofExcept result) := by
  cases result with
  | error e => exact stop (.error e)
  | ok a => exact pure a

theorem bind {action : Action α} {next : α → Action β} (first : Opens action)
    (second : ∀ a, Opens (next a)) : Opens (action >>= next) := by
  intro scopes
  have start := first scopes
  rcases ran : action scopes with ⟨reason | a, scopes', events⟩
  · rw [Action.bind_of_error ran]
    rwa [ran] at start
  · rw [Action.bind_of_ok ran]
    rw [ran] at start
    exact fun id s there => second a scopes' id s (start id s there)

theorem unlessReturned {value : Value} {next : Action Value} (opens : Opens next) :
    Opens (Eval.unlessReturned value next) := by
  unfold Eval.unlessReturned
  split
  · exact pure value
  · exact opens

/-- What is written to a scope that is opened first was not there before. -/
theorem newScope {outer : ScopeId} {names : List String} {next : ScopeId → Action β}
    (inside : ∀ scope, Writes scope names (next scope)) :
    Opens (Action.newScope outer >>= next) :=
  fun scopes => (inside scopes.size (scopes.push (some outer))).extends_of_push

end Opens

namespace Writes

variable {scope : ScopeId} {names names' : List String}

theorem mono {action : Action α} (writes : Writes scope names action) (more : names ⊆ names') :
    Writes scope names' action :=
  fun scopes => (writes scopes).mono more

theorem bindName (scope : ScopeId) (name : String) (value : Value) :
    Writes scope [name] (Action.bindName scope name value) :=
  fun scopes => scopes.writesOnly_bind scope name value

theorem bind {action : Action α} {next : α → Action β} (first : Writes scope names action)
    (second : ∀ a, Writes scope names' (next a)) :
    Writes scope (names ++ names') (action >>= next) := by
  intro scopes
  have start := first scopes
  rcases ran : action scopes with ⟨reason | a, scopes', events⟩
  · rw [Action.bind_of_error ran]
    rw [ran] at start
    exact start.mono (List.subset_append_left _ _)
  · rw [Action.bind_of_ok ran]
    rw [ran] at start
    exact start.trans (second a scopes')

/-- What follows may open scopes. -/
theorem bind_opens {action : Action α} {next : α → Action β} (first : Writes scope names action)
    (second : ∀ a, Opens (next a)) : Writes scope names (action >>= next) := by
  have both := first.bind fun a => (second a).writes scope []
  rwa [List.append_nil] at both

theorem unlessReturned {value : Value} {next : Action Value} (writes : Writes scope names next) :
    Writes scope names (Eval.unlessReturned value next) := by
  unfold Eval.unlessReturned
  split
  · exact (Opens.pure value).writes scope names
  · exact writes

end Writes

end

theorem opens_name (scope : ScopeId) (ident : Ident) : Opens (Eval.name scope ident) := by
  refine (Opens.find? ident.name scope).bind fun found => ?_
  cases found with
  | some value => exact .pure value
  | none =>
    cases Builtin.ofName? ident.name with
    | some builtin => exact .pure _
    | none => exact .stop _

theorem opens_puts (values : List Value) : Opens (Eval.puts values) := by
  induction values with
  | nil => exact .pure _
  | cons value values ih => exact (Opens.emit (.printed value)).bind fun _ => ih

theorem writes_bindParams (scope : ScopeId) (params : List Ident) (args : List Value) :
    Writes scope (params.map Ident.name) (Eval.bindParams scope params args) := by
  induction params generalizing args with
  | nil => exact (Opens.pure ()).writes scope []
  | cons param params ih =>
    cases args with
    | nil => exact (Opens.pure ()).writes scope _
    | cons arg args => exact (Writes.bindName scope param.name arg).bind fun _ => ih args

/-! ## Trees -/

section

variable {apply : Value → List Value → Action Value}

mutual

theorem writes_expr (calls : ∀ callee args, Opens (apply callee args)) (scope : ScopeId) :
    ∀ e : Expr, Writes scope e.lets (Eval.expr apply scope e)
  | .ident ident => by
    unfold Eval.expr
    exact (opens_name scope ident).writes scope _
  | .int n | .str s | .bool b | .fn params body => by
    unfold Eval.expr
    exact (Opens.pure _).writes scope _
  | .prefixOp op right => by
    unfold Eval.expr Expr.lets
    exact (writes_expr calls scope right).bind_opens fun r => .unlessReturned (.ofExcept _)
  | .infixOp left op right => by
    unfold Eval.expr Expr.lets
    refine (writes_expr calls scope left).bind fun l => .unlessReturned ?_
    exact (writes_expr calls scope right).bind_opens fun r => .unlessReturned (.ofExcept _)
  | .ifElse cond yes no => by
    unfold Eval.expr Expr.lets
    refine (writes_expr calls scope cond).bind fun c => .unlessReturned ?_
    split
    · exact (writes_block calls scope yes).mono (List.subset_append_left _ _)
    · exact (writes_branch calls scope no).mono (List.subset_append_right _ _)
  | .call callee args => by
    unfold Eval.expr Expr.lets
    refine (writes_expr calls scope callee).bind fun f => .unlessReturned ?_
    refine (writes_exprs calls scope args).bind_opens fun values => ?_
    cases values with
    | error signal => exact .pure signal
    | ok values => exact calls f values

theorem writes_exprs (calls : ∀ callee args, Opens (apply callee args)) (scope : ScopeId) :
    ∀ es : List Expr, Writes scope (Expr.listLets es) (Eval.exprs apply scope es)
  | [] => by
    unfold Eval.exprs
    exact (Opens.pure _).writes scope _
  | e :: es => by
    unfold Eval.exprs Expr.listLets
    refine (writes_expr calls scope e).bind fun v => ?_
    split
    · exact (Opens.pure _).writes scope _
    · refine (writes_exprs calls scope es).bind_opens fun values => ?_
      cases values with
      | error signal => exact .pure _
      | ok values => exact .pure _

theorem writes_branch (calls : ∀ callee args, Opens (apply callee args)) (scope : ScopeId) :
    ∀ no : Option Block, Writes scope (Block.branchLets no) (Eval.branch apply scope no)
  | none => by
    unfold Eval.branch
    exact (Opens.pure _).writes scope _
  | some no => by
    unfold Eval.branch Block.branchLets
    exact writes_block calls scope no

theorem writes_stmt (calls : ∀ callee args, Opens (apply callee args)) (scope : ScopeId) :
    ∀ s : Stmt, Writes scope s.lets (Eval.stmt apply scope s)
  | .bind _ ident value => by
    unfold Eval.stmt Stmt.lets
    refine (writes_expr calls scope value).bind fun v => ?_
    split
    · exact (Opens.pure _).writes scope _
    · exact (Writes.bindName scope ident.name v).bind_opens fun _ => .pure none
  | .ret _ value => by
    unfold Eval.stmt Stmt.lets
    refine (writes_expr calls scope value).bind_opens fun v => ?_
    split
    · exact .pure _
    · exact .pure _
  | .expr _ value => by
    unfold Eval.stmt Stmt.lets
    exact (writes_expr calls scope value).bind_opens fun v => .pure (some v)

theorem writes_stmts (calls : ∀ callee args, Opens (apply callee args)) (scope : ScopeId)
    (last : Value) :
    ∀ ss : List Stmt, Writes scope (Stmt.listLets ss) (Eval.stmts apply scope last ss)
  | [] => by
    unfold Eval.stmts
    exact (Opens.pure _).writes scope _
  | s :: ss => by
    unfold Eval.stmts Stmt.listLets
    exact (writes_stmt calls scope s).bind fun result =>
      .unlessReturned (writes_stmts calls scope (result.getD .null) ss)

theorem writes_block (calls : ∀ callee args, Opens (apply callee args)) (scope : ScopeId) :
    ∀ b : Block, Writes scope b.lets (Eval.block apply scope b)
  | .mk _ statements => by
    unfold Eval.block Block.lets
    exact writes_stmts calls scope .null statements

end

theorem writes_top (calls : ∀ callee args, Opens (apply callee args)) (scope : ScopeId)
    (last : Option Value) (ss : List Stmt) :
    Writes scope (Stmt.listLets ss) (Eval.top apply scope last ss) := by
  induction ss generalizing last with
  | nil => exact (Opens.pure last).writes scope _
  | cons s ss ih =>
    unfold Eval.top Stmt.listLets
    refine (writes_stmt calls scope s).bind fun result => ?_
    split
    · exact (Opens.pure _).writes scope _
    · exact ih result

end

/-! ## Calls -/

theorem opens_applyWith {body : ScopeId → Block → Action Value}
    (bodies : ∀ scope b, Writes scope b.lets (body scope b)) (callee : Value) (args : List Value) :
    Opens (Eval.applyWith body callee args) := by
  refine (Opens.emit (.applied callee args)).bind fun _ => ?_
  cases callee with
  | function closure =>
    show Opens (if closure.params.length = args.length then _ else _)
    split
    · exact .newScope fun scope => (writes_bindParams scope closure.params args).bind fun _ =>
        (bodies scope closure.body).bind_opens fun v => .pure v.unwrap
    · exact .stop _
  | builtin function =>
    cases function with
    | len => exact .ofExcept _
    | puts => exact opens_puts args
  | _ => exact .stop _

theorem opens_call (depth : Nat) (callee : Value) (args : List Value) :
    Opens (Eval.call depth callee args) := by
  induction depth generalizing callee args with
  | zero =>
    have stops (scope : ScopeId) (b : Block) :
        Writes scope b.lets (Action.stop .tooDeep : Action Value) :=
      (Opens.stop .tooDeep).writes scope b.lets
    exact opens_applyWith stops callee args
  | succ depth ih => exact opens_applyWith (fun scope b => writes_block ih scope b) callee args

/-- Evaluation writes to the scope it is given only, and there only what `let` binds outside
functions; a call writes to no scope that was there before. -/
theorem eval_writes_only_lets (depth : Nat) (scopes : Scopes) :
    (∀ (scope : ScopeId) (program : Program),
      WritesOnly scope program.lets scopes (Eval.program depth scope program scopes).scopes) ∧
    (∀ (scope : ScopeId) (s : Stmt),
      WritesOnly scope s.lets scopes (Eval.stmt (Eval.call depth) scope s scopes).scopes) ∧
    (∀ (scope : ScopeId) (b : Block),
      WritesOnly scope b.lets scopes (Eval.block (Eval.call depth) scope b scopes).scopes) ∧
    (∀ (scope : ScopeId) (e : Expr),
      WritesOnly scope e.lets scopes (Eval.expr (Eval.call depth) scope e scopes).scopes) ∧
    ∀ (callee : Value) (args : List Value),
      scopes.Extends (Eval.call depth callee args scopes).scopes := by
  have calls := opens_call depth
  refine ⟨fun scope program => ?_, fun scope s => ?_, fun scope b => ?_, fun scope e => ?_,
    fun callee args => calls callee args scopes⟩
  · exact writes_top calls scope none program.statements scopes
  · exact writes_stmt calls scope s scopes
  · exact writes_block calls scope b scopes
  · exact writes_expr calls scope e scopes

end TreeWalk
