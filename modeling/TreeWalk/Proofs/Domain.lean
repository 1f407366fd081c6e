import TreeWalk.Proofs.Contract

/-!
# Domains

A domain says which trees are evaluated, which values come of them, and which errors stop them.  If
it is closed under each construct of the language, then evaluation never leaves it, however
functions are passed on and called later.

Results:
1. what is put together from actions that keep to a domain keeps to it (`Domain.Keeps.bind` and so
   on);
2. evaluation keeps to a closed domain: one case for each construct, by induction on the tree and on
   the depth of calls (`Domain.Closed.keeps_expr`, `Domain.Closed.keeps_call`,
   `Domain.Closed.keeps_program`).
-/

namespace TreeWalk

/-- The operator that an error is about. -/
def EvalError.operator? : EvalError → Option Operator
  | badPrefix op _ | badInfix _ op _ | mismatch _ op _ => some op
  | _ => none

/-- Which values a name may stand for, which errors may stop evaluation, and which trees are
evaluated. -/
structure Domain where
  value : Value → Prop
  error : EvalError → Prop
  expr : Expr → Prop
  stmt : Stmt → Prop
  block : Block → Prop

namespace Domain

/-- What an expression may yield: a value of the domain, or a return in progress of one. -/
def returnable (d : Domain) (v : Value) : Prop :=
  d.value v.unwrap

theorem returnable.value {d : Domain} {v : Value} (returnable : d.returnable v)
    (plain : ¬ v.isReturned) : d.value v := by
  rwa [Domain.returnable, Value.unwrap_of_not_isReturned (Bool.eq_false_iff.mpr plain)]
    at returnable

/-- What arguments may yield. -/
def args (d : Domain) : Except Value (List Value) → Prop
  | .error signal => d.returnable signal
  | .ok values => ∀ v ∈ values, d.value v

/-- What may be seen of evaluation. -/
def event (d : Domain) : Event → Prop
  | .applied _ args => ∀ arg ∈ args, d.value arg
  | .printed _ => True

/-- The domain is closed under the constructs of the language: it has the parts of its trees, what
they evaluate to, and the errors that do not depend on them. -/
structure Closed (d : Domain) : Prop where
  plain : ∀ {v : Value}, d.value v → v.isReturned = false
  scalar : ∀ {v : Value}, v.IsScalar → d.value v
  null : d.value .null
  builtin : ∀ function, d.value (.builtin function)
  unrelated : ∀ {e : EvalError}, e.operator? = none → d.error e
  prefixOp : ∀ {op right}, d.expr (.prefixOp op right) → d.expr right ∧
    ∀ {r : Value} {e}, r.prefixOp op = .error e → d.error e
  infixOp : ∀ {left op right}, d.expr (.infixOp left op right) → d.expr left ∧ d.expr right ∧
    ∀ {l r : Value} {e}, l.infixOp op r = .error e → d.error e
  ifElse : ∀ {cond yes no}, d.expr (.ifElse cond yes no) →
    d.expr cond ∧ d.block yes ∧ ∀ b ∈ no, d.block b
  fn : ∀ {params body} scope, d.expr (.fn params body) → d.value (.function ⟨params, body, scope⟩)
  body : ∀ {closure : Closure}, d.value (.function closure) → d.block closure.body
  call : ∀ {callee args}, d.expr (.call callee args) → d.expr callee ∧ ∀ arg ∈ args, d.expr arg
  bind : ∀ {token name value}, d.stmt (.bind token name value) → d.expr value
  ret : ∀ {token value}, d.stmt (.ret token value) → d.expr value
  exprStmt : ∀ {token value}, d.stmt (.expr token value) → d.expr value
  stmts : ∀ {token statements}, d.block (.mk token statements) → ∀ s ∈ statements, d.stmt s

/-! ## Actions that keep to a domain -/

section

variable {α β : Type}

/-- `d.Keeps good action`: if names stand for values of the domain only, that stays so, also if the
action stops; so does all that can be seen and the error that it stops with, and a result is
good. -/
def Keeps (d : Domain) (good : α → Prop) (action : Action α) : Prop :=
  ∀ scopes : Scopes, scopes.BindsOnly d.value →
    action.Meets d.event
      (fun reason after => after.BindsOnly d.value ∧ ∀ e, reason = .error e → d.error e) scopes
      fun a after => after.BindsOnly d.value ∧ good a

namespace Keeps

variable {d : Domain} {good good' : α → Prop} {last : β → Prop}

theorem pure {a : α} (isGood : good a) : d.Keeps good (Pure.pure a) :=
  fun _ binds => .pure ⟨binds, isGood⟩

theorem imp {action : Action α} (keeps : d.Keeps good action) (weaker : ∀ a, good a → good' a) :
    d.Keeps good' action :=
  fun scopes binds => (keeps scopes binds).imp fun a _ holds => ⟨holds.1, weaker a holds.2⟩

theorem tooDeep : d.Keeps good (Action.stop .tooDeep) :=
  fun _ binds => .stop ⟨binds, nofun⟩

theorem stop {e : EvalError} (isError : d.error e) : d.Keeps good (Action.stop (.error e)) := by
  refine fun _ binds => .stop ⟨binds, ?_⟩
  rintro _ ⟨⟩
  exact isError

theorem bind {action : Action α} {next : α → Action β} (first : d.Keeps good action)
    (second : ∀ a, good a → d.Keeps last (next a)) : d.Keeps last (action >>= next) :=
  fun scopes binds => .bind ((first scopes binds).imp fun a after holds =>
    second a holds.2 after holds.1)

theorem emit {event : Event} (isSeen : d.event event) :
    d.Keeps (fun _ => True) (Action.emit event) :=
  fun _ binds => .emit isSeen ⟨binds, trivial⟩

theorem find? (name : String) (scope : ScopeId) :
    d.Keeps (fun found => ∀ v ∈ found, d.value v) (Action.find? name scope) :=
  fun _ binds => .find? ⟨binds, fun _ found => binds.find? found⟩

theorem bindName (scope : ScopeId) (name : String) {v : Value} (isValue : d.value v) :
    d.Keeps (fun _ => True) (Action.bindName scope name v) :=
  fun _ binds => .bindName ⟨binds.bind scope name isValue, trivial⟩

theorem newScope (outer : ScopeId) : d.Keeps (fun _ => True) (Action.newScope outer) :=
  fun _ binds => .newScope ⟨binds.push _, trivial⟩

theorem ofExcept {result : Except EvalError α} (fails : ∀ e, result = .error e → d.error e)
    (isGood : ∀ a, result = .ok a → good a) : d.Keeps good (Action.ofExcept result) := by
  cases result with
  | error e => exact stop (fails e rfl)
  | ok a => exact pure (isGood a rfl)

theorem unlessReturned {v : Value} {next : Action Value} (returnable : d.returnable v)
    (keeps : d.value v → d.Keeps d.returnable next) :
    d.Keeps d.returnable (Eval.unlessReturned v next) :=
  fun scopes binds => .unlessReturned (fun _ => ⟨binds, returnable⟩) fun plain =>
    keeps (returnable.value plain) scopes binds

theorem bindParams (scope : ScopeId) (params : List Ident) {args : List Value}
    (areValues : ∀ arg ∈ args, d.value arg) :
    d.Keeps (fun _ => True) (Eval.bindParams scope params args) := by
  induction params generalizing args with
  | nil => exact .pure trivial
  | cons param params ih =>
    cases args with
    | nil => exact .pure trivial
    | cons arg args =>
      obtain ⟨isValue, rest⟩ := List.forall_mem_cons.mp areValues
      exact (Keeps.bindName scope param.name isValue).bind fun _ _ => ih rest

/-- Whatever becomes of the action, names stand for values of the domain only. -/
theorem after {action : Action α} (keeps : d.Keeps good action) {scopes : Scopes}
    (binds : scopes.BindsOnly d.value) : (action scopes).scopes.BindsOnly d.value := by
  obtain ⟨_, stopped, done⟩ := keeps scopes binds
  rcases ran : (action scopes).outcome with reason | a
  · exact (stopped reason ran).1
  · exact (done a ran).1

end Keeps

end

/-! ## Trees -/

/-- Applying a value of the domain to values of the domain keeps to it. -/
def CallsKeep (d : Domain) (apply : Value → List Value → Action Value) : Prop :=
  ∀ callee args, d.value callee → (∀ arg ∈ args, d.value arg) → d.Keeps d.value (apply callee args)

namespace Closed

variable {d : Domain}

theorem returnable (closed : d.Closed) {v : Value} (isValue : d.value v) : d.returnable v := by
  rwa [Domain.returnable, Value.unwrap_of_not_isReturned (closed.plain isValue)]

theorem keeps_name (closed : d.Closed) (scope : ScopeId) (ident : Ident) :
    d.Keeps d.value (Eval.name scope ident) := by
  refine (Keeps.find? ident.name scope).bind fun found isValue => ?_
  cases found with
  | some v => exact .pure (isValue v rfl)
  | none =>
    dsimp only
    cases Builtin.ofName? ident.name with
    | some function => exact .pure (closed.builtin function)
    | none => exact .stop (closed.unrelated rfl)

theorem keeps_puts (closed : d.Closed) (values : List Value) :
    d.Keeps d.value (Eval.puts values) := by
  induction values with
  | nil => exact .pure closed.null
  | cons v values ih =>
    have printed : d.event (.printed v) := trivial
    exact (Keeps.emit printed).bind fun _ _ => ih

theorem keeps_builtin (closed : d.Closed) (function : Builtin) (args : List Value) :
    d.Keeps d.value (Eval.builtin function args) := by
  cases function with
  | len =>
    refine .ofExcept (fun e failed => ?_) fun v done => ?_
    · unfold Eval.len at failed
      split at failed <;> cases failed <;> exact closed.unrelated rfl
    · unfold Eval.len at done
      split at done <;> cases done
      exact closed.scalar trivial
  | puts => exact closed.keeps_puts args

section

variable {apply : Value → List Value → Action Value}

mutual

theorem keeps_expr (closed : d.Closed) (calls : d.CallsKeep apply) (scope : ScopeId) :
    ∀ e : Expr, d.expr e → d.Keeps d.returnable (Eval.expr apply scope e)
  | .ident ident, _ => by
    unfold Eval.expr
    exact (closed.keeps_name scope ident).imp fun _ => closed.returnable
  | .int _, _ | .str _, _ | .bool _, _ => by
    unfold Eval.expr
    exact .pure (closed.scalar trivial)
  | .fn params body, inside => by
    unfold Eval.expr
    exact .pure (closed.fn scope inside)
  | .prefixOp op right, inside => by
    obtain ⟨isRight, fails⟩ := closed.prefixOp inside
    unfold Eval.expr
    refine (keeps_expr closed calls scope right isRight).bind fun r rGood =>
      .unlessReturned rGood fun _ => ?_
    exact .ofExcept (fun _ failed => fails failed) fun _ done =>
      closed.returnable (closed.scalar (Value.isScalar_prefixOp done))
  | .infixOp left op right, inside => by
    obtain ⟨isLeft, isRight, fails⟩ := closed.infixOp inside
    unfold Eval.expr
    refine (keeps_expr closed calls scope left isLeft).bind fun l lGood =>
      .unlessReturned lGood fun _ => ?_
    refine (keeps_expr closed calls scope right isRight).bind fun r rGood =>
      .unlessReturned rGood fun _ => ?_
    exact .ofExcept (fun _ failed => fails failed) fun _ done =>
      closed.returnable (closed.scalar (Value.isScalar_infixOp done))
  | .ifElse cond yes no, inside => by
    obtain ⟨isCond, isYes, isNo⟩ := closed.ifElse inside
    unfold Eval.expr
    refine (keeps_expr closed calls scope cond isCond).bind fun c cGood =>
      .unlessReturned cGood fun _ => ?_
    split
    · exact keeps_block closed calls scope yes isYes
    · exact keeps_branch closed calls scope no isNo
  | .call callee args, inside => by
    obtain ⟨isCallee, areArgs⟩ := closed.call inside
    unfold Eval.expr
    refine (keeps_expr closed calls scope callee isCallee).bind fun f fGood =>
      .unlessReturned fGood fun isValue => ?_
    refine (keeps_exprs closed calls scope args areArgs).bind fun values valuesGood => ?_
    cases values with
    | error signal => exact .pure valuesGood
    | ok values => exact (calls f values isValue valuesGood).imp fun _ => closed.returnable

theorem keeps_exprs (closed : d.Closed) (calls : d.CallsKeep apply) (scope : ScopeId) :
    ∀ es : List Expr, (∀ e ∈ es, d.expr e) → d.Keeps d.args (Eval.exprs apply scope es)
  | [], _ => by
    unfold Eval.exprs
    exact .pure nofun
  | e :: es, inside => by
    obtain ⟨isFirst, areMore⟩ := List.forall_mem_cons.mp inside
    unfold Eval.exprs
    refine (keeps_expr closed calls scope e isFirst).bind fun v vGood => ?_
    split
    · exact .pure vGood
    · next plain =>
      refine (keeps_exprs closed calls scope es areMore).bind fun values valuesGood => ?_
      cases values with
      | error signal => exact .pure valuesGood
      | ok values => exact .pure (List.forall_mem_cons.mpr ⟨vGood.value plain, valuesGood⟩)

theorem keeps_branch (closed : d.Closed) (calls : d.CallsKeep apply) (scope : ScopeId) :
    ∀ no : Option Block, (∀ b ∈ no, d.block b) → d.Keeps d.returnable (Eval.branch apply scope no)
  | none, _ => by
    unfold Eval.branch
    exact .pure (closed.returnable closed.null)
  | some no, inside => by
    unfold Eval.branch
    exact keeps_block closed calls scope no (inside no rfl)

theorem keeps_stmt (closed : d.Closed) (calls : d.CallsKeep apply) (scope : ScopeId) :
    ∀ s : Stmt, d.stmt s → d.Keeps (fun result => ∀ v ∈ result, d.returnable v)
      (Eval.stmt apply scope s)
  | .bind _ ident value, inside => by
    unfold Eval.stmt
    refine (keeps_expr closed calls scope value (closed.bind inside)).bind fun v vGood => ?_
    split
    · exact .pure fun _ isV => Option.mem_some.mp isV ▸ vGood
    · next plain =>
      exact (Keeps.bindName scope ident.name (vGood.value plain)).bind fun _ _ => .pure nofun
  | .ret _ value, inside => by
    unfold Eval.stmt
    refine (keeps_expr closed calls scope value (closed.ret inside)).bind fun v vGood => ?_
    split
    · exact .pure fun _ isV => Option.mem_some.mp isV ▸ vGood
    · next plain =>
      -- Here a value is wrapped, and it is not a wrapper itself.
      have isValue := vGood.value plain
      exact .pure fun _ isV => Option.mem_some.mp isV ▸ isValue
  | .expr _ value, inside => by
    unfold Eval.stmt
    refine (keeps_expr closed calls scope value (closed.exprStmt inside)).bind fun v vGood => ?_
    exact .pure fun _ isV => Option.mem_some.mp isV ▸ vGood

theorem keeps_stmts (closed : d.Closed) (calls : d.CallsKeep apply) (scope : ScopeId) {last : Value}
    (lastGood : d.returnable last) :
    ∀ ss : List Stmt, (∀ s ∈ ss, d.stmt s) → d.Keeps d.returnable (Eval.stmts apply scope last ss)
  | [], _ => by
    unfold Eval.stmts
    exact .pure lastGood
  | s :: ss, inside => by
    obtain ⟨isFirst, areMore⟩ := List.forall_mem_cons.mp inside
    unfold Eval.stmts
    refine (keeps_stmt closed calls scope s isFirst).bind fun result resultGood => ?_
    have vGood : d.returnable (result.getD .null) := by
      cases result with
      | none => exact closed.returnable closed.null
      | some v => exact resultGood v rfl
    exact .unlessReturned vGood fun _ => keeps_stmts closed calls scope vGood ss areMore

theorem keeps_block (closed : d.Closed) (calls : d.CallsKeep apply) (scope : ScopeId) :
    ∀ b : Block, d.block b → d.Keeps d.returnable (Eval.block apply scope b)
  | .mk _ statements, inside => by
    unfold Eval.block
    have nothing := closed.returnable closed.null
    exact keeps_stmts closed calls scope nothing statements (closed.stmts inside)

end

/-- A program ends a return in progress, so its result is a value of the domain. -/
theorem keeps_top (closed : d.Closed) (calls : d.CallsKeep apply) (scope : ScopeId)
    {last : Option Value} (lastGood : ∀ v ∈ last, d.value v) {ss : List Stmt}
    (inside : ∀ s ∈ ss, d.stmt s) :
    d.Keeps (fun result => ∀ v ∈ result, d.value v) (Eval.top apply scope last ss) := by
  induction ss generalizing last with
  | nil => exact .pure lastGood
  | cons s ss ih =>
    obtain ⟨isFirst, areMore⟩ := List.forall_mem_cons.mp inside
    unfold Eval.top
    refine (closed.keeps_stmt calls scope s isFirst).bind fun result resultGood => ?_
    split
    · next v => exact .pure fun _ isV => Option.mem_some.mp isV ▸ resultGood _ rfl
    · next other =>
      refine ih (fun v isV => (resultGood v isV).value ?_) areMore
      cases v with
      | returned w => exact absurd isV (other w)
      | _ => exact nofun

end

/-! ## Calls -/

theorem keeps_applyWith (closed : d.Closed) {body : ScopeId → Block → Action Value}
    (bodies : ∀ scope b, d.block b → d.Keeps d.returnable (body scope b)) :
    d.CallsKeep (Eval.applyWith body) := by
  intro callee args isValue areValues
  have applied : d.event (.applied callee args) := areValues
  refine (Keeps.emit applied).bind fun _ _ => ?_
  cases callee with
  | function closure =>
    show d.Keeps d.value (if closure.params.length = args.length then _ else _)
    split
    · refine (Keeps.newScope closure.scope).bind fun scope _ => ?_
      refine (Keeps.bindParams scope closure.params areValues).bind fun _ _ => ?_
      exact (bodies scope closure.body (closed.body isValue)).bind fun v vGood => .pure vGood
    · exact .stop (closed.unrelated rfl)
  | builtin function => exact closed.keeps_builtin function args
  | _ => exact .stop (closed.unrelated rfl)

theorem keeps_call (closed : d.Closed) (depth : Nat) : d.CallsKeep (Eval.call depth) := by
  -- In the body of a function, calls may nest one level less deep.
  induction depth with
  | zero => exact closed.keeps_applyWith fun _ _ _ => .tooDeep
  | succ depth ih => exact closed.keeps_applyWith (closed.keeps_block ih)

theorem keeps_program (closed : d.Closed) (depth : Nat) (scope : ScopeId) {program : Program}
    (inside : ∀ s ∈ program.statements, d.stmt s) :
    d.Keeps (fun result => ∀ v ∈ result, d.value v) (Eval.program depth scope program) := by
  have nothing : ∀ v ∈ (none : Option Value), d.value v := nofun
  exact closed.keeps_top (closed.keeps_call depth) scope nothing inside

end Closed

end Domain

end TreeWalk
