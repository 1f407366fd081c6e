import TreeWalk.Eval

/-!
# How evaluation is put together

Every evaluation is put together from a few primitive actions.  It binds names only in scopes that
are there, opens scopes only inside such scopes, and whatever it binds a name to was made in one of
them.  What holds of the primitive actions and passes from parts to wholes therefore holds of every
evaluation, and need not be followed through the tree again.

Results:
1. an evaluation is built in a scope that is there, if how values are applied is (one lemma for each
   syntactic category, `built_expr` to `built_top`);
2. by induction on the depth of calls, applying a value is built (`built_call`), and so is the
   evaluation of a program (`built_program`).
-/

namespace TreeWalk

/-! ## Values -/

/-- The value belongs to the first so many scopes: a function in it was made in one of them. -/
def Value.Within (size : Nat) : Value → Prop
  | .returned v => v.Within size
  | .function closure => closure.scope < size
  | _ => True

theorem Value.Within.mono {size size' : Nat} {v : Value} (within : v.Within size)
    (more : size ≤ size') : v.Within size' := by
  induction v with
  | returned v ih => exact ih within
  | function closure => exact Nat.lt_of_lt_of_le within more
  | _ => trivial

theorem Value.Within.unwrap {size : Nat} {v : Value} (within : v.Within size) :
    v.unwrap.Within size := by
  cases v <;> exact within

theorem Value.IsScalar.within {v : Value} (scalar : v.IsScalar) (size : Nat) : v.Within size := by
  cases v with
  | int _ | bool _ | str _ => trivial
  | _ => cases scalar

/-! ## Actions -/

/-- Arguments, or the return in progress that stands in their place, belong to so many scopes. -/
def ArgsWithin (size : Nat) : Except Value (List Value) → Prop
  | .error signal => signal.Within size
  | .ok values => ∀ v ∈ values, v.Within size

/-- The result of a statement belongs to so many scopes, if there is one. -/
def ResultWithin (size : Nat) (result : Option Value) : Prop :=
  ∀ v ∈ result, v.Within size

/-- Opens a scope, on its own or inside another. -/
def Action.opening (outer : Option ScopeId) : Action ScopeId := fun scopes =>
  ⟨.ok scopes.size, scopes.push outer, []⟩

/-- `Built size good action`: the action is put together from primitive ones.  Given that there are
so many scopes, it opens scopes only inside those that are there and binds names only in them, to
values that belong to them.  A result is good in view of how many scopes there are by then. -/
inductive Built : {α : Type} → Nat → (Nat → α → Prop) → Action α → Prop
  | pure {α : Type} {size : Nat} {good : Nat → α → Prop} {a : α} :
      (∀ n, size ≤ n → good n a) → Built size good (Pure.pure a)
  | stop {α : Type} {size : Nat} {good : Nat → α → Prop} (reason : Stop) :
      Built size good (Action.stop reason)
  | emit {size : Nat} (event : Event) : Built size (fun _ _ => True) (Action.emit event)
  | find? {size : Nat} (name : String) (scope : ScopeId) :
      Built size ResultWithin (Action.find? name scope)
  | bindName {size : Nat} {scope : ScopeId} (there : scope < size) (name : String) {v : Value}
      (within : v.Within size) : Built size (fun _ _ => True) (Action.bindName scope name v)
  | opening {size : Nat} {outer : Option ScopeId} (there : ∀ id ∈ outer, id < size) :
      Built size (fun n scope => scope < n) (Action.opening outer)
  | bind {α β : Type} {size : Nat} {good : Nat → α → Prop} {good' : Nat → β → Prop}
      {action : Action α} {next : α → Action β} (first : Built size good action)
      (second : ∀ n a, size ≤ n → good n a → Built n good' (next a)) :
      Built size good' (action >>= next)

section

variable {α : Type}

namespace Built

variable {size : Nat} {good : Nat → α → Prop}

theorem newScope {outer : ScopeId} (there : outer < size) :
    Built size (fun n scope => scope < n) (Action.newScope outer) :=
  @opening size (some outer) fun _ same => Option.mem_some.mp same ▸ there

theorem ofExcept {result : Except EvalError α} (isGood : ∀ a n, result = .ok a → good n a) :
    Built size good (Action.ofExcept result) := by
  cases result with
  | error e => exact stop (.error e)
  | ok a => exact pure fun n _ => isGood a n rfl

theorem unlessReturned {value : Value} {next : Action Value} (within : value.Within size)
    (built : Built size Value.Within next) :
    Built size Value.Within (Eval.unlessReturned value next) := by
  unfold Eval.unlessReturned
  split
  · exact pure fun _ more => within.mono more
  · exact built

end Built

end

/-! ## Names and built-in functions -/

theorem built_name {size : Nat} (scope : ScopeId) (ident : Ident) :
    Built size Value.Within (Eval.name scope ident) := by
  refine (Built.find? ident.name scope).bind fun n found more isFound => ?_
  cases found with
  | some v => exact .pure fun _ more' => (isFound v rfl).mono more'
  | none =>
    dsimp only
    cases Builtin.ofName? ident.name with
    | some builtin => exact .pure fun _ _ => trivial
    | none => exact .stop _

theorem built_puts {size : Nat} (values : List Value) :
    Built size Value.Within (Eval.puts values) := by
  induction values generalizing size with
  | nil => exact .pure fun _ _ => trivial
  | cons v values ih => exact (Built.emit (.printed v)).bind fun _ _ _ _ => ih

theorem built_builtin {size : Nat} (function : Builtin) (args : List Value) :
    Built size Value.Within (Eval.builtin function args) := by
  cases function with
  | len =>
    refine .ofExcept fun v n done => ?_
    unfold Eval.len at done
    split at done <;> cases done
    trivial
  | puts => exact built_puts args

/-! ## Trees -/

/-- Applying a value to arguments, all of them at hand, is built. -/
def CallsBuilt (apply : Value → List Value → Action Value) : Prop :=
  ∀ {size : Nat} {callee : Value} {args : List Value}, callee.Within size →
    (∀ arg ∈ args, arg.Within size) → Built size Value.Within (apply callee args)

section

variable {apply : Value → List Value → Action Value}

mutual

theorem built_expr (calls : CallsBuilt apply) {size : Nat} {scope : ScopeId}
    (there : scope < size) :
    ∀ e : Expr, Built size Value.Within (Eval.expr apply scope e)
  | .ident ident => by
    unfold Eval.expr
    exact built_name scope ident
  | .int _ | .str _ | .bool _ => by
    unfold Eval.expr
    exact .pure fun _ _ => trivial
  | .fn _ _ => by
    unfold Eval.expr
    exact .pure fun _ more => Nat.lt_of_lt_of_le there more
  | .prefixOp op right => by
    unfold Eval.expr
    refine (built_expr calls there right).bind fun _ r _ rWithin => .unlessReturned rWithin ?_
    exact .ofExcept fun _ n done => (Value.isScalar_prefixOp done).within n
  | .infixOp left op right => by
    unfold Eval.expr
    refine (built_expr calls there left).bind fun _ l more lWithin => .unlessReturned lWithin ?_
    have there := Nat.lt_of_lt_of_le there more
    refine (built_expr calls there right).bind fun _ r _ rWithin => .unlessReturned rWithin ?_
    exact .ofExcept fun _ n done => (Value.isScalar_infixOp done).within n
  | .ifElse cond yes no => by
    unfold Eval.expr
    refine (built_expr calls there cond).bind fun _ c more cWithin => .unlessReturned cWithin ?_
    have there := Nat.lt_of_lt_of_le there more
    split
    · exact built_block calls there yes
    · exact built_branch calls there no
  | .call callee args => by
    unfold Eval.expr
    refine (built_expr calls there callee).bind fun _ f more fWithin => .unlessReturned fWithin ?_
    have there := Nat.lt_of_lt_of_le there more
    refine (built_exprs calls there args).bind fun _ values more' within => ?_
    cases values with
    | error signal => exact .pure fun _ more => Value.Within.mono within more
    | ok values => exact calls (fWithin.mono more') within

theorem built_exprs (calls : CallsBuilt apply) {size : Nat} {scope : ScopeId}
    (there : scope < size) :
    ∀ es : List Expr, Built size ArgsWithin (Eval.exprs apply scope es)
  | [] => by
    unfold Eval.exprs
    exact .pure fun _ _ => nofun
  | e :: es => by
    unfold Eval.exprs
    refine (built_expr calls there e).bind fun _ v more vWithin => ?_
    have there := Nat.lt_of_lt_of_le there more
    split
    · exact .pure fun _ more => vWithin.mono more
    · refine (built_exprs calls there es).bind fun _ values more' within => ?_
      cases values with
      | error signal => exact .pure fun _ more => Value.Within.mono within more
      | ok values =>
        refine .pure fun _ more => List.forall_mem_cons.mpr ⟨?_, fun w member => ?_⟩
        · exact (vWithin.mono more').mono more
        · exact (within w member).mono more

theorem built_branch (calls : CallsBuilt apply) {size : Nat} {scope : ScopeId}
    (there : scope < size) :
    ∀ no : Option Block, Built size Value.Within (Eval.branch apply scope no)
  | none => by
    unfold Eval.branch
    exact .pure fun _ _ => trivial
  | some no => by
    unfold Eval.branch
    exact built_block calls there no

theorem built_stmt (calls : CallsBuilt apply) {size : Nat} {scope : ScopeId}
    (there : scope < size) :
    ∀ s : Stmt, Built size ResultWithin (Eval.stmt apply scope s)
  | .bind _ ident value => by
    unfold Eval.stmt
    refine (built_expr calls there value).bind fun _ v more vWithin => ?_
    have there := Nat.lt_of_lt_of_le there more
    split
    · exact .pure fun _ more w isV => Option.mem_some.mp isV ▸ vWithin.mono more
    · exact (Built.bindName there ident.name vWithin).bind fun _ _ _ _ => .pure fun _ _ => nofun
  | .ret _ value => by
    unfold Eval.stmt
    refine (built_expr calls there value).bind fun _ v _ vWithin => ?_
    split <;> exact .pure fun _ more w isV => Option.mem_some.mp isV ▸ vWithin.mono more
  | .expr _ value => by
    unfold Eval.stmt
    refine (built_expr calls there value).bind fun _ v _ vWithin => ?_
    exact .pure fun _ more w isV => Option.mem_some.mp isV ▸ vWithin.mono more

theorem built_stmts (calls : CallsBuilt apply) {size : Nat} {scope : ScopeId} (there : scope < size)
    {last : Value} (lastWithin : last.Within size) :
    ∀ ss : List Stmt, Built size Value.Within (Eval.stmts apply scope last ss)
  | [] => by
    unfold Eval.stmts
    exact .pure fun _ more => lastWithin.mono more
  | s :: ss => by
    unfold Eval.stmts
    refine (built_stmt calls there s).bind fun n result more within => ?_
    have resultWithin : (result.getD .null).Within n := by
      cases result with
      | none => trivial
      | some v => exact within v rfl
    have there := Nat.lt_of_lt_of_le there more
    exact .unlessReturned resultWithin (built_stmts calls there resultWithin ss)

theorem built_block (calls : CallsBuilt apply) {size : Nat} {scope : ScopeId}
    (there : scope < size) :
    ∀ b : Block, Built size Value.Within (Eval.block apply scope b)
  | .mk _ statements => by
    unfold Eval.block
    have nothing : Value.null.Within size := trivial
    exact built_stmts calls there nothing statements

end

theorem built_top (calls : CallsBuilt apply) {size : Nat} {scope : ScopeId} (there : scope < size)
    {last : Option Value} (lastWithin : ResultWithin size last) (ss : List Stmt) :
    Built size ResultWithin (Eval.top apply scope last ss) := by
  induction ss generalizing size last with
  | nil =>
    unfold Eval.top
    exact .pure fun _ more v isLast => (lastWithin v isLast).mono more
  | cons s ss ih =>
    unfold Eval.top
    refine (built_stmt calls there s).bind fun _ result more within => ?_
    split
    · next v => exact .pure fun _ more w isV => Option.mem_some.mp isV ▸ (within _ rfl).mono more
    · exact ih (Nat.lt_of_lt_of_le there more) within

end

/-! ## Calls -/

theorem built_bindParams {size : Nat} {scope : ScopeId} (there : scope < size) (params : List Ident)
    {args : List Value} (within : ∀ arg ∈ args, arg.Within size) :
    Built size (fun _ _ => True) (Eval.bindParams scope params args) := by
  induction params generalizing size args with
  | nil => exact .pure fun _ _ => trivial
  | cons param params ih =>
    cases args with
    | nil => exact .pure fun _ _ => trivial
    | cons arg args =>
      obtain ⟨argWithin, restWithin⟩ := List.forall_mem_cons.mp within
      refine (Built.bindName there param.name argWithin).bind fun _ _ more _ => ?_
      exact ih (Nat.lt_of_lt_of_le there more) fun a member => (restWithin a member).mono more

theorem callsBuilt_applyWith {body : ScopeId → Block → Action Value}
    (bodies : ∀ {size : Nat} {scope : ScopeId} (b : Block), scope < size →
      Built size Value.Within (body scope b)) : CallsBuilt (Eval.applyWith body) := by
  intro size callee args within argsWithin
  refine (Built.emit (.applied callee args)).bind fun n _ more _ => ?_
  cases callee with
  | function closure =>
    show Built n Value.Within (if closure.params.length = args.length then _ else _)
    split
    · refine (Built.newScope (Nat.lt_of_lt_of_le within more)).bind fun m scope more' there => ?_
      refine (built_bindParams there closure.params fun arg member =>
        ((argsWithin arg member).mono more).mono more').bind fun _ _ more _ => ?_
      refine (bodies closure.body (Nat.lt_of_lt_of_le there more)).bind fun _ v _ vWithin => ?_
      exact .pure fun _ more => vWithin.unwrap.mono more
    · exact .stop _
  | builtin function => exact built_builtin function args
  | _ => exact .stop _

theorem built_call (depth : Nat) : CallsBuilt (Eval.call depth) := by
  induction depth with
  | zero => exact callsBuilt_applyWith fun _ _ => .stop _
  | succ depth ih => exact callsBuilt_applyWith fun b there => built_block ih there b

theorem built_program {size : Nat} {scope : ScopeId} (there : scope < size) (depth : Nat)
    (program : Program) : Built size ResultWithin (Eval.program depth scope program) := by
  have nothing : ResultWithin size none := nofun
  exact built_top (built_call depth) there nothing program.statements

end TreeWalk
