import Mathlib
import TreeWalk.Proofs.Contract
import TreeWalk.Proofs.Settled
import TreeWalk.Session

/-!
# Names that nothing mentions

A binding can be seen only by looking up its name, and a name is looked up only where it is written.
So it makes no difference whether a name is bound that occurs neither in a program nor in any
function that the program can get hold of, not even if a built-in function has that name.

Results:
1. one step: what is put together from actions that overlook a binding overlooks it
   (`Spare.Overlooks.bind`);
2. by induction on the tree and on the depth of calls, evaluation overlooks a binding of a name that
   is not mentioned (`Spare.overlooks_expr`, `Spare.overlooks_call`, `Spare.overlooks_program`);
3. what a program can get hold of is reached from its scope (`Spare.fits_of_unmentioned`), so
   binding a name that nothing mentions there may as well be put off until the program is done
   (`eval_bind_unmentioned`).
-/

namespace TreeWalk

/-! ## Names in a tree -/

mutual

/-- All names in an expression, those in the bodies of functions included. -/
def Expr.names : Expr → List String
  | .ident ident => [ident.name]
  | .int _ | .str _ | .bool _ => []
  | .prefixOp _ right => right.names
  | .infixOp left _ right => left.names ++ right.names
  | .ifElse cond yes no => cond.names ++ (yes.names ++ Block.branchNames no)
  | .fn params body => params.map Ident.name ++ body.names
  | .call callee args => callee.names ++ Expr.listNames args

/-- All names in expressions, one after another. -/
def Expr.listNames : List Expr → List String
  | [] => []
  | e :: es => e.names ++ Expr.listNames es

/-- The name that a statement binds, and all names in its expression. -/
def Stmt.names : Stmt → List String
  | .bind _ ident value => ident.name :: value.names
  | .ret _ value | .expr _ value => value.names

/-- All names in statements, one after another. -/
def Stmt.listNames : List Stmt → List String
  | [] => []
  | s :: ss => s.names ++ Stmt.listNames ss

/-- All names in a block. -/
def Block.names : Block → List String
  | .mk _ statements => Stmt.listNames statements

/-- All names in a branch, if it is there. -/
def Block.branchNames : Option Block → List String
  | none => []
  | some no => no.names

end

/-- All names in a program. -/
def Program.names (program : Program) : List String :=
  Stmt.listNames program.statements

/-- The names of the parameters of a function and all names in its body. -/
def Closure.names (closure : Closure) : List String :=
  closure.params.map Ident.name ++ closure.body.names

theorem not_mem_append {name : String} {names more : List String} (absent : name ∉ names ++ more) :
    name ∉ names ∧ name ∉ more :=
  not_or.mp fun member => absent (List.mem_append.mpr member)

/-! ## What can be got hold of -/

/-- The function that a value is, or that a return in progress wraps. -/
def Value.closure? : Value → Option Closure
  | .returned v => v.closure?
  | .function closure => some closure
  | _ => none

/-- `Leads scopes start id`: from the one scope, the other is reached by going outward and through
the functions that are bound. -/
inductive Scopes.Leads (scopes : Scopes) (start : ScopeId) : ScopeId → Prop
  | start : Leads scopes start start
  | outer {id outer : ScopeId} {s : Scope} :
      Leads scopes start id → scopes.scope? id = some s → s.outer = some outer →
      Leads scopes start outer
  | function {id : ScopeId} {s : Scope} {name : String} {v : Value} {closure : Closure} :
      Leads scopes start id → scopes.scope? id = some s → s.bindings.get? name = some v →
      v.closure? = some closure → Leads scopes start closure.scope

/-- The function is bound in a scope that is reached from the given one. -/
def Scopes.Finds (scopes : Scopes) (start : ScopeId) (closure : Closure) : Prop :=
  ∃ id s name v, scopes.Leads start id ∧ scopes.scope? id = some s ∧
    s.bindings.get? name = some v ∧ v.closure? = some closure

/-! ## A binding on the side -/

/-- A binding that is made in addition to others, and a region of scopes that evaluation stays
in. -/
structure Spare where
  scope : ScopeId
  name : String
  value : Value
  region : ScopeId → Prop

namespace Spare

variable (b : Spare) {α β : Type}

/-- The scopes with the binding. -/
def into (scopes : Scopes) : Scopes :=
  scopes.bind b.scope b.name b.value

/-- The run with the binding made after it. -/
def after (run : Run α) : Run α :=
  { run with scopes := b.into run.scopes }

/-- A function in the value was made in the region and does not mention the name. -/
def Omitted (v : Value) : Prop :=
  ∀ closure, v.closure? = some closure → b.region closure.scope ∧ b.name ∉ closure.names

/-- The binding can be made, and no function that is bound in the region mentions the name. -/
structure Fits (scopes : Scopes) : Prop where
  there : b.scope < scopes.size
  confines : scopes.Confines b.region b.Omitted

/-- It makes no difference to the action whether the binding is made before it or after it.  No
function that is bound in the region comes to mention the name, and a result is good. -/
def Overlooks (good : α → Prop) (action : Action α) : Prop :=
  ∀ scopes, b.Fits scopes →
    action (b.into scopes) = b.after (action scopes) ∧ b.Fits (action scopes).scopes ∧
      ∀ a, (action scopes).outcome = .ok a → good a

variable {b}

theorem omitted_of_isScalar {v : Value} (scalar : v.IsScalar) : b.Omitted v := by
  cases v with
  | int _ | bool _ | str _ => exact nofun
  | _ => cases scalar

theorem Omitted.unwrap {v : Value} (omitted : b.Omitted v) : b.Omitted v.unwrap := by
  cases v <;> exact omitted

namespace Overlooks

variable {good : α → Prop} {good' : β → Prop}

theorem pure {a : α} (isGood : good a) : b.Overlooks good (Pure.pure a) :=
  fun _ fits => ⟨rfl, fits, fun _ same => by
    cases same
    exact isGood⟩

theorem stop (reason : Stop) : b.Overlooks good (Action.stop reason) :=
  fun _ fits => ⟨rfl, fits, nofun⟩

theorem emit (event : Event) : b.Overlooks (fun _ => True) (Action.emit event) :=
  fun _ fits => ⟨rfl, fits, fun _ _ => trivial⟩

theorem bind {action : Action α} {next : α → Action β} (first : b.Overlooks good action)
    (second : ∀ a, good a → b.Overlooks good' (next a)) : b.Overlooks good' (action >>= next) := by
  intro scopes fits
  obtain ⟨same, mid, isGood⟩ := first scopes fits
  rcases ran : action scopes with ⟨reason | a, scopes', events⟩ <;>
    rw [ran] at same mid isGood
  · rw [Action.bind_of_error ran, Action.bind_of_error same]
    exact ⟨rfl, mid, nofun⟩
  · obtain ⟨same', last, isGood'⟩ := second a (isGood a rfl) scopes' mid
    rw [Action.bind_of_ok ran, Action.bind_of_ok same, same']
    exact ⟨rfl, last, isGood'⟩

theorem find? {scope : ScopeId} (inside : b.region scope) {name : String} (other : name ≠ b.name) :
    b.Overlooks (fun found => ∀ v ∈ found, b.Omitted v) (Action.find? name scope) := by
  intro scopes fits
  refine ⟨?_, fits, fun found same v isFound => ?_⟩
  · have found := scopes.find?_bind_of_ne b.scope other b.value scope
    exact congrArg (fun found => Run.mk (.ok found) (b.into scopes) []) found
  · cases same
    exact fits.confines.of_find? inside isFound

theorem bindName (scope : ScopeId) {name : String} (other : name ≠ b.name) {v : Value}
    (omitted : b.Omitted v) : b.Overlooks (fun _ => True) (Action.bindName scope name v) := by
  intro scopes fits
  refine ⟨?_, ⟨?_, fits.confines.bind scope name omitted⟩, fun _ _ => trivial⟩
  · have swapped := scopes.bind_comm b.scope scope other.symm b.value v
    exact congrArg (fun scopes => Run.mk (.ok ()) scopes []) swapped
  · exact Nat.lt_of_lt_of_eq fits.there (Scopes.size_bind ..).symm

theorem newScope {outer : ScopeId} (inside : b.region outer) :
    b.Overlooks b.region (Action.newScope outer) := by
  intro scopes fits
  refine ⟨?_, ⟨?_, fits.confines.push inside⟩, fun scope same => ?_⟩
  · have same := scopes.push_bind fits.there b.name b.value (some outer)
    have size : (b.into scopes).size = scopes.size := Scopes.size_bind ..
    show Run.mk (.ok (b.into scopes).size) ((b.into scopes).push (some outer)) [] = _
    rw [size]
    exact congrArg (fun after => Run.mk (.ok scopes.size) after []) same
  · exact Nat.lt_of_lt_of_eq (Nat.lt_succ_of_lt fits.there) (Scopes.size_push ..).symm
  · cases same
    exact fits.confines.fresh _ (Nat.le_refl _)

theorem ofExcept {result : Except EvalError α} (isGood : ∀ a, result = .ok a → good a) :
    b.Overlooks good (Action.ofExcept result) := by
  cases result with
  | error e => exact stop (.error e)
  | ok a => exact pure (isGood a rfl)

theorem unlessReturned {v : Value} {next : Action Value} (omitted : b.Omitted v)
    (overlooks : b.Overlooks b.Omitted next) :
    b.Overlooks b.Omitted (Eval.unlessReturned v next) := by
  unfold Eval.unlessReturned
  split
  · exact pure omitted
  · exact overlooks

end Overlooks

/-! ## Names and built-in functions -/

theorem overlooks_name {scope : ScopeId} (inside : b.region scope) {ident : Ident}
    (other : ident.name ≠ b.name) : b.Overlooks b.Omitted (Eval.name scope ident) := by
  refine (Overlooks.find? inside other).bind fun found isOmitted => ?_
  cases found with
  | some v => exact .pure (isOmitted v rfl)
  | none =>
    dsimp only
    cases Builtin.ofName? ident.name with
    | some builtin => exact .pure nofun
    | none => exact .stop _

theorem overlooks_puts (values : List Value) : b.Overlooks b.Omitted (Eval.puts values) := by
  induction values with
  | nil => exact .pure nofun
  | cons v values ih => exact (Overlooks.emit (.printed v)).bind fun _ _ => ih

theorem overlooks_builtin (function : Builtin) (args : List Value) :
    b.Overlooks b.Omitted (Eval.builtin function args) := by
  cases function with
  | len =>
    refine .ofExcept fun v done => ?_
    unfold Eval.len at done
    split at done <;> cases done
    exact nofun
  | puts => exact overlooks_puts args

/-! ## Trees -/

variable (b) in
/-- Arguments, or the return in progress that stands in their place, do not mention the name. -/
def ArgsOmitted : Except Value (List Value) → Prop
  | .error signal => b.Omitted signal
  | .ok values => ∀ v ∈ values, b.Omitted v

variable (b) in
/-- Applying a value to arguments overlooks the binding, if none of them mentions the name. -/
def CallsOverlook (apply : Value → List Value → Action Value) : Prop :=
  ∀ {callee : Value} {args : List Value}, b.Omitted callee → (∀ arg ∈ args, b.Omitted arg) →
    b.Overlooks b.Omitted (apply callee args)

section

variable {apply : Value → List Value → Action Value} {scope : ScopeId}

mutual

theorem overlooks_expr (calls : b.CallsOverlook apply) (inside : b.region scope) :
    ∀ e : Expr, b.name ∉ e.names → b.Overlooks b.Omitted (Eval.expr apply scope e)
  | .ident ident, absent => by
    unfold Eval.expr
    unfold Expr.names at absent
    exact overlooks_name inside fun same => absent (List.mem_singleton.mpr same.symm)
  | .int _, _ | .str _, _ | .bool _, _ => by
    unfold Eval.expr
    exact .pure nofun
  | .fn params body, absent => by
    unfold Eval.expr
    unfold Expr.names at absent
    refine .pure fun closure same => ?_
    cases same
    exact ⟨inside, absent⟩
  | .prefixOp op right, absent => by
    unfold Eval.expr
    unfold Expr.names at absent
    refine (overlooks_expr calls inside right absent).bind fun r isOmitted => ?_
    exact .unlessReturned isOmitted (.ofExcept fun _ done =>
      omitted_of_isScalar (Value.isScalar_prefixOp done))
  | .infixOp left op right, absent => by
    unfold Eval.expr
    unfold Expr.names at absent
    obtain ⟨notLeft, notRight⟩ := not_mem_append absent
    refine (overlooks_expr calls inside left notLeft).bind fun l lOmitted => ?_
    refine .unlessReturned lOmitted ?_
    refine (overlooks_expr calls inside right notRight).bind fun r rOmitted => ?_
    exact .unlessReturned rOmitted (.ofExcept fun _ done =>
      omitted_of_isScalar (Value.isScalar_infixOp done))
  | .ifElse cond yes no, absent => by
    unfold Eval.expr
    unfold Expr.names at absent
    obtain ⟨notCond, notBranches⟩ := not_mem_append absent
    obtain ⟨notYes, notNo⟩ := not_mem_append notBranches
    refine (overlooks_expr calls inside cond notCond).bind fun c cOmitted => ?_
    refine .unlessReturned cOmitted ?_
    split
    · exact overlooks_block calls inside yes notYes
    · exact overlooks_branch calls inside no notNo
  | .call callee args, absent => by
    unfold Eval.expr
    unfold Expr.names at absent
    obtain ⟨notCallee, notArgs⟩ := not_mem_append absent
    refine (overlooks_expr calls inside callee notCallee).bind fun f fOmitted => ?_
    refine .unlessReturned fOmitted ?_
    refine (overlooks_exprs calls inside args notArgs).bind fun values valuesOmitted => ?_
    cases values with
    | error signal => exact .pure valuesOmitted
    | ok values => exact calls fOmitted valuesOmitted

theorem overlooks_exprs (calls : b.CallsOverlook apply) (inside : b.region scope) :
    ∀ es : List Expr, b.name ∉ Expr.listNames es →
      b.Overlooks b.ArgsOmitted (Eval.exprs apply scope es)
  | [], _ => by
    unfold Eval.exprs
    exact .pure nofun
  | e :: es, absent => by
    unfold Eval.exprs
    unfold Expr.listNames at absent
    obtain ⟨notFirst, notRest⟩ := not_mem_append absent
    refine (overlooks_expr calls inside e notFirst).bind fun v vOmitted => ?_
    split
    · exact .pure vOmitted
    · refine (overlooks_exprs calls inside es notRest).bind fun values valuesOmitted => ?_
      cases values with
      | error signal => exact .pure valuesOmitted
      | ok values => exact .pure (List.forall_mem_cons.mpr ⟨vOmitted, valuesOmitted⟩)

theorem overlooks_branch (calls : b.CallsOverlook apply) (inside : b.region scope) :
    ∀ no : Option Block, b.name ∉ Block.branchNames no →
      b.Overlooks b.Omitted (Eval.branch apply scope no)
  | none, _ => by
    unfold Eval.branch
    exact .pure nofun
  | some no, absent => by
    unfold Eval.branch
    exact overlooks_block calls inside no absent

theorem overlooks_stmt (calls : b.CallsOverlook apply) (inside : b.region scope) :
    ∀ s : Stmt, b.name ∉ s.names →
      b.Overlooks (fun result => ∀ v ∈ result, b.Omitted v) (Eval.stmt apply scope s)
  | .bind _ ident value, absent => by
    unfold Eval.stmt
    unfold Stmt.names at absent
    obtain ⟨other, notValue⟩ := List.ne_and_not_mem_of_not_mem_cons absent
    refine (overlooks_expr calls inside value notValue).bind fun v vOmitted => ?_
    split
    · exact .pure fun _ isV => Option.mem_some.mp isV ▸ vOmitted
    · exact (Overlooks.bindName scope other.symm vOmitted).bind fun _ _ => .pure nofun
  | .ret _ value, absent => by
    unfold Eval.stmt
    unfold Stmt.names at absent
    refine (overlooks_expr calls inside value absent).bind fun v vOmitted => ?_
    split <;> exact .pure fun _ isV => Option.mem_some.mp isV ▸ vOmitted
  | .expr _ value, absent => by
    unfold Eval.stmt
    unfold Stmt.names at absent
    refine (overlooks_expr calls inside value absent).bind fun v vOmitted => ?_
    exact .pure fun _ isV => Option.mem_some.mp isV ▸ vOmitted

theorem overlooks_stmts (calls : b.CallsOverlook apply) (inside : b.region scope) {last : Value}
    (lastOmitted : b.Omitted last) :
    ∀ ss : List Stmt, b.name ∉ Stmt.listNames ss →
      b.Overlooks b.Omitted (Eval.stmts apply scope last ss)
  | [], _ => by
    unfold Eval.stmts
    exact .pure lastOmitted
  | s :: ss, absent => by
    unfold Eval.stmts
    unfold Stmt.listNames at absent
    obtain ⟨notFirst, notRest⟩ := not_mem_append absent
    refine (overlooks_stmt calls inside s notFirst).bind fun result resultOmitted => ?_
    have vOmitted : b.Omitted (result.getD .null) := by
      cases result with
      | none => exact nofun
      | some v => exact resultOmitted v rfl
    exact .unlessReturned vOmitted (overlooks_stmts calls inside vOmitted ss notRest)

theorem overlooks_block (calls : b.CallsOverlook apply) (inside : b.region scope) :
    ∀ block : Block, b.name ∉ block.names → b.Overlooks b.Omitted (Eval.block apply scope block)
  | .mk _ statements, absent => by
    unfold Eval.block
    unfold Block.names at absent
    have nothing : b.Omitted .null := nofun
    exact overlooks_stmts calls inside nothing statements absent

end

theorem overlooks_top (calls : b.CallsOverlook apply) (inside : b.region scope)
    (last : Option Value) (ss : List Stmt) (absent : b.name ∉ Stmt.listNames ss) :
    b.Overlooks (fun _ => True) (Eval.top apply scope last ss) := by
  induction ss generalizing last with
  | nil => exact .pure trivial
  | cons s ss ih =>
    unfold Eval.top
    unfold Stmt.listNames at absent
    obtain ⟨notFirst, notRest⟩ := not_mem_append absent
    refine (overlooks_stmt calls inside s notFirst).bind fun result _ => ?_
    split
    · exact .pure trivial
    · exact ih result notRest

end

/-! ## Calls -/

theorem overlooks_bindParams (scope : ScopeId) {params : List Ident} {args : List Value}
    (absent : b.name ∉ params.map Ident.name) (argsOmitted : ∀ arg ∈ args, b.Omitted arg) :
    b.Overlooks (fun _ => True) (Eval.bindParams scope params args) := by
  induction params generalizing args with
  | nil => exact .pure trivial
  | cons param params ih =>
    cases args with
    | nil => exact .pure trivial
    | cons arg args =>
      obtain ⟨argOmitted, restOmitted⟩ := List.forall_mem_cons.mp argsOmitted
      obtain ⟨other, notRest⟩ := List.ne_and_not_mem_of_not_mem_cons absent
      exact (Overlooks.bindName scope other.symm argOmitted).bind fun _ _ => ih notRest restOmitted

theorem callsOverlook_applyWith {body : ScopeId → Block → Action Value}
    (bodies : ∀ {scope : ScopeId} (block : Block), b.region scope → b.name ∉ block.names →
      b.Overlooks b.Omitted (body scope block)) : b.CallsOverlook (Eval.applyWith body) := by
  intro callee args calleeOmitted argsOmitted
  refine (Overlooks.emit (.applied callee args)).bind fun _ _ => ?_
  cases callee with
  | function closure =>
    obtain ⟨inside, absent⟩ := calleeOmitted closure rfl
    obtain ⟨notParams, notBody⟩ := not_mem_append absent
    show b.Overlooks b.Omitted (if closure.params.length = args.length then _ else _)
    split
    · refine (Overlooks.newScope inside).bind fun scope inside => ?_
      refine (overlooks_bindParams scope notParams argsOmitted).bind fun _ _ => ?_
      refine (bodies closure.body inside notBody).bind fun v vOmitted => ?_
      exact .pure vOmitted.unwrap
    · exact .stop _
  | builtin function => exact overlooks_builtin function args
  | _ => exact .stop _

theorem overlooks_call (depth : Nat) : b.CallsOverlook (Eval.call depth) := by
  induction depth with
  | zero => exact callsOverlook_applyWith fun _ _ _ => .stop _
  | succ depth ih =>
    exact callsOverlook_applyWith fun block inside absent => overlooks_block ih inside block absent

theorem overlooks_program (depth : Nat) {scope : ScopeId} (inside : b.region scope)
    {program : Program} (absent : b.name ∉ program.names) :
    b.Overlooks (fun _ => True) (Eval.program depth scope program) :=
  overlooks_top (overlooks_call depth) inside none program.statements absent

/-- What can be got hold of makes a region, together with all scopes that are still to be opened. -/
theorem fits_of_unmentioned {scopes : Scopes} {scope : ScopeId} {name : String}
    (there : scope < scopes.size)
    (unmentioned : ∀ closure, scopes.Finds scope closure → name ∉ closure.names) (v : Value) :
    Fits ⟨scope, name, v, fun id => scopes.Leads scope id ∨ scopes.size ≤ id⟩ scopes := by
  refine ⟨there, fun id missing => .inr missing, ?_, ?_⟩
  · rintro id s key w (leads | missing) there own closure isClosure
    · exact ⟨.inl (leads.function there own isClosure),
        unmentioned closure ⟨id, s, key, w, leads, there, own, isClosure⟩⟩
    · rw [Scopes.scope?_eq_none missing] at there
      cases there
  · rintro id s outer (leads | missing) there around _
    · exact .inl (leads.outer there around)
    · rw [Scopes.scope?_eq_none missing] at there
      cases there

end Spare

/-- A binding of a name that neither the program nor any function within its reach mentions makes no
difference but to what that name stands for. -/
theorem eval_bind_unmentioned {scopes : Scopes} {scope : ScopeId} {name : String}
    {program : Program} (there : scope < scopes.size) (absent : name ∉ program.names)
    (unmentioned : ∀ closure, scopes.Finds scope closure → name ∉ closure.names) (v : Value) :
    (∀ depth, Eval.program depth scope program (scopes.bind scope name v) =
      ⟨(Eval.program depth scope program scopes).outcome,
        (Eval.program depth scope program scopes).scopes.bind scope name v,
        (Eval.program depth scope program scopes).events⟩) ∧
    (Eval.Terminates scope program (scopes.bind scope name v) ↔
      Eval.Terminates scope program scopes) := by
  let b : Spare := ⟨scope, name, v, fun id => scopes.Leads scope id ∨ scopes.size ≤ id⟩
  have fits : b.Fits scopes := Spare.fits_of_unmentioned there unmentioned v
  have inside : b.region scope := .inl .start
  have same (depth : Nat) : Eval.program depth scope program (b.into scopes) =
      b.after (Eval.program depth scope program scopes) :=
    (Spare.overlooks_program depth inside absent scopes fits).1
  refine ⟨same, exists_congr fun depth => not_congr ?_⟩
  have outcome := congrArg Run.outcome (same depth)
  exact iff_of_eq (congrArg (· = Except.error Stop.tooDeep) outcome)

/-- The function `fn(x) { x }`. -/
def sameValue : Closure :=
  ⟨[.ofName "x"], .mk .lbrace [.expr (.ident "x") (.ident (.ofName "x"))], 0⟩

/-- Scopes in which it is bound to `same`. -/
def withSame : Scopes :=
  Session.fresh.scopes.bind 0 "same" (.function sameValue)

/-- No other function is bound there. -/
theorem unmentioned_withSame {name : String} (absent : name ∉ sameValue.names) :
    ∀ closure, withSame.Finds 0 closure → name ∉ closure.names := by
  have binds : withSame.BindsOnly fun v => ∀ closure, v.closure? = some closure →
      name ∉ closure.names := by
    refine (Scopes.BindsOnly.empty.push none).bind 0 "same" fun closure isClosure => ?_
    cases isClosure
    exact absent
  rintro closure ⟨_, _, _, _, _, there, own, isClosure⟩
  exact binds.bound there own closure isClosure

/-- The program `same(1)`. -/
def callSame : Program :=
  ⟨[.expr (.ident "same") (.call (.ident (.ofName "same")) [.int 1])]⟩

/-- Neither `same(1)` nor the function mentions `len`, so the name may stand for anything. -/
theorem eval_bind_unmentioned_of_len :
    0 < withSame.size ∧ "len" ∉ callSame.names ∧
    (∀ closure, withSame.Finds 0 closure → "len" ∉ closure.names) ∧
    (Eval.program 1 0 callSame (withSame.bind 0 "len" (.int 5))).outcome =
      .ok (some (.int 1)) ∧
    (Eval.program 1 0 callSame (withSame.bind 0 "len" (.int 5))).scopes.find? "len" 0 =
      some (.int 5) := by
  have there : 0 < withSame.size := by decide
  have absent : "len" ∉ callSame.names := by decide
  have unnamed : "len" ∉ sameValue.names := by decide
  have unmentioned := unmentioned_withSame unnamed
  obtain ⟨same, _⟩ := eval_bind_unmentioned there absent unmentioned (.int 5)
  refine ⟨there, absent, unmentioned, ?_, ?_⟩
  · rw [same]
    cbv
  · rw [same]
    cbv

end TreeWalk
