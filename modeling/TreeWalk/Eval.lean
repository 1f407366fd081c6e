import TreeWalk.Eval.Action
import TreeWalk.Eval.Operate

/-!
# Evaluation

Expressions and statements are evaluated in a scope, by recursion on the tree.  Whatever needs a
value of a part abandons its work when that part is a return in progress, and yields the return
itself; the function that was called, or else the program, takes the wrapper off.

Only a call leaves the tree, for the body of the function.  How a value is applied is therefore a
parameter of evaluation, and `call` closes the circle for calls nested at most so many deep.
-/

namespace TreeWalk

namespace Eval

open TreeWalk.Action

/-! ## Names and built-in functions -/

/-- What a name stands for: its binding, or else the built-in function of that name. -/
def name (scope : ScopeId) (ident : Ident) : Action Value := do
  match ← find? ident.name scope with
  | some value => pure value
  | none =>
    match Builtin.ofName? ident.name with
    | some builtin => pure (.builtin builtin)
    | none => stop (.error (.unbound ident.name))

/-- The number of characters of a string. -/
def len : List Value → Except EvalError Value
  | [.str s] => .ok (.int (Int64.ofNat s.length))
  | [value] => .error (.badArgument Builtin.len.name value.typeName)
  | args => .error (.wrongArity args.length 1)

/-- Prints values, in order. -/
def puts : List Value → Action Value
  | [] => pure .null
  | value :: values => do
    emit (.printed value)
    puts values

/-- A built-in function applied to arguments. -/
def builtin (function : Builtin) (args : List Value) : Action Value :=
  match function with
  | .len => ofExcept (len args)
  | .puts => puts args

/-! ## Trees -/

/-- Goes on with a value, unless it is a return in progress. -/
@[inline]
def unlessReturned (value : Value) (next : Action Value) : Action Value :=
  if value.isReturned then pure value else next

section

variable (apply : Value → List Value → Action Value)

mutual

/-- The value of an expression. -/
def expr (scope : ScopeId) : Expr → Action Value
  | .ident ident => name scope ident
  | .int n => pure (.int n)
  | .str s => pure (.str s)
  | .bool b => pure (.bool b)
  | .prefixOp op right => do
    let r ← expr scope right
    unlessReturned r (ofExcept (r.prefixOp op))
  | .infixOp left op right => do
    let l ← expr scope left
    unlessReturned l do
      let r ← expr scope right
      unlessReturned r (ofExcept (l.infixOp op r))
  | .ifElse cond yes no => do
    let c ← expr scope cond
    unlessReturned c (if c.truthy then block scope yes else branch scope no)
  | .fn params body => pure (.function ⟨params, body, scope⟩)
  | .call callee args => do
    let f ← expr scope callee
    unlessReturned f do
      match ← exprs scope args with
      | .error signal => pure signal
      | .ok values => apply f values

/-- The values of expressions, from left to right, up to a return in progress. -/
def exprs (scope : ScopeId) : List Expr → Action (Except Value (List Value))
  | [] => pure (.ok [])
  | e :: es => do
    let v ← expr scope e
    if v.isReturned then pure (.error v)
    else do
      match ← exprs scope es with
      | .error signal => pure (.error signal)
      | .ok vs => pure (.ok (v :: vs))

/-- The value of a branch that may be missing. -/
def branch (scope : ScopeId) : Option Block → Action Value
  | none => pure .null
  | some no => block scope no

/-- What a statement yields; a binding yields nothing. -/
def stmt (scope : ScopeId) : Stmt → Action (Option Value)
  | .bind _ ident value => do
    let v ← expr scope value
    if v.isReturned then pure (some v)
    else do
      bindName scope ident.name v
      pure none
  | .ret _ value => do
    let v ← expr scope value
    if v.isReturned then pure (some v) else pure (some (.returned v))
  | .expr _ value => do
    let v ← expr scope value
    pure (some v)

/-- The value of the last statement of a block, or of the first that returns. -/
def stmts (scope : ScopeId) (last : Value) : List Stmt → Action Value
  | [] => pure last
  | s :: ss => do
    let result ← stmt scope s
    let v := result.getD .null
    unlessReturned v (stmts scope v ss)

/-- The value of a block, which opens no scope. -/
def block (scope : ScopeId) : Block → Action Value
  | .mk _ statements => stmts scope .null statements

end

/-- What statements of a program yield: the last result, or what the first of them that returns
wraps. -/
def top (scope : ScopeId) (last : Option Value) : List Stmt → Action (Option Value)
  | [] => pure last
  | s :: ss => do
    match ← stmt apply scope s with
    | some (.returned v) => pure (some v)
    | result => top scope result ss

end

/-! ## Calls -/

/-- Binds parameters to arguments, in order. -/
def bindParams (scope : ScopeId) : List Ident → List Value → Action Unit
  | param :: params, arg :: args => do
    bindName scope param.name arg
    bindParams scope params args
  | _, _ => pure ()

/-- Applies a value to arguments.  A function runs its body in a new scope inside the one it was
made in, and ends a return in progress. -/
def applyWith (body : ScopeId → Block → Action Value) (callee : Value) (args : List Value) :
    Action Value := do
  emit (.applied callee args)
  match callee with
  | .function closure =>
    if closure.params.length = args.length then do
      let scope ← newScope closure.scope
      bindParams scope closure.params args
      let v ← body scope closure.body
      pure v.unwrap
    else stop (.error (.wrongArity args.length closure.params.length))
  | .builtin function => builtin function args
  | value => stop (.error (.notCallable value.typeName))

/-- Applies a value to arguments, for functions whose calls nest at most `depth` deep. -/
def call : Nat → Value → List Value → Action Value
  | 0 => applyWith fun _ _ => stop .tooDeep
  | depth + 1 => applyWith fun scope body => block (call depth) scope body

/-- The result of a program in a scope: none if it is empty or ends in a binding. -/
def program (depth : Nat) (scope : ScopeId) (program : Program) : Action (Option Value) :=
  top (call depth) scope none program.statements

/-- A program comes to an end in the given scopes: there is a bound that no nesting of calls on the
way exceeds. -/
def Terminates (scope : ScopeId) (program : Program) (scopes : Scopes) : Prop :=
  ∃ depth, (Eval.program depth scope program scopes).outcome ≠ .error .tooDeep

end Eval

end TreeWalk
