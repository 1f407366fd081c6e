import TreeWalk.Eval

/-!
# Evaluation with exits

How programs are meant to be evaluated.  A return is not a value here: it leaves whatever is being
evaluated at once, and the function that was called catches it, or else the program does.  No rule
looks at what its parts yield to find out whether one of them returned.

Names, operators and built-in functions mean what they mean to the evaluator, and scopes and events
are the same.
-/

namespace TreeWalk

/-- An action that yields a result, exits with the value that a return returns, or stops. -/
abbrev Exiting (α : Type) : Type :=
  ExceptT Value Action α

namespace Exit

section

variable (apply : Value → List Value → Exiting Value)

mutual

/-- The value of an expression. -/
def expr (scope : ScopeId) : Expr → Exiting Value
  | .ident ident => ExceptT.lift (Eval.name scope ident)
  | .int n => pure (.int n)
  | .str s => pure (.str s)
  | .bool b => pure (.bool b)
  | .prefixOp op right => do
    let r ← expr scope right
    ExceptT.lift (Action.ofExcept (r.prefixOp op))
  | .infixOp left op right => do
    let l ← expr scope left
    let r ← expr scope right
    ExceptT.lift (Action.ofExcept (l.infixOp op r))
  | .ifElse cond yes no => do
    let c ← expr scope cond
    if c.truthy then block scope yes else branch scope no
  | .fn params body => pure (.function ⟨params, body, scope⟩)
  | .call callee args => do
    let f ← expr scope callee
    let values ← exprs scope args
    apply f values

/-- The values of expressions, from left to right. -/
def exprs (scope : ScopeId) : List Expr → Exiting (List Value)
  | [] => pure []
  | e :: es => do
    let v ← expr scope e
    let vs ← exprs scope es
    pure (v :: vs)

/-- The value of a branch that may be missing. -/
def branch (scope : ScopeId) : Option Block → Exiting Value
  | none => pure .null
  | some no => block scope no

/-- What a statement yields; a binding yields nothing, and a return exits. -/
def stmt (scope : ScopeId) : Stmt → Exiting (Option Value)
  | .bind _ ident value => do
    let v ← expr scope value
    ExceptT.lift (Action.bindName scope ident.name v)
    pure none
  | .ret _ value => do
    let v ← expr scope value
    throw v
  | .expr _ value => do
    let v ← expr scope value
    pure (some v)

/-- The value of the last statement of a block. -/
def stmts (scope : ScopeId) (last : Value) : List Stmt → Exiting Value
  | [] => pure last
  | s :: ss => do
    let result ← stmt scope s
    stmts scope (result.getD .null) ss

/-- The value of a block, which opens no scope. -/
def block (scope : ScopeId) : Block → Exiting Value
  | .mk _ statements => stmts scope .null statements

end

/-- The result of the last statement of a program. -/
def top (scope : ScopeId) (last : Option Value) : List Stmt → Exiting (Option Value)
  | [] => pure last
  | s :: ss => do
    let result ← stmt apply scope s
    top scope result ss

end

/-- Applies a value to arguments.  A function catches a return out of its body. -/
def applyWith (body : ScopeId → Block → Exiting Value) (callee : Value) (args : List Value) :
    Exiting Value := do
  ExceptT.lift (Action.emit (.applied callee args))
  match callee with
  | .function closure =>
    if closure.params.length = args.length then do
      let scope ← ExceptT.lift (Action.newScope closure.scope)
      ExceptT.lift (Eval.bindParams scope closure.params args)
      tryCatch (body scope closure.body) pure
    else ExceptT.lift (Action.stop (.error (.wrongArity args.length closure.params.length)))
  | .builtin function => ExceptT.lift (Eval.builtin function args)
  | value => ExceptT.lift (Action.stop (.error (.notCallable value.typeName)))

/-- Applies a value to arguments, for functions whose calls nest at most `depth` deep. -/
def call : Nat → Value → List Value → Exiting Value
  | 0 => applyWith fun _ _ => ExceptT.lift (Action.stop .tooDeep)
  | depth + 1 => applyWith fun scope body => block (call depth) scope body

/-- The result of a program in a scope.  The program catches a return out of its statements. -/
def program (depth : Nat) (scope : ScopeId) (program : Program) : Exiting (Option Value) :=
  tryCatch (top (call depth) scope none program.statements) fun v => pure (some v)

end Exit

end TreeWalk
