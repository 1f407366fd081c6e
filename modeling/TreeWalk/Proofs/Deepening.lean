import TreeWalk.Eval

/-!
# Deeper calls

A bound on how deep calls nest does nothing but cut evaluation off.  A run that keeps within one
bound is the same under every larger one, so there is but one run that keeps within any.

Results:
1. what is put together from actions that may be cut off is cut off or the same
   (`Action.Approximates.bind`);
2. a smaller bound gives an approximation, by induction on the tree (`approximates_expr`) and on the
   bound (`approximates_call`);
3. hence any two bounds that cut nothing off give the same run (`Action.Approximates.unique`), of an
   expression (`expr_unique`) as of a program, which therefore has one run without a bound
   (`Eval.RunsTo.unique`), given by every bound that is large enough (`Eval.RunsTo.exists_enough`).
-/

namespace TreeWalk

open Eval

/-! ## Approximation -/

/-- Wherever the action is not cut off for the depth of its calls, the other one does the same. -/
def Action.Approximates {α : Type} (action other : Action α) : Prop :=
  ∀ scopes, (action scopes).outcome ≠ .error .tooDeep → other scopes = action scopes

namespace Action.Approximates

variable {α β : Type} {action other : Action α} {next next' : α → Action β}

theorem refl (action : Action α) : action.Approximates action :=
  fun _ _ => rfl

/-- What is cut off at once is an approximation of anything. -/
theorem tooDeep (other : Action α) : (Action.stop .tooDeep).Approximates other :=
  fun _ ends => absurd rfl ends

theorem bind (first : action.Approximates other) (second : ∀ a, (next a).Approximates (next' a)) :
    (action >>= next).Approximates (other >>= next') := by
  intro scopes ends
  rcases ran : action scopes with ⟨reason | a, scopes', events⟩
  · rw [bind_of_error ran] at ends ⊢
    have kept : (action scopes).outcome ≠ .error .tooDeep := by
      rw [ran]
      exact fun cut => ends (congrArg Except.error (Except.error.inj cut))
    have same : other scopes = _ := (first scopes kept).trans ran
    exact bind_of_error same next'
  · rw [bind_of_ok ran] at ends ⊢
    have same : other scopes = _ := (first scopes (by rw [ran]; exact nofun)).trans ran
    rw [bind_of_ok same, second a scopes' ends]

theorem unlessReturned {value : Value} {next next' : Action Value}
    (approximates : next.Approximates next') :
    (Eval.unlessReturned value next).Approximates (Eval.unlessReturned value next') := by
  unfold Eval.unlessReturned
  split
  · exact refl _
  · exact approximates

/-- Of a family of better and better approximations, those that are not cut off do the same. -/
theorem unique {family : Nat → Action α}
    (better : ∀ {depth depth'}, depth ≤ depth' → (family depth).Approximates (family depth'))
    {depth depth' : Nat} {scopes : Scopes} (ends : (family depth scopes).outcome ≠ .error .tooDeep)
    (ends' : (family depth' scopes).outcome ≠ .error .tooDeep) :
    family depth scopes = family depth' scopes := by
  rcases Nat.le_total depth depth' with le | le
  · exact (better le scopes ends).symm
  · exact better le scopes ends'

end Action.Approximates

/-! ## Trees -/

/-- Applying one way approximates applying another way, whatever is applied. -/
def CallsApproximate (apply apply' : Value → List Value → Action Value) : Prop :=
  ∀ callee args, (apply callee args).Approximates (apply' callee args)

section

variable {apply apply' : Value → List Value → Action Value} (scope : ScopeId)

mutual

theorem approximates_expr (calls : CallsApproximate apply apply') :
    ∀ e : Expr, (expr apply scope e).Approximates (expr apply' scope e)
  | .ident _ | .int _ | .str _ | .bool _ | .fn _ _ => by
    unfold expr
    exact .refl _
  | .prefixOp op right => by
    unfold expr
    exact (approximates_expr calls right).bind fun r => .refl _
  | .infixOp left op right => by
    unfold expr
    refine (approximates_expr calls left).bind fun l => .unlessReturned ?_
    exact (approximates_expr calls right).bind fun r => .refl _
  | .ifElse cond yes no => by
    unfold expr
    refine (approximates_expr calls cond).bind fun c => .unlessReturned ?_
    split
    · exact approximates_block calls yes
    · exact approximates_branch calls no
  | .call callee args => by
    unfold expr
    refine (approximates_expr calls callee).bind fun f => .unlessReturned ?_
    refine (approximates_exprs calls args).bind fun values => ?_
    cases values with
    | error signal => exact .refl _
    | ok values => exact calls f values

theorem approximates_exprs (calls : CallsApproximate apply apply') :
    ∀ es : List Expr, (exprs apply scope es).Approximates (exprs apply' scope es)
  | [] => by
    unfold exprs
    exact .refl _
  | e :: es => by
    unfold exprs
    refine (approximates_expr calls e).bind fun v => ?_
    split
    · exact .refl _
    · exact (approximates_exprs calls es).bind fun values => .refl _

theorem approximates_branch (calls : CallsApproximate apply apply') :
    ∀ no : Option Block, (branch apply scope no).Approximates (branch apply' scope no)
  | none => by
    unfold branch
    exact .refl _
  | some no => by
    unfold branch
    exact approximates_block calls no

theorem approximates_stmt (calls : CallsApproximate apply apply') :
    ∀ s : Stmt, (stmt apply scope s).Approximates (stmt apply' scope s)
  | .bind _ _ value | .ret _ value | .expr _ value => by
    unfold stmt
    exact (approximates_expr calls value).bind fun v => .refl _

theorem approximates_stmts (calls : CallsApproximate apply apply') :
    ∀ (last : Value) (ss : List Stmt),
      (stmts apply scope last ss).Approximates (stmts apply' scope last ss)
  | last, [] => by
    unfold stmts
    exact .refl _
  | last, s :: ss => by
    unfold stmts
    refine (approximates_stmt calls s).bind fun result => .unlessReturned ?_
    exact approximates_stmts calls _ ss

theorem approximates_block (calls : CallsApproximate apply apply') :
    ∀ b : Block, (block apply scope b).Approximates (block apply' scope b)
  | .mk _ statements => by
    unfold block
    exact approximates_stmts calls .null statements

end

theorem approximates_top (calls : CallsApproximate apply apply') (last : Option Value)
    (ss : List Stmt) : (top apply scope last ss).Approximates (top apply' scope last ss) := by
  induction ss generalizing last with
  | nil => exact .refl _
  | cons s ss ih =>
    unfold top
    refine (approximates_stmt scope calls s).bind fun result => ?_
    split
    · exact .refl _
    · exact ih _

end

/-! ## Calls -/

theorem approximates_applyWith {body body' : ScopeId → Block → Action Value}
    (bodies : ∀ scope b, (body scope b).Approximates (body' scope b)) :
    CallsApproximate (applyWith body) (applyWith body') := by
  intro callee args
  refine (Action.Approximates.refl _).bind fun _ => ?_
  cases callee with
  | function closure =>
    dsimp only
    split
    · refine (Action.Approximates.refl _).bind fun scope => ?_
      refine (Action.Approximates.refl _).bind fun _ => ?_
      exact (bodies scope closure.body).bind fun v => .refl _
    · exact .refl _
  | _ => exact .refl _

theorem approximates_call {depth depth' : Nat} (le : depth ≤ depth') :
    CallsApproximate (call depth) (call depth') := by
  induction depth generalizing depth' with
  | zero =>
    cases depth' with
    | zero => exact fun _ _ => .refl _
    | succ depth' => exact approximates_applyWith fun scope b => .tooDeep _
  | succ depth ih =>
    cases depth' with
    | zero => exact absurd le (Nat.not_succ_le_zero depth)
    | succ depth' =>
      have calls := ih (Nat.le_of_succ_le_succ le)
      exact approximates_applyWith fun scope b => approximates_block scope calls b

theorem approximates_program {depth depth' : Nat} (le : depth ≤ depth') (scope : ScopeId)
    (p : Program) : (program depth scope p).Approximates (program depth' scope p) :=
  approximates_top scope (approximates_call le) none p.statements

theorem expr_unique {depth depth' : Nat} {scope : ScopeId} {e : Expr} {scopes : Scopes}
    (ends : (expr (call depth) scope e scopes).outcome ≠ .error .tooDeep)
    (ends' : (expr (call depth') scope e scopes).outcome ≠ .error .tooDeep) :
    expr (call depth) scope e scopes = expr (call depth') scope e scopes :=
  Action.Approximates.unique (fun le => approximates_expr scope (approximates_call le) e) ends ends'

/-! ## Runs without a bound -/

/-- What comes of a program whose calls nest as deep as they need. -/
structure Eval.RunsTo (scope : ScopeId) (p : Program) (scopes : Scopes)
    (run : Run (Option Value)) : Prop where
  ends : run.outcome ≠ .error .tooDeep
  reached : ∃ depth, program depth scope p scopes = run

namespace Eval.RunsTo

variable {scope : ScopeId} {p : Program} {scopes : Scopes} {run run' : Run (Option Value)}

theorem of_ends {depth : Nat} (ends : (program depth scope p scopes).outcome ≠ .error .tooDeep) :
    RunsTo scope p scopes (program depth scope p scopes) :=
  ⟨ends, depth, rfl⟩

/-- Every bound that is large enough gives this run. -/
theorem exists_enough (runs : RunsTo scope p scopes run) :
    ∃ enough, ∀ depth, enough ≤ depth → program depth scope p scopes = run := by
  obtain ⟨ends, enough, rfl⟩ := runs
  exact ⟨enough, fun depth le => approximates_program le scope p scopes ends⟩

/-- There is no other run that a bound gives and does not cut off. -/
theorem unique (runs : RunsTo scope p scopes run) (runs' : RunsTo scope p scopes run') :
    run = run' := by
  obtain ⟨ends, depth, rfl⟩ := runs
  obtain ⟨ends', depth', rfl⟩ := runs'
  exact Action.Approximates.unique (fun le => approximates_program le scope p) ends ends'

end Eval.RunsTo

end TreeWalk
