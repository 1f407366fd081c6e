import TreeWalk.Proofs.Deepening
import TreeWalk.Proofs.Unmentioned

/-!
# Functions made earlier or later

A function keeps the scope it is made in, not what is bound there at that moment.  So it may as well
be made a binding later, as long as what is computed for that binding cannot get at the function:
then neither of the two bindings can be noticed while the other is made.

Results:
1. a binding whose value is computed within some bound hands over to the next statement or is cut
   off (`Eval.stmt_bind_cases`);
2. a statement that overlooks a binding may come before or after it (`Spare.alike_exchange`);
3. hence a function and a value that does not mention it may be bound in either order
   (`eval_function_bound_later`).
-/

namespace TreeWalk

/-- The runs let the same be seen and come to the same, and unless they are cut off for the depth of
their calls, they leave the same scopes. -/
structure Run.Alike {α : Type} (run other : Run α) : Prop where
  outcome : run.outcome = other.outcome
  events : run.events = other.events
  scopes : run.outcome ≠ .error .tooDeep → run.scopes = other.scopes

/-! ## One binding -/

section

variable {scope : ScopeId} {scopes : Scopes} {e : Expr} {v : Value} {enough : Nat}

theorem Eval.stmt_bind_cases (ends : (expr (call enough) scope e scopes).outcome = .ok v)
    (plain : v.isReturned = false) (depth : Nat) (t : Token) (x : Ident) :
    (stmt (call depth) scope (.bind t x e) scopes).outcome = .ok none ∨
      (stmt (call depth) scope (.bind t x e) scopes).outcome = .error .tooDeep := by
  unfold stmt
  by_cases cut : (expr (call depth) scope e scopes).outcome = .error .tooDeep
  · rcases ran : expr (call depth) scope e scopes with ⟨outcome, scopes', events⟩
    rw [ran] at cut
    dsimp only at cut
    subst cut
    exact .inr (by rw [Action.bind_of_error ran])
  · have kept : (expr (call enough) scope e scopes).outcome ≠ .error .tooDeep := by
      rw [ends]
      exact nofun
    have same := expr_unique kept cut
    rcases ran : expr (call depth) scope e scopes with ⟨outcome, scopes', events⟩
    rw [same, ran] at ends
    dsimp only at ends
    subst ends
    refine .inl ?_
    rw [Action.bind_of_ok ran, if_neg (Bool.eq_false_iff.mp plain)]
    rfl

end

/-! ## Two bindings -/

namespace Spare

variable {b : Spare} {α : Type} {scopes : Scopes}
variable {binding other : Action (Option Value)} {next next' last last' : Option Value → Action α}

/-- Two statements, one of which only makes a binding that the other overlooks, may change places.
Each hands over to what comes next if it yields nothing. -/
theorem alike_exchange (binds : ∀ scopes, binding scopes = ⟨.ok none, b.into scopes, []⟩)
    (overlooked : other (b.into scopes) = b.after (other scopes))
    (ends : (other scopes).outcome = .ok none ∨ (other scopes).outcome = .error .tooDeep)
    (first : next none = other >>= last) (second : next' none = binding >>= last')
    (same : last none = last' none) :
    ((binding >>= next) scopes).Alike ((other >>= next') scopes) := by
  rcases ran : other scopes with ⟨outcome, scopes', events⟩
  rw [ran] at overlooked ends
  rw [Action.bind_of_ok (binds scopes), first]
  rcases ends with rfl | rfl
  · have early : other (b.into scopes) = ⟨.ok none, b.into scopes', events⟩ := overlooked
    rw [Action.bind_of_ok early, Action.bind_of_ok ran, second, Action.bind_of_ok (binds scopes'),
      same]
    exact ⟨rfl, rfl, fun _ => rfl⟩
  · have early : other (b.into scopes) = ⟨.error .tooDeep, b.into scopes', events⟩ := overlooked
    rw [Action.bind_of_error early, Action.bind_of_error ran]
    exact ⟨rfl, rfl, fun kept => absurd rfl kept⟩

end Spare

/-- If a name occurs neither in an expression nor in any function in sight, and the expression has a
value, then a function may be bound to the name before or after that value is bound to another. -/
theorem eval_function_bound_later {scopes : Scopes} {scope : ScopeId} (there : scope < scopes.size)
    {f x : Ident} (differ : f.name ≠ x.name) {e : Expr} (absent : f.name ∉ e.names)
    (unmentioned : ∀ closure, scopes.Finds scope closure → f.name ∉ closure.names)
    {enough : Nat} {v : Value}
    (ends : (Eval.expr (Eval.call enough) scope e scopes).outcome = .ok v)
    (plain : v.isReturned = false) (t t' : Token) (params : List Ident) (body : Block)
    (rest : List Stmt) :
    (∀ depth,
      (Eval.program depth scope ⟨.bind t f (.fn params body) :: .bind t' x e :: rest⟩ scopes).Alike
        (Eval.program depth scope ⟨.bind t' x e :: .bind t f (.fn params body) :: rest⟩ scopes)) ∧
    (∀ depth brace,
      (Eval.block (Eval.call depth) scope
          (.mk brace (.bind t f (.fn params body) :: .bind t' x e :: rest)) scopes).Alike
        (Eval.block (Eval.call depth) scope
          (.mk brace (.bind t' x e :: .bind t f (.fn params body) :: rest)) scopes)) ∧
    (Eval.Terminates scope ⟨.bind t f (.fn params body) :: .bind t' x e :: rest⟩ scopes ↔
      Eval.Terminates scope ⟨.bind t' x e :: .bind t f (.fn params body) :: rest⟩ scopes) := by
  let b : Spare := ⟨scope, f.name, .function ⟨params, body, scope⟩,
    fun id => scopes.Leads scope id ∨ scopes.size ≤ id⟩
  have fits : b.Fits scopes := Spare.fits_of_unmentioned there unmentioned _
  have inside : b.region scope := .inl .start
  have silent : b.name ∉ (Stmt.bind t' x e).names := by
    unfold Stmt.names
    exact List.not_mem_cons_of_ne_of_not_mem differ absent
  have binds (depth : Nat) (scopes : Scopes) :
      Eval.stmt (Eval.call depth) scope (.bind t f (.fn params body)) scopes =
        ⟨.ok none, b.into scopes, []⟩ := rfl
  have overlooked (depth : Nat) :=
    (Spare.overlooks_stmt (Spare.overlooks_call depth) inside (.bind t' x e) silent scopes fits).1
  have handsOver (depth : Nat) := Eval.stmt_bind_cases ends plain depth t' x
  have programs (depth : Nat) :
      (Eval.program depth scope ⟨.bind t f (.fn params body) :: .bind t' x e :: rest⟩ scopes).Alike
        (Eval.program depth scope ⟨.bind t' x e :: .bind t f (.fn params body) :: rest⟩
          scopes) := by
    unfold Eval.program Eval.top
    exact Spare.alike_exchange (binds depth) (overlooked depth) (handsOver depth) rfl rfl rfl
  refine ⟨programs, fun depth brace => ?_, exists_congr fun depth => ?_⟩
  · unfold Eval.block Eval.stmts
    exact Spare.alike_exchange (binds depth) (overlooked depth) (handsOver depth) rfl rfl rfl
  · rw [(programs depth).outcome]

/-- The block `{ x }`. -/
def readsX : Block :=
  .mk .lbrace [.expr (.ident "x") (.ident (.ofName "x"))]

/-- The expression `same(5)`. -/
def sameOfFive : Expr :=
  .call (.ident (.ofName "same")) [.int 5]

/-- The statement `f()`. -/
def callsF : Stmt :=
  .expr (.ident "f") (.call (.ident (.ofName "f")) [])

/-- The function `fn() { x }` sees the `x` that is bound after it was made, `let x = same(5);`. -/
theorem eval_function_bound_later_of_same :
    0 < withSame.size ∧ "f" ≠ "x" ∧ "f" ∉ sameOfFive.names ∧
    (∀ closure, withSame.Finds 0 closure → "f" ∉ closure.names) ∧
    (Eval.expr (Eval.call 1) 0 sameOfFive withSame).outcome = .ok (.int 5) ∧
    (Value.int 5).isReturned = false ∧
    (Eval.program 1 0 ⟨[.bind .letWord (.ofName "x") sameOfFive,
      .bind .letWord (.ofName "f") (.fn [] readsX), callsF]⟩ withSame).outcome =
        .ok (some (.int 5)) ∧
    (Eval.program 1 0 ⟨[.bind .letWord (.ofName "f") (.fn [] readsX),
      .bind .letWord (.ofName "x") sameOfFive, callsF]⟩ withSame).outcome =
        .ok (some (.int 5)) := by
  have there : 0 < withSame.size := by decide
  have differ : (Ident.ofName "f").name ≠ (Ident.ofName "x").name := by decide
  have absent : "f" ∉ sameOfFive.names := by decide
  have unnamed : "f" ∉ sameValue.names := by decide
  have unmentioned := unmentioned_withSame unnamed
  have ends : (Eval.expr (Eval.call 1) 0 sameOfFive withSame).outcome = .ok (.int 5) := by cbv
  obtain ⟨alike, _⟩ := eval_function_bound_later there differ absent unmentioned ends rfl .letWord
    .letWord [] readsX [callsF]
  have last : (Eval.program 1 0 ⟨[.bind .letWord (.ofName "x") sameOfFive,
      .bind .letWord (.ofName "f") (.fn [] readsX), callsF]⟩ withSame).outcome =
        .ok (some (.int 5)) := by
    cbv
  exact ⟨there, differ, absent, unmentioned, ends, rfl, last, (alike 1).outcome.trans last⟩

end TreeWalk
