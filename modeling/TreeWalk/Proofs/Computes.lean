import TreeWalk.Proofs.Writes

/-!
# Computing a value

What it takes to say that a program computes something: that an action comes to a given result, with
nothing printed on the way and with all scopes left as they were.  It is said of scopes and of all
that come of them when more are opened, so it stays true while the parts of an expression are
evaluated one after another.

Results:
1. what a name stands for stays the same when scopes are opened (`Scopes.Extends.find?`);
2. one action after another computes what the second one computes (`Action.Computes.bind`), and so
   there is one lemma for each way to build an expression or a block (`computes_infixOp`,
   `computes_ifElse` and so on);
3. a call of a function computes what its body computes where its parameters are bound
   (`computes_function`).
-/

namespace TreeWalk

open Eval

/-! ## Scopes that are opened -/

theorem Scopes.Extends.find? {before after : Scopes} (extended : before.Extends after)
    {name : String} {id : ScopeId} {v : Value} (found : before.find? name id = some v) :
    after.find? name id = some v := by
  -- An outer scope is looked at only if it is older, so the induction is on the scope.
  induction id using Nat.strongRecOn with
  | ind id ih =>
    unfold Scopes.find? at found ⊢
    cases there : before.scope? id with
    | none =>
      rw [there] at found
      cases found
    | some s =>
      rw [there] at found
      rw [extended id s there]
      dsimp only at found ⊢
      cases own : s.bindings.get? name with
      | some w => rwa [own] at found
      | none =>
        rw [own] at found
        cases around : s.outer with
        | none =>
          rw [around] at found
          cases found
        | some outer =>
          rw [around] at found
          dsimp only at found ⊢
          split at found
          · next older =>
            rw [if_pos older]
            exact ih outer older found
          · cases found

/-! ## Actions -/

/-- In these scopes and in all that extend them, the action yields `a`, prints nothing, and does
nothing to scopes but open new ones. -/
def Action.Computes {α : Type} (action : Action α) (scopes : Scopes) (a : α) : Prop :=
  ∀ before, scopes.Extends before → ∃ after events, action before = ⟨.ok a, after, events⟩ ∧
    before.Extends after ∧ ∀ v, Event.printed v ∉ events

namespace Action.Computes

variable {α β : Type} {action : Action α} {next : α → Action β} {scopes : Scopes} {a : α} {b : β}

theorem pure (a : α) : (Pure.pure a : Action α).Computes scopes a :=
  fun before _ => ⟨before, [], rfl, fun _ _ there => there, nofun⟩

theorem bind (first : action.Computes scopes a) (second : (next a).Computes scopes b) :
    (action >>= next).Computes scopes b := by
  intro before extended
  obtain ⟨mid, events, ran, opened, silent⟩ := first before extended
  have further : scopes.Extends mid := fun id s there => opened id s (extended id s there)
  obtain ⟨after, events', ran', opened', silent'⟩ := second mid further
  refine ⟨after, events ++ events', ?_, fun id s there => opened' id s (opened id s there), ?_⟩
  · rw [bind_of_ok ran, ran']
  · exact fun v member => (List.mem_append.mp member).elim (silent v) (silent' v)

theorem find? {name : String} {id : ScopeId} {v : Value} (found : scopes.find? name id = some v) :
    (Action.find? name id).Computes scopes (some v) := by
  refine fun before extended => ⟨before, [], ?_, fun _ _ there => there, nofun⟩
  exact congrArg (fun found => Run.mk (.ok found) before []) (extended.find? found)

theorem ofExcept {result : Except EvalError α} (done : result = .ok a) :
    (Action.ofExcept result).Computes scopes a := by
  subst done
  exact pure a

theorem unlessReturned {value v : Value} {next : Action Value} (plain : value.isReturned = false)
    (computes : next.Computes scopes v) : (Eval.unlessReturned value next).Computes scopes v := by
  rwa [Eval.unlessReturned, if_neg (Bool.eq_false_iff.mp plain)]

end Action.Computes

/-! ## Trees -/

section

variable {apply : Value → List Value → Action Value} {scope : ScopeId} {scopes : Scopes}

theorem computes_int (n : Int64) : (expr apply scope (.int n)).Computes scopes (.int n) := by
  unfold expr
  exact .pure _

theorem computes_ident {ident : Ident} {v : Value}
    (found : scopes.find? ident.name scope = some v) :
    (expr apply scope (.ident ident)).Computes scopes v := by
  unfold expr
  exact (Action.Computes.find? found).bind (.pure v)

theorem computes_infixOp {left right : Expr} {op : Operator} {l r v : Value}
    (first : (expr apply scope left).Computes scopes l) (plain : l.isReturned = false)
    (second : (expr apply scope right).Computes scopes r) (plain' : r.isReturned = false)
    (done : l.infixOp op r = .ok v) :
    (expr apply scope (.infixOp left op right)).Computes scopes v := by
  unfold expr
  exact first.bind (.unlessReturned plain (second.bind (.unlessReturned plain' (.ofExcept done))))

theorem computes_ifElse {cond : Expr} {yes no : Block} {b : Bool} {v : Value}
    (test : (expr apply scope cond).Computes scopes (.bool b))
    (chosen : (block apply scope (if b then yes else no)).Computes scopes v) :
    (expr apply scope (.ifElse cond yes (some no))).Computes scopes v := by
  unfold expr
  refine test.bind (.unlessReturned rfl ?_)
  cases b with
  | false =>
    show (branch apply scope (some no)).Computes scopes v
    unfold branch
    exact chosen
  | true => exact chosen

theorem computes_nil : (exprs apply scope []).Computes scopes (.ok []) := by
  unfold exprs
  exact .pure _

theorem computes_cons {e : Expr} {es : List Expr} {v : Value} {vs : List Value}
    (first : (expr apply scope e).Computes scopes v) (plain : v.isReturned = false)
    (rest : (exprs apply scope es).Computes scopes (.ok vs)) :
    (exprs apply scope (e :: es)).Computes scopes (.ok (v :: vs)) := by
  unfold exprs
  refine first.bind ?_
  rw [if_neg (Bool.eq_false_iff.mp plain)]
  exact rest.bind (.pure _)

theorem computes_call {callee : Expr} {args : List Expr} {f v : Value} {values : List Value}
    (function : (expr apply scope callee).Computes scopes f) (plain : f.isReturned = false)
    (arguments : (exprs apply scope args).Computes scopes (.ok values))
    (applied : (apply f values).Computes scopes v) :
    (expr apply scope (.call callee args)).Computes scopes v := by
  unfold expr
  exact function.bind (.unlessReturned plain (arguments.bind applied))

/-- Whatever a block of one statement yields is its value, a return in progress included. -/
theorem computes_block {s : Stmt} {brace : Token} {v : Value}
    (computes : (stmt apply scope s).Computes scopes (some v)) :
    (block apply scope (.mk brace [s])).Computes scopes v := by
  unfold block stmts
  refine computes.bind ?_
  show (unlessReturned v (stmts apply scope v [])).Computes scopes v
  unfold unlessReturned stmts
  split <;> exact .pure v

theorem computes_exprStmt {t : Token} {e : Expr} {v : Value}
    (computes : (expr apply scope e).Computes scopes v) :
    (stmt apply scope (.expr t e)).Computes scopes (some v) := by
  unfold stmt
  exact computes.bind (.pure _)

theorem computes_ret {t : Token} {e : Expr} {v : Value}
    (computes : (expr apply scope e).Computes scopes v) (plain : v.isReturned = false) :
    (stmt apply scope (.ret t e)).Computes scopes (some (.returned v)) := by
  unfold stmt
  refine computes.bind ?_
  rw [if_neg (Bool.eq_false_iff.mp plain)]
  exact .pure _

end

/-! ## Calls -/

theorem bindParams_run (scope : ScopeId) (params : List Ident) (args : List Value)
    (scopes : Scopes) :
    bindParams scope params args scopes =
      ⟨.ok (), (bindParams scope params args scopes).scopes, []⟩ := by
  induction params generalizing args scopes with
  | nil => rfl
  | cons param params ih =>
    cases args with
    | nil => rfl
    | cons arg args =>
      unfold bindParams
      rw [Action.bind_of_ok rfl, ih]
      rfl

theorem computes_function {depth : Nat} {scopes : Scopes} {closure : Closure} {args : List Value}
    {v : Value} (arity : closure.params.length = args.length)
    (body : ∀ before, scopes.Extends before →
      (block (call depth) before.size closure.body).Computes
        (bindParams before.size closure.params args (before.push (some closure.scope))).scopes v) :
    (call (depth + 1) (.function closure) args).Computes scopes v.unwrap := by
  intro before extended
  obtain ⟨after, events, ran, _, silent⟩ := body before extended _ fun _ _ there => there
  have applied : call (depth + 1) (.function closure) args before =
      ⟨.ok v.unwrap, after, .applied (.function closure) args :: events⟩ := by
    show applyWith _ _ _ before = _
    unfold applyWith
    simp only [if_pos arity]
    rw [Action.bind_of_ok rfl, Action.bind_of_ok rfl, Action.bind_of_ok (bindParams_run ..),
      Action.bind_of_ok ran, Action.pure_apply, List.append_nil]
    rfl
  have opened := opens_call (depth + 1) (.function closure) args before
  rw [applied] at opened
  refine ⟨after, _, applied, opened, fun w member => ?_⟩
  rcases List.mem_cons.mp member with same | inside
  · cases same
  · exact silent w inside

end TreeWalk
