import TreeWalk.Proofs.Exit
import TreeWalk.Proofs.Settled

/-!
# Returns as values

The evaluator has no exits: a return in progress is a value that every construct passes on.  It does
what evaluation with exits does, in every place where a return may stand.

Results:
1. one step: if two actions agree and what follows them agrees, so do the sequences, provided that
   an exit of the first is passed on by what follows (`Simulates.bind`);
2. every construct of the evaluator agrees with that of evaluation with exits, by one induction on
   the tree (`simulates_expr`, `simulates_stmt`, `simulates_block`), and calls do by an induction on
   their depth (`simulates_call`);
3. hence results, scopes and events are the same (`eval_eq_exit`).
-/

namespace TreeWalk

/-! ## Agreement -/

section

variable (region : ScopeId → Prop)

/-- How the evaluator represents the result of an expression. -/
inductive ValueSignal : Except Value Value → Value → Prop
  | value {v : Value} : v.Settled region → ValueSignal (.ok v) v
  | exit {v : Value} : v.Settled region → ValueSignal (.error v) (.returned v)

/-- How it represents the results of arguments. -/
inductive ArgsSignal : Except Value (List Value) → Except Value (List Value) → Prop
  | values {vs : List Value} : (∀ v ∈ vs, v.Settled region) → ArgsSignal (.ok vs) (.ok vs)
  | exit {v : Value} : v.Settled region → ArgsSignal (.error v) (.error (.returned v))

/-- How it represents the result of a statement. -/
inductive StmtSignal : Except Value (Option Value) → Option Value → Prop
  | result {o : Option Value} : (∀ v, o = some v → v.Settled region) → StmtSignal (.ok o) o
  | exit {v : Value} : v.Settled region → StmtSignal (.error v) (some (.returned v))

/-- How it represents the result of a program whose returns are still to be caught. -/
inductive TopSignal : Except Value (Option Value) → Option Value → Prop
  | result (o : Option Value) : TopSignal (.ok o) o
  | exit (v : Value) : TopSignal (.error v) (some v)

/-- What has no exits is represented by itself. -/
inductive NoExit {α : Type} (good : α → Prop) : Except Value α → α → Prop
  | result {a : α} : good a → NoExit good (.ok a) a

/-- Both actions stop for the same reason, or both yield results of which one represents the other.
Either way they leave the same scopes and events. -/
inductive Matches {α β : Type} (signal : Except Value α → β → Prop) :
    Run β → Run (Except Value α) → Prop
  | stopped (reason : Stop) {scopes : Scopes} (events : List Event) :
      Settled region scopes →
      Matches signal ⟨.error reason, scopes, events⟩ ⟨.error reason, scopes, events⟩
  | done {result : Except Value α} {b : β} {scopes : Scopes} (events : List Event) :
      signal result b → Settled region scopes →
      Matches signal ⟨.ok b, scopes, events⟩ ⟨.ok result, scopes, events⟩

/-- The actions match in all settled scopes. -/
def Simulates {α β : Type} (signal : Except Value α → β → Prop) (action : Action β)
    (exiting : Exiting α) : Prop :=
  ∀ scopes, Settled region scopes → Matches region signal (action scopes) (exiting.run scopes)

end

variable {region : ScopeId → Prop} {α β γ δ : Type}

theorem Matches.prepend {signal : Except Value α → β → Prop} {run : Run β}
    {exits : Run (Except Value α)} (before : List Event) (same : Matches region signal run exits) :
    Matches region signal ⟨run.outcome, run.scopes, before ++ run.events⟩
      ⟨exits.outcome, exits.scopes, before ++ exits.events⟩ := by
  cases same with
  | stopped reason events settled => exact .stopped reason (before ++ events) settled
  | done events represents settled => exact .done (before ++ events) represents settled

namespace Simulates

theorem pure {signal : Except Value α → β → Prop} {b : β} {a : α} (represents : signal (.ok a) b) :
    Simulates region signal (Pure.pure b) (Pure.pure a) :=
  fun _ settled => .done [] represents settled

theorem stop {signal : Except Value α → β → Prop} (reason : Stop) :
    Simulates region signal (Action.stop reason) (ExceptT.lift (Action.stop reason)) :=
  fun _ settled => .stopped reason [] settled

theorem bind {signal : Except Value α → β → Prop} {signal' : Except Value γ → δ → Prop}
    {action : Action β} {exiting : Exiting α} {next : β → Action δ} {next' : α → Exiting γ}
    (first : Simulates region signal action exiting)
    (passes : ∀ {v b}, signal (.error v) b → ∃ d, next b = Pure.pure d ∧ signal' (.error v) d)
    (second : ∀ {a b}, signal (.ok a) b → Simulates region signal' (next b) (next' a)) :
    Simulates region signal' (action >>= next) (exiting >>= next') := by
  intro scopes settled
  have found := first scopes settled
  rw [ExceptT.run_bind]
  generalize ran : action scopes = run at found
  generalize ran' : exiting.run scopes = run' at found
  cases found with
  | stopped reason events after =>
    rw [Action.bind_of_error ran, Action.bind_of_error ran']
    exact .stopped reason events after
  | @done result b scopes' events represents after =>
    rw [Action.bind_of_ok ran, Action.bind_of_ok ran']
    cases result with
    | error v =>
      -- Here evaluation with exits is done, and the evaluator goes on and passes the exit on.
      obtain ⟨d, same, represents'⟩ := passes represents
      rw [same]
      exact .prepend events (.done [] represents' after)
    | ok a => exact .prepend events (second represents scopes' after)

theorem imp {signal signal' : Except Value α → β → Prop} {action : Action β} {exiting : Exiting α}
    (same : Simulates region signal action exiting)
    (weaker : ∀ {result b}, signal result b → signal' result b) :
    Simulates region signal' action exiting := by
  intro scopes settled
  have found := same scopes settled
  generalize action scopes = run at found ⊢
  generalize exiting.run scopes = run' at found ⊢
  cases found with
  | stopped reason events after => exact .stopped reason events after
  | done events represents after => exact .done events (weaker represents) after

/-- Where exits are caught, the evaluator unwraps what it has got. -/
theorem handle {signal : Except Value α → β → Prop} {good : α → Prop} {action : Action β}
    {exiting : Exiting α} (same : Simulates region signal action exiting) (unwrap : β → α)
    (caught : Value → α)
    (exits : ∀ {v b}, signal (.error v) b → unwrap b = caught v ∧ good (caught v))
    (results : ∀ {a b}, signal (.ok a) b → unwrap b = a ∧ good a) :
    Simulates region (NoExit good) (action >>= fun b => Pure.pure (unwrap b))
      (tryCatch exiting fun v => Pure.pure (caught v)) := by
  intro scopes settled
  have found := same scopes settled
  rw [ExceptT.run_tryCatch]
  generalize ran : action scopes = run at found
  generalize ran' : exiting.run scopes = run' at found
  cases found with
  | stopped reason events after =>
    rw [Action.bind_of_error ran, Action.bind_of_error ran']
    exact .stopped reason events after
  | @done result b scopes' events represents after =>
    rw [Action.bind_of_ok ran, Action.bind_of_ok ran']
    cases result with
    | error v =>
      obtain ⟨unwrapped, holds⟩ := exits represents
      rw [unwrapped]
      exact .prepend events (.done [] (.result holds) after)
    | ok a =>
      obtain ⟨unwrapped, holds⟩ := results represents
      rw [unwrapped]
      exact .prepend events (.done [] (.result holds) after)

end Simulates

/-! ## What has no exits -/

/-- The action keeps scopes settled, and its result is good. -/
def Keeps (region : ScopeId → Prop) (good : α → Prop) (action : Action α) : Prop :=
  ∀ scopes, Settled region scopes → Settled region (action scopes).scopes ∧
    ∀ a, (action scopes).outcome = .ok a → good a

namespace Keeps

theorem pure {good : α → Prop} {a : α} (holds : good a) : Keeps region good (Pure.pure a) := by
  intro scopes settled
  refine ⟨settled, fun b same => ?_⟩
  cases same
  exact holds

theorem stop {good : α → Prop} (reason : Stop) : Keeps region good (Action.stop reason) :=
  fun _ settled => ⟨settled, nofun⟩

theorem bind {good : α → Prop} {good' : β → Prop} {action : Action α} {next : α → Action β}
    (first : Keeps region good action) (second : ∀ a, good a → Keeps region good' (next a)) :
    Keeps region good' (action >>= next) := by
  intro scopes settled
  obtain ⟨after, holds⟩ := first scopes settled
  rcases ran : action scopes with ⟨reason | a, scopes', events⟩
  · rw [Action.bind_of_error ran]
    rw [ran] at after
    exact ⟨after, nofun⟩
  · rw [Action.bind_of_ok ran]
    rw [ran] at after holds
    exact second a (holds a rfl) scopes' after

theorem emit (event : Event) : Keeps region (fun _ => True) (Action.emit event) :=
  fun _ settled => ⟨settled, fun _ _ => trivial⟩

/-- What only computes its result leaves the scopes alone. -/
theorem ofExcept {good : α → Prop} {result : Except EvalError α}
    (holds : ∀ a, result = .ok a → good a) : Keeps region good (Action.ofExcept result) := by
  cases result with
  | error e => exact stop (.error e)
  | ok a => exact pure (holds a rfl)

theorem simulates {good : α → Prop} {action : Action α} (keeps : Keeps region good action) :
    Simulates region (NoExit good) action (ExceptT.lift action) := by
  intro scopes settled
  obtain ⟨after, holds⟩ := keeps scopes settled
  rw [ExceptT.run_lift, ← bind_pure_comp]
  rcases ran : action scopes with ⟨reason | a, scopes', events⟩
  · rw [Action.bind_of_error ran]
    rw [ran] at after
    exact .stopped reason events after
  · rw [Action.bind_of_ok ran]
    rw [ran] at after holds
    have good : NoExit good (.ok a) a := .result (holds a rfl)
    simpa [Action.pure_apply] using Matches.done events good after

end Keeps

section

variable {scope : ScopeId}

theorem keeps_name (inside : region scope) (ident : Ident) :
    Keeps region (Value.Settled region) (Eval.name scope ident) := by
  have looked : Keeps region (fun found => ∀ v, found = some v → v.Settled region)
      (Action.find? ident.name scope) := by
    intro scopes settled
    refine ⟨settled, fun found same v is => ?_⟩
    cases same
    exact settled.of_find? inside is
  refine looked.bind fun found holds => ?_
  cases found with
  | some v => exact .pure (holds v rfl)
  | none =>
    cases Builtin.ofName? ident.name with
    | some builtin => exact .pure ⟨rfl, nofun⟩
    | none => exact .stop _

theorem Value.IsScalar.settled {v : Value} (scalar : v.IsScalar) : v.Settled region := by
  cases v with
  | int _ | bool _ | str _ => exact ⟨rfl, nofun⟩
  | _ => cases scalar

theorem keeps_puts (values : List Value) :
    Keeps region (Value.Settled region) (Eval.puts values) := by
  induction values with
  | nil => exact .pure ⟨rfl, nofun⟩
  | cons v values ih => exact (Keeps.emit (.printed v)).bind fun _ _ => ih

theorem keeps_builtin (function : Builtin) (args : List Value) :
    Keeps region (Value.Settled region) (Eval.builtin function args) := by
  cases function with
  | puts => exact keeps_puts args
  | len =>
    refine .ofExcept fun result done => ?_
    unfold Eval.len at done
    split at done <;> cases done
    exact ⟨rfl, nofun⟩

theorem keeps_bindName (name : String) {v : Value} (settled : v.Settled region) :
    Keeps region (fun _ => True) (Action.bindName scope name v) :=
  fun _ before => ⟨before.bind scope name settled, fun _ _ => trivial⟩

theorem keeps_bindParams (params : List Ident) {args : List Value}
    (settled : ∀ arg ∈ args, arg.Settled region) :
    Keeps region (fun _ => True) (Eval.bindParams scope params args) := by
  induction params generalizing args with
  | nil => exact .pure trivial
  | cons param params ih =>
    cases args with
    | nil => exact .pure trivial
    | cons arg args =>
      obtain ⟨first, others⟩ := List.forall_mem_cons.mp settled
      exact (keeps_bindName param.name first).bind fun _ _ => ih others

theorem keeps_newScope (inside : region scope) : Keeps region region (Action.newScope scope) := by
  intro scopes settled
  refine ⟨settled.push inside, fun id same => ?_⟩
  cases same
  exact settled.fresh _ (Nat.le_refl _)

end

/-! ## Trees -/

theorem Keeps.value {action : Action Value} (keeps : Keeps region (Value.Settled region) action) :
    Simulates region (ValueSignal region) action (ExceptT.lift action) := by
  refine keeps.simulates.imp fun represents => ?_
  cases represents with
  | result settled => exact .value settled

/-- After a value comes what passes on a return in progress and agrees on every other value. -/
theorem Simulates.bind_value {signal : Except Value γ → δ → Prop} {action : Action Value}
    {exiting : Exiting Value} {next : Value → Action δ} {next' : Value → Exiting γ}
    (first : Simulates region (ValueSignal region) action exiting)
    (passes : ∀ {v}, v.Settled region →
      ∃ d, next (.returned v) = Pure.pure d ∧ signal (.error v) d)
    (second : ∀ {v}, v.Settled region → Simulates region signal (next v) (next' v)) :
    Simulates region signal (action >>= next) (exiting >>= next') := by
  refine first.bind ?_ ?_
  · intro v b represents
    cases represents with
    | exit settled => exact passes settled
  · intro a b represents
    cases represents with
    | value settled => exact second settled

/-- What goes on with a value unless that is a return in progress goes on with the value where
exits are. -/
theorem Simulates.unlessReturned {action : Action Value} {exiting : Exiting Value}
    {next : Value → Action Value} {next' : Value → Exiting Value}
    (first : Simulates region (ValueSignal region) action exiting)
    (second : ∀ {v}, v.Settled region →
      Simulates region (ValueSignal region) (next v) (next' v)) :
    Simulates region (ValueSignal region) (action >>= fun v => Eval.unlessReturned v (next v))
      (exiting >>= next') := by
  refine first.bind_value (fun settled => ⟨_, rfl, .exit settled⟩) ?_
  intro v settled
  unfold Eval.unlessReturned
  rw [settled.plain]
  exact second settled

/-- Calls agree. -/
def Applies (region : ScopeId → Prop) (apply : Value → List Value → Action Value)
    (apply' : Value → List Value → Exiting Value) : Prop :=
  ∀ {f args}, f.Settled region → (∀ arg ∈ args, arg.Settled region) →
    Simulates region (NoExit (Value.Settled region)) (apply f args) (apply' f args)

section

variable {apply : Value → List Value → Action Value} {apply' : Value → List Value → Exiting Value}
variable {scope : ScopeId}

theorem simulates_call_expr {callee : Action Value} {callee' : Exiting Value}
    {args : Action (Except Value (List Value))} {args' : Exiting (List Value)}
    (applies : Applies region apply apply')
    (first : Simulates region (ValueSignal region) callee callee')
    (second : Simulates region (ArgsSignal region) args args') :
    Simulates region (ValueSignal region)
      (callee >>= fun f => Eval.unlessReturned f (args >>= fun result => match result with
        | .error signal => pure signal
        | .ok values => apply f values))
      (callee' >>= fun f => args' >>= fun values => apply' f values) := by
  refine first.unlessReturned fun callable => second.bind ?_ ?_
  · intro v b represents
    cases represents with
    | exit settled => exact ⟨_, rfl, .exit settled⟩
  · intro a b represents
    cases represents with
    | values all =>
      refine (applies callable all).imp fun represents => ?_
      cases represents with
      | result settled => exact .value settled

theorem simulates_cons {first : Action Value} {first' : Exiting Value}
    {more : Action (Except Value (List Value))} {more' : Exiting (List Value)}
    (head : Simulates region (ValueSignal region) first first')
    (tail : Simulates region (ArgsSignal region) more more') :
    Simulates region (ArgsSignal region)
      (first >>= fun v => if v.isReturned then pure (.error v) else more >>= fun result =>
        match result with
        | .error signal => pure (.error signal)
        | .ok vs => pure (.ok (v :: vs)))
      (first' >>= fun v => more' >>= fun vs => pure (v :: vs)) := by
  refine head.bind_value (fun settled => ⟨_, rfl, .exit settled⟩) ?_
  intro v settled
  rw [settled.plain]
  refine tail.bind ?_ ?_
  · intro v b represents
    cases represents with
    | exit settled => exact ⟨_, rfl, .exit settled⟩
  · intro vs b represents
    cases represents with
    | values all => exact .pure (.values (List.forall_mem_cons.mpr ⟨settled, all⟩))

theorem simulates_bind (name : String) {value : Action Value} {value' : Exiting Value}
    (first : Simulates region (ValueSignal region) value value') :
    Simulates region (StmtSignal region)
      (value >>= fun v => if v.isReturned then pure (some v) else
        Action.bindName scope name v >>= fun _ => pure none)
      (value' >>= fun v => ExceptT.lift (Action.bindName scope name v) >>= fun _ => pure none) := by
  refine first.bind_value (fun settled => ⟨_, rfl, .exit settled⟩) ?_
  intro v settled
  rw [settled.plain]
  refine (keeps_bindName name settled).simulates.bind nofun ?_
  exact fun _ => .pure (.result nofun)

theorem simulates_ret {value : Action Value} {value' : Exiting Value}
    (first : Simulates region (ValueSignal region) value value') :
    Simulates region (StmtSignal region)
      (value >>= fun v => if v.isReturned then pure (some v) else pure (some (.returned v)))
      (value' >>= fun v => throw v) := by
  refine first.bind_value (fun settled => ⟨_, rfl, .exit settled⟩) ?_
  intro v settled
  rw [settled.plain]
  exact fun _ before => .done [] (.exit settled) before

theorem simulates_exprStmt {value : Action Value} {value' : Exiting Value}
    (first : Simulates region (ValueSignal region) value value') :
    Simulates region (StmtSignal region) (value >>= fun v => pure (some v))
      (value' >>= fun v => pure (some v)) := by
  refine first.bind_value (fun settled => ⟨_, rfl, .exit settled⟩) ?_
  intro v settled
  refine .pure (.result fun w same => ?_)
  cases same
  exact settled

theorem simulates_next {first : Action (Option Value)} {first' : Exiting (Option Value)}
    {more : Value → Action Value} {more' : Value → Exiting Value}
    (head : Simulates region (StmtSignal region) first first')
    (tail : ∀ {v}, v.Settled region → Simulates region (ValueSignal region) (more v) (more' v)) :
    Simulates region (ValueSignal region)
      (first >>= fun result => Eval.unlessReturned (result.getD .null) (more (result.getD .null)))
      (first' >>= fun result => more' (result.getD .null)) := by
  refine head.bind ?_ ?_
  · intro v b represents
    cases represents with
    | exit settled => exact ⟨_, rfl, .exit settled⟩
  · intro a b represents
    cases represents with
    | result all =>
      have settled : (a.getD .null).Settled region := by
        cases a with
        | none => exact ⟨rfl, nofun⟩
        | some v => exact all v rfl
      unfold Eval.unlessReturned
      rw [settled.plain]
      exact tail settled

mutual

theorem simulates_expr (applies : Applies region apply apply') (inside : region scope) :
    ∀ e : Expr, Simulates region (ValueSignal region) (Eval.expr apply scope e)
      (Exit.expr apply' scope e)
  | .ident ident => by
    unfold Eval.expr Exit.expr
    exact (keeps_name inside ident).value
  | .int n | .str s | .bool b => by
    unfold Eval.expr Exit.expr
    exact .pure (.value ⟨rfl, nofun⟩)
  | .prefixOp op right => by
    unfold Eval.expr Exit.expr
    refine (simulates_expr applies inside right).unlessReturned fun _ => ?_
    exact (Keeps.ofExcept fun _ done => (Value.isScalar_prefixOp done).settled).value
  | .infixOp left op right => by
    unfold Eval.expr Exit.expr
    refine (simulates_expr applies inside left).unlessReturned fun _ => ?_
    refine (simulates_expr applies inside right).unlessReturned fun _ => ?_
    exact (Keeps.ofExcept fun _ done => (Value.isScalar_infixOp done).settled).value
  | .ifElse cond yes no => by
    unfold Eval.expr Exit.expr
    refine (simulates_expr applies inside cond).unlessReturned fun {c} _ => ?_
    cases c.truthy with
    | true => exact simulates_block applies inside yes
    | false => exact simulates_branch applies inside no
  | .fn params body => by
    unfold Eval.expr Exit.expr
    refine .pure (.value ⟨rfl, ?_⟩)
    rintro closure same
    cases same
    exact inside
  | .call callee args => by
    unfold Eval.expr Exit.expr
    exact simulates_call_expr applies (simulates_expr applies inside callee)
      (simulates_exprs applies inside args)

theorem simulates_exprs (applies : Applies region apply apply') (inside : region scope) :
    ∀ es : List Expr, Simulates region (ArgsSignal region) (Eval.exprs apply scope es)
      (Exit.exprs apply' scope es)
  | [] => by
    unfold Eval.exprs Exit.exprs
    exact .pure (.values nofun)
  | e :: es => by
    unfold Eval.exprs Exit.exprs
    exact simulates_cons (simulates_expr applies inside e) (simulates_exprs applies inside es)

theorem simulates_branch (applies : Applies region apply apply') (inside : region scope) :
    ∀ no : Option Block, Simulates region (ValueSignal region) (Eval.branch apply scope no)
      (Exit.branch apply' scope no)
  | none => by
    unfold Eval.branch Exit.branch
    exact .pure (.value ⟨rfl, nofun⟩)
  | some no => by
    unfold Eval.branch Exit.branch
    exact simulates_block applies inside no

theorem simulates_stmt (applies : Applies region apply apply') (inside : region scope) :
    ∀ s : Stmt, Simulates region (StmtSignal region) (Eval.stmt apply scope s)
      (Exit.stmt apply' scope s)
  | .bind _ ident value => by
    unfold Eval.stmt Exit.stmt
    exact simulates_bind ident.name (simulates_expr applies inside value)
  | .ret _ value => by
    unfold Eval.stmt Exit.stmt
    exact simulates_ret (simulates_expr applies inside value)
  | .expr _ value => by
    unfold Eval.stmt Exit.stmt
    exact simulates_exprStmt (simulates_expr applies inside value)

theorem simulates_stmts (applies : Applies region apply apply') (inside : region scope)
    {last : Value} (settled : last.Settled region) :
    ∀ ss : List Stmt, Simulates region (ValueSignal region) (Eval.stmts apply scope last ss)
      (Exit.stmts apply' scope last ss)
  | [] => by
    unfold Eval.stmts Exit.stmts
    exact .pure (.value settled)
  | s :: ss => by
    unfold Eval.stmts Exit.stmts
    have next := simulates_next (simulates_stmt applies inside s) fun {v} settled =>
      simulates_stmts applies inside settled ss
    exact next

theorem simulates_block (applies : Applies region apply apply') (inside : region scope) :
    ∀ b : Block, Simulates region (ValueSignal region) (Eval.block apply scope b)
      (Exit.block apply' scope b)
  | .mk _ statements => by
    unfold Eval.block Exit.block
    have start : Value.Settled region .null := ⟨rfl, nofun⟩
    exact simulates_stmts applies inside start statements

end

theorem simulates_top (applies : Applies region apply apply') (inside : region scope)
    (last : Option Value) (ss : List Stmt) :
    Simulates region TopSignal (Eval.top apply scope last ss) (Exit.top apply' scope last ss) := by
  induction ss generalizing last with
  | nil => exact .pure (.result last)
  | cons s ss ih =>
    unfold Eval.top Exit.top
    refine (simulates_stmt applies inside s).bind ?_ ?_
    · intro v b represents
      cases represents with
      | exit settled => exact ⟨_, rfl, .exit v⟩
    · intro a b represents
      cases represents with
      | result all =>
        -- No result is a wrapper, so it does not end the program.
        split
        · next v => exact absurd (all _ rfl).plain (by simp [Value.isReturned])
        · exact ih a

end

/-! ## Calls -/

/-- A function catches a return out of its body. -/
theorem simulates_caught {body : Action Value} {body' : Exiting Value}
    (same : Simulates region (ValueSignal region) body body') :
    Simulates region (NoExit (Value.Settled region)) (body >>= fun v => pure v.unwrap)
      (tryCatch body' pure) := by
  refine same.handle Value.unwrap id ?_ ?_
  · intro v b represents
    cases represents with
    | exit settled => exact ⟨rfl, settled⟩
  · intro a b represents
    cases represents with
    | value settled => exact ⟨Value.unwrap_of_not_isReturned settled.plain, settled⟩

theorem simulates_applyWith {body : ScopeId → Block → Action Value}
    {body' : ScopeId → Block → Exiting Value}
    (bodies : ∀ {scope}, region scope → ∀ b,
      Simulates region (ValueSignal region) (body scope b) (body' scope b)) :
    Applies region (Eval.applyWith body) (Exit.applyWith body') := by
  intro callee args settled all
  refine (Keeps.emit _).simulates.bind nofun fun {_ _} _ => ?_
  cases callee with
  | function closure =>
    show Simulates region _ (if closure.params.length = args.length then _ else _)
      (if closure.params.length = args.length then _ else _)
    split
    · -- Neither a new scope nor the parameters have an exit to pass on; the body's is caught.
      refine (keeps_newScope (settled.inside closure rfl)).simulates.bind nofun ?_
      intro scope scope' opened
      cases opened with
      | result inside =>
        refine (keeps_bindParams closure.params all).simulates.bind nofun fun {_ _} _ => ?_
        exact simulates_caught (bodies inside closure.body)
    · exact .stop _
  | builtin function => exact (keeps_builtin function args).simulates
  | _ => exact .stop _

theorem simulates_call (depth : Nat) :
    Applies region (Eval.call depth) (Exit.call depth) := by
  induction depth with
  | zero => exact simulates_applyWith fun _ _ => .stop .tooDeep
  | succ depth ih => exact simulates_applyWith fun inside b => simulates_block ih inside b

/-! ## The same evaluation -/

/-- A value where there are exits: a return in progress is one. -/
def Value.toExit : Value → Except Value Value
  | .returned v => .error v
  | v => .ok v

/-- The result of a statement where there are exits. -/
def Stmt.toExit : Option Value → Except Value (Option Value)
  | some (.returned v) => .error v
  | result => .ok result

theorem Value.toExit_of_plain {v : Value} (plain : v.isReturned = false) : v.toExit = .ok v := by
  cases v with
  | returned v => cases plain
  | _ => rfl

theorem ValueSignal.toExit_eq {result : Except Value Value} {v : Value}
    (represents : ValueSignal region result v) : v.toExit = result := by
  cases represents with
  | value settled => exact Value.toExit_of_plain settled.plain
  | exit _ => rfl

theorem StmtSignal.toExit_eq {result : Except Value (Option Value)} {o : Option Value}
    (represents : StmtSignal region result o) : Stmt.toExit o = result := by
  cases represents with
  | exit _ => rfl
  | result all =>
    unfold Stmt.toExit
    split
    · exact absurd (all _ rfl).plain (by simp [Value.isReturned])
    · rfl

theorem NoExit.ok_eq {good : α → Prop} {result : Except Value α} {a : α}
    (represents : NoExit good result a) : .ok a = result := by
  cases represents with
  | result _ => rfl

theorem Simulates.eq {signal : Except Value α → β → Prop} {action : Action β}
    {exiting : Exiting α} {scopes : Scopes} (same : Simulates region signal action exiting)
    (settled : Settled region scopes) (decode : β → Except Value α)
    (decodes : ∀ {result b}, signal result b → decode b = result) :
    (decode <$> action) scopes = exiting.run scopes := by
  have found := same scopes settled
  rw [← bind_pure_comp]
  generalize ran : action scopes = run at found
  generalize exiting.run scopes = run' at found ⊢
  cases found with
  | stopped reason events _ => rw [Action.bind_of_error ran]
  | done events represents _ =>
    rw [Action.bind_of_ok ran]
    simp [Action.pure_apply, decodes represents]

theorem simulates_program (depth : Nat) {scope : ScopeId} (inside : region scope)
    (program : Program) :
    Simulates region (NoExit fun _ => True) (Eval.program depth scope program)
      (Exit.program depth scope program) := by
  have same := simulates_top (simulates_call depth) inside none program.statements
  have whole : Eval.program depth scope program =
      Eval.top (Eval.call depth) scope none program.statements >>= fun result => pure (id result) :=
    (bind_pure _).symm
  rw [whole]
  refine same.handle id some ?_ ?_
  · intro v b represents
    cases represents with
    | exit _ => exact ⟨rfl, trivial⟩
  · intro a b represents
    cases represents with
    | result _ => exact ⟨rfl, trivial⟩

theorem Value.Untainted.settled {scopes : Scopes} {starts : ScopeId → Prop} {v : Value}
    (untainted : v.Untainted scopes)
    (started : ∀ closure, v = .function closure → starts closure.scope) :
    v.Settled (scopes.Region starts) := by
  refine ⟨untainted.plain, fun closure same => ?_⟩
  exact .inl ⟨closure.scope, started closure same, .start⟩

/-- From scopes in which no return in progress can be reached, evaluation does what evaluation with
exits does: of programs and all their parts and of calls, at every depth. -/
theorem eval_eq_exit (depth : Nat) (scopes : Scopes) :
    (∀ {scope : ScopeId}, scopes.Untainted scope →
      (∀ program : Program, (Except.ok <$> Eval.program depth scope program) scopes =
        (Exit.program depth scope program).run scopes) ∧
      (∀ s : Stmt, (Stmt.toExit <$> Eval.stmt (Eval.call depth) scope s) scopes =
        (Exit.stmt (Exit.call depth) scope s).run scopes) ∧
      (∀ b : Block, (Value.toExit <$> Eval.block (Eval.call depth) scope b) scopes =
        (Exit.block (Exit.call depth) scope b).run scopes) ∧
      ∀ e : Expr, (Value.toExit <$> Eval.expr (Eval.call depth) scope e) scopes =
        (Exit.expr (Exit.call depth) scope e).run scopes) ∧
    ∀ {callee : Value} {args : List Value}, callee.Untainted scopes →
      (∀ arg ∈ args, arg.Untainted scopes) →
      (Except.ok <$> Eval.call depth callee args) scopes =
        (Exit.call depth callee args).run scopes := by
  refine ⟨?_, ?_⟩
  · intro scope untainted
    have settled := @Scopes.Untainted.settled scopes (· = scope) fun start same => same ▸ untainted
    have inside : scopes.Region (· = scope) scope := .inl ⟨scope, rfl, .start⟩
    have calls := @simulates_call (scopes.Region (· = scope)) depth
    refine ⟨fun program => ?_, fun s => ?_, fun b => ?_, fun e => ?_⟩
    · exact (simulates_program depth inside program).eq settled _ NoExit.ok_eq
    · exact (simulates_stmt calls inside s).eq settled _ StmtSignal.toExit_eq
    · exact (simulates_block calls inside b).eq settled _ ValueSignal.toExit_eq
    · exact (simulates_expr calls inside e).eq settled _ ValueSignal.toExit_eq
  · intro callee args untainted all
    -- A call starts in the scopes of the functions among the callee and its arguments.
    let starts (id : ScopeId) : Prop :=
      ∃ closure, .function closure ∈ callee :: args ∧ closure.scope = id
    have settled := @Scopes.Untainted.settled scopes starts fun start ⟨closure, member, same⟩ => by
      rcases List.mem_cons.mp member with here | there
      · exact same ▸ untainted.inside closure here.symm
      · exact same ▸ (all _ there).inside closure rfl
    refine (simulates_call depth ?_ ?_).eq settled _ NoExit.ok_eq
    · exact untainted.settled fun closure same => ⟨closure, same ▸ List.mem_cons_self .., rfl⟩
    · intro arg member
      refine (all arg member).settled fun closure same => ⟨closure, ?_, rfl⟩
      exact same ▸ List.mem_cons_of_mem _ member

/-- One scope that binds nothing, and another one that is out of its reach and binds a return in
progress. -/
def twoScopes : Scopes :=
  ⟨#[⟨.empty, none⟩, ⟨Bindings.empty.insert "r" (.returned .null), none⟩]⟩

theorem untainted_twoScopes : twoScopes.Untainted 0 := by
  have only {id : ScopeId} (reaches : twoScopes.Reaches 0 id) : id = 0 := by
    induction reaches with
    | start => rfl
    | outer _ there around _ ih =>
      subst ih
      cases there
      cases around
    | function _ there own ih =>
      subst ih
      cases there
      cases own
  intro id scope name value reaches there own
  cases only reaches
  cases there
  cases own

/-- `return 1 + if (true) return 2`, the inner return in a block, and `len("")`. -/
theorem eval_eq_exit_of_nested_return :
    twoScopes.Untainted 0 ∧
    (Except.ok <$> Eval.program 1 0 ⟨[.ret .returnWord (.infixOp (.int 1) .plus
        (.ifElse (.bool true) (.mk .lbrace [.ret .returnWord (.int 2)]) none))]⟩ :
          Action (Except Value (Option Value))) twoScopes =
      ⟨.ok (.ok (some (.int 2))), twoScopes, []⟩ ∧
    (Value.builtin .len).Untainted twoScopes ∧ (Value.str "").Untainted twoScopes ∧
    (Except.ok <$> Eval.call 1 (.builtin .len) [.str ""]) twoScopes =
      (Exit.call 1 (.builtin .len) [.str ""]).run twoScopes := by
  obtain ⟨trees, calls⟩ := eval_eq_exit 1 twoScopes
  have len : (Value.builtin .len).Untainted twoScopes := ⟨rfl, nofun⟩
  have empty : (Value.str "").Untainted twoScopes := ⟨rfl, nofun⟩
  refine ⟨untainted_twoScopes, (trees untainted_twoScopes).1 _, len, empty, calls len ?_⟩
  exact fun arg member => List.mem_singleton.mp member ▸ empty

end TreeWalk
