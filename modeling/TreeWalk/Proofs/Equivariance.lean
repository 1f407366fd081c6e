import TreeWalk.Proofs.Translation
import TreeWalk.Session

/-!
# Evaluation and translations

The translation of a program does in mirrored scopes what the program does in the scopes that they
mirror, translated.  So evaluation depends neither on the tokens of expression statements nor on the
numbers of scopes, and on names only as far as they tell one thing from another.

Results:
1. one step: what is put together from actions that are mirrored is mirrored
   (`Translation.Carries.bind`), and so are names, operators and built-in functions
   (`Translation.carries_name`, `Translation.prefixOp_value`, `Translation.infixOp_value`,
   `Translation.carries_builtin`);
2. by induction on the tree and on the depth of calls, the translation of a program is mirrored
   (`Translation.carries_expr`, `Translation.carries_call`, `Translation.carries_program`);
3. if names stay and functions are written as before, the two runs stop for the same reason and
   print the same (`Translation.MirrorsRun.outcome_of_unseen`, `Translation.MirrorsRun.printed`);
4. if scopes can be translated as well, translation commutes with evaluation
   (`Translation.Carries.commutes`).
-/

namespace TreeWalk

namespace Translation

variable (t : Translation) {α β γ δ : Type}

/-! ## Mirrored actions -/

/-- The translation of what comes of an action. -/
def outcome (f : α → β) : Except Stop α → Except Stop β
  | .error reason => .error (t.stop reason)
  | .ok a => .ok (f a)

/-- `t.MirrorsRun f run run'`: the second run is the first one, translated, with `f` the translation
of its result. -/
structure MirrorsRun (f : α → β) (run : Run α) (run' : Run β) : Prop where
  outcome : run'.outcome = t.outcome f run.outcome
  scopes : t.Mirrors run.scopes run'.scopes
  events : run'.events = run.events.map t.event

/-- In mirrored scopes the second action does what the first one does, translated. -/
def Carries (f : α → β) (action : Action α) (action' : Action β) : Prop :=
  ∀ scopes scopes', t.Mirrors scopes scopes' → t.MirrorsRun f (action scopes) (action' scopes')

namespace Carries

variable {t}

theorem pure {f : α → β} {a : α} {b : β} (same : b = f a) :
    t.Carries f (Pure.pure a) (Pure.pure b) := by
  subst same
  exact fun _ _ mirrors => ⟨rfl, mirrors, rfl⟩

theorem stop {f : α → β} {reason reason' : Stop} (same : reason' = t.stop reason) :
    t.Carries f (Action.stop reason) (Action.stop reason') := by
  subst same
  exact fun _ _ mirrors => ⟨rfl, mirrors, rfl⟩

theorem emit {event event' : Event} (same : event' = t.event event) :
    t.Carries id (Action.emit event) (Action.emit event') := by
  subst same
  exact fun _ _ mirrors => ⟨rfl, mirrors, rfl⟩

theorem bind {f : α → β} {g : γ → δ} {action : Action α} {action' : Action β}
    {next : α → Action γ} {next' : β → Action δ} (first : t.Carries f action action')
    (second : ∀ a, t.Carries g (next a) (next' (f a))) :
    t.Carries g (action >>= next) (action' >>= next') := by
  intro scopes scopes' mirrors
  obtain ⟨outcome, after, events⟩ := first scopes scopes' mirrors
  rcases ran : action scopes with ⟨reason | a, mid, before⟩ <;>
    rcases ran' : action' scopes' with ⟨result, mid', before'⟩ <;>
    simp only [ran, ran'] at outcome after events <;> cases outcome
  · rw [Action.bind_of_error ran, Action.bind_of_error ran']
    exact ⟨rfl, after, events⟩
  · rw [Action.bind_of_ok ran, Action.bind_of_ok ran']
    obtain ⟨outcome, last, more⟩ := second a mid mid' after
    exact ⟨outcome, last, by rw [events, more, List.map_append]⟩

theorem find? (name : String) (scope : ScopeId) :
    t.Carries (Option.map t.value) (Action.find? name scope)
      (Action.find? (t.name name) (t.scope scope)) :=
  fun _ _ mirrors => ⟨congrArg Except.ok (mirrors.find? name scope), mirrors, rfl⟩

theorem bindName (scope : ScopeId) (name : String) (v : Value) :
    t.Carries id (Action.bindName scope name v)
      (Action.bindName (t.scope scope) (t.name name) (t.value v)) :=
  fun _ _ mirrors => ⟨rfl, mirrors.bind scope name v, rfl⟩

theorem newScope (outer : ScopeId) :
    t.Carries t.scope (Action.newScope outer) (Action.newScope (t.scope outer)) :=
  fun _ _ mirrors => ⟨congrArg Except.ok (mirrors.fresh 0).symm, mirrors.push (some outer), rfl⟩

theorem ofExcept {f : α → β} {result : Except EvalError α} {result' : Except EvalError β}
    (same : result' = (result.mapError t.error).map f) :
    t.Carries f (Action.ofExcept result) (Action.ofExcept result') := by
  subst same
  cases result with
  | error e => exact stop rfl
  | ok a => exact pure rfl

end Carries

/-! ## Names, operators and built-in functions -/

theorem carries_name (scope : ScopeId) (ident : Ident) :
    t.Carries t.value (Eval.name scope ident) (Eval.name (t.scope scope) (t.ident ident)) := by
  unfold Eval.name
  rw [t.name_ident]
  refine (Carries.find? ident.name scope).bind fun found => ?_
  cases found with
  | some v => exact .pure rfl
  | none =>
    simp only [Option.map_none, t.builtin]
    cases Builtin.ofName? ident.name with
    | some builtin => exact .pure rfl
    | none => exact .stop rfl

theorem prefixOp_value (op : Operator) (v : Value) :
    (t.value v).prefixOp op = ((v.prefixOp op).mapError t.error).map t.value := by
  cases op <;> cases v <;> rfl

theorem intOp_value (op : Operator) (m n : Int64) :
    Value.intOp m op n = ((Value.intOp m op n).mapError t.error).map t.value := by
  cases op with
  | slash =>
    simp only [Value.intOp]
    split <;> rfl
  | _ => rfl

/-- An error about operands tells their types, which are those of their translations. -/
theorem infixOp_value (left : Value) (op : Operator) (right : Value) :
    (t.value left).infixOp op (t.value right) =
      ((left.infixOp op right).mapError t.error).map t.value := by
  cases left <;> cases right
  case int.int m n => exact t.intOp_value op m n
  all_goals cases op <;> rfl

theorem len_value (args : List Value) :
    Eval.len (args.map t.value) = ((Eval.len args).mapError t.error).map t.value := by
  have tooMany (a b : Value) (rest : List Value) :
      Eval.len (a :: b :: rest) = .error (.wrongArity (rest.length + 2) 1) := by
    cases a <;> rfl
  match args with
  | [] => rfl
  | [arg] => cases arg <;> rfl
  | a :: b :: rest =>
    rw [List.map_cons, List.map_cons, tooMany, tooMany, List.length_map]
    rfl

theorem carries_puts (values : List Value) :
    t.Carries t.value (Eval.puts values) (Eval.puts (values.map t.value)) := by
  induction values with
  | nil => exact .pure rfl
  | cons v values ih => exact (Carries.emit rfl).bind fun _ => ih

theorem carries_builtin (function : Builtin) (args : List Value) :
    t.Carries t.value (Eval.builtin function args) (Eval.builtin function (args.map t.value)) := by
  cases function with
  | len => exact .ofExcept (t.len_value args)
  | puts => exact t.carries_puts args

/-! ## Trees -/

/-- The translation of arguments, or of the return in progress that stands in their place. -/
def args : Except Value (List Value) → Except Value (List Value)
  | .error signal => .error (t.value signal)
  | .ok values => .ok (values.map t.value)

/-- Applying the translation of a value is mirrored. -/
def Applies (apply : Value → List Value → Action Value) : Prop :=
  ∀ callee args, t.Carries t.value (apply callee args) (apply (t.value callee) (args.map t.value))

variable {t}

theorem Carries.unlessReturned {action action' : Action Value} {next next' : Value → Action Value}
    (first : t.Carries t.value action action')
    (second : ∀ v, t.Carries t.value (next v) (next' (t.value v))) :
    t.Carries t.value (action >>= fun v => Eval.unlessReturned v (next v))
      (action' >>= fun v => Eval.unlessReturned v (next' v)) := by
  refine first.bind fun v => ?_
  unfold Eval.unlessReturned
  rw [t.isReturned_value]
  split
  · exact .pure rfl
  · exact second v

section

variable {apply : Value → List Value → Action Value}

mutual

theorem carries_expr (applies : t.Applies apply) (scope : ScopeId) :
    ∀ e : Expr, t.Carries t.value (Eval.expr apply scope e)
      (Eval.expr apply (t.scope scope) (e.map t.ident t.kept))
  | .ident ident => by
    unfold Expr.map Eval.expr
    exact t.carries_name scope ident
  | .int n | .str s | .bool b | .fn params body => by
    unfold Expr.map Eval.expr
    exact .pure rfl
  | .prefixOp op right => by
    unfold Expr.map Eval.expr
    refine (carries_expr applies scope right).unlessReturned fun r => ?_
    exact .ofExcept (t.prefixOp_value op r)
  | .infixOp left op right => by
    unfold Expr.map Eval.expr
    refine (carries_expr applies scope left).unlessReturned fun l => ?_
    refine (carries_expr applies scope right).unlessReturned fun r => ?_
    exact .ofExcept (t.infixOp_value l op r)
  | .ifElse cond yes no => by
    unfold Expr.map Eval.expr
    refine (carries_expr applies scope cond).unlessReturned fun c => ?_
    rw [t.truthy_value]
    split
    · exact carries_block applies scope yes
    · exact carries_branch applies scope no
  | .call callee args => by
    unfold Expr.map Eval.expr
    refine (carries_expr applies scope callee).unlessReturned fun f => ?_
    refine (carries_exprs applies scope args).bind fun values => ?_
    cases values with
    | error signal => exact .pure rfl
    | ok values => exact applies f values

theorem carries_exprs (applies : t.Applies apply) (scope : ScopeId) :
    ∀ es : List Expr, t.Carries t.args (Eval.exprs apply scope es)
      (Eval.exprs apply (t.scope scope) (Expr.mapList t.ident t.kept es))
  | [] => by
    unfold Expr.mapList Eval.exprs
    exact .pure rfl
  | e :: es => by
    unfold Expr.mapList Eval.exprs
    refine (carries_expr applies scope e).bind fun v => ?_
    rw [t.isReturned_value]
    split
    · exact .pure rfl
    · refine (carries_exprs applies scope es).bind fun values => ?_
      cases values <;> exact .pure rfl

theorem carries_branch (applies : t.Applies apply) (scope : ScopeId) :
    ∀ no : Option Block, t.Carries t.value (Eval.branch apply scope no)
      (Eval.branch apply (t.scope scope) (Block.mapBranch t.ident t.kept no))
  | none => by
    unfold Block.mapBranch Eval.branch
    exact .pure rfl
  | some no => by
    unfold Block.mapBranch Eval.branch
    exact carries_block applies scope no

theorem carries_stmt (applies : t.Applies apply) (scope : ScopeId) :
    ∀ s : Stmt, t.Carries (Option.map t.value) (Eval.stmt apply scope s)
      (Eval.stmt apply (t.scope scope) (s.map t.ident t.kept))
  | .bind _ ident value => by
    unfold Stmt.map Eval.stmt
    refine (carries_expr applies scope value).bind fun v => ?_
    rw [t.isReturned_value, t.name_ident]
    split
    · exact .pure rfl
    · exact (Carries.bindName scope ident.name v).bind fun _ => .pure rfl
  | .ret _ value => by
    unfold Stmt.map Eval.stmt
    refine (carries_expr applies scope value).bind fun v => ?_
    rw [t.isReturned_value]
    split <;> exact .pure rfl
  | .expr _ value => by
    unfold Stmt.map Eval.stmt
    exact (carries_expr applies scope value).bind fun v => .pure rfl

theorem carries_stmts (applies : t.Applies apply) (scope : ScopeId) (last : Value) :
    ∀ ss : List Stmt, t.Carries t.value (Eval.stmts apply scope last ss)
      (Eval.stmts apply (t.scope scope) (t.value last) (Stmt.mapList t.ident t.kept ss))
  | [] => by
    unfold Stmt.mapList Eval.stmts
    exact .pure rfl
  | s :: ss => by
    unfold Stmt.mapList Eval.stmts
    refine (carries_stmt applies scope s).bind fun result => ?_
    have same : (result.map t.value).getD .null = t.value (result.getD .null) := by
      cases result <;> rfl
    simp only [same, Eval.unlessReturned, t.isReturned_value]
    split
    · exact .pure rfl
    · exact carries_stmts applies scope (result.getD .null) ss

theorem carries_block (applies : t.Applies apply) (scope : ScopeId) :
    ∀ b : Block, t.Carries t.value (Eval.block apply scope b)
      (Eval.block apply (t.scope scope) (b.map t.ident t.kept))
  | .mk _ statements => by
    unfold Block.map Eval.block
    exact carries_stmts applies scope .null statements

end

theorem carries_top (applies : t.Applies apply) (scope : ScopeId) (last : Option Value)
    (ss : List Stmt) :
    t.Carries (Option.map t.value) (Eval.top apply scope last ss)
      (Eval.top apply (t.scope scope) (last.map t.value) (Stmt.mapList t.ident t.kept ss)) := by
  induction ss generalizing last with
  | nil =>
    unfold Stmt.mapList Eval.top
    exact .pure rfl
  | cons s ss ih =>
    unfold Stmt.mapList Eval.top
    refine (carries_stmt applies scope s).bind fun result => ?_
    cases result with
    | none => exact ih none
    | some v =>
      cases v with
      | returned v => exact .pure rfl
      | _ => exact ih (some _)

end

/-! ## Calls -/

theorem carries_bindParams (scope : ScopeId) (params : List Ident) (args : List Value) :
    t.Carries id (Eval.bindParams scope params args)
      (Eval.bindParams (t.scope scope) (params.map t.ident) (args.map t.value)) := by
  induction params generalizing args with
  | nil => exact .pure rfl
  | cons param params ih =>
    cases args with
    | nil => exact .pure rfl
    | cons arg args =>
      simp only [List.map_cons, Eval.bindParams, t.name_ident]
      exact (Carries.bindName scope param.name arg).bind fun _ => ih args

theorem applies_applyWith {body : ScopeId → Block → Action Value}
    (bodies : ∀ scope b,
      t.Carries t.value (body scope b) (body (t.scope scope) (b.map t.ident t.kept))) :
    t.Applies (Eval.applyWith body) := by
  intro callee args
  refine (Carries.emit rfl).bind fun _ => ?_
  cases callee with
  | function closure =>
    show t.Carries t.value (if closure.params.length = args.length then _ else _)
      (if (closure.params.map t.ident).length = (args.map t.value).length then _ else
        Action.stop (.error (.wrongArity (args.map t.value).length
          (closure.params.map t.ident).length)))
    rw [List.length_map, List.length_map]
    split
    · refine (Carries.newScope closure.scope).bind fun scope => ?_
      refine (carries_bindParams scope closure.params args).bind fun _ => ?_
      exact (bodies scope closure.body).bind fun v => .pure (t.unwrap_value v)
    · exact .stop rfl
  | builtin function => exact t.carries_builtin function args
  | returned v => exact .stop rfl
  | _ => exact .stop rfl

theorem carries_call (depth : Nat) : t.Applies (Eval.call depth) := by
  induction depth with
  | zero => exact applies_applyWith fun _ _ => .stop rfl
  | succ depth ih => exact applies_applyWith fun scope b => carries_block ih scope b

theorem carries_program (depth : Nat) (scope : ScopeId) (program : Program) :
    t.Carries (Option.map t.value) (Eval.program depth scope program)
      (Eval.program depth (t.scope scope) (program.map t.ident t.kept)) :=
  carries_top (carries_call depth) scope none program.statements

/-! ## Translated runs -/

/-- The translation of a run, with `f` that of its result and `g` that of the scopes after it. -/
def run (t : Translation) (f : α → β) (g : Scopes → Scopes) (run : Run α) : Run β :=
  ⟨t.outcome f run.outcome, g run.scopes, run.events.map t.event⟩

/-- If the translation of scopes mirrors them, it commutes with what is carried. -/
theorem Carries.commutes {f : α → β} {g : Scopes → Scopes} {action : Action α} {action' : Action β}
    (carries : t.Carries f action action') (onto : Function.Surjective t.scope)
    (mirrors : ∀ scopes, t.Mirrors scopes (g scopes)) (scopes : Scopes) :
    action' (g scopes) = t.run f g (action scopes) := by
  obtain ⟨outcome, after, events⟩ := carries scopes (g scopes) (mirrors scopes)
  have sameScopes := after.unique onto (mirrors _)
  rw [run, ← outcome, ← sameScopes, ← events]

/-! ## What is seen of a run -/

theorem Unseen.outcome_eq (unseen : t.Unseen) (f : α → β) (result : Except Stop α) :
    t.outcome f result = result.map f := by
  cases result with
  | error reason => exact congrArg Except.error (unseen.stop_eq reason)
  | ok a => rfl

namespace MirrorsRun

variable {f : α → β} {run : Run α} {run' : Run β}

theorem outcome_of_unseen (mirrors : t.MirrorsRun f run run') (unseen : t.Unseen) :
    run'.outcome = run.outcome.map f :=
  mirrors.outcome.trans (unseen.outcome_eq f run.outcome)

theorem printed (mirrors : t.MirrorsRun f run run') (unseen : t.Unseen) :
    run'.printed = run.printed := by
  have same (event : Event) : (t.event event).output = event.output := by
    cases event with
    | applied callee args => rfl
    | printed v => exact congrArg (· ++ "\n") (unseen.text_value v)
  rw [Run.printed, mirrors.events, List.map_map]
  exact congrArg String.join (List.map_congr_left fun event _ => same event)

end MirrorsRun

end Translation

end TreeWalk
