import TreeWalk.Proofs.Domain
import TreeWalk.Session

/-!
# First-class values

The evaluator represents a return in progress by a value, and the answer of a program that failed by
another.  Neither can be got hold of in the language: no name ever stands for one, none is ever an
argument, and a return never returns a return.

Results:
1. first-class values are a closed domain (`Domain.firstClass_closed`);
2. so at every moment of a session, names stand for first-class values only
   (`Scopes.Moment.firstClass`);
3. hence no signal is ever bound, handed to a function or wrapped in another one
   (`signals_never_first_class`).
-/

namespace TreeWalk

/-! ## Values -/

/-- The value is no return in progress and no error. -/
def Value.FirstClass : Value → Prop
  | .returned _ | .error _ => False
  | _ => True

namespace Value

theorem FirstClass.isReturned {v : Value} (firstClass : v.FirstClass) : v.isReturned = false := by
  cases v with
  | returned _ => cases firstClass
  | _ => rfl

theorem IsScalar.firstClass {v : Value} (scalar : v.IsScalar) : v.FirstClass := by
  cases v with
  | int _ | bool _ | str _ => trivial
  | _ => cases scalar

end Value

/-! ## The domain -/

/-- First-class values, whatever trees they come of and whatever errors there are. -/
def Domain.firstClass : Domain where
  value := Value.FirstClass
  error _ := True
  expr _ := True
  stmt _ := True
  block _ := True

theorem Domain.firstClass_closed : firstClass.Closed where
  plain := Value.FirstClass.isReturned
  scalar := Value.IsScalar.firstClass
  null := trivial
  builtin _ := trivial
  unrelated _ := trivial
  prefixOp _ := ⟨trivial, fun _ => trivial⟩
  infixOp _ := ⟨trivial, trivial, fun _ => trivial⟩
  ifElse _ := ⟨trivial, trivial, fun _ _ => trivial⟩
  fn _ _ := trivial
  body _ := trivial
  call _ := ⟨trivial, fun _ _ => trivial⟩
  bind _ := trivial
  ret _ := trivial
  exprStmt _ := trivial
  stmts _ _ _ := trivial

/-! ## Sessions -/

/-- The scopes after programs have been evaluated one after another in one scope, whatever became of
each of them. -/
def Eval.programs (depth : Nat) (scope : ScopeId) (programs : List Program) (scopes : Scopes) :
    Scopes :=
  programs.foldl (fun scopes program => (Eval.program depth scope program scopes).scopes) scopes

/-- Scopes as they can be at some moment of a session that began afresh.  Each part of a program is
evaluated in the scopes in which the whole of it began, in those that a part before it has left, or,
if it is the body of a function, in those in which the parameters have just been bound. -/
inductive Scopes.Moment : Scopes → Prop
  | fresh : Moment Session.fresh.scopes
  | program {scopes : Scopes} (depth : Nat) (scope : ScopeId) (program : Program) :
      Moment scopes → Moment (Eval.program depth scope program scopes).scopes
  | stmt {scopes : Scopes} (depth : Nat) (scope : ScopeId) (s : Stmt) :
      Moment scopes → Moment (Eval.stmt (Eval.call depth) scope s scopes).scopes
  | expr {scopes : Scopes} (depth : Nat) (scope : ScopeId) (e : Expr) :
      Moment scopes → Moment (Eval.expr (Eval.call depth) scope e scopes).scopes
  | body {scopes scopes' : Scopes} (depth : Nat) (scope : ScopeId) (es : List Expr)
      (closure : Closure) {args : List Value} {events : List Event} :
      Moment scopes →
      Eval.exprs (Eval.call depth) scope es scopes = ⟨.ok (.ok args), scopes', events⟩ →
      Moment (Eval.bindParams scopes'.size closure.params args
        (scopes'.push (some closure.scope))).scopes

theorem Scopes.binds_fresh {good : Value → Prop} : Session.fresh.scopes.BindsOnly good := by
  have nothing : Scopes.empty.BindsOnly good := .empty
  exact nothing.push none

/-- After programs of a domain, names stand for its values only. -/
theorem Domain.Closed.after_programs {d : Domain} (closed : d.Closed) (depth : Nat)
    (scope : ScopeId) {programs : List Program}
    (inside : ∀ program ∈ programs, ∀ s ∈ program.statements, d.stmt s) {scopes : Scopes}
    (binds : scopes.BindsOnly d.value) :
    (Eval.programs depth scope programs scopes).BindsOnly d.value := by
  induction programs generalizing scopes with
  | nil => exact binds
  | cons program programs ih =>
    obtain ⟨first, rest⟩ := List.forall_mem_cons.mp inside
    exact ih rest ((closed.keeps_program depth scope first).after binds)

theorem Scopes.Moment.firstClass {scopes : Scopes} (moment : scopes.Moment) :
    scopes.BindsOnly Value.FirstClass := by
  have closed := Domain.firstClass_closed
  induction moment with
  | fresh => exact binds_fresh
  | program depth scope program _ ih =>
    exact (closed.keeps_program depth scope fun _ _ => trivial).after ih
  | stmt depth scope s _ ih =>
    exact (closed.keeps_stmt (closed.keeps_call depth) scope s trivial).after ih
  | expr depth scope e _ ih =>
    exact (closed.keeps_expr (closed.keeps_call depth) scope e trivial).after ih
  | @body scopes scopes' depth scope es closure args events _ ran ih =>
    have keeps := closed.keeps_exprs (closed.keeps_call depth) scope es fun _ _ => trivial
    obtain ⟨binds, areValues⟩ := (keeps scopes ih).done (.ok args) (congrArg Run.outcome ran)
    rw [ran] at binds
    exact (Domain.Keeps.bindParams _ closure.params areValues).after (binds.push _)

/-- The value of an answer is first-class, unless the program failed: then it is the error. -/
theorem Run.answer_cases {run : Run (Option Value)}
    (firstClass : ∀ v, run.outcome = .ok (some v) → v.FirstClass) {v : Value}
    (answers : run.answer = .result (some v)) :
    v.FirstClass ∨ ∃ e, v = .error e ∧ run.outcome = .error (.error e) := by
  unfold answer at answers
  split at answers
  · next ran =>
    cases answers
    exact .inl (firstClass v ran)
  · next e ran =>
    cases answers
    exact .inr ⟨e, rfl, ran⟩
  · cases answers

/-- After any programs of a session, no name stands for a signal, and none was handed to a function.
The answer is no return, and an error only if one stopped the program.  A return never wraps
another. -/
theorem signals_never_first_class (depth : Nat) :
    (∀ (before : List Program) (program : Program),
      let run := Eval.program depth Session.fresh.scope program
        (Eval.programs depth Session.fresh.scope before Session.fresh.scopes)
      (∀ {id s name v}, run.scopes.scope? id = some s → s.bindings.get? name = some v →
        v.FirstClass) ∧
      (∀ {callee args}, .applied callee args ∈ run.events → ∀ arg ∈ args, arg.FirstClass) ∧
      (∀ {v}, run.answer = .result (some v) → v.isReturned = false) ∧
      ∀ {e}, run.answer = .result (some (.error e)) ↔ run.outcome = .error (.error e)) ∧
    ∀ {moment : Scopes}, moment.Moment → ∀ scope,
      (∀ {e v}, (Eval.expr (Eval.call depth) scope e moment).outcome = .ok (.returned v) →
        v.isReturned = false) ∧
      (∀ {s v}, (Eval.stmt (Eval.call depth) scope s moment).outcome = .ok (some (.returned v)) →
        v.isReturned = false) ∧
      ∀ {b v}, (Eval.block (Eval.call depth) scope b moment).outcome = .ok (.returned v) →
        v.isReturned = false := by
  have closed := Domain.firstClass_closed
  have calls := closed.keeps_call depth
  refine ⟨fun before program => ?_, fun isMoment scope => ?_⟩
  · have binds : (Eval.programs depth Session.fresh.scope before
        Session.fresh.scopes).BindsOnly Value.FirstClass :=
      closed.after_programs depth Session.fresh.scope (fun _ _ _ _ => trivial) Scopes.binds_fresh
    have keeps : Domain.firstClass.Keeps (fun result => ∀ v ∈ result, v.FirstClass)
        (Eval.program depth Session.fresh.scope program) :=
      closed.keeps_program depth Session.fresh.scope fun _ _ => trivial
    obtain ⟨handed, _, done⟩ := keeps _ binds
    intro run
    have plain (v : Value) (ran : run.outcome = .ok (some v)) : v.FirstClass := (done _ ran).2 v rfl
    refine ⟨(keeps.after binds).bound, fun there => handed _ there, fun isV => ?_,
      ⟨fun isError => ?_, fun ran => ?_⟩⟩
    · rcases Run.answer_cases plain isV with plain | ⟨_, rfl, _⟩
      · exact plain.isReturned
      · rfl
    · rcases Run.answer_cases plain isError with plain | ⟨_, same, ran⟩
      · cases plain
      · cases same
        exact ran
    · rw [Run.answer, ran]
  · have binds := isMoment.firstClass
    refine ⟨fun {e v} yields => ?_, fun {s v} yields => ?_, fun {b v} yields => ?_⟩
    · have meets := closed.keeps_expr calls scope e trivial _ binds
      exact closed.plain (meets.done _ yields).2
    · have meets := closed.keeps_stmt calls scope s trivial _ binds
      exact closed.plain ((meets.done _ yields).2 _ rfl)
    · have meets := closed.keeps_block calls scope b trivial _ binds
      exact closed.plain (meets.done _ yields).2

/-- `if (true) { return 1 }` -/
def earlyReturn : Expr :=
  .ifElse (.bool true) (.mk .lbrace [.ret .returnWord (.int 1)]) none

/-- The early return is no value for `x` in `let x = if (true) { return 1 };`, and its own value is
the answer. -/
theorem signals_never_first_class_of_early_return :
    Session.fresh.scopes.Moment ∧
    (Eval.expr (Eval.call 0) 0 earlyReturn Session.fresh.scopes).outcome =
      .ok (.returned (.int 1)) ∧
    (Value.int 1).isReturned = false ∧
    (Eval.program 0 0 ⟨[.bind .letWord (.ofName "x") earlyReturn]⟩ Session.fresh.scopes).answer =
      .result (some (.int 1)) := by
  obtain ⟨_, inside⟩ := signals_never_first_class 0
  have yields : (Eval.expr (Eval.call 0) 0 earlyReturn Session.fresh.scopes).outcome =
      .ok (.returned (.int 1)) := rfl
  exact ⟨.fresh, yields, (inside .fresh 0).1 yields, rfl⟩

end TreeWalk
