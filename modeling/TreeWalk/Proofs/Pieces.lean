import Mathlib
import TreeWalk.Proofs.Joining
import TreeWalk.Session

/-!
# Programs in pieces

A text may be evaluated as a whole or, if it is joined from pieces, piece by piece in one scope.
That comes to the same, as long as it is known when to stop: a program stops at an error and at a
return, and so must the sequence of its pieces.

Results:
1. one step: a statement either ends its program early, whatever follows, or hands over to what
   follows (`Eval.top_cons_cases`);
2. hence what is evaluated of statements that are put together is what is evaluated of the first
   ones and, unless these end early, of the others (`Eval.top_append`);
3. by induction on the pieces, a text is evaluated as its pieces are in turn (`eval_intercalate`).
-/

namespace TreeWalk

/-- A run with other events before its own. -/
def Run.behind {α : Type} (run : Run α) (events : List Event) : Run α :=
  { run with events := events ++ run.events }

theorem Run.behind_append {α : Type} (run : Run α) (before events : List Event) :
    run.behind (before ++ events) = (run.behind events).behind before :=
  congrArg (Run.mk _ _) (List.append_assoc ..)

namespace Eval

variable (depth : Nat) (scope : ScopeId)

/-- Whether some statement of a program stops or returns, so that nothing after it is evaluated. -/
def endsEarly : List Stmt → Scopes → Bool
  | [], _ => false
  | s :: ss, scopes =>
    match stmt (call depth) scope s scopes with
    | ⟨.error _, _, _⟩ => true
    | ⟨.ok (some (.returned _)), _, _⟩ => true
    | ⟨.ok _, scopes', _⟩ => endsEarly ss scopes'

/-- Programs evaluated one after another, up to the first that ends early.  The result is that of
the last one evaluated. -/
def inTurn : List Program → Action (Option Value)
  | [] => pure none
  | [p] => program depth scope p
  | p :: q :: more => fun scopes =>
    let run := program depth scope p scopes
    if endsEarly depth scope p.statements scopes then run
    else (inTurn (q :: more) run.scopes).behind run.events

theorem top_cons_cases (s : Stmt) (scopes : Scopes) :
    (∃ run, ∀ last ss, endsEarly depth scope (s :: ss) scopes = true ∧
      top (call depth) scope last (s :: ss) scopes = run) ∨
    ∃ result scopes' events, ∀ last ss,
      endsEarly depth scope (s :: ss) scopes = endsEarly depth scope ss scopes' ∧
      top (call depth) scope last (s :: ss) scopes =
        (top (call depth) scope result ss scopes').behind events := by
  rcases ran : stmt (call depth) scope s scopes with ⟨reason | result, scopes', events⟩
  · refine .inl ⟨⟨.error reason, scopes', events⟩, fun last ss => ⟨?_, ?_⟩⟩
    · rw [endsEarly, ran]
    · rw [top, Action.bind_of_error ran]
  · by_cases returned : ∃ v, result = some (.returned v)
    · obtain ⟨v, rfl⟩ := returned
      refine .inl ⟨⟨.ok (some v), scopes', events⟩, fun last ss => ⟨?_, ?_⟩⟩
      · rw [endsEarly, ran]
      · rw [top, Action.bind_of_ok ran]
        exact congrArg (Run.mk _ _) (List.append_nil events)
    · refine .inr ⟨result, scopes', events, fun last ss => ⟨?_, ?_⟩⟩
      · rw [endsEarly, ran]
        split
        · next same => cases same
        · next v _ _ same => exact absurd ⟨v, Except.ok.inj (Run.mk.inj same).1⟩ returned
        · next same =>
          cases same
          rfl
      · rw [top, Action.bind_of_ok ran, Run.behind]
        split
        · next v => exact absurd ⟨v, rfl⟩ returned
        · rfl

theorem top_append (last : Option Value) (ss : List Stmt) {rest : List Stmt} (some : rest ≠ [])
    (scopes : Scopes) :
    top (call depth) scope last (ss ++ rest) scopes =
      if endsEarly depth scope ss scopes then top (call depth) scope last ss scopes
      else (top (call depth) scope none rest (top (call depth) scope last ss scopes).scopes).behind
        (top (call depth) scope last ss scopes).events := by
  induction ss generalizing last scopes with
  | nil =>
    -- What was the last result so far does not matter to statements.
    cases rest with
    | nil => exact absurd rfl some
    | cons s rest => rfl
  | cons s ss ih =>
    rcases top_cons_cases depth scope s scopes with ⟨run, stops⟩ | ⟨result, scopes', events, goesOn⟩
    · rw [if_pos (stops last ss).1, List.cons_append, (stops last _).2, (stops last ss).2]
    · obtain ⟨ends, step⟩ := goesOn last ss
      rw [List.cons_append, (goesOn last _).2, ih, ends, step]
      split
      · rfl
      · exact (Run.behind_append ..).symm

theorem program_flatMap {programs : List Program} (some : ∀ p ∈ programs, p.statements ≠ []) :
    program depth scope ⟨programs.flatMap Program.statements⟩ = inTurn depth scope programs := by
  induction programs with
  | nil => rfl
  | cons p programs ih =>
    obtain ⟨_, later⟩ := List.forall_mem_cons.mp some
    cases programs with
    | nil =>
      rw [List.flatMap_singleton]
      rfl
    | cons q more =>
      have behind : (q :: more).flatMap Program.statements ≠ [] := by
        rw [List.flatMap_cons]
        exact List.append_ne_nil_of_left_ne_nil (later q (List.mem_cons_self ..)) _
      funext scopes
      rw [inTurn, ← ih later]
      exact top_append depth scope none p.statements behind scopes

end Eval

/-- Pieces that are joined by line feeds are read as the statements of one after another, and are
evaluated in turn, up to the first that ends early. -/
theorem eval_intercalate {texts : List String} (pieces : ∀ text ∈ texts, IsPiece text) :
    (Parse.ofText ("\n".intercalate texts)).diagnostics = [] ∧
    (Parse.ofText ("\n".intercalate texts)).program.statements =
      (texts.flatMap fun text => (Parse.ofText text).program.statements) ∧
    ∀ (depth : Nat) (scope : ScopeId),
      Eval.program depth scope (Parse.ofText ("\n".intercalate texts)).program =
        Eval.inTurn depth scope (texts.map fun text => (Parse.ofText text).program) := by
  have read := ofText_intercalate pieces
  rw [read]
  refine ⟨rfl, rfl, fun depth scope => ?_⟩
  have some : ∀ p ∈ texts.map fun text => (Parse.ofText text).program, p.statements ≠ [] := by
    intro p member
    obtain ⟨text, isPiece, rfl⟩ := List.mem_map.mp member
    exact (pieces text isPiece).readsOn.2
  rw [← Eval.program_flatMap depth scope some, List.flatMap_map]

/-- Nothing is evaluated behind `return true;`, so it does not matter that `x` is not bound. -/
theorem eval_intercalate_of_return :
    (∀ text ∈ ["return true;", "x;"], IsPiece text) ∧
    (Parse.ofText "return true;\nx;").program.statements =
      (Parse.ofText "return true;").program.statements ++ (Parse.ofText "x;").program.statements ∧
    (Eval.program 0 0 (Parse.ofText "return true;\nx;").program Session.fresh.scopes).outcome =
      .ok (some (.bool true)) := by
  have parsed : Parse.ofText "return true;" = ⟨⟨[.ret .returnWord (.bool true)]⟩, []⟩ := by cbv
  have parsed' : Parse.ofText "x;" = ⟨⟨[.expr (.ident "x") (.ident (.ofName "x"))]⟩, []⟩ := by cbv
  have pieces : ∀ text ∈ ["return true;", "x;"], IsPiece text := by
    refine List.forall_mem_cons.mpr ⟨⟨?_, ?_, ?_⟩, List.forall_mem_singleton.mpr ⟨?_, ?_, ?_⟩⟩
    · rw [parsed]
      rfl
    · cbv
    · cbv
    · rw [parsed']
      rfl
    · cbv
    · cbv
  have joined : "\n".intercalate ["return true;", "x;"] = "return true;\nx;" := by decide
  obtain ⟨_, statements, inTurn⟩ := eval_intercalate pieces
  rw [joined] at statements inTurn
  rw [List.flatMap_cons, List.flatMap_singleton] at statements
  refine ⟨pieces, statements, ?_⟩
  rw [inTurn, List.map_cons, parsed]
  rfl

end TreeWalk
