import TreeWalk.Proofs.Equivariance
import TreeWalk.Proofs.RoundTrip

/-!
# Meaning and spelling

What a program does depends on its bare tree alone.  The tokens that expression statements keep go
along in the bodies of functions, but nothing looks at them, and no text shows them.

Results:
1. scopes without these tokens mirror the scopes that they are taken from (`Scopes.mirrors_bare`);
2. runs that are the same without these tokens show the same (`SameMeaning.of_bare`);
3. taking these tokens away commutes with evaluation, so a program and what its text reads as do the
   same (`eval_again`).
-/

namespace TreeWalk

/-! ## Values and scopes without tokens -/

/-- A function without the tokens of its expression statements. -/
def Closure.bare (closure : Closure) : Closure :=
  { closure with body := closure.body.bare }

/-- A value without the tokens of expression statements. -/
def Value.bare : Value → Value
  | .returned v => .returned v.bare
  | .function closure => .function closure.bare
  | v => v

/-- What is bound to a name, without those tokens. -/
def Entry.bare (entry : Entry) : Entry :=
  (entry.1, entry.2.bare)

/-- Bindings to values without those tokens. -/
def Bindings.bare (bindings : Bindings) : Bindings :=
  ⟨bindings.entries.map Entry.bare, List.pairwise_map.mpr bindings.sorted⟩

/-- A scope in which values lack those tokens. -/
def Scope.bare (s : Scope) : Scope :=
  { s with bindings := s.bindings.bare }

/-- Scopes in which values lack those tokens. -/
def Scopes.bare (scopes : Scopes) : Scopes :=
  ⟨scopes.all.map Scope.bare⟩

/-- An event with values that lack those tokens. -/
def Event.bare : Event → Event
  | .applied callee args => .applied callee.bare (args.map Value.bare)
  | .printed v => .printed v.bare

/-- A run with values that lack those tokens, with `f` taking them from the result. -/
def Run.bare {α : Type} (f : α → α) (run : Run α) : Run α :=
  ⟨run.outcome.map f, run.scopes.bare, run.events.map Event.bare⟩

theorem Closure.text_bare (closure : Closure) : closure.bare.text = closure.text := by
  rw [text, text, Expr.text, Expr.text]
  exact congrArg (_ ++ ·) closure.body.text_bare

theorem Value.typeName_bare (v : Value) : v.bare.typeName = v.typeName := by
  cases v <;> rfl

theorem Value.text_bare (v : Value) : v.bare.text = v.text := by
  induction v with
  | returned v ih => exact ih
  | function closure => exact closure.text_bare
  | _ => rfl

/-- What is seen of a value: its type and its text. -/
def Value.shown (v : Value) : String × String :=
  (v.typeName, v.text)

theorem Value.shown_bare (v : Value) : v.bare.shown = v.shown :=
  Prod.ext v.typeName_bare v.text_bare

theorem Entries.find?_bare (name : String) (entries : List Entry) :
    find? name (entries.map Entry.bare) = (find? name entries).map Value.bare := by
  induction entries with
  | nil => rfl
  | cons entry entries ih =>
    rw [List.map_cons, find?, find?, ih, apply_ite (Option.map Value.bare)]
    rfl

theorem Bindings.get?_bare (bindings : Bindings) (name : String) :
    bindings.bare.get? name = (bindings.get? name).map Value.bare :=
  Entries.find?_bare name bindings.entries

theorem Bindings.names_bare (bindings : Bindings) : bindings.bare.names = bindings.names :=
  List.map_map

theorem Scopes.scope?_bare (scopes : Scopes) (id : ScopeId) :
    scopes.bare.scope? id = (scopes.scope? id).map Scope.bare :=
  Array.getElem?_map

/-! ## Taking tokens away as a translation -/

/-- Takes away the tokens of expression statements. -/
def Translation.bare : Translation where
  ident := id
  name := id
  kept _ := .eof
  scope := id
  name_ident := Translation.name_ident_id
  name_injective := Function.injective_id
  builtin := Translation.builtin_id
  older := Iff.rfl

namespace Translation

theorem closure_bare (closure : Closure) : bare.closure closure = closure.bare := by
  show Closure.mk (closure.params.map id) (closure.body.map id fun _ => .eof) _ = _
  rw [List.map_id, closure.body.map_bare]
  rfl

theorem value_bare : bare.value = Value.bare := by
  funext v
  induction v with
  | returned v ih => exact congrArg Value.returned ih
  | error e => cases e <;> rfl
  | function closure => exact congrArg Value.function (closure_bare closure)
  | _ => rfl

theorem event_bare : bare.event = Event.bare := by
  funext event
  cases event <;> rw [event, value_bare, Event.bare]

theorem unseen_bare : bare.Unseen :=
  ⟨fun _ => rfl, fun closure => closure_bare closure ▸ closure.text_bare⟩

end Translation

namespace Scopes

theorem mirrors_bare (scopes : Scopes) : Translation.bare.Mirrors scopes scopes.bare := by
  refine ⟨fun n => ?_, fun {id s} there => ⟨s.bare, ?_, ?_, fun name => ?_, fun {other _} _ => ?_⟩⟩
  · exact congrArg (· + n) Array.size_map.symm
  · show scopes.bare.scope? id = some s.bare
    rw [scope?_bare, there]
    rfl
  · exact Option.map_id'.symm
  · rw [Translation.value_bare]
    exact s.bindings.get?_bare name
  · exact ⟨other, rfl⟩

theorem find?_bare (scopes : Scopes) (name : String) (id : ScopeId) :
    scopes.bare.find? name id = (scopes.find? name id).map Value.bare := by
  rw [← Translation.value_bare]
  exact scopes.mirrors_bare.find? name id

end Scopes

/-! ## Evaluation without tokens -/

section

variable {α : Type}

theorem Run.printed_bare (f : α → α) (run : Run α) : (run.bare f).printed = run.printed := by
  have same (event : Event) : event.bare.output = event.output := by
    cases event with
    | applied callee args => rfl
    | printed v => exact congrArg (· ++ "\n") v.text_bare
  rw [printed, printed, bare, List.map_map]
  exact congrArg String.join (List.map_congr_left fun event _ => same event)

theorem Translation.run_bare (f : α → α) (run : Run α) :
    Translation.bare.run f Scopes.bare run = run.bare f := by
  rw [Translation.run, unseen_bare.outcome_eq, event_bare, Run.bare]

theorem Translation.Carries.bare {f : α → α} {action action' : Action α}
    (carries : Translation.bare.Carries f action action') (scopes : Scopes) :
    (action scopes).bare f = action' scopes.bare := by
  rw [← Translation.run_bare]
  exact (carries.commutes Function.surjective_id Scopes.mirrors_bare scopes).symm

theorem Translation.Carries.bare_value {action action' : Action Value}
    (carries : Translation.bare.Carries Translation.bare.value action action') (scopes : Scopes) :
    (action scopes).bare Value.bare = action' scopes.bare :=
  Translation.value_bare ▸ carries.bare scopes

theorem Translation.Carries.bare_result {action action' : Action (Option Value)}
    (carries : Translation.bare.Carries (Option.map Translation.bare.value) action action')
    (scopes : Scopes) :
    (action scopes).bare (Option.map Value.bare) = action' scopes.bare :=
  Translation.value_bare ▸ carries.bare scopes

end

/-! ## The same meaning -/

/-- Two runs of programs show the same: both have a result, of the same type and text, or neither
has one, or both stop for the same reason.  They print the same, and afterwards the same names are
bound everywhere, to values that differ at most in the tokens of expression statements. -/
structure SameMeaning (first second : Run (Option Value)) : Prop where
  shown : second.outcome.map (Option.map Value.shown) = first.outcome.map (Option.map Value.shown)
  values : second.outcome.map (Option.map Value.bare) = first.outcome.map (Option.map Value.bare)
  printed : second.printed = first.printed
  names : ∀ id, (second.scopes.scope? id).map (·.bindings.names) =
    (first.scopes.scope? id).map (·.bindings.names)
  bound : ∀ name id, (second.scopes.find? name id).map Value.bare =
    (first.scopes.find? name id).map Value.bare

theorem SameMeaning.of_bare {first second : Run (Option Value)}
    (same : second.bare (Option.map Value.bare) = first.bare (Option.map Value.bare)) :
    SameMeaning first second := by
  have values : second.outcome.map _ = first.outcome.map _ := congrArg Run.outcome same
  have scopes : second.scopes.bare = first.scopes.bare := congrArg Run.scopes same
  refine ⟨?_, values, ?_, fun id => ?_, fun name id => ?_⟩
  · have shown (outcome : Except Stop (Option Value)) :
        (outcome.map (Option.map Value.bare)).map (Option.map Value.shown) =
          outcome.map (Option.map Value.shown) := by
      rcases outcome with _ | _ | v
      · rfl
      · rfl
      · exact congrArg (fun shown => Except.ok (some shown)) v.shown_bare
    rw [← shown, values, shown]
  · rw [← second.printed_bare, same, first.printed_bare]
  · have names (scopes : Scopes) : (scopes.scope? id).map (·.bindings.names) =
        (scopes.bare.scope? id).map (·.bindings.names) := by
      rw [scopes.scope?_bare, Option.map_map]
      exact Option.map_congr fun s _ => s.bindings.names_bare.symm
    rw [names, scopes, ← names]
  · rw [← Scopes.find?_bare, scopes, Scopes.find?_bare]

theorem program_bare (depth : Nat) (scopes : Scopes) (scope : ScopeId) (program : Program) :
    (Eval.program depth scope program scopes).bare (Option.map Value.bare) =
      Eval.program depth scope program.bare scopes.bare := by
  have same : program.map id (fun _ => .eof) = program.bare :=
    congrArg Program.mk (Stmt.mapList_bares program.statements)
  exact same ▸ (Translation.bare.carries_program depth scope program).bare_result scopes

/-- A program means the same when it is read again from its text, since nothing that is evaluated
depends on the tokens that expression statements keep. -/
theorem eval_again :
    (∀ (text : String) (depth : Nat), SameMeaning
      (Eval.program depth 0 (Parse.ofText text).program Session.fresh.scopes)
      (Eval.program depth 0 (Parse.ofText text).again.program Session.fresh.scopes)) ∧
    ∀ (depth : Nat) (scopes : Scopes),
      (∀ (scope : ScopeId) (program : Program),
        (Eval.program depth scope program scopes).bare (Option.map Value.bare) =
          Eval.program depth scope program.bare scopes.bare) ∧
      (∀ (scope : ScopeId) (s : Stmt),
        (Eval.stmt (Eval.call depth) scope s scopes).bare (Option.map Value.bare) =
          Eval.stmt (Eval.call depth) scope s.bare scopes.bare) ∧
      (∀ (scope : ScopeId) (b : Block),
        (Eval.block (Eval.call depth) scope b scopes).bare Value.bare =
          Eval.block (Eval.call depth) scope b.bare scopes.bare) ∧
      (∀ (scope : ScopeId) (e : Expr),
        (Eval.expr (Eval.call depth) scope e scopes).bare Value.bare =
          Eval.expr (Eval.call depth) scope e.bare scopes.bare) ∧
      ∀ (callee : Value) (args : List Value),
        (Eval.call depth callee args scopes).bare Value.bare =
          Eval.call depth callee.bare (args.map Value.bare) scopes.bare := by
  refine ⟨fun text depth => ?_, fun depth scopes => ⟨program_bare depth scopes, fun scope s => ?_,
    fun scope b => ?_, fun scope e => ?_, fun callee args => ?_⟩⟩
  · refine .of_bare ?_
    have same : (Parse.ofText text).again.program.bare = (Parse.ofText text).program.bare :=
      (ofText_text_of_plain (plain_of_ofText text)).same
    rw [program_bare, same, program_bare]
  all_goals have calls := Translation.bare.carries_call depth
  · exact s.map_bare ▸ (Translation.carries_stmt calls scope s).bare_result scopes
  · exact b.map_bare ▸ (Translation.carries_block calls scope b).bare_value scopes
  · exact e.map_bare ▸ (Translation.carries_expr calls scope e).bare_value scopes
  · have applied := (calls callee args).bare_value scopes
    rwa [Translation.value_bare] at applied

end TreeWalk
