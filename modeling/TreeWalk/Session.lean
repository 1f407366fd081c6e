import TreeWalk.Eval
import TreeWalk.Parser

/-!
# Sessions

A session evaluates texts one after another in one scope, so that each sees what the earlier ones
bound.  A text with diagnostics is not evaluated, unless that is forced; then the statements that
could be read are.

Results:
1. a text with diagnostics leaves the session as it was (`Session.step_of_diagnostics`), and one
   without is evaluated in it (`Session.step_of_diagnostics_eq_nil`).
-/

namespace TreeWalk

/-! ## Looking at a run -/

/-- The answer to a program: its result, if it has one.  An error that stops the program is its
result. -/
inductive Answer where
  | result (value : Option Value)
  | tooDeep
deriving DecidableEq

/-- How much a log record matters. -/
inductive LogLevel where
  | trace
  | debug
deriving DecidableEq, Repr

def LogLevel.label : LogLevel → String
  | trace => "TRACE"
  | debug => "DEBUG"

/-- A line of the log. -/
structure LogRecord where
  level : LogLevel
  message : String
deriving DecidableEq, Repr

namespace Event

/-- What a printed value adds to the output: its text, on a line of its own. -/
def output : Event → String
  | printed value => value.text ++ "\n"
  | applied .. => ""

/-- Calls of functions are logged, once their arguments are known to match their parameters. -/
def log? : Event → Option LogRecord
  | applied (.function closure) args =>
    if closure.params.length = args.length then some ⟨.trace, "calling " ++ closure.text⟩ else none
  | _ => none

end Event

namespace Run

variable {α : Type}

/-- All that was printed during a run. -/
def printed (run : Run α) : String :=
  String.join (run.events.map Event.output)

/-- The log of a run: the calls, and at the end the error that stopped it. -/
def log (run : Run α) : List LogRecord :=
  run.events.filterMap Event.log? ++
    match run.outcome with
    | .error (.error e) => [⟨.debug, "evaluation stopped: " ++ e.message⟩]
    | _ => []

def answer (run : Run (Option Value)) : Answer :=
  match run.outcome with
  | .ok value => .result value
  | .error (.error e) => .result (some (.error e))
  | .error .tooDeep => .tooDeep

end Run

/-! ## Sessions -/

/-- A scope, among all scopes there are. -/
structure Session where
  scopes : Scopes
  scope : ScopeId

/-- What comes of a text: what it reads as and, if it was evaluated, how that went. -/
structure Step where
  parse : Parse
  run : Option (Run (Option Value))

/-- The log of a text, from its first token to its last event. -/
def Step.log (step : Step) : List LogRecord :=
  step.parse.trace.map (fun record => ⟨.trace, record.message⟩) ++
    match step.run with
    | some run => run.log
    | none => []

namespace Session

/-- How deep calls may nest where no bound is given.  What is proved is proved for all bounds. -/
def defaultDepth : Nat :=
  100000

/-- A session in which nothing is bound. -/
def fresh : Session :=
  ⟨Scopes.empty.push none, 0⟩

/-- Evaluates a program. -/
def run (session : Session) (program : Program) (depth : Nat := defaultDepth) :
    Run (Option Value) :=
  Eval.program depth session.scope program session.scopes

/-- The session after a run in it. -/
def after (session : Session) (run : Run (Option Value)) : Session :=
  { session with scopes := run.scopes }

/-- The session's scope as it is shown. -/
def describe (session : Session) : String :=
  session.scopes.describe session.scope

/-- Parses a text and, if it has no diagnostics or evaluation is forced, evaluates it. -/
def step (session : Session) (text : String) (force tracing : Bool)
    (depth : Nat := defaultDepth) : Step × Session :=
  let parse := Parse.ofText text tracing
  if parse.diagnostics.isEmpty || force then
    let run := session.run parse.program depth
    (⟨parse, some run⟩, session.after run)
  else (⟨parse, none⟩, session)

/-- Evaluates texts one after another. -/
def steps (session : Session) (force tracing : Bool) (texts : List String)
    (depth : Nat := defaultDepth) : List (Step × Session) :=
  match texts with
  | [] => []
  | text :: texts =>
    let next := session.step text force tracing depth
    next :: next.2.steps force tracing texts depth

variable {session : Session} {text : String} {tracing : Bool}

theorem step_of_diagnostics (bad : (Parse.ofText text tracing).diagnostics ≠ []) (depth : Nat) :
    session.step text false tracing depth = (⟨Parse.ofText text tracing, none⟩, session) := by
  simp [step, bad]

theorem step_of_diagnostics_eq_nil (good : (Parse.ofText text tracing).diagnostics = [])
    (force : Bool) (depth : Nat) :
    session.step text force tracing depth =
      let run := session.run (Parse.ofText text tracing).program depth
      (⟨Parse.ofText text tracing, some run⟩, session.after run) := by
  simp [step, good]

end Session

end TreeWalk
