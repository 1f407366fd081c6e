import TreeWalk.Session

/-!
# The interactive loop

The loop prompts for a line, answers it, and prompts again, until the input ends.  All lines are
evaluated in one session.  A line is answered by its diagnostics or else by what it prints and its
result.  Input that is not text ends the loop, once the lines before it have been answered.

The loop is given where to write.  What a program prints goes to standard output in any case, in
between what the loop writes.
-/

namespace TreeWalk

namespace Repl

def prompt : String :=
  ">> "

/-- A diagnostic as it is shown to the user, on a line of its own. -/
def diagnosticLine (diagnostic : Diagnostic) : String :=
  "\t" ++ diagnostic.message ++ "\n"

/-- A result as it is shown to the user: nothing if there is none. -/
def resultLine : Option Value → String
  | none => ""
  | some value => value.text ++ "\n"

/-! ## Writing -/

/-- Where something is written. -/
inductive Port where
  /-- Where the loop was told to write. -/
  | own
  /-- The standard output of the process. -/
  | stdout
deriving DecidableEq, Repr

structure Write where
  port : Port
  text : String
deriving DecidableEq, Repr

/-- All that is written, in order: what appears on standard output if the loop writes there too. -/
def output (writes : List Write) : String :=
  String.join (writes.map Write.text)

/-- What appears on one of the ports, if the loop does not write to standard output. -/
def outputOn (port : Port) (writes : List Write) : String :=
  output (writes.filter (·.port = port))

/-! ## One line -/

/-- How the answer to a line ends. -/
inductive Ending where
  /-- The loop goes on, or the input has ended. -/
  | normal
  /-- The input is not text. -/
  | notText
  /-- Evaluation was cut off by the bound on how deep calls nest. -/
  | tooDeep
deriving DecidableEq, Repr

/-- The answer to a line. -/
structure Reply where
  writes : List Write
  ending : Ending
  session : Session

/-- Answers a line. -/
def reply (session : Session) (line : String) (depth : Nat := Session.defaultDepth) : Reply :=
  let (step, next) := session.step line false false depth
  match step.run with
  | none => ⟨step.parse.diagnostics.map fun d => ⟨.own, diagnosticLine d⟩, .normal, next⟩
  | some run =>
    match run.answer with
    | .result value => ⟨[⟨.stdout, run.printed⟩, ⟨.own, resultLine value⟩], .normal, next⟩
    | .tooDeep => ⟨[⟨.stdout, run.printed⟩], .tooDeep, next⟩

/-! ## The whole input -/

/-- The lines of an input, each with the line feed that ends it.  The last one may lack it, but is
not empty. -/
def lines : List UInt8 → List (List UInt8)
  | [] => []
  | byte :: bytes =>
    if byte = 10 then [byte] :: lines bytes
    else
      match lines bytes with
      | [] => [[byte]]
      | line :: rest => (byte :: line) :: rest

/-- All that is written while the loop runs, and how it ends. -/
structure Transcript where
  writes : List Write
  ending : Ending
deriving DecidableEq

def Transcript.output (transcript : Transcript) : String :=
  Repl.output transcript.writes

/-- Answers lines in a session, each after a prompt. -/
def answerLines (session : Session) (ls : List (List UInt8))
    (depth : Nat := Session.defaultDepth) : Transcript :=
  match ls with
  | [] => ⟨[⟨.own, prompt⟩], .normal⟩
  | line :: rest =>
    match String.fromUTF8? ⟨line.toArray⟩ with
    | none => ⟨[⟨.own, prompt⟩], .notText⟩
    | some text =>
      let answer := reply session text depth
      match answer.ending with
      | .normal =>
        let later := answerLines answer.session rest depth
        ⟨⟨.own, prompt⟩ :: (answer.writes ++ later.writes), later.ending⟩
      | ending => ⟨⟨.own, prompt⟩ :: answer.writes, ending⟩

/-- The loop on a whole input, from a session in which nothing is bound. -/
def transcript (input : List UInt8) (depth : Nat := Session.defaultDepth) : Transcript :=
  answerLines .fresh (lines input) depth

end Repl

end TreeWalk
