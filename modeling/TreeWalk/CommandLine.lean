import TreeWalk.Repl

/-!
# The command line

Without an argument the program greets its user and starts the interactive loop.  With the name of
a file it evaluates the text of the file and writes the result.

Results:
1. a text with diagnostics is refused with exit status 1 and writes nothing to standard output
   (`CommandLine.file_of_diagnostics`).
-/

namespace TreeWalk

namespace CommandLine

/-- What a process leaves behind. -/
structure Exit where
  status : UInt32
  stdout : String
  stderr : String
deriving DecidableEq, Repr

/-! ## Input that cannot be read -/

/-- Why no text could be had. -/
inductive InputFailure where
  | missing
  | directory
  | notText
deriving DecidableEq, Repr

namespace InputFailure

def message : InputFailure → String
  | missing => "No such file or directory"
  | directory => "Is a directory"
  | notText => "stream did not contain valid UTF-8"

/-- The line on standard error, with the code of the operating system if that is what failed. -/
def report (failure : InputFailure) : String :=
  let cause := match failure with
    | missing => "Os \x7b code: 2, kind: NotFound, message: \"" ++ failure.message ++ "\" \x7d"
    | directory =>
      "Os \x7b code: 21, kind: IsADirectory, message: \"" ++ failure.message ++ "\" \x7d"
    | notText => "Error \x7b kind: InvalidData, message: \"" ++ failure.message ++ "\" \x7d"
  "Error: " ++ cause ++ "\n"

/-- A failure ends the process. -/
def exit (failure : InputFailure) (stdout : String) : Exit :=
  ⟨1, stdout, failure.report⟩

end InputFailure

/-- The line on standard error when calls were nested too deep. -/
def tooDeepReport : String :=
  "calls are nested too deep\n"

/-! ## Files -/

/-- Evaluates the text of a file in a session of its own. -/
def file (text : String) (depth : Nat := Session.defaultDepth) : Exit :=
  let parse := Parse.ofText text
  if parse.diagnostics.isEmpty then
    let run := Session.fresh.run parse.program depth
    match run.answer with
    | .result value => ⟨0, run.printed ++ Repl.resultLine value, ""⟩
    | .tooDeep => ⟨134, run.printed, tooDeepReport⟩
  else ⟨1, "", String.join (parse.diagnostics.map Repl.diagnosticLine)⟩

/-- Evaluates the contents of a file, if they are text. -/
def fileBytes (contents : ByteArray) (depth : Nat := Session.defaultDepth) : Exit :=
  match String.fromUTF8? contents with
  | some text => file text depth
  | none => InputFailure.notText.exit ""

theorem file_of_diagnostics {text : String} (bad : (Parse.ofText text).diagnostics ≠ [])
    (depth : Nat) : (file text depth).status = 1 ∧ (file text depth).stdout = "" := by
  simp [file, bad]

/-! ## Standard input -/

/-- What the program says before its first prompt. -/
def greeting : String :=
  "Hello! This is the Monke programming language!\nFeel free to type in commands\n"

/-- The exit of the program once the interactive loop has ended. -/
def loopExit (ending : Repl.Ending) (stdout : String) : Exit :=
  match ending with
  | .normal => ⟨0, stdout, ""⟩
  | .notText => InputFailure.notText.exit stdout
  | .tooDeep => ⟨134, stdout, tooDeepReport⟩

/-- The interactive loop on a whole input.  It is told to write to standard output. -/
def stdin (input : List UInt8) (depth : Nat := Session.defaultDepth) : Exit :=
  let transcript := Repl.transcript input depth
  loopExit transcript.ending (greeting ++ transcript.output)

end CommandLine

end TreeWalk
