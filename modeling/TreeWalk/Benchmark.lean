import TreeWalk.Session

/-!
# The benchmark

The benchmark evaluates a call of a doubly recursive function that computes Fibonacci numbers.
-/

namespace TreeWalk

namespace Benchmark

/-- The definition that every run begins with. -/
def definition : String :=
  "let fibonacci = fn(x) \x7b\n" ++
  "  if (x == 0) \x7b\n" ++
  "    0\n" ++
  "  \x7d else \x7b\n" ++
  "    if (x == 1) \x7b\n" ++
  "      return 1;\n" ++
  "    \x7d else \x7b\n" ++
  "      fibonacci(x - 1) + fibonacci(x - 2);\n" ++
  "    \x7d\n" ++
  "  \x7d\n" ++
  "\x7d;"

/-- The program for one argument. -/
def text (n : UInt32) : String :=
  definition ++ "\nfibonacci(" ++ Decimal.ofNat n.toNat ++ ");"

/-- The argument that is taken if none is given, or one that is no unsigned 32-bit number. -/
def defaultArgument : UInt32 :=
  25

/-- The argument as given on the command line. -/
def argument (given : Option String) : UInt32 :=
  (given.bind Decimal.uint32?).getD defaultArgument

/-- The run of the program for one argument. -/
def run (n : UInt32) (depth : Nat := Session.defaultDepth) : Run (Option Value) :=
  Session.fresh.run (Parse.ofText (text n)).program depth

/-- The result as the benchmark reports it, without the time it took. -/
def report (n : UInt32) (depth : Nat := Session.defaultDepth) : String :=
  let result := match (run n depth).answer with
    | .result (some value) => value.text
    | _ => ""
  "engine=eval, result=" ++ result

end Benchmark

end TreeWalk
