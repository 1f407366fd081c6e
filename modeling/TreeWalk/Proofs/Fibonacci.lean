import Mathlib
import TreeWalk.Benchmark
import TreeWalk.Proofs.Arise
import TreeWalk.Proofs.Arithmetic
import TreeWalk.Proofs.Computes
import TreeWalk.Proofs.Joining

/-!
# What the benchmark computes

The function of the benchmark calls itself twice, from a branch that is the value of another branch,
and returns early for one of its arguments.  Each call has a scope of its own, and the name of the
function is found outside.

Results:
1. the text of the benchmark is the definition of the function and a call of it
   (`Benchmark.ofText_text`);
2. one step: the body yields its answer if the function computes Fibonacci numbers for smaller
   arguments (`Benchmark.computes_body`);
3. so, by induction, it computes them for all arguments (`Benchmark.computes_fibonacci`), and the
   benchmark comes to the one it is asked for (`benchmark_computes_fibonacci`).
-/

namespace TreeWalk

open Eval

/-! ## The program -/

namespace Benchmark

/-- The expression that reads a name. -/
def read (name : String) : Expr :=
  .ident (.ofName name)

/-- The expression `fibonacci(x - k)`. -/
def recursion (k : Int64) : Expr :=
  .call (read "fibonacci") [.infixOp (read "x") .minus (.int k)]

/-- What happens above one: `{ fibonacci(x - 1) + fibonacci(x - 2); }`. -/
def sum : Block :=
  .mk .lbrace [.expr (.ident "fibonacci") (.infixOp (recursion 1) .plus (recursion 2))]

/-- What happens above zero. -/
def positive : Block :=
  .mk .lbrace [.expr .ifWord (.ifElse (.infixOp (read "x") .eq (.int 1))
    (.mk .lbrace [.ret .returnWord (.int 1)]) (some sum))]

/-- The function. -/
def fibonacci : Closure where
  params := [.ofName "x"]
  body := .mk .lbrace [.expr .ifWord (.ifElse (.infixOp (read "x") .eq (.int 0))
    (.mk .lbrace [.expr (.int "0") (.int 0)]) (some positive))]
  scope := 0

/-- The statement that defines it. -/
def defining : Stmt :=
  .bind .letWord (.ofName "fibonacci") (.fn fibonacci.params fibonacci.body)

/-- The statement that calls it. -/
def calling (n : UInt32) : Stmt :=
  .expr (.ident "fibonacci") (.call (read "fibonacci") [.int (Int64.ofInt n.toNat)])

/-- The text of that statement. -/
def callText (n : UInt32) : String :=
  "fibonacci(" ++ Decimal.ofNat n.toNat ++ ");"

/-! ## Reading it -/

/-- The tokens of the definition. -/
def tokens : List Token :=
  [.letWord, .ident "fibonacci", .assign, .fnWord, .lparen, .ident "x", .rparen, .lbrace,
    .ifWord, .lparen, .ident "x", .eq, .int "0", .rparen, .lbrace, .int "0", .rbrace, .elseWord,
    .lbrace, .ifWord, .lparen, .ident "x", .eq, .int "1", .rparen, .lbrace, .returnWord, .int "1",
    .semicolon, .rbrace, .elseWord, .lbrace, .ident "fibonacci", .lparen, .ident "x", .minus,
    .int "1", .rparen, .plus, .ident "fibonacci", .lparen, .ident "x", .minus, .int "2", .rparen,
    .semicolon, .rbrace, .rbrace, .rbrace, .semicolon]

set_option maxRecDepth 4000 in
theorem lex_definition : Token.lex definition.toList = tokens := by
  cbv

set_option maxRecDepth 4000 in
theorem ofText_definition : Parse.ofText definition = ⟨⟨[defining]⟩, []⟩ := by
  rw [Parse.ofText, lex_definition]
  cbv

theorem isPiece_definition : IsPiece definition := by
  refine ⟨?_, ?_, ?_⟩
  · rw [ofText_definition]
    rfl
  · rw [lex_definition]
    rfl
  · rw [lex_definition]
    decide

theorem lex_callText (n : UInt32) :
    Token.lex (callText n).toList =
      [.ident "fibonacci", .lparen, .int (Decimal.ofNat n.toNat), .rparen, .semicolon] := by
  have chars : (callText n).toList =
      "fibonacci".toList ++ '(' :: (Decimal.digits n.toNat ++ [')', ';']) := by
    rw [callText, String.toList_append, String.toList_append, Decimal.ofNat, String.toList_ofList]
    simp
  have letters : "fibonacci".toList.all isLetter = true := by decide
  have digits := List.all_eq_true.mp (Decimal.all_isDigit_digits n.toNat)
  have opens : ∀ c ∈ ('(' :: (Decimal.digits n.toNat ++ [')', ';'])).head?,
      isLetter c = false := by
    intro c first
    cases first
    decide
  have closes : ∀ c ∈ [')', ';'].head?, c.isDigit = false := by
    intro c first
    cases first
    decide
  have word : Token.ofWord "fibonacci" = .ident "fibonacci" := by decide
  rw [chars, Token.lex_word (by decide) (List.all_eq_true.mp letters) opens, word,
    Token.lex_symbol rfl, Token.lex_digits (Decimal.digits_ne_nil _) digits closes,
    Token.lex_symbol rfl, Token.lex_symbol rfl, Token.lex_blank rfl]
  rfl

theorem int64?_argument (n : UInt32) :
    Decimal.int64? (Decimal.ofNat n.toNat) = some (Int64.ofInt n.toNat) := by
  have small : n.toNat < 4294967296 := n.toNat_lt
  have largest : Int64.maxValue.toInt = 9223372036854775807 := by decide
  exact Decimal.int64?_ofNat (by omega)

section

open Grammar Rule

variable (f : String) {text : String} {v : Int64} (reads : Decimal.int64? text = some v)
include reads

theorem expression_argument : expression 4 .lowest false 0 [.int text, .rparen, .semicolon] =
    ⟨some (.int v), [.int text, .rparen, .semicolon], [], 0⟩ := by
  have leaf : operand (expression 3) 3 false 0 [.int text, .rparen, .semicolon] =
      ⟨some (.int v), [.int text, .rparen, .semicolon], [], 0⟩ := by
    show integer text false 0 _ = _
    rw [integer, reads]
    rfl
  rw [expression, traced_false, bind_of_clean leaf]
  rfl

theorem expression_callByName :
    expression 5 .lowest false 0 [.ident f, .lparen, .int text, .rparen, .semicolon] =
      ⟨some (.call (.ident (.ofName f)) [.int v]), [.rparen, .semicolon], [], 0⟩ := by
  have binds : Precedence.lowest < .ofKind .lparen := by decide
  have opens : [Token.ident f, .lparen, .int text, .rparen, .semicolon].tail =
      .lparen :: [.int text, .rparen, .semicolon] := rfl
  have other : (Token.int text).kind ≠ .rparen := by
    show TokenKind.int ≠ .rparen
    decide
  have alone : moreArgs (expression 4) 4 false 0 [.int text, .rparen, .semicolon] =
      ⟨some [], [.int text, .rparen, .semicolon], [], 0⟩ := rfl
  refine (expression_of_operand rfl).trans ?_
  exact extensions_step opens binds (extend_call opens other (expression_argument reads) alone rfl)

theorem statement_callByName :
    statement (expression 5) false 0 [.ident f, .lparen, .int text, .rparen, .semicolon] =
      ⟨some (.expr (.ident f) (.call (.ident (.ofName f)) [.int v])), [.semicolon], [], 0⟩ := by
  have head : (Token.ident f).kind ∈ exprHeads := List.mem_cons_self ..
  rw [statement_of_exprHead head, exprStmt, traced_false, current_bind,
    bind_of_clean (expression_callByName f reads), skip_bind]
  rfl

/-- A call of a function by its name, with one integer. -/
theorem ofTokens_callByName :
    Parse.ofTokens [.ident f, .lparen, .int text, .rparen, .semicolon] =
      ⟨⟨[.expr (.ident f) (.call (.ident (.ofName f)) [.int v])]⟩, []⟩ := by
  have begins : TokenKind.ident ∉ [TokenKind.eof] := by decide
  have run : statements (expression 5) [] 5 false 0
      [.ident f, .lparen, .int text, .rparen, .semicolon] = ⟨some [_], [], [], 0⟩ :=
    statements_step begins (statement_callByName f reads) rfl
  rw [ofTokens_eq, Grammar.program]
  exact congrArg (fun outcome => Parse.mk ⟨outcome.value.getD []⟩ outcome.notes) run

end

theorem ofText_callText (n : UInt32) : Parse.ofText (callText n) = ⟨⟨[calling n]⟩, []⟩ := by
  rw [Parse.ofText, lex_callText, ofTokens_callByName "fibonacci" (int64?_argument n)]
  rfl

theorem isPiece_callText (n : UInt32) : IsPiece (callText n) := by
  refine ⟨?_, ?_, ?_⟩
  · rw [ofText_callText]
    rfl
  · rw [lex_callText]
    rfl
  · rw [lex_callText]
    rfl

/-- The program for one argument is the definition and the call. -/
theorem ofText_text (n : UInt32) : Parse.ofText (text n) = ⟨⟨[defining, calling n]⟩, []⟩ := by
  have joined : text n = "\n".intercalate [definition, callText n] := by
    show definition ++ "\nfibonacci(" ++ Decimal.ofNat n.toNat ++ ");" =
      definition ++ "\n" ++ ("fibonacci(" ++ Decimal.ofNat n.toNat ++ ");")
    have line : "\nfibonacci(" = "\n" ++ "fibonacci(" := by decide
    rw [line]
    simp only [String.append_assoc]
  have pieces : ∀ piece ∈ [definition, callText n], IsPiece piece :=
    List.forall_mem_cons.mpr
      ⟨isPiece_definition, List.forall_mem_singleton.mpr (isPiece_callText n)⟩
  rw [joined, ofText_intercalate pieces, List.flatMap_cons, List.flatMap_singleton,
    ofText_definition, ofText_callText]
  rfl

/-! ## Evaluating it -/

/-- A number as the function is given and gives it. -/
def number (k : Nat) : Value :=
  .int (Int64.ofInt k)

/-- The name of the function is bound in the outermost scope. -/
def Defined (scopes : Scopes) : Prop :=
  ∃ s, scopes.scope? 0 = some s ∧ s.bindings.get? "fibonacci" = some (.function fibonacci)

/-- In the scope of a call, `x` stands for the argument and the function can be called again. -/
structure Called (scopes : Scopes) (scope : ScopeId) (k : Nat) : Prop where
  argument : scopes.find? "x" scope = some (number k)
  function : scopes.find? "fibonacci" scope = some (.function fibonacci)

theorem Defined.extends {before after : Scopes} (defined : Defined before)
    (extended : before.Extends after) : Defined after := by
  obtain ⟨s, there, own⟩ := defined
  exact ⟨s, extended 0 s there, own⟩

/-- Where a call runs the body. -/
def callScopes (before : Scopes) (k : Nat) : Scopes :=
  (before.push (some 0)).bind before.size "x" (number k)

theorem Defined.called {before : Scopes} (defined : Defined before) (k : Nat) :
    Defined (callScopes before k) ∧ Called (callScopes before k) before.size k := by
  obtain ⟨s, there, own⟩ := defined
  have old : 0 < before.size := Scopes.lt_size_of_scope? there
  have outermost : (callScopes before k).scope? 0 = some s := by
    rw [callScopes, Scopes.scope?_bind, if_neg old.ne, Scopes.scope?_push, if_neg old.ne, there]
  have opened : (callScopes before k).scope? before.size =
      some ⟨Bindings.empty.insert "x" (number k), some 0⟩ := by
    rw [callScopes, Scopes.scope?_bind, if_pos rfl, Scopes.scope?_push, if_pos rfl]
    rfl
  refine ⟨⟨s, outermost, own⟩, Scopes.find?_of_own opened ?_, ?_⟩
  · rw [Bindings.get?_insert, if_pos rfl]
  · have absent : (Bindings.empty.insert "x" (number k)).get? "fibonacci" = none := by
      rw [Bindings.get?_insert, if_neg (by decide)]
      rfl
    rw [Scopes.find?_of_outer opened absent rfl old]
    exact Scopes.find?_of_own outermost own

/-- What the body yields: one is returned early, and any other result is the value of a branch. -/
def answer : Nat → Value
  | 1 => .returned (number 1)
  | k => number (Nat.fib k)

theorem unwrap_answer : ∀ k, (answer k).unwrap = number (Nat.fib k)
  | 0 | 1 | _ + 2 => rfl

theorem ofInt_eq_iff {j k : Nat} (small : j < UInt32.size) (small' : k < UInt32.size) :
    Int64.ofInt j = Int64.ofInt k ↔ j = k := by
  have size : UInt32.size = 4294967296 := rfl
  rw [← Int64.toInt_inj, Int64.toInt_ofInt_of_le (by omega) (by omega),
    Int64.toInt_ofInt_of_le (by omega) (by omega)]
  omega

section

variable {depth : Nat} {scopes : Scopes} {scope : ScopeId} {k : Nat}

theorem computes_test (called : Called scopes scope k) (small : k < UInt32.size) {j : Nat}
    (small' : j < UInt32.size) :
    (expr (call depth) scope (.infixOp (read "x") .eq (.int (Int64.ofInt j)))).Computes scopes
      (.bool (k = j)) := by
  refine computes_infixOp (computes_ident called.argument) rfl (computes_int _) rfl ?_
  show Except.ok (Value.bool (Int64.ofInt k = Int64.ofInt j)) = _
  simp only [ofInt_eq_iff small small']

theorem computes_fibonacciCall {e : Expr} {v : Value}
    (found : scopes.find? "fibonacci" scope = some (.function fibonacci))
    (argument : (expr (call depth) scope e).Computes scopes (number k))
    (applied : (call depth (.function fibonacci) [number k]).Computes scopes v) :
    (expr (call depth) scope (.call (read "fibonacci") [e])).Computes scopes v := by
  have itself :
      (expr (call depth) scope (read "fibonacci")).Computes scopes (.function fibonacci) :=
    computes_ident found
  exact computes_call itself rfl (computes_cons argument rfl computes_nil) applied

theorem computes_recursion (j : Nat) (called : Called scopes scope (k + j))
    (below : (call depth (.function fibonacci) [number k]).Computes scopes (number (Nat.fib k))) :
    (expr (call depth) scope (recursion (Int64.ofInt j))).Computes scopes (number (Nat.fib k)) := by
  have less : (number (k + j)).infixOp .minus (.int (Int64.ofInt j)) = .ok (number k) := by
    show Except.ok (Value.int (Int64.ofInt (k + j : Nat) - Int64.ofInt j)) = _
    rw [← Int64.ofInt_sub, Nat.cast_add, Int.add_sub_cancel]
    rfl
  have argument : (expr (call depth) scope (read "x")).Computes scopes (number (k + j)) :=
    computes_ident called.argument
  exact computes_fibonacciCall called.function
    (computes_infixOp argument rfl (computes_int _) rfl less) below

/-- One step of the recursion: the body yields the answer if it may rely on what the function gives
for smaller arguments. -/
theorem computes_body (called : Called scopes scope k) (small : k < UInt32.size)
    (below : ∀ j, j < k →
      (call depth (.function fibonacci) [number j]).Computes scopes (number (Nat.fib j))) :
    (block (call depth) scope fibonacci.body).Computes scopes (answer k) := by
  have zero : 0 < UInt32.size := by decide
  have one : 1 < UInt32.size := by decide
  -- One branch is chosen for zero, and another inside the second one for one.
  refine computes_block (computes_exprStmt (computes_ifElse (computes_test called small zero) ?_))
  match k with
  | 0 => exact computes_block (computes_exprStmt (computes_int 0))
  | k + 1 =>
    refine computes_block (computes_exprStmt (computes_ifElse (computes_test called small one) ?_))
    match k with
    | 0 => exact computes_block (computes_ret (computes_int 1) rfl)
    | k + 1 =>
      have previous := computes_recursion 1 called (below (k + 1) (by omega))
      have before := computes_recursion 2 called (below k (by omega))
      have sum : (number (Nat.fib (k + 1))).infixOp .plus (number (Nat.fib k)) =
          .ok (number (Nat.fib (k + 2))) := by
        show Except.ok (Value.int (Int64.ofInt _ + Int64.ofInt _)) = _
        rw [← Int64.ofInt_add, ← Nat.cast_add, Nat.add_comm (Nat.fib (k + 1)),
          ← Nat.fib_add_two]
        rfl
      exact computes_block (computes_exprStmt (computes_infixOp previous rfl before rfl sum))

end

/-- A call gives the Fibonacci number, if calls may nest deeper than the argument is large. -/
theorem computes_fibonacci {k depth : Nat} {scopes : Scopes} (defined : Defined scopes)
    (small : k < UInt32.size) (deep : k < depth) :
    (call depth (.function fibonacci) [number k]).Computes scopes (number (Nat.fib k)) := by
  induction k using Nat.strongRecOn generalizing depth scopes with
  | ind k ih =>
    obtain ⟨depth, rfl⟩ := Nat.exists_eq_add_one_of_ne_zero (Nat.ne_zero_of_lt deep)
    rw [← unwrap_answer]
    -- Each call uses up one level of depth and passes on a smaller argument.
    refine computes_function rfl fun before extended => ?_
    obtain ⟨defined, called⟩ := (defined.extends extended).called k
    exact computes_body called small fun j less =>
      ih j less defined (less.trans small) (Nat.lt_of_lt_of_le less (Nat.le_of_lt_succ deep))

/-! ## The whole program -/

/-- The scopes after the definition. -/
def bound : Scopes :=
  Session.fresh.scopes.bind 0 "fibonacci" (.function fibonacci)

theorem scope?_bound :
    bound.scope? 0 = some ⟨Bindings.empty.insert "fibonacci" (.function fibonacci), none⟩ :=
  rfl

theorem get?_bound : (Bindings.empty.insert "fibonacci" (.function fibonacci)).get? "fibonacci" =
    some (.function fibonacci) := by
  rw [Bindings.get?_insert, if_pos rfl]

/-- The definition binds the function, and the call comes to the Fibonacci number. -/
theorem program_run {n : UInt32} {depth : Nat} (deep : n.toNat < depth) : ∃ after events,
    program depth 0 ⟨[defining, calling n]⟩ Session.fresh.scopes =
      ⟨.ok (some (number (Nat.fib n.toNat))), after, events⟩ ∧
    bound.Extends after ∧ ∀ v, Event.printed v ∉ events := by
  have called := computes_fibonacci ⟨_, scope?_bound, get?_bound⟩ n.toNat_lt deep
  have computes : (stmt (call depth) 0 (calling n)).Computes bound
      (some (number (Nat.fib n.toNat))) :=
    computes_exprStmt (computes_fibonacciCall (Scopes.find?_of_own scope?_bound get?_bound)
      (computes_int _) called)
  obtain ⟨after, events, ran, extended, silent⟩ := computes bound fun _ _ there => there
  refine ⟨after, events, ?_, extended, silent⟩
  have defines : stmt (call depth) 0 defining Session.fresh.scopes = ⟨.ok none, bound, []⟩ := rfl
  have calls : top (call depth) 0 none [calling n] bound =
      ⟨.ok (some (number (Nat.fib n.toNat))), after, events⟩ := by
    unfold top
    rw [Action.bind_of_ok ran]
    exact congrArg (Run.mk _ _) (List.append_nil events)
  unfold program top
  rw [Action.bind_of_ok defines]
  exact calls

end Benchmark

/-- For any argument, the benchmark is read without a diagnostic and comes to an end, whatever depth
of calls above its argument it is allowed.  It prints nothing, its result is the Fibonacci number
cut down to 64 bits, and `fibonacci` is the only name it leaves bound. -/
theorem benchmark_computes_fibonacci (n : UInt32) :
    (Parse.ofText (Benchmark.text n)).diagnostics = [] ∧
    Eval.Terminates Session.fresh.scope (Parse.ofText (Benchmark.text n)).program
      Session.fresh.scopes ∧
    ∀ depth, n.toNat < depth →
      let run := Eval.program depth Session.fresh.scope (Parse.ofText (Benchmark.text n)).program
        Session.fresh.scopes
      (∃ r : Int64, r.toInt = wrap (Nat.fib n.toNat) ∧ run.outcome = .ok (some (.int r))) ∧
      (∀ v, Event.printed v ∉ run.events) ∧
      (run.scopes.scope? Session.fresh.scope).map (·.bindings.names) = some ["fibonacci"] := by
  rw [Benchmark.ofText_text]
  refine ⟨rfl, ⟨n.toNat + 1, ?_⟩, fun depth deep => ?_⟩
  · obtain ⟨after, events, ran, _⟩ := Benchmark.program_run (Nat.lt_succ_self n.toNat)
    show (program _ 0 _ _).outcome ≠ _
    rw [ran]
    exact nofun
  · obtain ⟨after, events, ran, extended, silent⟩ := Benchmark.program_run deep
    intro run
    have ran : run = _ := ran
    rw [ran]
    refine ⟨⟨_, toInt_ofInt_eq_wrap _, rfl⟩, silent, ?_⟩
    rw [show after.scope? Session.fresh.scope = _ from extended 0 _ Benchmark.scope?_bound]
    rfl

/-- The call `fibonacci(93)` would take too long to evaluate, but its result is known: the number is
too large for 64 bits, so it comes out negative. -/
theorem benchmark_computes_fibonacci_of_large :
    (93 : UInt32).toNat < 94 ∧
    (Eval.program 94 Session.fresh.scope (Parse.ofText (Benchmark.text 93)).program
      Session.fresh.scopes).outcome = .ok (some (.int (-6246583658587674878))) := by
  have deep : (93 : UInt32).toNat < 94 := by decide
  obtain ⟨⟨r, isWrapped, outcome⟩, _⟩ := (benchmark_computes_fibonacci 93).2.2 94 deep
  have value : wrap (Nat.fib (93 : UInt32).toNat) = (-6246583658587674878 : Int64).toInt := by
    decide +kernel
  refine ⟨deep, ?_⟩
  rw [outcome, Int64.toInt_inj.mp (isWrapped.trans value)]

end TreeWalk
