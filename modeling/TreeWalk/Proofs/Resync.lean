import Mathlib
import TreeWalk.Parser
import TreeWalk.Proofs.Boundary

/-!
# Recovery at a semicolon

A statement that fails is dropped, and reading goes on after the token at which it failed.  As long
as blocks are closed, that token is not behind the next semicolon outside of them, so whatever is
wrong before such a semicolon, what follows it is read as if it stood alone.  Only a block can take
in more, if a statement inside it is given up at its brace.

Results:
1. a program is its first statement and the program behind it, failed or not
   (`program_of_attempt`);
2. what is in front of a boundary is read on its own, unless an expression is missing at one
   (`program_boundary`);
3. hence a program without blocks is read piece by piece (`ofTokens_append_semicolon`), and so is
   one with blocks whose statements are not given up at their braces (`ofTokens_append_functionOf`).
-/

namespace TreeWalk

open Grammar Rule

/-! ## Programs -/

theorem statements_cons {expr : Precedence → Rule Expr} {ends : List TokenKind} {steps : Nat}
    {tracing : Bool} {level mid after : Nat} {tokens left rest : List Token} {read : Option Stmt}
    {ss : List Stmt} {notes notes' : List Note}
    (begins : (tokens.headD .eof).kind ∉ TokenKind.eof :: ends)
    (run : attempt (statement expr) tracing level tokens = ⟨some read, left, notes, mid⟩)
    (runs : statements expr ends steps tracing mid left.tail = ⟨some ss, rest, notes', after⟩) :
    statements expr ends (steps + 1) tracing level tokens =
      ⟨some (read.toList ++ ss), rest, notes ++ notes', after⟩ := by
  rw [statements, current_bind, if_neg begins, bind_of_some run, advance_bind, bind_of_some runs,
    pure_apply, List.append_nil]

/-- Reading the statements of a program never fails as a whole. -/
theorem statements_some (expr : Precedence → Rule Expr) (ends : List TokenKind) (steps : Nat)
    (tracing : Bool) (level : Nat) (tokens : List Token) :
    ∃ ss rest notes after,
      statements expr ends steps tracing level tokens = ⟨some ss, rest, notes, after⟩ := by
  induction steps generalizing level tokens with
  | zero => exact ⟨[], tokens, [], level, rfl⟩
  | succ steps ih =>
    by_cases ends' : (tokens.headD .eof).kind ∈ TokenKind.eof :: ends
    · refine ⟨[], tokens, [], level, ?_⟩
      rw [statements, current_bind, if_pos ends', pure_apply]
    · obtain ⟨read, left, notes, mid, run⟩ := attempt_some (statement expr) tracing level tokens
      obtain ⟨ss, rest, notes', after, runs⟩ := ih mid left.tail
      exact ⟨_, _, _, _, statements_cons ends' run runs⟩

theorem attempt_restored (bound : Nat) (tracing : Bool) (level : Nat) (tokens : List Token) :
    ∃ read left notes,
      attempt (statement (expression bound)) tracing level tokens =
        ⟨some read, left, notes, level⟩ := by
  obtain ⟨read, left, notes, after, run⟩ :=
    attempt_some (statement (expression bound)) tracing level tokens
  obtain rfl := (Grammatical.statement.restores bound).attempt.eq_of_run run
  exact ⟨read, left, notes, run⟩

theorem program_some (tracing : Bool) (level : Nat) (tokens : List Token) :
    ∃ ss rest notes,
      program tokens.length tracing level tokens = ⟨some ss, rest, notes, level⟩ := by
  obtain ⟨ss, rest, notes, after, run⟩ := statements_some _ [] tokens.length tracing level tokens
  obtain rfl := (Grammatical.statements [] _).restores _ |>.eq_of_run run
  exact ⟨ss, rest, notes, run⟩

/-- What two lists of tokens read as, one after the other. -/
instance : Append Parse where
  append first second :=
    ⟨⟨first.program.statements ++ second.program.statements⟩, first.notes ++ second.notes⟩

namespace Parse

theorem append_def (first second : Parse) :
    first ++ second =
      ⟨⟨first.program.statements ++ second.program.statements⟩, first.notes ++ second.notes⟩ :=
  rfl

theorem append_ofTokens_nil (parse : Parse) (tracing : Bool) :
    parse ++ ofTokens [] tracing = parse := by
  have ended : ofTokens [] tracing = ⟨⟨[]⟩, []⟩ := rfl
  rw [ended, append_def, List.append_nil, List.append_nil]

theorem ofTokens_of_program {tokens left : List Token} {tracing : Bool} {ss : List Stmt}
    {notes : List Note} {after : Nat}
    (run : Grammar.program tokens.length tracing 0 tokens = ⟨some ss, left, notes, after⟩) :
    ofTokens tokens tracing = ⟨⟨ss⟩, notes⟩ := by
  rw [ofTokens, outcome, run]
  rfl

theorem diagnostics_append (first second : Parse) :
    (first ++ second).diagnostics = first.diagnostics ++ second.diagnostics :=
  List.filterMap_append

end Parse

/-- Unless it ends at once, a program is its first statement, read or given up, and the program
behind the token at which that ended. -/
theorem program_of_attempt {tokens left rest : List Token} {tracing : Bool} {level : Nat}
    {read : Option Stmt} {ss : List Stmt} {notes notes' : List Note}
    (begins : (tokens.headD .eof).kind ≠ .eof)
    (run : attempt (statement (expression tokens.length)) tracing level tokens =
      ⟨some read, left, notes, level⟩)
    (more : program left.tail.length tracing level left.tail = ⟨some ss, rest, notes', level⟩) :
    program tokens.length tracing level tokens =
      ⟨some (read.toList ++ ss), rest, notes ++ notes', level⟩ := by
  have alike := expression_alike (Nat.le_refl tokens.length) (Nat.le_refl _)
  have fewer := (statement_alike alike (Nat.le_refl tokens.length)).attempt.left tracing level
  rw [run] at fewer
  cases size : tokens.length with
  | zero =>
    obtain rfl := List.length_eq_zero_iff.mp size
    exact absurd rfl begins
  | succ steps =>
    have behind : left.tail.length ≤ steps := by
      rw [List.length_tail]
      exact Nat.sub_le_of_le_add (size ▸ fewer)
    have covered : left.tail.length ≤ steps + 1 := Nat.le_succ_of_le behind
    rw [size] at run
    rw [program, statements_cons (fun ends => begins (List.mem_singleton.mp ends)) run
      ((statements_eq_program covered behind tracing level).trans more)]

/-- What is missing in the first statement of a program is missing in the program. -/
theorem missing_of_attempt {tokens : List Token} {tracing : Bool} {level : Nat}
    {kinds : List TokenKind}
    (begins : (tokens.headD .eof).kind ≠ .eof)
    (missing : Missing kinds
      (attempt (statement (expression tokens.length)) tracing level tokens).notes) :
    Missing kinds (program tokens.length tracing level tokens).notes := by
  obtain ⟨read, left, notes, run⟩ := attempt_restored tokens.length tracing level tokens
  obtain ⟨ss, rest, notes', more⟩ := program_some tracing level left.tail
  rw [run] at missing
  rw [program_of_attempt begins run more]
  exact missing.append_left

theorem missing_of_behind {tokens left : List Token} {tracing : Bool} {level : Nat}
    {read : Option Stmt}
    {notes : List Note} {kinds : List TokenKind} (begins : (tokens.headD .eof).kind ≠ .eof)
    (run : attempt (statement (expression tokens.length)) tracing level tokens =
      ⟨some read, left, notes, level⟩)
    (missing : Missing kinds (program left.tail.length tracing level left.tail).notes) :
    Missing kinds (program tokens.length tracing level tokens).notes := by
  obtain ⟨ss, rest, notes', more⟩ := program_some tracing level left.tail
  rw [more] at missing
  rw [program_of_attempt begins run more]
  exact missing.append_right

/-- Where a program goes on at a boundary: a semicolon has ended a statement. -/
def Boundary.behind : Boundary → List Token → List Token
  | semicolon, rest => rest
  | rbrace, rest => .rbrace :: rest
  | eof, rest => .eof :: rest

theorem begins_of_not_mem {tokens : List Token} (inside : .eof ∉ tokens) (some : tokens ≠ [])
    (token : Token) : (tokens.headD token).kind ≠ .eof := by
  cases tokens with
  | nil => exact absurd rfl some
  | cons first tokens =>
    intro ends
    exact inside (Token.eq_eof ends ▸ List.mem_cons_self ..)

/-- What is wrong in front of a boundary changes nothing behind it, unless an expression is missing
at one. -/
theorem program_boundary (stop : Boundary) {kinds : List TokenKind} {front : List Token}
    (covered : stop = .semicolon ∨ stop.token.kind ∈ kinds) (closed : Closed kinds front)
    (inside : .eof ∉ front) (tracing : Bool) (level : Nat) :
    (∀ rest, Missing kinds (program (front ++ stop.token :: rest).length tracing level
      (front ++ stop.token :: rest)).notes) ∨
    ∃ ss notes, ∀ {rest left : List Token} {ss' : List Stmt} {notes' : List Note},
      program (stop.behind rest).length tracing level (stop.behind rest) =
          ⟨some ss', left, notes', level⟩ →
        program (front ++ stop.token :: rest).length tracing level (front ++ stop.token :: rest) =
          ⟨some (ss ++ ss'), left, notes ++ notes', level⟩ := by
  -- Every statement takes at least one token, so the induction is on their number.
  induction size : front.length using Nat.strongRecOn generalizing front with
  | ind size ih =>
    subst size
    by_cases goes : Ended stop front
    · have begins (rest : List Token) : ((front ++ stop.token :: rest).headD .eof).kind ≠ .eof := by
        rw [headD_append]
        cases front with
        | nil =>
          rw [goes rfl]
          exact nofun
        | cons first front => exact begins_of_not_mem inside (List.cons_ne_nil _ _) _
      have large (rest : List Token) : front.length < (front ++ stop.token :: rest).length := by
        simp
      rcases attempt_uniform stop covered closed tracing level with
        missing | ⟨read, left, notes, within, ended, run⟩
      · exact .inl fun rest => missing_of_attempt (begins rest) (missing _ rest (large rest))
      · have run (rest : List Token) := run _ rest (large rest)
        cases left with
        | nil =>
          obtain rfl := ended rfl
          exact .inr ⟨read.toList, notes, fun more => program_of_attempt (begins _) (run _) more⟩
        | cons last left =>
          have fewer : left.length < front.length := within.length_le
          have within := (List.suffix_cons last left).trans within
          have inside : .eof ∉ left := fun there => inside (within.subset there)
          rcases ih left.length fewer (closed.behind within) inside rfl with
            missing | ⟨ss, notes', reads⟩
          · exact .inl fun rest => missing_of_behind (begins rest) (run rest) (missing rest)
          · refine .inr ⟨read.toList ++ ss, notes ++ notes', fun more => ?_⟩
            rw [program_of_attempt (begins _) (run _) (reads more), List.append_assoc,
              List.append_assoc]
    · obtain ⟨rfl, other⟩ := Classical.not_imp.mp goes
      refine .inr ⟨[], [], fun more => ?_⟩
      cases stop <;> first | exact absurd rfl other | exact more

theorem ofTokens_boundary {kinds : List TokenKind} {front : List Token}
    (closed : Closed kinds front) (inside : .eof ∉ front) (tracing : Bool) :
    (∀ rest, Missing kinds (Parse.ofTokens (front ++ .semicolon :: rest) tracing).notes) ∨
    ∃ parse, ∀ rest, Parse.ofTokens (front ++ .semicolon :: rest) tracing =
      parse ++ Parse.ofTokens rest tracing := by
  rcases program_boundary .semicolon (.inl rfl) closed inside tracing 0 with
    missing | ⟨ss, notes, reads⟩
  · exact .inl missing
  · refine .inr ⟨⟨⟨ss⟩, notes⟩, fun rest => ?_⟩
    obtain ⟨ss', left, notes', more⟩ := program_some tracing 0 rest
    have both : Parse.ofTokens (front ++ .semicolon :: rest) tracing =
        ⟨⟨ss ++ ss'⟩, notes ++ notes'⟩ := Parse.ofTokens_of_program (reads more)
    rw [both, Parse.ofTokens_of_program more]
    rfl

/-- What is wrong before a semicolon outside blocks changes nothing behind it. -/
theorem exists_ofTokens_eq_append {front : List Token} (clear : .lbrace ∉ front)
    (inside : .eof ∉ front) (tracing : Bool) :
    ∃ parse, ∀ rest, Parse.ofTokens (front ++ .semicolon :: rest) tracing =
      parse ++ Parse.ofTokens rest tracing := by
  have closed : Closed [] front := by
    refine ⟨fun left within => ?_, fun opens => absurd opens clear⟩
    rw [List.count_eq_zero_of_not_mem fun opens => clear (within.subset opens)]
    exact Nat.zero_le _
  rcases ofTokens_boundary closed inside tracing with missing | split
  · obtain ⟨kind, none, _⟩ := missing []
    cases none
  · exact split

/-- Where no block is opened before it, a semicolon parts the tokens: what stands on either side is
read as if it stood alone. -/
theorem ofTokens_append_semicolon {a : List Token} (clear : .lbrace ∉ a) (inside : .eof ∉ a)
    (b : List Token) (tracing : Bool) :
    (Parse.ofTokens (a ++ [.semicolon] ++ b) tracing).program.statements =
        (Parse.ofTokens (a ++ [.semicolon]) tracing).program.statements ++
          (Parse.ofTokens b tracing).program.statements ∧
      (Parse.ofTokens (a ++ [.semicolon] ++ b) tracing).diagnostics =
        (Parse.ofTokens (a ++ [.semicolon]) tracing).diagnostics ++
          (Parse.ofTokens b tracing).diagnostics := by
  obtain ⟨parse, reads⟩ := exists_ofTokens_eq_append clear inside tracing
  have alone : Parse.ofTokens (a ++ [.semicolon]) tracing = parse := by
    rw [reads [], Parse.append_ofTokens_nil]
  have both : Parse.ofTokens (a ++ [.semicolon] ++ b) tracing =
      parse ++ Parse.ofTokens b tracing := by
    rw [List.append_assoc]
    exact reads b
  rw [alone, both]
  exact ⟨rfl, Parse.diagnostics_append _ _⟩

/-- Of `let x (, z = ;` little is left, but `let y = w; if` is read as if it stood alone. -/
theorem ofTokens_append_semicolon_of_damage :
    .lbrace ∉ [Token.letWord, .ident "x", .lparen, .comma, .ident "z", .assign] ∧
    .eof ∉ [Token.letWord, .ident "x", .lparen, .comma, .ident "z", .assign] ∧
    (Parse.ofTokens ([.letWord, .ident "x", .lparen, .comma, .ident "z", .assign] ++
      [.semicolon] ++ [.letWord, .ident "y", .assign, .ident "w", .semicolon, .ifWord])
      false).program.statements =
      [.expr (.ident "z") (.ident ⟨.ident "z"⟩),
        .bind .letWord ⟨.ident "y"⟩ (.ident ⟨.ident "w"⟩)] ∧
    (Parse.ofTokens ([.letWord, .ident "x", .lparen, .comma, .ident "z", .assign] ++
      [.semicolon] ++ [.letWord, .ident "y", .assign, .ident "w", .semicolon, .ifWord])
      false).diagnostics =
      [.unexpected .assign .lparen, .noExpression .comma, .noExpression .assign,
        .noExpression .semicolon, .unexpected .lparen .eof] := by
  have clear : .lbrace ∉ [Token.letWord, .ident "x", .lparen, .comma, .ident "z", .assign] := by
    decide
  have inside : .eof ∉ [Token.letWord, .ident "x", .lparen, .comma, .ident "z", .assign] := by
    decide
  obtain ⟨statements, diagnostics⟩ := ofTokens_append_semicolon clear inside
    [.letWord, .ident "y", .assign, .ident "w", .semicolon, .ifWord] false
  refine ⟨clear, inside, ?_, ?_⟩
  · rw [statements]
    rfl
  · rw [diagnostics]
    rfl

/-! ## Blocks -/

/-- A function without parameters that stands as a statement. -/
def functionOf (body : List Token) : List Token :=
  .fnWord :: .lparen :: .rparen :: .lbrace :: (body ++ [.rbrace, .semicolon])

theorem missing_iff {kinds : List TokenKind} {parse : Parse} :
    Missing kinds parse.notes ↔ ∃ kind ∈ kinds, .noExpression kind ∈ parse.diagnostics := by
  have noted (d : Diagnostic) : d ∈ parse.diagnostics ↔ .diagnostic d ∈ parse.notes := by
    rw [Parse.diagnostics, List.mem_filterMap]
    constructor
    · rintro ⟨note, member, told⟩
      cases note <;> cases told
      exact member
    · exact fun member => ⟨_, member, rfl⟩
  simp only [Missing, noted]

/-- Unless an expression is missing at a closing brace, a program of which the blocks are closed is
read on behind a semicolon whatever is wrong in it. -/
theorem ofTokens_append_of_closed {a : List Token} {tracing : Bool} (closed : Closed [.rbrace] a)
    (inside : .eof ∉ a)
    (found : .noExpression .rbrace ∉ (Parse.ofTokens (a ++ [.semicolon]) tracing).diagnostics)
    (b : List Token) :
    Parse.ofTokens (a ++ [.semicolon] ++ b) tracing =
      Parse.ofTokens (a ++ [.semicolon]) tracing ++ Parse.ofTokens b tracing := by
  rcases ofTokens_boundary closed inside tracing with missing | ⟨parse, reads⟩
  · obtain ⟨kind, brace, noted⟩ := missing_iff.mp (missing [])
    obtain rfl := List.mem_singleton.mp brace
    exact absurd noted found
  · have alone : Parse.ofTokens (a ++ [.semicolon]) tracing = parse :=
      (reads []).trans (Parse.append_ofTokens_nil parse tracing)
    rw [alone, List.append_assoc]
    exact reads b

/-- A token that opens no block leaves none open. -/
theorem Closed.cons {kinds : List TokenKind} {front : List Token} {token : Token}
    (closed : Closed kinds front) (other : .lbrace ≠ token) : Closed kinds (token :: front) := by
  refine ⟨fun left within => ?_, fun opens => closed.opens ?_⟩
  · rcases List.suffix_cons_iff.mp within with rfl | behind
    · rw [List.count_cons_of_ne other.symm]
      exact Nat.le_trans (closed.closing _ List.suffix_rfl) List.count_le_count_cons
    · exact closed.closing left behind
  · exact (List.mem_cons.mp opens).resolve_left other

/-- A block is closed whatever stands in it, if its braces are matched. -/
theorem Matched.closed_block {m : List Token} (matched : Matched m) :
    Closed [.rbrace] (.lbrace :: (m ++ [.rbrace])) := by
  refine ⟨fun left within => ?_, fun _ => List.mem_cons_self ..⟩
  rcases List.suffix_cons_iff.mp within with rfl | behind
  · have balanced : m.count .lbrace = m.count .rbrace := matched.balanced
    simp [balanced]
  rcases List.suffix_concat_iff.mp behind with rfl | ⟨left, rfl, inner⟩
  · exact Nat.le_refl _
  · have closing := matched.closing left inner
    simp
    omega

/-- However badly the body of a function is written, what follows the function is read as if it
stood alone, unless an expression is missing where a block closes. -/
theorem ofTokens_append_functionOf {m : List Token} {tracing : Bool} (matched : Matched m)
    (inside : .eof ∉ m)
    (found : .noExpression .rbrace ∉ (Parse.ofTokens (functionOf m) tracing).diagnostics)
    (b : List Token) :
    (Parse.ofTokens (functionOf m ++ b) tracing).program.statements =
        (Parse.ofTokens (functionOf m) tracing).program.statements ++
          (Parse.ofTokens b tracing).program.statements ∧
      (Parse.ofTokens (functionOf m ++ b) tracing).diagnostics =
        (Parse.ofTokens (functionOf m) tracing).diagnostics ++
          (Parse.ofTokens b tracing).diagnostics := by
  have closed : Closed [.rbrace]
      (.fnWord :: .lparen :: .rparen :: .lbrace :: (m ++ [.rbrace])) :=
    ((matched.closed_block.cons (by decide)).cons (by decide)).cons (by decide)
  have split : functionOf m =
      .fnWord :: .lparen :: .rparen :: .lbrace :: (m ++ [.rbrace]) ++ [.semicolon] := by
    simp [functionOf]
  rw [split] at found
  rw [split, ofTokens_append_of_closed closed (by simpa using inside) found b]
  exact ⟨rfl, Parse.diagnostics_append _ _⟩

/-- Inside `fn() { if (x) { let } };` a binding breaks off, and `1` is read behind it. -/
theorem ofTokens_append_functionOf_of_damage :
    Matched [Token.ifWord, .lparen, .ident "x", .rparen, .lbrace, .letWord, .rbrace] ∧
    .eof ∉ [Token.ifWord, .lparen, .ident "x", .rparen, .lbrace, .letWord, .rbrace] ∧
    (Parse.ofTokens (functionOf [.ifWord, .lparen, .ident "x", .rparen, .lbrace, .letWord,
      .rbrace] ++ [.int "1"]) false).program.statements =
      [.expr .fnWord (.fn [] (.mk .lbrace [.expr .ifWord
          (.ifElse (.ident ⟨.ident "x"⟩) (.mk .lbrace []) none)])),
        .expr (.int "1") (.int 1)] ∧
    (Parse.ofTokens (functionOf [.ifWord, .lparen, .ident "x", .rparen, .lbrace, .letWord,
      .rbrace] ++ [.int "1"]) false).diagnostics = [.unexpected .ident .rbrace] := by
  have matched :
      Matched [Token.ifWord, .lparen, .ident "x", .rparen, .lbrace, .letWord, .rbrace] := by decide
  have inside :
      .eof ∉ [Token.ifWord, .lparen, .ident "x", .rparen, .lbrace, .letWord, .rbrace] := by decide
  have alone : Parse.ofTokens (functionOf [.ifWord, .lparen, .ident "x", .rparen, .lbrace,
      .letWord, .rbrace]) false = ⟨⟨[.expr .fnWord (.fn [] (.mk .lbrace [.expr .ifWord
        (.ifElse (.ident ⟨.ident "x"⟩) (.mk .lbrace []) none)]))]⟩,
        [.diagnostic (.unexpected .ident .rbrace), .dropped]⟩ := by cbv
  have found : .noExpression .rbrace ∉ (Parse.ofTokens (functionOf [.ifWord, .lparen, .ident "x",
      .rparen, .lbrace, .letWord, .rbrace]) false).diagnostics := by
    rw [alone]
    decide
  obtain ⟨statements, diagnostics⟩ := ofTokens_append_functionOf matched inside found [.int "1"]
  rw [alone] at statements diagnostics
  exact ⟨matched, inside, statements, diagnostics⟩

/-- In `fn() { return }; 1` the return is given up at the brace, and the function takes in the
`1`. -/
theorem block_takes_in_what_follows :
    ¬ ∀ m b : List Token, Matched m → .eof ∉ m →
      (Parse.ofTokens b).program.statements <:+
        (Parse.ofTokens (functionOf m ++ b)).program.statements := by
  intro always
  have ends := always [.returnWord] [.int "1"] (by decide) (by decide)
  have one : (Parse.ofTokens [.int "1"]).program.statements = [.expr (.int "1") (.int 1)] := rfl
  have function : (Parse.ofTokens (functionOf [.returnWord] ++ [.int "1"])).program.statements =
      [.expr .fnWord (.fn [] (.mk .lbrace [.expr (.int "1") (.int 1)]))] := rfl
  rw [one, function] at ends
  exact nomatch List.mem_singleton.mp (ends.subset (List.mem_cons_self ..))

end TreeWalk
