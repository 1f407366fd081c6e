import TreeWalk.Proofs.Domain
import TreeWalk.Proofs.FirstClass
import TreeWalk.Proofs.RoundTrip

/-!
# Renderable trees

What is read from a text, however wrong, uses a part of the trees only: names are words, integers
are not negative, strings hold no quote, and `!` stands before operands, never between them.  These
are the trees that can be written and read back, and the evaluator never sees any others, since
every function it calls has its body from a text.

Results:
1. a tree is renderable exactly if it can be read back from its text (`Expr.plain_iff_renderable`),
   so whatever is read from a text is renderable;
2. the values that come of renderable trees and the errors that stop them are a closed domain
   (`Domain.renderable_closed`);
3. hence no error of any session of texts is about `!`, and none about a sign other than `-`
   (`parsed_stays_renderable`).
-/

namespace TreeWalk

/-! ## Trees -/

/-- The name is a word that is read as a name, and nothing but its text. -/
def Ident.Renderable (ident : Ident) : Prop :=
  ∃ name, IsName name ∧ ident = .ofName name

mutual

/-- An expression as texts spell it, with everything inside it. -/
def Expr.Renderable : Expr → Prop
  | .ident ident => ident.Renderable
  | .int value => 0 ≤ value.toInt ∧ value.toInt ≤ 2 ^ 63 - 1
  | .str text => '"' ∉ text.toList
  | .bool _ => True
  | .prefixOp op right => (op = .bang ∨ op = .minus) ∧ right.Renderable
  | .infixOp left op right => op ≠ .bang ∧ left.Renderable ∧ right.Renderable
  | .ifElse cond yes none => cond.Renderable ∧ yes.Renderable
  | .ifElse cond yes (some no) => cond.Renderable ∧ yes.Renderable ∧ no.Renderable
  | .fn params body => (∀ param ∈ params, param.Renderable) ∧ body.Renderable
  | .call callee args => callee.Renderable ∧ Expr.AllRenderable args

/-- Expressions as texts spell them. -/
def Expr.AllRenderable : List Expr → Prop
  | [] => True
  | e :: es => e.Renderable ∧ Expr.AllRenderable es

/-- A statement as texts spell it.  An expression statement may keep any token. -/
def Stmt.Renderable : Stmt → Prop
  | .bind token name value => token = .letWord ∧ name.Renderable ∧ value.Renderable
  | .ret token value => token = .returnWord ∧ value.Renderable
  | .expr _ value => value.Renderable

/-- Statements as texts spell them. -/
def Stmt.AllRenderable : List Stmt → Prop
  | [] => True
  | s :: ss => s.Renderable ∧ Stmt.AllRenderable ss

/-- A block as texts spell it. -/
def Block.Renderable : Block → Prop
  | .mk token statements => token = .lbrace ∧ Stmt.AllRenderable statements

end

/-- A program as texts spell it. -/
def Program.Renderable (program : Program) : Prop :=
  Stmt.AllRenderable program.statements

theorem Expr.AllRenderable.mem : ∀ {es : List Expr}, Expr.AllRenderable es → ∀ e ∈ es, e.Renderable
  | [], _ => nofun
  | _ :: _, ⟨first, more⟩ => List.forall_mem_cons.mpr ⟨first, more.mem⟩

theorem Stmt.AllRenderable.mem : ∀ {ss : List Stmt}, Stmt.AllRenderable ss → ∀ s ∈ ss, s.Renderable
  | [], _ => nofun
  | _ :: _, ⟨first, more⟩ => List.forall_mem_cons.mpr ⟨first, more.mem⟩

/-! ## Trees that can be read back -/

/-- A phrase all of whose trees are renderable. -/
def Phrase.Renderable : Phrase → Prop
  | .expr _ e => e.Renderable
  | .moreArgs es => Expr.AllRenderable es
  | .stmt s => s.Renderable
  | .stmts ss => Stmt.AllRenderable ss
  | .block b => b.Renderable

theorem Written.renderable {phrase : Phrase} {tokens : List Token}
    (written : Written phrase tokens) : phrase.Renderable := by
  induction written with
  | ident isName => exact ⟨_, isName, rfl⟩
  | int nonneg => exact ⟨nonneg, Int64.toInt_le _⟩
  | str unquoted => exact unquoted
  | trueWord | falseWord | noMoreArgs | noStmts => trivial
  | prefixOp isSign _ ih => exact ⟨isSign, ih⟩
  | infixOp infixed _ _ ihLeft ihRight => exact ⟨infixed, ihLeft, ihRight⟩
  | ifThen _ _ ihTest ihYes => exact ⟨ihTest, ihYes⟩
  | ifElse _ _ _ ihTest ihYes ihNo => exact ⟨ihTest, ihYes, ihNo⟩
  | fn all _ ih =>
    refine ⟨fun param member => ?_, ih⟩
    obtain ⟨name, there, rfl⟩ := List.mem_map.mp member
    exact ⟨name, all name there, rfl⟩
  | callNone _ ih => exact ⟨ih, trivial⟩
  | call _ _ _ ihCallee ihArg ihMore => exact ⟨ihCallee, ihArg, ihMore⟩
  | moreArgs _ _ ihArg ihMore => exact ⟨ihArg, ihMore⟩
  | bind isName _ ih => exact ⟨rfl, ⟨_, isName, rfl⟩, ih⟩
  | ret _ ih => exact ⟨rfl, ih⟩
  | expr _ _ ih => exact ih
  | stmts _ _ ihFirst ihRest => exact ⟨ihFirst, ihRest⟩
  | block _ ih => exact ⟨rfl, ih⟩

theorem Ident.eq_map_ofName {params : List Ident} (all : ∀ param ∈ params, param.Renderable) :
    ∃ names : List String, (∀ name ∈ names, IsName name) ∧ params = names.map .ofName := by
  induction params with
  | nil => exact ⟨[], nofun, rfl⟩
  | cons param params ih =>
    obtain ⟨⟨name, isName, rfl⟩, rest⟩ := List.forall_mem_cons.mp all
    obtain ⟨names, areNames, rfl⟩ := ih rest
    exact ⟨name :: names, List.forall_mem_cons.mpr ⟨isName, areNames⟩, rfl⟩

mutual

theorem Expr.Renderable.plain : ∀ {e : Expr}, e.Renderable → e.Plain
  | .ident _, ⟨_, isName, same⟩ => same ▸ ⟨_, .ident isName⟩
  | .int _, ⟨nonneg, _⟩ => ⟨_, .int nonneg⟩
  | .str _, unquoted => ⟨_, .str unquoted⟩
  | .bool true, _ => ⟨_, .trueWord⟩
  | .bool false, _ => ⟨_, .falseWord⟩
  | .prefixOp _ _, ⟨isSign, right⟩ =>
    have ⟨_, operand⟩ := right.plain
    ⟨_, .prefixOp isSign operand⟩
  | .infixOp _ _ _, ⟨infixed, left, right⟩ =>
    have ⟨_, before⟩ := left.plain
    have ⟨_, behind⟩ := right.plain
    ⟨_, .infixOp infixed before behind⟩
  | .ifElse _ _ none, ⟨cond, yes⟩ =>
    have ⟨_, test⟩ := cond.plain
    have ⟨_, consequence⟩ := yes.plain
    ⟨_, .ifThen test consequence⟩
  | .ifElse _ _ (some _), ⟨cond, yes, no⟩ =>
    have ⟨_, test⟩ := cond.plain
    have ⟨_, consequence⟩ := yes.plain
    have ⟨_, alternative⟩ := no.plain
    ⟨_, .ifElse test consequence alternative⟩
  | .fn _ _, ⟨params, body⟩ =>
    have ⟨_, areNames, same⟩ := Ident.eq_map_ofName params
    have ⟨_, inner⟩ := body.plain
    same ▸ ⟨_, .fn areNames inner⟩
  | .call _ [], ⟨callee, _⟩ =>
    have ⟨_, target⟩ := callee.plain
    ⟨_, .callNone target⟩
  | .call _ (_ :: _), ⟨callee, arg, args⟩ =>
    have ⟨_, target⟩ := callee.plain
    have ⟨_, first⟩ := arg.plain
    have ⟨_, more⟩ := Expr.AllRenderable.plain args
    ⟨_, .call target first more⟩

theorem Expr.AllRenderable.plain : ∀ {es : List Expr}, Expr.AllRenderable es →
    (Phrase.moreArgs es).Plain
  | [], _ => ⟨_, .noMoreArgs⟩
  | _ :: _, ⟨arg, args⟩ =>
    have ⟨_, first⟩ := arg.plain
    have ⟨_, more⟩ := Expr.AllRenderable.plain args
    ⟨_, .moreArgs first more⟩

theorem Stmt.Renderable.plain : ∀ {s : Stmt}, s.Renderable → (Phrase.stmt s).Plain
  | .bind _ _ _, ⟨isLet, ⟨_, isName, same⟩, value⟩ =>
    have ⟨_, written⟩ := value.plain
    isLet ▸ same ▸ ⟨_, .bind isName written⟩
  | .ret _ _, ⟨isReturn, value⟩ =>
    have ⟨_, written⟩ := value.plain
    isReturn ▸ ⟨_, .ret written⟩
  | .expr token _, value =>
    have ⟨_, written⟩ := Expr.Renderable.plain value
    ⟨_, .expr token written⟩

theorem Stmt.AllRenderable.plain : ∀ {ss : List Stmt}, Stmt.AllRenderable ss →
    (Phrase.stmts ss).Plain
  | [], _ => ⟨_, .noStmts⟩
  | _ :: _, ⟨s, ss⟩ =>
    have ⟨_, first⟩ := s.plain
    have ⟨_, rest⟩ := Stmt.AllRenderable.plain ss
    ⟨_, .stmts first rest⟩

theorem Block.Renderable.plain : ∀ {b : Block}, b.Renderable → (Phrase.block b).Plain
  | .mk _ _, ⟨isBrace, statements⟩ =>
    have ⟨_, inner⟩ := Stmt.AllRenderable.plain statements
    isBrace ▸ ⟨_, .block inner⟩

end

/-- The renderable expressions are those that can be read back from their texts. -/
theorem Expr.plain_iff_renderable {e : Expr} : e.Plain ↔ e.Renderable :=
  ⟨fun ⟨_, written⟩ => written.renderable, Expr.Renderable.plain⟩

/-- Whatever notes there are on a text, what is read from it is renderable. -/
theorem renderable_of_ofText (text : String) : (Parse.ofText text).program.Renderable := by
  obtain ⟨tokens, written⟩ := plain_of_ofText text
  exact written.renderable

/-! ## Evaluation -/

/-- If the error is about an operator, then that is one which can fail where it stands: `-` before
an operand, anything but `!` between two. -/
def EvalError.Regular : EvalError → Prop
  | badPrefix op _ => op = .minus
  | badInfix _ op _ | mismatch _ op _ => op ≠ .bang
  | _ => True

/-- A value that may come of renderable trees: a function is written in them, and no other value has
a tree in it. -/
def Value.Renderable : Value → Prop
  | .function closure => (Expr.fn closure.params closure.body).Renderable
  | .returned _ | .error _ => False
  | _ => True

theorem EvalError.regular_of_prefixOp {op : Operator} (isSign : op = .bang ∨ op = .minus)
    {r : Value} {e : EvalError} (failed : r.prefixOp op = .error e) : e.Regular := by
  rcases isSign with rfl | rfl
  · cases failed
  · unfold Value.prefixOp at failed
    split at failed <;> cases failed
    rfl

theorem EvalError.regular_ofOperands {op : Operator} (infixed : op ≠ .bang) (left right : String) :
    (ofOperands left op right).Regular := by
  unfold ofOperands
  split <;> exact infixed

theorem EvalError.regular_of_infixOp {op : Operator} (infixed : op ≠ .bang) {l r : Value}
    {e : EvalError} (failed : l.infixOp op r = .error e) : e.Regular := by
  unfold Value.infixOp at failed
  split at failed
  · unfold Value.intOp at failed
    repeat' split at failed
    all_goals cases failed
    · trivial
    · exact absurd rfl infixed
  all_goals cases failed
  exact regular_ofOperands infixed _ _

/-- Renderable trees, what comes of them, and the errors that stop them. -/
def Domain.renderable : Domain where
  value := Value.Renderable
  error := EvalError.Regular
  expr := Expr.Renderable
  stmt := Stmt.Renderable
  block := Block.Renderable

theorem Domain.renderable_closed : renderable.Closed where
  plain {v} isValue := by
    cases v with
    | returned _ => cases isValue
    | _ => rfl
  scalar {v} scalar := by
    cases v with
    | int _ | bool _ | str _ => trivial
    | _ => cases scalar
  null := trivial
  builtin _ := trivial
  unrelated {e} other := by
    cases e with
    | badPrefix _ _ | badInfix _ _ _ | mismatch _ _ _ => cases other
    | _ => trivial
  prefixOp := fun ⟨isSign, right⟩ => ⟨right, EvalError.regular_of_prefixOp isSign⟩
  infixOp := fun ⟨infixed, left, right⟩ => ⟨left, right, EvalError.regular_of_infixOp infixed⟩
  ifElse {cond yes no} inside := by
    cases no with
    | none => exact ⟨inside.1, inside.2, nofun⟩
    | some no => exact ⟨inside.1, inside.2.1, fun _ isNo => Option.mem_some.mp isNo ▸ inside.2.2⟩
  fn _ inside := inside
  body := fun ⟨_, body⟩ => body
  call := fun ⟨callee, args⟩ => ⟨callee, args.mem⟩
  bind := fun ⟨_, _, value⟩ => value
  ret := fun ⟨_, value⟩ => value
  exprStmt value := value
  stmts := fun ⟨_, statements⟩ => statements.mem

/-! ## Sessions -/

/-- What a renderable program comes to after renderable programs. -/
structure Run.Renderable (run : Run (Option Value)) : Prop where
  error : ∀ {e}, run.outcome = .error (.error e) → e.Regular
  result : ∀ {v}, run.outcome = .ok (some v) → v.Renderable
  bound : run.scopes.BindsOnly Value.Renderable

theorem Run.renderable (depth : Nat) {before : List Program} {program : Program}
    (all : ∀ earlier ∈ before, earlier.Renderable) (last : program.Renderable) :
    (Eval.program depth Session.fresh.scope program
      (Eval.programs depth Session.fresh.scope before Session.fresh.scopes)).Renderable := by
  have binds := Domain.renderable_closed.after_programs depth Session.fresh.scope
    (fun earlier member => (all earlier member).mem) Scopes.binds_fresh
  have keeps := Domain.renderable_closed.keeps_program depth Session.fresh.scope last.mem
  obtain ⟨_, stopped, done⟩ := keeps _ binds
  exact ⟨fun ran => (stopped _ ran).2 _ rfl, fun ran => (done _ ran).2 _ rfl, keeps.after binds⟩

/-- What is read from a text is renderable, and in a session of renderable programs no error is
about a sign other than `-` or about a `!` between operands. -/
theorem parsed_stays_renderable :
    (∀ text : String, (Parse.ofText text).program.Renderable) ∧
    ∀ (depth : Nat) {before : List Program} {program : Program},
      (∀ earlier ∈ before, earlier.Renderable) → program.Renderable →
      ∀ {e : EvalError},
        (Eval.program depth Session.fresh.scope program
          (Eval.programs depth Session.fresh.scope before Session.fresh.scopes)).outcome =
            .error (.error e) →
        (∀ {op type}, e = .badPrefix op type → op = .minus) ∧
        ∀ {left op right}, e = .badInfix left op right ∨ e = .mismatch left op right →
          op ≠ .bang := by
  refine ⟨renderable_of_ofText, fun depth before program all last e ran => ?_⟩
  have regular := (Run.renderable depth all last).error ran
  refine ⟨?_, ?_⟩
  · rintro op type rfl
    exact regular
  · rintro left op right (rfl | rfl) <;> exact regular

/-- `!true` -/
def negatedTruth : Program :=
  ⟨[.expr .bang (.prefixOp .bang (.bool true))]⟩

/-- After `!true`, `-true` is stopped by an error about `-`, and `true + "a"` by one about `+`. -/
theorem parsed_stays_renderable_of_negation :
    (Eval.program 0 Session.fresh.scope ⟨[.expr .minus (.prefixOp .minus (.bool true))]⟩
      (Eval.programs 0 Session.fresh.scope [negatedTruth] Session.fresh.scopes)).outcome =
        .error (.error (.badPrefix .minus "BOOLEAN")) ∧
    (Eval.program 0 Session.fresh.scope ⟨[.expr .trueWord (.infixOp (.bool true) .plus (.str "a"))]⟩
      (Eval.programs 0 Session.fresh.scope [negatedTruth] Session.fresh.scopes)).outcome =
        .error (.error (.mismatch "BOOLEAN" .plus "STRING")) ∧
    Operator.minus = .minus ∧ Operator.plus ≠ .bang := by
  have all : ∀ earlier ∈ [negatedTruth], earlier.Renderable :=
    List.forall_mem_singleton.mpr ⟨⟨.inl rfl, trivial⟩, trivial⟩
  have sign : Program.Renderable ⟨[.expr .minus (.prefixOp .minus (.bool true))]⟩ :=
    ⟨⟨.inr rfl, trivial⟩, trivial⟩
  have unquoted : '"' ∉ "a".toList := by decide
  have sum : Program.Renderable ⟨[.expr .trueWord (.infixOp (.bool true) .plus (.str "a"))]⟩ :=
    ⟨⟨by decide, trivial, unquoted⟩, trivial⟩
  exact ⟨rfl, rfl, (parsed_stays_renderable.2 0 all sign rfl).1 rfl,
    (parsed_stays_renderable.2 0 all sum rfl).2 (.inr rfl)⟩

end TreeWalk
