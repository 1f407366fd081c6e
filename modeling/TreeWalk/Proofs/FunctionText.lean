import Mathlib
import TreeWalk.Proofs.Renderable

/-!
# The text of a function

A function prints as it would be written in a program.  Since its body was read from a text, that
text can be read again, and evaluating it makes the same function once more.

Results:
1. a tree that is a function apart from the tokens that its expression statements keep is one
   (`Program.eq_fn_of_bare`);
2. the text of a renderable function is read as that function, whatever scopes there are when it is
   evaluated (`Closure.isSource`);
3. hence so is every function that comes up in a session of texts (`function_text_is_source`).
-/

namespace TreeWalk

/-! ## Programs of one function -/

theorem Expr.eq_fn_of_bare {e : Expr} {params : List Ident} {inner : Block}
    (same : e.bare = .fn params inner) : ∃ body, e = .fn params body ∧ body.bare = inner := by
  cases e with
  | fn params' body =>
    rw [Expr.bare] at same
    cases same
    exact ⟨body, rfl, rfl⟩
  | ifElse cond yes no => cases no <;> cases same
  | _ => cases same

theorem Program.eq_fn_of_bare {program : Program} {params : List Ident} {body : Block}
    (same : program.bare = (Program.ofExpr (.fn params body)).bare) :
    ∃ token body', program = ⟨[.expr token (.fn params body')]⟩ ∧ body'.bare = body.bare := by
  obtain ⟨statements⟩ := program
  have same : Stmt.bares statements = [.expr .eof (.fn params body.bare)] :=
    congrArg Program.statements same
  cases statements with
  | nil => cases same
  | cons s ss =>
    obtain ⟨first, rest⟩ := List.cons.inj same
    cases ss with
    | cons _ _ => cases rest
    | nil =>
      cases s with
      | bind _ _ _ | ret _ _ => cases first
      | expr token value =>
        obtain ⟨body', rfl, sameBody⟩ := Expr.eq_fn_of_bare (Stmt.expr.inj first).2
        exact ⟨token, body', rfl, sameBody⟩

/-! ## Functions -/

/-- The text of the function is a source of it: nothing is wrong with that text, it is read as the
function alone, and evaluated in any scope it makes a function of the same text, and does nothing
else. -/
structure Closure.IsSource (closure : Closure) : Prop where
  silent : (Parse.ofText closure.text).diagnostics = []
  same : ∃ token body,
    (Parse.ofText closure.text).program = ⟨[.expr token (.fn closure.params body)]⟩ ∧
      body.bare = closure.body.bare
  again : ∀ depth scope scopes, ∃ copy : Closure,
    Eval.program depth scope (Parse.ofText closure.text).program scopes =
        ⟨.ok (some (.function copy)), scopes, []⟩ ∧
      (Value.function copy).text = closure.text

theorem recovers_of_renderable {e : Expr} (renderable : e.Renderable) :
    (Parse.ofText e.text).Recovers (.ofExpr e) := by
  obtain ⟨tokens, written⟩ := Expr.plain_iff_renderable.mpr renderable
  have apart : Apart [] := nofun
  have lexed : Token.lex e.text.toList = tokens := by
    have done : Token.lex [] = [] := Token.lex_blank rfl
    have read := written.lexes.read apart
    rwa [List.append_nil, done, List.append_nil] at read
  rw [Parse.ofText, lexed]
  exact recovers_of_spells_expr written.spells

theorem Closure.isSource {closure : Closure}
    (renderable : (Value.function closure).Renderable) : closure.IsSource := by
  have recovers := recovers_of_renderable renderable
  obtain ⟨token, body, program, same⟩ := Program.eq_fn_of_bare recovers.same
  have program : (Parse.ofText closure.text).program =
      ⟨[.expr token (.fn closure.params body)]⟩ := program
  have sameText : body.text = closure.body.text := by
    rw [← body.text_bare, same, Block.text_bare]
  refine ⟨recovers.silent, ⟨token, body, program, same⟩, fun depth scope scopes => ?_⟩
  refine ⟨⟨closure.params, body, scope⟩, ?_, ?_⟩
  · rw [program]
    rfl
  · show (Expr.fn closure.params body).text = (Expr.fn closure.params closure.body).text
    rw [Expr.text, Expr.text, sameText]

/-- The text of a function is its source, whether the function is the result of a text that was
evaluated after others, or bound in some scope after that. -/
theorem function_text_is_source (depth : Nat) (before : List String) (text : String) :
    let run := Eval.program depth Session.fresh.scope (Parse.ofText text).program
      (Eval.programs depth Session.fresh.scope
        (before.map fun earlier => (Parse.ofText earlier).program) Session.fresh.scopes)
    (∀ {closure}, run.outcome = .ok (some (.function closure)) → closure.IsSource) ∧
    ∀ {id s name closure}, run.scopes.scope? id = some s →
      s.bindings.get? name = some (.function closure) → closure.IsSource := by
  have all : ∀ earlier ∈ before.map fun earlier => (Parse.ofText earlier).program,
      earlier.Renderable := by
    intro earlier member
    obtain ⟨earlierText, _, rfl⟩ := List.mem_map.mp member
    exact renderable_of_ofText earlierText
  have renderable := Run.renderable depth all (renderable_of_ofText text)
  exact ⟨fun ran => Closure.isSource (renderable.result ran), fun there own =>
    Closure.isSource (renderable.bound.bound there own)⟩

/-- The function `fn(x) { x; }`, made in the outermost scope. -/
def identityClosure : Closure :=
  ⟨[.ofName "x"], .mk .lbrace [.expr (.ident "x") (.ident (.ofName "x"))], 0⟩

/-- It is the result of `fn(x) { x }`, and after `let f = fn(x) { x }` it is what `f` stands for. -/
theorem function_text_is_source_of_identity :
    identityClosure.text = "fn(x) \x7b x; \x7d" ∧
    (Eval.program 0 0 (Parse.ofText "fn(x) \x7b x \x7d").program Session.fresh.scopes).outcome =
      .ok (some (.function identityClosure)) ∧
    (Eval.program 0 0 (Parse.ofText "let f = fn(x) \x7b x \x7d").program
      Session.fresh.scopes).scopes.find? "f" 0 = some (.function identityClosure) ∧
    identityClosure.IsSource ∧ (Parse.ofText identityClosure.text).diagnostics = [] := by
  have parsed : Parse.ofText "fn(x) \x7b x \x7d" =
      ⟨⟨[.expr .fnWord (.fn identityClosure.params identityClosure.body)]⟩, []⟩ := by cbv
  have parsed' : Parse.ofText "let f = fn(x) \x7b x \x7d" =
      ⟨⟨[.bind .letWord (.ofName "f") (.fn identityClosure.params identityClosure.body)]⟩, []⟩ := by
    cbv
  have ran : (Eval.program 0 0 (Parse.ofText "fn(x) \x7b x \x7d").program
      Session.fresh.scopes).outcome = .ok (some (.function identityClosure)) := by
    rw [parsed]
    rfl
  have there : (Eval.program 0 0 (Parse.ofText "let f = fn(x) \x7b x \x7d").program
      Session.fresh.scopes).scopes.scope? 0 =
        some ⟨Bindings.empty.insert "f" (.function identityClosure), none⟩ := by
    rw [parsed']
    rfl
  have own : (Bindings.empty.insert "f" (.function identityClosure)).get? "f" =
      some (.function identityClosure) := by
    rw [Bindings.get?_insert, if_pos rfl]
  have result := (function_text_is_source 0 [] "fn(x) \x7b x \x7d").1 ran
  have bound := (function_text_is_source 0 [] "let f = fn(x) \x7b x \x7d").2 there own
  exact ⟨by cbv, ran, Scopes.find?_of_own there own, result, bound.silent⟩

end TreeWalk
