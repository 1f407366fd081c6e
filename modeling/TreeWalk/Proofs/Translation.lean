import TreeWalk.Eval
import TreeWalk.Proofs.Bare

/-!
# Translations

Some things may be changed all through a program and its scopes without a change in what it does:
the tokens that expression statements keep, the numbers of scopes, and names.  A translation says
how they are changed.  It does not mix up scopes or names, it leaves scopes in the order in which
they were opened, and it knows the names of the built-in functions.

Results:
1. the translation of trees that changes nothing, and the one that changes nothing but the tokens of
   expression statements (`Expr.map_id`, `Expr.map_bare`);
2. if names stay and functions are written as before, then so is every value
   (`Translation.Unseen.text_value`);
3. if scopes mirror others, a name means in them what it means in the others, translated
   (`Translation.Mirrors.find?`), and they still do when scopes are opened or names are bound in
   both (`Translation.Mirrors.push`, `Translation.Mirrors.bind`);
4. scopes have no two mirrors (`Translation.Mirrors.unique`).
-/

namespace TreeWalk

/-! ## Trees -/

section

variable (ident : Ident → Ident) (kept : Token → Token)

mutual

/-- An expression with other identifiers, and other tokens kept by its expression statements. -/
def Expr.map : Expr → Expr
  | .ident name => .ident (ident name)
  | .int value => .int value
  | .str value => .str value
  | .bool value => .bool value
  | .prefixOp op right => .prefixOp op right.map
  | .infixOp left op right => .infixOp left.map op right.map
  | .ifElse cond yes no => .ifElse cond.map yes.map (Block.mapBranch no)
  | .fn params body => .fn (params.map ident) body.map
  | .call callee args => .call callee.map (Expr.mapList args)

/-- Expressions with other identifiers and tokens, one by one. -/
def Expr.mapList : List Expr → List Expr
  | [] => []
  | e :: es => e.map :: Expr.mapList es

/-- A statement with other identifiers and tokens. -/
def Stmt.map : Stmt → Stmt
  | .bind token name value => .bind token (ident name) value.map
  | .ret token value => .ret token value.map
  | .expr token value => .expr (kept token) value.map

/-- Statements with other identifiers and tokens, one by one. -/
def Stmt.mapList : List Stmt → List Stmt
  | [] => []
  | s :: ss => s.map :: Stmt.mapList ss

/-- A block with other identifiers and tokens. -/
def Block.map : Block → Block
  | .mk token statements => .mk token (Stmt.mapList statements)

/-- A branch with other identifiers and tokens, if it is there. -/
def Block.mapBranch : Option Block → Option Block
  | none => none
  | some no => some no.map

end

/-- A program with other identifiers and tokens. -/
def Program.map (program : Program) : Program :=
  ⟨Stmt.mapList ident kept program.statements⟩

end

mutual

theorem Expr.map_id : ∀ e : Expr, e.map id id = e
  | .ident _ => by rw [Expr.map, id]
  | .int _ | .str _ | .bool _ => by rw [Expr.map]
  | .prefixOp _ right => by rw [Expr.map, right.map_id]
  | .infixOp left _ right => by rw [Expr.map, left.map_id, right.map_id]
  | .ifElse cond yes none => by rw [Expr.map, cond.map_id, yes.map_id, Block.mapBranch]
  | .ifElse cond yes (some no) => by
    rw [Expr.map, cond.map_id, yes.map_id, Block.mapBranch, no.map_id]
  | .fn _ body => by rw [Expr.map, body.map_id, List.map_id]
  | .call callee args => by rw [Expr.map, callee.map_id, Expr.mapList_id args]

theorem Expr.mapList_id : ∀ es : List Expr, Expr.mapList id id es = es
  | [] => rfl
  | e :: es => by rw [Expr.mapList, e.map_id, Expr.mapList_id es]

theorem Stmt.map_id : ∀ s : Stmt, s.map id id = s
  | .bind _ _ value | .expr _ value => by rw [Stmt.map, value.map_id, id]
  | .ret _ value => by rw [Stmt.map, value.map_id]

theorem Stmt.mapList_id : ∀ ss : List Stmt, Stmt.mapList id id ss = ss
  | [] => rfl
  | s :: ss => by rw [Stmt.mapList, s.map_id, Stmt.mapList_id ss]

theorem Block.map_id : ∀ b : Block, b.map id id = b
  | .mk _ statements => by rw [Block.map, Stmt.mapList_id statements]

end

mutual

theorem Expr.map_bare : ∀ e : Expr, e.map id (fun _ => .eof) = e.bare
  | .ident _ => by rw [Expr.map, Expr.bare, id]
  | .int _ | .str _ | .bool _ => by rw [Expr.map, Expr.bare]
  | .prefixOp _ right => by rw [Expr.map, Expr.bare, right.map_bare]
  | .infixOp left _ right => by rw [Expr.map, Expr.bare, left.map_bare, right.map_bare]
  | .ifElse cond yes none => by
    rw [Expr.map, Expr.bare, cond.map_bare, yes.map_bare, Block.mapBranch]
  | .ifElse cond yes (some no) => by
    rw [Expr.map, Expr.bare, cond.map_bare, yes.map_bare, Block.mapBranch, no.map_bare]
  | .fn _ body => by rw [Expr.map, Expr.bare, body.map_bare, List.map_id]
  | .call callee args => by
    rw [Expr.map, Expr.bare, callee.map_bare, Expr.mapList_bares args]

theorem Expr.mapList_bares : ∀ es : List Expr, Expr.mapList id (fun _ => .eof) es = Expr.bares es
  | [] => rfl
  | e :: es => by rw [Expr.mapList, Expr.bares, e.map_bare, Expr.mapList_bares es]

theorem Stmt.map_bare : ∀ s : Stmt, s.map id (fun _ => .eof) = s.bare
  | .bind _ _ value => by rw [Stmt.map, Stmt.bare, value.map_bare, id]
  | .ret _ value | .expr _ value => by rw [Stmt.map, Stmt.bare, value.map_bare]

theorem Stmt.mapList_bares : ∀ ss : List Stmt, Stmt.mapList id (fun _ => .eof) ss = Stmt.bares ss
  | [] => rfl
  | s :: ss => by rw [Stmt.mapList, Stmt.bares, s.map_bare, Stmt.mapList_bares ss]

theorem Block.map_bare : ∀ b : Block, b.map id (fun _ => .eof) = b.bare
  | .mk _ statements => by rw [Block.map, Block.bare, Stmt.mapList_bares statements]

end

/-! ## Translations -/

/-- How a program and its scopes are changed. -/
structure Translation where
  ident : Ident → Ident
  name : String → String
  kept : Token → Token
  scope : ScopeId → ScopeId
  name_ident : ∀ i, (ident i).name = name i.name
  name_injective : Function.Injective name
  builtin : ∀ n, Builtin.ofName? (name n) = Builtin.ofName? n
  older : ∀ {a b}, scope a < scope b ↔ a < b

namespace Translation

/-! Names may stay as they are. -/

theorem name_ident_id (i : Ident) : (id i).name = id i.name :=
  rfl

theorem builtin_id (n : String) : Builtin.ofName? (id n) = Builtin.ofName? n :=
  rfl

variable (t : Translation)

/-- The translation of a function. -/
def closure (closure : Closure) : Closure :=
  ⟨closure.params.map t.ident, closure.body.map t.ident t.kept, t.scope closure.scope⟩

/-- The translation of an error. -/
def error : EvalError → EvalError
  | .unbound name => .unbound (t.name name)
  | e => e

/-- The translation of a value. -/
def value : Value → Value
  | .returned v => .returned (value v)
  | .error e => .error (t.error e)
  | .function closure => .function (t.closure closure)
  | v => v

/-- The translation of an event. -/
def event : Event → Event
  | .applied callee args => .applied (t.value callee) (args.map t.value)
  | .printed v => .printed (t.value v)

/-- The translation of the reason why an action stopped. -/
def stop : Stop → Stop
  | .error e => .error (t.error e)
  | .tooDeep => .tooDeep

theorem scope_injective {a b : ScopeId} (same : t.scope a = t.scope b) : a = b := by
  rcases Nat.lt_trichotomy a b with less | equal | more
  · exact absurd (t.older.mpr less) (same ▸ Nat.lt_irrefl _)
  · exact equal
  · exact absurd (t.older.mpr more) (same ▸ Nat.lt_irrefl _)

@[simp] theorem typeName_value (v : Value) : (t.value v).typeName = v.typeName := by
  cases v <;> rfl

@[simp] theorem isReturned_value (v : Value) : (t.value v).isReturned = v.isReturned := by
  cases v <;> rfl

@[simp] theorem truthy_value (v : Value) : (t.value v).truthy = v.truthy := by
  cases v <;> rfl

@[simp] theorem unwrap_value (v : Value) : (t.value v).unwrap = t.value v.unwrap := by
  cases v <;> rfl

/-- Nothing that is changed is ever written: names stay, and a function is written as before. -/
structure Unseen : Prop where
  name : ∀ n, t.name n = n
  text : ∀ closure, (t.closure closure).text = closure.text

namespace Unseen

variable {t}

theorem error_eq (unseen : t.Unseen) (e : EvalError) : t.error e = e := by
  cases e with
  | unbound name => exact congrArg EvalError.unbound (unseen.name name)
  | _ => rfl

theorem stop_eq (unseen : t.Unseen) (reason : Stop) : t.stop reason = reason := by
  cases reason with
  | error e => exact congrArg Stop.error (unseen.error_eq e)
  | tooDeep => rfl

theorem text_value (unseen : t.Unseen) (v : Value) : (t.value v).text = v.text := by
  induction v with
  | returned v ih => exact ih
  | error e => exact congrArg (fun e => (Value.error e).text) (unseen.error_eq e)
  | function closure => exact unseen.text closure
  | _ => rfl

end Unseen

/-! ## Mirrored scopes -/

/-- `t.MirrorsScope s s'`: the second scope has what the first has, translated, and no more. -/
structure MirrorsScope (s s' : Scope) : Prop where
  outer : s'.outer = s.outer.map t.scope
  bound : ∀ name, s'.bindings.get? (t.name name) = (s.bindings.get? name).map t.value
  only : ∀ {other v}, s'.bindings.get? other = some v → ∃ name, t.name name = other

/-- `t.Mirrors scopes scopes'`: every one of the first scopes is mirrored in the second ones, and so
is every scope that is still to be opened. -/
structure Mirrors (scopes scopes' : Scopes) : Prop where
  fresh : ∀ n, t.scope (scopes.size + n) = scopes'.size + n
  there : ∀ {id s}, scopes.scope? id = some s →
    ∃ s', scopes'.scope? (t.scope id) = some s' ∧ t.MirrorsScope s s'

namespace Mirrors

variable {t} {scopes scopes' : Scopes}

theorem scope?_eq_none (mirrors : t.Mirrors scopes scopes') {id : ScopeId}
    (missing : scopes.scope? id = none) : scopes'.scope? (t.scope id) = none := by
  obtain ⟨n, rfl⟩ := Nat.exists_eq_add_of_le (Array.getElem?_eq_none_iff.mp missing)
  refine Array.getElem?_eq_none ?_
  exact Nat.le_trans (Nat.le_add_right ..) (Nat.le_of_eq (mirrors.fresh n).symm)

theorem find? (mirrors : t.Mirrors scopes scopes') (name : String) (id : ScopeId) :
    scopes'.find? (t.name name) (t.scope id) = (scopes.find? name id).map t.value := by
  -- An outer scope is looked at only if it is older, so the induction is on the scope.
  induction id using Nat.strongRecOn with
  | ind id ih =>
    unfold Scopes.find?
    cases there : scopes.scope? id with
    | none =>
      rw [mirrors.scope?_eq_none there]
      rfl
    | some s =>
      obtain ⟨s', there', outer, bound, _⟩ := mirrors.there there
      simp only [there', bound name, outer]
      cases own : s.bindings.get? name with
      | some v => rfl
      | none =>
        cases around : s.outer with
        | none => rfl
        | some outer =>
          simp only [Option.map_none, Option.map_some, t.older]
          split
          · next older => exact ih outer older
          · rfl

theorem push (mirrors : t.Mirrors scopes scopes') (outer : Option ScopeId) :
    t.Mirrors (scopes.push outer) (scopes'.push (outer.map t.scope)) := by
  have opened : t.scope scopes.size = scopes'.size := mirrors.fresh 0
  refine ⟨fun n => ?_, fun {id s} there => ?_⟩
  · rw [Scopes.size_push, Scopes.size_push, Nat.succ_add_eq_add_succ, Nat.succ_add_eq_add_succ]
    exact mirrors.fresh (n + 1)
  · rw [Scopes.scope?_push] at there
    split at there
    · next new =>
      cases there
      refine ⟨⟨.empty, outer.map t.scope⟩, ?_, rfl, fun _ => rfl, nofun⟩
      rw [Scopes.scope?_push, if_pos (new ▸ opened)]
    · next old =>
      obtain ⟨s', there', same⟩ := mirrors.there there
      refine ⟨s', ?_, same⟩
      rw [Scopes.scope?_push, if_neg, there']
      exact fun new => old (t.scope_injective (new.trans opened.symm))

theorem bind (mirrors : t.Mirrors scopes scopes') (id : ScopeId) (name : String) (v : Value) :
    t.Mirrors (scopes.bind id name v) (scopes'.bind (t.scope id) (t.name name) (t.value v)) := by
  refine ⟨fun n => ?_, fun {other s} there => ?_⟩
  · rw [Scopes.size_bind, Scopes.size_bind]
    exact mirrors.fresh n
  · rw [Scopes.scope?_bind] at there
    split at there
    · next same =>
      subst same
      obtain ⟨before, found, rfl⟩ := Option.map_eq_some_iff.mp there
      obtain ⟨before', found', outer, bound, only⟩ := mirrors.there found
      refine ⟨{ before' with bindings := before'.bindings.insert (t.name name) (t.value v) }, ?_,
        outer, fun key => ?_, fun {key w} own => ?_⟩
      · rw [Scopes.scope?_bind, if_pos rfl, found']
        rfl
      · rw [Bindings.get?_insert, Bindings.get?_insert, bound key]
        by_cases here : key = name
        · rw [if_pos here, if_pos (congrArg t.name here)]
          rfl
        · rw [if_neg here, if_neg fun same => here (t.name_injective same)]
      · rw [Bindings.get?_insert] at own
        split at own
        · next here => exact ⟨name, here.symm⟩
        · exact only own
    · next differ =>
      obtain ⟨s', there', same⟩ := mirrors.there there
      refine ⟨s', ?_, same⟩
      rw [Scopes.scope?_bind, if_neg fun same => differ (t.scope_injective same), there']

end Mirrors

/-! ## Mirrors are determined -/

theorem MirrorsScope.unique {t : Translation} {s a b : Scope} (first : t.MirrorsScope s a)
    (second : t.MirrorsScope s b) : a = b := by
  obtain ⟨bindings, outer⟩ := a
  obtain ⟨bindings', outer'⟩ := b
  have sameBindings : bindings = bindings' := by
    refine Bindings.ext_get? fun other => ?_
    by_cases meant : ∃ name, t.name name = other
    · obtain ⟨name, rfl⟩ := meant
      exact (first.bound name).trans (second.bound name).symm
    · have none (mirrored : Scope) (mirrors : t.MirrorsScope s mirrored) :
          mirrored.bindings.get? other = Option.none :=
        Option.eq_none_iff_forall_ne_some.mpr fun _ own => meant (mirrors.only own)
      exact (none _ first).trans (none _ second).symm
  rw [sameBindings]
  exact congrArg (Scope.mk bindings') (first.outer.trans second.outer.symm)

/-- If every number of a scope is a translation, scopes have only one mirror. -/
theorem Mirrors.unique {t : Translation} {scopes a b : Scopes}
    (onto : Function.Surjective t.scope) (first : t.Mirrors scopes a)
    (second : t.Mirrors scopes b) :
    a = b := by
  refine Scopes.ext_scope? fun id => ?_
  obtain ⟨id, rfl⟩ := onto id
  cases there : scopes.scope? id with
  | none => exact (first.scope?_eq_none there).trans (second.scope?_eq_none there).symm
  | some s =>
    obtain ⟨s', there', mirrors⟩ := first.there there
    obtain ⟨s'', there'', mirrors'⟩ := second.there there
    rw [there', there'', mirrors.unique mirrors']

end Translation

end TreeWalk
