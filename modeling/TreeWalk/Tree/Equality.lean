import TreeWalk.Tree

/-!
# Equality of trees

Two trees are equal if they have the same shape and the same leaves, kept tokens included.

Results:
1. comparing trees decides their equality (`Expr.same_iff`, `Stmt.same_iff`, `Block.same_iff`), so
   equality of expressions, statements, blocks and programs is decidable.
-/

namespace TreeWalk

mutual

/-- Whether two expressions are the same tree. -/
def Expr.same : Expr → Expr → Bool
  | .ident a, .ident b => a == b
  | .int m, .int n => m == n
  | .str s, .str t => s == t
  | .bool p, .bool q => p == q
  | .prefixOp op right, .prefixOp op' right' => op == op' && right.same right'
  | .infixOp left op right, .infixOp left' op' right' =>
    op == op' && left.same left' && right.same right'
  | .ifElse cond yes none, .ifElse cond' yes' none => cond.same cond' && yes.same yes'
  | .ifElse cond yes (some no), .ifElse cond' yes' (some no') =>
    cond.same cond' && yes.same yes' && no.same no'
  | .fn params body, .fn params' body' => params == params' && body.same body'
  | .call callee args, .call callee' args' => callee.same callee' && Expr.sameList args args'
  | _, _ => false

/-- Whether two lists of expressions are the same, one by one. -/
def Expr.sameList : List Expr → List Expr → Bool
  | [], [] => true
  | e :: es, e' :: es' => e.same e' && Expr.sameList es es'
  | _, _ => false

/-- Whether two statements are the same tree. -/
def Stmt.same : Stmt → Stmt → Bool
  | .bind token name value, .bind token' name' value' =>
    token == token' && name == name' && value.same value'
  | .ret token value, .ret token' value' => token == token' && value.same value'
  | .expr token value, .expr token' value' => token == token' && value.same value'
  | _, _ => false

/-- Whether two lists of statements are the same, one by one. -/
def Stmt.sameList : List Stmt → List Stmt → Bool
  | [], [] => true
  | s :: ss, s' :: ss' => s.same s' && Stmt.sameList ss ss'
  | _, _ => false

/-- Whether two blocks are the same tree. -/
def Block.same : Block → Block → Bool
  | .mk token statements, .mk token' statements' =>
    token == token' && Stmt.sameList statements statements'

end

mutual

theorem Expr.same_iff : ∀ {a b : Expr}, a.same b = true ↔ a = b
  | .prefixOp _ right, b => by
    cases b <;> simp [Expr.same, Expr.same_iff (a := right)]
  | .infixOp left _ right, b => by
    cases b <;> simp [Expr.same, Expr.same_iff (a := left), Expr.same_iff (a := right)]
    grind
  | .ifElse cond yes none, b => by
    rcases b with _ | _ | _ | _ | _ | _ | ⟨_, _, _ | _⟩ | _ | _ <;>
      simp [Expr.same, Expr.same_iff (a := cond), Block.same_iff (a := yes)]
  | .ifElse cond yes (some no), b => by
    rcases b with _ | _ | _ | _ | _ | _ | ⟨_, _, _ | _⟩ | _ | _ <;>
      simp [Expr.same, Expr.same_iff (a := cond), Block.same_iff (a := yes),
        Block.same_iff (a := no), and_assoc]
  | .fn _ body, b => by
    cases b <;> simp [Expr.same, Block.same_iff (a := body)]
  | .call callee args, b => by
    cases b <;> simp [Expr.same, Expr.same_iff (a := callee), Expr.sameList_iff (a := args)]
  | .ident _, b | .int _, b | .str _, b | .bool _, b => by
    cases b <;> simp [Expr.same]

theorem Expr.sameList_iff : ∀ {a b : List Expr}, Expr.sameList a b = true ↔ a = b
  | [], b => by cases b <;> simp [Expr.sameList]
  | e :: es, b => by
    cases b <;> simp [Expr.sameList, Expr.same_iff (a := e), Expr.sameList_iff (a := es)]

theorem Stmt.same_iff : ∀ {a b : Stmt}, a.same b = true ↔ a = b
  | .bind _ _ value, b => by
    cases b <;> simp [Stmt.same, Expr.same_iff (a := value), and_assoc]
  | .ret _ value, b | .expr _ value, b => by
    cases b <;> simp [Stmt.same, Expr.same_iff (a := value)]

theorem Stmt.sameList_iff : ∀ {a b : List Stmt}, Stmt.sameList a b = true ↔ a = b
  | [], b => by cases b <;> simp [Stmt.sameList]
  | s :: ss, b => by
    cases b <;> simp [Stmt.sameList, Stmt.same_iff (a := s), Stmt.sameList_iff (a := ss)]

theorem Block.same_iff : ∀ {a b : Block}, a.same b = true ↔ a = b
  | .mk _ statements, .mk _ _ => by
    simp [Block.same, Stmt.sameList_iff (a := statements)]

end

instance : DecidableEq Expr := fun _ _ => decidable_of_iff _ Expr.same_iff

instance : DecidableEq Stmt := fun _ _ => decidable_of_iff _ Stmt.same_iff

instance : DecidableEq Block := fun _ _ => decidable_of_iff _ Block.same_iff

deriving instance DecidableEq for Program

end TreeWalk
