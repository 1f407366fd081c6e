import Mathlib.Data.List.Infix
import TreeWalk.Proofs.Derivation

/-!
# Brackets

Parentheses and braces are nested in each other in everything that the grammar generates.

Results:
1. nested tokens leave the brackets around them as they are, so they can be put together
   (`brackets_append`);
2. what the grammar generates is nested (`Derives.nested`), so its braces are matched
   (`matched_of_nested`);
3. if some closing brace closes none that was opened before it, the braces before the first such one
   are matched (`opened_or_exists_matched`);
4. where closing braces at the end are all that is missing, nothing but that many braces is open
   (`brackets_append_braces_iff`).
-/

namespace TreeWalk

/-- What is still to be closed behind a token, innermost first, each bracket told by the token that
closes it; none if the token closes something else than what is innermost. -/
def bracket (closers : List Token) (token : Token) : Option (List Token) :=
  match token with
  | .lparen => some (.rparen :: closers)
  | .lbrace => some (.rbrace :: closers)
  | .rparen | .rbrace => if closers.head? = some token then some closers.tail else none
  | _ => some closers

/-- What is still to be closed behind tokens. -/
def brackets (closers : List Token) (tokens : List Token) : Option (List Token) :=
  tokens.foldlM bracket closers

/-- As many braces are opened as closed. -/
def Balanced (tokens : List Token) : Prop :=
  tokens.count .lbrace = tokens.count .rbrace

instance (tokens : List Token) : Decidable (Balanced tokens) :=
  inferInstanceAs (Decidable (_ = _))

/-- Every closing brace closes one that was opened before it, and none is left open. -/
structure Matched (tokens : List Token) : Prop where
  opened : ∀ front, front <+: tokens → front.count .rbrace ≤ front.count .lbrace
  balanced : Balanced tokens

/-- No brace is left open: from every token on, at least as many are closed as opened. -/
def Closing (tokens : List Token) : Prop :=
  ∀ left, left <:+ tokens → left.count .lbrace ≤ left.count .rbrace

theorem matched_iff_inits {tokens : List Token} :
    Matched tokens ↔
      (∀ front ∈ tokens.inits, front.count .rbrace ≤ front.count .lbrace) ∧ Balanced tokens := by
  simp only [List.mem_inits]
  exact ⟨fun matched => ⟨matched.opened, matched.balanced⟩, fun ⟨opened, balanced⟩ =>
    ⟨opened, balanced⟩⟩

instance (tokens : List Token) : Decidable (Matched tokens) :=
  decidable_of_iff' _ matched_iff_inits

/-! ## Nested tokens -/

@[simp] theorem brackets_nil (closers : List Token) : brackets closers [] = some closers :=
  rfl

@[simp] theorem brackets_cons (closers : List Token) (token : Token) (tokens : List Token) :
    brackets closers (token :: tokens) =
      (bracket closers token).bind fun closers => brackets closers tokens :=
  rfl

@[simp] theorem brackets_append (closers u v : List Token) :
    brackets closers (u ++ v) = (brackets closers u).bind fun closers => brackets closers v :=
  List.foldlM_append

@[simp] theorem bracket_operator (closers : List Token) (op : Operator) :
    bracket closers op.token = some closers := by
  cases op <;> rfl

@[simp] theorem brackets_moreNames (closers : List Token) (names : List String) :
    brackets closers (moreNames names) = some closers := by
  induction names with
  | nil => rfl
  | cons name names ih => exact ih

@[simp] theorem brackets_nameList (closers : List Token) (names : List String) :
    brackets closers (nameList names) = some closers := by
  cases names with
  | nil => rfl
  | cons name names => exact brackets_moreNames closers names

theorem Derives.nested {n : Nonterminal} {u : List Token} (derived : Derives n u)
    (closers : List Token) : brackets closers u = some closers := by
  induction derived generalizing closers with
  | noStmts | noMoreArgs | ident _ | int _ | str _ | trueWord | falseWord => rfl
  | unended _ ih | exprClause _ ih | operand _ ih | unsigned _ ih | bare _ ih => exact ih closers
  | moreStmts _ _ ih ih' | infixOp _ _ _ ih ih' | call _ _ ih ih' => simp [ih, ih']
  | prefixOp _ _ ih => simp [ih]
  | ended _ ih | bind _ _ ih | ret _ ih | block _ ih | group _ ih | fn _ _ ih =>
    simp [bracket, ih]
  | ifThen _ _ ih ih' | someArgs _ _ ih ih' | moreArgs _ _ ih ih' => simp [bracket, ih, ih']
  | ifElse _ _ _ ih ih' ih'' => simp [bracket, ih, ih', ih'']
  | noArgs => simp [bracket]

/-! ## Braces -/

theorem Matched.nil : Matched [] := by
  decide

theorem Matched.closing {tokens : List Token} (matched : Matched tokens) : Closing tokens := by
  rintro left ⟨front, rfl⟩
  have opened := matched.opened front (List.prefix_append ..)
  have balanced := matched.balanced
  rw [Balanced, List.count_append, List.count_append] at balanced
  omega

/-- Either every closing brace closes one that was opened before it, or there is a first one that
does not. -/
theorem opened_or_exists_matched (tokens : List Token) :
    (∀ front, front <+: tokens → front.count .rbrace ≤ front.count .lbrace) ∨
      ∃ inside behind, tokens = inside ++ .rbrace :: behind ∧ Matched inside := by
  induction tokens using List.reverseRecOn with
  | nil => exact .inl Matched.nil.opened
  | append_singleton tokens last ih =>
    rcases ih with opened | ⟨inside, behind, rfl, matched⟩
    · have before := opened tokens List.prefix_rfl
      by_cases enough : (tokens ++ [last]).count .rbrace ≤ (tokens ++ [last]).count .lbrace
      · refine .inl fun front within => ?_
        rcases List.prefix_concat_iff.mp within with rfl | within
        · exact enough
        · exact opened front within
      · rw [List.count_append, List.count_append] at enough
        have closes : last = .rbrace := by
          by_contra other
          rw [List.count_singleton, if_neg (mt beq_iff_eq.mp other)] at enough
          omega
        subst closes
        have one : [Token.rbrace].count .rbrace = 1 := rfl
        have none : [Token.rbrace].count .lbrace = 0 := rfl
        exact .inr ⟨tokens, [], rfl, opened, by rw [Balanced]; omega⟩
    · exact .inr ⟨inside, behind ++ [last], List.append_assoc .., matched⟩

/-- Every brace that is still to be closed has been opened. -/
theorem count_bracket {closers after : List Token} {token : Token}
    (done : bracket closers token = some after) :
    closers.count .rbrace + [token].count .lbrace =
      after.count .rbrace + [token].count .rbrace := by
  unfold bracket at done
  split at done
  · cases done
    rfl
  · cases done
    exact (List.count_cons_self ..).symm
  · obtain ⟨first, rest⟩ := Option.ite_none_right_eq_some.mp done
    cases rest
    obtain ⟨closers, rfl⟩ := List.head?_eq_some_iff.mp first
    rfl
  · obtain ⟨first, rest⟩ := Option.ite_none_right_eq_some.mp done
    cases rest
    obtain ⟨closers, rfl⟩ := List.head?_eq_some_iff.mp first
    exact @List.count_cons_self Token _ _ .rbrace closers
  · next _ opens _ closes =>
    cases done
    rw [List.count_singleton, List.count_singleton, if_neg, if_neg]
    · exact fun same => closes (beq_iff_eq.mp same)
    · exact fun same => opens (beq_iff_eq.mp same)

theorem count_brackets {closers after tokens : List Token}
    (done : brackets closers tokens = some after) :
    closers.count .rbrace + tokens.count .lbrace = after.count .rbrace + tokens.count .rbrace := by
  induction tokens generalizing closers with
  | nil =>
    cases done
    rfl
  | cons token tokens ih =>
    obtain ⟨mid, first, rest⟩ := Option.bind_eq_some_iff.mp done
    have here := count_bracket first
    have there := ih rest
    rw [← List.singleton_append, List.count_append, List.count_append]
    omega

theorem matched_of_nested {tokens : List Token} (nested : brackets [] tokens = some []) :
    Matched tokens := by
  refine ⟨fun front within => ?_, by simpa [Balanced] using count_brackets nested⟩
  obtain ⟨behind, rfl⟩ := within
  obtain ⟨mid, first, _⟩ := Option.bind_eq_some_iff.mp (brackets_append .. ▸ nested)
  have counted := count_brackets first
  rw [List.count_nil, Nat.zero_add] at counted
  exact counted ▸ Nat.le_add_left _ _

theorem Derives.balanced {n : Nonterminal} {u : List Token} (derived : Derives n u) :
    Balanced u :=
  (matched_of_nested (derived.nested [])).balanced

theorem brackets_braces_iff {closers : List Token} {k : Nat} :
    brackets closers (List.replicate k .rbrace) = some [] ↔
      closers = List.replicate k .rbrace := by
  induction k generalizing closers with
  | zero => exact Option.some_inj
  | succ k ih =>
    rw [List.replicate_succ, brackets_cons]
    constructor
    · intro nested
      obtain ⟨inner, closed, rest⟩ := Option.bind_eq_some_iff.mp nested
      obtain ⟨innermost, last⟩ := Option.ite_none_right_eq_some.mp closed
      obtain ⟨outer, rfl⟩ := List.head?_eq_some_iff.mp innermost
      cases last
      exact congrArg _ (ih.mp rest)
    · rintro rfl
      exact ih.mpr rfl

/-- Braces at the end close what is open before them. -/
theorem brackets_append_braces_iff {closers tokens : List Token} {k : Nat} :
    brackets closers (tokens ++ List.replicate k .rbrace) = some [] ↔
      brackets closers tokens = some (List.replicate k .rbrace) := by
  rw [brackets_append, Option.bind_eq_some_iff]
  simp only [brackets_braces_iff, exists_eq_right]

end TreeWalk
