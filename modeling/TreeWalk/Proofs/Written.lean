import TreeWalk.Proofs.Relexing
import TreeWalk.Proofs.Spelling

/-!
# The tokens of a written tree

A tree is written with parentheses around every operator expression and a semicolon after every
statement.  Not every tree can be read back: its names have to be words of letters, its integers
must not be negative, and so on.  A tree that can be comes with the tokens of its text.

Results:
1. the tokens of a written tree spell the tree (`Written.spells`);
2. the text of the tree is read as these tokens, whatever stands behind it that is no letter and no
   digit (`Written.lexes`).
-/

namespace TreeWalk

/-- `Written phrase tokens`: the phrase can be read back from its text, and the tokens are those of
its text.  An expression binds as strongly as can be, since it stands in parentheses wherever an
operator could take it apart. -/
inductive Written : Phrase → List Token → Prop
  | ident {name : String} :
      IsName name → Written (.expr fullStrength (.ident (.ofName name))) [.ident name]
  | int {value : Int64} :
      0 ≤ value.toInt → Written (.expr fullStrength (.int value)) [.int (Decimal.ofInt64 value)]
  | str {text : String} :
      '"' ∉ text.toList → Written (.expr fullStrength (.str text)) [.str text]
  | trueWord : Written (.expr fullStrength (.bool true)) [.trueWord]
  | falseWord : Written (.expr fullStrength (.bool false)) [.falseWord]
  | prefixOp {op : Operator} {right : Expr} {operand : List Token} :
      op = .bang ∨ op = .minus → Written (.expr fullStrength right) operand →
      Written (.expr fullStrength (.prefixOp op right))
        (.lparen :: (op.token :: operand ++ [.rparen]))
  | infixOp {op : Operator} {left right : Expr} {before behind : List Token} :
      op ≠ .bang → Written (.expr fullStrength left) before →
      Written (.expr fullStrength right) behind →
      Written (.expr fullStrength (.infixOp left op right))
        (.lparen :: (before ++ op.token :: behind ++ [.rparen]))
  | ifThen {cond : Expr} {yes : Block} {test consequence : List Token} :
      Written (.expr fullStrength cond) test → Written (.block yes) consequence →
      Written (.expr fullStrength (.ifElse cond yes none))
        (.ifWord :: .lparen :: (test ++ .rparen :: consequence))
  | ifElse {cond : Expr} {yes no : Block} {test consequence alternative : List Token} :
      Written (.expr fullStrength cond) test → Written (.block yes) consequence →
      Written (.block no) alternative →
      Written (.expr fullStrength (.ifElse cond yes (some no)))
        (.ifWord :: .lparen :: (test ++ .rparen :: (consequence ++ .elseWord :: alternative)))
  | fn {names : List String} {body : Block} {inner : List Token} :
      (∀ name ∈ names, IsName name) → Written (.block body) inner →
      Written (.expr fullStrength (.fn (names.map .ofName) body))
        (.fnWord :: .lparen :: (nameList names ++ .rparen :: inner))
  | callNone {callee : Expr} {target : List Token} :
      Written (.expr fullStrength callee) target →
      Written (.expr fullStrength (.call callee [])) (target ++ [.lparen, .rparen])
  | call {callee arg : Expr} {args : List Expr} {target first more : List Token} :
      Written (.expr fullStrength callee) target → Written (.expr fullStrength arg) first →
      Written (.moreArgs args) more →
      Written (.expr fullStrength (.call callee (arg :: args)))
        (target ++ .lparen :: (first ++ (more ++ [.rparen])))
  | noMoreArgs : Written (.moreArgs []) []
  | moreArgs {arg : Expr} {args : List Expr} {first more : List Token} :
      Written (.expr fullStrength arg) first → Written (.moreArgs args) more →
      Written (.moreArgs (arg :: args)) (.comma :: (first ++ more))
  | bind {name : String} {value : Expr} {tokens : List Token} :
      IsName name → Written (.expr fullStrength value) tokens →
      Written (.stmt (.bind .letWord (.ofName name) value))
        (.letWord :: .ident name :: .assign :: tokens)
  | ret {value : Expr} {tokens : List Token} :
      Written (.expr fullStrength value) tokens →
      Written (.stmt (.ret .returnWord value)) (.returnWord :: tokens)
  | expr (kept : Token) {value : Expr} {tokens : List Token} :
      Written (.expr fullStrength value) tokens → Written (.stmt (.expr kept value)) tokens
  | noStmts : Written (.stmts []) []
  | stmts {s : Stmt} {ss : List Stmt} {first rest : List Token} :
      Written (.stmt s) first → Written (.stmts ss) rest →
      Written (.stmts (s :: ss)) (first ++ .semicolon :: rest)
  | block {ss : List Stmt} {inner : List Token} :
      Written (.stmts ss) inner →
      Written (.block (.mk .lbrace ss)) (.lbrace :: (inner ++ [.rbrace]))

theorem Written.spells {phrase : Phrase} {tokens : List Token} (written : Written phrase tokens) :
    Spells phrase tokens := by
  induction written with
  | @ident name _ => exact .ident name
  | int _ => exact .int (Decimal.int64?_ofInt64 _)
  | @str text _ => exact .str text
  | trueWord => exact .trueWord
  | falseWord => exact .falseWord
  | prefixOp isSign _ ih => exact .group (.prefixOp isSign (by decide) ih)
  | @infixOp op _ _ _ _ infixed _ _ ihLeft ihRight =>
    have weaker : op.strength < fullStrength := by cases op <;> decide
    exact .group (.infixOp infixed (Nat.le_of_lt weaker) weaker ihLeft ihRight)
  | ifThen _ _ ihTest ihYes => exact .ifThen ihTest ihYes
  | ifElse _ _ _ ihTest ihYes ihNo => exact .ifElse ihTest ihYes ihNo
  | @fn names _ _ _ _ ih => exact .fn names ih
  | callNone _ ih => exact .callNone ih
  | call _ _ _ ihCallee ihArg ihMore => exact .call ihCallee ihArg ihMore
  | noMoreArgs => exact .noMoreArgs
  | moreArgs _ _ ihArg ihMore => exact .moreArgs ihArg ihMore
  | @bind name _ _ _ _ ih => exact .bind name ih
  | ret _ ih => exact .ret ih
  | expr kept _ ih => exact .expr kept ih
  | noStmts => exact .noStmts
  | stmts _ _ ihFirst ihRest => exact .ended ihFirst ihRest
  | block _ ih => exact .block ih

/-! ## Reading the text -/

/-- The text of an expression does not begin with what would make another operator of a `!` before
it, and it is read as the tokens. -/
structure Expr.Lexes (e : Expr) (tokens : List Token) : Prop where
  head : ∀ rest, (e.text.toList ++ rest).head? ≠ some '='
  read : ∀ {rest}, Apart rest → Token.lex (e.text.toList ++ rest) = tokens ++ Token.lex rest

/-- The text of a phrase is read as the tokens, whatever stands behind it. -/
def Phrase.Lexes : Phrase → List Token → Prop
  | .expr _ e, tokens => e.Lexes tokens
  | .moreArgs es, tokens => ∀ {rest}, Apart rest →
      Token.lex ((String.join ((Expr.texts es).map (", " ++ ·))).toList ++ rest) =
        tokens ++ Token.lex rest
  | .stmt s, tokens => ∀ rest,
      Token.lex (s.text.toList ++ rest) = tokens ++ .semicolon :: Token.lex rest
  | .stmts ss, tokens => ∀ (gap : String) (rest : List Char),
      (∀ cs, Token.lex (gap.toList ++ cs) = Token.lex cs) →
      Token.lex ((String.join ((Stmt.texts ss).map (· ++ gap))).toList ++ rest) =
        tokens ++ Token.lex rest
  | .block b, tokens => ∀ rest, Token.lex (b.text.toList ++ rest) = tokens ++ Token.lex rest

/-- What follows an expression in a text is a delimiter. -/
theorem apart_delimiter {c : Char} (delimiter : c ∈ [' ', ')', '(', ',', ';']) (rest : List Char) :
    Apart (c :: rest) := by
  refine .cons ?_ rest
  simp only [List.mem_cons, List.not_mem_nil, or_false] at delimiter
  rcases delimiter with rfl | rfl | rfl | rfl | rfl <;> decide

/-! ## Expressions -/

theorem lexes_ident {name : String} (isName : IsName name) :
    (Expr.ident (.ofName name)).Lexes [.ident name] := by
  have text : (Expr.ident (.ofName name)).text = name := by
    rw [Expr.text, Ident.name_ofName]
  refine ⟨fun rest => ?_, fun {rest} apart => ?_⟩
  · rw [text]
    cases chars : name.toList with
    | nil => exact absurd (String.toList_eq_nil_iff.mp chars) isName.nonempty
    | cons c cs =>
      have letter := isName.letters c (chars ▸ List.mem_cons_self ..)
      intro equals
      cases equals
      exact absurd letter (by decide)
  · rw [text, Token.lex_word isName.nonempty isName.letters fun c first => (apart c first).1,
      isName.named]
    rfl

theorem lexes_int {value : Int64} (nonneg : 0 ≤ value.toInt) :
    (Expr.int value).Lexes [.int (Decimal.ofInt64 value)] := by
  obtain ⟨k, written⟩ := Decimal.exists_digits_of_nonneg nonneg
  have all := List.all_eq_true.mp (Decimal.all_isDigit_digits k)
  have text : (Expr.int value).text.toList = Decimal.digits k := by
    rw [Expr.text, written, String.toList_ofList]
  refine ⟨fun rest => ?_, fun {rest} apart => ?_⟩
  · rw [text]
    cases digits : Decimal.digits k with
    | nil => exact absurd digits (Decimal.digits_ne_nil k)
    | cons c cs =>
      have digit := all c (digits ▸ List.mem_cons_self ..)
      intro equals
      cases equals
      exact absurd digit (by decide)
  · rw [text, Token.lex_digits (Decimal.digits_ne_nil k) all fun c first => (apart c first).2,
      written]
    rfl

theorem lexes_str {text : String} (unquoted : '"' ∉ text.toList) :
    (Expr.str text).Lexes [.str text] := by
  have quoted (rest : List Char) :
      (Expr.str text).text.toList ++ rest = '"' :: (text.toList ++ '"' :: rest) := by
    rw [Expr.text]
    simp
  refine ⟨fun rest => by rw [quoted]; exact nofun, fun {rest} _ => ?_⟩
  rw [quoted, Token.lex_str unquoted]
  rfl

theorem lexes_true : (Expr.bool true).Lexes [.trueWord] := by
  have text : (Expr.bool true).text = Token.literal .trueWord := by
    rw [Expr.text]
    rfl
  refine ⟨fun rest => by rw [text]; exact nofun, fun apart => ?_⟩
  rw [text, Token.lex_keyword (by decide) fun c first => (apart c first).1]
  rfl

theorem lexes_false : (Expr.bool false).Lexes [.falseWord] := by
  have text : (Expr.bool false).text = Token.literal .falseWord := by
    rw [Expr.text]
    rfl
  refine ⟨fun rest => by rw [text]; exact nofun, fun apart => ?_⟩
  rw [text, Token.lex_keyword (by decide) fun c first => (apart c first).1]
  rfl

theorem lexes_prefixOp {op : Operator} {right : Expr} {operand : List Token}
    (isSign : op = .bang ∨ op = .minus) (lexes : right.Lexes operand) :
    (Expr.prefixOp op right).Lexes (.lparen :: (op.token :: operand ++ [.rparen])) := by
  have text (rest : List Char) : (Expr.prefixOp op right).text.toList ++ rest =
      '(' :: (op.symbol.toList ++ (right.text.toList ++ ')' :: rest)) := by
    rw [Expr.text]
    simp
  refine ⟨fun rest => by rw [text]; exact nofun, fun {rest} _ => ?_⟩
  rw [text, Token.lex_symbol (t := .lparen) rfl, Token.lex_sign isSign (lexes.head _),
    lexes.read (apart_delimiter (by decide) _), Token.lex_symbol (t := .rparen) rfl]
  simp

theorem lexes_infixOp {op : Operator} {left right : Expr} {before behind : List Token}
    (lexesLeft : left.Lexes before) (lexesRight : right.Lexes behind) :
    (Expr.infixOp left op right).Lexes
      (.lparen :: (before ++ op.token :: behind ++ [.rparen])) := by
  have text (rest : List Char) : (Expr.infixOp left op right).text.toList ++ rest =
      '(' :: (left.text.toList ++ ' ' :: (op.symbol.toList ++ ' ' ::
        (right.text.toList ++ ')' :: rest))) := by
    rw [Expr.text]
    simp
  refine ⟨fun rest => by rw [text]; exact nofun, fun {rest} _ => ?_⟩
  rw [text, Token.lex_symbol (t := .lparen) rfl, lexesLeft.read (apart_delimiter (by decide) _),
    Token.lex_space, Token.lex_operator, lexesRight.read (apart_delimiter (by decide) _),
    Token.lex_symbol (t := .rparen) rfl]
  simp

theorem lexes_ifThen {cond : Expr} {yes : Block} {test consequence : List Token}
    (lexesCond : cond.Lexes test) (lexesYes : (Phrase.block yes).Lexes consequence) :
    (Expr.ifElse cond yes none).Lexes (.ifWord :: .lparen :: (test ++ .rparen :: consequence)) := by
  have text (rest : List Char) : (Expr.ifElse cond yes none).text.toList ++ rest =
      Token.ifWord.literal.toList ++ ' ' :: '(' ::
        (cond.text.toList ++ ')' :: ' ' :: (yes.text.toList ++ rest)) := by
    rw [Expr.text]
    simp [Token.literal]
  refine ⟨fun rest => by rw [text]; exact nofun, fun {rest} _ => ?_⟩
  rw [text, Token.lex_keyword (by decide) fun c first => by cases first; decide, Token.lex_space,
    Token.lex_symbol (t := .lparen) rfl, lexesCond.read (apart_delimiter (by decide) _),
    Token.lex_symbol (t := .rparen) rfl, Token.lex_space, lexesYes]
  simp

theorem lexes_ifElse {cond : Expr} {yes no : Block} {test consequence alternative : List Token}
    (lexesCond : cond.Lexes test) (lexesYes : (Phrase.block yes).Lexes consequence)
    (lexesNo : (Phrase.block no).Lexes alternative) :
    (Expr.ifElse cond yes (some no)).Lexes
      (.ifWord :: .lparen :: (test ++ .rparen :: (consequence ++ .elseWord :: alternative))) := by
  have front := lexes_ifThen lexesCond lexesYes
  have text (rest : List Char) : (Expr.ifElse cond yes (some no)).text.toList ++ rest =
      (Expr.ifElse cond yes none).text.toList ++
        ' ' :: (Token.elseWord.literal.toList ++ ' ' :: (no.text.toList ++ rest)) := by
    rw [Expr.text, Expr.text]
    simp [Token.literal]
  refine ⟨fun rest => by rw [text]; exact front.head _, fun {rest} _ => ?_⟩
  rw [text, front.read (apart_delimiter (by decide) _), Token.lex_space,
    Token.lex_keyword (by decide) fun c first => by cases first; decide, Token.lex_space, lexesNo]
  simp

theorem intercalate_cons (gap first : String) (more : List String) :
    gap.intercalate (first :: more) = first ++ String.join (more.map (gap ++ ·)) := by
  induction more generalizing first with
  | nil => simp
  | cons next more ih => rw [String.intercalate_cons_cons, ih]; simp [String.append_assoc]

theorem lex_moreNames {names : List String} (all : ∀ name ∈ names, IsName name) {rest : List Char}
    (apart : Apart rest) :
    Token.lex ((String.join (names.map (", " ++ ·))).toList ++ rest) =
      moreNames names ++ Token.lex rest := by
  induction names with
  | nil => rfl
  | cons name names ih =>
    have isName := all name (List.mem_cons_self ..)
    have text : (String.join ((name :: names).map (", " ++ ·))).toList ++ rest =
        ',' :: ' ' :: (name.toList ++ ((String.join (names.map (", " ++ ·))).toList ++ rest)) := by
      simp
    -- Behind the name there is a comma or the end of the list.
    have behind : Apart ((String.join (names.map (", " ++ ·))).toList ++ rest) := by
      cases names with
      | nil => exact apart
      | cons next names => simpa using apart_delimiter (by decide) _
    rw [text, Token.lex_symbol (t := .comma) rfl, Token.lex_space,
      Token.lex_word isName.nonempty isName.letters fun c first => (behind c first).1, isName.named,
      ih fun other member => all other (List.mem_cons_of_mem _ member)]
    rfl

theorem lex_names {names : List String} (all : ∀ name ∈ names, IsName name) {rest : List Char}
    (apart : Apart rest) :
    Token.lex ((", ".intercalate names).toList ++ rest) = nameList names ++ Token.lex rest := by
  cases names with
  | nil => simp [nameList]
  | cons name names =>
    have isName := all name (List.mem_cons_self ..)
    have behind : Apart ((String.join (names.map (", " ++ ·))).toList ++ rest) := by
      cases names with
      | nil => exact apart
      | cons next names => simpa using apart_delimiter (by decide) _
    rw [intercalate_cons, String.toList_append, List.append_assoc,
      Token.lex_word isName.nonempty isName.letters fun c first => (behind c first).1, isName.named,
      lex_moreNames (fun other member => all other (List.mem_cons_of_mem _ member)) apart]
    rfl

theorem lexes_fn {names : List String} {body : Block} {inner : List Token}
    (all : ∀ name ∈ names, IsName name) (lexes : (Phrase.block body).Lexes inner) :
    (Expr.fn (names.map .ofName) body).Lexes
      (.fnWord :: .lparen :: (nameList names ++ .rparen :: inner)) := by
  have listed : Ident.listText (names.map .ofName) = ", ".intercalate names := by
    rw [Ident.listText, List.map_map]
    congr 1
    exact List.map_id names
  have text (rest : List Char) : (Expr.fn (names.map .ofName) body).text.toList ++ rest =
      Token.fnWord.literal.toList ++ '(' ::
        ((", ".intercalate names).toList ++ ')' :: ' ' :: (body.text.toList ++ rest)) := by
    rw [Expr.text, listed]
    simp [Token.literal]
  refine ⟨fun rest => by rw [text]; exact nofun, fun {rest} _ => ?_⟩
  rw [text, Token.lex_keyword (by decide) fun c first => by cases first; decide,
    Token.lex_symbol (t := .lparen) rfl, lex_names all (apart_delimiter (by decide) _),
    Token.lex_symbol (t := .rparen) rfl, Token.lex_space, lexes]
  simp

theorem lexes_callNone {callee : Expr} {target : List Token} (lexes : callee.Lexes target) :
    (Expr.call callee []).Lexes (target ++ [.lparen, .rparen]) := by
  have text (rest : List Char) : (Expr.call callee []).text.toList ++ rest =
      callee.text.toList ++ '(' :: ')' :: rest := by
    rw [Expr.text, Expr.texts]
    simp
  refine ⟨fun rest => by rw [text]; exact lexes.head _, fun {rest} _ => ?_⟩
  rw [text, lexes.read (apart_delimiter (by decide) _), Token.lex_symbol (t := .lparen) rfl,
    Token.lex_symbol (t := .rparen) rfl]
  simp

/-- Behind an argument there is a comma or the parenthesis that closes the list. -/
theorem apart_moreArgs {args : List Expr} {rest : List Char} (apart : Apart rest) :
    Apart ((String.join ((Expr.texts args).map (", " ++ ·))).toList ++ rest) := by
  cases args with
  | nil => exact apart
  | cons arg args =>
    rw [Expr.texts]
    simpa using apart_delimiter (by decide) _

theorem lexes_call {callee arg : Expr} {args : List Expr} {target first more : List Token}
    (lexesCallee : callee.Lexes target) (lexesArg : arg.Lexes first)
    (lexesMore : (Phrase.moreArgs args).Lexes more) :
    (Expr.call callee (arg :: args)).Lexes
      (target ++ .lparen :: (first ++ (more ++ [.rparen]))) := by
  have text (rest : List Char) : (Expr.call callee (arg :: args)).text.toList ++ rest =
      callee.text.toList ++ '(' :: (arg.text.toList ++
        ((String.join ((Expr.texts args).map (", " ++ ·))).toList ++ ')' :: rest)) := by
    rw [Expr.text, Expr.texts, intercalate_cons]
    simp
  refine ⟨fun rest => by rw [text]; exact lexesCallee.head _, fun {rest} _ => ?_⟩
  have closed := apart_delimiter (c := ')') (by decide) rest
  rw [text, lexesCallee.read (apart_delimiter (by decide) _), Token.lex_symbol (t := .lparen) rfl,
    lexesArg.read (apart_moreArgs closed), lexesMore closed, Token.lex_symbol (t := .rparen) rfl]
  simp

theorem lexes_moreArgs {arg : Expr} {args : List Expr} {first more : List Token}
    (lexesArg : arg.Lexes first) (lexesMore : (Phrase.moreArgs args).Lexes more) :
    (Phrase.moreArgs (arg :: args)).Lexes (.comma :: (first ++ more)) := by
  intro rest apart
  have text : (String.join ((Expr.texts (arg :: args)).map (", " ++ ·))).toList ++ rest =
      ',' :: ' ' :: (arg.text.toList ++
        ((String.join ((Expr.texts args).map (", " ++ ·))).toList ++ rest)) := by
    rw [Expr.texts]
    simp
  rw [text, Token.lex_symbol (t := .comma) rfl, Token.lex_space,
    lexesArg.read (apart_moreArgs apart), lexesMore apart]
  simp

/-! ## Statements -/

theorem lexes_bind {name : String} {value : Expr} {tokens : List Token} (isName : IsName name)
    (lexes : value.Lexes tokens) :
    (Phrase.stmt (.bind .letWord (.ofName name) value)).Lexes
      (.letWord :: .ident name :: .assign :: tokens) := by
  intro rest
  have text : (Stmt.bind .letWord (.ofName name) value).text.toList ++ rest =
      Token.letWord.literal.toList ++ ' ' :: (name.toList ++
        ' ' :: '=' :: ' ' :: (value.text.toList ++ ';' :: rest)) := by
    rw [Stmt.text, Ident.name_ofName]
    simp
  have assign (cs : List Char) : Token.lex ('=' :: ' ' :: cs) = .assign :: Token.lex cs :=
    (Token.lex_cons (by decide) _).trans (congrArg _ (Token.lex_space cs))
  rw [text, Token.lex_keyword (by decide) fun c first => by cases first; decide, Token.lex_space,
    Token.lex_word isName.nonempty isName.letters fun c first => by cases first; decide,
    isName.named, Token.lex_space, assign, lexes.read (apart_delimiter (by decide) _),
    Token.lex_symbol (t := .semicolon) rfl]
  rfl

theorem lexes_ret {value : Expr} {tokens : List Token} (lexes : value.Lexes tokens) :
    (Phrase.stmt (.ret .returnWord value)).Lexes (.returnWord :: tokens) := by
  intro rest
  have text : (Stmt.ret .returnWord value).text.toList ++ rest =
      Token.returnWord.literal.toList ++ ' ' :: (value.text.toList ++ ';' :: rest) := by
    rw [Stmt.text]
    simp
  rw [text, Token.lex_keyword (by decide) fun c first => by cases first; decide, Token.lex_space,
    lexes.read (apart_delimiter (by decide) _), Token.lex_symbol (t := .semicolon) rfl]
  rfl

theorem lexes_exprStmt (kept : Token) {value : Expr} {tokens : List Token}
    (lexes : value.Lexes tokens) : (Phrase.stmt (.expr kept value)).Lexes tokens := by
  intro rest
  have text : (Stmt.expr kept value).text.toList ++ rest = value.text.toList ++ ';' :: rest := by
    rw [Stmt.text]
    simp
  rw [text, lexes.read (apart_delimiter (by decide) _), Token.lex_symbol (t := .semicolon) rfl]

theorem lexes_stmts {s : Stmt} {ss : List Stmt} {first others : List Token}
    (lexesFirst : (Phrase.stmt s).Lexes first) (lexesRest : (Phrase.stmts ss).Lexes others) :
    (Phrase.stmts (s :: ss)).Lexes (first ++ .semicolon :: others) := by
  intro gap rest blank
  have text : (String.join ((Stmt.texts (s :: ss)).map (· ++ gap))).toList ++ rest =
      s.text.toList ++ (gap.toList ++
        ((String.join ((Stmt.texts ss).map (· ++ gap))).toList ++ rest)) := by
    rw [Stmt.texts, List.map_cons, String.join_cons, String.toList_append, String.toList_append,
      List.append_assoc, List.append_assoc]
  rw [text, lexesFirst, blank, lexesRest gap rest blank, List.append_assoc]
  rfl

theorem lexes_block {ss : List Stmt} {inner : List Token} (lexes : (Phrase.stmts ss).Lexes inner) :
    (Phrase.block (.mk .lbrace ss)).Lexes (.lbrace :: (inner ++ [.rbrace])) := by
  intro rest
  have text : (Block.mk .lbrace ss).text.toList ++ rest =
      '{' :: ' ' :: ((String.join ((Stmt.texts ss).map (· ++ " "))).toList ++ '}' :: rest) := by
    rw [Block.text]
    simp only [String.toList_append, List.append_assoc]
    rfl
  rw [text, Token.lex_symbol (t := .lbrace) rfl, Token.lex_space,
    lexes " " _ fun cs => Token.lex_space cs, Token.lex_symbol (t := .rbrace) rfl]
  simp

theorem Written.lexes {phrase : Phrase} {tokens : List Token} (written : Written phrase tokens) :
    phrase.Lexes tokens := by
  induction written with
  | ident isName => exact lexes_ident isName
  | int nonneg => exact lexes_int nonneg
  | str unquoted => exact lexes_str unquoted
  | trueWord => exact lexes_true
  | falseWord => exact lexes_false
  | prefixOp isSign _ ih => exact lexes_prefixOp isSign ih
  | infixOp _ _ _ ihLeft ihRight => exact lexes_infixOp ihLeft ihRight
  | ifThen _ _ ihTest ihYes => exact lexes_ifThen ihTest ihYes
  | ifElse _ _ _ ihTest ihYes ihNo => exact lexes_ifElse ihTest ihYes ihNo
  | fn all _ ih => exact lexes_fn all ih
  | callNone _ ih => exact lexes_callNone ih
  | call _ _ _ ihCallee ihArg ihMore => exact lexes_call ihCallee ihArg ihMore
  | noMoreArgs => exact fun _ => rfl
  | moreArgs _ _ ihArg ihMore => exact lexes_moreArgs ihArg ihMore
  | bind isName _ ih => exact lexes_bind isName ih
  | ret _ ih => exact lexes_ret ih
  | expr kept _ ih => exact lexes_exprStmt kept ih
  | noStmts => exact fun _ _ _ => rfl
  | stmts _ _ ihFirst ihRest => exact lexes_stmts ihFirst ihRest
  | block _ ih => exact lexes_block ih

end TreeWalk
