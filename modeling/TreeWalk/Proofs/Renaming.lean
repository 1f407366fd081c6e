import Mathlib
import TreeWalk.Proofs.Equivariance

/-!
# Renaming

Names tell things apart, and only those of the built-in functions mean something by themselves.  So
the other names of a program may be replaced by any that are told apart as well.

Results:
1. after a renaming, a new name stands for what the old one stood for (`Renaming.get?_bindings`),
   and a name that is not new stands for nothing (`Renaming.exists_of_get?_bindings`);
2. renamed scopes mirror the scopes that were there before (`Renaming.mirrors`), so renaming
   commutes with evaluation (`Renaming.run_program`);
3. a renamed program thus terminates if the program does, and does the same under other names
   (`eval_rename`).
-/

namespace TreeWalk

/-- A change of names that mixes up no two of them and leaves the built-in functions their names.
The tokens that expression statements keep may become anything. -/
structure Renaming where
  name : String → String
  kept : Token → Token
  injective : Function.Injective name
  builtin : ∀ function : Builtin, name function.name = function.name

namespace Renaming

/-- The renaming that exchanges two names, neither of a built-in function. -/
def swap (a b : String) (free : ∀ function : Builtin, function.name ≠ a ∧ function.name ≠ b) :
    Renaming where
  name := Equiv.swap a b
  kept := id
  injective := (Equiv.swap a b).injective
  builtin function := Equiv.swap_apply_of_ne_of_ne (free function).1 (free function).2

variable (r : Renaming)

theorem ofName?_name (n : String) : Builtin.ofName? (r.name n) = Builtin.ofName? n := by
  refine Option.ext fun function => ?_
  rw [Builtin.ofName?_eq_some, Builtin.ofName?_eq_some]
  constructor
  · intro same
    exact r.injective ((r.builtin function).trans same)
  · rintro rfl
    exact (r.builtin function).symm

theorem older_id {a b : ScopeId} : id a < id b ↔ a < b :=
  Iff.rfl

/-- A renaming as a translation, under which scopes keep their numbers. -/
def translation : Translation where
  ident i := .ofName (r.name i.name)
  name := r.name
  kept := r.kept
  scope := id
  name_ident _ := rfl
  name_injective := r.injective
  builtin := r.ofName?_name
  older := older_id

/-! ## What is renamed -/

/-- A program with every use of a name, every bound name and every parameter renamed. -/
def program (program : Program) : Program :=
  program.map r.translation.ident r.translation.kept

/-- Entries with other names, of values in which names are other names. -/
def entries : List Entry → Bindings
  | [] => .empty
  | entry :: more => (entries more).insert (r.name entry.1) (r.translation.value entry.2)

/-- Bindings with other names. -/
def bindings (bindings : Bindings) : Bindings :=
  r.entries bindings.entries

/-- A scope with other names in it. -/
def scope (s : Scope) : Scope :=
  { s with bindings := r.bindings s.bindings }

/-- Scopes with other names in them. -/
def scopes (scopes : Scopes) : Scopes :=
  ⟨scopes.all.map r.scope⟩

/-- A run with other names: in its result or the error that stopped it, in the scopes after it, and
in all that was printed or applied to arguments. -/
def run (run : Run (Option Value)) : Run (Option Value) :=
  r.translation.run (Option.map r.translation.value) r.scopes run

theorem get?_entries (name : String) (entries : List Entry) :
    (r.entries entries).get? (r.name name) =
      (Entries.find? name entries).map r.translation.value := by
  induction entries with
  | nil => rfl
  | cons entry more ih =>
    rw [Renaming.entries, Bindings.get?_insert, Entries.find?, ih]
    by_cases here : entry.1 = name
    · rw [if_pos here, if_pos (congrArg r.name here.symm)]
      rfl
    · rw [if_neg here, if_neg fun same => here (r.injective same).symm]

theorem get?_bindings (bindings : Bindings) (name : String) :
    (r.bindings bindings).get? (r.name name) = (bindings.get? name).map r.translation.value :=
  r.get?_entries name bindings.entries

theorem exists_of_get?_entries {entries : List Entry} {other : String} {v : Value}
    (own : (r.entries entries).get? other = some v) : ∃ name, r.name name = other := by
  induction entries with
  | nil => cases own
  | cons entry more ih =>
    rw [Renaming.entries, Bindings.get?_insert] at own
    split at own
    · next here => exact ⟨entry.1, here.symm⟩
    · exact ih own

theorem exists_of_get?_bindings {bindings : Bindings} {other : String} {v : Value}
    (own : (r.bindings bindings).get? other = some v) : ∃ name, r.name name = other :=
  r.exists_of_get?_entries own

/-! ## Renamed evaluation -/

theorem scope?_scopes (scopes : Scopes) (id : ScopeId) :
    (r.scopes scopes).scope? id = (scopes.scope? id).map r.scope :=
  Array.getElem?_map

theorem mirrors (scopes : Scopes) : r.translation.Mirrors scopes (r.scopes scopes) := by
  refine ⟨fun n => ?_, fun {id s} there => ⟨r.scope s, ?_, ?_, r.get?_bindings s.bindings,
    r.exists_of_get?_bindings⟩⟩
  · exact congrArg (· + n) Array.size_map.symm
  · exact (r.scope?_scopes scopes id).trans (congrArg (Option.map r.scope) there)
  · exact Option.map_id'.symm

theorem run_program (depth : Nat) (scope : ScopeId) (program : Program) (scopes : Scopes) :
    Eval.program depth scope (r.program program) (r.scopes scopes) =
      r.run (Eval.program depth scope program scopes) :=
  (r.translation.carries_program depth scope program).commutes Function.surjective_id r.mirrors
    scopes

/-- In a fresh session there is nothing to rename. -/
theorem scopes_fresh : r.scopes Session.fresh.scopes = Session.fresh.scopes := by
  have renamed : (#[].push ⟨.empty, none⟩ : Array Scope).map r.scope = #[⟨.empty, none⟩] := by
    rw [Array.map_push, Array.map_empty]
    rfl
  exact congrArg Scopes.mk renamed

theorem tooDeep_run_iff (run : Run (Option Value)) :
    (r.run run).outcome = .error .tooDeep ↔ run.outcome = .error .tooDeep := by
  rcases run with ⟨(e | _) | _, after, events⟩ <;>
    simp [Renaming.run, Translation.run, Translation.outcome, Translation.stop]

end Renaming

/-- A program does under new names what it did under the old ones, at every depth, and terminates
where it did. -/
theorem eval_rename (r : Renaming) (program : Program) :
    (∀ depth, Eval.program depth 0 (r.program program) Session.fresh.scopes =
      r.run (Eval.program depth 0 program Session.fresh.scopes)) ∧
    (Eval.Terminates 0 (r.program program) Session.fresh.scopes ↔
      Eval.Terminates 0 program Session.fresh.scopes) := by
  have same (depth : Nat) : Eval.program depth 0 (r.program program) Session.fresh.scopes =
      r.run (Eval.program depth 0 program Session.fresh.scopes) := by
    have renamed := r.run_program depth 0 program Session.fresh.scopes
    rwa [r.scopes_fresh] at renamed
  refine ⟨same, exists_congr fun depth => ?_⟩
  rw [same, ne_eq, r.tooDeep_run_iff]

/-- The program `let a = fn(b) { b }; puts(a); b`. -/
def unboundAtLast : Program :=
  let body := Block.mk .lbrace [.expr (.ident "b") (.ident (.ofName "b"))]
  ⟨[.bind .letWord (.ofName "a") (.fn [.ofName "b"] body),
    .expr (.ident "puts") (.call (.ident (.ofName "puts")) [.ident (.ofName "a")]),
    .expr (.ident "b") (.ident (.ofName "b"))]⟩

/-- With `a` and `b` exchanged, the function is printed with its new parameter, and the name that is
not bound is the other one. -/
theorem eval_rename_swap :
    let r := Renaming.swap "a" "b" fun function => by cases function <;> decide
    let run := Eval.program 0 0 (r.program unboundAtLast) Session.fresh.scopes
    run.outcome = .error (.error (.unbound "a")) ∧
    run.printed = "fn(a) \x7b a; \x7d\n" ∧
    (run.scopes.find? "b" 0).map Value.text = some "fn(a) \x7b a; \x7d" := by
  intro r run
  have renamed : run = r.run (Eval.program 0 0 unboundAtLast Session.fresh.scopes) :=
    (eval_rename r unboundAtLast).1 0
  rw [renamed]
  exact ⟨by cbv, by cbv, by cbv⟩

end TreeWalk
