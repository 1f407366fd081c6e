import TreeWalk.Proofs.Arise
import TreeWalk.Proofs.Equivariance
import TreeWalk.Proofs.Writes

/-!
# Calls again

A call leaves every scope as it was and opens new ones.  So a second call of the same function with
the same arguments finds what the first one found and does the same, but for the scopes it opens:
their numbers come after those of the scopes that the first call opened.

Results:
1. moving the scopes from some number on changes no value that belongs to the scopes before it
   (`Translation.value_shift`);
2. scopes that can arise are mirrored, by such a move, in any that have been opened beside them
   (`Scopes.Closed.mirrors_of_extends`);
3. so a call can be repeated (`call_again`).
-/

namespace TreeWalk

/-! ## Moving scopes -/

namespace Translation

/-- Moving scopes up keeps them in order. -/
theorem lt_shift_iff (start count : Nat) {a b : Nat} :
    (if a < start then a else a + count) < (if b < start then b else b + count) ↔ a < b := by
  split <;> split <;> omega

/-- Scopes from `start` on move up by `count`. -/
def shift (start count : Nat) : Translation where
  ident := id
  name := id
  kept := id
  scope id := if id < start then id else id + count
  name_ident := name_ident_id
  name_injective := Function.injective_id
  builtin := builtin_id
  older := lt_shift_iff start count

variable {start : Nat} (count : Nat)

theorem scope_shift_of_lt {id : ScopeId} (old : id < start) : (shift start count).scope id = id :=
  if_pos old

theorem scope_shift_of_le {id : ScopeId} (new : start ≤ id) :
    (shift start count).scope id = id + count :=
  if_neg (Nat.not_lt.mpr new)

theorem closure_shift (closure : Closure) :
    (shift start count).closure closure =
      { closure with scope := (shift start count).scope closure.scope } := by
  show Closure.mk (closure.params.map id) (closure.body.map id id) _ = _
  rw [List.map_id, closure.body.map_id]

theorem value_shift {v : Value} (within : v.Within start) : (shift start count).value v = v := by
  induction v with
  | returned v ih => exact congrArg Value.returned (ih within)
  | error e => cases e <;> rfl
  | function closure =>
    rw [value, closure_shift, scope_shift_of_lt count within]
  | _ => rfl

theorem unseen_shift : (shift start count).Unseen :=
  ⟨fun _ => rfl, fun closure => by rw [closure_shift]; rfl⟩

end Translation

/-! ## Opened scopes -/

namespace Scopes

theorem Extends.size_le {before after : Scopes} (extended : before.Extends after) :
    before.size ≤ after.size := by
  rcases Nat.eq_zero_or_pos before.size with none | some
  · exact none ▸ Nat.zero_le _
  · -- The last scope is still there.
    have last : before.scope? (before.size - 1) = _ :=
      Array.getElem?_eq_getElem (Nat.sub_one_lt_of_lt some)
    exact Nat.le_of_pred_lt (lt_size_of_scope? (extended _ _ last))

theorem Closed.mirrors_of_extends {before after : Scopes} {count : Nat} (closed : before.Closed)
    (extended : before.Extends after) (opened : after.size = before.size + count) :
    (Translation.shift before.size count).Mirrors before after := by
  refine ⟨fun n => ?_, fun {id s} there => ⟨s, ?_, ?_, fun name => ?_, fun {other _} _ => ?_⟩⟩
  · rw [Translation.scope_shift_of_le count (Nat.le_add_right ..), opened, Nat.add_right_comm]
  · rw [Translation.scope_shift_of_lt count (lt_size_of_scope? there)]
    exact extended id s there
  · cases around : s.outer with
    | none => rfl
    | some outer =>
      have older := Nat.lt_trans (closed.outer there around) (lt_size_of_scope? there)
      exact congrArg some (Translation.scope_shift_of_lt count older).symm
  · show s.bindings.get? name = _
    cases own : s.bindings.get? name with
    | none => rfl
    | some v => exact congrArg some (Translation.value_shift count (closed.bound there own)).symm
  · exact ⟨other, rfl⟩

end Scopes

/-! ## Repeated calls -/

/-- The second run does what the first one does, up to a translation of scopes: it stops for the
same reason or its value corresponds to that of the first, is of the same type and is written the
same, as is all that is printed; and every scope there is after the first run, whether opened by it
or there before, corresponds to one that is there after the second. -/
structure Repeats (t : Translation) (first second : Run Value) : Prop where
  outcome : second.outcome = first.outcome.map t.value
  typeName : ∀ v, (t.value v).typeName = v.typeName
  text : ∀ v, (t.value v).text = v.text
  printed : second.printed = first.printed
  scopes : ∀ {id s}, first.scopes.scope? id = some s →
    ∃ s', second.scopes.scope? (t.scope id) = some s' ∧ t.MirrorsScope s s'

/-- A call that is made again, in the scopes that it left, repeats itself in as many new scopes. -/
theorem call_again (depth : Nat) {scopes : Scopes} (arise : scopes.Arise) {callee : Value}
    {args : List Value} (within : callee.Within scopes.size)
    (argsWithin : ∀ arg ∈ args, arg.Within scopes.size) :
    ∃ count,
      (Eval.call depth callee args scopes).scopes.size = scopes.size + count ∧
      (Eval.call depth callee args (Eval.call depth callee args scopes).scopes).scopes.size =
        scopes.size + count + count ∧
      Repeats (.shift scopes.size count) (Eval.call depth callee args scopes)
        (Eval.call depth callee args (Eval.call depth callee args scopes).scopes) := by
  generalize ran : Eval.call depth callee args scopes = first
  have extended : scopes.Extends first.scopes := ran ▸ opens_call depth callee args scopes
  obtain ⟨count, opened⟩ := Nat.exists_eq_add_of_le extended.size_le
  let t := Translation.shift scopes.size count
  have calleeStays : t.value callee = callee := Translation.value_shift count within
  have argsStay : args.map t.value = args := by
    refine (List.map_congr_left fun arg member => ?_).trans (List.map_id args)
    exact Translation.value_shift count (argsWithin arg member)
  have mirrors := arise.closed.mirrors_of_extends extended opened
  have again := t.carries_call depth callee args scopes first.scopes mirrors
  rw [calleeStays, argsStay, ran] at again
  have unseen : t.Unseen := Translation.unseen_shift count
  refine ⟨count, opened, ?_, again.outcome_of_unseen unseen, t.typeName_value, unseen.text_value,
    again.printed unseen, again.scopes.there⟩
  -- The first scope that is not opened yet is moved to the first one after the second call.
  have next := again.scopes.fresh 0
  rw [Nat.add_zero, Translation.scope_shift_of_le count extended.size_le] at next
  rw [← opened, next, Nat.add_zero]

/-- A function that makes a function, `fn(x) { fn() { x } }`. -/
def keeper : Closure :=
  ⟨[⟨.ident "x"⟩], .mk .lbrace [.expr .fnWord (.fn [] keeper.inner)], 0⟩
where
  /-- The body of the function that it makes. -/
  inner : Block := .mk .lbrace [.expr (.ident "x") (.ident ⟨.ident "x"⟩)]

/-- The function that the first call makes keeps the scope of that call, and the other one keeps
that of the second call. -/
theorem call_again_of_keeper :
    Session.fresh.scopes.Arise ∧ (Value.function keeper).Within Session.fresh.scopes.size ∧
    (∀ arg ∈ [Value.int 7], arg.Within Session.fresh.scopes.size) ∧
    (Eval.call 1 (.function keeper) [.int 7] Session.fresh.scopes).outcome =
      .ok (.function ⟨[], keeper.inner, 1⟩) ∧
    (Eval.call 1 (.function keeper) [.int 7]
      (Eval.call 1 (.function keeper) [.int 7] Session.fresh.scopes).scopes).outcome =
      .ok (.function ⟨[], keeper.inner, 2⟩) := by
  have arise : Session.fresh.scopes.Arise := .outermost .empty
  have within : (Value.function keeper).Within Session.fresh.scopes.size := Nat.zero_lt_one
  have argsWithin : ∀ arg ∈ [Value.int 7], arg.Within Session.fresh.scopes.size :=
    List.forall_mem_singleton.mpr trivial
  obtain ⟨count, opened, _, again⟩ := call_again 1 arise within argsWithin
  have one : count = 1 := Nat.add_left_cancel opened.symm
  refine ⟨arise, within, argsWithin, rfl, ?_⟩
  rw [again.outcome, one]
  rfl

end TreeWalk
