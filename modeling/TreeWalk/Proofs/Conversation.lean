import Mathlib
import TreeWalk.Proofs.Deepening
import TreeWalk.Repl

/-!
# The loop is a session

The interactive loop reads bytes, cuts them into lines, decodes each line and answers it before it
reads the next.  What is written meanwhile is what a session yields for the texts of these lines,
each behind a prompt, and a last prompt.  A line that is not text ends the loop, once all lines
before it have been answered.  A line that does not come to an end is never answered, but the lines
before it have been.

The loop is run with a bound on how deep calls nest, and the session has none.  With every bound
that is large enough, and with every one that cuts nothing off, the loop does what the session
does.

Results:
1. an input is split into lines in one way only (`Repl.splitsInto_iff`);
2. texts come to one list of steps in a session, if to any (`Session.Yields.unique`);
3. one line: with a bound that is large enough it is answered by its step
   (`Session.StepsTo.exists_enough`), and where it is not cut off there is such a step
   (`Session.StepsTo.of_ending`);
4. by induction on the lines, the loop writes the steps of one session
   (`Repl.answerLines_of_yields`, `Repl.exists_yields`), also those before a line that does not come
   to an end (`Repl.shown_prefix`); that and the prompts are all it writes
   (`transcript_eq_session`).
-/

namespace TreeWalk

namespace Repl

/-! ## Lines -/

/-- Cutting an input behind every line feed (10). -/
inductive SplitsInto : List UInt8 → List (List UInt8) → Prop
  | nil : SplitsInto [] []
  /-- What follows the last line feed is a line, unless nothing does. -/
  | last {line : List UInt8} (some : line ≠ []) (whole : 10 ∉ line) : SplitsInto line [line]
  | cons {line rest : List UInt8} {ls : List (List UInt8)} (whole : 10 ∉ line)
      (later : SplitsInto rest ls) : SplitsInto (line ++ 10 :: rest) ((line ++ [10]) :: ls)

theorem lines_append {line : List UInt8} (whole : 10 ∉ line) (rest : List UInt8) :
    lines (line ++ 10 :: rest) = (line ++ [10]) :: lines rest := by
  induction line with
  | nil => rfl
  | cons byte line ih =>
    obtain ⟨ne, whole⟩ := List.ne_and_not_mem_of_not_mem_cons whole
    rw [List.cons_append, lines, if_neg ne.symm, ih whole]
    rfl

theorem lines_of_notMem {line : List UInt8} (some : line ≠ []) (whole : 10 ∉ line) :
    lines line = [line] := by
  induction line with
  | nil => exact absurd rfl some
  | cons byte line ih =>
    obtain ⟨ne, whole⟩ := List.ne_and_not_mem_of_not_mem_cons whole
    rw [lines, if_neg ne.symm]
    cases line with
    | nil => rfl
    | cons next line => rw [ih (List.cons_ne_nil _ _) whole]

theorem splitsInto_lines (input : List UInt8) : SplitsInto input (lines input) := by
  induction input with
  | nil => exact .nil
  | cons byte bytes ih =>
    unfold lines
    split
    · next lineFeed =>
      subst lineFeed
      exact .cons List.not_mem_nil ih
    · next ne =>
      -- The byte belongs to the first line of what follows, if there is one.
      have longer {line : List UInt8} (whole : 10 ∉ line) : 10 ∉ byte :: line :=
        List.not_mem_cons_of_ne_of_not_mem (Ne.symm ne) whole
      generalize lines bytes = ls at ih
      cases ih with
      | nil => exact .last (List.cons_ne_nil _ _) (longer List.not_mem_nil)
      | last some whole => exact .last (List.cons_ne_nil _ _) (longer whole)
      | cons whole later => exact .cons (longer whole) later

theorem splitsInto_iff {input : List UInt8} {ls : List (List UInt8)} :
    SplitsInto input ls ↔ lines input = ls := by
  refine ⟨fun split => ?_, fun same => same ▸ splitsInto_lines input⟩
  induction split with
  | nil => rfl
  | last some whole => exact lines_of_notMem some whole
  | cons whole _ ih => rw [lines_append whole, ih]

/-- The text of a line, if it is text. -/
def text? (line : List UInt8) : Option String :=
  String.fromUTF8? ⟨line.toArray⟩

/-- The texts of the lines before the first that is not text. -/
def readable : List (List UInt8) → List String
  | [] => []
  | line :: rest =>
    match text? line with
    | none => []
    | some text => text :: readable rest

end Repl

/-! ## Sessions without a bound -/

namespace Session

/-- What a text comes to in a session, its calls nested as deep as they need.  A text with
diagnostics is not evaluated and leaves the session as it is. -/
inductive StepsTo (session : Session) (text : String) : Step × Session → Prop
  | refused (bad : (Parse.ofText text).diagnostics ≠ []) :
      StepsTo session text (⟨Parse.ofText text, none⟩, session)
  | evaluated {run : Run (Option Value)} (good : (Parse.ofText text).diagnostics = [])
      (runs : Eval.RunsTo session.scope (Parse.ofText text).program session.scopes run) :
      StepsTo session text (⟨Parse.ofText text, some run⟩, session.after run)

/-- What texts come to that are evaluated one after another, each in the session the earlier ones
left. -/
inductive Yields : Session → List String → List (Step × Session) → Prop
  | nil {session : Session} : Yields session [] []
  | cons {session : Session} {text : String} {next : Step × Session} {texts : List String}
      {steps : List (Step × Session)} (first : session.StepsTo text next)
      (later : Yields next.2 texts steps) : Yields session (text :: texts) (next :: steps)

theorem StepsTo.unique {session : Session} {text : String} {next next' : Step × Session}
    (first : session.StepsTo text next) (first' : session.StepsTo text next') : next = next' := by
  cases first with
  | refused bad =>
    cases first' with
    | refused => rfl
    | evaluated good => exact absurd good bad
  | evaluated good runs =>
    cases first' with
    | refused bad => exact absurd good bad
    | evaluated _ runs' => rw [runs.unique runs']

theorem Yields.unique {session : Session} {texts : List String}
    {steps steps' : List (Step × Session)}
    (yields : session.Yields texts steps) (yields' : session.Yields texts steps') :
    steps = steps' := by
  induction yields generalizing steps' with
  | nil =>
    cases yields'
    rfl
  | cons first _ ih =>
    obtain _ | ⟨first', later'⟩ := yields'
    obtain rfl := first.unique first'
    rw [ih later']

end Session

/-! ## Responses -/

/-- All that was printed while a text was evaluated, if it was. -/
def Step.printed (step : Step) : String :=
  match step.run with
  | none => ""
  | some run => run.printed

@[simp] theorem Step.printed_none (parse : Parse) : Step.printed ⟨parse, none⟩ = "" :=
  rfl

@[simp] theorem Step.printed_some (parse : Parse) (run : Run (Option Value)) :
    Step.printed ⟨parse, some run⟩ = run.printed :=
  rfl

namespace Repl

/-- What the loop itself writes of a step: the diagnostics or else the result, each on a line. -/
def answerText (step : Step) : String :=
  match step.run with
  | none => String.join (step.parse.diagnostics.map diagnosticLine)
  | some run =>
    match run.answer with
    | .result value => resultLine value
    | .tooDeep => ""

/-- How a step is answered, write by write. -/
def response (step : Step) : List Write :=
  match step.run with
  | none => step.parse.diagnostics.map fun d => ⟨.own, diagnosticLine d⟩
  | some run => [⟨.stdout, run.printed⟩, ⟨.own, answerText step⟩]

/-- The responses to steps of a session, each behind a prompt, and a last prompt. -/
def shown (steps : List (Step × Session)) : List Write :=
  steps.flatMap (fun step => ⟨.own, prompt⟩ :: response step.1) ++ [⟨.own, prompt⟩]

/-- How the loop ends on lines of which all come to an end. -/
def endingOf (ls : List (List UInt8)) : Ending :=
  if ∀ line ∈ ls, text? line ≠ none then .normal else .notText

theorem answerText_of_answer {run : Run (Option Value)} {value : Option Value}
    (answer : run.answer = .result value) (parse : Parse) :
    answerText ⟨parse, some run⟩ = resultLine value := by
  simp only [answerText, answer]

theorem shown_cons (step : Step × Session) (steps : List (Step × Session)) :
    shown (step :: steps) = ⟨.own, prompt⟩ :: (response step.1 ++ shown steps) := by
  simp [shown]

theorem endingOf_of_notText {line : List UInt8} (notText : text? line = none)
    (rest : List (List UInt8)) : endingOf (line :: rest) = .notText :=
  if_neg fun all => all line (List.mem_cons_self ..) notText

theorem endingOf_of_text {line : List UInt8} {text : String} (decoded : text? line = some text)
    (rest : List (List UInt8)) : endingOf (line :: rest) = endingOf rest := by
  simp [endingOf, decoded]

theorem endingOf_ne_tooDeep (ls : List (List UInt8)) : endingOf ls ≠ .tooDeep := by
  unfold endingOf
  split <;> exact nofun

/-! ### What appears on the ports -/

theorem output_cons (write : Write) (writes : List Write) :
    output (write :: writes) = write.text ++ output writes := by
  simp [output]

theorem output_append (writes writes' : List Write) :
    output (writes ++ writes') = output writes ++ output writes' := by
  simp [output]

theorem output_flatMap {α : Type} (write : α → List Write) (xs : List α) :
    output (xs.flatMap write) = String.join (xs.map fun x => output (write x)) := by
  induction xs with
  | nil => rfl
  | cons x xs ih => rw [List.flatMap_cons, output_append, ih, List.map_cons, String.join_cons]

theorem outputOn_own_cons (text : String) (writes : List Write) :
    outputOn .own (⟨.own, text⟩ :: writes) = text ++ outputOn .own writes := by
  simp [outputOn, output]

theorem outputOn_stdout_cons (text : String) (writes : List Write) :
    outputOn .stdout (⟨.own, text⟩ :: writes) = outputOn .stdout writes := by
  simp [outputOn]

theorem output_response (step : Step) :
    output (response step) = step.printed ++ answerText step := by
  unfold response Step.printed
  split
  · next unread => simp [output, answerText, unread, Function.comp_def]
  · simp [output]

theorem outputOn_own_response (step : Step) : outputOn .own (response step) = answerText step := by
  unfold response
  split
  · next unread =>
    simp [outputOn, output, answerText, unread, List.filter_map, Function.comp_def]
  · simp [outputOn, output]

theorem outputOn_stdout_response (step : Step) :
    outputOn .stdout (response step) = step.printed := by
  unfold response Step.printed
  split
  · simp [outputOn, output, List.filter_map, Function.comp_def]
  · simp [outputOn, output]

theorem output_shown (steps : List (Step × Session)) :
    output (shown steps) =
      String.join (steps.map fun step => prompt ++ (step.1.printed ++ answerText step.1)) ++
        prompt := by
  rw [shown, output_append, output_flatMap]
  simp only [output_cons, output_response]
  simp [output]

theorem outputOn_shown (port : Port) (steps : List (Step × Session)) :
    outputOn port (shown steps) =
      String.join (steps.map fun step => outputOn port (⟨.own, prompt⟩ :: response step.1)) ++
        outputOn port [⟨.own, prompt⟩] := by
  rw [outputOn, shown, List.filter_append, output_append, List.filter_flatMap, output_flatMap]
  rfl

/-- A transcript shows steps of a session as the answers to lines: with every write in its place,
and as it appears on standard output, if the loop writes there, or apart from what is printed. -/
structure Shows (steps : List (Step × Session)) (ls : List (List UInt8))
    (transcript : Transcript) : Prop where
  writes : transcript.writes = shown steps
  ending : transcript.ending = endingOf ls
  together : transcript.output =
    String.join (steps.map fun step => prompt ++ (step.1.printed ++ answerText step.1)) ++ prompt
  apart : outputOn .own transcript.writes =
    String.join (steps.map fun step => prompt ++ answerText step.1) ++ prompt
  printed : outputOn .stdout transcript.writes = String.join (steps.map fun step => step.1.printed)

theorem shows_shown (steps : List (Step × Session)) (ls : List (List UInt8)) :
    Shows steps ls ⟨shown steps, endingOf ls⟩ where
  writes := rfl
  ending := rfl
  together := output_shown steps
  apart := by
    rw [outputOn_shown]
    simp only [outputOn_own_cons, outputOn_own_response]
    rfl
  printed := by
    rw [outputOn_shown]
    simp only [outputOn_stdout_cons, outputOn_stdout_response]
    exact String.append_empty

end Repl

/-! ## Answers -/

section

variable {session : Session} {text : String} {depth : Nat} {next : Step × Session}

open Repl

theorem Repl.reply_of_diagnostics (bad : (Parse.ofText text).diagnostics ≠ []) :
    reply session text depth = ⟨response ⟨Parse.ofText text, none⟩, .normal, session⟩ := by
  rw [reply, Session.step_of_diagnostics bad]
  rfl

theorem Repl.reply_of_ends {run : Run (Option Value)}
    (good : (Parse.ofText text).diagnostics = [])
    (ran : session.run (Parse.ofText text).program depth = run)
    (ends : run.outcome ≠ .error .tooDeep) :
    reply session text depth =
      ⟨response ⟨Parse.ofText text, some run⟩, .normal, session.after run⟩ := by
  obtain ⟨value, answered⟩ : ∃ value, run.answer = .result value := by
    unfold Run.answer
    match found : run.outcome with
    | .ok value => exact ⟨value, rfl⟩
    | .error (.error e) => exact ⟨some (.error e), rfl⟩
    | .error .tooDeep => exact absurd found ends
  rw [reply, Session.step_of_diagnostics_eq_nil good, ran]
  simp only [response, answerText, answered]

theorem Repl.ending_of_cut (good : (Parse.ofText text).diagnostics = [])
    (cut : (session.run (Parse.ofText text).program depth).outcome = .error .tooDeep) :
    (reply session text depth).ending = .tooDeep := by
  have answered : (session.run (Parse.ofText text).program depth).answer = .tooDeep := by
    rw [Run.answer, cut]
  rw [reply, Session.step_of_diagnostics_eq_nil good]
  simp only [answered]

/-- Every bound that is large enough gives the response to the step. -/
theorem Session.StepsTo.exists_enough (first : session.StepsTo text next) :
    ∃ enough, ∀ depth, enough ≤ depth →
      reply session text depth = ⟨response next.1, .normal, next.2⟩ := by
  cases first with
  | refused bad => exact ⟨0, fun _ _ => reply_of_diagnostics bad⟩
  | evaluated good runs =>
    obtain ⟨enough, same⟩ := runs.exists_enough
    exact ⟨enough, fun depth le => reply_of_ends good (same depth le) runs.ends⟩

/-- What is not cut off is the response to a step. -/
theorem Session.StepsTo.of_ending (ends : (reply session text depth).ending ≠ .tooDeep) :
    ∃ next, session.StepsTo text next ∧
      reply session text depth = ⟨response next.1, .normal, next.2⟩ := by
  by_cases good : (Parse.ofText text).diagnostics = []
  · have whole : (session.run (Parse.ofText text).program depth).outcome ≠ .error .tooDeep :=
      fun cut => ends (ending_of_cut good cut)
    exact ⟨_, .evaluated good (.of_ends whole), reply_of_ends good rfl whole⟩
  · exact ⟨_, .refused good, reply_of_diagnostics good⟩

end

namespace Repl

section

variable {session : Session} {line : List UInt8} {text : String} {depth : Nat}
variable {rest : List (List UInt8)} {next : Step × Session}

theorem answerLines_of_notText (notText : text? line = none) :
    answerLines session (line :: rest) depth = ⟨shown [], .notText⟩ := by
  rw [text?] at notText
  rw [answerLines, notText]
  rfl

theorem answerLines_of_normal (decoded : text? line = some text)
    (answered : reply session text depth = ⟨response next.1, .normal, next.2⟩) :
    answerLines session (line :: rest) depth =
      ⟨⟨.own, prompt⟩ :: (response next.1 ++ (answerLines next.2 rest depth).writes),
        (answerLines next.2 rest depth).ending⟩ := by
  rw [text?] at decoded
  rw [answerLines, decoded]
  simp only [answered]

theorem answerLines_of_tooDeep (decoded : text? line = some text)
    (cut : (reply session text depth).ending = .tooDeep) :
    answerLines session (line :: rest) depth =
      ⟨⟨.own, prompt⟩ :: (reply session text depth).writes, .tooDeep⟩ := by
  rw [text?] at decoded
  rw [answerLines, decoded]
  simp only [cut]

end

theorem readable_of_notText {line : List UInt8} (notText : text? line = none)
    (rest : List (List UInt8)) : readable (line :: rest) = [] := by
  rw [readable, notText]

theorem readable_of_text {line : List UInt8} {text : String} (decoded : text? line = some text)
    (rest : List (List UInt8)) : readable (line :: rest) = text :: readable rest := by
  rw [readable, decoded]

/-- If every line comes to an end, bounds that are large enough let the loop write it all. -/
theorem answerLines_of_yields {session : Session} {ls : List (List UInt8)}
    {steps : List (Step × Session)} (yields : session.Yields (readable ls) steps) :
    ∃ enough, ∀ depth, enough ≤ depth →
      answerLines session ls depth = ⟨shown steps, endingOf ls⟩ := by
  induction ls generalizing session steps with
  | nil =>
    cases yields
    exact ⟨0, fun _ _ => rfl⟩
  | cons line rest ih =>
    cases decoded : text? line with
    | none =>
      rw [readable_of_notText decoded] at yields
      cases yields
      rw [endingOf_of_notText decoded]
      exact ⟨0, fun _ _ => answerLines_of_notText decoded⟩
    | some text =>
      rw [readable_of_text decoded] at yields
      obtain _ | ⟨first, later⟩ := yields
      obtain ⟨enough, answered⟩ := first.exists_enough
      obtain ⟨enough', written⟩ := ih later
      refine ⟨max enough enough', fun depth le => ?_⟩
      obtain ⟨le, le'⟩ := Nat.max_le.mp le
      rw [answerLines_of_normal decoded (answered depth le), written depth le', shown_cons,
        endingOf_of_text decoded]

/-- A loop that is not cut off wrote the steps of a session. -/
theorem exists_yields {session : Session} {ls : List (List UInt8)} {depth : Nat}
    (ends : (answerLines session ls depth).ending ≠ .tooDeep) :
    ∃ steps, session.Yields (readable ls) steps ∧
      answerLines session ls depth = ⟨shown steps, endingOf ls⟩ := by
  induction ls generalizing session with
  | nil => exact ⟨[], .nil, rfl⟩
  | cons line rest ih =>
    cases decoded : text? line with
    | none =>
      rw [readable_of_notText decoded, endingOf_of_notText decoded]
      exact ⟨[], .nil, answerLines_of_notText decoded⟩
    | some text =>
      have whole : (reply session text depth).ending ≠ .tooDeep := by
        intro cut
        rw [answerLines_of_tooDeep decoded cut] at ends
        exact ends rfl
      obtain ⟨next, first, answered⟩ := Session.StepsTo.of_ending whole
      rw [answerLines_of_normal decoded answered] at ends ⊢
      obtain ⟨steps, later, written⟩ := ih ends
      rw [readable_of_text decoded, endingOf_of_text decoded, written, ← shown_cons]
      exact ⟨next :: steps, .cons first later, rfl⟩

theorem prompt_prefix (session : Session) (ls : List (List UInt8)) (depth : Nat) :
    [⟨.own, prompt⟩] <+: (answerLines session ls depth).writes := by
  cases ls with
  | nil => exact List.prefix_rfl
  | cons line rest =>
    cases decoded : text? line with
    | none =>
      rw [answerLines_of_notText decoded]
      exact List.prefix_rfl
    | some text =>
      by_cases cut : (reply session text depth).ending = .tooDeep
      · rw [answerLines_of_tooDeep decoded cut]
        exact List.prefix_append [_] _
      · obtain ⟨next, _, answered⟩ := Session.StepsTo.of_ending cut
        rw [answerLines_of_normal decoded answered]
        exact List.prefix_append [_] _

/-- Lines that come to an end are answered, whatever comes of those behind them. -/
theorem shown_prefix {session : Session} {ls : List (List UInt8)} {before after : List String}
    {steps : List (Step × Session)} (read : readable ls = before ++ after)
    (yields : session.Yields before steps) :
    ∃ enough, ∀ depth, enough ≤ depth → shown steps <+: (answerLines session ls depth).writes := by
  induction yields generalizing ls with
  | nil => exact ⟨0, fun depth _ => prompt_prefix _ ls depth⟩
  | cons first _ ih =>
    cases ls with
    | nil => exact absurd read nofun
    | cons line rest =>
      cases decoded : text? line with
      | none => exact absurd (readable_of_notText decoded rest ▸ read) nofun
      | some text =>
        rw [readable_of_text decoded] at read
        obtain ⟨rfl, readLater⟩ := List.cons.inj read
        obtain ⟨enough, answered⟩ := first.exists_enough
        obtain ⟨enough', written⟩ := ih readLater
        refine ⟨max enough enough', fun depth le => ?_⟩
        obtain ⟨le, le'⟩ := Nat.max_le.mp le
        rw [answerLines_of_normal decoded (answered depth le), shown_cons, List.prefix_cons_inj,
          List.prefix_append_right_inj]
        exact written depth le'

end Repl

/-- The loop comes to an end where its lines do, and then it has shown the steps of one session.
The lines before one that does not come to an end are shown in any case. -/
theorem transcript_eq_session {input : List UInt8} {ls : List (List UInt8)}
    (split : Repl.SplitsInto input ls) :
    ((∃ steps, Session.fresh.Yields (Repl.readable ls) steps) ↔
      ∃ depth, (Repl.transcript input depth).ending ≠ .tooDeep) ∧
    (∀ steps, Session.fresh.Yields (Repl.readable ls) steps →
      (∃ enough, ∀ depth, enough ≤ depth → (Repl.transcript input depth).ending ≠ .tooDeep) ∧
      ∀ depth, (Repl.transcript input depth).ending ≠ .tooDeep →
        Repl.Shows steps ls (Repl.transcript input depth)) ∧
    ∀ before after steps, Repl.readable ls = before ++ after →
      Session.fresh.Yields before steps →
      ∃ enough, ∀ depth, enough ≤ depth →
        Repl.shown steps <+: (Repl.transcript input depth).writes := by
  obtain rfl := Repl.splitsInto_iff.mp split
  have whole {steps : List (Step × Session)}
      (yields : Session.fresh.Yields (Repl.readable (Repl.lines input)) steps) :
      ∃ enough, ∀ depth, enough ≤ depth → (Repl.transcript input depth).ending ≠ .tooDeep := by
    obtain ⟨enough, written⟩ := Repl.answerLines_of_yields yields
    refine ⟨enough, fun depth le => ?_⟩
    rw [Repl.transcript, written depth le]
    exact Repl.endingOf_ne_tooDeep _
  refine ⟨⟨fun ⟨steps, yields⟩ => ?_, fun ⟨depth, ends⟩ => ?_⟩, fun steps yields => ?_,
    fun before after steps read yields => Repl.shown_prefix read yields⟩
  · obtain ⟨enough, ends⟩ := whole yields
    exact ⟨enough, ends enough le_rfl⟩
  · obtain ⟨steps, yields, _⟩ := Repl.exists_yields ends
    exact ⟨steps, yields⟩
  · refine ⟨whole yields, fun depth ends => ?_⟩
    obtain ⟨steps', yields', written⟩ := Repl.exists_yields ends
    obtain rfl := yields.unique yields'
    rw [Repl.transcript, written]
    exact Repl.shows_shown steps _

/-- The lines `let a = true;`, `)` and `fn() { puts(a) }()`, and a byte that is not text. -/
def dialogue : List (List UInt8) :=
  [[108, 101, 116, 32, 97, 32, 61, 32, 116, 114, 117, 101, 59, 10], [41, 10],
    [102, 110, 40, 41, 32, 123, 32, 112, 117, 116, 115, 40, 97, 41, 32, 125, 40, 41, 10], [255]]

/-- The program `fn() { puts(a) }()`. -/
def printing : Program :=
  let printed := Expr.call (.ident (.ofName "puts")) [.ident (.ofName "a")]
  ⟨[.expr .fnWord (.call (.fn [] (.mk .lbrace [.expr (.ident "puts") printed])) [])]⟩

/-- The session in which `a` is true. -/
def withTruth : Session :=
  { Session.fresh with scopes := Session.fresh.scopes.bind 0 "a" (.bool true) }

/-- What comes of the lines of the dialogue. -/
def dialogueSteps : List (Step × Session) :=
  let run := Eval.program 1 0 printing withTruth.scopes
  [(⟨Parse.ofText "let a = true;\n", some ⟨.ok none, withTruth.scopes, []⟩⟩, withTruth),
    (⟨Parse.ofText ")\n", none⟩, withTruth),
    (⟨Parse.ofText "fn() \x7b puts(a) \x7d()\n", some run⟩, withTruth.after run)]

/-- A line that is reported on does not disturb the session, and one that is not text ends it. -/
theorem transcript_eq_session_of_dialogue :
    Repl.SplitsInto dialogue.flatten dialogue ∧
    Session.fresh.Yields (Repl.readable dialogue) dialogueSteps ∧
    ∃ enough, ∀ depth, enough ≤ depth →
      let transcript := Repl.transcript dialogue.flatten depth
      transcript.ending = .notText ∧
      transcript.output = ">> >> \tno prefix parse function for ) found\n>> true\nnull\n>> " ∧
      Repl.outputOn .own transcript.writes =
        ">> >> \tno prefix parse function for ) found\n>> null\n>> " ∧
      Repl.outputOn .stdout transcript.writes = "true\n" := by
  have bound : Parse.ofText "let a = true;\n" =
      ⟨⟨[.bind .letWord (.ofName "a") (.bool true)]⟩, []⟩ := by cbv
  have bad : Parse.ofText ")\n" = ⟨⟨[]⟩, [.diagnostic (.noExpression .rparen), .dropped]⟩ := by cbv
  have called : Parse.ofText "fn() \x7b puts(a) \x7d()\n" = ⟨printing, []⟩ := by cbv
  have result : (Eval.program 1 0 printing withTruth.scopes).outcome = .ok (some .null) := by cbv
  have puts : (Eval.program 1 0 printing withTruth.scopes).printed = "true\n" := by cbv
  have yields : Session.fresh.Yields (Repl.readable dialogue) dialogueSteps := by
    have read : Repl.readable dialogue =
        ["let a = true;\n", ")\n", "fn() \x7b puts(a) \x7d()\n"] := by decide
    rw [read]
    have binds : Eval.RunsTo 0 (Parse.ofText "let a = true;\n").program Session.fresh.scopes
        ⟨.ok none, withTruth.scopes, []⟩ := ⟨by simp, 0, by rw [bound]; rfl⟩
    have prints : Eval.RunsTo 0 (Parse.ofText "fn() \x7b puts(a) \x7d()\n").program
        withTruth.scopes (Eval.program 1 0 printing withTruth.scopes) :=
      ⟨by simp [result], 1, by rw [called]⟩
    exact .cons (.evaluated (by rw [bound]; rfl) binds) (.cons (.refused (by rw [bad]; decide))
      (.cons (.evaluated (by rw [called]; rfl) prints) .nil))
  have reported : Repl.answerText ⟨Parse.ofText ")\n", none⟩ =
      "\tno prefix parse function for ) found\n" := by
    rw [bad]
    rfl
  have answer : (Eval.program 1 0 printing withTruth.scopes).answer = .result (some .null) := by
    rw [Run.answer, result]
  have split : Repl.SplitsInto dialogue.flatten dialogue := Repl.splitsInto_iff.mpr (by decide)
  obtain ⟨_, whole, _⟩ := transcript_eq_session split
  obtain ⟨⟨enough, ends⟩, shows⟩ := whole dialogueSteps yields
  refine ⟨split, yields, enough, fun depth le => ?_⟩
  obtain ⟨_, ending, together, apart, printed⟩ := shows depth (ends depth le)
  refine ⟨ending.trans (by decide), together.trans ?_, apart.trans ?_, printed.trans ?_⟩
  · simp only [dialogueSteps, List.map_cons, List.map_nil, Step.printed_some, Step.printed_none,
      reported, Repl.answerText_of_answer answer, puts]
    decide
  · simp only [dialogueSteps, List.map_cons, List.map_nil, reported,
      Repl.answerText_of_answer answer]
    decide
  · simp only [dialogueSteps, List.map_cons, List.map_nil, Step.printed_some, Step.printed_none,
      puts]
    decide

end TreeWalk
