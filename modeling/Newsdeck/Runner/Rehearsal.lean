import Newsdeck.Loop.Protections
import Newsdeck.Runner.JournalFile

/-!
# Rehearsed runs

Runs in a world that keeps the journal as it was last written and takes every other answer from a
script.

* `rehearse`, `calm` — the world, and the script in which everything goes well;
* `rehearse_steps`, `rehearsed_history` — what is rehearsed is a run, or a history, of a world in
  which reads may return what was written;
* `mem_rehearsed` — its calls are the ones that were asked for, answered by their scripts.
-/

namespace Newsdeck.Runner

open Ecma Loop Effects Effects.Prog

/-- What the operations are answered with, by the journal there is at the moment; `none` where the
runner is interrupted. -/
abbrev Script := Journal → (op : Op) → Option op.Answer

def rehearse (script : Script) (journal : Journal) (op : Op) : Option (op.Answer × Journal) :=
  match op with
  | .readJournal => (script journal .readJournal).map fun _ => (journal, journal)
  | .writeJournal written => (script journal (.writeJournal written)).map fun answer =>
      (answer, if succeeded answer then written else journal)
  | op => (script journal op).map fun answer => (answer, journal)

/-- The script shows an issue under its own number. -/
def Script.Honest (script : Script) : Prop :=
  ∀ journal number issue, script journal (.issue number) = some (.ok issue) → issue.number = number

theorem rehearse_steps {script : Script} {reads : Journal → Journal → Prop}
    (hreads : ∀ journal, reads journal journal) (hscript : script.Honest) (journal : Journal) (op : Op)
    (answer : op.Answer) (journal' : Journal) (h : rehearse script journal op = some (answer, journal')) :
    journalStep reads journal ⟨op, answer⟩ journal' := by
  cases op <;> simp only [rehearse, Option.map_eq_some_iff, Prod.mk.injEq] at h <;>
    obtain ⟨given, hgiven, hanswer, hjournal⟩ := h
  case readJournal => exact ⟨rfl, rfl⟩
  case writeJournal written =>
    subst hanswer
    cases hok : succeeded given with
    | true =>
      rw [if_pos hok] at hjournal
      exact .inl (hjournal ▸ hreads written)
    | false =>
      rw [if_neg (by simp [hok])] at hjournal
      exact .inr ⟨hok, hjournal.symm⟩
  case issue number =>
    subst hanswer
    refine ⟨fun issue hissue => hscript journal number issue ?_, hjournal.symm⟩
    rw [hgiven, hissue]
  all_goals exact hjournal.symm

section Histories

variable {ι α : Type} (program : ι → Action α)

/-- The calls one after the other, each with its own script. -/
def rehearsed (calls : List (ι × Script)) (journal : Journal) :
    List (Made ι Op Op.Answer Text α) × Journal :=
  playAll program (calls.map fun call => (call.1, rehearse call.2)) journal

theorem rehearsed_history {reads : Journal → Journal → Prop} (calls : List (ι × Script))
    (journal : Journal) (hreads : ∀ journal, reads journal journal)
    (hcalls : ∀ call ∈ calls, call.2.Honest) :
    History (journalStep reads) program journal (rehearsed program calls journal).1
      (rehearsed program calls journal).2 := by
  refine history_playAll id _ [] journal .nil ?_
  intro call hcall
  obtain ⟨call, hmem, rfl⟩ := List.mem_map.mp hcall
  exact rehearse_steps hreads (hcalls call hmem)

theorem mem_rehearsed {calls : List (ι × Script)} {journal : Journal} {m : Made ι Op Op.Answer Text α}
    (h : m ∈ (rehearsed program calls journal).1) :
    ∃ call ∈ calls, m.call = call.1 ∧
      ∀ event ∈ m.trace, ∃ s s', rehearse call.2 s event.op = some (event.answer, s') := by
  obtain ⟨played, hplayed, hm⟩ := mem_playAll h
  obtain ⟨call, hmem, rfl⟩ := List.mem_map.mp hplayed
  exact ⟨call, hmem, hm⟩

end Histories

/-! ### The script in which everything goes well -/

def sampleDeps : RunnerDeps where
  config := defaultConfig
  policy := samplePolicy .low none
  repository := lit "/repo"
  remote := lit "origin"
  defaultBranch := lit "main"
  resolve := join (lit "/")
  codingName := lit "claude"
  reviewers := 1
  selectionPolicy := none
  policy_reviewers := by
    intro risk
    cases risk <;> decide

def sampleIssue (number : ℕ) : GhIssue := ⟨number, lit "Fix", none, lit "OPEN", [readyLabel]⟩

/-- One open issue, a clean pull request without checks, an agent that does its work, and a reviewer
that approves of it. -/
def calm : (op : Op) → op.Answer
  | .now => lit "now"
  | .createLog _ => .ok ()
  | .logLine _ => .ok ()
  | .logArtifact _ _ => .ok ()
  | .readJournal => emptyJournal
  | .writeJournal _ => .ok ()
  | .issues => .ok [sampleIssue 1]
  | .issue number => .ok (sampleIssue number)
  | .addLabels _ _ => .ok ()
  | .removeLabel _ _ => .ok ()
  | .comment _ _ => .ok ()
  | .createPullRequest _ => .ok 7
  | .pullRequest number => .ok ⟨number, lit "OPEN", none, none⟩
  | .pullRequestForBranch _ => .ok none
  | .enableAutoMerge _ => .ok ()
  | .updateBranch _ => .ok ()
  | .mergeability _ => .ok .clean
  | .git _ _ => .ok ⟨0, lit "1", []⟩
  | .install _ => .ok ⟨0, [], []⟩
  | .readPolicyFile _ => .error (lit "ENOENT")
  | .recordInvocation => ()
  | .implement _ => .ok (.ok (lit "Done."))
  | .verify options => .ok ⟨true, options.risk, [], none, [], []⟩
  | .review _ _ => .ok (.ok ⟨.approve, [], lit "Good."⟩)
  | .stopping => false
  | .checkBudget => none
  | .recordIssue => ()
  | .snapshot => ⟨0, 0⟩
  | .sleep _ => ()

end Newsdeck.Runner
