import Newsdeck.Runner.Lifecycle

/-!
# What `advance` does to the journal

`advance` reads the journal, and for some of the runs in flight reads it again and writes it with the
record of that run moved: finished, given up, or with one more round of failing checks.

* `Moved`, `Moves` — the machine;
* `advance_follows` — `advance` follows it, however the world answers and wherever it is interrupted.
-/

namespace Newsdeck.Runner

open Ecma Loop Effects Effects.Prog

/-- What `advance` makes of the record of a run. -/
inductive Moved (record : RunRecord) : RunRecord → Prop
  | finished : Moved record { record with status := .done }
  | gaveUp : Moved record (givenUp record)
  | counted : Moved record { record with ciRounds := record.ciRounds + 1 }

inductive Looking where
  /-- Nothing has happened yet. -/
  | idle
  /-- The runs in flight are known. -/
  | listed (journal : Journal)
  /-- The journal was read again, for one of them. -/
  | reread (journal current : Journal)

inductive Moves : Looking → WorkEvent → Looking → Prop
  | list (journal : Journal) : Moves .idle (.read journal) (.listed journal)
  | reread (journal current : Journal) : Moves (.listed journal) (.read current) (.reread journal current)
  | rewrite (journal current : Journal) (record changed : RunRecord) (ok : Bool)
      (run : record ∈ inFlight journal) (moved : Moved record changed) :
      Moves (.reread journal current) (.wrote (upsertRun current changed) ok) (.listed journal)

/-- The log leads to the phase. -/
abbrev LooksAt (log : List WorkEvent) (phase : Looking) : Prop := Path Moves .idle log phase

abbrev Steers {α : Type} (p : Action α) (log : List WorkEvent) (post : α → List WorkEvent → Prop) :
    Prop :=
  Spells workView Moves .idle p log post

section Rules

variable {journal current : Journal} {log : List WorkEvent} {α : Type}

theorem readJournal_steers (h : LooksAt log (.listed journal)) :
    Steers readJournal log fun current log' => LooksAt log' (.reread journal current) :=
  spells_call _ _ h (fun _ => rfl) (fun current => .reread journal current)
    fun _ _ hpath => ensures_ret hpath

theorem writeJournal_steers {record changed : RunRecord} (h : LooksAt log (.reread journal current))
    (hrun : record ∈ inFlight journal) (hmoved : Moved record changed) :
    Steers (writeJournal (upsertRun current changed)) log
      fun _ log' => LooksAt log' (.listed journal) :=
  spells_call _ _ h (fun _ => rfl)
    (fun _ => .rewrite journal current record changed _ hrun hmoved)
    fun _ _ hpath => ensures_raise (fun _ _ => hpath) fun _ _ => ⟨_, hpath⟩

end Rules

section Parts

variable {journal : Journal} {log : List WorkEvent} {record : RunRecord} {deps : RunnerDeps}

theorem finishRun_steers (h : LooksAt log (.listed journal)) (hrun : record ∈ inFlight journal) :
    Steers (finishRun deps record .done) log fun _ log' => LooksAt log' (.listed journal) := by
  unfold finishRun
  refine spells_quiet_bind ((removeOwnWorktree_emits deps record).mono quiet_of_isGit) h
    fun _ log h => ?_
  refine ensures_bind ((readJournal_steers h).weaken fun current log h => ?_)
  exact writeJournal_steers h hrun .finished

theorem blockRun_steers {detail : Text} (h : LooksAt log (.listed journal))
    (hrun : record ∈ inFlight journal) :
    Steers (blockRun deps record detail) log fun _ log' => LooksAt log' (.listed journal) := by
  unfold blockRun
  refine ensures_bind ((readJournal_steers h).weaken fun current log h => ?_)
  refine ensures_bind ((writeJournal_steers h hrun .gaveUp).weaken fun _ log h => ?_)
  have hreview : reviewLabel ≠ readyLabel := by simp [reviewLabel, readyLabel]
  refine spells_quiet_bind (quiet_removeLabel hreview _) h fun _ log h => ?_
  refine spells_quiet_bind (quiet_addLabels blockedLabel_ne _) h fun _ log h => ?_
  exact spells_quiet (quiet_comment _ _) h

theorem countCiRound_steers (h : LooksAt log (.listed journal)) (hrun : record ∈ inFlight journal) :
    Steers (countCiRound record) log fun _ log' => LooksAt log' (.listed journal) := by
  unfold countCiRound
  refine ensures_bind ((readJournal_steers h).weaken fun current log h => ?_)
  exact writeJournal_steers h hrun .counted

variable [Unicode]

theorem advanceOpen_steers {number : ℕ} {pr : GhPullRequest} {mergeable : Mergeability}
    (h : LooksAt log (.listed journal)) (hrun : record ∈ inFlight journal) :
    Steers (advanceOpen deps record number pr mergeable) log
      fun _ log' => LooksAt log' (.listed journal) := by
  unfold advanceOpen
  split
  · exact ensures_ret h
  · dsimp only
    split
    · exact ensures_ret h
    · exact ensures_ret h
    · unfold advanceFailing
      split
      · exact ensures_bind ((blockRun_steers h hrun).weaken fun _ log h => ensures_ret h)
      · exact ensures_bind ((countCiRound_steers h hrun).weaken fun _ log h => ensures_ret h)
    · exact ensures_ret h

theorem advanceRun_steers (h : LooksAt log (.listed journal)) (hrun : record ∈ inFlight journal) :
    Steers (advanceRun deps record) log fun _ log' => LooksAt log' (.listed journal) := by
  unfold advanceRun
  split
  · exact ensures_ret h
  · refine spells_quiet_bind ⟨fun _ => rfl, fun answer => emits_raise answer⟩ h fun pr log h => ?_
    split
    · exact ensures_bind ((finishRun_steers h hrun).weaken fun _ log h => ensures_ret h)
    · split
      · exact ensures_bind ((finishRun_steers h hrun).weaken fun _ log h => ensures_ret h)
      · refine spells_quiet_bind ⟨fun _ => rfl, fun answer => emits_raise answer⟩ h
          fun mergeable log h => ?_
        split
        · refine spells_quiet_bind (emits_attempt ⟨fun _ => rfl, fun answer => emits_raise answer⟩) h
            fun updated log h => ?_
          split
          · exact ensures_ret h
          · exact advanceOpen_steers h hrun
        · exact advanceOpen_steers h hrun

theorem advanceAll_steers (records : List RunRecord) :
    ∀ log, LooksAt log (.listed journal) → (∀ record ∈ records, record ∈ inFlight journal) →
      Steers (advanceAll deps records) log fun _ log' => LooksAt log' (.listed journal) := by
  induction records with
  | nil => exact fun log h _ => ensures_ret h
  | cons record rest ih =>
    intro log h hruns
    unfold advanceAll
    refine ensures_bind ((advanceRun_steers h (hruns record (by simp))).weaken fun _ log h => ?_)
    refine ensures_bind ((ih log h fun r hr => hruns r (by simp [hr])).weaken fun _ log h => ?_)
    exact ensures_ret h

/-- **Refinement.**  Whatever the world answers, and wherever it is interrupted, a run of `advance`
is a path of the machine. -/
theorem advance_follows (deps : RunnerDeps) :
    Follows workView Moves .idle (fun _ _ => True) (advance deps) := by
  refine follows_of_spells ?_ (fun _ _ => trivial) fun _ => trivial
  unfold advance
  refine ensures_bind ?_
  refine spells_call _ _ .nil (fun _ => rfl) (fun journal => .list journal)
    fun journal log h => ensures_ret ?_
  refine ensures_bind ((advanceAll_steers _ log h fun _ hr => hr).weaken fun _ log h => ?_)
  exact ensures_ret ⟨_, h, trivial⟩

end Parts

end Newsdeck.Runner
