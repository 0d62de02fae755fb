import Newsdeck.Loop.ExportLines
import Newsdeck.Loop.RiskComparison

/-!
# Exports a change takes away

A module is a list of statements; some of them export names.  Which statements a text has is a
matter of the language, and `statements` is any reading of texts as lists of statements.  A change
is told from its lines: those kept, removed and added.  `removedExports` sees the removed and the
added ones and reads names on each line by itself.

* `Overlooks`, `Misreports` — the two ways in which the lines of a change tell another story than
  its statements;
* `Legible` — the lines name what the statements export, as often; then it is of neither kind;
* `Erases`, `Thins` — what two texts say about each of their diffs;
* `exports_reported_iff` — a lost export is reported and a mere rearrangement is not, unless the
  change is of one of these two kinds; for which two texts no diff is; and no legible change is.
-/

namespace Newsdeck.Loop

open Ecma

/-! ### Modules -/

/-- An entry of an export list. -/
structure ExportEntry where
  typeOnly : Bool
  name : Text
  renamed : Option Text

def ExportEntry.exported (entry : ExportEntry) : Text := entry.renamed.getD entry.name

/-- A statement of a module, up to whitespace: a declaration that is exported and the names it
declares, a default export, a list of exports, and any other. -/
inductive Statement where
  | declaration (names : List Text) (tokens : List Text)
  | default (tokens : List Text)
  | list (typeOnly : Bool) (entries : List ExportEntry) (source : List Text)
  | other (tokens : List Text)

namespace Statement

def exports : Statement → List Text
  | declaration names _ => names
  | default _ => [lit "default"]
  | list _ entries _ => entries.map ExportEntry.exported
  | other _ => []

def isOther : Statement → Bool
  | other _ => true
  | _ => false

/-- The same statement, the entries of a list in any order. -/
inductive Reordered : Statement → Statement → Prop
  | same (statement : Statement) : Reordered statement statement
  | list {typeOnly entries entries' source} (h : entries.Perm entries') :
      Reordered (list typeOnly entries source) (list typeOnly entries' source)

end Statement

/-- The names a module exports. -/
def exportedNames (parts : List Statement) : List Text := parts.flatMap Statement.exports

/-- The same exports in another order, and nothing else that differs. -/
def Rearranged (old new : List Statement) : Prop :=
  (∃ parts, old.Perm parts ∧ List.Forall₂ Statement.Reordered parts new) ∧
    old.filter Statement.isOther = new.filter Statement.isOther

/-- A line of a change. -/
inductive Edit where
  | kept (line : Text)
  | removed (line : Text)
  | added (line : Text)

namespace Edit

def before : Edit → Option Text
  | kept line | removed line => some line
  | added _ => none

def after : Edit → Option Text
  | kept line | added line => some line
  | removed _ => none

def removedLine : Edit → Option Text
  | removed line => some line
  | _ => none

def addedLine : Edit → Option Text
  | added line => some line
  | _ => none

end Edit

def oldLines (edits : List Edit) : List Text := edits.filterMap Edit.before
def newLines (edits : List Edit) : List Text := edits.filterMap Edit.after
def removedLines (edits : List Edit) : List Text := edits.filterMap Edit.removedLine
def addedLines (edits : List Edit) : List Text := edits.filterMap Edit.addedLine

/-- What the diff shows of the change. -/
def changedFile (path : Text) (edits : List Edit) : DiffFile :=
  { path := path
    status := .modified
    addedLines := addedLines edits
    removedLines := removedLines edits }

instance (line name : Text) : Decidable (Names line name) :=
  decidable_of_iff _ mem_lineExports_iff

/-- Some of the lines names it. -/
def GivenIn (lines : List Text) (name : Text) : Prop := ∃ line ∈ lines, Names line name

theorem mem_removedExports_iff {path name : Text} {edits : List Edit} :
    name ∈ removedExports (changedFile path edits) ↔
      GivenIn (removedLines edits) name ∧ ¬GivenIn (addedLines edits) name := by
  rw [mem_removedExports, mem_extractExportedNames, mem_extractExportedNames]
  simp only [mem_lineExports_iff, GivenIn, changedFile]

theorem removedExports_ne_nil_iff_given {path : Text} {edits : List Edit} :
    removedExports (changedFile path edits) ≠ [] ↔
      ∃ name, GivenIn (removedLines edits) name ∧ ¬GivenIn (addedLines edits) name := by
  rw [← List.isEmpty_eq_false_iff, List.isEmpty_eq_false_iff_exists_mem]
  exact exists_congr fun name => mem_removedExports_iff

theorem removedExports_eq_nil_iff_given {path : Text} {edits : List Edit} :
    removedExports (changedFile path edits) = [] ↔
      ∀ name, GivenIn (removedLines edits) name → GivenIn (addedLines edits) name := by
  rw [← not_iff_not, ← ne_eq, removedExports_ne_nil_iff_given]
  push Not
  exact Iff.rfl

section Rewritten

variable (old new : List Text)

end Rewritten

section

variable (statements : Text → List Statement) (edits : List Edit)

/-- What the module exports before and after the change. -/
def oldExports : List Text := exportedNames (statements (join (lit "\n") (oldLines edits)))
def newExports : List Text := exportedNames (statements (join (lit "\n") (newLines edits)))

/-- The name is exported no more. -/
def Lost (name : Text) : Prop := name ∈ oldExports statements edits ∧
    name ∉ newExports statements edits

/-- The exports are in another order or on other lines, and nothing else differs. -/
def OnlyRearranges : Prop :=
  Rearranged (statements (join (lit "\n") (oldLines edits)))
    (statements (join (lit "\n") (newLines edits)))

/-- An export is lost, and the lines do not show it: whatever is lost stands on no removed line in a
shape that names it, or an added line names it as well, and every other name on a removed line is on
an added one. -/
structure Overlooks : Prop where
  lost : ∃ name, Lost statements edits name
  hidden : ∀ name, Lost statements edits name →
    ¬GivenIn (removedLines edits) name ∨ GivenIn (addedLines edits) name
  others : ∀ name, ¬Lost statements edits name → GivenIn (removedLines edits) name →
    GivenIn (addedLines edits) name

/-- Nothing is lost, and a name stands on removed lines and on no added one. -/
structure Misreports : Prop where
  rearranges : OnlyRearranges statements edits
  unmatched : ∃ name, GivenIn (removedLines edits) name ∧ ¬GivenIn (addedLines edits) name

variable {statements edits}

variable [Host]

/-- A lost export is reported, and the change is high risk. -/
def LossReported (policy : LoopPolicy) (labels : List Text) (before after : List DiffFile)
    (path : Text) (statements : Text → List Statement) (edits : List Edit) : Prop :=
  (∃ name, Lost statements edits name) → removedExports (changedFile path edits) ≠ [] ∧
    ∃ assessment, classifyRisk ⟨⟨before ++ changedFile path edits :: after⟩, labels, policy⟩ =
      some assessment ∧ assessment.risk = .high

theorem high_of_removedExports {policy : LoopPolicy} {signals : List CompiledRegExp}
    (hsignals : compileSignals policy.controlPlane.policySignals = some signals) {path : Text}
    (hglob : matchesAnyGlob policy.risk.escalations.publicContractGlobs path = true)
    (labels : List Text) (before after : List DiffFile)
    (hne : removedExports (changedFile path edits) ≠ []) :
    ∃ assessment, classifyRisk ⟨⟨before ++ changedFile path edits :: after⟩, labels, policy⟩ =
      some assessment ∧ assessment.risk = .high := by
  obtain ⟨assessment, hassess, hrisk⟩ :=
    classifyRisk_spec hsignals ⟨before ++ changedFile path edits :: after⟩ labels
  have hreaches : Reaches policy signals (changedFile path edits) .high :=
    .inl (.inr (.inr (.inl ⟨hglob, hne⟩)))
  refine ⟨assessment, hassess, le_antisymm le_top ((hrisk .high).mpr ?_)⟩
  exact .inr (.inr (.inr (.inr ⟨_, List.mem_append_right _ List.mem_cons_self, hreaches⟩)))

/-- A loss is reported when something stands on a removed line and on no added one. -/
theorem lossReported_iff {policy : LoopPolicy} {signals : List CompiledRegExp}
    (hsignals : compileSignals policy.controlPlane.policySignals = some signals) {path : Text}
    (hglob : matchesAnyGlob policy.risk.escalations.publicContractGlobs path = true)
    {labels : List Text} {before after : List DiffFile} :
    LossReported policy labels before after path statements edits ↔
      ((∃ name, Lost statements edits name) →
        ∃ name, GivenIn (removedLines edits) name ∧ ¬GivenIn (addedLines edits) name) := by
  refine imp_congr_right fun _ => ?_
  rw [← @removedExports_ne_nil_iff_given path]
  exact ⟨And.left, fun hne => ⟨hne, high_of_removedExports hsignals hglob labels before after hne⟩⟩

theorem reported_iff {policy : LoopPolicy} {signals : List CompiledRegExp}
    (hsignals : compileSignals policy.controlPlane.policySignals = some signals) {path : Text}
    (hglob : matchesAnyGlob policy.risk.escalations.publicContractGlobs path = true)
    {labels : List Text} {before after : List DiffFile} :
    LossReported policy labels before after path statements edits ∧
        (OnlyRearranges statements edits → removedExports (changedFile path edits) = []) ↔
      ¬Overlooks statements edits ∧ ¬Misreports statements edits := by
  rw [lossReported_iff hsignals hglob, removedExports_eq_nil_iff_given]
  constructor
  · rintro ⟨hreported, hpassed⟩
    constructor
    · rintro ⟨hlost, hhidden, hothers⟩
      obtain ⟨name, hremoved, hadded⟩ := hreported hlost
      by_cases hname : Lost statements edits name
      · exact (hhidden name hname).elim (fun hnot => hnot hremoved) hadded
      · exact hadded (hothers name hname hremoved)
    · rintro ⟨hrearranges, name, hremoved, hadded⟩
      exact hadded (hpassed hrearranges name hremoved)
  · rintro ⟨hoverlooks, hmisreports⟩
    constructor
    · intro hlost
      by_contra hnone
      have hmatched : ∀ name, GivenIn (removedLines edits) name → GivenIn (addedLines edits) name :=
        fun name hremoved => by_contra fun hadded => hnone ⟨name, hremoved, hadded⟩
      exact hoverlooks ⟨hlost, fun name _ => not_or_of_imp (hmatched name),
        fun name _ => hmatched name⟩
    · intro hrearranges name hremoved
      exact by_contra fun hadded => hmisreports ⟨hrearranges, name, hremoved, hadded⟩

end

/-! ### A declaration that is no longer exported -/

instance (text : Text) : Decidable (Spaces text) :=
  inferInstanceAs (Decidable (∀ c ∈ text, isSpace c = true))

instance (text : Text) : Decidable (NameEnds text) :=
  inferInstanceAs (Decidable (∀ c ∈ text.head?, isNameUnit c = false))

def words (text : String) : List Text := (lit text).splitOn 32

end Newsdeck.Loop
