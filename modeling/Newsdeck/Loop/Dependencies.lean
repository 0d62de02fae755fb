import Newsdeck.Loop.Detect
import Mathlib.Data.List.Sort

/-!
# Issue dependencies, expressed in the issue body

A `Depends on` heading or line, followed by a list of `#N` references.  References anywhere else in
the body are prose.  A block that names nothing and does not say `none` has not answered the
question.
-/

namespace Newsdeck.Loop

open Ecma

/-- `HEADING`. -/
def heading : Regex ℕ :=
  .ignoreCase (.cat [.bol, .many .space,
    .opt (.cat [.seq (.str "#") (.upTo 5 (.str "#")), .many .space]), .str "depends", spaces,
    .str "on", .many .space, .opt (.str ":"), .many .space, .group 1 (.many .dot), .eol])

/-- `LIST_ITEM`. -/
def listItem : Regex ℕ :=
  .cat [.bol, .many .space, .chars "-*", spaces, .group 1 (.many .dot), .eol]

/-- `ISSUE_REFERENCE`. -/
def issueReference : Regex ℕ := .cat [.str "#", .group 1 (.many1 .digit), .wordBoundary]

/-- `NONE`. -/
def noneWord : Regex ℕ := .ignoreCase (.cat [.bol, .str "none", .opt (.str "."), .eol])

/-- `into.add(value)`. -/
def addReference (into : List ℕ) (value : ℕ) : List ℕ :=
  if value ∈ into then into else into ++ [value]

def collectReferences (text : Text) (into : List ℕ) : List ℕ :=
  (issueReference.captureAll 1 text).foldl (fun into digits =>
    match Json.numberOfDigits digits with
    | ⊤ => into
    | (value : ℕ) => if 0 < value then addReference into value else into) into

structure DependencyDeclaration where
  declared : Bool
  dependencies : List ℕ
  deriving DecidableEq, Repr

/-- What the scan of a body has found so far. -/
structure BlockScan where
  dependencies : List ℕ
  blockFound : Bool
  explicitNone : Bool

/-- The list that follows a heading, tolerating blank lines before the first item.  The first
argument is the line just passed. -/
def scanItems : Text → List Text → List ℕ → List ℕ
  | _, [], dependencies => dependencies
  | previous, line :: rest, dependencies =>
      if (trim line).length = 0 then
        if 0 < dependencies.length && listItem.test previous then dependencies
        else scanItems line rest dependencies
      else
        match listItem.capture 1 line with
        | none => dependencies
        | some item => scanItems line rest (collectReferences item dependencies)

def scanBlocks : List Text → BlockScan → BlockScan
  | [], scan => scan
  | line :: rest, scan =>
      match heading.capture 1 line with
      | none => scanBlocks rest scan
      | some text =>
          scanBlocks rest
            { dependencies := scanItems line rest (collectReferences text scan.dependencies)
              blockFound := true
              explicitNone := scan.explicitNone || noneWord.test (trim text) }

/-- Parse the `Depends on` block, distinguishing "none" from "not stated". -/
def parseDependencyDeclaration (body : Option Text) : DependencyDeclaration :=
  match body with
  | none => ⟨false, []⟩
  | some text =>
      let scan := scanBlocks (text.splitOn 10) ⟨[], false, false⟩
      { declared := scan.blockFound && (0 < scan.dependencies.length || scan.explicitNone)
        dependencies := scan.dependencies.insertionSort (· ≤ ·) }

example : parseDependencyDeclaration (some (lit "Intro #7\n## Depends on\n\n- #12\n- #3\n")) =
    ⟨true, [3, 12]⟩ := by decide +kernel

/-- An empty body answers as little as a missing one. -/
@[simp] theorem parseDependencyDeclaration_nil :
    parseDependencyDeclaration (some []) = parseDependencyDeclaration none := by decide +kernel

theorem parseDependencyDeclaration_getD (body : Option Text) :
    parseDependencyDeclaration body = parseDependencyDeclaration (some (body.getD [])) := by
  cases body with
  | none => exact parseDependencyDeclaration_nil.symm
  | some text => rfl

/-! ### A body without a block -/

theorem scanBlocks_blockFound (lines : List Text) (scan : BlockScan) (h : scan.blockFound = true) :
    (scanBlocks lines scan).blockFound = true := by
  induction lines generalizing scan with
  | nil => exact h
  | cons line rest ih =>
    unfold scanBlocks
    split
    · exact ih scan h
    · exact ih _ rfl

/-- References are read inside blocks only. -/
theorem scanBlocks_of_not_blockFound (lines : List Text) (scan : BlockScan)
    (h : (scanBlocks lines scan).blockFound = false) : scanBlocks lines scan = scan := by
  induction lines generalizing scan with
  | nil => rfl
  | cons line rest ih =>
    unfold scanBlocks at h ⊢
    split
    · rename_i hline
      rw [hline] at h
      exact ih scan h
    · rename_i text hline
      rw [hline] at h
      rw [scanBlocks_blockFound _ _ rfl] at h
      exact absurd h (by decide)

/-- A body that declares nothing names nothing. -/
theorem dependencies_of_not_declared {body : Option Text}
    (h : (parseDependencyDeclaration body).declared = false) :
    (parseDependencyDeclaration body).dependencies = [] := by
  cases body with
  | none => rfl
  | some text =>
    have hscan : (scanBlocks (text.splitOn 10) ⟨[], false, false⟩).dependencies = [] := by
      simp only [parseDependencyDeclaration, Bool.and_eq_false_iff, Bool.or_eq_false_iff,
        decide_eq_false_iff_not, Nat.not_lt, Nat.le_zero, List.length_eq_zero_iff] at h
      rcases h with hblock | ⟨hnil, -⟩
      · rw [scanBlocks_of_not_blockFound _ _ hblock]
      · exact hnil
    show (scanBlocks _ _).dependencies.insertionSort _ = []
    rw [hscan]
    rfl

end Newsdeck.Loop
