import Newsdeck.Ecma.Json
import Newsdeck.Ecma.OrderedMap
import Newsdeck.Loop.Diff

/-!
# What a diff's lines give away

The primitives that risk classification and the deterministic checks share: destructive SQL, removed
exports and dependency edits.  They read the lines added and removed, nothing else.
-/

namespace Newsdeck.Loop

open Ecma

/-! ### Strings -/

/-- `text.trim()`. -/
def trim (text : Text) : Text :=
  ((text.dropWhile isSpace).reverse.dropWhile isSpace).reverse

/-- The order of `Array.prototype.sort()` on strings: by code units. -/
def unitsLe : Text → Text → Bool
  | [], _ => true
  | _ :: _, [] => false
  | a :: s, b :: t => a < b || (a = b && unitsLe s t)

/-- `[A-Za-z_$][\w$]*`. -/
def identifier : Regex ℕ :=
  .seq (.cls fun c => isLetter c || c = 95 || c = 36) (.many (.cls fun c => isWord c || c = 36))

/-- `\s+`. -/
def spaces : Regex ℕ := .many1 .space

/-! ### Destructive SQL -/

structure SourcedRegex where
  source : Text
  regex : Regex ℕ

/-- `DESTRUCTIVE_SQL`. -/
def destructiveSql : List SourcedRegex :=
  [⟨lit "\\bdrop\\s+table\\b",
      .ignoreCase (.cat [.wordBoundary, .str "drop", spaces, .str "table", .wordBoundary])⟩,
    ⟨lit "\\bdrop\\s+schema\\b",
      .ignoreCase (.cat [.wordBoundary, .str "drop", spaces, .str "schema", .wordBoundary])⟩,
    ⟨lit "\\bdrop\\s+database\\b",
      .ignoreCase (.cat [.wordBoundary, .str "drop", spaces, .str "database", .wordBoundary])⟩,
    ⟨lit "\\btruncate\\b", .ignoreCase (.cat [.wordBoundary, .str "truncate", .wordBoundary])⟩,
    ⟨lit "\\balter\\s+table\\b[\\s\\S]*?\\bdrop\\s+column\\b",
      .ignoreCase (.cat [.wordBoundary, .str "alter", spaces, .str "table", .wordBoundary,
        .lazy .any, .wordBoundary, .str "drop", spaces, .str "column", .wordBoundary])⟩,
    ⟨lit "\\balter\\s+table\\b[\\s\\S]*?\\bdrop\\s+constraint\\b",
      .ignoreCase (.cat [.wordBoundary, .str "alter", spaces, .str "table", .wordBoundary,
        .lazy .any, .wordBoundary, .str "drop", spaces, .str "constraint", .wordBoundary])⟩]

structure DestructiveStatement where
  line : Text
  pattern : Text

/-- Destructive statements among the lines a migration adds: the first pattern a line matches. -/
def findDestructiveSql (addedLines : List Text) : List DestructiveStatement :=
  addedLines.filterMap fun line =>
    (destructiveSql.find? fun pattern => pattern.regex.test line).map fun pattern =>
      ⟨trim line, pattern.source⟩

/-! ### Exports -/

/-- `EXPORT_PATTERNS`. -/
def exportPatterns : List (Regex ℕ) :=
  [.cat [.bol, .many .space, .str "export", spaces, .opt (.cat [.str "declare", spaces]),
      .opt (.cat [.str "async", spaces]),
      .oneOf [.str "const", .str "let", .str "var", .str "function", .str "class",
        .str "interface", .str "type", .str "enum"], spaces, .group 1 identifier],
    .cat [.bol, .many .space, .str "export", spaces, .str "default", spaces,
      .opt (.cat [.str "function", spaces]), .opt (.group 1 identifier)]]

/-- A brace list on one line; group 1 is what stands between the braces. -/
def braceList : Regex ℕ :=
  .cat [.str "export", .many .space, .opt (.cat [.str "type", .many .space]), .units [123],
    .group 1 (.many (.cls fun c => c ≠ 125)), .units [125]]

/-- A member of an export list, on a line of its own. -/
def memberLine : Regex ℕ :=
  .cat [.bol, .many .space, .opt (.cat [.str "type", spaces]), identifier, .many .space,
    .opt (.cat [.str "as", spaces, identifier]), .many .space, .str ",", .many .space, .eol]

/-- One entry of a list: group 1 is the name, group 2 the name it is exported under. -/
def listEntry : Regex ℕ :=
  .cat [.opt (.cat [.str "type", spaces]), .group 1 identifier,
    .opt (.cat [spaces, .str "as", spaces, .group 2 identifier])]

/-- The name an entry exports. -/
def entryName (entry : Text) : Option Text :=
  match (listEntry.capture 2 (trim entry)).or (listEntry.capture 1 (trim entry)) with
  | some exported => if exported ≠ lit "type" then some exported else none
  | none => none

/-- The names one line exports. -/
def lineExports (line : Text) : List Text :=
  match exportPatterns.findSome? fun pattern => pattern.capture 1 line with
  | some name => [name]
  | none =>
      match (braceList.capture 1 line).or (if memberLine.test line then some line else none) with
      | none => []
      | some body => (body.splitOn 44).filterMap entryName

/-- Names some lines export, as a set in order of insertion. -/
def extractExportedNames (lines : List Text) : List Text :=
  (lines.flatMap lineExports).eraseDups

/-- Exported names this file removes and does not add back. -/
def removedExports (file : DiffFile) : List Text :=
  let removed := extractExportedNames file.removedLines
  let added := extractExportedNames file.addedLines
  (removed.filter fun name => name ∉ added).mergeSort unitsLe

/-! ### Dependencies -/

inductive DependencyKind where
  | added | removed | upgraded | downgraded
  deriving DecidableEq, Repr

structure DependencyChange where
  name : Text
  fromRange : Option Text
  toRange : Option Text
  kind : DependencyKind
  major : Bool

/-- `DEPENDENCY_LINE`. -/
def dependencyLine : Regex ℕ :=
  .cat [.bol, .many .space, .str "\"", .group 1 (.many1 (.notChars "\"")), .str "\"", .many .space,
    .str ":", .many .space, .str "\"", .group 2 (.many1 (.notChars "\"")), .str "\"", .many .space,
    .opt (.str ","), .many .space, .eol]

/-- `/(\d+)\./`. -/
def majorVersion : Regex ℕ := .cat [.group 1 (.many1 .digit), .str "."]

def leadingMajor (range : Text) : Option Text := majorVersion.capture 1 range

/-- `[a-z-]`. -/
def lowerOrDash : Regex ℕ := .cls fun c => isLower c || c = 45

/-- `DEPENDENCY_VALUE`. -/
def dependencyValue : Regex ℕ :=
  .ignoreCase (.oneOf [
    .seq .bol (.oneOf [.str "workspace:", .str "npm:", .str "file:", .str "link:", .str "portal:",
      .str "patch:", .str "git+", .str "github:", .cat [.str "http", .opt (.str "s"), .str ":"],
      .cat [.many1 lowerOrDash, .str "/", .many1 lowerOrDash, .str "#"]]),
    .cat [.bol, .many (.chars "^~>=<v "), .many1 .digit, .many (.cat [.str ".", .many1 .digit]),
      .opt (.cat [.chars "-+.", .many1 (.cls fun c => isWord c || c = 46 || c = 45)]), .eol],
    .cat [.bol, .str "*", .eol],
    .cat [.bol, .str "latest", .eol]])

/-- One round of the loop over the lines of one side. -/
def addEntry (entries : OrderedMap Text Text) (line : Text) : OrderedMap Text Text :=
  match dependencyLine.capture 1 line, dependencyLine.capture 2 line with
  | some name, some value => if dependencyValue.test value then entries.set name value else entries
  | _, _ => entries

def dependencyEntries (lines : List Text) : OrderedMap Text Text := lines.foldl addEntry []

/-- The change a dependency that is there afterwards went through. -/
def dependencyChange (before : OrderedMap Text Text) (name toRange : Text) : Option DependencyChange :=
  let fromRange := before.get? name
  if fromRange = some toRange then none
  else
    let fromMajor := fromRange.bind leadingMajor
    let toMajor := leadingMajor toRange
    let major := fromMajor ≠ none ∧ toMajor ≠ none ∧ fromMajor ≠ toMajor
    some
      { name := name
        fromRange := fromRange
        toRange := some toRange
        kind :=
          if fromRange = none then .added
          else if major ∧ numberOfMajor toMajor < numberOfMajor fromMajor then .downgraded
          else .upgraded
        major := decide major }
where
  /-- `Number(major)`. -/
  numberOfMajor (major : Option Text) : ℕ∞ := (major.map Json.numberOfDigits).getD 0

/-- Dependency edits in a `package.json` diff. -/
def dependencyChanges [Host] (file : DiffFile) : List DependencyChange :=
  if !(lit "package.json").isSuffixOf file.path then []
  else
    let before := dependencyEntries file.removedLines
    let after := dependencyEntries file.addedLines
    let changes := after.filterMap fun (name, range) => dependencyChange before name range
    let removals := before.filterMap fun (name, range) =>
      if (after.get? name).isSome then none
      else some ⟨name, some range, none, .removed, false⟩
    (changes ++ removals).mergeSort fun a b => Host.localeCompare a.name b.name ≠ Ordering.gt

end Newsdeck.Loop
