import Newsdeck.Ecma.RegExp

/-!
# Parsing a unified diff

`parseUnifiedDiff` reads the text line by line and keeps, per file, its path, its status and the
lines added and removed.  A line is a header or content by its first units alone; hunks are not
tracked.

The loop is a fold of `parseLine` over a state that holds the files that are complete and the one
being read.
-/

namespace Newsdeck.Loop

open Ecma

inductive FileStatus where
  | added | modified | removed | renamed
  deriving DecidableEq, Repr

structure DiffFile where
  path : Text
  status : FileStatus
  addedLines : List Text
  removedLines : List Text
  deriving DecidableEq, Repr

structure PullRequestDiff where
  files : List DiffFile
  deriving DecidableEq, Repr

def additions (diff : PullRequestDiff) : ℕ :=
  (diff.files.map fun file => file.addedLines.length).sum

def deletions (diff : PullRequestDiff) : ℕ :=
  (diff.files.map fun file => file.removedLines.length).sum

/-- `FILE_HEADER`. -/
def fileHeader : Regex ℕ :=
  .seq .bol (.cat [.str "diff --git a/", .group 1 (.seq .dot (.lazy .dot)), .str " b/",
    .group 2 (.many1 .dot), .eol])

/-- `RENAME_TO`. -/
def renameTo : Regex ℕ := .seq .bol (.cat [.str "rename to ", .group 1 (.many1 .dot), .eol])

/-- The local variables of the loop. -/
structure DiffState where
  files : List DiffFile
  current : Option DiffFile
  deriving DecidableEq, Repr

/-- What a line says about the file being read. -/
def parseFileLine (current : DiffFile) (rawLine : Text) : DiffFile :=
  if (lit "new file mode").isPrefixOf rawLine then { current with status := .added }
  else if (lit "deleted file mode").isPrefixOf rawLine then { current with status := .removed }
  else
    match renameTo.capture 1 rawLine with
    | some path => { current with status := .renamed, path := path }
    | none =>
        if (lit "+++").isPrefixOf rawLine || (lit "---").isPrefixOf rawLine then current
        else if (lit "+").isPrefixOf rawLine then
          { current with addedLines := current.addedLines ++ [rawLine.drop 1] }
        else if (lit "-").isPrefixOf rawLine then
          { current with removedLines := current.removedLines ++ [rawLine.drop 1] }
        else current

/-- One round of the loop. -/
def parseLine (s : DiffState) (rawLine : Text) : DiffState :=
  match fileHeader.capture 2 rawLine with
  | some path => ⟨s.files ++ s.current.toList, some ⟨path, .modified, [], []⟩⟩
  | none =>
      match s.current with
      | none => s
      | some current => ⟨s.files, some (parseFileLine current rawLine)⟩

/-- Parse a unified diff into the shape every downstream check consumes. -/
def parseUnifiedDiff (text : Text) : PullRequestDiff :=
  let s := (text.splitOn 10).foldl parseLine ⟨[], none⟩
  ⟨s.files ++ s.current.toList⟩

end Newsdeck.Loop
