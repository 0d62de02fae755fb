import Newsdeck.Runner.Branch
import Newsdeck.Runner.Operations

/-!
# The git operations of the runner

Each is a few `git` commands in one directory.  The two that name a branch refuse any branch but the
agent's own.
-/

namespace Newsdeck.Runner

open Ecma Loop Effects

/-- `first || second`. -/
def orElseText (first second : Text) : Text := if first = [] then second else first

/-- `text.includes(pattern)`. -/
def includes (pattern text : Text) : Bool := text.tails.any fun rest => pattern.isPrefixOf rest

/-- `Number(text) === 0`, for the run of digits a count prints as. -/
def isZeroCount (text : Text) : Bool := text.all fun c => c = 48

/-- Run a command that must succeed. -/
def expect (cwd : Text) (args : List Text) : Action Text := do
  let result ← git cwd args
  if result.code ≠ 0 then
    .throw (lit "git " ++ args.headD [] ++ lit " failed: " ++
      orElseText (trim result.stderr) (trim result.stdout))
  else .ret (trim result.stdout)

def fetchBase (repository remote branch : Text) : Action Unit := do
  let _ ← expect repository [lit "fetch", lit "--prune", remote, branch]
  .ret ()

def changedFilesArgs (base : Text) : List Text :=
  [lit "diff", lit "--name-only", base ++ lit "...HEAD"]

def diffArgs (base : Text) : List Text := [lit "diff", base ++ lit "...HEAD"]

def changedFiles (cwd base : Text) : Action (List Text) := do
  let output ← expect cwd (changedFilesArgs base)
  .ret (if output = [] then [] else output.splitOn 10)

def hasCommitsBeyond (cwd base : Text) : Action Bool := do
  let count ← expect cwd [lit "rev-list", lit "--count", base ++ lit "..HEAD"]
  .ret (!isZeroCount count)

/-- Create the isolated worktree for one issue, or find it where it is. -/
def ensureWorktree (repository path branch base : Text) : Action Unit := do
  if !isAgentBranch branch then
    .throw (lit "Refusing to create a worktree for a non-agent branch: " ++ branch)
  else
    let existing ← git repository [lit "worktree", lit "list", lit "--porcelain"]
    if existing.code = 0 && includes (lit "worktree " ++ path ++ lit "\n") existing.stdout then
      .ret ()
    else
      let branchExists ← git repository
        [lit "show-ref", lit "--verify", lit "--quiet", lit "refs/heads/" ++ branch]
      let _ ← expect repository
        (if branchExists.code = 0 then [lit "worktree", lit "add", path, branch]
          else [lit "worktree", lit "add", lit "-b", branch, path, base])
      .ret ()

/-- Bring the worktree onto current base; a conflict is left to the coding agent. -/
def rebaseOntoBase (worktree base : Text) : Action Unit := do
  let behind ← git worktree [lit "rev-list", lit "--count", lit "HEAD.." ++ base]
  if behind.code ≠ 0 || isZeroCount (trim behind.stdout) then .ret ()
  else
    let merged ← git worktree [lit "merge", lit "--no-edit", base]
    if merged.code ≠ 0 then
      let _ ← git worktree [lit "merge", lit "--abort"]
      .ret ()
    else .ret ()

/-- Stage everything and commit; `false` when nothing changed. -/
def commitAll (cwd message : Text) : Action Bool := do
  let _ ← expect cwd [lit "add", lit "--all"]
  let staged ← git cwd [lit "diff", lit "--cached", lit "--quiet"]
  if staged.code = 0 then .ret false
  else
    let _ ← expect cwd [lit "commit", lit "-m", message]
    .ret true

def pushArgs (remote branch : Text) : List Text :=
  [lit "push", lit "-u", remote, branch ++ lit ":" ++ branch]

/-- Push the agent branch, never with force. -/
def pushBranch (cwd remote branch : Text) : Action RunResult := do
  if !isAgentBranch branch then
    .throw (lit "Refusing to push " ++ branch ++ lit ". The runner pushes only agent/issue-* branches; merging into the default branch is the merge gate's job.")
  else git cwd (pushArgs remote branch)

def removeWorktree (repository path : Text) : Action Unit := do
  let _ ← git repository [lit "worktree", lit "remove", lit "--force", path]
  .ret ()

end Newsdeck.Runner
