import Newsdeck.Runner.BranchNames
import Newsdeck.Runner.Git

/-!
# What the words of a git command name

A push names a commit by the left side of its refspec, and a branch of the remote by the right side; a
diff of a range is taken to the commit behind its three dots.

* `Refs.resolve` — the commit a revision names in a directory;
* `pushTarget`, `diffRange` — what a push and a diff are about, by their words alone;
* `pushTarget_pushArgs`, `diffRange_diffArgs` — what they are about where the runner calls them.
-/

namespace Newsdeck.Runner

open Ecma

/-- A commit, by any name. -/
abbrev Commit := ℕ

/-- What `HEAD` stands for. -/
inductive Head where
  | branch (name : Text)
  | detached (commit : Commit)
  deriving DecidableEq

/-- What the names mean in a repository with its worktrees. -/
structure Refs where
  named : Text → Option Commit
  /-- `HEAD` of the worktree in a directory. -/
  heads : Text → Head

/-- The commit a revision names in a directory. -/
def Refs.resolve (refs : Refs) (cwd revision : Text) : Option Commit :=
  if revision = lit "HEAD" then
    match refs.heads cwd with
    | .branch name => refs.named name
    | .detached commit => some commit
  else refs.named revision

theorem resolve_head {refs : Refs} {cwd branch : Text} (h : refs.heads cwd = .branch branch) :
    refs.resolve cwd (lit "HEAD") = refs.named branch := by
  rw [Refs.resolve, if_pos rfl, h]

theorem resolve_named {refs : Refs} {cwd revision : Text} (h : revision ≠ lit "HEAD") :
    refs.resolve cwd revision = refs.named revision := if_neg h

/-- What stands before the last occurrence of the mark, and what stands behind it. -/
def cutLast (mark : Text) : Text → Option (Text × Text)
  | [] => none
  | c :: t =>
      match cutLast mark t with
      | some (before, after) => some (c :: before, after)
      | none => if mark.isPrefixOf (c :: t) then some ([], (c :: t).drop mark.length) else none

theorem cutLast_append {d : ℕ} {mark after : Text} (h : cutLast (d :: mark) (mark ++ after) = none)
    (before : Text) :
    cutLast (d :: mark) (before ++ (d :: mark ++ after)) = some (before, after) := by
  induction before with
  | nil =>
    have hbegins : (d :: mark).isPrefixOf (d :: mark ++ after) = true := by
      rw [List.isPrefixOf_iff_prefix]
      exact List.prefix_append _ _
    rw [List.nil_append, List.cons_append, cutLast, h, ← List.cons_append]
    simp only [hbegins, if_true, List.drop_left]
  | cons c before ih => rw [List.cons_append, cutLast, ih]

theorem cutLast_eq_none {d : ℕ} {text : Text} (h : d ∉ text) : cutLast [d] text = none := by
  induction text with
  | nil => rfl
  | cons c text ih =>
    obtain ⟨hne, hrest⟩ := not_or.mp fun hin => h (List.mem_cons.mpr hin)
    rw [cutLast, ih hrest]
    simp [hne]

/-- What a push would put where. -/
structure PushTarget where
  remote : Text
  destination : Text
  commit : Option Commit

/-- Only `git push -u <remote> <source>:<destination>` is read. -/
def pushTarget (refs : Refs) (cwd : Text) (args : List Text) : Option PushTarget :=
  match args with
  | [push, option, remote, refspec] =>
      if push = lit "push" ∧ option = lit "-u" then
        (cutLast (lit ":") refspec).map fun sides => ⟨remote, sides.2, refs.resolve cwd sides.1⟩
      else none
  | _ => none

/-- The two ends of the range a diff is printed of: `git diff <base>...<revision>`. -/
def diffRange : List Text → Option (Text × Text)
  | [diff, range] => if diff = lit "diff" then cutLast (lit "...") range else none
  | _ => none

/-- A name that a refspec can be made of: it has no colon, and is not `HEAD`. -/
structure Pushable (branch : Text) : Prop where
  colon : 58 ∉ branch
  head : branch ≠ lit "HEAD"

theorem pushTarget_pushArgs {branch : Text} (h : Pushable branch) (refs : Refs) (cwd remote : Text) :
    pushTarget refs cwd (pushArgs remote branch) = some ⟨remote, branch, refs.named branch⟩ := by
  have hcut : cutLast (lit ":") (branch ++ lit ":" ++ branch) = some (branch, branch) := by
    rw [List.append_assoc]
    exact cutLast_append (cutLast_eq_none h.colon) branch
  rw [pushArgs, pushTarget, if_pos ⟨rfl, rfl⟩, hcut, Option.map_some, resolve_named h.head]

theorem diffRange_diffArgs (base : Text) : diffRange (diffArgs base) = some (base, lit "HEAD") := by
  have hrest : cutLast (lit "...") (lit ".." ++ lit "HEAD") = none := by decide
  exact cutLast_append hrest base

theorem pushable_branchName [Host] [Unicode] (issue : ℕ) (title : Text) :
    Pushable (branchName issue title) := by
  refine ⟨fun hcolon => ?_, fun hhead => ?_⟩
  · simp only [branchName, List.mem_append] at hcolon
    rcases hcolon with ((hname | hdigit) | hhyphen) | hslug
    · revert hname
      decide
    · exact absurd (decimal_digit hdigit).2 (Nat.lt_irrefl _)
    · revert hhyphen
      decide
    · have hunit := slugify_units title 58 hslug
      revert hunit
      decide
  · have hfirst := congrArg List.head? hhead
    simp [branchName, lit] at hfirst

end Newsdeck.Runner
