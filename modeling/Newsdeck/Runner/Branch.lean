import Newsdeck.Ecma.Unicode

/-!
# Branch and worktree naming

The names are derived from the issue: its number, and a slug of its title.
-/

namespace Newsdeck.Runner

open Ecma

/-- `MAX_SLUG_LENGTH`. -/
def maxSlugLength : ℕ := 40

/-- `[a-z0-9]`. -/
def isSlugUnit (c : ℕ) : Bool := isLower c || isDigit c

/-- `text.replace(/[^a-z0-9]+/g, '-')`; the flag says that the run before has been replaced. -/
def hyphenate : Bool → Text → Text
  | _, [] => []
  | replaced, c :: t =>
      if isSlugUnit c then c :: hyphenate false t
      else if replaced then hyphenate true t
      else 45 :: hyphenate true t

/-- The text without the hyphens at its end. -/
def trimHyphensEnd (text : Text) : Text := (text.reverse.dropWhile (· = 45)).reverse

/-- The text without the hyphens at either end. -/
def trimHyphens (text : Text) : Text := trimHyphensEnd (text.dropWhile (· = 45))

/-- The expression that cuts a slug at a separator. -/
def slugCut : Regex ℕ :=
  .cat [.bol, .group 1 (.upTo maxSlugLength .any), .opt (.group 2 (.seq (.str "-") (.many .any))),
    .eol]

/-- `slug.replace(slugCut, '$1')`. -/
def cutSlug (slug : Text) : Text := (slugCut.capture 1 slug).getD slug

def slugify [Host] [Unicode] (title : Text) : Text :=
  let slug := trimHyphensEnd
    (cutSlug (trimHyphens (hyphenate false (Host.toLowerCase (Unicode.nfkd title)))))
  if slug = [] then lit "issue" else slug

/-- `agent/issue-42-short-description`. -/
def branchName [Host] [Unicode] (issue : ℕ) (title : Text) : Text :=
  lit "agent/issue-" ++ decimal issue ++ lit "-" ++ slugify title

/-- Directory name for the isolated worktree. -/
def worktreeName (issue : ℕ) : Text := lit "issue-" ++ decimal issue

/-- Whether a branch is one this runner is allowed to touch. -/
def isAgentBranch (branch : Text) : Bool :=
  (Regex.cat [.bol, .str "agent/issue-", .many1 .digit, .str "-",
    .many1 (.cls fun c => isSlugUnit c || c = 45), .eol]).test branch

example : @branchName asciiHost asciiUnicode 42 (lit "  Fix: the   Evil/Test!! ") =
    lit "agent/issue-42-fix-the-evil-test" := by decide +kernel

end Newsdeck.Runner
