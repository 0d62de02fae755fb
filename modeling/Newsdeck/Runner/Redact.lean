import Newsdeck.Ecma.RegExp

/-!
# Redaction

What is replaced in a text before it reaches a log, a prompt or a comment.
-/

namespace Newsdeck.Runner

open Ecma Regex

/-- One of `PATTERNS`: what is looked for, and what stands in its place once its groups are known. -/
structure RedactionPattern where
  pattern : Regex ℕ
  label : Captures ℕ → Text

/-- `$n` in a label. -/
def groupText (n : ℕ) (caps : Captures ℕ) : Text := (caps.lookup n).getD []

/-- `[A-Za-z0-9]`. -/
def isAlphanumeric (c : ℕ) : Bool := isLetter c || isDigit c

/-- `[A-Z ]`. -/
def isKeyKind (c : ℕ) : Bool := isUpper c || c = 32

/-- `PATTERNS`. -/
def redactionPatterns : List RedactionPattern :=
  [⟨cat [wordBoundary, str "gh", chars "pousr", str "_", atLeast 20 (.cls isAlphanumeric)],
      fun _ => lit "[redacted:github-token]"⟩,
    ⟨cat [wordBoundary, str "github_pat_", atLeast 20 (.cls isWord)],
      fun _ => lit "[redacted:github-token]"⟩,
    ⟨cat [wordBoundary, str "sk-ant-", atLeast 10 (.cls fun c => isWord c || c = 45)],
      fun _ => lit "[redacted:anthropic-key]"⟩,
    ⟨cat [wordBoundary, str "sk-", atLeast 32 (.cls isAlphanumeric)],
      fun _ => lit "[redacted:openai-key]"⟩,
    ⟨cat [wordBoundary, str "AKIA", times 16 (.cls fun c => isDigit c || isUpper c), wordBoundary],
      fun _ => lit "[redacted:aws-key]"⟩,
    ⟨cat [str "-----BEGIN ", many (.cls isKeyKind), str "PRIVATE KEY-----", lazy any, str "-----END ",
        many (.cls isKeyKind), str "PRIVATE KEY-----"],
      fun _ => lit "[redacted:private-key]"⟩,
    ⟨cat [wordBoundary, str "Bearer", many1 space,
        atLeast 20 (.cls fun c => isAlphanumeric c || c ∈ lit "._~+/-"), many (str "=")],
      fun _ => lit "[redacted:bearer]"⟩,
    ⟨ignoreCase (cat [wordBoundary,
        .group 1 (cat [many (.cls fun c => isUpper c || isDigit c || c = 95),
          oneOf [str "PASSWORD", str "SECRET", str "TOKEN", str "API_KEY", str "ACCESS_KEY",
            str "SIGNING_KEY", str "PRIVATE_KEY"]]),
        str "=", many1 (.cls fun c => !isSpace c)]),
      fun caps => groupText 1 caps ++ lit "=[redacted]"⟩,
    ⟨cat [wordBoundary, .group 1 (cat [many1 (.cls isWord), str ":"]), str "//",
        .group 2 (many1 (.cls fun c => c ∉ lit ":/@" && !isSpace c)), str ":",
        many1 (.cls fun c => c ≠ 64 && !isSpace c), str "@"],
      fun caps => groupText 1 caps ++ lit "//" ++ groupText 2 caps ++ lit ":[redacted]@"⟩]

/-- Replace every credential-shaped substring with a marker. -/
def redact (text : Text) : Text :=
  redactionPatterns.foldl (fun output entry => entry.pattern.replace entry.label output) text

example : redact (lit "postgres://ada:lovelace@db and AUTH_SIGNING_KEY=abc") =
    lit "postgres://ada:[redacted]@db and AUTH_SIGNING_KEY=[redacted]" := by
  decide +kernel

end Newsdeck.Runner
