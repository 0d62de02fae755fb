import Newsdeck.Ecma.RegExp

/-!
# Path patterns

The matcher of the loop policy: `**` matches whole segments, `*` and `?` match within one.  A
segment pattern is compiled to a regular expression, the list of segments is matched by recursion.
-/

namespace Newsdeck.Loop

open Ecma

/-- What one unit of a segment pattern compiles to. -/
def segmentPiece (c : ℕ) : Regex ℕ :=
  if c = 42 then .many (.notChars "/")
  else if c = 63 then .notChars "/"
  else .units [c]

def segmentBody : Text → Regex ℕ
  | [] => .eol
  | c :: t => .seq (segmentPiece c) (segmentBody t)

def segmentToRegExp (segment : Text) : Regex ℕ := .seq .bol (segmentBody segment)

def matchSegments : List Text → List Text → Bool
  | [], path => path.length = 0
  | head :: rest, path =>
      if head = lit "**" then
        -- zero segments, then one segment at a time
        (List.range (path.length + 1)).any fun consumed => matchSegments rest (path.drop consumed)
      else
        match path with
        | [] => false
        | first :: path =>
            if (segmentToRegExp head).test first then matchSegments rest path else false

/-- `path.replace(/^\.\//, '').split('/').filter((s) => s.length > 0)`. -/
def segments (path : Text) : List Text :=
  let stripped := if (lit "./").isPrefixOf path then path.drop 2 else path
  (stripped.splitOn 47).filter fun s => s.length > 0

/-- Does `path` match `pattern`? -/
def matchesGlob (pattern path : Text) : Bool := matchSegments (segments pattern) (segments path)

/-- Does `path` match any of `patterns`? -/
def matchesAnyGlob (patterns : List Text) (path : Text) : Bool :=
  patterns.any fun pattern => matchesGlob pattern path

example : matchesAnyGlob [lit "**/*.test.ts", lit "e2e/**"] (lit "packages/db/a.test.ts") = true := by
  decide

/-- More patterns match more. -/
theorem matchesAnyGlob_mono {patterns patterns' : List Text} (h : patterns ⊆ patterns')
    {path : Text} (hm : matchesAnyGlob patterns path = true) :
    matchesAnyGlob patterns' path = true := by
  simp only [matchesAnyGlob, List.any_eq_true] at hm ⊢
  obtain ⟨p, hp, hmatch⟩ := hm
  exact ⟨p, h hp, hmatch⟩

end Newsdeck.Loop
