import Newsdeck.Ecma.JsonRoundTrip
import Newsdeck.Loop.Context
import Newsdeck.Loop.Lines
import Newsdeck.Runner.Report

/-!
# The issue that a pull request of the runner closes

The runner writes a body that begins with the declaration; the workflows look for the first
declaration anywhere in it.

* `closingIssue_begins` — a body that begins with a declaration declares that issue;
* `closingIssue_pullRequestBody` — **whatever the review, the checks and the reasons say, a body of
  the runner declares the issue that was worked on**.
-/

namespace Newsdeck.Workflows

open Ecma Ecma.Regex Loop Runner

/-! ### What stands at the beginning -/

section Begins

variable (k : Cont ℕ) (b t : Text) (caps : Captures ℕ)

theorem run_closes : (oneOf [str "closes", str "fixes", str "resolves"]).ignoreCase.run k
    ⟨b, lit "Closes" ++ t⟩ caps = k ⟨(lit "Closes").reverse ++ b, t⟩ caps := by
  have hothers : (oneOf [str "fixes", str "resolves"]).ignoreCase.run k
    ⟨b, lit "Closes" ++ t⟩ caps = none := rfl
  show ((str "closes").ignoreCase.run k _ caps).or
    ((oneOf [str "fixes", str "resolves"]).ignoreCase.run k _ caps) = _
  rw [hothers, Option.or_none]
  rfl

theorem run_space : spaces.ignoreCase.run k ⟨b, lit " #" ++ t⟩ caps = k
    ⟨32 :: b, lit "#" ++ t⟩ caps := by
  have hmany : (many Regex.space).run k ⟨32 :: b, 35 :: t⟩ caps = k ⟨32 :: b, 35 :: t⟩ caps :=
    run_many isSpace k _ _ caps
  have hspaces : spaces.ignoreCase = .seq Regex.space (many Regex.space) := by
    show Regex.seq Regex.space.ignoreCase (.star true Regex.space.ignoreCase) = _
    rw [ignoreCase_space]
    rfl
  rw [hspaces, run_seq]
  exact hmany

theorem isDigit_letter {c : ℕ} (h : isLetter c = true) : isDigit c = false := by
  unfold isLetter isUpper isLower at h
  unfold isDigit
  simp only [Bool.or_eq_true, Bool.and_eq_true, decide_eq_true_eq] at h
  simp only [Bool.and_eq_false_iff, decide_eq_false_iff_not]
  omega

/-- Digits to the last one, followed by what is no part of a word. -/
theorem run_digits {digits : Text} (hne : digits ≠ []) (hdigits : ∀ c ∈ digits, isDigit c = true)
    (ht : ∀ c ∈ t.head?, isWord c = false) :
    (Regex.group 1 (many1 digit)).run (wordBoundary.run done) ⟨b, digits ++ t⟩ caps =
      some (⟨digits.reverse ++ b, t⟩, (1, digits) :: caps) := by
  obtain ⟨c, digits, rfl⟩ := List.exists_cons_of_ne_nil hne
  have hword : ∀ c, isDigit c = true → isWord c = true := fun c hc => by simp [isWord, hc]
  have hbefore : (digits.reverse ++ c :: b).head?.any isWord = true := by
    cases hlast : digits.reverse with
    | nil => exact hword c (hdigits c List.mem_cons_self)
    | cons d rest =>
      have hmem : d ∈ digits := List.mem_reverse.mp (hlast ▸ List.mem_cons_self)
      exact hword d (hdigits d (List.mem_cons_of_mem _ hmem))
  have hafter : t.head?.any isWord = false := by
    cases t with
    | nil => rfl
    | cons d t => exact ht d rfl
  have hboundary : atBoundary isWord ⟨digits.reverse ++ c :: b, t⟩ = true := by
    rw [atBoundary, hbefore, hafter]
    rfl
  rw [run_group, many1, run_seq, List.cons_append, digit, run_cls_cons,
    if_pos (hdigits c List.mem_cons_self)]
  refine (run_many isDigit _ _ _ _).trans (greedy_last isDigit digits _ ?_ ?_ ?_)
  · exact fun d hd => hdigits d (List.mem_cons_of_mem _ hd)
  · show (if atBoundary isWord ⟨digits.reverse ++ c :: b, t⟩ = true then _ else _) = _
    have hlength : (c :: (digits ++ t)).length - t.length = (c :: digits).length := by
      simp only [List.length_cons, List.length_append]
      omega
    rw [if_pos hboundary, hlength]
    simp [done]
  · rintro u v rfl hu hall
    obtain ⟨d, u, rfl⟩ := List.exists_cons_of_ne_nil hu
    have hd := hword d (hall d List.mem_cons_self)
    rw [ht d rfl] at hd
    cases hd

end Begins

/-- A body that begins with a declaration declares that issue. -/
theorem closingIssue_begins {n : ℕ} {t : Text} (hn : n < 2 ^ 53)
    (ht : ∀ c ∈ t.head?, isWord c = false) :
    closingIssue (some (lit "Closes #" ++ decimal n ++ t)) = some (n : ℕ∞) := by
  have hdigit : ∀ c ∈ decimal n, isDigit c = true := by
    intro c hc
    have hrange := decimal_digit hc
    simp [isDigit]
    omega
  have hshape : closesIssue = .seq wordBoundary
    (.seq (oneOf [str "closes", str "fixes", str "resolves"]).ignoreCase
      (.seq spaces.ignoreCase (.seq (str "#") (.seq (.group 1 (many1 digit)) wordBoundary)))) := by
    have hdigit : digit.ignoreCase = digit := ignoreCase_cls false fun _ => isDigit_letter
    have hmark : (str "#").ignoreCase = str "#" :=
      congrArg (Regex.seq · _) (ignoreCase_mark 35 (by decide))
    show Regex.seq _ (.seq _ (.seq _ (.seq (str "#").ignoreCase
      (.seq (.group 1 (.seq digit.ignoreCase (.star true digit.ignoreCase))) _)))) = _
    rw [hdigit, hmark]
    rfl
  have hrun : closesIssue.run done ⟨[], lit "Closes #" ++ decimal n ++ t⟩ [] =
      some (⟨(lit "Closes #" ++ decimal n).reverse, t⟩, [(1, decimal n)]) := by
    have hnumber :=
      run_digits ((lit " #").reverse ++ (lit "Closes").reverse) t [] (decimal_ne_nil n) hdigit ht
    rw [hshape, List.append_assoc]
    show (oneOf [str "closes", str "fixes", str "resolves"]).ignoreCase.run _
      ⟨[], lit "Closes" ++ (lit " #" ++ _)⟩ _ = _
    rw [run_closes, run_seq, run_space, run_seq, str, run_units_append, run_seq]
    refine hnumber.trans ?_
    simp [lit]
  have hexec : closesIssue.exec (lit "Closes #" ++ decimal n ++ t) =
      some (⟨(lit "Closes #" ++ decimal n).reverse, t⟩, [(1, decimal n)]) := by
    have hsome :=
      congrArg (Option.or · (search closesIssue [67] (lit "loses #" ++ decimal n ++ t))) hrun
    exact hsome
  have hvalue : Json.numberOfDigits (decimal n) = (n : ℕ∞) := by
    rw [Json.numberOfDigits, Json.digitsValue_decimal, Json.doubleOf_natCast hn]
    simp
  rw [closingIssue, Option.bind_some, capture, hexec]
  show some (Json.numberOfDigits (decimal n)) = _
  rw [hvalue]

/-- **A body of the runner declares the issue that was worked on**, whatever the review, the checks
and the reasons say. -/
theorem closingIssue_pullRequestBody {issue : IssueSummary} (hn : issue.number < 2 ^ 53)
    (files : List Text)
    (verification : VerificationOutcome) (review : Option ReviewResult) (risk : RiskAssessment) :
    closingIssue (some (pullRequestBody issue files verification review risk)) =
      some (issue.number : ℕ∞) := by
  have hlines : ∀ lines : List Text, ∃ t : Text, (∀ c ∈ t.head?, isWord c = false) ∧
      join (lit "\n") ((lit "Closes #" ++ decimal issue.number) :: lines) =
        lit "Closes #" ++ decimal issue.number ++ t := by
    intro lines
    cases lines with
    | nil => exact ⟨[], by simp, by simp [join, List.intercalate]⟩
    | cons line lines =>
      refine ⟨lit "\n" ++ join (lit "\n") (line :: lines), ?_, ?_⟩
      · rintro c ⟨rfl⟩
        rfl
      · simp [join, List.intercalate, List.intersperse]
  obtain ⟨t, ht, hbody⟩ := hlines _
  exact (congrArg (fun body => closingIssue (some body)) hbody).trans (closingIssue_begins hn ht)

/-- The review names another issue. -/
theorem closingIssue_pullRequestBody_review : closingIssue (some (pullRequestBody
    ⟨7, lit "Seven", .opened, [], none⟩ [] ⟨true, .low, [], none, [], []⟩
      (some ⟨.approve, [], lit "Fixes #1."⟩)
      ⟨.low, [], ⟨false, false, []⟩⟩)) = some (7 : ℕ) :=
  @closingIssue_pullRequestBody ⟨7, lit "Seven", .opened, [], none⟩ (by decide) _ _ _ _

end Newsdeck.Workflows
