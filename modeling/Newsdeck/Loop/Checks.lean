import Newsdeck.Loop.Detect
import Newsdeck.Loop.Glob
import Newsdeck.Loop.Review

/-!
# The deterministic checks

Seven checks over the parsed diff, run whether or not a review agent is configured.  Each is a
function from the diff to findings; `runDeterministicChecks` concatenates them.

A finding names the file as the diff parser read it, at any length, and its category is one of six
constants (`runDeterministicChecks_from`).
-/

namespace Newsdeck.Loop

open Ecma

/-! ### Which files a content check reads -/

/-- `CODE_FILE`. -/
def codeFile : Regex ℕ :=
  .cat [.str ".", .oneOf [.cat [.opt (.chars "cm"), .chars "jt", .str "s", .opt (.str "x")],
    .str "vue", .str "svelte", .str "astro"], .eol]

def isCodeFile (path : Text) : Bool := codeFile.test path

/-- `TEST_GLOBS`, alike in both files that define it. -/
def testGlobs : List Text :=
  [lit "**/test/**", lit "**/*.test.ts", lit "**/*.test.tsx", lit "e2e/**"]

/-! ### Secrets -/

structure NamedPattern where
  name : Text
  pattern : Regex ℕ

/-- `[A-Za-z0-9]` and the given further units. -/
def alnumOr (more : String) : Regex ℕ :=
  .cls fun c => isLetter c || isDigit c || c ∈ lit more

/-- `SECRET_PATTERNS`. -/
def secretPatterns : List NamedPattern :=
  [⟨lit "private key block",
      .cat [.str "-----BEGIN ", .opt (.oneOf [.str "RSA ", .str "EC ", .str "DSA ",
        .str "OPENSSH ", .str "PGP "]), .str "PRIVATE KEY-----"]⟩,
    ⟨lit "GitHub personal access token",
      .cat [.wordBoundary, .str "ghp_", .times 36 (alnumOr ""), .wordBoundary]⟩,
    ⟨lit "GitHub fine-grained token",
      .cat [.wordBoundary, .str "github_pat_", .atLeast 22 (alnumOr "_")]⟩,
    ⟨lit "GitHub App token",
      .cat [.wordBoundary, .str "gh", .chars "sour", .str "_", .times 36 (alnumOr ""),
        .wordBoundary]⟩,
    ⟨lit "AWS access key id",
      .cat [.wordBoundary, .str "AKIA", .times 16 (.cls fun c => isDigit c || isUpper c),
        .wordBoundary]⟩,
    ⟨lit "Anthropic API key", .cat [.wordBoundary, .str "sk-ant-", .atLeast 20 (alnumOr "_-")]⟩,
    ⟨lit "OpenAI API key",
      .cat [.wordBoundary, .str "sk-", .atLeast 32 (alnumOr ""), .wordBoundary]⟩,
    ⟨lit "Slack token",
      .cat [.wordBoundary, .str "xox", .chars "baprs", .str "-", .atLeast 10 (alnumOr "-")]⟩,
    ⟨lit "Google API key",
      .cat [.wordBoundary, .str "AIza", .times 35 (alnumOr "_-"), .wordBoundary]⟩,
    ⟨lit "long quoted credential literal",
      .ignoreCase (.cat [.oneOf [.str "secret", .str "token", .str "password", .str "passwd",
        .cat [.str "api", .opt (.chars "_-"), .str "key"],
        .cat [.str "access", .opt (.chars "_-"), .str "key"],
        .cat [.str "private", .opt (.chars "_-"), .str "key"]],
        .many .space, .chars ":=", .many .space, .chars "\"'", .atLeast 32 (alnumOr "+/=_-"),
        .chars "\"'"])⟩]

/-- Credential-shaped strings among the lines a pull request adds: one finding per line. -/
def checkSecrets (diff : PullRequestDiff) : List Finding :=
  diff.files.flatMap fun file => file.addedLines.filterMap fun line =>
    (secretPatterns.find? fun p => p.pattern.test line).map fun p =>
      { severity := .critical
        file := some file.path
        line := none
        description := lit "Possible " ++ p.name ++ lit " added in " ++ file.path ++ lit "."
        suggestedAction :=
          lit "Remove the value, rotate the credential if it is real, and move it to a secret store."
        source := lit "check:secrets"
        category := lit "security" }

/-! ### Client safety -/

/-- `CLIENT_SAFE_GLOBS`. -/
def clientSafeGlobs : List Text :=
  [lit "packages/api-contract/src/**", lit "packages/api-client/src/**", lit "packages/ui/src/**"]

/-- `FORBIDDEN_SPECIFIERS`. -/
def forbiddenSpecifiers : List (Regex ℕ) :=
  [.cat [.bol, .str "node:"], .cat [.bol, .str "bun:"], .cat [.bol, .str "bun", .eol],
    .cat [.bol, .str "drizzle-orm"], .cat [.bol, .str "postgres", .eol],
    .cat [.bol, .str "ioredis", .eol], .cat [.bol, .str "bullmq", .eol], .cat [.bol, .str "pino"],
    .cat [.bol, .str "elysia"], .cat [.bol, .str "jose", .eol], .cat [.bol, .str "@orpc/server"],
    .cat [.bol, .str "@newsdeck/",
      .oneOf [.str "db", .str "auth", .str "logger", .str "jobs", .str "loop"], .eol]]

/-- `IMPORT_LINE`. -/
def importLine : Regex ℕ :=
  .cat [.alt .bol .space, .oneOf [.str "import", .str "export"], .wordBoundary,
    .many (.notChars "'\""), .str "from", spaces, .chars "'\"", .group 1 (.many1 (.notChars "'\"")),
    .chars "'\""]

/-- Server-only imports added to a package that ships to clients. -/
def checkClientSafety (diff : PullRequestDiff) : List Finding :=
  diff.files.flatMap fun file =>
    if !matchesAnyGlob clientSafeGlobs file.path then []
    else file.addedLines.filterMap fun line => (importLine.capture 1 line).bind fun specifier =>
      if !forbiddenSpecifiers.any fun pattern => pattern.test specifier then none
      else some
        { severity := .high
          file := some file.path
          line := none
          description := file.path ++ lit " imports `" ++ specifier ++
            lit "`, which is server-only, into a client-safe package."
          suggestedAction :=
            lit "Remove the import. Relaxing the client-safe boundary is an architectural decision, not an implementation detail — see AGENTS.md section 4."
          source := lit "check:client-safety"
          category := lit "architecture" }

/-! ### Migrations -/

/-- `MIGRATION_GLOBS` and `SCHEMA_GLOBS`. -/
def migrationGlobs : List Text := [lit "packages/db/drizzle/**/*.sql"]
def schemaGlobs : List Text := [lit "packages/db/src/schema/**"]

/-- The destructive statements added to a migration. -/
def destructiveFindings (file : DiffFile) : List Finding :=
  if !matchesAnyGlob migrationGlobs file.path then []
  else (findDestructiveSql file.addedLines).map fun statement =>
    { severity := .high
      file := some file.path
      line := none
      description := lit "Destructive migration statement: " ++ statement.line
      suggestedAction :=
        lit "Confirm the data loss is intended and reversible, and have a human approve this change."
      source := lit "check:migrations"
      category := lit "migration" }

/-- Destructive statements in a migration, and a schema edit without one. -/
def checkMigrations (diff : PullRequestDiff) : List Finding :=
  let destructive := diff.files.flatMap destructiveFindings
  let touchedSchema := diff.files.any fun file => matchesAnyGlob schemaGlobs file.path
  let addedMigration := diff.files.any fun file =>
    matchesAnyGlob migrationGlobs file.path && file.status = .added
  if touchedSchema && !addedMigration then
    destructive ++
      [{ severity := .high
         file := none
         line := none
         description :=
           lit "The Drizzle schema changed but no new migration was added under packages/db/drizzle/."
         suggestedAction := lit "Run `bun run db:generate` and commit the generated SQL."
         source := lit "check:migrations"
         category := lit "migration" }]
  else destructive

/-! ### Dependencies -/

/-- The findings of one dependency change. -/
def dependencyFindings (path : Text) (change : DependencyChange) : List Finding :=
  (if change.kind = .added then
    [{ severity := .medium
       file := some path
       line := none
       description := lit "New dependency `" ++ change.name ++ lit "@" ++
         change.toRange.getD (lit "null") ++ lit "` added in " ++ path ++ lit "."
       suggestedAction :=
         lit "State the concrete reason for the dependency in the pull request, per AGENTS.md section 5."
       source := lit "check:dependencies"
       category := lit "dependencies" }] else []) ++
  (if change.major && change.kind = .upgraded then
    [{ severity := .high
       file := some path
       line := none
       description := lit "Major upgrade of `" ++ change.name ++ lit "`: " ++
         change.fromRange.getD (lit "null") ++ lit " to " ++ change.toRange.getD (lit "null") ++
         lit "."
       suggestedAction :=
         lit "Major upgrades need a human. Confirm the changelog and that the full verification suite passes."
       source := lit "check:dependencies"
       category := lit "dependencies" }] else [])

def checkDependencies [Host] (diff : PullRequestDiff) : List Finding :=
  diff.files.flatMap fun file => (dependencyChanges file).flatMap (dependencyFindings file.path)

/-! ### Debug artefacts -/

structure Artifact where
  name : Text
  pattern : Regex ℕ
  severity : Severity

/-- `describe`, `it` or `test`. -/
def testFunction : Regex ℕ := .oneOf [.str "describe", .str "it", .str "test"]

/-- `ARTIFACTS`. -/
def artifacts : List Artifact :=
  [⟨lit "debugger statement",
      .cat [.alt .bol (.cls fun c => !isWord c && c ≠ 46), .str "debugger", .many .space,
        .opt (.str ";"), .many .space, .eol], .high⟩,
    ⟨lit "focused test",
      .cat [.wordBoundary, testFunction, .str ".only", .many .space, .str "("], .high⟩,
    ⟨lit "unconditionally skipped test",
      .cat [.wordBoundary, testFunction, .str ".skip", .many .space, .str "("], .medium⟩,
    ⟨lit "commented-out FIXME",
      .cat [.str "//", .many .space, .str "FIXME", .wordBoundary], .medium⟩]

/-- Leftovers from writing the change rather than parts of it. -/
def checkDebugArtifacts (diff : PullRequestDiff) : List Finding :=
  diff.files.flatMap fun file =>
    if !isCodeFile file.path then []
    else artifacts.filterMap fun artifact =>
      if !file.addedLines.any fun line => artifact.pattern.test line then none
      else some
        { severity := artifact.severity
          file := some file.path
          line := none
          description := artifact.name ++ lit " added in " ++ file.path ++ lit "."
          suggestedAction := lit "Remove it before merging."
          source := lit "check:debug-artifacts"
          category := lit "hygiene" }

/-! ### Test coverage -/

/-- `SOURCE_GLOBS`. -/
def sourceGlobs : List Text :=
  [lit "apps/*/src/**", lit "packages/*/src/**", lit "tooling/*/src/**"]

/-- `NON_BEHAVIOURAL`. -/
def nonBehavioural : Regex ℕ :=
  .cat [.str ".", .oneOf [.str "css", .str "json", .str "md", .str "txt", .str "svg", .str "png",
    .str "jpg", .str "ico"], .eol]

/-- Source changed without any test changing with it. -/
def checkTestCoverage (diff : PullRequestDiff) : List Finding :=
  let changedSource := diff.files.filter fun file =>
    matchesAnyGlob sourceGlobs file.path && !nonBehavioural.test file.path &&
      file.addedLines.length > 0
  let changedTests := diff.files.filter fun file => matchesAnyGlob testGlobs file.path
  if changedSource.length = 0 then []
  else if changedTests.length > 0 then []
  else
    [{ severity := .medium
       file := changedSource.head?.map DiffFile.path
       line := none
       description := decimal changedSource.length ++
         lit " source file(s) changed but no test file changed."
       suggestedAction :=
         lit "Add or update a test that fails without this change, or say in the pull request why none is needed."
       source := lit "check:tests"
       category := lit "testing" }]

/-! ### Test integrity -/

/-- `VACUOUS_ASSERTION`. -/
def vacuousAssertion : Regex ℕ :=
  .cat [.str "expect(", .many .space, .oneOf [.str "true", .str "1",
      .cat [.str "'", .many (.notChars "'"), .str "'"],
      .cat [.str "\"", .many (.notChars "\""), .str "\""],
      .cat [.str "[", .many .space, .str "]"],
      .cat [.units [123], .many .space, .units [125]]],
    .many .space, .str ")", .many .space, .str ".", .many .space,
    .oneOf [.str "toBe", .str "toEqual", .str "toBeTruthy", .str "toBeDefined"]]

/-- `SKIP_MARKER`. -/
def skipMarker : Regex ℕ :=
  .cat [.wordBoundary, .oneOf [.str "describe", .str "test", .str "it"], .many .space, .str ".",
    .many .space, .oneOf [.str "skip", .str "todo", .str "failing"], .wordBoundary]

/-- `ONLY_MARKER`. -/
def onlyMarker : Regex ℕ :=
  .cat [.wordBoundary, .oneOf [.str "describe", .str "test", .str "it"], .many .space, .str ".",
    .many .space, .str "only", .wordBoundary]

structure Suppression where
  pattern : Regex ℕ
  detail : Text

/-- `BROAD_SUPPRESSION`. -/
def broadSuppression : List Suppression :=
  [⟨.str "@ts-nocheck", lit "`@ts-nocheck` disables type checking for an entire file."⟩,
    ⟨.alt (.str "biome-ignore-all")
        (.cat [.str "biome-ignore", spaces, .str "lint", .many .space, .str ":"]),
      lit "A file-wide lint suppression hides every instance of the rule, not the one in hand."⟩,
    ⟨.seq (.str "eslint-disable") (.notAhead (.str "-next-line")),
      lit "A file-wide `eslint-disable` hides every instance of the rule."⟩]

/-- `BARE_TS_SUPPRESSION`. -/
def bareTsSuppression : Regex ℕ :=
  .cat [.str "@ts-", .oneOf [.str "expect-error", .str "ignore"], .many .space, .eol]

/-- A finding of this check. -/
def integrityFinding (file : DiffFile) (severity : Severity) (description suggestedAction : Text) :
    Finding where
  severity := severity
  file := some file.path
  line := none
  description := description
  suggestedAction := suggestedAction
  source := lit "check:test-integrity"
  category := lit "testing"

def inspectTestFile (file : DiffFile) : List Finding :=
  let addedSkips := file.addedLines.filter skipMarker.test
  let removedSkips := file.removedLines.filter skipMarker.test
  let vacuous := file.addedLines.filter vacuousAssertion.test
  let removed := file.removedLines.length
  let added := file.addedLines.length
  (if addedSkips.length > removedSkips.length then
    [integrityFinding file .high
      (decimal (addedSkips.length - removedSkips.length) ++
        lit " test(s) were skipped, marked todo, or marked failing.")
      (lit "Make the test pass instead. If it is genuinely obsolete, delete it in an issue that says so.")]
    else []) ++
  (if file.addedLines.any onlyMarker.test then
    [integrityFinding file .high
      (lit "A `.only` marker was added, which silently stops every other test in the file from running.")
      (lit "Remove it — it is a local debugging aid, not something to commit.")]
    else []) ++
  (if vacuous.length > 0 then
    [integrityFinding file .high
      (decimal vacuous.length ++ lit " assertion(s) were added that cannot fail, e.g. `" ++
        ((vacuous.head?.map fun line => (trim line).take 120).getD (lit "undefined")) ++ lit "`.")
      (lit "Assert the actual behaviour. An assertion that always passes is worse than no test: it reports coverage it does not have.")]
    else []) ++
  (if removed > 20 ∧ removed > added * 3 then
    [integrityFinding file .medium
      (lit "This test file lost " ++ decimal removed ++ lit " lines and gained " ++
        decimal added ++ lit ", a substantial net reduction in coverage.")
      (lit "Confirm the removed cases are genuinely obsolete rather than inconvenient.")]
    else [])

def inspectSuppressions (file : DiffFile) : List Finding :=
  let broad := broadSuppression.filterMap fun suppression =>
    let added := file.addedLines.filter suppression.pattern.test
    let removed := file.removedLines.filter suppression.pattern.test
    if added.length ≤ removed.length then none
    else some (integrityFinding file .high
      (lit "A broad suppression was added. " ++ suppression.detail)
      (lit "Fix the underlying problem, or narrow the suppression to the single line and explain it."))
  let bare := file.addedLines.filter bareTsSuppression.test
  broad ++
  (if bare.length > 0 then
    [integrityFinding file .medium
      (decimal bare.length ++ lit " type suppression(s) were added with no explanation.")
      (lit "Add a reason after the directive, or fix the type error. An unexplained suppression is indistinguishable from giving up.")]
    else [])

/-- The finding raised when a test file goes away. -/
def deletedTestFinding (file : DiffFile) : Finding :=
  integrityFinding file .high (lit "A test file was deleted.")
    (lit "Restore it, or state in the issue why the behaviour it covered no longer needs a test.")

/-- The findings about one file. -/
def fileIntegrity (file : DiffFile) : List Finding :=
  if !isCodeFile file.path then []
  else
    let isTest := matchesAnyGlob testGlobs file.path
    if isTest && file.status = .removed then [deletedTestFinding file]
    else (if isTest then inspectTestFile file else []) ++ inspectSuppressions file

def checkTestIntegrity (diff : PullRequestDiff) : List Finding := diff.files.flatMap fileIntegrity

/-! ### All of them -/

/-- Every deterministic check, in one pass. -/
def runDeterministicChecks [Host] (diff : PullRequestDiff) : List Finding :=
  checkSecrets diff ++ checkClientSafety diff ++ checkMigrations diff ++ checkDependencies diff ++
    checkDebugArtifacts diff ++ checkTestCoverage diff ++ checkTestIntegrity diff

/-! ### What the findings carry -/

/-- The categories the checks use. -/
def checkCategories : List Text :=
  [lit "security", lit "architecture", lit "migration", lit "dependencies", lit "hygiene",
    lit "testing"]

/-- A finding about one file. -/
def About (file : DiffFile) (f : Finding) : Prop :=
  f.file = some file.path ∧ f.category ∈ checkCategories

/-- A finding of the checks: a category of theirs, and a file of the diff if any. -/
structure FromCheck (diff : PullRequestDiff) (f : Finding) : Prop where
  file : ∀ path, f.file = some path → ∃ file ∈ diff.files, file.path = path
  category : f.category ∈ checkCategories

variable {diff : PullRequestDiff} {file : DiffFile} {f : Finding}

theorem fromCheck_flatMap {check : DiffFile → List Finding}
    (hcheck : ∀ file, ∀ f ∈ check file, About file f) (h : f ∈ diff.files.flatMap check) :
    FromCheck diff f := by
  obtain ⟨file, hfile, hf⟩ := List.mem_flatMap.mp h
  obtain ⟨hpath, hcategory⟩ := hcheck file f hf
  exact ⟨fun path hsome => ⟨file, hfile, Option.some.inj (hpath.symm.trans hsome)⟩, hcategory⟩

theorem fromCheck_nowhere (hnone : f.file = none) (hcategory : f.category ∈ checkCategories) :
    FromCheck diff f :=
  ⟨fun path hsome => absurd (hnone.symm.trans hsome) (by simp), hcategory⟩

/-- A finding that is raised under a condition. -/
theorem eq_of_mem_ite_singleton {p : Prop} [Decidable p] {g : Finding}
    (h : f ∈ if p then [g] else []) : f = g := by
  split at h
  · exact List.mem_singleton.mp h
  · simp at h

theorem checkSecrets_from (h : f ∈ checkSecrets diff) : FromCheck diff f := by
  refine fromCheck_flatMap (fun file g hg => ?_) h
  simp only [List.mem_filterMap, Option.map_eq_some_iff] at hg
  obtain ⟨_, -, _, -, rfl⟩ := hg
  exact ⟨rfl, by simp [checkCategories]⟩

theorem checkClientSafety_from (h : f ∈ checkClientSafety diff) : FromCheck diff f := by
  refine fromCheck_flatMap (fun file g hg => ?_) h
  split at hg
  · simp at hg
  · obtain ⟨line, -, hg⟩ := List.mem_filterMap.mp hg
    obtain ⟨specifier, -, hg⟩ := Option.bind_eq_some_iff.mp hg
    split at hg
    · simp at hg
    · obtain rfl := Option.some.inj hg
      exact ⟨rfl, by simp [checkCategories]⟩

theorem destructiveFindings_about (h : f ∈ destructiveFindings file) : About file f := by
  unfold destructiveFindings at h
  split at h
  · simp at h
  · obtain ⟨statement, -, rfl⟩ := List.mem_map.mp h
    exact ⟨rfl, by simp [checkCategories]⟩

theorem checkMigrations_from (h : f ∈ checkMigrations diff) : FromCheck diff f := by
  unfold checkMigrations at h
  dsimp only at h
  split at h
  · rcases List.mem_append.mp h with h | h
    · exact fromCheck_flatMap (fun _ _ => destructiveFindings_about) h
    · obtain rfl := List.mem_singleton.mp h
      exact fromCheck_nowhere rfl (by simp [checkCategories])
  · exact fromCheck_flatMap (fun _ _ => destructiveFindings_about) h

theorem dependencyFindings_about {change : DependencyChange}
    (h : f ∈ dependencyFindings file.path change) : About file f := by
  unfold dependencyFindings at h
  rcases List.mem_append.mp h with h | h
  · rw [eq_of_mem_ite_singleton h]
    exact ⟨rfl, by simp [checkCategories]⟩
  · rw [eq_of_mem_ite_singleton h]
    exact ⟨rfl, by simp [checkCategories]⟩

theorem checkDependencies_from [Host] (h : f ∈ checkDependencies diff) : FromCheck diff f := by
  refine fromCheck_flatMap (fun file g hg => ?_) h
  obtain ⟨change, -, hg⟩ := List.mem_flatMap.mp hg
  exact dependencyFindings_about hg

theorem checkDebugArtifacts_from (h : f ∈ checkDebugArtifacts diff) : FromCheck diff f := by
  refine fromCheck_flatMap (fun file g hg => ?_) h
  split at hg
  · simp at hg
  · obtain ⟨artifact, -, hg⟩ := List.mem_filterMap.mp hg
    split at hg
    · simp at hg
    · obtain rfl := Option.some.inj hg
      exact ⟨rfl, by simp [checkCategories]⟩

theorem checkTestCoverage_from (h : f ∈ checkTestCoverage diff) : FromCheck diff f := by
  unfold checkTestCoverage at h
  dsimp only at h
  split at h
  · simp at h
  · split at h
    · simp at h
    · obtain rfl := List.mem_singleton.mp h
      refine ⟨fun path hpath => ?_, by simp [checkCategories]⟩
      obtain ⟨file, hhead, rfl⟩ := Option.map_eq_some_iff.mp hpath
      exact ⟨file, (List.mem_filter.mp (List.mem_of_mem_head? hhead)).1, rfl⟩

theorem integrityFinding_about (severity : Severity) (description suggestedAction : Text) :
    About file (integrityFinding file severity description suggestedAction) :=
  ⟨rfl, by simp [integrityFinding, checkCategories]⟩

theorem inspectTestFile_about (h : f ∈ inspectTestFile file) : About file f := by
  unfold inspectTestFile at h
  simp only [List.mem_append] at h
  rcases h with ((h | h) | h) | h <;> rw [eq_of_mem_ite_singleton h] <;>
    exact integrityFinding_about _ _ _

theorem inspectSuppressions_about (h : f ∈ inspectSuppressions file) : About file f := by
  unfold inspectSuppressions at h
  rcases List.mem_append.mp h with h | h
  · obtain ⟨suppression, -, h⟩ := List.mem_filterMap.mp h
    dsimp only at h
    split at h
    · simp at h
    · rw [← Option.some.inj h]
      exact integrityFinding_about _ _ _
  · rw [eq_of_mem_ite_singleton h]
    exact integrityFinding_about _ _ _

theorem fileIntegrity_about (h : f ∈ fileIntegrity file) : About file f := by
  unfold fileIntegrity at h
  dsimp only at h
  split at h
  · simp at h
  · split at h
    · rw [List.mem_singleton.mp h]
      exact integrityFinding_about _ _ _
    · rcases List.mem_append.mp h with h | h
      · split at h
        · exact inspectTestFile_about h
        · simp at h
      · exact inspectSuppressions_about h

/-- **What the checks report.** -/
theorem runDeterministicChecks_from [Host] (h : f ∈ runDeterministicChecks diff) :
    FromCheck diff f := by
  simp only [runDeterministicChecks, List.mem_append] at h
  rcases h with (((((h | h) | h) | h) | h) | h) | h
  · exact checkSecrets_from h
  · exact checkClientSafety_from h
  · exact checkMigrations_from h
  · exact checkDependencies_from h
  · exact checkDebugArtifacts_from h
  · exact checkTestCoverage_from h
  · exact fromCheck_flatMap (fun _ _ => fileIntegrity_about) h

end Newsdeck.Loop
