import Newsdeck.Loop.RetryLimit
import Newsdeck.Loop.StickyComment
import Newsdeck.Loop.Visibility
import Newsdeck.Loop.RiskComparison
import Newsdeck.Loop.DiffReading
import Newsdeck.Loop.EvaluatePr
import Newsdeck.Runner.Serial
import Newsdeck.Runner.ConflictRounds
import Newsdeck.Runner.CodingRounds
import Newsdeck.Runner.Labels
import Newsdeck.Runner.Claims
import Newsdeck.Runner.Cycles
import Newsdeck.Loop.RiskMonotone
import Newsdeck.Loop.Unreviewed
import Newsdeck.Worker.Windows
import Newsdeck.Worker.Races
import Newsdeck.Sources.Validators
import Newsdeck.Runner.Lock
import Newsdeck.Worker.FeedEntries
import Newsdeck.Runner.ReadBack
import Newsdeck.Runner.Evidence
import Newsdeck.Worker.Reports
import Newsdeck.Worker.Trackers
import Newsdeck.Worker.Words
import Newsdeck.Sources.Failures
import Newsdeck.Loop.LineEndings
import Newsdeck.Loop.Blocks
import Newsdeck.Loop.Choice
import Newsdeck.Loop.Tiers
import Newsdeck.Loop.Verdict
import Newsdeck.Runner.CiRounds
import Newsdeck.Loop.Duplicates
import Newsdeck.Loop.Proposals
import Newsdeck.Loop.GlobCharacters
import Newsdeck.Loop.Wrapping
import Newsdeck.Loop.MajorUpgrades
import Newsdeck.Loop.PublicExports
import Newsdeck.Loop.Recurring
import Newsdeck.Loop.ReviewText
import Newsdeck.Runner.Verify
import Newsdeck.Runner.BranchNames
import Newsdeck.Runner.BudgetClock
import Newsdeck.Runner.Expenses
import Newsdeck.Runner.Publishable
import Newsdeck.Runner.RedactJson
import Newsdeck.Runner.Scanned
import Newsdeck.Runner.Prompts
import Newsdeck.Loop.Backlog
import Newsdeck.Sources.Pages
import Newsdeck.Workflows.Parties
import Newsdeck.Workflows.Stages
