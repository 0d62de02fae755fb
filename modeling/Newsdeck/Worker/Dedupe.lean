import Newsdeck.Database.Errors
import Newsdeck.Library.Effects
import Newsdeck.Worker.Collapse

/-!
# Ingesting a batch of articles

`dedupeAndPersist` reads once which articles match a key of the batch, and then writes one row for each
group none of whose members matched.  A write that loses a race on the canonical URL is looked up.

* `dedupeAndPersist` — the service, over the operations of its repository;
* `articleStep` — what the database does: each statement is atomic, and the canonical URL is unique.
-/

namespace Newsdeck.Worker

open Ecma Effects Database

/-! ### The repository -/

structure ArticleMatchQuery where
  canonicalUrl : Text
  contentHash : Text
  deriving DecidableEq, Repr

structure ArticleMatch where
  id : Text
  canonicalUrl : Text
  contentHash : Text
  deriving DecidableEq, Repr

structure NewArticle where
  sourceId : Text
  url : Text
  canonicalUrl : Text
  title : Text
  summary : Option Text
  author : Option Text
  imageUrl : Option Text
  contentHash : Text
  publishedAt : Option ℤ
  fetchedAt : ℤ
  deriving DecidableEq, Repr

structure Article extends NewArticle where
  id : Text
  deriving DecidableEq, Repr

inductive ArticleOp where
  | findMatches (queries : List ArticleMatchQuery)
  | insert (input : NewArticle)

def ArticleOp.Answer : ArticleOp → Type
  | findMatches _ => Except DbError (List ArticleMatch)
  | insert _ => Except DbError Article

abbrev ArticleEvent := Event ArticleOp ArticleOp.Answer

abbrev ArticleAction (α : Type) := Prog ArticleOp ArticleOp.Answer DbError α

/-- Rows whose canonical URL or content hash matches any of the queries. -/
def findMatches (queries : List ArticleMatchQuery) : ArticleAction (List ArticleMatch) :=
  if queries.length = 0 then .ret [] else .call (.findMatches queries) .raise

def insert (input : NewArticle) : ArticleAction Article := .call (.insert input) .raise

def articlesIndex : Text := lit "articles_canonical_url_unique"

def isCanonicalUrlConflict (error : DbError) : Bool := isConflict articlesIndex error

/-! ### The service -/

inductive ExistingReason where
  | matched (reason : ArticleMatchReason)
  | race
  deriving DecidableEq, Repr

inductive ArticleOutcome where
  | inserted (article : Article)
  | existing (reason : ExistingReason) (existingArticleId : Text)
  | duplicateInBatch (duplicate : InBatchDuplicate)
  deriving DecidableEq, Repr

structure ArticleCandidateOutcome where
  index : ℕ
  candidate : ArticleCandidate
  outcome : ArticleOutcome
  deriving DecidableEq, Repr

structure DedupeArticlesInput where
  sourceId : Text
  fetchedAt : ℤ
  candidates : List ArticleCandidate

structure DedupeArticlesResult where
  outcomes : List ArticleCandidateOutcome
  insertedCount : ℕ
  existingCount : ℕ
  duplicateInBatchCount : ℕ
  deriving DecidableEq, Repr

/-- `byCanonicalUrl` and `byContentHash`. -/
structure Known where
  byCanonicalUrl : OrderedMap Text ArticleMatch
  byContentHash : OrderedMap Text ArticleMatch

def knownOf (found : List ArticleMatch) : Known where
  byCanonicalUrl := found.foldl (fun m entry => OrderedMap.set entry.canonicalUrl entry m) []
  byContentHash := found.foldl (fun m entry => OrderedMap.set entry.contentHash entry m) []

def findMatch (known : Known) (candidate : ArticleCandidate) :
    Option (ArticleMatch × ArticleMatchReason) :=
  match known.byCanonicalUrl.get? candidate.canonicalUrl with
  | some byUrl => some (byUrl, .canonicalUrl)
  | none => (known.byContentHash.get? candidate.contentHash).map fun byHash => (byHash, .contentHash)

/-- A group is known when any of its members is. -/
def findGroupMatch (known : Known) (members : List ArticleCandidate) :
    Option (ArticleMatch × ArticleMatchReason) :=
  members.findSome? (findMatch known)

def toNewArticle (candidate : ArticleCandidate) (sourceId : Text) (fetchedAt : ℤ) : NewArticle where
  sourceId := sourceId
  url := candidate.url
  canonicalUrl := candidate.canonicalUrl
  title := candidate.title
  summary := candidate.summary
  author := candidate.author
  imageUrl := candidate.imageUrl
  contentHash := candidate.contentHash
  publishedAt := candidate.publishedAt
  fetchedAt := fetchedAt

def toQuery (candidate : ArticleCandidate) : ArticleMatchQuery :=
  ⟨candidate.canonicalUrl, candidate.contentHash⟩

/-- The candidates of the group of a representative. -/
def membersOf (candidates : List ArticleCandidate) (index : ℕ) : List ArticleCandidate :=
  (((groupMembersByRepresentative (collapseInBatchDuplicates candidates)).get? index).getD []).filterMap
    fun memberIndex => candidates[memberIndex]?

def representatives (candidates : List ArticleCandidate) : List ℕ :=
  (collapseInBatchDuplicates candidates).representativeIndexes

/-- Write a group that is not known, or find the row it lost a race to. -/
def persistNew (candidate : ArticleCandidate) (input : DedupeArticlesInput) :
    ArticleAction ArticleOutcome := do
  match ← (insert (toNewArticle candidate input.sourceId input.fetchedAt)).attempt with
  | .ok article => .ret (.inserted article)
  | .error error =>
      if !isCanonicalUrlConflict error then .throw error
      else
        match ← findMatches [toQuery candidate] with
        | [] => .throw error
        | raceMatch :: _ => .ret (.existing .race raceMatch.id)

/-- The representatives, one after the other. -/
def persistAll (input : DedupeArticlesInput) (known : Known) :
    List ℕ → OrderedMap ℕ ArticleOutcome → ArticleAction (OrderedMap ℕ ArticleOutcome)
  | [], resolved => .ret resolved
  | index :: rest, resolved =>
      -- A representative is an index of the batch.
      match input.candidates[index]? with
      | none => persistAll input known rest resolved
      | some candidate =>
          match findGroupMatch known (membersOf input.candidates index) with
          | some found =>
              persistAll input known rest
                (resolved.set index (.existing (.matched found.2) found.1.id))
          | none => do
              let outcome ← persistNew candidate input
              persistAll input known rest (resolved.set index outcome)

def noOutcome (index : ℕ) : DbError :=
  ⟨lit "no outcome computed for candidate at index " ++ decimal index, none⟩

/-- The outcomes of the candidates from `index` on. -/
def outcomesFrom (duplicates : OrderedMap ℕ InBatchDuplicate)
    (resolved : OrderedMap ℕ ArticleOutcome) :
    ℕ → List ArticleCandidate → Except DbError (List ArticleCandidateOutcome)
  | _, [] => .ok []
  | index, candidate :: rest => do
      let outcome ← match duplicates.get? index with
        | some duplicate => .ok (.duplicateInBatch duplicate)
        | none =>
            match resolved.get? index with
            | some outcome => .ok outcome
            | none => .error (noOutcome index)
      let outcomes ← outcomesFrom duplicates resolved (index + 1) rest
      .ok (⟨index, candidate, outcome⟩ :: outcomes)

def ArticleCandidateOutcome.isInserted (outcome : ArticleCandidateOutcome) : Bool :=
  match outcome.outcome with
  | .inserted _ => true
  | _ => false

def ArticleCandidateOutcome.isExisting (outcome : ArticleCandidateOutcome) : Bool :=
  match outcome.outcome with
  | .existing _ _ => true
  | _ => false

def resultOf (outcomes : List ArticleCandidateOutcome) : DedupeArticlesResult where
  outcomes := outcomes
  insertedCount := outcomes.countP ArticleCandidateOutcome.isInserted
  existingCount := outcomes.countP ArticleCandidateOutcome.isExisting
  duplicateInBatchCount :=
    outcomes.countP fun outcome => !outcome.isInserted && !outcome.isExisting

/-- Decide which candidates are new, and persist these. -/
def dedupeAndPersist (input : DedupeArticlesInput) : ArticleAction DedupeArticlesResult := do
  let found ← findMatches ((representatives input.candidates).flatMap fun index =>
    (membersOf input.candidates index).map toQuery)
  let resolved ← persistAll input (knownOf found) (representatives input.candidates) []
  let outcomes ← Prog.raise
    (outcomesFrom (collapseInBatchDuplicates input.candidates).duplicates resolved 0 input.candidates)
  .ret (resultOf outcomes)

/-! ### The database -/

def Article.toMatch (row : Article) : ArticleMatch := ⟨row.id, row.canonicalUrl, row.contentHash⟩

/-- The rows `where` selects. -/
def selectMatches (queries : List ArticleMatchQuery) (s : List Article) : List Article :=
  s.filter fun row => row.canonicalUrl ∈ queries.map ArticleMatchQuery.canonicalUrl ||
    row.contentHash ∈ queries.map ArticleMatchQuery.contentHash

/-- The row of the input is stored. -/
def Stores (input : NewArticle) (article : Article) (s s' : List Article) : Prop :=
  article.toNewArticle = input ∧ (∀ row ∈ s, row.canonicalUrl ≠ input.canonicalUrl) ∧
    s' = s ++ [article]

/-- Each statement is atomic, and the canonical URL is unique: an insert of a URL that is stored fails,
and only such an insert is refused as a conflict.  The order of the rows found is arbitrary.  An insert
that fails for another reason stored nothing, or its answer was lost. -/
def articleStep (s : List Article) (event : ArticleEvent) (s' : List Article) : Prop :=
  match event with
  | ⟨.findMatches queries, answer⟩ =>
      (∀ found, answer = .ok found → found.Perm ((selectMatches queries s).map Article.toMatch)) ∧
        s' = s
  | ⟨.insert input, .ok article⟩ => Stores input article s s'
  | ⟨.insert input, .error error⟩ =>
      if isCanonicalUrlConflict error then
        (∃ row ∈ s, row.canonicalUrl = input.canonicalUrl) ∧ s' = s
      else s' = s ∨ ∃ article, Stores input article s s'

/-- A database in which no statement fails but for the index. -/
def answerArticle (s : List Article) : (op : ArticleOp) → Option (op.Answer × List Article)
  | .findMatches queries => some (.ok ((selectMatches queries s).map Article.toMatch), s)
  | .insert input =>
      if ∃ row ∈ s, row.canonicalUrl = input.canonicalUrl then
        some (.error (uniqueViolation articlesIndex), s)
      else
        let article : Article := ⟨input, decimal s.length⟩
        some (.ok article, s ++ [article])

theorem articleStep_answer {s s' : List Article} {op : ArticleOp} {answer : op.Answer}
    (h : answerArticle s op = some (answer, s')) : articleStep s ⟨op, answer⟩ s' := by
  cases op with
  | findMatches queries =>
    obtain ⟨rfl, rfl⟩ := Prod.mk.inj (Option.some.inj h)
    exact ⟨fun found hfound => Except.ok.inj hfound ▸ List.Perm.refl _, rfl⟩
  | insert input =>
    by_cases htaken : ∃ row ∈ s, row.canonicalUrl = input.canonicalUrl
    · simp only [answerArticle, if_pos htaken] at h
      obtain ⟨rfl, rfl⟩ := Prod.mk.inj (Option.some.inj h)
      simp only [articleStep, isCanonicalUrlConflict, isConflict_uniqueViolation, if_true]
      exact ⟨htaken, trivial⟩
    · simp only [answerArticle, if_neg htaken] at h
      obtain ⟨rfl, rfl⟩ := Prod.mk.inj (Option.some.inj h)
      exact ⟨rfl, fun row hrow heq => htaken ⟨row, hrow, heq⟩, rfl⟩

end Newsdeck.Worker
