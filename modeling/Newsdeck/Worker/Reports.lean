import Newsdeck.Library.Interference
import Newsdeck.Worker.Races

/-!
# What an ingested batch reports

While a call of `dedupeAndPersist` runs, others write to the same table between any two of its
statements.

* `Wrote`, `Saw` — what a call has stored, and what it has read, in terms of its own statements;
* `persistNew_backs`, `persistAll_backs` — every outcome that is recorded is backed by one of these;
* `dedupe_reports` — the result: one outcome for each candidate, and what stands behind each.
-/

namespace Newsdeck.Worker

open Ecma Effects Database

abbrev OwnMove := Move (List Article) ArticleOp ArticleOp.Answer

/-- The row is stored and shares a key with a member of the group of the candidate at an index. -/
def Names (candidates : List ArticleCandidate) (index : ℕ) (id : Text)
    (rows : List Article) : Prop :=
  ∃ row ∈ rows, row.id = id ∧ ∃ j member, candidates[j]? = some member ∧
    SameArticle candidates index j ∧ Touches row.identity member.identity

/-- The call has read such a row. -/
def Saw (candidates : List ArticleCandidate) (index : ℕ) (id : Text)
    (moves : List OwnMove) : Prop :=
  ∃ move ∈ moves, (∃ queries, move.event.op = .findMatches queries) ∧
    Names candidates index id move.before

/-- The call has stored the row. -/
def Wrote (new : NewArticle) (article : Article) (moves : List OwnMove) : Prop :=
  ∃ move ∈ moves, move.event = ⟨.insert new, .ok article⟩ ∧
    Stores new article move.before move.after

/-- What stands behind the outcome of a representative. -/
def Backs (input : DedupeArticlesInput) (moves : List OwnMove) (index : ℕ) : ArticleOutcome → Prop
  | .inserted article => ∃ candidate, input.candidates[index]? = some candidate ∧
      Wrote (toNewArticle candidate input.sourceId input.fetchedAt) article moves
  | .existing _ id => Saw input.candidates index id moves
  | .duplicateInBatch _ => False

/-- What stands behind an outcome of the result. -/
def Holds (input : DedupeArticlesInput) (moves : List OwnMove)
    (outcomes : List ArticleCandidateOutcome) (o : ArticleCandidateOutcome) : Prop :=
  match o.outcome with
  | .inserted article => article.identity = o.candidate.identity ∧
      Wrote (toNewArticle o.candidate input.sourceId input.fetchedAt) article moves
  | .existing _ id => Saw input.candidates o.index id moves
  | .duplicateInBatch duplicate => ∃ target ∈ outcomes, target.index = duplicate.duplicateOfIndex ∧
      (target.isInserted ∨ target.isExisting)

/-- The row an outcome reports is stored. -/
def Remains (input : DedupeArticlesInput) (rows : List Article)
    (o : ArticleCandidateOutcome) : Prop :=
  match o.outcome with
  | .inserted article => article ∈ rows
  | .existing _ id => Names input.candidates o.index id rows
  | .duplicateInBatch _ => True

/-- One outcome for each candidate, in order, and something behind each. -/
structure Reports (input : DedupeArticlesInput) (moves : List OwnMove)
    (result : DedupeArticlesResult) :
    Prop where
  ordered : result.outcomes.map (fun o => (o.candidate, o.index)) = input.candidates.zipIdx
  counted : result.insertedCount + result.existingCount + result.duplicateInBatchCount =
    input.candidates.length
  backed : ∀ o ∈ result.outcomes, Holds input moves result.outcomes o

/-! ### The statements -/

section Statements

variable {input : DedupeArticlesInput} {queries : List ArticleMatchQuery}
    {found : List ArticleMatch}
  {moves moves' : List OwnMove} {index : ℕ} {outcome : ArticleOutcome}

theorem Backs.mono (h : Backs input moves index outcome) (hmore : moves <+: moves') :
    Backs input moves' index outcome := by
  cases outcome with
  | inserted article =>
    obtain ⟨candidate, hcandidate, move, hmove, hwrote⟩ := h
    exact ⟨candidate, hcandidate, move, hmore.subset hmove, hwrote⟩
  | existing reason id =>
    obtain ⟨move, hmove, hsaw⟩ := h
    exact ⟨move, hmore.subset hmove, hsaw⟩
  | duplicateInBatch duplicate => exact h

/-- Every match is the row of a read that shares a key with a query. -/
def Read (queries : List ArticleMatchQuery) (found : List ArticleMatch)
    (moves : List OwnMove) : Prop :=
  ∀ entry ∈ found, ∃ move ∈ moves, (∃ asked, move.event.op = .findMatches asked) ∧
    ∃ row ∈ move.before, row.toMatch = entry ∧
      ∃ query ∈ queries, Touches row.identity (query.canonicalUrl, query.contentHash)

theorem Read.mono (h : Read queries found moves) (hmore : moves <+: moves') :
    Read queries found moves' := by
  intro entry hentry
  obtain ⟨move, hmove, hread⟩ := h entry hentry
  exact ⟨move, hmore.subset hmove, hread⟩

theorem findMatches_reads (queries : List ArticleMatchQuery) (moves : List OwnMove) :
    Ensures (Recorded articleStep) (fun _ => True) (fun _ _ => True) (findMatches queries) moves
      fun found moves' => moves <+: moves' ∧ Read queries found moves' := by
  unfold findMatches
  split
  · exact ensures_ret ⟨List.prefix_rfl, by simp [Read]⟩
  · refine ensures_call trivial fun answer moves' hstep => ?_
    obtain ⟨s, t, ⟨hfound, -⟩, rfl⟩ := hstep
    refine ensures_raise (fun found hok => ⟨List.prefix_append _ _, ?_⟩) fun _ _ => trivial
    intro entry hentry
    obtain ⟨row, hrow, rfl⟩ := List.mem_map.mp ((hfound found hok).mem_iff.mp hentry)
    obtain ⟨hstored, query, hquery, hkey⟩ := (mem_selectMatches_iff row).mp hrow
    exact ⟨_, List.mem_append_right _ (List.mem_singleton_self _), ⟨queries, rfl⟩, row,
      hstored, rfl, query, hquery, hkey.imp Eq.symm Eq.symm⟩

/-- A match that shares a key with a member of a group names a row. -/
theorem Read.saw (h : Read queries found moves) {entry : ArticleMatch}
    (hentry : entry ∈ found) {j : ℕ}
    {member : ArticleCandidate} (hmember : input.candidates[j]? = some member)
    (hsame : SameArticle input.candidates index j)
    (hkey : Touches (entry.canonicalUrl, entry.contentHash) member.identity) :
    Saw input.candidates index entry.id moves := by
  obtain ⟨move, hmove, hread, row, hrow, rfl, -⟩ := h entry hentry
  exact ⟨move, hmove, hread, row, hrow, rfl, j, member, hmember, hsame, hkey⟩

/-- The group of a representative is found through one of its members. -/
theorem findGroupMatch_saw (h : Read queries found moves)
    (hindex : index ∈ representatives input.candidates) {hit : ArticleMatch × ArticleMatchReason}
    (hhit : findGroupMatch (knownOf found) (membersOf input.candidates index) = some hit) :
    Saw input.candidates index hit.1.id moves := by
  obtain ⟨member, hmember, hmatch⟩ := List.exists_of_findSome?_eq_some hhit
  obtain ⟨j, hj, hsame⟩ := (mem_membersOf_iff hindex).mp hmember
  obtain ⟨hentry, hkey⟩ := findMatch_some hmatch
  exact h.saw hentry hj hsame hkey

theorem persistNew_backs {candidate : ArticleCandidate}
    (hcandidate : input.candidates[index]? = some candidate) (moves : List OwnMove) :
    Ensures (Recorded articleStep) (fun _ => True) (fun _ _ => True)
      (persistNew candidate input) moves
      fun outcome moves' => moves <+: moves' ∧ Backs input moves' index outcome := by
  refine ensures_bind (ensures_attempt (ensures_call trivial fun answer moves' hstep => ?_))
  obtain ⟨s, t, hstep, rfl⟩ := hstep
  have hmore : moves <+: moves ++ [⟨s, ⟨.insert _, answer⟩, t⟩] := List.prefix_append _ _
  have hlast : ⟨s, ⟨.insert _, answer⟩, t⟩ ∈ moves ++ [⟨s, ⟨.insert _, answer⟩, t⟩] :=
    List.mem_append_right _ (List.mem_singleton_self _)
  cases answer with
  | ok article =>
    exact ensures_ret (ensures_ret ⟨hmore, candidate, hcandidate, _, hlast, rfl, hstep⟩)
  | error error =>
    refine ensures_throw ?_
    show Ensures _ _ _ (if _ then _ else _) _ _
    split
    · exact ensures_throw trivial
    · -- The race is lost, and the first row that matches the candidate is taken.
      refine ensures_bind ((findMatches_reads _ _).weaken fun rows moves' hrows => ?_)
      obtain ⟨hmore', hread⟩ := hrows
      cases rows with
      | nil => exact ensures_throw trivial
      | cons entry rows =>
        obtain ⟨move, hmove, hop, row, hrow, rfl, query, hquery, hkey⟩ :=
          hread entry List.mem_cons_self
        obtain rfl := List.mem_singleton.mp hquery
        refine ensures_ret ⟨hmore.trans hmore', move, hmove, hop, row, hrow, rfl, index, candidate,
          hcandidate, .refl index, hkey⟩

end Statements

/-! ### The loop -/

section Loop

variable {input : DedupeArticlesInput} {queries : List ArticleMatchQuery}
    {found : List ArticleMatch}

/-- Something stands behind every outcome that is recorded. -/
def Backed (input : DedupeArticlesInput) (resolved : OrderedMap ℕ ArticleOutcome)
    (moves : List OwnMove) : Prop :=
  ∀ index outcome, resolved.get? index = some outcome → Backs input moves index outcome

theorem Backed.set {resolved : OrderedMap ℕ ArticleOutcome} {moves moves' : List OwnMove}
    {index : ℕ}
    {outcome : ArticleOutcome} (h : Backed input resolved moves) (hmore : moves <+: moves')
    (hbacks : Backs input moves' index outcome) :
      Backed input (resolved.set index outcome) moves' := by
  intro i o hget
  rw [OrderedMap.get?_set] at hget
  by_cases hi : i = index
  · rw [if_pos hi] at hget
    rw [hi, ← Option.some.inj hget]
    exact hbacks
  · rw [if_neg hi] at hget
    exact (h i o hget).mono hmore

theorem persistAll_backs (rest : List ℕ) : rest ⊆ representatives input.candidates →
    ∀ (resolved : OrderedMap ℕ ArticleOutcome) (moves : List OwnMove), Read queries found moves →
      Backed input resolved moves →
      Ensures (Recorded articleStep) (fun _ => True) (fun _ _ => True)
        (persistAll input (knownOf found) rest resolved) moves
        fun resolved' moves' => Backed input resolved' moves' := by
  induction rest with
  | nil => exact fun _ _ _ _ hbacked => ensures_ret hbacked
  | cons index rest ih =>
    intro hsub resolved moves hread hbacked
    obtain ⟨hindex, hrest⟩ := List.cons_subset.mp hsub
    cases hcandidate : input.candidates[index]? with
    | none =>
      simp only [persistAll, hcandidate]
      exact ih hrest resolved moves hread hbacked
    | some candidate =>
      cases hfound : findGroupMatch (knownOf found) (membersOf input.candidates index) with
      | some hit =>
        simp only [persistAll, hcandidate, hfound]
        exact ih hrest _ moves hread
          (hbacked.set List.prefix_rfl (findGroupMatch_saw hread hindex hfound))
      | none =>
        simp only [persistAll, hcandidate, hfound]
        refine ensures_bind ((persistNew_backs hcandidate moves).weaken
          fun outcome moves' hout => ?_)
        exact ih hrest _ moves' (hread.mono hout.1) (hbacked.set hout.1 hout.2)

end Loop

/-! ### The result -/

section Result

variable {duplicates : OrderedMap ℕ InBatchDuplicate} {resolved : OrderedMap ℕ ArticleOutcome}

theorem outcomesFrom_spec (candidates : List ArticleCandidate) :
    ∀ (index : ℕ) (outcomes : List ArticleCandidateOutcome),
      outcomesFrom duplicates resolved index candidates = .ok outcomes →
      outcomes.map (fun o => (o.candidate, o.index)) = candidates.zipIdx index ∧
      ∀ o ∈ outcomes, (∃ d, duplicates.get? o.index = some d ∧ o.outcome = .duplicateInBatch d) ∨
        duplicates.get? o.index = none ∧ resolved.get? o.index = some o.outcome := by
  induction candidates with
  | nil =>
    intro index outcomes h
    obtain rfl := Except.ok.inj h
    simp
  | cons candidate rest ih =>
    intro index outcomes h
    cases hrest : outcomesFrom duplicates resolved (index + 1) rest with
    | error error =>
      cases hdup : duplicates.get? index <;> cases hres : resolved.get? index <;>
        simp [outcomesFrom, hdup, hres, hrest, bind, Except.bind] at h
    | ok later =>
      obtain ⟨hindexed, hall⟩ := ih (index + 1) later hrest
      -- The outcome of the first candidate.
      have hfirst : ∃ outcome, outcomes = ⟨index, candidate, outcome⟩ :: later ∧
          ((∃ d, duplicates.get? index = some d ∧ outcome = .duplicateInBatch d) ∨
            duplicates.get? index = none ∧ resolved.get? index = some outcome) := by
        cases hdup : duplicates.get? index with
        | some d =>
          simp only [outcomesFrom, hdup, hrest, bind, Except.bind, Except.ok.injEq] at h
          exact ⟨_, h.symm, .inl ⟨d, rfl, rfl⟩⟩
        | none =>
          cases hres : resolved.get? index with
          | none => simp [outcomesFrom, hdup, hres, bind, Except.bind] at h
          | some outcome =>
            simp only [outcomesFrom, hdup, hres, hrest, bind, Except.bind, Except.ok.injEq] at h
            exact ⟨outcome, h.symm, .inr ⟨rfl, rfl⟩⟩
      obtain ⟨outcome, rfl, hcase⟩ := hfirst
      refine ⟨?_, fun o ho => ?_⟩
      · rw [List.map_cons, hindexed, List.zipIdx_cons]
      · rcases List.mem_cons.mp ho with rfl | ho
        · exact hcase
        · exact hall o ho

/-- Every outcome is of one of the three kinds. -/
theorem resultOf_counts (outcomes : List ArticleCandidateOutcome) :
    (resultOf outcomes).insertedCount + (resultOf outcomes).existingCount +
      (resultOf outcomes).duplicateInBatchCount = outcomes.length := by
  show outcomes.countP _ + outcomes.countP _ + outcomes.countP _ = _
  induction outcomes with
  | nil => rfl
  | cons o outcomes ih =>
    rw [List.countP_cons, List.countP_cons, List.countP_cons, List.length_cons, ← ih]
    cases h : o.outcome <;>
      simp [ArticleCandidateOutcome.isInserted, ArticleCandidateOutcome.isExisting, h] <;> omega

variable {input : DedupeArticlesInput} {moves : List OwnMove}
    {outcomes : List ArticleCandidateOutcome}

/-- The result of a batch whose recorded outcomes are backed. -/
theorem reports_of_backed (hbacked : Backed input resolved moves)
    (hout : outcomesFrom (collapseInBatchDuplicates input.candidates).duplicates resolved 0
      input.candidates = .ok outcomes) : Reports input moves (resultOf outcomes) := by
  obtain ⟨hordered, hall⟩ := outcomesFrom_spec _ _ _ hout
  obtain ⟨-, -, hnodup, hkeys, hdups, -⟩ := collapse_components input.candidates
  have hcandidate : ∀ o ∈ outcomes, input.candidates[o.index]? = some o.candidate := fun o ho =>
    List.mk_mem_zipIdx_iff_getElem?.mp (hordered ▸ List.mem_map_of_mem ho)
  refine ⟨hordered, ?_, fun o ho => ?_⟩
  · have hlength := congrArg List.length hordered
    rw [List.length_map, List.length_zipIdx] at hlength
    rw [resultOf_counts, hlength]
  · unfold Holds
    rcases hall o ho with ⟨d, hget, hdup⟩ | ⟨-, hget⟩
    · rw [hdup]
      obtain ⟨hrep, -⟩ := hdups o.index d ((OrderedMap.get?_eq_some_iff hnodup).mp hget)
      have hlt := ((mem_representativeIndexes_iff input.candidates _).mp hrep).1
      -- The representative is a candidate, and no duplicate itself.
      have htarget : (input.candidates[d.duplicateOfIndex], d.duplicateOfIndex) ∈
          outcomes.map fun o => (o.candidate, o.index) := by
        rw [hordered, List.mk_mem_zipIdx_iff_getElem?, List.getElem?_eq_getElem hlt]
      obtain ⟨target, hmem, heq⟩ := List.mem_map.mp htarget
      obtain ⟨-, hindex⟩ := Prod.mk.inj heq
      refine ⟨target, hmem, hindex, ?_⟩
      rcases hall target hmem with ⟨d', hget', -⟩ | ⟨-, hget'⟩
      · have hkey := (hkeys target.index).mp (OrderedMap.mem_keys_iff.mpr ⟨d', hget'⟩)
        rw [hindex] at hkey
        exact absurd hrep hkey.2
      · have hbacks := hbacked _ _ hget'
        cases houtcome : target.outcome with
        | inserted article => simp [ArticleCandidateOutcome.isInserted, houtcome]
        | existing reason id => simp [ArticleCandidateOutcome.isExisting, houtcome]
        | duplicateInBatch duplicate =>
          rw [houtcome] at hbacks
          exact hbacks.elim
    · have hbacks := hbacked _ _ hget
      cases houtcome : o.outcome with
      | inserted article =>
        rw [houtcome] at hbacks
        obtain ⟨candidate, hsome, hwrote⟩ := hbacks
        obtain rfl := Option.some.inj ((hcandidate o ho).symm.trans hsome)
        refine ⟨?_, hwrote⟩
        obtain ⟨move, -, -, hinput, -⟩ := hwrote
        rw [Article.identity, hinput]
        rfl
      | existing reason id =>
        rw [houtcome] at hbacks
        exact hbacks
      | duplicateInBatch duplicate =>
        rw [houtcome] at hbacks
        exact hbacks.elim

theorem dedupe_recorded (input : DedupeArticlesInput) :
    Ensures (Recorded articleStep) (fun _ => True) (fun _ _ => True) (dedupeAndPersist input) []
      fun result moves => Reports input moves result := by
  refine ensures_bind ((findMatches_reads _ _).weaken fun found moves hfound => ?_)
  have hnone : Backed input [] moves := fun index outcome hget => by cases hget
  refine ensures_bind ((persistAll_backs _ (List.Subset.refl _) [] moves hfound.2 hnone).weaken
    fun resolved moves' hbacked => ?_)
  refine ensures_bind (ensures_raise (fun outcomes hout => ?_) fun _ _ => trivial)
  exact ensures_ret (reports_of_backed hbacked hout)

/-- What is read or written stays, where rows do. -/
theorem Holds.remains {others : List Article → List Article → Prop} {start s : List Article}
    {o : ArticleCandidateOutcome} (h : Holds input moves outcomes o)
    (hamid : Amid others articleStep start moves s) (hothers : ∀ t u, others t u → t ⊆ u) :
    Remains input s o := by
  have hstep : ∀ row t event u, articleStep t event u → row ∈ t → row ∈ u := by
    intro row t event u hstep hrow
    have hshared : Shared articleStep t (⟨((), event.op), event.answer⟩ : Tagged Unit _ _) u :=
      hstep
    rcases shared_cases hshared with rfl | ⟨i, new, article, -, -, -, rfl⟩
    · exact hrow
    · exact List.mem_append_left _ hrow
  have hlasts : ∀ row, ∀ move ∈ moves, row ∈ move.before ∨ row ∈ move.after → row ∈ s := fun row =>
    (hamid.lasts (fun t u hact hrow => hothers t u hact hrow) (hstep row)).2
  unfold Holds at h
  unfold Remains
  split at h
  · obtain ⟨-, move, hmove, -, -, -, hstored⟩ := h
    exact hlasts _ move hmove (.inr (by simp [hstored]))
  · obtain ⟨move, hmove, -, row, hrow, hnamed⟩ := h
    exact ⟨row, hlasts row move hmove (.inl hrow), hnamed⟩
  · trivial

end Result

/-- **What a batch reports.**  Others may write to the table between any two statements of a call.
When the call returns, there is one outcome for each candidate, in order, and the counts add up.  A
row reported as inserted was stored by this call and has the candidate's keys; a row reported as
existing was read by this call, and shares a key with a member of the candidate's group; a duplicate
points at a candidate whose outcome is one of these.  While the others only add rows, the rows that
are reported are stored when the call returns. -/
theorem dedupe_reports {input : DedupeArticlesInput} {others : List Article → List Article → Prop}
    {start s : List Article} {moves : List OwnMove} {result : DedupeArticlesResult}
    (hamid : Amid others articleStep start moves s)
    (hrun : Run (dedupeAndPersist input) (moves.map Move.event) (.returned result)) :
    Reports input moves result ∧
      ((∀ t u, others t u → t ⊆ u) → ∀ o ∈ result.outcomes, Remains input s o) := by
  have hreports : Reports input moves result := (dedupe_recorded input).amid hamid hrun
  exact ⟨hreports, fun hothers o ho => (hreports.backed o ho).remains hamid hothers⟩

/-- A table to which rivals add rows before an insert. -/
def answerRivals (world : List Article × List Article) (op : ArticleOp) :
    Option (op.Answer × (List Article × List Article)) :=
  let rivals := match op with
    | .findMatches _ => []
    | .insert _ => world.2
  (answerArticle (world.1 ++ rivals) op).map fun answered => (answered.1, answered.2, world.2)

/-- One call while the rivals add to the table. -/
def RivalStep (world : List Article × List Article) (event : Event ArticleOp ArticleOp.Answer)
    (world' : List Article × List Article) : Prop :=
  ∃ u, world.1 ⊆ u ∧ articleStep u event world'.1

theorem articleStep_rivals {world world' : List Article × List Article} {op : ArticleOp}
    {answer : op.Answer} (h : answerRivals world op = some (answer, world')) :
    RivalStep world ⟨op, answer⟩ world' := by
  obtain ⟨answered, hanswered, heq⟩ := Option.map_eq_some_iff.mp h
  obtain ⟨rfl, rfl⟩ := Prod.mk.inj heq
  exact ⟨_, List.subset_append_left _ _, articleStep_answer hanswered⟩

/-- A candidate whose URL a rival stores after the lookup. -/
theorem dedupe_reports_race : ∃ moves,
    Reports (batchOf [entry (lit "a") (lit "1")]) moves
      ⟨[⟨0, entry (lit "a") (lit "1"), .existing .race (lit "r")⟩], 0, 1, 0⟩ := by
  have hwhole : ∀ world op answer world', answerRivals world op = some (answer, world') →
      RivalStep world ⟨op, answer⟩ world' := fun _ _ _ _ => articleStep_rivals
  have hview : ∀ world event world', RivalStep world event world' →
      ∃ u, world.1 ⊆ u ∧ articleStep u event world'.1 := fun _ _ _ hstep => hstep
  have hsteps :=
    steps_play answerRivals id hwhole (dedupeAndPersist (batchOf [entry (lit "a") (lit "1")]))
    ([], [⟨toNewArticle (entry (lit "a") (lit "1")) (lit "other") 0, lit "r"⟩])
  obtain ⟨moves, hmoves, hamid⟩ := amid_of_steps Prod.fst hview hsteps
  have hrun := run_play answerRivals (dedupeAndPersist (batchOf [entry (lit "a") (lit "1")]))
    ([], [⟨toNewArticle (entry (lit "a") (lit "1")) (lit "other") 0, lit "r"⟩])
  rw [← hmoves] at hrun
  exact ⟨moves, (dedupe_reports hamid hrun).1⟩

end Newsdeck.Worker
