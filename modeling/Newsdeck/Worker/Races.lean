import Newsdeck.Library.Interleaving
import Newsdeck.Library.Precedence
import Newsdeck.Worker.Batches

/-!
# Batches ingested side by side

Calls of `dedupeAndPersist` share one database, and their statements interleave in any order.  The
database keeps the canonical URLs apart.  The content hash is only looked up, once, before the first
write.

* `insert_looked_up` — what a call inserts was asked for in its lookup, and not found;
* `dedupe_fresh` — it is a candidate of the call's, and no other row that the call inserts has its
  hash;
* `Undisturbed` — between a call's lookup and its write, no other call stored a row with the content
  hash;
* `undisturbed_of_disjoint` — so it is for batches without a content hash in common;
* `concurrent_distinct` — the content hashes stay distinct exactly in the runs that are undisturbed;
* `concurrent_twins` — two calls that look first and write then store a hash twice.
-/

namespace Newsdeck.Worker

open Ecma Effects Database

variable {ι : Type}

abbrev RaceMove (ι : Type) := Move (List Article) (ι × ArticleOp) (TaggedAns ι ArticleOp.Answer)

/-! ### What a call inserts -/

section Runs

variable {input : DedupeArticlesInput} {queries : List ArticleMatchQuery}
    {found : List ArticleMatch}

/-- An article to insert was asked for, and no match has its content hash. -/
def Missing (queries : List ArticleMatchQuery) (found : List ArticleMatch)
    (op : ArticleOp) : Prop :=
  ∀ new, op = .insert new → new.contentHash ∈ queries.map ArticleMatchQuery.contentHash ∧
    ∀ entry ∈ found, entry.contentHash ≠ new.contentHash

theorem findMatches_missing (asked : List ArticleMatchQuery) :
    (findMatches asked).Emits (Missing queries found) := by
  unfold findMatches
  split
  · trivial
  · exact ⟨fun new hnew => (by cases hnew), fun answer => Prog.emits_raise answer⟩

theorem persistNew_missing {candidate : ArticleCandidate} (hasked : toQuery candidate ∈ queries)
    (hnone : findMatch (knownOf found) candidate = none) :
    (persistNew candidate input).Emits (Missing queries found) := by
  have hmissing : Missing queries found
      (.insert (toNewArticle candidate input.sourceId input.fetchedAt)) := by
    intro new hnew
    cases hnew
    refine ⟨List.mem_map_of_mem hasked, fun entry hentry heq => ?_⟩
    exact (findMatch_eq_none_iff candidate).mp hnone entry hentry (.inr heq)
  refine Prog.emits_bind (Prog.emits_attempt ⟨hmissing, fun answer => Prog.emits_raise answer⟩) ?_
  intro written
  cases written with
  | ok article => trivial
  | error error =>
    show Prog.Emits _ (if _ then _ else _)
    split
    · trivial
    · refine Prog.emits_bind (findMatches_missing _) fun rows => ?_
      cases rows <;> trivial

theorem persistAll_missing
    (hasked : ∀ r ∈ representatives input.candidates, ∀ c ∈ membersOf input.candidates r,
      toQuery c ∈ queries)
    (rest : List ℕ) : rest ⊆ representatives input.candidates →
      ∀ resolved, (persistAll input (knownOf found) rest resolved).Emits
        (Missing queries found) := by
  induction rest with
  | nil => exact fun _ _ => trivial
  | cons index rest ih =>
    intro hsub resolved
    obtain ⟨hindex, hrest⟩ := List.cons_subset.mp hsub
    cases hcandidate : input.candidates[index]? with
    | none =>
      simp only [persistAll, hcandidate]
      exact ih hrest resolved
    | some candidate =>
      have hself : candidate ∈ membersOf input.candidates index :=
        (mem_membersOf_iff hindex).mpr ⟨index, hcandidate, .refl index⟩
      cases hfound : findGroupMatch (knownOf found) (membersOf input.candidates index) with
      | some found =>
        simp only [persistAll, hcandidate, hfound]
        exact ih hrest _
      | none =>
        have hnone := List.findSome?_eq_none_iff.mp hfound candidate hself
        simp only [persistAll, hcandidate, hfound]
        exact Prog.emits_bind (persistNew_missing (hasked index hindex candidate hself) hnone)
          fun outcome => ih hrest _

/-- A call looks up what it inserts, and does not find the content hash. -/
theorem insert_looked_up {trace before after : List ArticleEvent}
    {outcome : Outcome DbError DedupeArticlesResult} {new : NewArticle}
    {answer : ArticleOp.Answer (.insert new)} (h : Run (dedupeAndPersist input) trace outcome)
    (htrace : trace = before ++ ⟨.insert new, answer⟩ :: after) :
    ∃ queries found rest, before = ⟨.findMatches queries, .ok found⟩ :: rest ∧
      Missing queries found (.insert new) := by
  obtain ⟨queries, hqueries⟩ : ∃ queries, queries = (representatives input.candidates).flatMap
    fun index => (membersOf input.candidates index).map toQuery := ⟨_, rfl⟩
  -- What follows the lookup.
  have hemits : ∀ found, (do
      let resolved ← persistAll input (knownOf found) (representatives input.candidates) []
      let outcomes ← Prog.raise
        (outcomesFrom (collapseInBatchDuplicates input.candidates).duplicates
        resolved 0 input.candidates)
      .ret (resultOf outcomes) : ArticleAction DedupeArticlesResult).Emits
        (Missing queries found) := by
    intro found
    refine Prog.emits_bind (persistAll_missing (fun r hr c hc => ?_) _ (List.Subset.refl _) [])
      fun resolved => Prog.emits_bind (Prog.emits_raise _) fun outcomes => trivial
    rw [hqueries]
    exact List.mem_flatMap.mpr ⟨r, hr, List.mem_map_of_mem hc⟩
  unfold dedupeAndPersist at h
  rw [← hqueries] at h
  by_cases hempty : queries.length = 0
  · rw [findMatches, if_pos hempty] at h
    have hmissing := run_emits h (hemits []) ⟨.insert new, answer⟩ (by simp [htrace]) new rfl
    rw [List.length_eq_zero_iff.mp hempty] at hmissing
    simp at hmissing
  · rw [findMatches, if_neg hempty] at h
    generalize hgiven : trace = given at h
    cases h with
    | interrupt => simp [htrace] at hgiven
    | call _ _ found later _ rest =>
      rw [htrace] at hgiven
      cases before with
      | nil => cases (List.cons.inj hgiven).1
      | cons first before =>
        obtain ⟨rfl, hlater⟩ := List.cons.inj hgiven
        cases found with
        | error error =>
          cases rest
          simp at hlater
        | ok found =>
          refine ⟨queries, found, before, rfl, ?_⟩
          exact run_emits rest (hemits found) ⟨.insert new, answer⟩ (by simp [← hlater])

/-- The row belongs to a candidate, and the call has inserted no other with its content hash. -/
def Fresh (candidates : List ArticleCandidate) (log : List ArticleEvent) (op : ArticleOp) : Prop :=
  ∀ new, op = .insert new → (∃ candidate ∈ candidates, candidate.contentHash = new.contentHash) ∧
    ∀ event ∈ log, ∀ other, event.op = .insert other → other.contentHash ≠ new.contentHash

/-- The rows inserted so far are those of representatives that are done. -/
def InsertedFrom (candidates : List ArticleCandidate) (done : List ℕ)
    (log : List ArticleEvent) : Prop :=
  ∀ event ∈ log, ∀ new, event.op = .insert new →
    ∃ r ∈ done, ∃ candidate, candidates[r]? = some candidate ∧
      candidate.contentHash = new.contentHash

section Fresh

variable {candidates : List ArticleCandidate} {done rest : List ℕ} {log : List ArticleEvent}
    {index : ℕ}
  {candidate : ArticleCandidate}

theorem fresh_findMatches (queries : List ArticleMatchQuery) :
    Fresh candidates log (.findMatches queries) := fun _ h => by cases h

theorem InsertedFrom.looked (h : InsertedFrom candidates done log)
    (queries : List ArticleMatchQuery) (answer : ArticleOp.Answer (.findMatches queries)) :
    InsertedFrom candidates done (log ++ [⟨.findMatches queries, answer⟩]) := by
  intro event hevent new hop
  rcases List.mem_append.mp hevent with hold | hlast
  · exact h event hold new hop
  · rw [List.mem_singleton.mp hlast] at hop
    cases hop

theorem InsertedFrom.mono (h : InsertedFrom candidates done log) :
    InsertedFrom candidates (done ++ [index]) log := fun event hevent new hop =>
  (h event hevent new hop).imp fun _ hr => ⟨List.mem_append_left _ hr.1, hr.2⟩

/-- A representative shares no content hash with those before it. -/
theorem persistNew_fresh (hall : representatives candidates = done ++ index :: rest)
    (hcandidate : candidates[index]? = some candidate) (hdone : InsertedFrom candidates done log) :
    Heeds (Fresh candidates) (fun _ _ => True) log (persistNew candidate input)
      fun _ log => InsertedFrom candidates (done ++ [index]) log := by
  obtain ⟨new, hnew⟩ : ∃ new, new = toNewArticle candidate input.sourceId input.fetchedAt :=
    ⟨_, rfl⟩
  have hhash : candidate.contentHash = new.contentHash := by rw [hnew]; rfl
  have hself : ∀ {r c}, r ∈ representatives candidates → candidates[r]? = some c →
      c ∈ membersOf candidates r := fun hr hc => (mem_membersOf_iff hr).mpr ⟨_, hc, .refl _⟩
  have hfresh : Fresh candidates log (.insert new) := by
    rintro _ ⟨⟩
    refine ⟨⟨candidate, List.mem_of_getElem? hcandidate, hhash⟩,
      fun event hevent other hop heq => ?_⟩
    obtain ⟨r, hr, earlier, hearlier, hother⟩ := hdone event hevent other hop
    have hr' : r ∈ representatives candidates := by simp [hall, hr]
    have hindex : index ∈ representatives candidates := by simp [hall]
    have hsame : r = index := apart hr' hindex (hself hr' hearlier) (hself hindex hcandidate)
      (.inr (hother.trans (heq.trans hhash.symm)))
    have hnodup : (representatives candidates).Nodup := nodup_representatives
    rw [hall] at hnodup
    exact (List.nodup_append.mp hnodup).2.2 r hr index List.mem_cons_self hsame
  have hlog : ∀ answer, InsertedFrom candidates (done ++ [index])
      (log ++ [⟨.insert new, answer⟩]) := by
    intro answer event hevent other hop
    rcases List.mem_append.mp hevent with hold | hlast
    · exact hdone.mono event hold other hop
    · rw [List.mem_singleton.mp hlast] at hop
      cases hop
      exact ⟨index, by simp, candidate, hcandidate, hhash⟩
  unfold persistNew insert
  rw [← hnew]
  refine ⟨hfresh, fun answer => ?_⟩
  cases answer with
  | ok article => exact hlog _
  | error error =>
    show Heeds _ _ _ (if _ then _ else _) _
    split
    · trivial
    · refine ⟨fresh_findMatches _, fun found => ?_⟩
      cases found with
      | error error => trivial
      | ok rows =>
        cases rows with
        | nil => trivial
        | cons row rows => exact (hlog _).looked _ _

theorem persistAll_fresh {known : Known} (rest : List ℕ) : ∀ done log resolved,
    representatives input.candidates = done ++ rest → InsertedFrom input.candidates done log →
      Heeds (Fresh input.candidates) (fun _ _ => True) log (persistAll input known rest resolved)
        fun _ _ => True := by
  induction rest with
  | nil => exact fun _ _ _ _ _ => trivial
  | cons index rest ih =>
    intro done log resolved hall hdone
    have hnext : representatives input.candidates = (done ++ [index]) ++ rest := by simp [hall]
    cases hcandidate : input.candidates[index]? with
    | none =>
      simp only [persistAll, hcandidate]
      exact ih _ log resolved hnext hdone.mono
    | some candidate =>
      cases hfound : findGroupMatch known (membersOf input.candidates index) with
      | some found =>
        simp only [persistAll, hcandidate, hfound]
        exact ih _ log _ hnext hdone.mono
      | none =>
        simp only [persistAll, hcandidate, hfound]
        refine heeds_bind ((persistNew_fresh hall hcandidate hdone).mono ?_ fun _ _ h => h)
        exact fun outcome log hinserted => ih _ log _ hnext hinserted

/-- What a call inserts belongs to a candidate, and has a content hash of its own. -/
theorem dedupe_fresh (input : DedupeArticlesInput) :
    EmitsAfter (Fresh input.candidates) [] (dedupeAndPersist input) := by
  have hlater : ∀ log found, InsertedFrom input.candidates [] log →
      Heeds (Fresh input.candidates) (fun _ _ => True) log (do
        let resolved ← persistAll input (knownOf found) (representatives input.candidates) []
        let outcomes ← Prog.raise
          (outcomesFrom (collapseInBatchDuplicates input.candidates).duplicates
          resolved 0 input.candidates)
        .ret (resultOf outcomes) : ArticleAction DedupeArticlesResult) fun _ _ => True := by
    intro log found hlog
    refine heeds_bind ((persistAll_fresh _ [] log [] rfl hlog).mono ?_ fun _ _ h => h)
    exact fun resolved log _ => heeds_bind (heeds_raise (fun _ _ => trivial) fun _ _ => trivial)
  have hstart : InsertedFrom input.candidates [] [] := fun _ h => absurd h List.not_mem_nil
  have hheeds : Heeds (Fresh input.candidates) (fun _ _ => True) [] (dedupeAndPersist input)
      fun _ _ => True := by
    unfold dedupeAndPersist findMatches
    refine heeds_bind ?_
    split
    · exact hlater [] [] hstart
    · refine ⟨fresh_findMatches _, fun answer => ?_⟩
      cases answer with
      | error error => trivial
      | ok found => exact hlater _ found (hstart.looked _ _)
  exact hheeds.emitsAfter

end Fresh

end Runs

/-! ### The database -/

section Walks

variable {start s t : List Article} {moves before after : List (RaceMove ι)} {move : RaceMove ι}
  {event : Tagged ι ArticleOp ArticleOp.Answer}

/-- A statement stores the row of an insert, or changes nothing. -/
theorem shared_cases (h : Shared articleStep s event t) :
    t = s ∨ ∃ i new article, event.op = (i, .insert new) ∧ Stores new article s t := by
  obtain ⟨⟨i, op⟩, answer⟩ := event
  cases op with
  | findMatches queries => exact .inl h.2
  | insert new =>
    cases answer with
    | ok article => exact .inr ⟨i, new, article, rfl, h⟩
    | error error =>
      by_cases hconflict : isCanonicalUrlConflict error = true
      · simp only [Shared, articleStep, if_pos hconflict] at h
        exact .inl h.2
      · simp only [Shared, articleStep, if_neg hconflict] at h
        rcases h with rfl | ⟨article, harticle⟩
        · exact .inl rfl
        · exact .inr ⟨i, new, article, rfl, harticle⟩

theorem walk_grows (h : Walk (Shared articleStep) start moves s) : start <+: s := by
  refine walk_keeps (start <+: ·) h List.prefix_rfl fun _ m _ _ hbefore hstep => ?_
  rcases shared_cases hstep with hsame | ⟨i, new, article, -, -, -, hstored⟩
  · rwa [hsame]
  · rw [hstored]
    exact hbefore.trans (List.prefix_append _ _)

/-- Where the rows come from. -/
theorem mem_walk (h : Walk (Shared articleStep) start moves s) :
    ∀ row ∈ s, row ∈ start ∨ ∃ m ∈ moves, m.after = m.before ++ [row] := by
  induction h with
  | nil => exact fun row hrow => .inl hrow
  | @snoc moves s walked event t last ih =>
    have hbefore : ∀ row ∈ s, row ∈ start ∨
        ∃ m ∈ moves ++ [⟨s, event, t⟩], m.after = m.before ++ [row] := fun row hrow =>
      (ih row hrow).imp_right fun ⟨m, hm, hstored⟩ => ⟨m, List.mem_append_left _ hm, hstored⟩
    rcases shared_cases last with rfl | ⟨i, new, article, -, -, -, rfl⟩
    · exact hbefore
    · intro row hrow
      rcases List.mem_append.mp hrow with hrow | hrow
      · exact hbefore row hrow
      · obtain rfl := List.mem_singleton.mp hrow
        exact .inr ⟨⟨s, event, s ++ [row]⟩, by simp, rfl⟩

theorem nodup_store_iff (key : Article → Text) (row : Article) : ((s ++ [row]).map key).Nodup ↔
    (s.map key).Nodup ∧ ∀ other ∈ s, key other ≠ key row := by
  rw [List.map_append, List.map_singleton, List.nodup_append_comm, List.singleton_append,
    List.nodup_cons, and_comm]
  refine and_congr_right fun _ => ?_
  rw [List.mem_map]
  push Not
  exact Iff.rfl

/-- The index keeps the canonical URLs distinct. -/
theorem shared_urls (h : Shared articleStep s event t)
    (hs : (s.map fun row => row.canonicalUrl).Nodup) :
      (t.map fun row => row.canonicalUrl).Nodup := by
  rcases shared_cases h with rfl | ⟨i, new, article, -, hinput, hfresh, rfl⟩
  · exact hs
  · refine (nodup_store_iff _ article).mpr ⟨hs, ?_⟩
    subst hinput
    exact hfresh

variable [DecidableEq ι]

/-- What happened since the call's first statement, its lookup. -/
def sinceLookup (i : ι) (moves : List (RaceMove ι)) : List (RaceMove ι) :=
  moves.dropWhile fun m => m.event.op.1 ≠ i

/-- Whenever a call stores a row, no other call has stored a row with its content hash since the
call's lookup. -/
def Undisturbed (moves : List (RaceMove ι)) : Prop :=
  ∀ before move after i new, moves = before ++ move :: after → move.event.op = (i, .insert new) →
    move.after ≠ move.before → ∀ m ∈ sinceLookup i before, m.event.op.1 ≠ i →
      ∀ row, m.after = m.before ++ [row] → row.contentHash ≠ new.contentHash

variable {calls : ι → DedupeArticlesInput}

/-- The lookup of a call, before a write of its own. -/
theorem lookup_before {i : ι} {new : NewArticle}
    (hcalls : Interleaved (fun i => dedupeAndPersist (calls i)) (moves.map Move.event))
    (hmoves : moves = before ++ move :: after) (hop : move.event.op = (i, .insert new)) :
    ∃ earlier lookup later queries found, before = earlier ++ lookup :: later ∧
      sinceLookup i before = lookup :: later ∧
      lookup.event = ⟨(i, .findMatches queries), .ok found⟩ ∧
      Missing queries found (.insert new) := by
  obtain ⟨s, ⟨op, answer⟩, t⟩ := move
  obtain rfl : op = (i, .insert new) := hop
  rw [hmoves, List.map_append, List.map_cons] at hcalls
  obtain ⟨outcome, hrun⟩ := interleaved_split hcalls
  obtain ⟨queries, found, rest, hown, hmissing⟩ := insert_looked_up hrun rfl
  obtain ⟨events, events', hevents, hothers, -⟩ := own_first hown
  obtain ⟨earlier, tail, rfl, hearlier, htail⟩ := List.map_eq_append_iff.mp hevents
  obtain ⟨lookup, later, rfl, hlookup, -⟩ := List.map_eq_cons_iff.mp htail
  refine ⟨earlier, lookup, later, queries, found, rfl, ?_, hlookup, hmissing⟩
  have hskip : ∀ m ∈ earlier, (decide (m.event.op.1 ≠ i)) = true := fun m hm =>
    decide_eq_true (hothers m.event (hearlier ▸ List.mem_map_of_mem hm))
  have hfirst : decide (lookup.event.op.1 ≠ i) = false := by simp [hlookup]
  unfold sinceLookup
  rw [List.dropWhile_append_of_pos hskip, List.dropWhile_cons_of_neg (by simp [hfirst])]

omit [DecidableEq ι] in
/-- What a statement stores is what its call inserts. -/
theorem stored_inserts (hwalk : Walk (Shared articleStep) start moves s) (hmove : move ∈ moves)
    {row : Article} (hrow : move.after = move.before ++ [row]) :
    ∃ new, move.event.op.2 = .insert new ∧ row.contentHash = new.contentHash := by
  obtain ⟨before, after, hmoves⟩ := List.append_of_mem hmove
  rcases shared_cases (walk_split hwalk hmoves).2 with
    hsame | ⟨i, new, article, hop, hinput, -, hstored⟩
  · rw [hsame] at hrow
    simp at hrow
  · obtain rfl : article = row := by
      simpa using List.append_cancel_left (hstored.symm.trans hrow)
    exact ⟨new, by rw [hop], by rw [← hinput]⟩

/-- What a call inserts at a point of the run. -/
theorem fresh_in {i : ι} {new : NewArticle}
    (hcalls : Interleaved (fun i => dedupeAndPersist (calls i)) (moves.map Move.event))
    (hmoves : moves = before ++ move :: after) (hop : move.event.op = (i, .insert new)) :
    Fresh (calls i).candidates ((before.map Move.event).filterMap (own i)) (.insert new) := by
  obtain ⟨s, ⟨op, answer⟩, t⟩ := move
  obtain rfl : op = (i, .insert new) := hop
  rw [hmoves, List.map_append, List.map_cons] at hcalls
  exact interleaved_emitsAfter hcalls (dedupe_fresh _)

/-- **Side by side.**  However the statements of the calls interleave, the canonical URLs stay
distinct.  The content hashes do exactly when no call stores a row whose hash another call has
stored since its lookup. -/
theorem concurrent_distinct (hstart : Distinct start)
    (hwalk : Walk (Shared articleStep) start moves s)
    (hcalls : Interleaved (fun i => dedupeAndPersist (calls i)) (moves.map Move.event)) :
    (∀ move ∈ moves, (move.after.map fun row => row.canonicalUrl).Nodup) ∧
    ((∀ move ∈ moves, (move.after.map fun row => row.contentHash).Nodup) ↔ Undisturbed moves) := by
  refine ⟨fun move hmove => ?_, fun hdistinct => ?_, fun hundisturbed move hmove => ?_⟩
  · exact (walk_always (fun s => (s.map fun row => row.canonicalUrl).Nodup) hwalk hstart.urls
      (fun _ _ _ _ hs hstep => shared_urls hstep hs) move hmove).2
  · intro before move after i new hmoves hop hchanged m hm _ row hrow heq
    obtain ⟨earlier, later, rfl⟩ := List.append_of_mem ((List.dropWhile_sublist _).subset hm)
    obtain ⟨hbefore, hstep⟩ := walk_split hwalk hmoves
    rcases shared_cases hstep with hsame | ⟨j, new', article, hop', hinput, -, hstored⟩
    · exact hchanged hsame
    · obtain ⟨rfl, hnew⟩ := Prod.mk.inj (hop.symm.trans hop')
      cases hnew
      have hmem : row ∈ move.before := (walk_grows (walk_from hbefore)).subset (by simp [hrow])
      have hnodup := hdistinct move (by simp [hmoves])
      rw [hstored, nodup_store_iff] at hnodup
      subst hinput
      exact hnodup.2 row hmem heq
  · refine (walk_always (fun s => (s.map fun row => row.contentHash).Nodup) hwalk hstart.hashes
      (fun before move after hmoves hs hstep => ?_) move hmove).2
    rcases shared_cases hstep with hsame | ⟨i, new, article, hop, hinput, hfresh, hstored⟩
    · rwa [hsame]
    · obtain ⟨earlier, lookup, later, queries, found, rfl, hsince, hlookup, hmissing⟩ :=
        lookup_before hcalls hmoves hop
      obtain ⟨hasked, hnone⟩ := hmissing new rfl
      obtain ⟨hbefore, -⟩ := walk_split hwalk hmoves
      have hread : Shared articleStep lookup.before lookup.event lookup.after :=
        (walk_split hbefore rfl).2
      rw [hlookup] at hread
      obtain ⟨hfound, hsame⟩ := hread
      have hchanged : move.after ≠ move.before := by simp [hstored]
      rw [hstored, nodup_store_iff]
      refine ⟨hs, fun row hrow heq => ?_⟩
      subst hinput
      rcases mem_walk (walk_from hbefore) row hrow with hold | ⟨m, hm, hnew⟩
      · -- A row that was there at the lookup would have been found.
        rw [hsame] at hold
        obtain ⟨query, hquery, hhash⟩ := List.mem_map.mp hasked
        have hselected : row ∈ selectMatches queries lookup.before :=
          (mem_selectMatches_iff row).mpr ⟨hold, query, hquery, .inr (hhash.trans heq.symm)⟩
        have hentry := (hfound found rfl).mem_iff.mpr
          (List.mem_map_of_mem (f := Article.toMatch) hselected)
        exact hnone _ hentry heq
      · have hmem : m ∈ sinceLookup i (earlier ++ lookup :: later) := by
          rw [hsince]
          exact List.mem_cons_of_mem _ hm
        by_cases hother : m.event.op.1 = i
        · -- Of its own rows, each has another hash.
          have hbetween : m ∈ earlier ++ lookup :: later := by simp [hm]
          obtain ⟨other, hinsert, hhash⟩ := stored_inserts hbefore hbetween hnew
          have hown : own i m.event = some ⟨m.event.op.2, m.event.answer⟩ := if_pos hother
          have hlog := List.mem_filterMap.mpr ⟨m.event, List.mem_map_of_mem hbetween, hown⟩
          exact (fresh_in hcalls hmoves hop _ rfl).2 _ hlog other hinsert (hhash.symm.trans heq)
        · exact hundisturbed _ _ _ i _ hmoves hop hchanged m hmem hother row hnew heq

/-- Batches without a content hash in common do not disturb each other. -/
theorem undisturbed_of_disjoint (hwalk : Walk (Shared articleStep) start moves s)
    (hcalls : Interleaved (fun i => dedupeAndPersist (calls i)) (moves.map Move.event))
    (hdisjoint : ∀ i j, i ≠ j → ∀ a ∈ (calls i).candidates, ∀ b ∈ (calls j).candidates,
      a.contentHash ≠ b.contentHash) : Undisturbed moves := by
  intro before move after i new hmoves hop _ m hm hother row hrow heq
  obtain ⟨earlier, later, hbefore⟩ := List.append_of_mem ((List.dropWhile_sublist _).subset hm)
  have hsplit : moves = earlier ++ m :: (later ++ move :: after) := by simp [hmoves, hbefore]
  obtain ⟨stored, hinsert, hhash⟩ := stored_inserts hwalk (by simp [hsplit]) hrow
  obtain ⟨⟨a, ha, hnew⟩, -⟩ := fresh_in hcalls hmoves hop _ rfl
  obtain ⟨⟨b, hb, hstored⟩, -⟩ := fresh_in hcalls hsplit (Prod.ext rfl hinsert) _ rfl
  exact hdisjoint i _ (Ne.symm hother) a ha b hb
    (hnew.trans (heq.symm.trans (hhash.trans hstored.symm)))

end Walks

/-- The same article under two URLs, in two feeds. -/
def twins : Bool → DedupeArticlesInput
  | false => batchOf [entry (lit "a") (lit "1")]
  | true => batchOf [entry (lit "b") (lit "1")]

/-- Two calls of which one is at its end before the other begins. -/
theorem concurrent_distinct_turns :
    Undisturbed (schedule answerArticle [false, false, true, true]
      (fun i => dedupeAndPersist (twins i)) []).1 := by
  have hstart : Distinct [] := ⟨List.nodup_nil, List.nodup_nil⟩
  refine (concurrent_distinct hstart
    (walk_schedule answerArticle _ (fun _ _ _ _ => articleStep_answer) _ _)
    (interleaved_schedule answerArticle _ _ _)).2.mp ?_
  decide +kernel

/-- Two calls that look first, and then write. -/
theorem concurrent_twins : ∃ (calls : Bool → DedupeArticlesInput) (moves : List (RaceMove Bool))
    (s : List Article), Walk (Shared articleStep) [] moves s ∧
      Interleaved (fun i => dedupeAndPersist (calls i)) (moves.map Move.event) ∧
      ¬ (s.map fun row => row.contentHash).Nodup := by
  refine ⟨twins, _, _, walk_schedule answerArticle [false, true, false, true]
    (fun _ _ _ _ => articleStep_answer) _ _, interleaved_schedule answerArticle _ _ _, ?_⟩
  decide +kernel

end Newsdeck.Worker
