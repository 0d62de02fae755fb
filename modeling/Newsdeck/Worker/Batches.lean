import Newsdeck.Library.Histories
import Newsdeck.Worker.Matching

/-!
# Batches ingested one after the other

Wherever a run of `dedupeAndPersist` ends, the store has taken up the groups of the batch up to some
point: the leader of each that was unknown when the run began is stored.

* `Took` — what the store has taken up since a run began;
* `persistNew_took`, `persistAll_took`, `dedupe_took` — a write, the loop, a run;
* `dedupe_sequential` — over any calls made one after the other the keys stay unique, a batch that
  succeeded adds nothing when it comes again, and one that is tried again after failures leaves the
  rows of a single run.
-/

namespace Newsdeck.Worker

open Ecma Effects Database Absorption

/-- The store has grown by the leaders of the groups that were unknown. -/
structure Took (start : List Article) (done : List (Cluster Identity)) (s : List Article) : Prop where
  grown : start <+: s
  keys : identities s = absorb Touches (identities start) done

/-- The store has taken up the groups of the batch up to some point. -/
def Partly (candidates : List ArticleCandidate) (start s : List Article) : Prop :=
  ∃ done, done <+: groupsOf candidates ∧ Took start done s

section Took

variable {input : DedupeArticlesInput} {candidate : ArticleCandidate} {start s t : List Article}
  {done : List (Cluster Identity)} {g : Cluster Identity}

theorem took_nil : Took start [] start := ⟨List.prefix_rfl, absorb_nil.symm⟩

/-- A group that was known adds nothing. -/
theorem Took.skip (h : Took start done s) (hknown : ¬ Unknown Touches (identities start) g) :
    Took start (done ++ [g]) s where
  grown := h.grown
  keys := by rw [absorb_snoc, if_neg hknown, List.append_nil, h.keys]

/-- Of a group that was unknown the leader is stored. -/
theorem Took.store {article : Article} (h : Took start done s)
    (hunknown : Unknown Touches (identities start) g) (hleader : article.identity = g.leader) :
    Took start (done ++ [g]) (s ++ [article]) where
  grown := h.grown.trans (List.prefix_append _ _)
  keys := by
    rw [absorb_snoc, if_pos hunknown, ← h.keys, ← hleader]
    exact List.map_append

/-- No row has the canonical URL of the leader of a group that is new. -/
theorem Took.fresh (h : Took start done s) (hunknown : Unknown Touches (identities start) g)
    (hapart : ∀ d ∈ done, Apart Touches d g) :
    ∀ row ∈ s, row.canonicalUrl ≠ g.leader.1 := by
  intro row hrow heq
  have hstill : Unknown Touches (identities s) g := by
    rw [h.keys]
    exact (unknown_absorb_iff hapart).mpr hunknown
  exact hstill _ List.mem_cons_self _ (List.mem_map_of_mem hrow) (.inl heq)

/-! ### A run -/

theorem findMatches_spec (queries : List ArticleMatchQuery) :
    Ensures articleStep (· = s) (fun _ t => t = s) (findMatches queries) s fun found t =>
      t = s ∧ found.Perm ((selectMatches queries s).map Article.toMatch) := by
  unfold findMatches
  split
  · rename_i hempty
    obtain rfl := List.length_eq_zero_iff.mp hempty
    exact ensures_ret ⟨rfl, by simp [selectMatches]⟩
  · refine ensures_call rfl fun answer s' hstep => ?_
    obtain ⟨hfound, rfl⟩ := hstep
    exact ensures_raise (fun found hok => ⟨rfl, hfound found hok⟩) fun _ _ => rfl

/-- A new group is stored, and no race is lost while no one else writes. -/
theorem persistNew_took (htook : Took start done s) (hleader : g.leader = candidate.identity)
    (hunknown : Unknown Touches (identities start) g) (hapart : ∀ d ∈ done, Apart Touches d g) :
    Ensures articleStep (fun t => Took start done t ∨ Took start (done ++ [g]) t)
      (fun _ t => Took start done t ∨ Took start (done ++ [g]) t) (persistNew candidate input) s
      fun _ t => Took start (done ++ [g]) t := by
  have hfresh := htook.fresh hunknown hapart
  rw [hleader] at hfresh
  have hstored : ∀ article t, Stores (toNewArticle candidate input.sourceId input.fetchedAt) article s t →
      Took start (done ++ [g]) t := by
    rintro article t ⟨hinput, -, rfl⟩
    refine htook.store hunknown ?_
    rw [hleader, Article.identity, hinput]
    rfl
  refine ensures_bind (ensures_attempt (ensures_call (.inl htook) fun answer t hstep => ?_))
  cases answer with
  | ok article => exact ensures_ret (ensures_ret (hstored article t hstep))
  | error error =>
    refine ensures_throw ?_
    show Ensures _ _ _ (if _ then _ else _) _ _
    by_cases hconflict : isCanonicalUrlConflict error = true
    · obtain ⟨⟨row, hrow, heq⟩, -⟩ := (if_pos hconflict).mp hstep
      exact absurd heq (hfresh row hrow)
    · have hstep' : t = s ∨ ∃ article,
          Stores (toNewArticle candidate input.sourceId input.fetchedAt) article s t := by
        simpa only [articleStep, if_neg hconflict] using hstep
      rw [if_pos (by simpa using hconflict)]
      refine ensures_throw ?_
      rcases hstep' with rfl | ⟨article, harticle⟩
      · exact .inl htook
      · exact .inr (hstored article t harticle)

/-- The representatives from some point on. -/
theorem persistAll_took {known : Known}
    (hknown : ∀ r ∈ representatives input.candidates, ∀ g, groupOf input.candidates r = some g →
      (findGroupMatch known (membersOf input.candidates r) = none ↔
        Unknown Touches (identities start) g))
    (rest : List ℕ) : ∀ (earlier : List ℕ) (resolved : OrderedMap ℕ ArticleOutcome) (s : List Article),
      representatives input.candidates = earlier ++ rest →
      Took start (earlier.filterMap (groupOf input.candidates)) s →
      Ensures articleStep (Partly input.candidates start)
        (fun _ => Partly input.candidates start) (persistAll input known rest resolved) s
        fun _ => Took start (groupsOf input.candidates) := by
  induction rest with
  | nil =>
    intro earlier resolved s hall htook
    rw [List.append_nil] at hall
    refine ensures_ret ?_
    unfold groupsOf
    rwa [hall]
  | cons index rest ih =>
    intro earlier resolved s hall htook
    have hnext : representatives input.candidates = (earlier ++ [index]) ++ rest := by
      rw [hall, List.append_assoc, List.singleton_append]
    have hmem : index ∈ representatives input.candidates := by simp [hall]
    have hgroups : groupsOf input.candidates = earlier.filterMap (groupOf input.candidates) ++
        (index :: rest).filterMap (groupOf input.candidates) := by
      unfold groupsOf
      rw [hall, List.filterMap_append]
    cases hcandidate : input.candidates[index]? with
    | none =>
      have hnone : groupOf input.candidates index = none := by simp [groupOf, hcandidate]
      have hsame : (earlier ++ [index]).filterMap (groupOf input.candidates) =
          earlier.filterMap (groupOf input.candidates) := by
        simp [List.filterMap_append, hnone]
      simp only [persistAll, hcandidate]
      exact ih _ resolved s hnext (hsame ▸ htook)
    | some candidate =>
      obtain ⟨g, hg⟩ : ∃ g, groupOf input.candidates index = some g := by simp [groupOf, hcandidate]
      have hleader : g.leader = candidate.identity := by
        simp only [groupOf, hcandidate, Option.map_some, Option.some.injEq] at hg
        rw [← hg]
      have hmore : (earlier ++ [index]).filterMap (groupOf input.candidates) =
          earlier.filterMap (groupOf input.candidates) ++ [g] := by
        simp [List.filterMap_append, hg]
      have hparts : groupsOf input.candidates = earlier.filterMap (groupOf input.candidates) ++
          ([g] ++ rest.filterMap (groupOf input.candidates)) := by
        rw [hgroups, List.filterMap_cons_some hg, List.singleton_append]
      have hbefore : ∀ t, (Took start (earlier.filterMap (groupOf input.candidates)) t ∨
          Took start (earlier.filterMap (groupOf input.candidates) ++ [g]) t) →
            Partly input.candidates start t := by
        rintro t (ht | ht)
        · exact ⟨_, hparts ▸ List.prefix_append _ _, ht⟩
        · refine ⟨_, ?_, ht⟩
          rw [hparts, ← List.append_assoc]
          exact List.prefix_append _ _
      cases hfound : findGroupMatch known (membersOf input.candidates index) with
      | some found =>
        have hskip : ¬ Unknown Touches (identities start) g := fun hunknown => by
          rw [(hknown index hmem g hg).mpr hunknown] at hfound
          cases hfound
        simp only [persistAll, hcandidate, hfound]
        exact ih _ _ s hnext (hmore ▸ htook.skip hskip)
      | none =>
        have hunknown := (hknown index hmem g hg).mp hfound
        have hapart : ∀ d ∈ earlier.filterMap (groupOf input.candidates), Apart Touches d g :=
          fun d hd => (List.pairwise_append.mp (hparts ▸ groupsOf_apart)).2.2 d hd g (by simp)
        simp only [persistAll, hcandidate, hfound]
        refine ensures_bind ?_
        refine (persistNew_took htook hleader hunknown hapart).mono (fun outcome t ht => ?_)
          (fun _ => hbefore) hbefore
        exact ih _ _ t hnext (hmore ▸ ht)

/-- **A run** takes up the groups of the batch, up to the point where it ends. -/
theorem dedupe_took (input : DedupeArticlesInput) (start : List Article) :
    Ensures articleStep (Partly input.candidates start) (fun _ => Partly input.candidates start)
      (dedupeAndPersist input) start fun _ => Took start (groupsOf input.candidates) := by
  have hstart : Partly input.candidates start start := ⟨[], List.nil_prefix, took_nil⟩
  have hall : ∀ s, Took start (groupsOf input.candidates) s → Partly input.candidates start s :=
    fun s hs => ⟨_, List.prefix_rfl, hs⟩
  refine ensures_bind ((findMatches_spec _).mono (fun found s hfound => ?_)
    (fun _ s hs => hs ▸ hstart) fun s hs => hs ▸ hstart)
  obtain ⟨rfl, hperm⟩ := hfound
  refine ensures_bind ((persistAll_took (fun r hr g hg => ?_) _ [] [] s rfl took_nil).weaken
    fun resolved t ht => ?_)
  · refine (findGroupMatch_eq_none_iff hperm fun c hc => ?_).trans ?_
    · exact List.mem_flatMap.mpr ⟨r, hr, List.mem_map_of_mem hc⟩
    · constructor
      · intro hnone m hm x hx
        obtain ⟨c, hc, rfl⟩ := (groupOf_members hr hg).mp hm
        exact hnone c hc x hx
      · intro hunknown c hc
        exact hunknown _ ((groupOf_members hr hg).mpr ⟨c, hc, rfl⟩)
  · exact ensures_bind (ensures_raise (fun _ _ => ensures_ret ht) fun _ _ => hall t ht)

end Took

/-! ### Calls -/

/-- No two rows share a canonical URL, and no two a content hash. -/
structure Distinct (s : List Article) : Prop where
  urls : (s.map fun row => row.canonicalUrl).Nodup
  hashes : (s.map fun row => row.contentHash).Nodup

section Calls

variable {candidates : List ArticleCandidate} {start s t : List Article}
  {done : List (Cluster Identity)}

theorem Partly.distinct (h : Partly candidates start s) (hstart : Distinct start) : Distinct s := by
  obtain ⟨done, hprefix, htook⟩ := h
  have hapart : done.Pairwise (Apart Touches) := groupsOf_apart.sublist hprefix.sublist
  have hurls := nodup_absorb (s := identities start) Prod.fst (fun _ _ => .inl) hapart
  have hhashes := nodup_absorb (s := identities start) Prod.snd (fun _ _ => .inr) hapart
  rw [← htook.keys] at hurls hhashes
  unfold identities at hurls hhashes
  simp only [List.map_map] at hurls hhashes
  exact ⟨hurls hstart.urls, hhashes hstart.hashes⟩

/-- One attempt after others. -/
theorem Partly.again (h : Partly candidates start s) (htook : Took s done t)
    (hdone : done <+: groupsOf candidates) :
    ∃ all, all <+: groupsOf candidates ∧ done <+: all ∧ Took start all t := by
  obtain ⟨earlier, hearlier, hfirst⟩ := h
  obtain ⟨all, hall, hle, heq⟩ :=
    absorb_again (s := identities start) touches_refl groupsOf_apart hearlier hdone
  refine ⟨all, hall, hle, hfirst.grown.trans htook.grown, ?_⟩
  rw [htook.keys, hfirst.keys, heq]

/-- A run that finds every group known leaves the store as it is. -/
theorem Took.unchanged (h : Took start done s)
    (hknown : ∀ g ∈ done, ¬ Unknown Touches (identities start) g) : s = start := by
  have hkeys := h.keys.trans (absorb_eq_self_iff.mpr hknown)
  have hlength := congrArg List.length hkeys
  rw [identities, identities, List.length_map, List.length_map] at hlength
  exact (h.grown.eq_of_length hlength.symm).symm

/-- Groups that are known stay known while the store grows. -/
theorem known_of_prefix {g : Cluster Identity} (hgrown : s <+: t)
    (hknown : ¬ Unknown Touches (identities s) g) : ¬ Unknown Touches (identities t) g := by
  obtain ⟨more, rfl⟩ := hgrown
  intro hunknown
  rw [identities, List.map_append] at hunknown
  exact hknown (unknown_append.mp hunknown).1

/-- However a run ends. -/
theorem leads_partly {input : DedupeArticlesInput} {outcome : Outcome DbError DedupeArticlesResult}
    (h : Leads articleStep (dedupeAndPersist input) start outcome s) :
    Partly input.candidates start s := by
  have hmeets := (dedupe_took input start).leads h
  cases outcome with
  | returned result => exact ⟨_, List.prefix_rfl, hmeets⟩
  | threw error => exact hmeets
  | interrupted => exact hmeets

theorem ensures_of_partly {inv : List Article → Prop} (input : DedupeArticlesInput)
    (h : ∀ s, Partly input.candidates start s → inv s) :
    Ensures articleStep inv (fun _ => inv) (dedupeAndPersist input) start fun _ => inv :=
  (dedupe_took input start).mono (fun _ s hs => h s ⟨_, List.prefix_rfl, hs⟩) (fun _ => h) h

theorem history_grows {made : List (Made DedupeArticlesInput ArticleOp ArticleOp.Answer DbError
      DedupeArticlesResult)} (h : History articleStep dedupeAndPersist start made s) :
    start <+: s := by
  have hkeep : ∀ (input : DedupeArticlesInput) s, start <+: s →
      Ensures articleStep (start <+: ·) (fun _ => (start <+: ·)) (dedupeAndPersist input) s
        fun _ => (start <+: ·) := by
    intro input s hs
    refine ensures_of_partly input ?_
    rintro t ⟨done, -, htook⟩
    exact hs.trans htook.grown
  exact h.keeps hkeep List.prefix_rfl

theorem history_partly {made : List (Made DedupeArticlesInput ArticleOp ArticleOp.Answer DbError
      DedupeArticlesResult)} (h : History articleStep dedupeAndPersist start made s)
    (hmade : ∀ m ∈ made, m.call.candidates = candidates) : Partly candidates start s := by
  refine h.keeps_of (P := fun input => input.candidates = candidates) hmade
    (fun input s hinput hs => ensures_of_partly input ?_) ⟨[], List.nil_prefix, took_nil⟩
  rintro t ⟨done, hdone, htook⟩
  rw [hinput] at hdone
  obtain ⟨all, hall, -, htook'⟩ := hs.again htook hdone
  exact ⟨all, hall, htook'⟩

end Calls

/-- **One after the other.**  Over any calls, wherever each of them ends, the canonical URLs and the
content hashes of the rows stay distinct.  Once a batch has succeeded, it adds nothing when it comes
again, whatever was ingested in between.  A batch that succeeds after failed attempts leaves rows with
the keys that a single run would have stored. -/
theorem dedupe_sequential :
    (∀ start made s, History articleStep dedupeAndPersist start made s → Distinct start →
      Distinct s) ∧
    (∀ input start result s, Leads articleStep (dedupeAndPersist input) start (.returned result) s →
      ∀ made t, History articleStep dedupeAndPersist s made t →
      ∀ again outcome u, again.candidates = input.candidates →
        Leads articleStep (dedupeAndPersist again) t outcome u → u = t) ∧
    (∀ candidates start made s, History articleStep dedupeAndPersist start made s →
      (∀ attempt ∈ made, attempt.call.candidates = candidates) →
      ∀ last result t, last.candidates = candidates →
        Leads articleStep (dedupeAndPersist last) s (.returned result) t →
      ∀ only result' t', only.candidates = candidates →
        Leads articleStep (dedupeAndPersist only) start (.returned result') t' →
        identities t = identities t') := by
  refine ⟨fun start made s h hstart => ?_, ?_, ?_⟩
  · exact h.keeps (fun input s hs => ensures_of_partly input fun t ht => ht.distinct hs) hstart
  · intro input start result s hfirst made t hbetween again outcome u hsame hagain
    have htook : Took start (groupsOf input.candidates) s := (dedupe_took input start).leads hfirst
    obtain ⟨done, hdone, htook'⟩ := leads_partly hagain
    rw [hsame] at hdone
    refine htook'.unchanged fun g hg => known_of_prefix (history_grows hbetween) ?_
    rw [htook.keys]
    exact known_absorb touches_refl (hdone.subset hg)
  · intro candidates start made s hattempts hmade last result t hlast hreturned only result' t' honly
      honce
    have htook : Took s (groupsOf candidates) t := by
      rw [← hlast]
      exact (dedupe_took last s).leads hreturned
    have htook' : Took start (groupsOf candidates) t' := by
      rw [← honly]
      exact (dedupe_took only start).leads honce
    obtain ⟨all, hall, hle, hboth⟩ := (history_partly hattempts hmade).again htook List.prefix_rfl
    obtain rfl := hall.eq_of_length_le hle.length_le
    rw [hboth.keys, htook'.keys]

/-- An entry of a feed with the keys. -/
def entry (canonicalUrl contentHash : Text) : ArticleCandidate where
  url := canonicalUrl
  canonicalUrl := canonicalUrl
  title := lit "title"
  summary := none
  author := none
  imageUrl := none
  contentHash := contentHash
  publishedAt := none

def batchOf (candidates : List ArticleCandidate) : DedupeArticlesInput := ⟨lit "source", 0, candidates⟩

/-- A database that loses its connection at the second row. -/
def answerOnce (s : List Article) : (op : ArticleOp) → Option (op.Answer × List Article)
  | .insert input =>
      if s.length = 1 then some (.error ⟨lit "connection lost", none⟩, s)
      else answerArticle s (.insert input)
  | .findMatches queries => answerArticle s (.findMatches queries)

theorem articleStep_once {s s' : List Article} {op : ArticleOp} {answer : op.Answer}
    (h : answerOnce s op = some (answer, s')) : articleStep s ⟨op, answer⟩ s' := by
  cases op with
  | findMatches queries => exact articleStep_answer h
  | insert input =>
    by_cases hlost : s.length = 1
    · simp only [answerOnce, if_pos hlost] at h
      obtain ⟨rfl, rfl⟩ := Prod.mk.inj (Option.some.inj h)
      exact .inl rfl
    · simp only [answerOnce, if_neg hlost] at h
      exact articleStep_answer h

/-- A run in a database that is given by a function. -/
theorem leads_play {world : List Article → (op : ArticleOp) → Option (op.Answer × List Article)}
    (hworld : ∀ s op answer s', world s op = some (answer, s') → articleStep s ⟨op, answer⟩ s')
    (input : DedupeArticlesInput) (s : List Article) :
    Leads articleStep (dedupeAndPersist input) s (play world (dedupeAndPersist input) s).2.1
      (play world (dedupeAndPersist input) s).2.2 :=
  ⟨_, run_play world _ s, steps_play world id hworld _ s⟩

/-- Two entries, of which the first attempt stores one. -/
theorem dedupe_sequential_retried :
    identities (play answerArticle (dedupeAndPersist
        (batchOf [entry (lit "a") (lit "1"), entry (lit "b") (lit "2")]))
      (play answerOnce (dedupeAndPersist
        (batchOf [entry (lit "a") (lit "1"), entry (lit "b") (lit "2")])) []).2.2).2.2 =
    identities (play answerArticle (dedupeAndPersist
        (batchOf [entry (lit "a") (lit "1"), entry (lit "b") (lit "2")])) []).2.2 := by
  obtain ⟨trace, hrun, hsteps⟩ := leads_play (fun _ _ _ _ => articleStep_once)
    (batchOf [entry (lit "a") (lit "1"), entry (lit "b") (lit "2")]) []
  refine dedupe_sequential.2.2 _ [] _ _ (.snoc .nil _ trace _ hrun hsteps) (by simp; rfl) _ _ _ rfl
    (leads_play (fun _ _ _ _ => articleStep_answer) _ _) _ _ _ rfl
    (leads_play (fun _ _ _ _ => articleStep_answer) _ _)

end Newsdeck.Worker
