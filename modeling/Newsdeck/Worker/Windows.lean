import Newsdeck.Worker.Batches

/-!
# A window of a batch that was ingested

Of a group only the leader is stored.  When a later batch brings some of the candidates again, those
that were connected with the leader through others may come without these.

* `Recognised` — a row of the store shares a key with the candidate;
* `known_iff` — a group is known exactly when a chain leads to a recognised member;
* `dedupe_window` — when a later batch of the same candidates inserts nothing, and what it inserts
  otherwise;
* `dedupe_slides` — a candidate that was recognised as a duplicate becomes a row of its own.
-/

namespace Newsdeck.Worker

open Ecma Effects Database Absorption

/-- A row shares a key with the candidate. -/
def Recognised (s : List Article) (candidate : ArticleCandidate) : Prop :=
  ∃ row ∈ s, Touches row.identity candidate.identity

section Window

variable {candidates first later : List ArticleCandidate} {s t : List Article} {r a b : ℕ}
  {g : Cluster Identity}

theorem known_iff (hr : r ∈ representatives candidates) (hg : groupOf candidates r = some g) :
    ¬ Unknown Touches (identities s) g ↔ ∃ j c, SameArticle candidates r j ∧
      candidates[j]? = some c ∧ Recognised s c := by
  constructor
  · intro hknown
    unfold Unknown at hknown
    push Not at hknown
    obtain ⟨m, hm, x, hx, htouch⟩ := hknown
    obtain ⟨c, hc, rfl⟩ := (groupOf_members hr hg).mp hm
    obtain ⟨j, hj, hsame⟩ := (mem_membersOf_iff hr).mp hc
    obtain ⟨row, hrow, rfl⟩ := List.mem_map.mp hx
    exact ⟨j, c, hsame, hj, row, hrow, htouch⟩
  · rintro ⟨j, c, hsame, hj, row, hrow, htouch⟩ hunknown
    have hc : c ∈ membersOf candidates r := (mem_membersOf_iff hr).mpr ⟨j, hj, hsame⟩
    have hm := (groupOf_members hr hg).mpr ⟨c, hc, rfl⟩
    exact hunknown _ hm _ (List.mem_map_of_mem hrow) htouch

/-- Every group is known exactly when a chain leads from every candidate to a recognised one. -/
theorem all_known_iff : (∀ g ∈ groupsOf candidates, ¬ Unknown Touches (identities s) g) ↔
    ∀ i < candidates.length, ∃ j c, SameArticle candidates i j ∧ candidates[j]? = some c ∧
      Recognised s c := by
  constructor
  · intro hknown i hi
    obtain ⟨r, hr, hsame⟩ := exists_representative candidates hi
    have hlt : r < candidates.length := hsame.lt_iff.mpr hi
    obtain ⟨g, hg⟩ : ∃ g, groupOf candidates r = some g := by simp [groupOf, hlt]
    obtain ⟨j, c, hj, hc, hrec⟩ :=
      (known_iff hr hg).mp (hknown g (List.mem_filterMap.mpr ⟨r, hr, hg⟩))
    exact ⟨j, c, hsame.symm.trans _ _ _ hj, hc, hrec⟩
  · intro hall g hg
    obtain ⟨r, hr, hof⟩ := List.mem_filterMap.mp hg
    have hlt := ((mem_representativeIndexes_iff candidates r).mp hr).1
    exact (known_iff hr hof).mpr (hall r hlt)

/-- The chains of a batch are there in every batch that has its candidates. -/
theorem sameArticle_of_subset (hsub : first ⊆ later) (h : SameArticle first a b) :
    a < first.length → ∀ {i j : ℕ}, later[i]? = first[a]? → later[j]? = first[b]? →
      SameArticle later i j := by
  induction h with
  | rel x y hxy =>
    intro _ i j hi hj
    obtain ⟨c, d, hc, hd, hkey⟩ := hxy
    exact .rel _ _ ⟨c, d, hi.trans hc, hj.trans hd, hkey⟩
  | refl x =>
    intro hx i j hi hj
    have hc := List.getElem?_eq_getElem hx
    exact .rel _ _ ⟨_, _, hi.trans hc, hj.trans hc, .inl rfl⟩
  | symm x y hxy ih =>
    intro hy i j hi hj
    exact (ih ((SameArticle.lt_iff hxy).mpr hy) hj hi).symm
  | trans x y z hxy hyz ihxy ihyz =>
    intro hx i j hi hj
    have hy := (SameArticle.lt_iff hxy).mp hx
    obtain ⟨k, hk⟩ := List.getElem?_of_mem (hsub (List.getElem_mem hy))
    have hmiddle : later[k]? = first[y]? := hk.trans (List.getElem?_eq_getElem hy).symm
    exact (ihxy hx hi hmiddle).trans _ _ _ (ihyz hy hmiddle hj)

end Window

/-- **A later window.**  After a batch succeeded, the store holds what it held before and the leaders
of the groups that were unknown.  A later batch of candidates of the first then inserts nothing
exactly when from each of its candidates a chain within the later batch leads to one that is
recognised; of the groups without one the leaders are inserted.  A batch with all the candidates, in
whatever order, inserts nothing. -/
theorem dedupe_window (first later : DedupeArticlesInput) (start s t : List Article)
    (result result' : DedupeArticlesResult)
    (hfirst : Leads articleStep (dedupeAndPersist first) start (.returned result) s)
    (hwindow : later.candidates ⊆ first.candidates)
    (hlater : Leads articleStep (dedupeAndPersist later) s (.returned result') t) :
    identities s = absorb Touches (identities start) (groupsOf first.candidates) ∧
    (t = s ↔ ∀ i < later.candidates.length, ∃ j c, SameArticle later.candidates i j ∧
      later.candidates[j]? = some c ∧ Recognised s c) ∧
    identities t = absorb Touches (identities s) (groupsOf later.candidates) ∧
    (first.candidates ⊆ later.candidates → t = s) := by
  have htook : Took start (groupsOf first.candidates) s := (dedupe_took first start).leads hfirst
  have hthen : Took s (groupsOf later.candidates) t := (dedupe_took later s).leads hlater
  have hiff : t = s ↔ ∀ i < later.candidates.length, ∃ j c, SameArticle later.candidates i j ∧
      later.candidates[j]? = some c ∧ Recognised s c := by
    rw [← all_known_iff]
    refine ⟨fun hsame => ?_, hthen.unchanged⟩
    rw [← absorb_eq_self_iff, ← hthen.keys, hsame]
  refine ⟨htook.keys, hiff, hthen.keys, fun hall => hiff.mpr fun i hi => ?_⟩
  have hknown : ∀ g ∈ groupsOf first.candidates, ¬ Unknown Touches (identities s) g := by
    rw [htook.keys]
    exact fun g hg => known_absorb touches_refl hg
  obtain ⟨a, ha⟩ := List.getElem?_of_mem (hwindow (List.getElem_mem hi))
  have hlt := (List.getElem?_eq_some_iff.mp ha).1
  obtain ⟨b, c, hab, hb, hrec⟩ := all_known_iff.mp hknown a hlt
  obtain ⟨j, hj⟩ := List.getElem?_of_mem (hall (List.mem_of_getElem? hb))
  have hfrom : later.candidates[i]? = first.candidates[a]? :=
    (List.getElem?_eq_getElem hi).trans ha.symm
  exact ⟨j, c, sameArticle_of_subset hall hab hlt hfrom (hj.trans hb.symm), hj, hrec⟩

/-- The candidates of a chain: the first and the last share no key. -/
def chain : List ArticleCandidate :=
  [entry (lit "a") (lit "1"), entry (lit "b") (lit "1"), entry (lit "b") (lit "2")]

/-- The last two of the chain, the other way round, are recognised through the first of these. -/
theorem dedupe_window_chain :
    identities (play answerArticle (dedupeAndPersist (batchOf chain.tail.reverse))
      (play answerArticle (dedupeAndPersist (batchOf chain)) []).2.2).2.2 =
    [(lit "a", lit "1")] := by
  have hfirst := leads_play (fun _ _ _ _ => articleStep_answer) (batchOf chain) []
  have hlater := leads_play (fun _ _ _ _ => articleStep_answer) (batchOf chain.tail.reverse)
    (play answerArticle (dedupeAndPersist (batchOf chain)) []).2.2
  refine (dedupe_window (batchOf chain) (batchOf chain.tail.reverse) [] _ _ _ _ hfirst
    (by decide) hlater).2.2.1.trans ?_
  decide +kernel

/-- The last of the chain alone is not recognised. -/
theorem dedupe_slides : ∃ (first later : DedupeArticlesInput) (s t : List Article)
    (result result' : DedupeArticlesResult),
      Leads articleStep (dedupeAndPersist first) [] (.returned result) s ∧
      later.candidates.Sublist first.candidates ∧
      Leads articleStep (dedupeAndPersist later) s (.returned result') t ∧ t ≠ s := by
  have hfirst := leads_play (fun _ _ _ _ => articleStep_answer) (batchOf chain) []
  have hlater := leads_play (fun _ _ _ _ => articleStep_answer) (batchOf chain.tail.tail)
    (play answerArticle (dedupeAndPersist (batchOf chain)) []).2.2
  refine ⟨batchOf chain, batchOf chain.tail.tail, _, _, _, _, hfirst, by decide, hlater, ?_⟩
  decide +kernel

end Newsdeck.Worker
