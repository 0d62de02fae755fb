import Newsdeck.Sources.Fetch
import Newsdeck.Sources.Service

/-!
# Whose validators a source keeps

The `ETag` and `Last-Modified` of a row belong to the feed that sent them.  The API may give the row
another feed URL at any time, and a job may record what it has received after that.

* `Received` — the validators of the successful responses so far, by the URL that was fetched;
* `Separates` — the step gives no row the validators of another feed;
* `validators_owned` — in a run of such steps every row keeps validators of its own feed, and no
  request carries those of another;
* `validators_moved` — a row that is given another feed URL keeps the validators of the first.
-/

namespace Newsdeck.Sources

open Ecma Effects Database Worker

/-- A call of the API, or a job of the collector. -/
inductive SourcesActor where
  | api (call : SourcesCall)
  | job (sourceId : Text)

def SourcesActor.program [FeedUrlSchema] : SourcesActor → Prog SourcesOp SourcesOp.Answer Unit Unit
  | api call => call.program.silence
  | job sourceId => (process sourceId).silence

abbrev SourcesMove (ι : Type) := Move (List Source) (ι × SourcesOp) (TaggedAns ι SourcesOp.Answer)

variable {ι : Type}

/-- The URL that was fetched, and the validators of a successful response. -/
def response (move : SourcesMove ι) : Option (Text × Option Text × Option Text) :=
  match move.event with
  | ⟨(_, .fetchFeed url _ _), .ok (.fetched _ _ etag lastModified)⟩ =>
    some (url, etag, lastModified)
  | _ => none

def Received (moves : List (SourcesMove ι)) (url : Text) (etag lastModified : Option Text) : Prop :=
  (url, etag, lastModified) ∈ moves.filterMap response

/-- The validators were received from the URL, or there are none. -/
def Owned (moves : List (SourcesMove ι)) (url : Text) (etag lastModified : Option Text) : Prop :=
  (etag = none ∧ lastModified = none) ∨ Received moves url etag lastModified

instance (moves : List (SourcesMove ι)) (url : Text) (etag lastModified : Option Text) :
    Decidable (Owned moves url etag lastModified) :=
  inferInstanceAs (Decidable (_ ∨ (url, etag, lastModified) ∈ moves.filterMap response))

/-- A statement that writes changes a feed URL only where no validators are stored, and records
validators only where the stored feed URL is still the one the job has fetched. -/
def Separates [Uuid] (before : List (SourcesMove ι)) (move : SourcesMove ι) : Prop :=
  move.after ≠ move.before → match move.event.op with
  | (_, .update id patch) =>
      ∀ row ∈ move.before, Uuid.read id = some row.id → ∀ feedUrl, patch.feedUrl = some feedUrl →
        feedUrl = row.feedUrl ∨ (row.etag = none ∧ row.lastModified = none)
  | (i, .recordFetchOutcome id outcome) =>
      ∀ etag lastModified, outcome.etag = some etag → outcome.lastModified = some lastModified →
        (etag ≠ none ∨ lastModified ≠ none) →
        ∀ m ∈ before, ∀ url sent sent', m.event.op = (i, .fetchFeed url sent sent') →
          ∀ row ∈ move.before, Uuid.read id = some row.id → row.feedUrl = url
  | _ => True

section Runs

variable [FeedUrlSchema] [Uuid] {moves before after : List (SourcesMove ι)} {move : SourcesMove ι}
  {url : Text} {etag lastModified : Option Text}

omit [FeedUrlSchema] [Uuid] in
theorem Owned.mono (h : Owned before url etag lastModified) (hsub : before ⊆ moves) :
    Owned moves url etag lastModified := by
  refine h.imp_right fun hreceived => ?_
  obtain ⟨m, hm, hresponse⟩ := List.mem_filterMap.mp hreceived
  exact List.mem_filterMap.mpr ⟨m, hsub hm, hresponse⟩

omit [Uuid] in
theorem actor_asks (actor : SourcesActor) : EmitsAfter JobAsks [] actor.program := by
  cases actor with
  | job sourceId => exact emitsAfter_silence (process_asks sourceId [])
  | api call =>
    refine emitsAfter_silence (((program_asks call).mono fun op hop log => ?_).after [])
    cases op with
    | fetchFeed url etag lastModified => cases call <;> simp [SourcesCall.Asks] at hop
    | recordFetchOutcome id outcome => cases call <;> simp [SourcesCall.Asks] at hop
    | _ => trivial

variable [DecidableEq ι] {actors : ι → SourcesActor} {start s : List Source}

omit [Uuid] in
/-- What a job records it has received. -/
theorem recorded_received {i : ι} {id : Text} {outcome : RecordFetchOutcomeInput}
    {answer : Except DbError Unit} {s t : List Source}
    (hcalls : Interleaved (fun i => (actors i).program) (moves.map Move.event))
    (hmoves : moves = before ++ ⟨s, ⟨(i, .recordFetchOutcome id outcome), answer⟩, t⟩ :: after) :
    (outcome.etag = none ∧ outcome.lastModified = none) ∨
    ∃ url etag lastModified, outcome.etag = some etag ∧ outcome.lastModified = some lastModified ∧
      (∃ m ∈ before, ∃ sent sent', m.event.op = (i, .fetchFeed url sent sent')) ∧
      Received before url etag lastModified := by
  rw [hmoves, List.map_append, List.map_cons] at hcalls
  rcases interleaved_emitsAfter hcalls (actor_asks (actors i)) with
    hnone | ⟨url, sent, sent', body, contentType, etag, lastModified, hfetched, hetag, hlast⟩
  · exact .inl hnone
  · obtain ⟨m, hm, hevent⟩ := List.mem_map.mp (mem_own hfetched)
    refine .inr ⟨url, etag, lastModified, hetag, hlast, ⟨m, hm, sent, sent', by rw [hevent]⟩, ?_⟩
    refine List.mem_filterMap.mpr ⟨m, hm, ?_⟩
    simp only [response, hevent]

theorem rows_owned (hstart : ∀ row ∈ start, row.etag = none ∧ row.lastModified = none)
    (hwalk : Walk (Shared sourcesStep) start moves s)
    (hcalls : Interleaved (fun i => (actors i).program) (moves.map Move.event))
    (hseparates : Along Separates moves) :
    ∀ row ∈ s, Owned moves row.feedUrl row.etag row.lastModified := by
  refine walk_keeps (fun s => ∀ row ∈ s, Owned moves row.feedUrl row.etag row.lastModified) hwalk
    (fun row hrow => .inl (hstart row hrow)) fun before move after hmoves hs hstep => ?_
  by_cases hsame : move.after = move.before
  · rw [hsame]
    exact hs
  have hseparate := hseparates before move after hmoves hsame
  obtain ⟨m, ⟨⟨i, op⟩, answer⟩, t⟩ := move
  have hshared : sourcesStep m ⟨op, answer⟩ t := hstep
  refine sourcesStep_rows hshared hs (fun input id _ => .inl ⟨rfl, rfl⟩)
    fun id f key hchange hkey row hrow hid howned => ?_
  cases op with
  | update id' patch =>
    obtain ⟨rfl, rfl⟩ := Prod.mk.inj (Option.some.inj hchange)
    show Owned moves (patch.feedUrl.getD row.feedUrl) row.etag row.lastModified
    cases hurl : patch.feedUrl with
    | none => exact howned
    | some feedUrl =>
      rcases hseparate row hrow (hid ▸ hkey) feedUrl hurl with rfl | hnone
      · exact howned
      · exact .inl hnone
  | deactivate id' =>
    obtain ⟨rfl, rfl⟩ := Prod.mk.inj (Option.some.inj hchange)
    exact howned
  | recordFetchOutcome id' outcome =>
    obtain ⟨rfl, rfl⟩ := Prod.mk.inj (Option.some.inj hchange)
    show Owned moves row.feedUrl (outcome.etag.getD row.etag)
      (outcome.lastModified.getD row.lastModified)
    rcases recorded_received hcalls hmoves with
      ⟨hetag, hlast⟩ | ⟨url, etag, lastModified, hetag, hlast, ⟨fetch, hfetch, sent, sent', hop⟩,
        hreceived⟩
    · rwa [hetag, hlast]
    · rw [hetag, hlast]
      show Owned moves row.feedUrl etag lastModified
      by_cases hnone : etag = none ∧ lastModified = none
      · exact .inl hnone
      · have hsome : etag ≠ none ∨ lastModified ≠ none := by
          rwa [not_and_or] at hnone
        rw [hseparate etag lastModified hetag hlast hsome fetch hfetch url sent sent' hop row hrow
          (hid ▸ hkey)]
        exact Owned.mono (.inr hreceived) (by simp [hmoves])
  | _ => cases hchange

/-- **Whose validators.**  However the calls of the API and the jobs interleave, as long as no feed
URL changes under stored validators and none are recorded after it has changed, every row keeps
validators that its feed has sent, or none; and so does every request. -/
theorem validators_owned (hstart : ∀ row ∈ start, row.etag = none ∧ row.lastModified = none)
    (hwalk : Walk (Shared sourcesStep) start moves s)
    (hcalls : Interleaved (fun i => (actors i).program) (moves.map Move.event))
    (hseparates : Along Separates moves) :
    (∀ row ∈ s, Owned moves row.feedUrl row.etag row.lastModified) ∧
    ∀ before move after i url etag lastModified, moves = before ++ move :: after →
      move.event.op = (i, .fetchFeed url etag lastModified) →
        Owned before url etag lastModified := by
  refine ⟨rows_owned hstart hwalk hcalls hseparates, ?_⟩
  rintro before ⟨m, ⟨op, answer⟩, t⟩ after i url etag lastModified hmoves hop
  obtain rfl : op = (i, .fetchFeed url etag lastModified) := hop
  have hevents := hcalls
  rw [hmoves, List.map_append, List.map_cons] at hevents
  obtain ⟨id, target, hread, rfl, rfl, rfl⟩ :=
    interleaved_emitsAfter hevents (actor_asks (actors i))
  -- The target is a row of the table the job has read.
  obtain ⟨read, hmem, hevent⟩ := List.mem_map.mp (mem_own hread)
  obtain ⟨earlier, later, rfl⟩ := List.append_of_mem hmem
  obtain ⟨hbefore, -⟩ := walk_split hwalk hmoves
  obtain ⟨hearlier, hstep⟩ := walk_split hbefore rfl
  rw [hevent] at hstep
  obtain ⟨key, -, hfound⟩ := hstep.1 _ rfl
  obtain ⟨row, hrow, rfl⟩ := Option.map_eq_some_iff.mp hfound.symm
  obtain ⟨rest, hrest⟩ : ∃ rest, moves = earlier ++ rest :=
    ⟨_, hmoves.trans (List.append_assoc _ _ _)⟩
  rw [hrest, List.map_append] at hcalls
  rw [hrest] at hseparates
  have howned := rows_owned hstart hearlier hcalls.initial hseparates.initial
  exact (howned row (List.mem_of_find?_eq_some hrow)).mono (by simp)

end Runs

/-- A feed that sends an `ETag`. -/
def tagging (_ : Text) : Except FetchFailure FetchFeedResult :=
  .ok (.fetched [] none (some (lit "v1")) none)

/-- A source is added and fetched, and then fetched again. -/
def refetching : Fin 3 → SourcesActor
  | 0 => .api (.create ⟨lit "name", lit "https://one.test/", none⟩)
  | 1 => .job (lit "0")
  | 2 => .job (lit "0")

def refetched : List (SourcesMove (Fin 3)) × List Source :=
  schedule (@answerSources plainIds tagging) [0, 0, 1, 1, 1, 2, 2]
    (fun i => @SourcesActor.program httpsUrls (refetching i)) []

/-- The validator of the first response is stored when the source is fetched again. -/
theorem validators_owned_again : ∃ row ∈ refetched.2, row.etag = some (lit "v1") ∧
    Owned refetched.1 row.feedUrl row.etag row.lastModified := by
  have hwalk : Walk (Shared (@sourcesStep plainIds)) [] refetched.1 refetched.2 :=
    walk_schedule _ _ (fun _ _ _ _ => @sourcesStep_answer plainIds _ _ _ _ _) _ []
  have hcalls : Interleaved (fun i => @SourcesActor.program httpsUrls (refetching i))
      (refetched.1.map Move.event) := interleaved_schedule _ _ _ []
  have howned :=
    (@validators_owned _ httpsUrls plainIds _ _ refetching [] _ (by simp) hwalk hcalls ?_).1
  · have hrow : ∃ row ∈ refetched.2, row.etag = some (lit "v1") :=
      ⟨_, List.mem_singleton_self _, rfl⟩
    obtain ⟨row, hmem, hetag⟩ := hrow
    exact ⟨row, hmem, hetag, howned row hmem⟩
  · -- Only the record of the first job is subject to the condition.
    have hfree : ∀ {P : Prop}, P → True := fun _ => trivial
    refine along_cons hfree (along_cons hfree (along_cons hfree (along_cons hfree
      (along_cons ?_ (along_cons hfree (along_cons hfree along_nil))))))
    intro _ etag lastModified _ _ _ m hm url sent sent' hop row hrow _
    obtain rfl : url = lit "https://one.test/" := by
      revert hop
      revert hm m
      refine List.forall_mem_cons.mpr
        ⟨?_, List.forall_mem_cons.mpr ⟨?_, List.forall_mem_cons.mpr ⟨?_,
        List.forall_mem_cons.mpr ⟨?_, by simp⟩⟩⟩⟩
      · rintro ⟨⟩
      · rintro ⟨⟩
      · rintro ⟨⟩
      · rintro ⟨⟩
        rfl
    obtain rfl := List.mem_singleton.mp hrow
    rfl

/-- A source is added and fetched, and then moved to another feed. -/
def moving : Fin 3 → SourcesActor
  | 0 => .api (.create ⟨lit "name", lit "https://one.test/", none⟩)
  | 1 => .job (lit "0")
  | 2 => .api (.update (lit "0") ⟨none, some (lit "https://other.test/"), none⟩)

/-- The row keeps the validator of the feed it has left. -/
theorem validators_moved : ∃ (actors : Fin 3 → SourcesActor) (moves : List (SourcesMove (Fin 3)))
    (s : List Source), Walk (Shared (@sourcesStep plainIds)) [] moves s ∧
      Interleaved (fun i => @SourcesActor.program httpsUrls (actors i)) (moves.map Move.event) ∧
      ∃ row ∈ s, ¬ Owned moves row.feedUrl row.etag row.lastModified := by
  refine ⟨moving, _, _, walk_schedule (@answerSources plainIds tagging) [0, 0, 1, 1, 1, 2, 2]
    (fun _ _ _ _ => @sourcesStep_answer plainIds _ _ _ _ _) _ [],
    interleaved_schedule (@answerSources plainIds tagging) _ _ [], ?_⟩
  decide +kernel

end Newsdeck.Sources
