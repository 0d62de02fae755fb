import Newsdeck.Library.Interleaving
import Newsdeck.Sources.Table

/-!
# The service of sources

`create` and `update` look the feed URL up before they write, and read a violation of the index as
the conflict they have not seen coming.

* `create`, `update`, `deactivate` — the service;
* `Loses` — a step in which a call meets another source with its feed URL;
* `program_yields` — a call that loses throws the conflict, and its statements change no row;
* `sources_concurrent` — however the statements of the calls interleave, feed URLs stay valid and
  distinct, and who loses ends with the conflict.
-/

namespace Newsdeck.Sources

open Ecma Effects Database

/-- `feedUrlSchema`: the absolute `http` and `https` URLs. -/
class FeedUrlSchema where
  accepts : Text → Bool

inductive SourcesError where
  | feedUrlConflict (feedUrl : Text)
  | invalidFeedUrl (feedUrl : Text)
  | notFound (id : Text)
  | db (error : DbError)
  deriving DecidableEq, Repr

def SourcesError.message : SourcesError → Text
  | feedUrlConflict feedUrl =>
      lit "a source with feed url \"" ++ feedUrl ++ lit "\" already exists"
  | invalidFeedUrl feedUrl => lit "\"" ++ feedUrl ++ lit "\" is not an absolute http or https URL"
  | notFound id => lit "no source with id \"" ++ id ++ lit "\" exists"
  | db error => error.message

abbrev SourcesAction (α : Type) := Prog SourcesOp SourcesOp.Answer SourcesError α

/-- Return the rows, or throw what the driver reports. -/
def rows {α : Type} : Except DbError α → SourcesAction α
  | .ok a => .ret a
  | .error error => .throw (.db error)

structure CreateSourceInput where
  name : Text
  feedUrl : Text
  /-- Not given, or `null`. -/
  siteUrl : Option (Option Text)

def isFeedUrlConflict : SourcesError → Bool
  | .db error => isConflict sourcesIndex error
  | _ => false

section Service

variable [FeedUrlSchema]

def assertValidFeedUrl (feedUrl : Text) : SourcesAction Unit :=
  if FeedUrlSchema.accepts feedUrl then .ret () else .throw (.invalidFeedUrl feedUrl)

/-- The write of `create`. -/
def insertSource (input : CreateSourceInput) : SourcesAction Source := do
  match ← (Prog.call (.insert ⟨input.name, input.feedUrl, input.siteUrl.getD none⟩) rows).attempt with
  | .ok source => .ret source
  | .error error =>
      if isFeedUrlConflict error then .throw (.feedUrlConflict input.feedUrl) else .throw error

def create (input : CreateSourceInput) : SourcesAction Source := do
  assertValidFeedUrl input.feedUrl
  match ← Prog.call (.findByFeedUrl input.feedUrl) rows with
  | some _ => .throw (.feedUrlConflict input.feedUrl)
  | none => insertSource input

/-- The check of `update`, of a feed URL that is given. -/
def checkFeedUrl (id : Text) : Option Text → SourcesAction Unit
  | none => .ret ()
  | some feedUrl => do
      assertValidFeedUrl feedUrl
      match ← Prog.call (.findByFeedUrl feedUrl) rows with
      | some existing => if existing.id ≠ id then .throw (.feedUrlConflict feedUrl) else .ret ()
      | none => .ret ()

/-- The write of `update`. -/
def writePatch (id : Text) (patch : UpdateSourceInput) : SourcesAction Source := do
  match ← (Prog.call (.update id patch) rows).attempt with
  | .ok (some updated) => .ret updated
  | .ok none => .throw (.notFound id)
  | .error error =>
      match patch.feedUrl with
      | some feedUrl =>
          if isFeedUrlConflict error then .throw (.feedUrlConflict feedUrl) else .throw error
      | none => .throw error

def update (id : Text) (patch : UpdateSourceInput) : SourcesAction Source := do
  checkFeedUrl id patch.feedUrl
  writePatch id patch

def deactivate (id : Text) : SourcesAction Source := do
  match ← Prog.call (.deactivate id) rows with
  | some updated => .ret updated
  | none => .throw (.notFound id)

inductive SourcesCall where
  | create (input : CreateSourceInput)
  | update (id : Text) (patch : UpdateSourceInput)
  | deactivate (id : Text)

namespace SourcesCall

def program : SourcesCall → SourcesAction Source
  | create input => Sources.create input
  | update id patch => Sources.update id patch
  | deactivate id => Sources.deactivate id

omit [FeedUrlSchema] in
/-- The feed URL the call wants for a source. -/
def feedUrl : SourcesCall → Option Text
  | create input => some input.feedUrl
  | update _ patch => patch.feedUrl
  | deactivate _ => none

/-- The source a lookup found is the one the call is about. -/
def Owns : SourcesCall → Source → Prop
  | update id _, existing => existing.id = id
  | _, _ => False

/-- What the statements of a call are; those with a feed URL follow its check. -/
def Asks : SourcesCall → SourcesOp → Prop
  | create input, op =>
      FeedUrlSchema.accepts input.feedUrl = true ∧
        (op = .findByFeedUrl input.feedUrl ∨
          op = .insert ⟨input.name, input.feedUrl, input.siteUrl.getD none⟩)
  | update id patch, op =>
      (∀ feedUrl, patch.feedUrl = some feedUrl → FeedUrlSchema.accepts feedUrl = true) ∧
        ((∃ feedUrl, patch.feedUrl = some feedUrl ∧ op = .findByFeedUrl feedUrl) ∨
          op = .update id patch)
  | deactivate id, op => op = .deactivate id

end SourcesCall

omit [FeedUrlSchema] in
theorem emits_rows {α : Type} {P : SourcesOp → Prop} (answer : Except DbError α) :
    (rows answer).Emits P := by
  cases answer <;> trivial

omit [FeedUrlSchema] in
theorem insertSource_emits {P : SourcesOp → Prop} {input : CreateSourceInput}
    (h : P (.insert ⟨input.name, input.feedUrl, input.siteUrl.getD none⟩)) :
    (insertSource input).Emits P := by
  refine Prog.emits_bind (Prog.emits_attempt ⟨h, emits_rows⟩) fun inserted => ?_
  cases inserted with
  | ok source => trivial
  | error error =>
    dsimp only
    split <;> trivial

omit [FeedUrlSchema] in
theorem writePatch_emits {P : SourcesOp → Prop} {id : Text} {patch : UpdateSourceInput}
    (h : P (.update id patch)) : (writePatch id patch).Emits P := by
  refine Prog.emits_bind (Prog.emits_attempt ⟨h, emits_rows⟩) fun written => ?_
  cases written with
  | ok updated => cases updated <;> trivial
  | error error =>
    dsimp only
    split
    · split <;> trivial
    · trivial

theorem program_asks (call : SourcesCall) : call.program.Emits call.Asks := by
  cases call with
  | create input =>
    show (create input).Emits _
    by_cases haccepts : FeedUrlSchema.accepts input.feedUrl = true
    · simp only [create, assertValidFeedUrl, if_pos haccepts, Prog.ret_bind]
      refine Prog.emits_bind ⟨⟨haccepts, .inl rfl⟩, emits_rows⟩ fun existing => ?_
      cases existing with
      | some existing => trivial
      | none => exact insertSource_emits ⟨haccepts, .inr rfl⟩
    · simp only [create, assertValidFeedUrl, if_neg haccepts, Prog.throw_bind]
      trivial
  | update id patch =>
    show (update id patch).Emits _
    unfold update
    cases hurl : patch.feedUrl with
    | none => exact writePatch_emits ⟨fun feedUrl h => (by simp [hurl] at h), .inr rfl⟩
    | some feedUrl =>
      by_cases haccepts : FeedUrlSchema.accepts feedUrl = true
      · have hall : ∀ other, patch.feedUrl = some other → FeedUrlSchema.accepts other = true := by
          rw [hurl]
          rintro other ⟨⟩
          exact haccepts
        simp only [checkFeedUrl, assertValidFeedUrl, if_pos haccepts, Prog.ret_bind]
        refine Prog.emits_bind (Prog.emits_bind ⟨⟨hall, .inl ⟨feedUrl, hurl, rfl⟩⟩, emits_rows⟩
          fun existing => ?_) fun _ => writePatch_emits ⟨hall, .inr rfl⟩
        cases existing with
        | none => trivial
        | some existing =>
          dsimp only
          split <;> trivial
      · simp only [checkFeedUrl, assertValidFeedUrl, if_neg haccepts, Prog.throw_bind]
        trivial
  | deactivate id =>
    refine Prog.emits_bind ⟨rfl, emits_rows⟩ fun updated => ?_
    cases updated <;> trivial

/-! ### Who loses -/

/-- The answer by which a call learns that it loses: its lookup found another source, or its write
was refused. -/
def LosingAnswer (call : SourcesCall) : SourcesEvent → Prop
  | ⟨.findByFeedUrl _, .ok (some existing)⟩ => ¬ call.Owns existing
  | ⟨.insert _, .error error⟩ => isConflict sourcesIndex error = true
  | ⟨.update _ _, .error error⟩ => isConflict sourcesIndex error = true
  | _ => False

/-- An event that changes no row: a lookup, or a write that was refused. -/
def Quiet : SourcesEvent → Prop
  | ⟨.findByFeedUrl _, _⟩ => True
  | ⟨.insert _, .error error⟩ => isConflict sourcesIndex error = true
  | ⟨.update _ _, .error error⟩ => isConflict sourcesIndex error = true
  | _ => False

omit [FeedUrlSchema] in
theorem LosingAnswer.quiet {call : SourcesCall} {event : SourcesEvent}
    (h : LosingAnswer call event) :
    Quiet event := by
  obtain ⟨op, answer⟩ := event
  cases op with
  | findByFeedUrl feedUrl => trivial
  | insert input => cases answer <;> exact h
  | update id patch => cases answer <;> exact h
  | _ => exact h.elim

/-- Every run of the program in which the call loses ends with the conflict and changes no row. -/
def Yields (call : SourcesCall) (feedUrl : Text) (p : SourcesAction Source) : Prop :=
  ∀ trace outcome, Run p trace outcome → (∃ event ∈ trace, LosingAnswer call event) →
    outcome = .threw (.feedUrlConflict feedUrl) ∧ ∀ event ∈ trace, Quiet event

section Losing

variable {call : SourcesCall} {feedUrl : Text}

omit [FeedUrlSchema] in
theorem yields_throw (error : SourcesError) : Yields call feedUrl (.throw error) := by
  intro trace outcome h hlost
  cases h
  simp at hlost

omit [FeedUrlSchema] in
/-- A call that loses here throws the conflict at once.  Otherwise nothing was written, or the
program is at its end. -/
theorem yields_call {op : SourcesOp} {next : op.Answer → SourcesAction Source}
    (hlosing : ∀ answer, LosingAnswer call ⟨op, answer⟩ →
      next answer = .throw (.feedUrlConflict feedUrl))
    (hother : ∀ answer, ¬ LosingAnswer call ⟨op, answer⟩ →
      (Quiet ⟨op, answer⟩ ∧ Yields call feedUrl (next answer)) ∨
        (∃ source, next answer = .ret source) ∨ ∃ error, next answer = .throw error) :
    Yields call feedUrl (.call op next) := by
  rintro trace outcome h ⟨event, hevent, hanswer⟩
  cases h with
  | interrupt => simp at hevent
  | call _ _ answer rest _ hrest =>
    by_cases hlost : LosingAnswer call ⟨op, answer⟩
    · rw [hlosing answer hlost] at hrest
      cases hrest
      exact ⟨rfl, by simpa using hlost.quiet⟩
    · have hlater : event ∈ rest := by
        rcases List.mem_cons.mp hevent with rfl | hlater
        · exact absurd hanswer hlost
        · exact hlater
      rcases hother answer hlost with ⟨hquiet, hyields⟩ | ⟨source, hret⟩ | ⟨error, hthrow⟩
      · obtain ⟨houtcome, hall⟩ := hyields rest outcome hrest ⟨event, hlater, hanswer⟩
        exact ⟨houtcome, by simpa using ⟨hquiet, hall⟩⟩
      · rw [hret] at hrest
        cases hrest
        simp at hlater
      · rw [hthrow] at hrest
        cases hrest
        simp at hlater

omit [FeedUrlSchema] in
theorem insertSource_yields {input : CreateSourceInput} :
    Yields call input.feedUrl (insertSource input) := by
  refine yields_call (fun answer hlost => ?_) fun answer hother => .inr ?_
  · cases answer with
    | ok source => exact hlost.elim
    | error error => exact if_pos hlost
  · cases answer with
    | ok source => exact .inl ⟨source, rfl⟩
    | error error => exact .inr ⟨.db error, if_neg hother⟩

omit [FeedUrlSchema] in
theorem writePatch_yields {id : Text} {patch : UpdateSourceInput}
    (hurl : patch.feedUrl = some feedUrl) :
    Yields call feedUrl (writePatch id patch) := by
  unfold writePatch
  simp only [hurl]
  refine yields_call (fun answer hlost => ?_) fun answer hother => .inr ?_
  · cases answer with
    | ok updated => exact hlost.elim
    | error error => exact if_pos hlost
  · cases answer with
    | ok updated =>
      cases updated with
      | none => exact .inr ⟨_, rfl⟩
      | some updated => exact .inl ⟨updated, rfl⟩
    | error error => exact .inr ⟨.db error, if_neg hother⟩

/-- **Losing.**  Whatever call it is. -/
theorem program_yields (call : SourcesCall) (hurl : call.feedUrl = some feedUrl) :
    Yields call feedUrl call.program := by
  cases call with
  | create input =>
    obtain rfl := Option.some.inj hurl
    show Yields _ _ (create input)
    by_cases haccepts : FeedUrlSchema.accepts input.feedUrl = true
    · simp only [create, assertValidFeedUrl, if_pos haccepts, Prog.ret_bind]
      refine yields_call (fun answer hlost => ?_) fun answer hother => ?_
      · cases answer with
        | ok existing =>
          cases existing with
          | none => exact hlost.elim
          | some existing => rfl
        | error error => exact hlost.elim
      · cases answer with
        | ok existing =>
          cases existing with
          | none => exact .inl ⟨trivial, insertSource_yields⟩
          | some existing => exact absurd not_false hother
        | error error => exact .inr (.inr ⟨_, rfl⟩)
    · simp only [create, assertValidFeedUrl, if_neg haccepts, Prog.throw_bind]
      exact yields_throw _
  | update id patch =>
    replace hurl : patch.feedUrl = some feedUrl := hurl
    show Yields _ _ (update id patch)
    unfold update
    rw [hurl]
    by_cases haccepts : FeedUrlSchema.accepts feedUrl = true
    · simp only [checkFeedUrl, assertValidFeedUrl, if_pos haccepts, Prog.ret_bind]
      refine yields_call (fun answer hlost => ?_) fun answer hother => ?_
      · cases answer with
        | ok existing =>
          cases existing with
          | none => exact hlost.elim
          | some existing =>
            have hne : existing.id ≠ id := hlost
            show ((if existing.id ≠ id then .throw (.feedUrlConflict feedUrl) else .ret () :
              SourcesAction Unit) >>= fun _ => writePatch id patch) = _
            rw [if_pos hne]
            rfl
        | error error => exact hlost.elim
      · cases answer with
        | ok existing =>
          cases existing with
          | none => exact .inl ⟨trivial, writePatch_yields hurl⟩
          | some existing =>
            have hown : ¬ existing.id ≠ id := hother
            refine .inl ⟨trivial, ?_⟩
            show Yields _ _
              ((if existing.id ≠ id then .throw (.feedUrlConflict feedUrl) else .ret () :
              SourcesAction Unit) >>= fun _ => writePatch id patch)
            rw [if_neg hown]
            exact writePatch_yields hurl
        | error error => exact .inr (.inr ⟨_, rfl⟩)
    · simp only [checkFeedUrl, assertValidFeedUrl, if_neg haccepts, Prog.throw_bind]
      exact yields_throw _
  | deactivate id => cases hurl

end Losing

/-! ### Calls side by side -/

section Concurrent

variable [Uuid] {s t : List Source} {call : SourcesCall} {event : SourcesEvent}

/-- In this state of the table the event shows the call another source with its feed URL: a lookup
finds one, or a write would give two rows the URL. -/
def Loses (call : SourcesCall) (s : List Source) : SourcesEvent → Prop
  | ⟨.findByFeedUrl _, answer⟩ => ∃ existing, answer = .ok (some existing) ∧ ¬ call.Owns existing
  | ⟨.insert input, _⟩ => input.feedUrl ∈ urls s
  | ⟨.update id patch, _⟩ =>
      ∃ key, Uuid.read id = some key ∧ ¬ (urls (updateRows key (Source.patched patch) s)).Nodup
  | _ => False

omit [FeedUrlSchema] [Uuid] in
theorem writes_refused {α : Type} {result : α} {answer : Except DbError α} {s' : List Source}
    (h : Writes s t result answer s') (hdouble : ¬ (urls t).Nodup) :
    ∃ error, answer = .error error ∧ isConflict sourcesIndex error = true := by
  cases answer with
  | ok returned => exact absurd h.1 hdouble
  | error error =>
    simp only [Writes, if_neg hdouble] at h
    exact ⟨error, rfl, h.1⟩

omit [FeedUrlSchema] in
/-- The index refuses the write of a call that loses. -/
theorem Loses.answer (h : Loses call s event) (hstep : sourcesStep s event t) :
    LosingAnswer call event := by
  obtain ⟨op, answer⟩ := event
  cases op with
  | findByFeedUrl feedUrl =>
    obtain ⟨existing, rfl, hother⟩ := h
    exact hother
  | insert input =>
    obtain ⟨id, -, hwrites⟩ := hstep
    have hdouble : ¬ (urls (s ++ [input.toRow id])).Nodup := by
      intro hnodup
      rw [urls, List.map_append] at hnodup
      exact (List.nodup_append.mp hnodup).2.2 _ h _ (by simp [NewSource.toRow]) rfl
    obtain ⟨error, rfl, hconflict⟩ := writes_refused hwrites hdouble
    exact hconflict
  | update id patch =>
    obtain ⟨key, hkey, hdouble⟩ := h
    replace hstep : Updates id (Source.patched patch) (fun row => row) s answer t := hstep
    simp only [Updates, hkey] at hstep
    obtain ⟨error, rfl, hconflict⟩ := writes_refused hstep hdouble
    exact hconflict
  | _ => exact h.elim

omit [FeedUrlSchema] [Uuid] in
theorem writes_conflict {α : Type} {result : α} {error : DbError} {s' : List Source}
    (h : Writes s t result (.error error) s') (hconflict : isConflict sourcesIndex error = true) :
    s' = s := by
  by_cases hnodup : (urls t).Nodup
  · simp [Writes, if_pos hnodup, hconflict] at h
  · simp only [Writes, if_neg hnodup] at h
    exact h.2

omit [FeedUrlSchema] in
theorem Quiet.unchanged (h : Quiet event) (hstep : sourcesStep s event t) : t = s := by
  obtain ⟨op, answer⟩ := event
  cases op with
  | findByFeedUrl feedUrl => exact hstep.2
  | insert input =>
    obtain ⟨id, -, hwrites⟩ := hstep
    cases answer with
    | ok source => exact h.elim
    | error error => exact writes_conflict hwrites h
  | update id patch =>
    cases answer with
    | ok updated => exact h.elim
    | error error =>
      replace hstep : Updates id (Source.patched patch) (fun row => row) s (.error error) t := hstep
      unfold Updates at hstep
      split at hstep
      · exact hstep.2
      · exact writes_conflict hstep h
  | _ => exact h.elim

omit [FeedUrlSchema] [Uuid] in
theorem urls_updateRows {key : Text} {f : Source → Source}
    (h : ∀ row, (f row).feedUrl = row.feedUrl) :
    urls (updateRows key f s) = urls s := by
  unfold urls updateRows
  rw [List.map_map]
  refine List.map_congr_left fun row _ => ?_
  show (if row.id = key then f row else row).feedUrl = row.feedUrl
  split
  · exact h row
  · rfl

/-- A call without a feed URL does not lose. -/
theorem Loses.feedUrl (h : Loses call s event) (hasks : call.Asks event.op) (hs : (urls s).Nodup) :
    ∃ feedUrl, call.feedUrl = some feedUrl := by
  obtain ⟨op, answer⟩ := event
  cases call with
  | create input => exact ⟨_, rfl⟩
  | update id patch =>
    rcases hasks.2 with ⟨feedUrl, hurl, -⟩ | hop
    · exact ⟨feedUrl, hurl⟩
    · obtain rfl : op = .update id patch := hop
      obtain ⟨key, -, hdouble⟩ := h
      show ∃ feedUrl, patch.feedUrl = some feedUrl
      cases hurl : patch.feedUrl with
      | some feedUrl => exact ⟨feedUrl, rfl⟩
      | none =>
        refine absurd hs ?_
        rwa [urls_updateRows (fun row => by simp [Source.patched, hurl])] at hdouble
  | deactivate id =>
    obtain rfl : op = .deactivate id := hasks
    exact h.elim

/-- A statement of a call keeps every feed URL valid. -/
theorem asks_valid (hstep : sourcesStep s event t) (hasks : call.Asks event.op)
    (hs : ∀ row ∈ s, FeedUrlSchema.accepts row.feedUrl = true) :
    ∀ row ∈ t, FeedUrlSchema.accepts row.feedUrl = true := by
  refine sourcesStep_rows hstep hs (fun input id hop => ?_) fun id f key hop _ row _ _ hrow => ?_
  · cases call with
    | create given =>
      rcases hasks.2 with hfind | hinsert
      · simp [hop] at hfind
      · rw [hop, SourcesOp.insert.injEq] at hinsert
        rw [hinsert]
        exact hasks.1
    | update id patch => simp [SourcesCall.Asks, hop] at hasks
    | deactivate id => simp [SourcesCall.Asks, hop] at hasks
  · cases call with
    | create given =>
      rcases hasks.2 with hfind | hinsert
      · simp [hfind, SourcesOp.change] at hop
      · simp [hinsert, SourcesOp.change] at hop
    | update given patch =>
      rcases hasks.2 with ⟨feedUrl, -, hfind⟩ | hupdate
      · simp [hfind, SourcesOp.change] at hop
      · simp only [hupdate, SourcesOp.change, Option.some.injEq, Prod.mk.injEq] at hop
        rw [← hop.2]
        show FeedUrlSchema.accepts (patch.feedUrl.getD row.feedUrl) = true
        cases hurl : patch.feedUrl with
        | none => exact hrow
        | some feedUrl => exact hasks.1 feedUrl hurl
    | deactivate given =>
      have hdeactivate : event.op = .deactivate given := hasks
      simp only [hdeactivate, SourcesOp.change, Option.some.injEq, Prod.mk.injEq] at hop
      rw [← hop.2]
      exact hrow

variable {ι : Type} [DecidableEq ι] {calls : ι → SourcesCall} {start : List Source}
  {moves : List (Move (List Source) (ι × SourcesOp) (TaggedAns ι SourcesOp.Answer))}

/-- **Side by side.**  However the statements of the calls interleave, no two sources share a feed
URL, and every feed URL is valid.  A call that meets another source with its feed URL, in its lookup
or in its write, ends with the conflict, and none of its statements changes a row. -/
theorem sources_concurrent (hurls : (urls start).Nodup)
    (hvalid : ∀ row ∈ start, FeedUrlSchema.accepts row.feedUrl = true)
    (hwalk : Walk (Shared sourcesStep) start moves s)
    (hcalls : Interleaved (fun i => (calls i).program) (moves.map Move.event)) :
    (urls s).Nodup ∧ (∀ row ∈ s, FeedUrlSchema.accepts row.feedUrl = true) ∧
    ∀ i outcome, Run (calls i).program ((moves.map Move.event).filterMap (own i)) outcome →
      (∃ move ∈ moves, move.event.op.1 = i ∧
        Loses (calls i) move.before ⟨move.event.op.2, move.event.answer⟩) →
      ∃ feedUrl, (calls i).feedUrl = some feedUrl ∧
        outcome = .threw (.feedUrlConflict feedUrl) ∧
        ∀ move ∈ moves, move.event.op.1 = i → move.after = move.before := by
  have hasks : ∀ move ∈ moves, (calls move.event.op.1).Asks move.event.op.2 := fun move hmove =>
    interleaved_emits hcalls (fun i => program_asks (calls i)) _ (List.mem_map_of_mem hmove)
  have hdistinct := walk_always (fun s => (urls s).Nodup) hwalk hurls
    fun _ _ _ _ hs hstep => sourcesStep_urls hstep hs
  refine ⟨?_, ?_, ?_⟩
  · exact walk_keeps (fun s => (urls s).Nodup) hwalk hurls
      fun _ _ _ _ hs hstep => sourcesStep_urls hstep hs
  · refine walk_keeps (fun s => ∀ row ∈ s, FeedUrlSchema.accepts row.feedUrl = true) hwalk hvalid
      fun before move after hmoves hs hstep => ?_
    have hshared : sourcesStep move.before ⟨move.event.op.2, move.event.answer⟩ move.after := hstep
    exact asks_valid hshared (hasks move (by simp [hmoves])) hs
  · rintro i outcome hrun ⟨move, hmove, rfl, hloses⟩
    have hstep : ∀ m ∈ moves, sourcesStep m.before ⟨m.event.op.2, m.event.answer⟩ m.after := by
      intro m hm
      obtain ⟨before, after, hsplit⟩ := List.append_of_mem hm
      exact (walk_split hwalk hsplit).2
    have hown : ∀ m ∈ moves, m.event.op.1 = move.event.op.1 →
        (⟨m.event.op.2, m.event.answer⟩ : SourcesEvent) ∈
          (moves.map Move.event).filterMap (own move.event.op.1) := fun m hm hi =>
      List.mem_filterMap.mpr ⟨m.event, List.mem_map_of_mem hm, if_pos hi⟩
    obtain ⟨feedUrl, hurl⟩ := hloses.feedUrl (hasks move hmove) (hdistinct move hmove).1
    obtain ⟨houtcome, hquiet⟩ := program_yields _ hurl _ outcome hrun
      ⟨_, hown move hmove rfl, hloses.answer (hstep move hmove)⟩
    exact ⟨feedUrl, hurl, houtcome, fun m hm hi => (hquiet _ (hown m hm hi)).unchanged (hstep m hm)⟩

end Concurrent

end Service

/-- The schema and the ids, as far as the sources below go. -/
@[reducible] def httpsUrls : FeedUrlSchema := ⟨fun feedUrl => (lit "https://").isPrefixOf feedUrl⟩

@[reducible] def plainIds : Uuid := ⟨some⟩

def noFeeds (_ : Text) : Except Worker.FetchFailure Worker.FetchFeedResult :=
  .error (.other (lit "offline"))

/-- Two administrators who add one feed. -/
def adding (name : Bool) : SourcesCall :=
  .create ⟨if name then lit "one" else lit "other", lit "https://feed.test/", none⟩

/-- Both look the feed up before either adds it. -/
theorem sources_concurrent_adding : ∃ outcome,
    Run (@SourcesCall.program httpsUrls (adding true))
      (((schedule (@answerSources plainIds noFeeds) [false, true, false, true]
        (fun i => @SourcesCall.program httpsUrls (adding i)) []).1.map Move.event).filterMap
          (own true))
      outcome ∧
    outcome = .threw (.feedUrlConflict (lit "https://feed.test/")) := by
  have hcalls := interleaved_schedule (@answerSources plainIds noFeeds) [false, true, false, true]
    (fun i => @SourcesCall.program httpsUrls (adding i)) []
  have hboth := @sources_concurrent httpsUrls plainIds _ Bool _ adding [] _ List.nodup_nil (by simp)
    (walk_schedule (@answerSources plainIds noFeeds) [false, true, false, true]
      (fun _ _ _ _ => @sourcesStep_answer plainIds _ _ _ _ _) _ []) hcalls
  obtain ⟨outcome, hrun⟩ := hcalls true
  obtain ⟨feedUrl, hurl, houtcome, -⟩ := hboth.2.2 true outcome hrun
    ⟨_, List.mem_of_getElem? (i := 3) rfl, rfl, List.mem_singleton_self (lit "https://feed.test/")⟩
  cases hurl
  exact ⟨outcome, hrun, houtcome⟩

end Newsdeck.Sources
