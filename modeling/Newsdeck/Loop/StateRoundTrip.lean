import Newsdeck.Ecma.JsonLines
import Newsdeck.Loop.StateBlock

/-!
# Reading back the state that was written

`parseLoopState` re-validates every bound of the schema, so a state comes back exactly when it
`Fits` and its block is the one that is found in the comment.

* `loopStateSchema_json` — the schema accepts what fits, as it was written;
* `parseLoopState_serialise` — the round trip, behind any text in front of the block that holds no
  marker with a fence behind it;
* `parseLoopState_forged` — behind any other text the state that is read is a constant.
-/

namespace Newsdeck.Loop

open Ecma

theorem severitySchema_text (s : Severity) :
    severitySchema (some (.str (severityText s))) = some s := by
  cases s <;> rfl

theorem reviewStatusSchema_text (r : ReviewStatus) :
    reviewStatusSchema (some (.str (reviewStatusText r))) = some r := by
  cases r <;> rfl

theorem gateDecisionSchema_text (d : GateDecision) :
    gateDecisionSchema (some (.str (gateDecisionText d))) = some d := by
  cases d <;> rfl

/-- `null` or a written value reads back. -/
theorem nullable_nullOr {α : Type} {s : Schema α} {write : α → Json} (a : Option α)
    (hnull : ∀ b, a = some b → write b ≠ .null) (h : ∀ b, a = some b → s (some (write b)) = some b) :
    Schema.nullable s (some (nullOr write a)) = some a := by
  cases a with
  | none => rfl
  | some b =>
    have hb := hnull b rfl
    unfold Schema.nullable nullOr
    split
    · rename_i heq
      exact absurd (Option.some.inj heq) hb
    · simp [h b rfl]

/-! ### States the reader accepts -/

/-- The bounds `FindingRecordSchema` checks. -/
structure FindingRecord.Fits (r : FindingRecord) : Prop where
  file : ∀ f, r.file = some f → f.length ≤ 512
  description : r.description.length ≤ 320
  category : r.category.length ≤ 64

/-- The bounds the schema of a history entry checks. -/
structure HistoryEntry.Fits (e : HistoryEntry) : Prop where
  headSha : e.headSha.length ≤ 64
  attempt : e.attempt ≤ Schema.maxSafe
  count : e.findings.length ≤ maxRetainedFindings
  findings : ∀ r ∈ e.findings, r.Fits

/-- The bounds `LoopStateSchema` checks. -/
structure LoopState.Fits (s : LoopState) : Prop where
  issue : ∀ n, s.issue = some n → ∃ k : ℕ, n = k ∧ 1 ≤ k ∧ k ≤ Schema.maxSafe
  reviewAttempts : s.reviewAttempts ≤ 100
  count : s.history.length ≤ 25
  history : ∀ e ∈ s.history, e.Fits

theorem findingRecordSchema_json {r : FindingRecord} (h : r.Fits) :
    findingRecordSchema (some (findingRecordJson r)) = some r := by
  have hfile : Schema.nullable (textUpTo 512) (some (nullOr .str r.file)) = some r.file :=
    nullable_nullOr r.file (by simp) fun f hf => Schema.text_str (by simpa using h.file f hf)
  have hdesc : textUpTo 320 (some (.str r.description)) = some r.description :=
    Schema.text_str (by simpa using h.description)
  have hcat : textUpTo 64 (some (.str r.category)) = some r.category :=
    Schema.text_str (by simpa using h.category)
  simp [findingRecordSchema, findingRecordJson, severitySchema_text, hfile, hdesc, hcat]

theorem historyEntrySchema_json {e : HistoryEntry} (h : e.Fits) :
    historyEntrySchema (some (historyEntryJson e)) = some e := by
  have hat : Schema.text (fun _ => true) (some (.str e.atTime)) = some e.atTime := rfl
  have hsha : textUpTo 64 (some (.str e.headSha)) = some e.headSha :=
    Schema.text_str (by simpa using h.headSha)
  have hattempt : Schema.nat 0 Schema.maxSafe (some (.num e.attempt)) = some e.attempt :=
    Schema.nat_natCast (Nat.zero_le _) h.attempt h.attempt
  have hfindings : Schema.default (Schema.maxItems maxRetainedFindings
      (Schema.array findingRecordSchema)) [] (some (.arr (e.findings.map findingRecordJson))) =
      some e.findings :=
    Schema.maxItems_of_le (Schema.array_map fun r hr => findingRecordSchema_json (h.findings r hr))
      h.count
  simp [historyEntrySchema, historyEntryJson, reviewStatusSchema_text, gateDecisionSchema_text, hat,
    hsha, hattempt, hfindings]

/-- **The schema accepts what fits**, as it was written. -/
theorem loopStateSchema_json {s : LoopState} (h : s.Fits) :
    loopStateSchema (some (loopStateJson s)) = some s := by
  have hversion : Schema.nat 1 1 (some (.num 1)) = some 1 :=
    Schema.nat_natCast (n := 1) le_rfl le_rfl (by decide)
  have hissue : ((Schema.nullable (Schema.nat 1 Schema.maxSafe))
      (some (nullOr issueJson s.issue))).map (Option.map (Nat.cast : ℕ → ℕ∞)) = some s.issue := by
    cases hs : s.issue with
    | none => rfl
    | some n =>
      obtain ⟨k, rfl, hk1, hk2⟩ := h.issue n hs
      have hk : Schema.nat 1 Schema.maxSafe (some (.num k)) = some k :=
        Schema.nat_natCast hk1 hk2 hk2
      show ((Schema.nat 1 Schema.maxSafe (some (.num k))).map some).map _ = _
      rw [hk]
      rfl
  have hattempts : Schema.nat 0 100 (some (.num s.reviewAttempts)) = some s.reviewAttempts :=
    Schema.nat_natCast (Nat.zero_le _) h.reviewAttempts
      (h.reviewAttempts.trans (by decide))
  have hstatus : Schema.nullable reviewStatusSchema
      (some (nullOr (fun r => .str (reviewStatusText r)) s.lastReviewStatus)) =
      some s.lastReviewStatus :=
    nullable_nullOr _ (by simp) fun r _ => reviewStatusSchema_text r
  have hdecision : Schema.nullable gateDecisionSchema
      (some (nullOr (fun d => .str (gateDecisionText d)) s.lastDecision)) = some s.lastDecision :=
    nullable_nullOr _ (by simp) fun d _ => gateDecisionSchema_text d
  have hhistory : Schema.maxItems 25 (Schema.array historyEntrySchema)
      (some (.arr (s.history.map historyEntryJson))) = some s.history :=
    Schema.maxItems_of_le (Schema.array_map fun e he => historyEntrySchema_json (h.history e he))
      h.count
  obtain ⟨i, hi, his⟩ := Option.map_eq_some_iff.mp hissue
  simp [loopStateSchema, loopStateJson, hversion, hi, his, hattempts, hstatus, hdecision, hhistory]

/-! ### What the reader accepts fits -/

theorem textUpTo_eq_some {n : ℕ} {v : Option Json} {t : Text} (h : textUpTo n v = some t) :
    t.length ≤ n := by
  simpa using Schema.text_eq_some h

theorem findingRecordSchema_fits {v : Option Json} {r : FindingRecord}
    (h : findingRecordSchema v = some r) : r.Fits := by
  obtain ⟨members, -, hbuild⟩ := Schema.object_eq_some h
  simp only [Option.bind_eq_bind, Option.bind_eq_some_iff, Option.some.injEq] at hbuild
  obtain ⟨_, -, file, hfile, _, hdescription, _, hcategory, rfl⟩ := hbuild
  refine ⟨fun f hf => ?_, textUpTo_eq_some hdescription, textUpTo_eq_some hcategory⟩
  obtain rfl : file = some f := hf
  exact textUpTo_eq_some (Schema.nullable_eq_some hfile)

theorem historyEntrySchema_fits {v : Option Json} {e : HistoryEntry}
    (h : historyEntrySchema v = some e) : e.Fits := by
  obtain ⟨members, -, hbuild⟩ := Schema.object_eq_some h
  simp only [Option.bind_eq_bind, Option.bind_eq_some_iff, Option.some.injEq] at hbuild
  obtain ⟨_, -, _, hsha, _, hattempt, _, -, _, -, findings, hfindings, rfl⟩ := hbuild
  refine ⟨textUpTo_eq_some hsha, (Schema.nat_eq_some hattempt).2, ?_, ?_⟩
  · rcases Schema.default_eq_some hfindings with rfl | hfindings
    · exact Nat.zero_le _
    · exact (Schema.maxItems_eq_some hfindings).2
  · intro r hr
    rcases Schema.default_eq_some hfindings with rfl | hfindings
    · exact absurd hr (by simp)
    · obtain ⟨w, hw⟩ := Schema.array_eq_some (Schema.maxItems_eq_some hfindings).1 r hr
      exact findingRecordSchema_fits hw

theorem loopStateSchema_fits {v : Option Json} {s : LoopState} (h : loopStateSchema v = some s) :
    s.Fits := by
  obtain ⟨members, -, hbuild⟩ := Schema.object_eq_some h
  simp only [Option.bind_eq_bind, Option.bind_eq_some_iff, Option.some.injEq] at hbuild
  obtain ⟨_, -, issue, hissue, _, hattempts, _, -, _, -, _, hhistory, rfl⟩ := hbuild
  refine ⟨fun n hn => ?_, (Schema.nat_eq_some hattempts).2, (Schema.maxItems_eq_some hhistory).2,
    fun e he => ?_⟩
  · obtain ⟨k, rfl, rfl⟩ := Option.map_eq_some_iff.mp hn
    obtain ⟨hlo, hhi⟩ := Schema.nat_eq_some (Schema.nullable_eq_some hissue)
    exact ⟨k, rfl, hlo, hhi⟩
  · obtain ⟨w, hw⟩ := Schema.array_eq_some (Schema.maxItems_eq_some hhistory).1 e he
    exact historyEntrySchema_fits hw

/-- Whatever a comment holds, it reads as the fresh state or as one state that fits. -/
theorem parseLoopState_cases (comment : Option Text) :
    (∀ issue, parseLoopState comment issue = initialState issue) ∨
      ∃ s : LoopState, s.Fits ∧ ∀ issue, parseLoopState comment issue = s := by
  unfold parseLoopState readBlock
  cases comment.bind (stateBlock.capture 1) with
  | none => exact .inl fun _ => rfl
  | some raw =>
    cases hparse : Json.parse raw with
    | none => exact .inl fun _ => by simp only [hparse]
    | some value =>
      cases hschema : loopStateSchema (some value) with
      | none => exact .inl fun _ => by simp only [hparse, hschema, Option.getD_none]
      | some s =>
        exact .inr ⟨s, loopStateSchema_fits hschema, fun _ => by
          simp only [hparse, hschema, Option.getD_some]⟩

/-! ### The written text -/

theorem plainItems_map {α : Type} {write : α → Json} {as : List α}
    (h : ∀ a ∈ as, Json.Plain (write a)) : Json.PlainItems (as.map write) := by
  induction as with
  | nil => trivial
  | cons a as ih => exact ⟨h a (by simp), ih fun b hb => h b (by simp [hb])⟩

theorem plain_natCast {n : ℕ} (h : n ≤ Schema.maxSafe) : Json.Plain (.num n) :=
  ⟨n, rfl, lt_of_le_of_lt h (by decide)⟩

theorem plain_nullOr {α : Type} {write : α → Json} {a : Option α}
    (h : ∀ b, a = some b → Json.Plain (write b)) : Json.Plain (nullOr write a) := by
  cases a with
  | none => trivial
  | some b => exact h b rfl

theorem plain_findingRecordJson (r : FindingRecord) : Json.Plain (findingRecordJson r) :=
  ⟨trivial, plain_nullOr fun _ _ => trivial, trivial, trivial, trivial⟩

theorem plain_historyEntryJson {e : HistoryEntry} (h : e.Fits) :
    Json.Plain (historyEntryJson e) :=
  ⟨trivial, trivial, plain_natCast h.attempt, trivial, trivial,
    plainItems_map fun r _ => plain_findingRecordJson r, trivial⟩

theorem plain_loopStateJson {s : LoopState} (h : s.Fits) : Json.Plain (loopStateJson s) := by
  refine ⟨plain_natCast (n := 1) (by decide), plain_nullOr fun n hn => ?_,
    plain_natCast (h.reviewAttempts.trans (by decide)), plain_nullOr fun _ _ => trivial,
    plain_nullOr fun _ _ => trivial, plainItems_map fun e he => plain_historyEntryJson (h.history e he),
    trivial⟩
  obtain ⟨k, rfl, -, hk⟩ := h.issue n hn
  exact plain_natCast hk

/-- A text that starts with a visible unit starts on its line. -/
theorem sameLine_of_head {c : ℕ} {t : Text} (hc : isSpace c = false) : SameLine (c :: t) := by
  rintro u v huv hu hv
  cases u with
  | nil =>
    rw [List.nil_append] at huv
    rw [← huv] at hv
    obtain rfl := (List.cons_prefix_cons.mp hv).1
    exact absurd hc (by decide)
  | cons d u =>
    rw [List.cons_append, List.cons.injEq] at huv
    have := hu d (by simp)
    rw [← huv.1, hc] at this
    exact absurd this (by decide)

/-- A text none of whose lines starts with a backtick runs up to the closing fence behind it. -/
theorem closesFirst_of_noTickLine {t : Text} (h : Json.NoTickLine t) (after : Text) :
    ClosesFirst t after := by
  rintro u v rfl hv hpre
  have hchain := (List.isChain_append.mp h.2).2.1
  match v, hv with
  | [c], _ =>
    have hpre' := (List.cons_prefix_cons.mp hpre).2
    exact absurd (List.cons_prefix_cons.mp hpre').1 (by decide)
  | c :: d :: v, _ =>
    obtain ⟨hc, hpre'⟩ := List.cons_prefix_cons.mp hpre
    have hd := (List.cons_prefix_cons.mp hpre').1
    exact (List.isChain_cons_cons.mp hchain).1 hc.symm hd.symm

variable [Host]

theorem serialiseLoopState_append (s : LoopState) (after : Text) :
    serialiseLoopState s ++ after = blockText (Json.stringify 2 (loopStateJson s)) after := by
  simp [serialiseLoopState, blockText, blockHead, closingFence, lit]

theorem stringify_head (s : LoopState) : ∃ t, Json.stringify 2 (loopStateJson s) = 123 :: t :=
  ⟨_, by rw [Json.stringify, loopStateJson, Json.write]; rfl⟩

/-- What is read from a comment in which the state's block is the one that is found. -/
theorem parseLoopState_of_capture {comment : Text} {s : LoopState} {issue : Option ℕ∞}
    (hs : s.Fits)
    (h : stateBlock.capture 1 comment = some (Json.stringify 2 (loopStateJson s))) :
    parseLoopState (some comment) issue = s := by
  simp only [parseLoopState, readBlock, Option.bind_some, h, Json.parse_stringify 2 _ (plain_loopStateJson hs),
    loopStateSchema_json hs, Option.getD_some]

/-- **The round trip.**  Behind any text without a marker and a fence behind it, a state that fits is
read back as it was written. -/
theorem parseLoopState_serialise {before : Text} {s : LoopState} (hs : s.Fits)
    (hbefore : ¬ Framing.OccursThen IsMarker IsFence before) (after : Text) (issue : Option ℕ∞) :
    parseLoopState (some (before ++ (serialiseLoopState s ++ after))) issue = s := by
  apply parseLoopState_of_capture hs
  rw [serialiseLoopState_append]
  apply capture_genuine hbefore
  · obtain ⟨t, ht⟩ := stringify_head s
    rw [ht]
    exact sameLine_of_head rfl
  · exact closesFirst_of_noTickLine (Json.noTickLine_write 2 _ 0 (plain_loopStateJson hs)) after

/-- **No round trip.**  Behind a text with a marker and a fence behind it, whatever is written, the
same is read. -/
theorem parseLoopState_forged {before : Text}
    (hbefore : Framing.OccursThen IsMarker IsFence before) (issue : Option ℕ∞) :
    ∃ r, ∀ (s : LoopState) (after : Text),
      parseLoopState (some (before ++ (serialiseLoopState s ++ after))) issue = r := by
  obtain ⟨x, hx⟩ := capture_forged hbefore
  refine ⟨readBlock x issue, fun s after => ?_⟩
  rw [serialiseLoopState_append]
  simp only [parseLoopState, Option.bind_some, hx]

/-- Written and read back, for whatever issue, the state is the same. -/
def RoundTrips (s : LoopState) : Prop :=
  ∀ issue, parseLoopState (some (serialiseLoopState s)) issue = s

/-- **Exactly the states that fit round-trip.** -/
theorem roundTrips_iff (s : LoopState) : RoundTrips s ↔ s.Fits := by
  constructor
  · intro h
    rcases parseLoopState_cases (some (serialiseLoopState s)) with hfresh | ⟨s', hs', hread⟩
    · have hnone := (hfresh none).symm.trans (h none)
      have hzero := (hfresh (some 0)).symm.trans (h (some 0))
      exact absurd (congrArg LoopState.issue (hnone.trans hzero.symm)) (by simp [initialState])
    · exact (hread none).symm.trans (h none) ▸ hs'
  · intro hs issue
    have hempty : ¬ Framing.OccursThen IsMarker IsFence [] := by
      rintro ⟨a, b, hab, ⟨m, hm, hma⟩, -⟩
      obtain ⟨rfl, rfl⟩ := List.nil_eq_append_iff.mp hab
      obtain ⟨m', rfl, -⟩ := hm.cons
      exact absurd (List.infix_nil.mp hma) (by simp)
    have h := parseLoopState_serialise hs hempty [] issue
    rwa [List.nil_append, List.append_nil] at h

end Newsdeck.Loop
