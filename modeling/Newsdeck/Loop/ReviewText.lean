import Newsdeck.Ecma.Derivations
import Newsdeck.Loop.StateRoundTrip

/-!
# Reviews in a text

What `parseReviewText` makes of a written review: alone, and in a code block with prose around it.
Line breaks inside strings are escaped, so no line of what is written begins with a backtick, and
the first fence that closes the block is its own.

* `ReviewResult.WrittenAs.read` — what the schema accepts of a written review is that review;
* `parseReviewText_bare` — alone, in whatever layout;
* `parseReviewText_fenced` — behind any text in which no code block is opened, and in front of any;
* `parseReviewText_stringify` — both, for a review without control characters.
-/

namespace Newsdeck.Loop

open Ecma

/-! ### Written reviews -/

/-- The members something that may be missing is written with: itself, `null`, or nothing. -/
def WrittenOptional {α : Type} (key : String) (write : α → Json) : Option α →
    List (Text × Json) → Prop
  | some a, members => members = [(lit key, write a)]
  | none, members => members = [] ∨ members = [(lit key, .null)]

/-- The finding as an object with these members, in any order. -/
def Finding.WrittenAs (finding : Finding) (value : Json) : Prop :=
  ∃ members file line, value = .obj members ∧
    WrittenOptional "file" .str finding.file file ∧
    WrittenOptional "line" (fun n : ℕ => .num n) finding.line line ∧
    members.Perm (file ++ line ++
      [(lit "severity", .str (severityText finding.severity)),
        (lit "description", .str finding.description),
        (lit "suggested_action", .str finding.suggestedAction), (lit "source", .str finding.source),
        (lit "category", .str finding.category)])

def ReviewResult.WrittenAs (result : ReviewResult) (value : Json) : Prop :=
  ∃ members findings, value = .obj members ∧
    List.Forall₂ Finding.WrittenAs result.findings findings ∧
    members.Perm [(lit "status", .str (reviewStatusText result.status)),
      (lit "findings", .arr findings), (lit "summary", .str result.summary)]

/-- The texts of a review. -/
def ReviewResult.texts (result : ReviewResult) : List Text :=
  result.summary :: result.findings.flatMap fun finding =>
    finding.file.toList ++
      [finding.description, finding.suggestedAction, finding.source, finding.category]

/-- No text holds a control character. -/
def ReviewResult.Clean (result : ReviewResult) : Prop :=
  ∀ text ∈ result.texts, ∀ c ∈ text, isControl c = false

theorem sanitiseText_of_clean {text : Text} (h : ∀ c ∈ text, isControl c = false) :
    sanitiseText text = text := by
  rw [sanitiseText, List.filter_eq_self]
  intro c hc
  rw [h c hc]
  rfl

theorem ReviewResult.Clean.sanitiseResult {result : ReviewResult} (h : result.Clean) :
    sanitiseResult result = result := by
  obtain ⟨status, findings, summary⟩ := result
  have hsummary : sanitiseText summary = summary :=
    sanitiseText_of_clean (h summary List.mem_cons_self)
  have hfindings : ∀ finding ∈ findings, { finding with
      description := sanitiseText finding.description
      suggestedAction := sanitiseText finding.suggestedAction } = finding := by
    intro finding hfinding
    have htext : ∀ text ∈ [finding.description, finding.suggestedAction, finding.source,
        finding.category], sanitiseText text = text := by
      intro text htext
      refine sanitiseText_of_clean (h text (List.mem_cons_of_mem _ ?_))
      exact List.mem_flatMap.mpr ⟨finding, hfinding, List.mem_append_right _ htext⟩
    rw [htext finding.description (by simp), htext finding.suggestedAction (by simp)]
  show ReviewResult.mk _ _ _ = _
  rw [hsummary, List.map_congr_left hfindings, List.map_id']

/-! ### Their numbers -/

theorem plainMembers_iff {members : List (Text × Json)} :
    Json.PlainMembers members ↔ ∀ member ∈ members, Json.Plain member.2 := by
  induction members with
  | nil => simp [Json.PlainMembers]
  | cons member members ih => simp [Json.PlainMembers, ih]

theorem plainItems_iff {values : List Json} :
    Json.PlainItems values ↔ ∀ value ∈ values, Json.Plain value := by
  induction values with
  | nil => simp [Json.PlainItems]
  | cons value values ih => simp [Json.PlainItems, ih]

/-- The lines the schema admits are numbers a double holds exactly. -/
theorem line_le_of_schema {raw : Option Json} {result : ReviewResult}
    (h : reviewResultSchema raw = some result) :
    ∀ finding ∈ result.findings, ∀ n, finding.line = some n → n ≤ Schema.maxSafe := by
  obtain ⟨members, -, hbuild⟩ := Schema.object_eq_some h
  simp only [Option.bind_eq_bind, Option.bind_eq_some_iff, Option.some.injEq] at hbuild
  obtain ⟨_, -, findings, hfindings, _, -, rfl⟩ := hbuild
  intro finding hfinding n hn
  obtain ⟨w, hw⟩ := Schema.array_eq_some (Schema.maxItems_eq_some hfindings).1 finding hfinding
  obtain ⟨_, -, hbuild⟩ := Schema.object_eq_some hw
  simp only [Option.bind_eq_bind, Option.bind_eq_some_iff, Option.some.injEq] at hbuild
  obtain ⟨_, -, _, -, line, hline, _, -, _, -, _, -, _, -, rfl⟩ := hbuild
  obtain rfl : line = some n := hn
  exact (Schema.nat_eq_some (Schema.nullish_eq_some hline)).2

theorem WrittenOptional.plain {α : Type} {key : String} {write : α → Json} {a : Option α}
    {members : List (Text × Json)} (h : WrittenOptional key write a members)
    (hwrite : ∀ b, a = some b → Json.Plain (write b)) :
      ∀ member ∈ members, Json.Plain member.2 := by
  intro member hmember
  cases a with
  | some b =>
    obtain rfl : members = [(lit key, write b)] := h
    rw [List.mem_singleton.mp hmember]
    exact hwrite b rfl
  | none =>
    rcases h with rfl | rfl
    · cases hmember
    · rw [List.mem_singleton.mp hmember]
      trivial

theorem Finding.WrittenAs.plain {finding : Finding} {value : Json} (h : finding.WrittenAs value)
    (hline : ∀ n, finding.line = some n → n ≤ Schema.maxSafe) : Json.Plain value := by
  obtain ⟨members, file, line, rfl, hfile, hlines, hperm⟩ := h
  refine plainMembers_iff.mpr fun member hmember => ?_
  rw [hperm.mem_iff, List.mem_append, List.mem_append] at hmember
  rcases hmember with (hmember | hmember) | hmember
  · exact hfile.plain (fun _ _ => trivial) member hmember
  · exact hlines.plain (fun n hn => plain_natCast (hline n hn)) member hmember
  · simp only [List.mem_cons, List.not_mem_nil, or_false] at hmember
    rcases hmember with rfl | rfl | rfl | rfl | rfl <;> trivial

theorem ReviewResult.WrittenAs.plain {result : ReviewResult} {value : Json}
    (h : result.WrittenAs value)
    (hlines : ∀ finding ∈ result.findings, ∀ n, finding.line = some n → n ≤ Schema.maxSafe) :
    Json.Plain value := by
  obtain ⟨members, findings, rfl, hfindings, hperm⟩ := h
  have hplain : Json.Plain (.arr findings) := by
    refine plainItems_iff.mpr fun value hvalue => ?_
    obtain ⟨i, hi, rfl⟩ := List.getElem_of_mem hvalue
    obtain ⟨hlength, hget⟩ := List.forall₂_iff_get.mp hfindings
    exact (hget i (by omega) hi).plain (hlines _ (List.get_mem _ _))
  refine plainMembers_iff.mpr fun member hmember => ?_
  rw [hperm.mem_iff] at hmember
  simp only [List.mem_cons, List.not_mem_nil, or_false] at hmember
  rcases hmember with rfl | rfl | rfl
  · trivial
  · exact hplain
  · trivial

/-! ### What is read of them -/

/-- Where no key comes twice, each member is what its key reads. -/
theorem get?_eq_some_iff_mem {members : List (Text × Json)} (h : (members.map Prod.fst).Nodup)
    {key : Text} {value : Json} : Json.get? members key = some value ↔ (key, value) ∈ members := by
  have hkey : ∀ {found : Text × Json}, members.reverse.find? (fun m => m.1 = key) = some found →
      found ∈ members ∧ found.1 = key := fun hfound =>
    ⟨List.mem_reverse.mp (List.mem_of_find?_eq_some hfound),
      by simpa using @List.find?_some _ (fun m : Text × Json => m.1 = key) _ _ hfound⟩
  unfold Json.get?
  rw [Option.map_eq_some_iff]
  constructor
  · rintro ⟨found, hfound, rfl⟩
    obtain ⟨hmem, rfl⟩ := hkey hfound
    exact hmem
  · intro hmem
    obtain ⟨found, hfound⟩ : ∃ found, members.reverse.find? (fun m => m.1 = key) = some found :=
      Option.isSome_iff_exists.mp
        (List.find?_isSome.mpr ⟨_, List.mem_reverse.mpr hmem, decide_eq_true rfl⟩)
    obtain ⟨hfoundmem, hsame⟩ := hkey hfound
    exact ⟨found, hfound, congrArg Prod.snd (List.inj_on_of_nodup_map h hfoundmem hmem hsame)⟩

theorem text_read {ok : Text → Bool} {t t' : Text} (h : Schema.text ok (some (.str t)) = some t') :
    t' = t := by
  unfold Schema.text at h
  dsimp only at h
  split at h
  · exact (Option.some.inj h).symm
  · cases h

theorem nat_read {lo hi n m : ℕ} (h : Schema.nat lo hi (some (.num n)) = some m) : m = n := by
  unfold Schema.nat at h
  dsimp only at h
  split at h
  · simpa using (Option.some.inj h).symm
  · cases h

theorem WrittenOptional.keys {α : Type} {key : String} {write : α → Json} {a : Option α}
    {part : List (Text × Json)} (h : WrittenOptional key write a part) :
    part.map Prod.fst = [] ∨ part.map Prod.fst = [lit key] := by
  cases a with
  | some b => exact .inr (congrArg (List.map Prod.fst) h)
  | none => exact h.imp (congrArg (List.map Prod.fst)) (congrArg (List.map Prod.fst))

theorem WrittenOptional.not_mem {α : Type} {key : String} {write : α → Json} {a : Option α}
    {part : List (Text × Json)} (h : WrittenOptional key write a part) {other : Text}
    (hother : other ≠ lit key) (value : Json) : (other, value) ∉ part := by
  intro hmem
  have hkey : other ∈ part.map Prod.fst := List.mem_map_of_mem hmem
  rcases h.keys with hnone | hone
  · rw [hnone] at hkey
    cases hkey
  · rw [hone] at hkey
    exact hother (List.mem_singleton.mp hkey)

/-- What may be missing is read as it is. -/
theorem WrittenOptional.read {α : Type} {key : String} {write : α → Json} {a r : Option α}
    {part members : List (Text × Json)} (h : WrittenOptional key write a part)
    (hmembers : ∀ value, Json.get? members (lit key) = some value ↔ (lit key, value) ∈ part)
    {s : Schema α} (hs : ∀ b c, s (some (write b)) = some c → c = b) (hnull : ∀ b, write b ≠ .null)
    (hread : Schema.nullish s (Json.get? members (lit key)) = some r) : r = a := by
  cases a with
  | some b =>
    obtain rfl : part = [(lit key, write b)] := h
    rw [(hmembers (write b)).mpr (List.mem_singleton_self _)] at hread
    unfold Schema.nullish at hread
    split at hread
    · cases ‹some (write b) = none›
    · exact absurd (Option.some.inj ‹some (write b) = some .null›) (hnull b)
    · obtain ⟨c, hc, rfl⟩ := Option.map_eq_some_iff.mp hread
      rw [hs b c hc]
  | none =>
    rcases h with rfl | rfl
    · have hnone : Json.get? members (lit key) = none :=
        Option.eq_none_iff_forall_ne_some.mpr fun value hvalue => by
          cases (hmembers value).mp hvalue
      rw [hnone] at hread
      exact (Option.some.inj hread).symm
    · rw [(hmembers .null).mpr (List.mem_singleton_self _)] at hread
      exact (Option.some.inj hread).symm

theorem severity_read {severity read : Severity}
    (h : severitySchema (some (.str (severityText severity))) = some read) : read = severity := by
  cases severity <;> exact (Option.some.inj h).symm

theorem status_read {status read : ReviewStatus}
    (h : reviewStatusSchema (some (.str (reviewStatusText status))) = some read) :
      read = status := by
  cases status <;> exact (Option.some.inj h).symm

/-- **A finding is read as it was.** -/
theorem Finding.WrittenAs.read {finding found : Finding} {value : Json}
    (h : finding.WrittenAs value)
    (hread : findingSchema (some value) = some found) : found = finding := by
  obtain ⟨members, file, line, rfl, hfile, hline, hperm⟩ := h
  obtain ⟨rest, hrest⟩ : ∃ rest : List (Text × Json), rest =
      [(lit "severity", .str (severityText finding.severity)),
        (lit "description", .str finding.description),
        (lit "suggested_action", .str finding.suggestedAction), (lit "source", .str finding.source),
        (lit "category", .str finding.category)] := ⟨_, rfl⟩
  have hkeys : rest.map Prod.fst = [lit "severity", lit "description", lit "suggested_action",
      lit "source", lit "category"] := by rw [hrest]; rfl
  rw [← hrest] at hperm
  have hnodup : (members.map Prod.fst).Nodup := by
    rw [(hperm.map Prod.fst).nodup_iff, List.map_append, List.map_append, hkeys]
    rcases hfile.keys with hf | hf <;> rcases hline.keys with hl | hl <;> rw [hf, hl] <;> decide
  have hget : ∀ {key value}, Json.get? members key = some value ↔
      (key, value) ∈ file ++ line ++ rest :=
    (get?_eq_some_iff_mem hnodup).trans hperm.mem_iff
  have hown : ∀ key value, (key, value) ∈ rest → Json.get? members key = some value :=
      fun _ _ hmem =>
    hget.mpr (List.mem_append_right _ hmem)
  have hnot : ∀ {key value}, key ∉ rest.map Prod.fst → (key, value) ∉ rest := fun hkey hmem =>
    hkey (List.mem_map_of_mem hmem)
  have hfiles : ∀ value, Json.get? members (lit "file") = some value ↔
      (lit "file", value) ∈ file := by
    intro value
    rw [hget, List.mem_append, List.mem_append, or_iff_left (hnot (by rw [hkeys]; decide)),
      or_iff_left (hline.not_mem (by decide) value)]
  have hlines : ∀ value, Json.get? members (lit "line") = some value ↔
      (lit "line", value) ∈ line := by
    intro value
    rw [hget, List.mem_append, List.mem_append, or_iff_left (hnot (by rw [hkeys]; decide)),
      or_iff_right (hfile.not_mem (by decide) value)]
  obtain ⟨_, hobj, hbuild⟩ := Schema.object_eq_some hread
  cases hobj
  simp only [Option.bind_eq_bind, Option.bind_eq_some_iff, Option.some.injEq] at hbuild
  obtain ⟨severity, hseverity, path, hpath, number, hnumber, description, hdescription, action,
    haction, source, hsource, category, hcategory, rfl⟩ := hbuild
  rw [hown _ (.str (severityText finding.severity)) (by simp [hrest])] at hseverity
  rw [hown _ (.str finding.description) (by simp [hrest])] at hdescription
  rw [hown _ (.str finding.suggestedAction) (by simp [hrest])] at haction
  rw [hown _ (.str finding.source) (by simp [hrest])] at hsource
  rw [hown _ (.str finding.category) (by simp [hrest])] at hcategory
  have hpath' : path = finding.file :=
    hfile.read hfiles (fun _ _ => text_read) (fun _ => nofun) hpath
  have hnumber' : number = finding.line :=
    hline.read hlines (fun _ _ => nat_read) (fun _ => nofun) hnumber
  have hsource' : source = finding.source :=
    text_read (show textUpTo 64 (some (.str finding.source)) = some source from hsource)
  have hcategory' : category = finding.category :=
    text_read (show textUpTo 64 (some (.str finding.category)) = some category from hcategory)
  rw [severity_read hseverity, hpath', hnumber', text_read hdescription, text_read haction,
    hsource', hcategory']

theorem findings_read {findings found : List Finding} {values : List Json}
    (h : List.Forall₂ Finding.WrittenAs findings values)
    (hread : (values.mapM fun value => findingSchema (some value)) = some found) :
      found = findings := by
  induction h generalizing found with
  | nil => exact (Option.some.inj hread).symm
  | cons hfirst _ ih =>
    simp only [List.mapM_cons, Option.bind_eq_bind, Option.bind_eq_some_iff, Option.pure_def,
      Option.some.injEq] at hread
    obtain ⟨first, hfirst', rest, hrest, rfl⟩ := hread
    rw [hfirst.read hfirst', ih hrest]

/-- **A review is read as it was.** -/
theorem ReviewResult.WrittenAs.read {result accepted : ReviewResult} {value : Json}
    (h : result.WrittenAs value)
    (hread : reviewResultSchema (some value) = some accepted) : accepted = result := by
  obtain ⟨members, findings, rfl, hfindings, hperm⟩ := h
  have hnodup : (members.map Prod.fst).Nodup := by
    rw [(hperm.map Prod.fst).nodup_iff]
    show [lit "status", lit "findings", lit "summary"].Nodup
    decide
  have hget : ∀ {key value}, Json.get? members key = some value ↔ (key, value) ∈ _ :=
    (get?_eq_some_iff_mem hnodup).trans hperm.mem_iff
  obtain ⟨_, hobj, hbuild⟩ := Schema.object_eq_some hread
  cases hobj
  simp only [Option.bind_eq_bind, Option.bind_eq_some_iff, Option.some.injEq] at hbuild
  obtain ⟨status, hstatus, found, hfound, summary, hsummary, rfl⟩ := hbuild
  rw [hget.mpr (show (_, Json.str (reviewStatusText result.status)) ∈ _ by simp)] at hstatus
  rw [hget.mpr (show (_, Json.arr findings) ∈ _ by simp)] at hfound
  rw [hget.mpr (show (_, Json.str result.summary) ∈ _ by simp)] at hsummary
  rw [status_read hstatus, findings_read hfindings (Schema.maxItems_eq_some hfound).1,
    text_read hsummary]

/-! ### Code blocks -/

/-- What opens a code block: three backticks, perhaps the word `json`, and blanks up to a line
break. -/
def IsOpening (fence : Text) : Prop :=
  ∃ word gap, (word = [] ∨ word = lit "json") ∧ (∀ c ∈ gap, isSpace c = true) ∧
    fence = lit "```" ++ (word ++ (gap ++ [10]))

/-- No code block is opened in the text. -/
def Unfenced (text : Text) : Prop := ∀ fence, IsOpening fence → ¬fence <:+: text

theorem unfenced_of_absent {text : Text} (h : ¬lit "```" <:+: text) : Unfenced text := by
  rintro fence ⟨word, gap, -, -, rfl⟩ hfence
  exact h ((List.prefix_append _ _).isInfix.trans hfence)

/-- A fence is longer than what it begins with, and holds no further backtick. -/
theorem IsOpening.exists_rest {fence : Text} (h : IsOpening fence) :
    ∃ c rest, fence = 96 :: 96 :: 96 :: c :: rest ∧ c ≠ 96 ∧ 96 ∉ rest := by
  obtain ⟨word, gap, hword, hgap, rfl⟩ := h
  have hnone : 96 ∉ word ++ (gap ++ [10]) := by
    rw [List.mem_append, List.mem_append, not_or, not_or]
    refine ⟨?_, fun hmem => absurd (hgap 96 hmem) (by decide), by decide⟩
    rcases hword with rfl | rfl <;> decide
  obtain ⟨c, rest, hsplit⟩ := List.exists_cons_of_ne_nil
    (l := word ++ (gap ++ [10])) (by simp)
  rw [hsplit, List.mem_cons, not_or] at hnone
  rw [hsplit]
  exact ⟨c, rest, rfl, fun hc => hnone.1 hc.symm, hnone.2⟩

/-- A block that is opened behind a text opens at its own fence. -/
theorem Unfenced.not_opening {front back : Text} (h : Unfenced (front ++ back)) (hne : back ≠ [])
    {fence : Text} (hfence : IsOpening fence) (rest : Text) :
    ¬fence <+: back ++ (lit "```" ++ rest) := by
  intro hpre
  rcases List.prefix_or_prefix_of_prefix hpre (List.prefix_append back _) with hwithin | hover
  · exact h fence hfence (hwithin.isInfix.trans (List.suffix_append front back).isInfix)
  · -- the fence would go on with the backticks behind the text
    obtain ⟨c, more, rfl, hc, hmore⟩ := hfence.exists_rest
    obtain ⟨beyond, hover⟩ := hover
    rw [← hover, List.prefix_append_right_inj] at hpre
    have htick : 96 ∉ c :: more := by
      rw [List.mem_cons, not_or]
      exact ⟨fun heq => hc heq.symm, hmore⟩
    match back, hne with
    | [a], _ =>
      obtain ⟨-, rfl⟩ := List.cons.inj hover
      exact hc
        (List.cons_prefix_cons.mp (List.cons_prefix_cons.mp (List.cons_prefix_cons.mp hpre).2).2).1
    | [a, a'], _ =>
      simp only [List.cons_append, List.nil_append, List.cons.injEq] at hover
      obtain ⟨-, -, rfl⟩ := hover
      exact hc (List.cons_prefix_cons.mp (List.cons_prefix_cons.mp hpre).2).1
    | [a, a', a''], _ =>
      simp only [List.cons_append, List.nil_append, List.cons.injEq] at hover
      obtain ⟨-, -, -, rfl⟩ := hover
      exact hc (List.cons_prefix_cons.mp hpre).1
    | a :: a' :: a'' :: d :: back, _ =>
      simp only [List.cons_append, List.cons.injEq] at hover
      obtain ⟨rfl, rfl, rfl, rfl, rfl⟩ := hover
      cases beyond with
      | nil =>
        rw [List.append_nil] at hfence
        exact h _ hfence (List.suffix_append front _).isInfix
      | cons tick beyond =>
        obtain rfl : tick = 96 := (List.cons_prefix_cons.mp hpre).1
        exact htick (List.mem_cons_of_mem d (List.mem_append_right back List.mem_cons_self))

theorem takes_fencedJson {b t : Text} {caps : Captures ℕ} {x : Cursor ℕ × Captures ℕ}
    (h : fencedJson.Takes (⟨b, t⟩, caps) x) :
    ∃ fence content rest, IsOpening fence ∧ t = fence ++ (content ++ (closingFence ++ rest)) := by
  obtain ⟨_, h₁, _, h₂, _, h₃, _, h₄, _, h₅, h₆⟩ := h
  obtain ⟨_, rfl, rfl⟩ := Regex.takes_units.mp h₁
  obtain ⟨word, _, hword, rfl, rfl⟩ := Regex.takes_opt_units.mp h₂
  obtain ⟨gap, _, rfl, hgap, rfl⟩ := Regex.takes_many.mp h₃
  obtain ⟨_, rfl, rfl⟩ := Regex.takes_units.mp h₄
  obtain ⟨_, h₅', rfl⟩ := Regex.takes_group.mp h₅
  obtain ⟨content, _, rfl, -, rfl⟩ := Regex.takes_lazy.mp h₅'
  obtain ⟨rest, rfl, -⟩ := Regex.takes_units.mp h₆
  refine ⟨_, content, rest, ⟨word, gap, hword, hgap, rfl⟩, ?_⟩
  simp only [List.append_assoc]
  rfl

/-- In a text none of whose lines begins with a backtick no block is found. -/
theorem fencedJson_capture_none {text : Text} (h : Json.NoTickLine text) :
    fencedJson.capture 1 text = none := by
  cases hx : fencedJson.exec text with
  | none => rw [Regex.capture, hx]; rfl
  | some x =>
    obtain ⟨u, v, rfl, hrun, -⟩ := Regex.exec_spec hx
    obtain ⟨fence, content, rest, -, rfl⟩ := takes_fencedJson (Regex.takes_of_run_done hrun)
    have hchain := h.2
    rw [← List.append_assoc, ← List.append_assoc] at hchain
    exact absurd rfl ((List.isChain_cons_cons.mp (List.isChain_append.mp hchain).2.1).1 rfl)

theorem fencedJson_run {b body after : Text}
    (hline : SameLine (body ++ (closingFence ++ after))) (hfirst : ClosesFirst body after) :
    ∃ pos, fencedJson.run Regex.done ⟨b, lit "```json\n" ++ (body ++ (closingFence ++ after))⟩ [] =
      some (pos, [(1, body)]) := by
  obtain ⟨pos, hpos⟩ := @blockBody_run b [] body after (by simp) hline hfirst
  refine ⟨pos, ?_⟩
  have hrun : fencedJson.run Regex.done = (Regex.str "```").run ((Regex.opt (.str "json")).run
      ((Regex.many .space).run ((Regex.str "\n").run ((Regex.group 1 (.lazy .any)).run
        ((Regex.str "\n```").run Regex.done))))) := rfl
  have hrun' : blockBody.run Regex.done = (Regex.str "```json").run
      ((Regex.many .space).run ((Regex.str "\n").run ((Regex.group 1 (.lazy .any)).run
        ((Regex.str "\n```").run Regex.done)))) := rfl
  have htext : lit "```json\n" ++ (body ++ (closingFence ++ after)) =
      lit "```" ++ (lit "json" ++ 10 :: (body ++ (closingFence ++ after))) := rfl
  rw [hrun', Regex.str, Regex.run_units_append] at hpos
  rw [hrun, htext, Regex.str, Regex.run_units_append, Regex.opt, Regex.run_alt, Regex.str,
    Regex.run_units_append, Option.or_eq_some_iff]
  exact .inl hpos

/-- **The written block is found**, behind a text in which none is opened. -/
theorem fencedJson_capture {before body after : Text} (hbefore : Unfenced before)
    (hline : SameLine (body ++ (closingFence ++ after))) (hfirst : ClosesFirst body after) :
    fencedJson.capture 1 (before ++ (lit "```json\n" ++ (body ++ (closingFence ++ after)))) =
      some body := by
  have hskip : ∀ u v, before = u ++ v → v ≠ [] → fencedJson.run Regex.done
      ⟨u.reverse ++ [], v ++ (lit "```json\n" ++ (body ++ (closingFence ++ after)))⟩ [] = none := by
    rintro u v rfl hv
    refine Regex.run_done_eq_none_iff.mpr fun x htakes => ?_
    obtain ⟨fence, content, rest, hfence, heq⟩ := takes_fencedJson htakes
    exact hbefore.not_opening hv hfence (lit "json\n" ++ (body ++ (closingFence ++ after)))
      ⟨_, heq.symm⟩
  obtain ⟨pos, hpos⟩ := fencedJson_run (b := before.reverse ++ []) hline hfirst
  rw [Regex.capture, Regex.exec, Regex.search_eq_skip fencedJson before [] _ hskip,
    Regex.search_eq_here hpos]
  rfl

/-! ### Reading -/

section

variable [Complaints] {raw : Json} {result : ReviewResult}

theorem parseReviewText_of_candidate {text candidate : Text}
    (hcandidate : (fencedJson.capture 1 text).getD text = candidate)
    (hparse : Json.parse candidate = some raw)
    (hschema : reviewResultSchema (some raw) = some result)
    (hclean : result.Clean) : parseReviewText text = ⟨true, [], result⟩ := by
  unfold parseReviewText
  simp only [hcandidate, hparse, parseReviewResult, hschema, hclean.sanitiseResult]

variable [Host]

theorem parseReviewText_bare (hplain : Json.Plain raw)
    (hschema : reviewResultSchema (some raw) = some result) (hclean : result.Clean) (gap : ℕ) :
    parseReviewText (Json.stringify gap raw) = ⟨true, [], result⟩ := by
  apply parseReviewText_of_candidate _ (Json.parse_stringify gap raw hplain) hschema hclean
  have hnone : fencedJson.capture 1 (Json.stringify gap raw) = none :=
    fencedJson_capture_none (Json.noTickLine_write gap raw 0 hplain)
  rw [hnone]
  rfl

theorem parseReviewText_fenced (hplain : Json.Plain raw)
    (hschema : reviewResultSchema (some raw) = some result) (hclean : result.Clean) (gap : ℕ)
    {before : Text} (hbefore : Unfenced before) (after : Text) :
    parseReviewText (before ++ (lit "```json\n" ++ (Json.stringify gap raw ++
      (closingFence ++ after)))) = ⟨true, [], result⟩ := by
  apply parseReviewText_of_candidate _ (Json.parse_stringify gap raw hplain) hschema hclean
  have hhead : ∃ t, Json.stringify gap raw = 123 :: t := by
    obtain ⟨members, hobj, -⟩ := Schema.object_eq_some hschema
    rw [Option.some.inj hobj]
    cases members with
    | nil => exact ⟨[125], rfl⟩
    | cons member members => exact ⟨_, by rw [Json.stringify, Json.write]; rfl⟩
  obtain ⟨t, ht⟩ := hhead
  have hline : SameLine (Json.stringify gap raw ++ (closingFence ++ after)) := by
    rw [ht]
    exact sameLine_of_head (by decide)
  rw [fencedJson_capture hbefore hline
    (closesFirst_of_noTickLine (Json.noTickLine_write gap raw 0 hplain) after)]
  rfl

/-- **A written review is read back** as it was, alone and in a code block, for any layout, any text
in which no block is opened in front of it and any text behind. -/
theorem parseReviewText_stringify (hwritten : result.WrittenAs raw)
    (haccepted : (reviewResultSchema (some raw)).isSome = true) (hclean : result.Clean) (gap : ℕ)
    {before : Text} (hbefore : Unfenced before) (after : Text) :
    parseReviewText (Json.stringify gap raw) = ⟨true, [], result⟩ ∧
    parseReviewText (before ++ (lit "```json\n" ++ (Json.stringify gap raw ++
      (lit "\n```" ++ after)))) = ⟨true, [], result⟩ := by
  obtain ⟨accepted, hschema⟩ := Option.isSome_iff_exists.mp haccepted
  rw [hwritten.read hschema] at hschema
  have hplain := hwritten.plain (line_le_of_schema hschema)
  exact ⟨parseReviewText_bare hplain hschema hclean gap,
    parseReviewText_fenced hplain hschema hclean gap hbefore after⟩

end

/-! ### A review that quotes a review -/

/-- A finding without a line whose description holds a code block, braces and all. -/
def quotingReview : ReviewResult where
  status := .requestChanges
  findings := [⟨.medium, some (lit "README.md"), none, lit "Drop\n```json\n\x7b\x7d\n```\nhere.",
    lit "Use `text`.", lit "agent", lit "docs"⟩]
  summary := lit "One ``` is left."

def quotingFinding : Json :=
  .obj [(lit "severity", .str (lit "medium")), (lit "file", .str (lit "README.md")),
    (lit "line", .null), (lit "description", .str (lit "Drop\n```json\n\x7b\x7d\n```\nhere.")),
    (lit "suggested_action", .str (lit "Use `text`.")), (lit "source", .str (lit "agent")),
    (lit "category", .str (lit "docs"))]

def quotingJson : Json :=
  .obj [(lit "status", .str (lit "request_changes")), (lit "findings", .arr [quotingFinding]),
    (lit "summary", .str (lit "One ``` is left."))]

theorem quotingReview_written : quotingReview.WrittenAs quotingJson := by
  refine ⟨_, [quotingFinding], rfl, .cons ?_ .nil, .refl _⟩
  refine ⟨_, [(lit "file", .str (lit "README.md"))], [(lit "line", .null)], rfl, rfl, .inr rfl, ?_⟩
  exact (List.Perm.swap _ _ _).trans ((List.Perm.swap _ _ _).cons _)

theorem quotingReview_clean : quotingReview.Clean := by
  show ∀ text ∈ quotingReview.texts, ∀ c ∈ text, isControl c = false
  decide +kernel

@[reducible] def wordlessComplaints : Complaints := ⟨fun _ => [], fun _ => []⟩

theorem parseReviewText_quoting :
    @parseReviewText wordlessComplaints (@Json.stringify asciiHost 2 quotingJson) =
      ⟨true, [], quotingReview⟩ ∧
    @parseReviewText wordlessComplaints (lit "Here is my review:\n\n" ++ (lit "```json\n" ++
      (@Json.stringify asciiHost 2 quotingJson ++ (lit "\n```" ++ lit "\nDone.\n")))) =
        ⟨true, [], quotingReview⟩ :=
  @parseReviewText_stringify wordlessComplaints quotingJson quotingReview asciiHost
    quotingReview_written (by decide +kernel) quotingReview_clean 2 _
    (unfenced_of_absent (by decide +kernel)) (lit "\nDone.\n")

end Newsdeck.Loop
