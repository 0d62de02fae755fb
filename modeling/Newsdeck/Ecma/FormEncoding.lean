import Newsdeck.Ecma.Json

/-!
# The form encoding of a query

The parser and the serializer of `application/x-www-form-urlencoded`, between bytes.

* `parse_append` — the parameters of two queries that are joined by an ampersand;
* `parse_serialize` — what is written for some parameters is read as these;
* `mem_serialize` — which units are written.
-/

namespace Ecma.FormEncoding

open Json

/-- ASCII letters and digits, and `*-._`. -/
def isPlain (c : ℕ) : Bool :=
  (48 ≤ c && c ≤ 57) || (65 ≤ c && c ≤ 90) || (97 ≤ c && c ≤ 122) || c ∈ [42, 45, 46, 95]

def upperHex (d : ℕ) : ℕ := if d < 10 then 48 + d else 55 + d

def encodeByte (c : ℕ) : Text :=
  if c = 32 then [43] else if isPlain c then [c] else [37, upperHex (c / 16), upperHex (c % 16)]

def encode (text : Text) : Text := text.flatMap encodeByte

/-- The byte of an escape that begins with the unit. -/
def escapeAt (c : ℕ) : Text → Option ℕ
  | a :: b :: _ =>
      if c = 37 then do
        let high ← hexValue a
        let low ← hexValue b
        some (16 * high + low)
      else none
  | _ => none

/-- A plus sign is a space, and a percent sign that no two digits follow stands for itself.  The first
argument counts the digits of the current escape still to be dropped. -/
def decodeFrom : ℕ → Text → Text
  | _, [] => []
  | skip + 1, _ :: rest => decodeFrom skip rest
  | 0, c :: rest =>
      if c = 43 then 32 :: decodeFrom 0 rest
      else
        match escapeAt c rest with
        | some byte => byte :: decodeFrom 2 rest
        | none => c :: decodeFrom 0 rest

def decode (text : Text) : Text := decodeFrom 0 text

def parsePiece (piece : Text) : Text × Text :=
  (decode (piece.takeWhile (· ≠ 61)), decode ((piece.dropWhile (· ≠ 61)).drop 1))

def parse (query : Text) : List (Text × Text) :=
  ((query.splitOn 38).filter (· ≠ [])).map parsePiece

def serializePiece (param : Text × Text) : Text := encode param.1 ++ 61 :: encode param.2

def serialize (params : List (Text × Text)) : Text := join [38] (params.map serializePiece)

theorem parse_append (a b : Text) : parse (a ++ 38 :: b) = parse a ++ parse b := by
  unfold parse
  rw [List.splitOn_append_cons_self, List.filter_append, List.map_append]

/-! ### Bytes -/

theorem hexValue_upperHex {d : ℕ} (h : d < 16) : hexValue (upperHex d) = some d := by
  revert d
  decide

theorem escapeAt_lt {c byte : ℕ} {rest : Text} (h : escapeAt c rest = some byte) : byte < 256 := by
  have hdigit : ∀ {c d : ℕ}, hexValue c = some d → d < 16 := by
    intro c d hd
    unfold hexValue at hd
    grind
  unfold escapeAt at h
  split at h
  · split at h
    · obtain ⟨high, hhigh, h⟩ := Option.bind_eq_some_iff.mp h
      obtain ⟨low, hlow, h⟩ := Option.bind_eq_some_iff.mp h
      obtain rfl := Option.some.inj h
      have := hdigit hhigh
      have := hdigit hlow
      omega
    · cases h
  · cases h

/-- Both halves of a byte are digits. -/
theorem decode_encodeByte {c : ℕ} (hc : c < 256) (rest : Text) :
    decode (encodeByte c ++ rest) = c :: decode rest := by
  unfold encodeByte
  by_cases hspace : c = 32
  · rw [if_pos hspace, hspace]
    rfl
  · rw [if_neg hspace]
    by_cases hplain : isPlain c = true
    · rw [if_pos hplain]
      have hplus : c ≠ 43 := by
        rintro rfl
        exact absurd hplain (by decide)
      have hpercent : c ≠ 37 := by
        rintro rfl
        exact absurd hplain (by decide)
      have hescape : escapeAt c rest = none := by
        unfold escapeAt
        split
        · exact if_neg hpercent
        · rfl
      show decodeFrom 0 (c :: rest) = _
      simp only [decodeFrom, if_neg hplus, hescape]
      rfl
    · rw [if_neg hplain]
      have hbyte : escapeAt 37 (upperHex (c / 16) :: upperHex (c % 16) :: rest) = some c := by
        have hhigh := hexValue_upperHex (show c / 16 < 16 by omega)
        have hlow := hexValue_upperHex (show c % 16 < 16 by omega)
        simp only [escapeAt, if_true, hhigh, hlow, Option.bind_eq_bind, Option.bind_some]
        rw [Nat.div_add_mod]
      show decodeFrom 0 (37 :: upperHex (c / 16) :: upperHex (c % 16) :: rest) = _
      simp only [decodeFrom, hbyte]
      rfl

theorem decode_encode {text : Text} (h : ∀ c ∈ text, c < 256) : decode (encode text) = text := by
  unfold encode
  induction text with
  | nil => rfl
  | cons c text ih =>
    rw [List.flatMap_cons, decode_encodeByte (h c List.mem_cons_self),
      ih fun d hd => h d (List.mem_cons_of_mem c hd)]

theorem decodeFrom_lt {text : Text} (h : ∀ c ∈ text, c < 256) :
    ∀ skip, ∀ c ∈ decodeFrom skip text, c < 256 := by
  induction text with
  | nil =>
    intro skip c hc
    cases skip <;> cases hc
  | cons first rest ih =>
    have hrest := ih fun c hc => h c (List.mem_cons_of_mem first hc)
    intro skip c hc
    cases skip with
    | succ skip => exact hrest skip c hc
    | zero =>
      unfold decodeFrom at hc
      split at hc
      · rcases List.mem_cons.mp hc with rfl | hc
        · decide
        · exact hrest 0 c hc
      · split at hc
        · rename_i byte hbyte
          rcases List.mem_cons.mp hc with rfl | hc
          · exact escapeAt_lt hbyte
          · exact hrest 2 c hc
        · rcases List.mem_cons.mp hc with rfl | hc
          · exact h _ List.mem_cons_self
          · exact hrest 0 c hc

/-- What is written is a plain unit, a plus sign, or belongs to an escape. -/
def IsEncoded (c : ℕ) : Prop := isPlain c = true ∨ c = 43 ∨ c = 37

instance : DecidablePred IsEncoded := fun c => inferInstanceAs (Decidable (isPlain c = true ∨ c = 43 ∨ c = 37))

theorem mem_encode {text : Text} (h : ∀ c ∈ text, c < 256) {c : ℕ} (hc : c ∈ encode text) :
    IsEncoded c := by
  obtain ⟨d, hd, hc⟩ := List.mem_flatMap.mp hc
  have hdigit : ∀ n < 16, isPlain (upperHex n) = true := by decide
  have hbyte := h d hd
  unfold encodeByte at hc
  split at hc
  · exact .inr (.inl (List.mem_singleton.mp hc))
  · split at hc
    · rename_i hplain
      rw [List.mem_singleton.mp hc]
      exact .inl hplain
    · simp only [List.mem_cons, List.not_mem_nil, or_false] at hc
      rcases hc with rfl | rfl | rfl
      · exact .inr (.inr rfl)
      · exact .inl (hdigit _ (by omega))
      · exact .inl (hdigit _ (by omega))

/-! ### Parameters -/

section Params

variable {params : List (Text × Text)}

/-- The names and values are bytes. -/
def Bytes (params : List (Text × Text)) : Prop :=
  ∀ param ∈ params, (∀ c ∈ param.1, c < 256) ∧ ∀ c ∈ param.2, c < 256

theorem mem_join_of_mem {sep : Text} {parts : List Text} {part : Text} {c : ℕ} (hpart : part ∈ parts)
    (hc : c ∈ part) : c ∈ join sep parts := by
  unfold join
  induction parts with
  | nil => cases hpart
  | cons first rest ih =>
    cases rest with
    | nil =>
      obtain rfl := List.mem_singleton.mp hpart
      simpa using hc
    | cons second rest =>
      rw [List.intercalate_cons_cons]
      rcases List.mem_cons.mp hpart with rfl | hpart
      · exact List.mem_append_left _ (List.mem_append_left _ hc)
      · exact List.mem_append_right _ (ih hpart)

theorem mem_join {sep : Text} {parts : List Text} {c : ℕ} (hc : c ∈ join sep parts) :
    c ∈ sep ∨ ∃ part ∈ parts, c ∈ part := by
  unfold join at hc
  induction parts with
  | nil => cases hc
  | cons first rest ih =>
    cases rest with
    | nil => exact .inr ⟨first, List.mem_cons_self, by simpa using hc⟩
    | cons second rest =>
      rw [List.intercalate_cons_cons] at hc
      rcases List.mem_append.mp hc with hc | hc
      · rcases List.mem_append.mp hc with hc | hc
        · exact .inr ⟨first, List.mem_cons_self, hc⟩
        · exact .inl hc
      · exact (ih hc).imp_right fun ⟨part, hpart, hmem⟩ => ⟨part, List.mem_cons_of_mem _ hpart, hmem⟩

theorem mem_of_mem_splitOn {piece : Text} {c : ℕ} (query : Text) (hpiece : piece ∈ query.splitOn 38)
    (hc : c ∈ piece) : c ∈ query := by
  have hmem : c ∈ join [38] (query.splitOn 38) := mem_join_of_mem hpiece hc
  unfold join at hmem
  rwa [List.intercalate_splitOn] at hmem

theorem parse_bytes {query : Text} (h : ∀ c ∈ query, c < 256) : Bytes (parse query) := by
  intro param hparam
  obtain ⟨piece, hpiece, rfl⟩ := List.mem_map.mp hparam
  have hmem : ∀ c ∈ piece, c < 256 := fun c hc =>
    h c (mem_of_mem_splitOn query (List.mem_filter.mp hpiece).1 hc)
  exact ⟨decodeFrom_lt (fun c hc => hmem c ((List.takeWhile_sublist _).subset hc)) 0,
    decodeFrom_lt (fun c hc => hmem c ((List.dropWhile_sublist _).subset (List.mem_of_mem_drop hc))) 0⟩

/-- What is written between the separators is encoded. -/
theorem mem_serialize (h : Bytes params) {c : ℕ} (hc : c ∈ serialize params) :
    IsEncoded c ∨ c = 38 ∨ c = 61 := by
  rcases mem_join hc with hc | ⟨piece, hpiece, hc⟩
  · exact .inr (.inl (List.mem_singleton.mp hc))
  · obtain ⟨param, hparam, rfl⟩ := List.mem_map.mp hpiece
    obtain ⟨hname, hvalue⟩ := h param hparam
    rcases List.mem_append.mp hc with hc | hc
    · exact .inl (mem_encode hname hc)
    · rcases List.mem_cons.mp hc with rfl | hc
      · exact .inr (.inr rfl)
      · exact .inl (mem_encode hvalue hc)

theorem parsePiece_serializePiece {param : Text × Text} (hname : ∀ c ∈ param.1, c < 256)
    (hvalue : ∀ c ∈ param.2, c < 256) : parsePiece (serializePiece param) = param := by
  have hsplit : ∀ c ∈ encode param.1, decide (c ≠ 61) = true := by
    intro c hc
    refine decide_eq_true ?_
    rintro rfl
    exact absurd (mem_encode hname hc) (by decide)
  unfold parsePiece serializePiece
  rw [List.takeWhile_append_of_pos hsplit, List.dropWhile_append_of_pos hsplit]
  simp only [ne_eq, decide_not, decide_true, Bool.not_true, Bool.false_eq_true, not_false_eq_true,
    List.takeWhile_cons_of_neg, List.dropWhile_cons_of_neg, List.append_nil, List.drop_succ_cons,
    List.drop_zero, decode_encode hname, decode_encode hvalue]

theorem parse_serialize (h : Bytes params) : parse (serialize params) = params := by
  by_cases hnil : params = []
  · subst hnil
    rfl
  · have hpieces : ∀ piece ∈ params.map serializePiece, 38 ∉ piece := by
      intro piece hpiece hamp
      obtain ⟨param, hparam, rfl⟩ := List.mem_map.mp hpiece
      obtain ⟨hname, hvalue⟩ := h param hparam
      rcases List.mem_append.mp hamp with hamp | hamp
      · exact absurd (mem_encode hname hamp) (by decide)
      · rcases List.mem_cons.mp hamp with hamp | hamp
        · cases hamp
        · exact absurd (mem_encode hvalue hamp) (by decide)
    have hfull : (params.map serializePiece).filter (· ≠ []) = params.map serializePiece := by
      refine List.filter_eq_self.mpr fun piece hpiece => ?_
      obtain ⟨param, -, rfl⟩ := List.mem_map.mp hpiece
      simp [serializePiece]
    unfold parse serialize join
    rw [List.splitOn_intercalate _ hpieces (by simpa using hnil), hfull, List.map_map]
    refine (List.map_congr_left fun param hparam => ?_).trans (List.map_id params)
    exact parsePiece_serializePiece (h param hparam).1 (h param hparam).2

end Params

end Ecma.FormEncoding
