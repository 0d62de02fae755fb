import Newsdeck.Ecma.Json

/-!
# Schemas: reading typed data out of JSON

A schema turns a JSON value, or the `undefined` of an absent member, into typed data or refuses it.
Every combinator here accepts exactly what the schema library's method of that name accepts; the
texts of its complaints are the library's own and are not modelled.
-/

namespace Ecma

/-- A schema; the argument `none` is `undefined`. -/
abbrev Schema (α : Type) := Option Json → Option α

namespace Schema

variable {α : Type}

/-- `z.string()` with a condition on the text. -/
def text (ok : Text → Bool) : Schema Text
  | some (.str t) => if ok t then some t else none
  | _ => none

/-- The largest safe integer, `2 ^ 53 - 1`. -/
def maxSafe : ℕ := 9007199254740991

/-- `z.number().int().min(lo).max(hi)` for a non-negative lower bound. -/
def nat (lo hi : ℕ) : Schema ℕ
  | some (.num v) =>
      if v.den = 1 ∧ (lo : ℤ) ≤ v.num ∧ v.num ≤ min hi maxSafe then some v.num.toNat else none
  | _ => none

/-- `z.boolean()`. -/
def bool : Schema Bool
  | some (.bool b) => some b
  | _ => none

/-- `z.enum([...])`, each name with the value it stands for. -/
def enum (names : List (Text × α)) : Schema α
  | some (.str t) => names.lookup t
  | _ => none

/-- `z.array(schema)`. -/
def array (s : Schema α) : Schema (List α)
  | some (.arr vs) => vs.mapM fun v => s (some v)
  | _ => none

/-- `.nullable()`. -/
def nullable (s : Schema α) : Schema (Option α)
  | some .null => some none
  | v => (s v).map some

/-- `.optional()`. -/
def optional (s : Schema α) : Schema (Option α)
  | none => some none
  | v => (s v).map some

/-- `.nullish()`; `null` and `undefined` read alike. -/
def nullish (s : Schema α) : Schema (Option α)
  | none => some none
  | some .null => some none
  | v => (s v).map some

/-- `.default(value)`. -/
def default (s : Schema α) (value : α) : Schema α
  | none => some value
  | v => s v

/-- `.min(n)` on an array. -/
def minItems (n : ℕ) (s : Schema (List α)) : Schema (List α) := fun v => do
  let vs ← s v
  if n ≤ vs.length then some vs else none

/-- `.max(n)` on an array. -/
def maxItems (n : ℕ) (s : Schema (List α)) : Schema (List α) := fun v => do
  let vs ← s v
  if vs.length ≤ n then some vs else none

/-- `z.object({...})`: the builder reads each member with its own schema, unknown members are
dropped. -/
def object (build : (∀ {β : Type}, String → Schema β → Option β) → Option α) : Schema α
  | some (.obj members) => build fun key s => s (Json.get? members (lit key))
  | _ => none

/-! ### What written values read as -/

@[simp] theorem object_obj (build : (∀ {β : Type}, String → Schema β → Option β) → Option α)
    (members : List (Text × Json)) :
    object build (some (.obj members)) = build fun key s => s (Json.get? members (lit key)) := rfl

theorem text_str {ok : Text → Bool} {t : Text} (h : ok t = true) :
    text ok (some (.str t)) = some t := by
  simp [text, h]

theorem nat_natCast {lo hi n : ℕ} (hlo : lo ≤ n) (hhi : n ≤ hi) (hsafe : n ≤ maxSafe) :
    nat lo hi (some (.num n)) = some n := by
  unfold nat
  dsimp only
  rw [if_pos]
  · simp
  · refine ⟨by simp, by simpa using hlo, ?_⟩
    simp only [Rat.num_natCast]
    have : n ≤ min hi maxSafe := le_min hhi hsafe
    exact_mod_cast this

theorem array_map {s : Schema α} {write : α → Json} {as : List α}
    (h : ∀ a ∈ as, s (some (write a)) = some a) : array s (some (.arr (as.map write))) = some as := by
  unfold array
  dsimp only
  induction as with
  | nil => rfl
  | cons a as ih =>
    rw [List.map_cons, List.mapM_cons, h a (by simp), ih fun b hb => h b (by simp [hb])]
    rfl

theorem maxItems_of_le {n : ℕ} {s : Schema (List α)} {v : Option Json} {as : List α}
    (hs : s v = some as) (hn : as.length ≤ n) : maxItems n s v = some as := by
  simp [maxItems, hs, hn]

/-! ### What was read satisfies the schema -/

theorem object_eq_some {build : (∀ {β : Type}, String → Schema β → Option β) → Option α}
    {v : Option Json} {a : α} (h : object build v = some a) :
    ∃ members, v = some (.obj members) ∧
      build (fun key s => s (Json.get? members (lit key))) = some a := by
  unfold object at h
  split at h
  · exact ⟨_, rfl, h⟩
  · exact absurd h (by simp)

theorem text_eq_some {ok : Text → Bool} {v : Option Json} {t : Text} (h : text ok v = some t) :
    ok t = true := by
  unfold text at h
  split at h
  · split at h
    · rename_i hok
      rw [← Option.some.inj h]
      exact hok
    · exact absurd h (by simp)
  · exact absurd h (by simp)

theorem nat_eq_some {lo hi n : ℕ} {v : Option Json} (h : nat lo hi v = some n) :
    lo ≤ n ∧ n ≤ hi := by
  unfold nat at h
  split at h
  · split at h
    · rename_i q hq
      obtain ⟨-, hlo, hhi⟩ := hq
      have hhi' : q.num ≤ (hi : ℤ) := le_trans hhi (by exact_mod_cast min_le_left hi maxSafe)
      rw [← Option.some.inj h]
      omega
    · exact absurd h (by simp)
  · exact absurd h (by simp)

theorem mem_of_mapM_eq_some {β : Type} {f : β → Option α} {vs : List β} :
    ∀ {as : List α}, vs.mapM f = some as → ∀ a ∈ as, ∃ v, f v = some a := by
  induction vs with
  | nil =>
    intro as h a ha
    obtain rfl : [] = as := Option.some.inj h
    exact absurd ha (by simp)
  | cons v vs ih =>
    intro as h a ha
    simp only [List.mapM_cons, Option.bind_eq_bind, Option.bind_eq_some_iff, Option.pure_def,
      Option.some.injEq] at h
    obtain ⟨b, hb, bs, hbs, rfl⟩ := h
    rcases List.mem_cons.mp ha with rfl | ha
    · exact ⟨v, hb⟩
    · exact ih hbs a ha

theorem array_eq_some {s : Schema α} {v : Option Json} {as : List α} (h : array s v = some as) :
    ∀ a ∈ as, ∃ w, s w = some a := by
  unfold array at h
  split at h
  · intro a ha
    obtain ⟨w, hw⟩ := mem_of_mapM_eq_some h a ha
    exact ⟨some w, hw⟩
  · exact absurd h (by simp)

theorem maxItems_eq_some {n : ℕ} {s : Schema (List α)} {v : Option Json} {as : List α}
    (h : maxItems n s v = some as) : s v = some as ∧ as.length ≤ n := by
  simp only [maxItems, Option.bind_eq_bind, Option.bind_eq_some_iff] at h
  obtain ⟨as', has, hlen⟩ := h
  split at hlen
  · rename_i hle
    obtain rfl := Option.some.inj hlen
    exact ⟨has, hle⟩
  · exact absurd hlen (by simp)

theorem nullable_eq_some {s : Schema α} {v : Option Json} {a : α}
    (h : nullable s v = some (some a)) : s v = some a := by
  unfold nullable at h
  split at h
  · exact absurd (Option.some.inj h) (by simp)
  · obtain ⟨b, hb, hba⟩ := Option.map_eq_some_iff.mp h
    rw [hb, Option.some.inj hba]

theorem nullish_eq_some {s : Schema α} {v : Option Json} {a : α}
    (h : nullish s v = some (some a)) : s v = some a := by
  unfold nullish at h
  split at h
  · exact absurd (Option.some.inj h) (by simp)
  · exact absurd (Option.some.inj h) (by simp)
  · obtain ⟨b, hb, hba⟩ := Option.map_eq_some_iff.mp h
    rw [hb, Option.some.inj hba]

theorem default_eq_some {s : Schema α} {value : α} {v : Option Json} {a : α}
    (h : default s value v = some a) : a = value ∨ s v = some a := by
  unfold default at h
  split at h
  · exact .inl (Option.some.inj h).symm
  · exact .inr h

end Schema

end Ecma
