import Newsdeck.Ecma.OrderedMap
import Newsdeck.Ecma.Text
import Newsdeck.Library.UnionFind

/-!
# Duplicates within a batch

Candidates that share a canonical URL or a content hash are one article.
`collapseInBatchDuplicates` groups a batch by union-find over its indexes; the two maps remember the
last index of each key only.

* `Collapsing.Joined` — the invariant of the loop over the batch: the classes of the forest are the
  articles seen so far, and exactly the indexes that are no roots are recorded as duplicates;
* `collapse_components` — the representatives, the duplicates and the groups are those of the
  connected components of "same canonical URL or same content hash".
-/

namespace Newsdeck.Worker

open Ecma UnionFind Relation

structure ArticleCandidate where
  url : Text
  canonicalUrl : Text
  title : Text
  summary : Option Text
  author : Option Text
  imageUrl : Option Text
  contentHash : Text
  /-- Milliseconds since the epoch. -/
  publishedAt : Option ℤ
  deriving DecidableEq, Repr

/-- Which field a match was decided on. -/
inductive ArticleMatchReason where
  | canonicalUrl
  | contentHash
  deriving DecidableEq, Repr

structure InBatchDuplicate where
  reason : ArticleMatchReason
  duplicateOfIndex : ℕ
  deriving DecidableEq, Repr

/-! ### The loop over the batch -/

/-- The variables of `collapseInBatchDuplicates`. -/
structure Collapsing where
  canonicalUrlToIndex : OrderedMap Text ℕ
  contentHashToIndex : OrderedMap Text ℕ
  parent : Forest
  duplicates : OrderedMap ℕ InBatchDuplicate

namespace Collapsing

def start : Collapsing := ⟨[], [], .empty, []⟩

def find (s : Collapsing) (index : ℕ) : ℕ × Collapsing :=
  let found := s.parent.find index
  (found.1, { s with parent := found.2 })

/-- The smaller root always wins. -/
def union (s : Collapsing) (a b : ℕ) (reason : ArticleMatchReason) : Collapsing :=
  let (rootA, s) := s.find a
  let (rootB, s) := s.find b
  if h : rootA = rootB then s
  else
    let winner := min rootA rootB
    let loser := max rootA rootB
    { s with
      parent := s.parent.point loser winner (min_lt_max.mpr h)
      duplicates := s.duplicates.set loser ⟨reason, winner⟩ }

/-- Merge with the candidate last seen with the key, if there is one. -/
def merge (s : Collapsing) (index : ℕ) (reason : ArticleMatchReason) : Option ℕ → Collapsing
  | some other => s.union index other reason
  | none => s

def visit (s : Collapsing) (index : ℕ) (candidate : ArticleCandidate) : Collapsing :=
  let byUrl := s.canonicalUrlToIndex.get? candidate.canonicalUrl
  let byHash := s.contentHashToIndex.get? candidate.contentHash
  let s := s.merge index .canonicalUrl byUrl
  let s := s.merge index .contentHash byHash
  { s with
    canonicalUrlToIndex := s.canonicalUrlToIndex.set candidate.canonicalUrl index
    contentHashToIndex := s.contentHashToIndex.set candidate.contentHash index }

/-- The candidates from `index` on. -/
def visitFrom : ℕ → List ArticleCandidate → Collapsing → Collapsing
  | _, [], s => s
  | index, candidate :: rest, s => visitFrom (index + 1) rest (s.visit index candidate)

/-- Point the duplicate recorded for an index to its final root; one is recorded for every index
that is no root (`Collapsing.Recorded`). -/
def settle (s : Collapsing) (index : ℕ) : Collapsing :=
  match s.duplicates.get? index with
  | none => s
  | some recorded =>
      let (root, s) := s.find index
      { s with duplicates := s.duplicates.set index { recorded with duplicateOfIndex := root } }

/-- The indexes from `index` on: the representatives among them, and the settled duplicates. -/
def settleFrom : ℕ → ℕ → Collapsing → List ℕ × Collapsing
  | 0, _, s => ([], s)
  | remaining + 1, index, s =>
      let (root, s) := s.find index
      if root = index then
        let (representatives, s) := settleFrom remaining (index + 1) s
        (index :: representatives, s)
      else settleFrom remaining (index + 1) (s.settle index)

end Collapsing

structure Collapsed where
  representativeIndexes : List ℕ
  duplicates : OrderedMap ℕ InBatchDuplicate

def collapseInBatchDuplicates (candidates : List ArticleCandidate) : Collapsed :=
  let s := Collapsing.visitFrom 0 candidates .start
  let (representatives, s) := Collapsing.settleFrom candidates.length 0 s
  ⟨representatives, s.duplicates⟩

/-- One entry of the second loop of `groupMembersByRepresentative`. -/
def pushMember (groups : OrderedMap ℕ (List ℕ)) (entry : ℕ × InBatchDuplicate) :
    OrderedMap ℕ (List ℕ) :=
  match groups.get? entry.2.duplicateOfIndex with
  | none => groups
  | some members => groups.set entry.2.duplicateOfIndex (members ++ [entry.1])

/-- Every representative, with all indexes folded into its group. -/
def groupMembersByRepresentative (collapsed : Collapsed) : OrderedMap ℕ (List ℕ) :=
  collapsed.duplicates.foldl pushMember
    (collapsed.representativeIndexes.map fun index => (index, [index]))

/-! ### Articles -/

/-- The candidates at two indexes share a key. -/
def SharesKey (candidates : List ArticleCandidate) (i j : ℕ) : Prop :=
  ∃ a b, candidates[i]? = some a ∧ candidates[j]? = some b ∧
    (a.canonicalUrl = b.canonicalUrl ∨ a.contentHash = b.contentHash)

/-- The candidates at two indexes are one article: a chain of shared keys leads from one to the
other. -/
def SameArticle (candidates : List ArticleCandidate) : ℕ → ℕ → Prop :=
  EqvGen (SharesKey candidates)

section Articles

variable {candidates seen : List ArticleCandidate} {candidate : ArticleCandidate} {i j : ℕ}

theorem SharesKey.symm (h : SharesKey candidates i j) : SharesKey candidates j i := by
  obtain ⟨a, b, ha, hb, hkey⟩ := h
  exact ⟨b, a, hb, ha, hkey.imp Eq.symm Eq.symm⟩

theorem SharesKey.lt (h : SharesKey candidates i j) : i < candidates.length ∧
    j < candidates.length := by
  obtain ⟨a, b, ha, hb, -⟩ := h
  exact ⟨(List.getElem?_eq_some_iff.mp ha).1, (List.getElem?_eq_some_iff.mp hb).1⟩

/-- Only indexes of the batch belong to an article with others. -/
theorem SameArticle.lt_iff (h : SameArticle candidates i j) :
    i < candidates.length ↔ j < candidates.length := by
  induction h with
  | rel i j h => exact iff_of_true h.lt.1 h.lt.2
  | refl i => exact Iff.rfl
  | symm i j _ ih => exact ih.symm
  | trans i j k _ _ hij hjk => exact hij.trans hjk

/-- Who shares a key in a batch with one more candidate. -/
theorem sharesKey_snoc_iff : SharesKey (seen ++ [candidate]) i j ↔
    SharesKey seen i j ∨
    (i = seen.length ∧ ∃ b, (seen ++ [candidate])[j]? = some b ∧
      (candidate.canonicalUrl = b.canonicalUrl ∨ candidate.contentHash = b.contentHash)) ∨
    (j = seen.length ∧ ∃ a, (seen ++ [candidate])[i]? = some a ∧
      (candidate.canonicalUrl = a.canonicalUrl ∨ candidate.contentHash = a.contentHash)) := by
  have hlast : (seen ++ [candidate])[seen.length]? = some candidate := by simp
  have hold : ∀ {k : ℕ} {a : ArticleCandidate}, (seen ++ [candidate])[k]? = some a →
      k ≠ seen.length → seen[k]? = some a := by
    intro k a hk hne
    have hlt := (List.getElem?_eq_some_iff.mp hk).1
    rw [List.length_append, List.length_singleton] at hlt
    rwa [List.getElem?_append_left (by omega)] at hk
  have hinto : ∀ {k : ℕ} {a : ArticleCandidate}, seen[k]? = some a →
      (seen ++ [candidate])[k]? = some a := by
    intro k a hk
    rwa [List.getElem?_append_left (List.getElem?_eq_some_iff.mp hk).1]
  constructor
  · rintro ⟨a, b, ha, hb, hkey⟩
    by_cases hi : i = seen.length
    · subst hi
      rw [hlast] at ha
      cases ha
      exact .inr (.inl ⟨rfl, b, hb, hkey⟩)
    · by_cases hj : j = seen.length
      · subst hj
        rw [hlast] at hb
        cases hb
        exact .inr (.inr ⟨rfl, a, ha, hkey.imp Eq.symm Eq.symm⟩)
      · exact .inl ⟨a, b, hold ha hi, hold hb hj, hkey⟩
  · rintro (⟨a, b, ha, hb, hkey⟩ | ⟨rfl, b, hb, hkey⟩ | ⟨rfl, a, ha, hkey⟩)
    · exact ⟨a, b, hinto ha, hinto hb, hkey⟩
    · exact ⟨candidate, b, hlast, hb, hkey⟩
    · exact ⟨a, candidate, ha, hlast, hkey.imp Eq.symm Eq.symm⟩

end Articles

/-! ### What the maps remember -/

/-- The map finds an index for every key of the candidates seen so far, and nothing else. -/
structure Indexes (key : ArticleCandidate → Text) (seen : List ArticleCandidate)
    (m : OrderedMap Text ℕ) : Prop where
  known : ∀ k i, m.get? k = some i → ∃ a, seen[i]? = some a ∧ key a = k
  all : ∀ (i : ℕ) (a : ArticleCandidate), seen[i]? = some a → ∃ j, m.get? (key a) = some j

theorem Indexes.snoc {key : ArticleCandidate → Text} {seen : List ArticleCandidate}
    {m : OrderedMap Text ℕ} (h : Indexes key seen m) (candidate : ArticleCandidate) :
    Indexes key (seen ++ [candidate]) (m.set (key candidate) seen.length) where
  known k i hk := by
    rw [OrderedMap.get?_set] at hk
    split at hk
    · rename_i heq
      cases hk
      exact ⟨candidate, by simp, heq.symm⟩
    · obtain ⟨a, ha, hkey⟩ := h.known k i hk
      refine ⟨a, ?_, hkey⟩
      rwa [List.getElem?_append_left (List.getElem?_eq_some_iff.mp ha).1]
  all i a ha := by
    rw [OrderedMap.get?_set]
    split
    · exact ⟨_, rfl⟩
    · rename_i hne
      rw [List.getElem?_append] at ha
      split at ha
      · exact h.all i a ha
      · have hlast : a = candidate := by
          rw [List.getElem?_singleton] at ha
          split at ha
          · exact (Option.some.inj ha).symm
          · cases ha
        exact absurd (by rw [hlast]) hne

/-- An index found in a map shares a key with the candidate it was looked up for. -/
theorem Indexes.sharesKey {key : ArticleCandidate → Text} {seen : List ArticleCandidate}
    {m : OrderedMap Text ℕ} (h : Indexes key seen m) {candidate : ArticleCandidate} {other : ℕ}
    (hkey : key = ArticleCandidate.canonicalUrl ∨ key = ArticleCandidate.contentHash)
    (hfound : m.get? (key candidate) = some other) :
    SharesKey (seen ++ [candidate]) seen.length other := by
  obtain ⟨b, hb, hsame⟩ := h.known _ _ hfound
  refine sharesKey_snoc_iff.mpr (.inr (.inl ⟨rfl, b, ?_, ?_⟩))
  · rwa [List.getElem?_append_left (List.getElem?_eq_some_iff.mp hb).1]
  · rcases hkey with rfl | rfl
    · exact .inl hsame.symm
    · exact .inr hsame.symm

/-! ### The first loop -/

namespace Collapsing

/-- Exactly the indexes that are no roots are recorded as duplicates, each once. -/
structure Recorded (s : Collapsing) : Prop where
  keys : s.duplicates.keys.Nodup
  mem : ∀ i, i ∈ s.duplicates.keys ↔ s.parent.root i ≠ i

section Union

variable {s : Collapsing} {a b index : ℕ} {reason : ArticleMatchReason} {R : ℕ → ℕ → Prop}

/-- What a union does to the forest and to the record. -/
theorem union_cases (s : Collapsing) (a b : ℕ) (reason : ArticleMatchReason) :
    ∃ f : Forest, (∀ x, f.root x = s.parent.root x) ∧
      ((s.parent.root a = s.parent.root b ∧ s.union a b reason = { s with parent := f }) ∨
        ∃ h : min (s.parent.root a) (s.parent.root b) < max (s.parent.root a) (s.parent.root b),
          s.union a b reason = { s with
            parent := f.point _ _ h
            duplicates := s.duplicates.set (max (s.parent.root a) (s.parent.root b))
              ⟨reason, min (s.parent.root a) (s.parent.root b)⟩ }) := by
  have hroots : ∀ x, ((s.parent.find a).2.find b).2.root x = s.parent.root x := by simp
  refine ⟨((s.parent.find a).2.find b).2, hroots, ?_⟩
  have hfirst : (s.find a).1 = s.parent.root a := Forest.find_fst _ _
  have hsecond : ((s.find a).2.find b).1 = s.parent.root b := by simp [find]
  by_cases h : s.parent.root a = s.parent.root b
  · refine .inl ⟨h, ?_⟩
    unfold union
    dsimp only
    rw [dif_pos (hfirst.trans (h.trans hsecond.symm))]
    rfl
  · refine .inr ⟨min_lt_max.mpr h, ?_⟩
    unfold union
    dsimp only
    rw [dif_neg (by rw [hfirst, hsecond]; exact h)]
    simp only [hfirst, hsecond]
    rfl

theorem union_joins (h : s.parent.Joins R) : (s.union a b reason).parent.Joins
    (Forest.Adds R a b) := by
  obtain ⟨f, hroots, hcases⟩ := union_cases s a b reason
  have hf : f.Joins R := fun i j => by
    rw [hroots, hroots]
    exact h i j
  rcases hcases with ⟨hsame, heq⟩ | ⟨hlt, heq⟩
  · rw [heq]
    exact hf.skip (by rw [hroots, hroots, hsame])
  · rw [heq]
    have hnone : ∀ x, f.parent (s.parent.root x) = none := fun x => by
      rw [← Forest.root_eq_self_iff, hroots, Forest.root_root]
    refine hf.point ?_ ?_ hlt ?_
    · rcases max_choice (s.parent.root a) (s.parent.root b) with hmax | hmax <;> rw [hmax]
      · exact hnone a
      · exact hnone b
    · rcases min_choice (s.parent.root a) (s.parent.root b) with hmin | hmin <;> rw [hmin]
      · exact hnone a
      · exact hnone b
    · rw [hroots, hroots]
      omega

theorem union_recorded (h : s.Recorded) : (s.union a b reason).Recorded := by
  obtain ⟨f, hroots, hcases⟩ := union_cases s a b reason
  rcases hcases with ⟨hsame, heq⟩ | ⟨hlt, heq⟩
  · rw [heq]
    refine ⟨h.keys, fun i => ?_⟩
    show i ∈ s.duplicates.keys ↔ f.root i ≠ i
    rw [hroots]
    exact h.mem i
  · rw [heq]
    generalize hwinner : min (s.parent.root a) (s.parent.root b) = winner at hlt
    generalize hloser : max (s.parent.root a) (s.parent.root b) = loser at hlt
    have hroot : ∀ r, (r = s.parent.root a ∨ r = s.parent.root b) → s.parent.root r = r := by
      rintro r (rfl | rfl) <;> exact Forest.root_root _
    have hw : s.parent.root winner = winner := hroot winner (by omega)
    have hl : s.parent.root loser = loser := hroot loser (by omega)
    refine ⟨OrderedMap.nodup_keys_set h.keys _ _, fun i => ?_⟩
    show i ∈ (s.duplicates.set loser ⟨reason, winner⟩).keys ↔ (f.point loser winner hlt).root i ≠ i
    rw [Forest.root_point (Forest.root_eq_self_iff.mp ((hroots loser).trans hl))
      (Forest.root_eq_self_iff.mp ((hroots winner).trans hw)) hlt, hroots, OrderedMap.keys_set]
    have hkey : loser ∉ s.duplicates.keys := fun hmem => (h.mem loser).mp hmem hl
    rw [if_neg hkey, List.mem_append, List.mem_singleton, h.mem]
    -- Only the loser stops being a root.
    by_cases hi : i = loser
    · subst hi
      rw [if_pos hl]
      exact iff_of_true (.inr rfl) hlt.ne
    · by_cases hunder : s.parent.root i = loser
      · rw [if_pos hunder]
        refine iff_of_true (.inl (by rw [hunder]; exact fun h => hi h.symm)) ?_
        rintro rfl
        exact hlt.ne (hw.symm.trans hunder)
      · rw [if_neg hunder]
        simp [hi]

end Union

/-- What the loop has found out about the candidates seen so far. -/
structure Joined (seen : List ArticleCandidate) (s : Collapsing) : Prop where
  classes : s.parent.Joins (SharesKey seen)
  urls : Indexes ArticleCandidate.canonicalUrl seen s.canonicalUrlToIndex
  hashes : Indexes ArticleCandidate.contentHash seen s.contentHashToIndex
  recorded : s.Recorded

theorem start_joined : start.Joined [] where
  classes := Forest.joins_empty.congr (fun _ _ h => h.elim) fun _ _ ⟨_, _, ha, _⟩ => by simp at ha
  urls := ⟨by simp [start], by simp⟩
  hashes := ⟨by simp [start], by simp⟩
  recorded := ⟨List.nodup_nil, fun i => by simp [start, OrderedMap.keys]⟩

/-- The relation after an optional merge. -/
def AddsFound (R : ℕ → ℕ → Prop) (index : ℕ) (found : Option ℕ) (i j : ℕ) : Prop :=
  R i j ∨ (i = index ∧ found = some j)

theorem merge_joins {s : Collapsing} {R : ℕ → ℕ → Prop} (h : s.parent.Joins R) (index : ℕ)
    (reason : ArticleMatchReason) (found : Option ℕ) :
    (s.merge index reason found).parent.Joins (AddsFound R index found) := by
  cases found with
  | none =>
    refine h.congr (fun _ _ hij => .rel _ _ (.inl hij)) ?_
    rintro i j (hij | ⟨-, hnone⟩)
    · exact .rel _ _ hij
    · cases hnone
  | some other =>
    refine (union_joins h).congr (fun _ _ hij => .rel _ _ ?_) fun _ _ hij => .rel _ _ ?_
    · exact hij.imp_right fun ⟨hi, hj⟩ => ⟨hi, by rw [hj]⟩
    · exact hij.imp_right fun ⟨hi, hj⟩ => ⟨hi, (Option.some.inj hj).symm⟩

theorem merge_recorded {s : Collapsing} (h : s.Recorded) (index : ℕ) (reason : ArticleMatchReason)
    (found : Option ℕ) : (s.merge index reason found).Recorded := by
  cases found with
  | none => exact h
  | some other => exact union_recorded h

@[simp] theorem merge_urls (s : Collapsing) (index : ℕ) (reason : ArticleMatchReason)
    (found : Option ℕ) :
      (s.merge index reason found).canonicalUrlToIndex = s.canonicalUrlToIndex := by
  cases found with
  | none => rfl
  | some other =>
    obtain ⟨f, -, ⟨-, heq⟩ | ⟨hlt, heq⟩⟩ := union_cases s index other reason
    · show (s.union index other reason).canonicalUrlToIndex = _
      rw [heq]
    · show (s.union index other reason).canonicalUrlToIndex = _
      rw [heq]

@[simp] theorem merge_hashes (s : Collapsing) (index : ℕ) (reason : ArticleMatchReason)
    (found : Option ℕ) :
      (s.merge index reason found).contentHashToIndex = s.contentHashToIndex := by
  cases found with
  | none => rfl
  | some other =>
    obtain ⟨f, -, ⟨-, heq⟩ | ⟨hlt, heq⟩⟩ := union_cases s index other reason
    · show (s.union index other reason).contentHashToIndex = _
      rw [heq]
    · show (s.union index other reason).contentHashToIndex = _
      rw [heq]

/-- **One candidate.** -/
theorem visit_joined {seen : List ArticleCandidate} {s : Collapsing} (h : s.Joined seen)
    (candidate : ArticleCandidate) : (s.visit seen.length candidate).Joined
      (seen ++ [candidate]) := by
  have hurls := h.urls.snoc candidate
  have hhashes := h.hashes.snoc candidate
  refine ⟨?_, by simpa [visit] using hurls, by simpa [visit] using hhashes, ?_⟩
  · have hmerged := merge_joins (merge_joins h.classes seen.length .canonicalUrl
      (s.canonicalUrlToIndex.get? candidate.canonicalUrl)) seen.length .contentHash
      (s.contentHashToIndex.get? candidate.contentHash)
    generalize hgen : AddsFound (AddsFound (SharesKey seen) seen.length
      (s.canonicalUrlToIndex.get? candidate.canonicalUrl)) seen.length
      (s.contentHashToIndex.get? candidate.contentHash) = R at hmerged
    -- Whoever shares a key with the candidate shares it with the last index of that key.
    have hfound : ∀ (i : ℕ) (b : ArticleCandidate), (seen ++ [candidate])[i]? = some b →
        (candidate.canonicalUrl = b.canonicalUrl ∨ candidate.contentHash = b.contentHash) →
        EqvGen R seen.length i := by
      subst hgen
      intro i b hb hkey
      rw [List.getElem?_append] at hb
      split at hb
      · rcases hkey with hkey | hkey
        · obtain ⟨j, hj⟩ := h.urls.all i b hb
          obtain ⟨a, ha, hsame⟩ := h.urls.known _ _ hj
          refine .trans _ j _ (.rel _ _ (.inl (.inr ⟨rfl, by rw [hkey]; exact hj⟩))) (.rel _ _ ?_)
          exact .inl (.inl ⟨a, b, ha, hb, .inl hsame⟩)
        · obtain ⟨j, hj⟩ := h.hashes.all i b hb
          obtain ⟨a, ha, hsame⟩ := h.hashes.known _ _ hj
          refine .trans _ j _ (.rel _ _ (.inr ⟨rfl, by rw [hkey]; exact hj⟩)) (.rel _ _ ?_)
          exact .inl (.inl ⟨a, b, ha, hb, .inr hsame⟩)
      · rename_i hge
        have hlast : i = seen.length := by
          have hlt := (List.getElem?_eq_some_iff.mp hb).1
          simp only [List.length_singleton] at hlt
          omega
        exact hlast ▸ .refl _
    refine hmerged.congr (fun i j hij => .rel _ _ ?_) fun i j hij => ?_
    · subst hgen
      rcases hij with (hij | ⟨rfl, hj⟩) | ⟨rfl, hj⟩
      · exact sharesKey_snoc_iff.mpr (.inl hij)
      · exact h.urls.sharesKey (.inl rfl) hj
      · exact h.hashes.sharesKey (.inr rfl) hj
    · rcases sharesKey_snoc_iff.mp hij with hij | ⟨rfl, b, hb, hkey⟩ | ⟨rfl, a, ha, hkey⟩
      · exact .rel _ _ (hgen ▸ .inl (.inl hij))
      · exact hfound j b hb hkey
      · exact (hfound i a ha hkey).symm
  · have hrecorded := merge_recorded (merge_recorded h.recorded seen.length .canonicalUrl
      (s.canonicalUrlToIndex.get? candidate.canonicalUrl)) seen.length .contentHash
      (s.contentHashToIndex.get? candidate.contentHash)
    exact ⟨hrecorded.keys, hrecorded.mem⟩

/-- **The whole batch.** -/
theorem visitFrom_joined (rest : List ArticleCandidate) :
    ∀ (seen : List ArticleCandidate) (s : Collapsing), s.Joined seen →
      (visitFrom seen.length rest s).Joined (seen ++ rest) := by
  induction rest with
  | nil =>
    intro seen s h
    rwa [List.append_nil]
  | cons candidate rest ih =>
    intro seen s h
    have hnext := ih (seen ++ [candidate]) _ (visit_joined h candidate)
    simpa [visitFrom] using hnext

/-! ### The second loop -/

/-- Settling moves no root and no key, and the duplicate of the index now names the root. -/
theorem settle_spec (s : Collapsing) (index : ℕ) :
    (∀ x, (s.settle index).parent.root x = s.parent.root x) ∧
      (s.settle index).duplicates.keys = s.duplicates.keys ∧
      ∀ i, (s.settle index).duplicates.get? i =
        if i = index then (s.duplicates.get? i).map fun recorded =>
          { recorded with duplicateOfIndex := s.parent.root i }
        else s.duplicates.get? i := by
  unfold settle
  cases hget : s.duplicates.get? index with
  | none =>
    refine ⟨fun _ => rfl, rfl, fun i => ?_⟩
    by_cases hi : i = index
    · rw [if_pos hi, hi, hget]
      rfl
    · rw [if_neg hi]
  | some recorded =>
    refine ⟨fun x => Forest.root_find _ _ _, ?_, fun i => ?_⟩
    · show (s.duplicates.set index _).keys = _
      rw [OrderedMap.keys_set, if_pos (OrderedMap.mem_keys_iff.mpr ⟨recorded, hget⟩)]
    · show (s.duplicates.set index _).get? i = _
      rw [OrderedMap.get?_set]
      by_cases hi : i = index
      · rw [if_pos hi, if_pos hi, hi, hget]
        simp [find]
      · rw [if_neg hi, if_neg hi]

theorem settleFrom_spec (remaining : ℕ) : ∀ (index : ℕ) (s : Collapsing),
    (settleFrom remaining index s).1 =
        (List.range' index remaining).filter (fun i => s.parent.root i = i) ∧
      (settleFrom remaining index s).2.duplicates.keys = s.duplicates.keys ∧
      ∀ i, (settleFrom remaining index s).2.duplicates.get? i =
        if index ≤ i ∧ i < index + remaining ∧ s.parent.root i ≠ i then
          (s.duplicates.get? i).map fun recorded =>
            { recorded with duplicateOfIndex := s.parent.root i }
        else s.duplicates.get? i := by
  induction remaining with
  | zero =>
    intro index s
    refine ⟨rfl, rfl, fun i => ?_⟩
    rw [if_neg (by omega)]
    rfl
  | succ remaining ih =>
    intro index s
    have hfound : (s.find index).1 = s.parent.root index := Forest.find_fst _ _
    have hroots : ∀ x, (s.find index).2.parent.root x = s.parent.root x := Forest.root_find _ _
    unfold settleFrom
    dsimp only
    rw [hfound, List.range'_succ]
    by_cases hroot : s.parent.root index = index
    · rw [if_pos hroot, List.filter_cons_of_pos (by simpa using hroot)]
      obtain ⟨hreps, hkeys, hget⟩ := ih (index + 1) (s.find index).2
      simp only [hroots] at hreps hget
      refine ⟨congrArg _ hreps, hkeys, fun i => (hget i).trans ?_⟩
      by_cases hi : i = index
      · rw [hi, if_neg (by omega), if_neg (by simp [hroot])]
        rfl
      · have hiff : (index + 1 ≤ i ∧ i < index + 1 + remaining ∧ s.parent.root i ≠ i) ↔
            (index ≤ i ∧ i < index + (remaining + 1) ∧ s.parent.root i ≠ i) := by omega
        simp only [hiff]
        rfl
    · rw [if_neg hroot, List.filter_cons_of_neg (by simpa using hroot)]
      obtain ⟨hsettled, hkeys', hget'⟩ := settle_spec (s.find index).2 index
      obtain ⟨hreps, hkeys, hget⟩ := ih (index + 1) ((s.find index).2.settle index)
      simp only [hsettled, hroots] at hreps hget hget'
      refine ⟨hreps, hkeys.trans hkeys', fun i => (hget i).trans ?_⟩
      rw [hget' i]
      by_cases hi : i = index
      · rw [hi, if_neg (by omega), if_pos rfl, if_pos ⟨le_rfl, by omega, hroot⟩]
        rfl
      · have hiff : (index + 1 ≤ i ∧ i < index + 1 + remaining ∧ s.parent.root i ≠ i) ↔
            (index ≤ i ∧ i < index + (remaining + 1) ∧ s.parent.root i ≠ i) := by omega
        rw [if_neg hi]
        simp only [hiff]
        rfl

end Collapsing

/-! ### The groups -/

theorem get?_map_pair (keys : List ℕ) (members : ℕ → List ℕ) (k : ℕ) :
    OrderedMap.get? (keys.map fun r => (r, members r)) k =
      if k ∈ keys then some (members k) else none := by
  induction keys with
  | nil => rfl
  | cons r keys ih =>
    rw [List.map_cons, OrderedMap.get?_cons, ih]
    by_cases hk : k = r
    · rw [if_pos hk, if_pos (by simp [hk]), hk]
    · rw [if_neg hk]
      simp [hk]

theorem set_map_pair {keys : List ℕ} (members : ℕ → List ℕ) {k : ℕ} (hk : k ∈ keys)
    (hnodup : keys.Nodup) (value : List ℕ) :
    OrderedMap.set k value (keys.map fun r => (r, members r)) =
      keys.map fun r => (r, if r = k then value else members r) := by
  induction keys with
  | nil => simp at hk
  | cons r keys ih =>
    obtain ⟨hr, hrest⟩ := List.nodup_cons.mp hnodup
    rw [List.map_cons, List.map_cons]
    unfold OrderedMap.set
    by_cases hkr : k = r
    · subst hkr
      rw [if_pos rfl, if_pos rfl]
      refine congrArg _ (List.map_congr_left fun r' hr' => ?_)
      rw [if_neg]
      rintro rfl
      exact hr hr'
    · rw [if_neg hkr, if_neg (fun h => hkr h.symm), ih (by simpa [hkr] using hk) hrest]

/-- Every duplicate goes to the group of the index it names. -/
theorem foldl_pushMember {keys : List ℕ} (hnodup : keys.Nodup)
    (entries : OrderedMap ℕ InBatchDuplicate) : ∀ members : ℕ → List ℕ,
      entries.foldl pushMember (keys.map fun r => (r, members r)) =
        keys.map fun r => (r, members r ++
          (entries.filter fun entry => entry.2.duplicateOfIndex = r).map Prod.fst) := by
  induction entries with
  | nil => simp
  | cons entry entries ih =>
    intro members
    have hpush : pushMember (keys.map fun r => (r, members r)) entry =
        keys.map fun r => (r, if r = entry.2.duplicateOfIndex then members r ++ [entry.1]
          else members r) := by
      unfold pushMember
      rw [get?_map_pair]
      by_cases hk : entry.2.duplicateOfIndex ∈ keys
      · rw [if_pos hk]
        dsimp only
        rw [set_map_pair members hk hnodup]
        refine List.map_congr_left fun r _ => ?_
        by_cases hr : r = entry.2.duplicateOfIndex
        · rw [if_pos hr, if_pos hr, hr]
        · rw [if_neg hr, if_neg hr]
      · rw [if_neg hk]
        refine List.map_congr_left fun r hr => ?_
        rw [if_neg]
        rintro rfl
        exact hk hr
    rw [List.foldl_cons, hpush, ih]
    refine List.map_congr_left fun r _ => ?_
    by_cases hr : r = entry.2.duplicateOfIndex
    · rw [if_pos hr, List.filter_cons_of_pos (by simp [hr]), List.map_cons, List.append_assoc,
        List.singleton_append]
    · rw [if_neg hr, List.filter_cons_of_neg (by simpa using fun h => hr h.symm)]

/-! ### The components -/

section Components

variable (candidates : List ArticleCandidate)

/-- The forest and the record after the batch, and what is returned. -/
theorem collapse_spec : ∃ f : Forest, f.Joins (SharesKey candidates) ∧
    (collapseInBatchDuplicates candidates).representativeIndexes =
      (List.range candidates.length).filter (fun i => f.root i = i) ∧
    (collapseInBatchDuplicates candidates).duplicates.keys.Nodup ∧
    (∀ i, i ∈ (collapseInBatchDuplicates candidates).duplicates.keys ↔
      i < candidates.length ∧ f.root i ≠ i) ∧
    ∀ i d, (i, d) ∈ (collapseInBatchDuplicates candidates).duplicates →
      d.duplicateOfIndex = f.root i := by
  have hjoined : (Collapsing.visitFrom 0 candidates .start).Joined candidates :=
    Collapsing.visitFrom_joined candidates [] _ Collapsing.start_joined
  obtain ⟨hreps, hkeys, hget⟩ := Collapsing.settleFrom_spec candidates.length 0
    (Collapsing.visitFrom 0 candidates .start)
  -- An index beyond the batch is connected with no other.
  have hinside : ∀ i, (Collapsing.visitFrom 0 candidates .start).parent.root i ≠ i →
      i < candidates.length := by
    intro i hi
    by_contra hge
    have hsame : SameArticle candidates i
        ((Collapsing.visitFrom 0 candidates .start).parent.root i) :=
      (hjoined.classes _ _).mp (Forest.root_root i).symm
    have hroot := Forest.root_le (f := (Collapsing.visitFrom 0 candidates .start).parent) i
    have hnone : ∀ {i j}, SameArticle candidates i j → candidates.length ≤ i → i = j := by
      intro i j h
      induction h with
      | rel i j h => exact fun hle => absurd h.lt.1 (by omega)
      | refl i => exact fun _ => rfl
      | symm i j hij ih =>
        intro hle
        exact (ih (by have := SameArticle.lt_iff hij; omega)).symm
      | trans i j k _ _ hij hjk =>
        intro hle
        obtain rfl := hij hle
        exact hjk hle
    exact hi (hnone hsame (by omega)).symm
  refine ⟨_, hjoined.classes, ?_, ?_, fun i => ?_, fun i d hd => ?_⟩
  · rw [List.range_eq_range']
    exact hreps
  · show OrderedMap.keys (Collapsing.settleFrom _ _ _).2.duplicates |>.Nodup
    rw [hkeys]
    exact hjoined.recorded.keys
  · show i ∈ OrderedMap.keys (Collapsing.settleFrom _ _ _).2.duplicates ↔ _
    rw [hkeys, hjoined.recorded.mem]
    exact ⟨fun h => ⟨hinside i h, h⟩, And.right⟩
  · have hnodup : ((Collapsing.settleFrom candidates.length 0
        (Collapsing.visitFrom 0 candidates .start)).2.duplicates).keys.Nodup := by
      rw [hkeys]
      exact hjoined.recorded.keys
    have hfound := (OrderedMap.get?_eq_some_iff hnodup).mpr hd
    have hmem : i ∈ (Collapsing.visitFrom 0 candidates .start).duplicates.keys := by
      rw [← hkeys]
      exact List.mem_map_of_mem hd
    have hroot := (hjoined.recorded.mem i).mp hmem
    have hlt := hinside i hroot
    rw [hget, if_pos ⟨Nat.zero_le i, by omega, hroot⟩, Option.map_eq_some_iff] at hfound
    obtain ⟨recorded, -, rfl⟩ := hfound
    rfl

/-- The representatives are the least indexes of the components. -/
theorem mem_representativeIndexes_iff (i : ℕ) :
    i ∈ (collapseInBatchDuplicates candidates).representativeIndexes ↔
      i < candidates.length ∧ ∀ j, SameArticle candidates i j → i ≤ j := by
  obtain ⟨f, hclasses, hreps, -⟩ := collapse_spec candidates
  have hsame : SameArticle candidates i (f.root i) := (hclasses _ _).mp (Forest.root_root i).symm
  rw [hreps, List.mem_filter, List.mem_range, decide_eq_true_eq]
  refine and_congr_right fun _ => ⟨fun hi j hij => ?_, fun hleast => ?_⟩
  · rw [← hi]
    exact hclasses.least hij
  · exact (Forest.root_le i).antisymm (hleast _ hsame)

theorem representativeIndexes_sorted :
    (collapseInBatchDuplicates candidates).representativeIndexes.Pairwise (· < ·) := by
  obtain ⟨f, -, hreps, -⟩ := collapse_spec candidates
  rw [hreps]
  exact List.Pairwise.filter _ List.pairwise_lt_range

/-- Every candidate belongs to the group of some representative. -/
theorem exists_representative {i : ℕ} (hi : i < candidates.length) :
    ∃ r ∈ (collapseInBatchDuplicates candidates).representativeIndexes,
      SameArticle candidates r i := by
  obtain ⟨f, hclasses, hreps, -⟩ := collapse_spec candidates
  refine ⟨f.root i, ?_, (hclasses _ _).mp (Forest.root_root i)⟩
  rw [hreps, List.mem_filter, List.mem_range]
  exact ⟨(Forest.root_le i).trans_lt hi, decide_eq_true (Forest.root_root i)⟩

/-- The groups: each representative, followed by its duplicates. -/
theorem groups_eq : groupMembersByRepresentative (collapseInBatchDuplicates candidates) =
    (collapseInBatchDuplicates candidates).representativeIndexes.map fun r => (r, r ::
      ((collapseInBatchDuplicates candidates).duplicates.filter fun entry =>
        entry.2.duplicateOfIndex = r).map Prod.fst) :=
  foldl_pushMember ((representativeIndexes_sorted candidates).imp fun h => h.ne) _
    fun index => [index]

/-- A group is a component. -/
theorem group_spec {r : ℕ} (hr : r ∈ (collapseInBatchDuplicates candidates).representativeIndexes) :
    (r :: ((collapseInBatchDuplicates candidates).duplicates.filter fun entry =>
      entry.2.duplicateOfIndex = r).map Prod.fst).Nodup ∧
    ∀ j, j ∈ r :: ((collapseInBatchDuplicates candidates).duplicates.filter fun entry =>
      entry.2.duplicateOfIndex = r).map Prod.fst ↔
        j < candidates.length ∧ SameArticle candidates r j := by
  obtain ⟨f, hclasses, hreps, hnodup, hkeys, hroots⟩ := collapse_spec candidates
  have hrep := hr
  rw [hreps, List.mem_filter, List.mem_range, decide_eq_true_eq] at hrep
  obtain ⟨hlt, hroot⟩ := hrep
  have hmember : ∀ j, j ∈ (((collapseInBatchDuplicates candidates).duplicates.filter fun entry =>
      entry.2.duplicateOfIndex = r).map Prod.fst) ↔
        j < candidates.length ∧ f.root j ≠ j ∧ f.root j = r := by
    intro j
    rw [List.mem_map]
    constructor
    · rintro ⟨⟨j, d⟩, hmem, rfl⟩
      obtain ⟨hd, hof⟩ := List.mem_filter.mp hmem
      have hj := (hkeys j).mp (List.mem_map_of_mem hd)
      exact ⟨hj.1, hj.2, (hroots j d hd).symm.trans (by simpa using hof)⟩
    · rintro ⟨hj, hne, hof⟩
      obtain ⟨⟨j, d⟩, hd, rfl⟩ := List.mem_map.mp ((hkeys j).mpr ⟨hj, hne⟩)
      refine ⟨(j, d), List.mem_filter.mpr ⟨hd, ?_⟩, rfl⟩
      rw [decide_eq_true_eq, hroots j d hd]
      exact hof
  constructor
  · refine List.nodup_cons.mpr ⟨fun h => ((hmember r).mp h).2.1 hroot, ?_⟩
    exact (hnodup.sublist (List.filter_sublist.map _))
  · intro j
    have hiff : f.root j = r ↔ SameArticle candidates r j := by
      have hclass := hclasses r j
      rw [hroot, eq_comm] at hclass
      exact hclass
    rw [List.mem_cons, hmember, ← hiff]
    constructor
    · rintro (rfl | ⟨hj, -, hof⟩)
      · exact ⟨hlt, hroot⟩
      · exact ⟨hj, hof⟩
    · rintro ⟨hj, hof⟩
      by_cases hself : f.root j = j
      · exact .inl (hself.symm.trans hof)
      · exact .inr ⟨hj, hself, hof⟩

/-- **Connected components.**  The representatives are the least indexes of the components, in
increasing order; every other index is recorded once, as a duplicate of the representative of its
component; and the groups are the components, each once, with all their members. -/
theorem collapse_components :
    (collapseInBatchDuplicates candidates).representativeIndexes.Pairwise (· < ·) ∧
    (∀ i, i ∈ (collapseInBatchDuplicates candidates).representativeIndexes ↔
      i < candidates.length ∧ ∀ j, SameArticle candidates i j → i ≤ j) ∧
    (collapseInBatchDuplicates candidates).duplicates.keys.Nodup ∧
    (∀ i, i ∈ (collapseInBatchDuplicates candidates).duplicates.keys ↔
      i < candidates.length ∧ i ∉ (collapseInBatchDuplicates candidates).representativeIndexes) ∧
    (∀ i d, (i, d) ∈ (collapseInBatchDuplicates candidates).duplicates →
      d.duplicateOfIndex ∈ (collapseInBatchDuplicates candidates).representativeIndexes ∧
        SameArticle candidates i d.duplicateOfIndex) ∧
    (groupMembersByRepresentative (collapseInBatchDuplicates candidates)).map Prod.fst =
      (collapseInBatchDuplicates candidates).representativeIndexes ∧
    ∀ r members, (r, members) ∈ groupMembersByRepresentative
      (collapseInBatchDuplicates candidates) →
      members.Nodup ∧ ∀ j, j ∈ members ↔ j < candidates.length ∧ SameArticle candidates r j := by
  obtain ⟨f, hclasses, hreps, hnodup, hkeys, hroots⟩ := collapse_spec candidates
  have hmem : ∀ i, i ∈ (collapseInBatchDuplicates candidates).representativeIndexes ↔
      i < candidates.length ∧ f.root i = i := fun i => by
    rw [hreps, List.mem_filter, List.mem_range, decide_eq_true_eq]
  refine ⟨representativeIndexes_sorted candidates, mem_representativeIndexes_iff candidates, hnodup,
    fun i => ?_, fun i d hd => ?_, ?_, fun r members hr => ?_⟩
  · rw [hkeys, hmem]
    exact and_congr_right fun hi => ⟨fun hne h => hne h.2, fun h heq => h ⟨hi, heq⟩⟩
  · have hi := ((hkeys i).mp (List.mem_map_of_mem hd)).1
    rw [hroots i d hd, hmem]
    exact ⟨⟨(Forest.root_le i).trans_lt hi, Forest.root_root i⟩,
      (hclasses _ _).mp (Forest.root_root i).symm⟩
  · rw [groups_eq, List.map_map]
    exact List.map_id _
  · rw [groups_eq, List.mem_map] at hr
    obtain ⟨r', hr', heq⟩ := hr
    obtain ⟨rfl, rfl⟩ := Prod.mk.inj heq
    exact group_spec candidates hr'

end Components

end Newsdeck.Worker
