import Newsdeck.Library.Absorption
import Newsdeck.Worker.Dedupe

/-!
# Groups of a batch, and rows of the store

Of an article, only its two keys decide whether it is recognised.  A batch is the groups of its
connected components, and a store the keys of its rows.

* `groupsOf`, `identities` — the batch and the store in these terms;
* `groupsOf_apart` — two groups share no key;
* `findGroupMatch_eq_none_iff` — after the lookup, a group is new exactly when no row of the store
  shares a key with a member.
-/

namespace Newsdeck.Worker

open Ecma Effects Database Absorption

/-- The canonical URL and the content hash. -/
abbrev Identity := Text × Text

def ArticleCandidate.identity (candidate : ArticleCandidate) : Identity :=
  (candidate.canonicalUrl, candidate.contentHash)

def Article.identity (row : Article) : Identity := (row.canonicalUrl, row.contentHash)

/-- Articles are the same when either key matches. -/
def Touches (a b : Identity) : Prop := a.1 = b.1 ∨ a.2 = b.2

instance : DecidableRel Touches := fun a b => inferInstanceAs (Decidable (a.1 = b.1 ∨ a.2 = b.2))

theorem touches_refl (a : Identity) : Touches a a := .inl rfl

def identities (s : List Article) : List Identity := s.map Article.identity

/-- The group of a representative; it is led by the representative itself. -/
def groupOf (candidates : List ArticleCandidate) (index : ℕ) : Option (Cluster Identity) :=
  candidates[index]?.map fun candidate =>
    ⟨candidate.identity, (membersOf candidates index).map ArticleCandidate.identity⟩

def groupsOf (candidates : List ArticleCandidate) : List (Cluster Identity) :=
  (representatives candidates).filterMap (groupOf candidates)

/-! ### Groups -/

section Groups

variable {candidates : List ArticleCandidate} {candidate a b : ArticleCandidate} {r r' : ℕ}
  {g : Cluster Identity}

theorem mem_membersOf_iff (hr : r ∈ representatives candidates) :
    candidate ∈ membersOf candidates r ↔
      ∃ j, candidates[j]? = some candidate ∧ SameArticle candidates r j := by
  have hgroup := (group_spec candidates hr).2
  unfold membersOf
  rw [groups_eq, get?_map_pair, if_pos (show r ∈ (collapseInBatchDuplicates candidates).representativeIndexes from hr),
    Option.getD_some, List.mem_filterMap]
  constructor
  · rintro ⟨j, hj, hcandidate⟩
    exact ⟨j, hcandidate, ((hgroup j).mp hj).2⟩
  · rintro ⟨j, hcandidate, hsame⟩
    exact ⟨j, (hgroup j).mpr ⟨(List.getElem?_eq_some_iff.mp hcandidate).1, hsame⟩, hcandidate⟩

theorem nodup_representatives : (representatives candidates).Nodup :=
  (representativeIndexes_sorted candidates).imp fun h => h.ne

/-- Members of different groups share no key. -/
theorem apart (hr : r ∈ representatives candidates) (hr' : r' ∈ representatives candidates)
    (ha : a ∈ membersOf candidates r) (hb : b ∈ membersOf candidates r')
    (hkey : Touches a.identity b.identity) : r = r' := by
  obtain ⟨i, hi, hri⟩ := (mem_membersOf_iff hr).mp ha
  obtain ⟨j, hj, hrj⟩ := (mem_membersOf_iff hr').mp hb
  have hij : SameArticle candidates i j := .rel _ _ ⟨a, b, hi, hj, hkey⟩
  have hsame : SameArticle candidates r r' := (hri.trans _ _ _ hij).trans _ _ _ hrj.symm
  have hle := ((mem_representativeIndexes_iff candidates r).mp hr).2 _ hsame
  have hge := ((mem_representativeIndexes_iff candidates r').mp hr').2 _ hsame.symm
  omega

theorem groupOf_members (hr : r ∈ representatives candidates) (hg : groupOf candidates r = some g)
    {m : Identity} : m ∈ g.members ↔ ∃ c ∈ membersOf candidates r, c.identity = m := by
  obtain ⟨leader, hleader, rfl⟩ := Option.map_eq_some_iff.mp hg
  have hself : leader ∈ membersOf candidates r := (mem_membersOf_iff hr).mpr ⟨r, hleader, .refl r⟩
  show m ∈ leader.identity :: (membersOf candidates r).map _ ↔ _
  rw [List.mem_cons, List.mem_map]
  constructor
  · rintro (rfl | hm)
    · exact ⟨leader, hself, rfl⟩
    · exact hm
  · exact .inr

theorem groupsOf_apart : (groupsOf candidates).Pairwise (Apart Touches) := by
  unfold groupsOf
  rw [List.pairwise_filterMap]
  refine nodup_representatives.imp_of_mem ?_
  intro r r' hr hr' hne g hg h hh a ha b hb hkey
  obtain ⟨c, hc, rfl⟩ := (groupOf_members hr hg).mp ha
  obtain ⟨d, hd, rfl⟩ := (groupOf_members hr' hh).mp hb
  exact hne (apart hr hr' hc hd hkey)

/-- Every candidate is a member of a group. -/
theorem exists_group (hcandidate : candidate ∈ candidates) :
    ∃ g ∈ groupsOf candidates, candidate.identity ∈ g.members := by
  obtain ⟨i, hi⟩ := List.getElem?_of_mem hcandidate
  have hlt := (List.getElem?_eq_some_iff.mp hi).1
  obtain ⟨r, hr, hsame⟩ := exists_representative candidates hlt
  have hrlt : r < candidates.length := hsame.lt_iff.mpr hlt
  have hleader : candidates[r]? = some candidates[r] := List.getElem?_eq_getElem hrlt
  have hg : groupOf candidates r = some ⟨candidates[r].identity,
      (membersOf candidates r).map ArticleCandidate.identity⟩ := by
    unfold groupOf
    rw [hleader]
    rfl
  refine ⟨_, List.mem_filterMap.mpr ⟨r, hr, hg⟩, ?_⟩
  exact (groupOf_members hr hg).mpr ⟨candidate, (mem_membersOf_iff hr).mpr ⟨i, hi, hsame⟩, rfl⟩

end Groups

/-! ### The lookup -/

section Lookup

variable {found : List ArticleMatch} {queries : List ArticleMatchQuery} {s : List Article}
  {members : List ArticleCandidate}

theorem findMatch_eq_none_iff (candidate : ArticleCandidate) :
    findMatch (knownOf found) candidate = none ↔
      ∀ entry ∈ found, ¬ Touches (entry.canonicalUrl, entry.contentHash) candidate.identity := by
  have hurl : (knownOf found).byCanonicalUrl.get? candidate.canonicalUrl = none ↔ _ :=
    OrderedMap.get?_foldl_set_eq_none_iff ArticleMatch.canonicalUrl id _ found []
  have hhash : (knownOf found).byContentHash.get? candidate.contentHash = none ↔ _ :=
    OrderedMap.get?_foldl_set_eq_none_iff ArticleMatch.contentHash id _ found []
  have hboth : findMatch (knownOf found) candidate = none ↔
      (knownOf found).byCanonicalUrl.get? candidate.canonicalUrl = none ∧
        (knownOf found).byContentHash.get? candidate.contentHash = none := by
    unfold findMatch
    cases (knownOf found).byCanonicalUrl.get? candidate.canonicalUrl with
    | none => simp
    | some byUrl => simp
  rw [hboth, hurl, hhash]
  simp only [OrderedMap.get?_nil, and_true, Touches, ArticleCandidate.identity, not_or]
  exact forall₂_and.symm

/-- A match that is found was read, and shares the key. -/
theorem findMatch_some {candidate : ArticleCandidate} {hit : ArticleMatch × ArticleMatchReason}
    (h : findMatch (knownOf found) candidate = some hit) :
    hit.1 ∈ found ∧ Touches (hit.1.canonicalUrl, hit.1.contentHash) candidate.identity := by
  have hset : ∀ (key : ArticleMatch → Text) k entry,
      OrderedMap.get? (found.foldl (fun m entry => OrderedMap.set (key entry) entry m) []) k =
        some entry → entry ∈ found ∧ key entry = k := by
    intro key k entry hget
    rcases OrderedMap.get?_foldl_set key id k entry found [] hget with ⟨x, hx, hkey, rfl⟩ | hnone
    · exact ⟨hx, hkey⟩
    · cases hnone
  unfold findMatch at h
  split at h
  · rename_i byUrl hurl
    obtain rfl := Option.some.inj h
    exact (hset _ _ _ hurl).imp_right .inl
  · obtain ⟨byHash, hhash, rfl⟩ := Option.map_eq_some_iff.mp h
    exact (hset _ _ _ hhash).imp_right .inr

theorem mem_selectMatches_iff (row : Article) : row ∈ selectMatches queries s ↔
    row ∈ s ∧ ∃ query ∈ queries,
      query.canonicalUrl = row.canonicalUrl ∨ query.contentHash = row.contentHash := by
  unfold selectMatches
  rw [List.mem_filter, Bool.or_eq_true, decide_eq_true_eq, decide_eq_true_eq, List.mem_map,
    List.mem_map]
  refine and_congr_right fun _ => ?_
  constructor
  · rintro (⟨query, hquery, heq⟩ | ⟨query, hquery, heq⟩)
    · exact ⟨query, hquery, .inl heq⟩
    · exact ⟨query, hquery, .inr heq⟩
  · rintro ⟨query, hquery, heq | heq⟩
    · exact .inl ⟨query, hquery, heq⟩
    · exact .inr ⟨query, hquery, heq⟩

/-- After a lookup that asked for its members, a group is new exactly when no row shares a key with
one of them. -/
theorem findGroupMatch_eq_none_iff
    (hfound : found.Perm ((selectMatches queries s).map Article.toMatch))
    (hasked : ∀ c ∈ members, toQuery c ∈ queries) :
    findGroupMatch (knownOf found) members = none ↔
      ∀ c ∈ members, ∀ x ∈ identities s, ¬ Touches x c.identity := by
  unfold findGroupMatch
  rw [List.findSome?_eq_none_iff]
  refine forall₂_congr fun c hc => (findMatch_eq_none_iff c).trans ?_
  constructor
  · intro hnone x hx htouch
    obtain ⟨row, hrow, rfl⟩ := List.mem_map.mp hx
    have hselected : row ∈ selectMatches queries s :=
      (mem_selectMatches_iff row).mpr ⟨hrow, toQuery c, hasked c hc, htouch.imp Eq.symm Eq.symm⟩
    exact hnone row.toMatch (hfound.mem_iff.mpr (List.mem_map_of_mem hselected)) htouch
  · intro hnone entry hentry htouch
    obtain ⟨row, hrow, rfl⟩ := List.mem_map.mp (hfound.mem_iff.mp hentry)
    exact hnone row.identity (List.mem_map_of_mem ((mem_selectMatches_iff row).mp hrow).1) htouch

end Lookup

end Newsdeck.Worker
