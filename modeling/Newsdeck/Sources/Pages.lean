import Mathlib.Data.List.Lex
import Mathlib.Data.Prod.Lex
import Newsdeck.Library.Paging
import Newsdeck.Sources.Table

/-!
# The pages of the sources

The API lists the sources by pages, the oldest first.  Other requests and the collector write to the
table while somebody reads on from page to page.

* `list` — a page, its size kept between 1 and 100;
* `DatedStep` — what a statement does to the rows and to their order;
* `Browse` — a reader who asks for one page after the other;
* `list_misses_none` — **whoever reads up to a short page has seen every source that was there at
  the beginning**;
* `list_in_order` — no source is seen twice as long as new ones come behind;
* `admin_pages` — the pages that the admin can turn to.
-/

namespace Newsdeck.Sources

open Ecma Effects Database Paging

/-- A row, and when it was created. -/
structure Dated where
  row : Source
  createdAt : ℕ
  deriving DecidableEq, Repr

/-- What the rows are ordered by.  Ids are compared as PostgreSQL does it, from their first digit
on. -/
def Dated.key (dated : Dated) : ℕ ×ₗ Text := toLex (dated.createdAt, dated.row.id)

def rowsOf (s : List Dated) : List Source := s.map Dated.row
def keysOf (s : List Dated) : List (ℕ ×ₗ Text) := s.map Dated.key
def idsOf (s : List Dated) : List Text := s.map fun dated => dated.row.id

/-! ### A page -/

/-- Applied when a caller asks for no page size at all. -/
def defaultPageSize : ℤ := 20

/-- Hard ceiling on page size. -/
def maxPageSize : ℤ := 100

structure ListSourcesOptions where
  page : Option ℤ
  pageSize : Option ℤ
  deriving DecidableEq, Repr

structure ListSourcesPage where
  items : List Dated
  total : ℕ
  deriving DecidableEq, Repr

def clampedSize (pageSize : Option ℤ) : ℕ :=
  (min (max (pageSize.getD defaultPageSize) 1) maxPageSize).toNat

/-- `orderBy(asc(sources.createdAt), asc(sources.id))`. -/
def ordered (s : List Dated) : List Dated := s.insertionSort fun a b => a.key ≤ b.key

/-- The two statements are sent side by side: the table that is counted need not be the one that is
read. -/
def list (options : ListSourcesOptions) (s counted : List Dated) : ListSourcesPage :=
  let pageSize := clampedSize options.pageSize
  let page := (max (options.page.getD 1) 1).toNat
  { items := ((ordered s).drop ((page - 1) * pageSize)).take pageSize, total := counted.length }

section Page

variable {s counted : List Dated} {pageSize : Option ℤ}

theorem clampedSize_spec (pageSize : Option ℤ) : 0 < clampedSize pageSize ∧
    clampedSize pageSize ≤ 100 := by
  unfold clampedSize maxPageSize
  omega

/-- Pages are counted from 1. -/
theorem items_list (n : ℕ) : (list ⟨some (n + 1), pageSize⟩ s counted).items =
    window (clampedSize pageSize) n (ordered s) := by
  have hpage : (max ((some ((n : ℤ) + 1)).getD 1) 1).toNat - 1 = n := by
    rw [Option.getD_some]
    omega
  rw [list]
  simp only [hpage]
  rfl

theorem keys_ordered (s : List Dated) : keysOf (ordered s) = sorted (keysOf s) :=
  List.map_insertionSort _ _ Dated.key s fun _ _ _ _ => Iff.rfl

theorem keys_items (n : ℕ) : keysOf (list ⟨some (n + 1), pageSize⟩ s counted).items =
    window (clampedSize pageSize) n (sorted (keysOf s)) := by
  rw [items_list, keysOf, map_window, ← keys_ordered, keysOf]

end Page

/-! ### Statements in between -/

/-- A statement.  A row keeps the time it was created at; and the rows have no order of their
own. -/
def DatedStep [Uuid] (s : List Dated) (event : SourcesEvent) (t : List Dated) : Prop :=
  ∃ u, sourcesStep (rowsOf s) event (rowsOf u) ∧
    (u.take s.length).map Dated.createdAt = s.map Dated.createdAt ∧ u.Perm t

/-- Some statement was run. -/
def Worked [Uuid] (s t : List Dated) : Prop := ∃ event, DatedStep s event t

/-- Every row that is new comes behind the ones that were there. -/
def Behind (s t : List Dated) : Prop := ∀ x ∈ keysOf s, ∀ y ∈ keysOf t, y ∉ keysOf s → x < y

section Steps

variable {s t : List Dated} {event : SourcesEvent}

theorem change_id {id : Text} {f : Source → Source} (hop : event.op.change = some (id, f))
    (row : Source) :
    (f row).id = row.id := by
  obtain ⟨op, answer⟩ := event
  cases op with
  | update given patch =>
    obtain ⟨rfl, rfl⟩ := Prod.mk.inj (Option.some.inj hop)
    rfl
  | deactivate given =>
    obtain ⟨rfl, rfl⟩ := Prod.mk.inj (Option.some.inj hop)
    rfl
  | recordFetchOutcome given outcome =>
    obtain ⟨rfl, rfl⟩ := Prod.mk.inj (Option.some.inj hop)
    rfl
  | findByFeedUrl => cases hop
  | insert => cases hop
  | findFetchTarget => cases hop
  | fetchFeed => cases hop

theorem keysOf_eq_zipWith (s : List Dated) :
    keysOf s = List.zipWith (fun at' id => toLex (at', id)) (s.map Dated.createdAt) (idsOf s) := by
  rw [idsOf, List.zipWith_map, List.zipWith_self]
  rfl

theorem keys_nodup (hs : (idsOf s).Nodup) : (keysOf s).Nodup := by
  have hids : (keysOf s).map (fun key => (ofLex key).2) = idsOf s := by
    rw [keysOf, List.map_map]
    rfl
  exact List.Nodup.of_map _ (hids ▸ hs)

variable [Uuid]

/-- The ids of the rows: none is lost or changed, and a new one is new. -/
theorem sourcesStep_ids {s s' : List Source} (h : sourcesStep s event s')
    (hs : (s.map Source.id).Nodup) :
    (s'.map Source.id).Nodup ∧ s.map Source.id <+: s'.map Source.id := by
  have hchanged : s' = s ∨ (∃ id f key, event.op.change = some (id, f) ∧ s' = updateRows key f s) →
      (s'.map Source.id).Nodup ∧ s.map Source.id <+: s'.map Source.id := by
    rintro (rfl | ⟨id, f, key, hop, rfl⟩)
    · exact ⟨hs, List.prefix_refl _⟩
    · have hids : (updateRows key f s).map Source.id = s.map Source.id := by
        rw [updateRows, List.map_map]
        refine List.map_congr_left fun row _ => ?_
        show (if row.id = key then f row else row).id = row.id
        split
        · exact change_id hop row
        · rfl
      rw [hids]
      exact ⟨hs, List.prefix_refl _⟩
  by_cases hinsert : ∃ input, event.op = .insert input
  · obtain ⟨input, hop⟩ := hinsert
    obtain ⟨op, answer⟩ := event
    subst hop
    obtain ⟨id, hnew, hwrites⟩ := h
    rcases hwrites.cases with rfl | ⟨rfl, -⟩
    · exact ⟨hs, List.prefix_refl _⟩
    · rw [List.map_append, List.map_singleton]
      have hid : (input.toRow id).id = id := rfl
      rw [hid]
      exact ⟨List.nodup_append.mpr ⟨hs, List.nodup_singleton _, by
        intro x hx y hy hxy
        obtain rfl := List.mem_singleton.mp hy
        exact hnew (hxy ▸ hx)⟩, List.prefix_append _ _⟩
  · rcases sourcesStep_cases h with rfl | ⟨input, id, hop, -⟩ | ⟨id, f, key, hop, -, rfl, -⟩
    · exact hchanged (.inl rfl)
    · exact absurd ⟨input, hop⟩ hinsert
    · exact hchanged (.inr ⟨id, f, key, hop, rfl⟩)

/-- A statement loses no key. -/
theorem DatedStep.keys (h : DatedStep s event t) (hs : (idsOf s).Nodup) :
    (idsOf t).Nodup ∧ ∃ new, (keysOf t).Perm (keysOf s ++ new) := by
  obtain ⟨u, hstep, hdates, hperm⟩ := h
  have hids : ∀ v : List Dated, (rowsOf v).map Source.id = idsOf v := fun v => by
    rw [rowsOf, List.map_map]
    rfl
  obtain ⟨hnodup, hprefix⟩ := sourcesStep_ids hstep (by rwa [hids])
  rw [hids] at hnodup
  rw [hids, hids] at hprefix
  refine ⟨(hperm.map _).nodup_iff.mp hnodup, keysOf (u.drop s.length), ?_⟩
  have htake : idsOf (u.take s.length) = idsOf s := by
    rw [idsOf, List.map_take, ← idsOf]
    have hlength : s.length = (idsOf s).length := (List.length_map _).symm
    rw [hlength]
    exact (List.prefix_iff_eq_take.mp hprefix).symm
  have hkeys : keysOf (u.take s.length) = keysOf s := by
    rw [keysOf_eq_zipWith, hdates, htake, ← keysOf_eq_zipWith]
  rw [← hkeys, keysOf, keysOf, keysOf, ← List.map_append, List.take_append_drop]
  exact hperm.symm.map _

end Steps

/-! ### From page to page -/

/-- What a reader was given who asks for one page after the other, and the table as it is now.  In
between the table changes as is allowed. -/
inductive Browse (works : List Dated → List Dated → Prop) (pageSize : Option ℤ)
    (start : List Dated) :
    List ListSourcesPage → List Dated → Prop
  | nil : Browse works pageSize start [] start
  | work {pages : List ListSourcesPage} {s t : List Dated}
      (before : Browse works pageSize start pages s)
      (h : works s t) : Browse works pageSize start pages t
  | read {pages : List ListSourcesPage} {s : List Dated}
      (before : Browse works pageSize start pages s) (counted : List Dated) :
      Browse works pageSize start (pages ++ [list ⟨some (pages.length + 1), pageSize⟩ s counted]) s

section Reader

variable {works : List Dated → List Dated → Prop} {pageSize : Option ℤ} {start s t : List Dated}
  {pages : List ListSourcesPage}

def keysRead (pages : List ListSourcesPage) : List (List (ℕ ×ₗ Text)) :=
  pages.map fun page => keysOf page.items

/-- Seen by its keys, the reader browses a table that grows. -/
theorem Browse.browsing {grows : List (ℕ ×ₗ Text) → List (ℕ ×ₗ Text) → Prop}
    (hgrows : ∀ s t, works s t → (idsOf s).Nodup → (idsOf t).Nodup ∧ grows (keysOf s) (keysOf t))
    (hids : (idsOf start).Nodup) (h : Browse works pageSize start pages s) :
    (idsOf s).Nodup ∧ Browsing (clampedSize pageSize) grows (keysOf start) (keysRead pages)
      (keysOf s) := by
  induction h with
  | nil => exact ⟨hids, .nil⟩
  | work _ hworks ih =>
    obtain ⟨hnodup, hgrown⟩ := hgrows _ _ hworks ih.1
    exact ⟨hnodup, .grow ih.2 hgrown⟩
  | @read pages s _ counted ih =>
    refine ⟨ih.1, ?_⟩
    have hread := Browsing.read ih.2
    rw [keysRead, List.length_map, ← @keys_items _ counted] at hread
    rw [keysRead, List.map_append]
    exact hread

theorem length_page (hpages : Browse works pageSize start pages s) :
    ∀ page ∈ pages, page.items.length ≤ clampedSize pageSize := by
  induction hpages with
  | nil => simp
  | work _ _ ih => exact ih
  | read _ counted ih =>
    intro page hpage
    rcases List.mem_append.mp hpage with hold | hnew
    · exact ih page hold
    · rw [List.mem_singleton.mp hnew, items_list]
      exact length_window_le

theorem length_keysOf (s : List Dated) : (keysOf s).length = s.length := List.length_map _

section Reading

/-- A source whose name is its id. -/
def feedNamed (name : Text) (createdAt : ℕ) : Dated where
  row := NewSource.toRow ⟨name, lit "https://feed.test/" ++ name, none⟩ name
  createdAt := createdAt

def twoFeeds : List Dated := [feedNamed (lit "b") 5, feedNamed (lit "a") 5]

/-- The table once a source is added. -/
def threeFeeds (createdAt : ℕ) : List Dated := twoFeeds ++ [feedNamed (lit "c") createdAt]

/-- Pages of two sources; the third one is added behind the first page. -/
def twoPages (createdAt : ℕ) : List ListSourcesPage :=
  [list ⟨some 1, some 2⟩ twoFeeds twoFeeds, list ⟨some 2, some 2⟩ (threeFeeds createdAt) twoFeeds]

theorem worked_add (createdAt : ℕ) : @Worked ⟨some⟩ twoFeeds (threeFeeds createdAt) :=
  ⟨⟨.insert ⟨lit "c", lit "https://feed.test/" ++ lit "c", none⟩,
    .ok (feedNamed (lit "c") createdAt).row⟩,
    _, ⟨lit "c", by decide, by decide, rfl, rfl⟩, rfl, .refl _⟩

theorem browse_twoPages (createdAt : ℕ) (h : works twoFeeds (threeFeeds createdAt)) :
    Browse works (some 2) twoFeeds (twoPages createdAt) (threeFeeds createdAt) :=
  .read (.work (.read .nil twoFeeds) h) twoFeeds

end Reading

theorem Worked.kept [Uuid] (h : Worked s t) (hids : (idsOf s).Nodup) :
    (idsOf t).Nodup ∧ (keysOf t).Nodup ∧ (keysOf s).Subperm (keysOf t) := by
  obtain ⟨event, hstep⟩ := h
  obtain ⟨hnodup, new, hperm⟩ := hstep.keys hids
  exact ⟨hnodup, keys_nodup hnodup, (List.sublist_append_left _ _).subperm.trans hperm.symm.subperm⟩

theorem Worked.behind [Uuid] (h : Worked s t) (hids : (idsOf s).Nodup) (hbehind : Behind s t) :
    (idsOf t).Nodup ∧ sorted (keysOf s) <+: sorted (keysOf t) := by
  obtain ⟨event, hstep⟩ := h
  obtain ⟨hnodup, new, hperm⟩ := hstep.keys hids
  have hdisjoint := (List.nodup_append.mp (hperm.nodup_iff.mp (keys_nodup hnodup))).2.2
  refine ⟨hnodup, sorted_prefix hperm fun x hx y hy => ?_⟩
  exact hbehind x hx y (hperm.mem_iff.mpr (List.mem_append_right _ hy))
    fun hold => hdisjoint y hold y hy rfl

/-- **Nothing is missed.**  No page is longer than 100.  A reader who meets a page that is shorter
than asked for has been given every source of the beginning, whatever was created, changed and
deactivated between the pages, and wherever new sources came. -/
theorem list_misses_none [Uuid] (hids : (idsOf start).Nodup)
    (h : Browse Worked pageSize start pages s) :
    (∀ page ∈ pages, page.items.length ≤ 100) ∧
    ((∃ page ∈ pages, page.items.length < clampedSize pageSize) →
      ∀ dated ∈ start, ∃ page ∈ pages, ∃ listed ∈ page.items,
        listed.row.id = dated.row.id ∧ listed.createdAt = dated.createdAt) := by
  refine ⟨fun page hpage => (length_page h page hpage).trans (clampedSize_spec pageSize).2, ?_⟩
  rintro ⟨short, hshort, hlength⟩ dated hdated
  obtain ⟨-, hbrowsing⟩ : (idsOf s).Nodup ∧ Browsing (clampedSize pageSize)
      (fun old new => new.Nodup ∧ old.Subperm new) (keysOf start) (keysRead pages) (keysOf s) :=
    h.browsing (fun _ _ hworked => Worked.kept hworked) hids
  have hshortKeys : ∃ keys ∈ keysRead pages, keys.length < clampedSize pageSize :=
    ⟨_, List.mem_map_of_mem hshort, (length_keysOf _).symm ▸ hlength⟩
  obtain ⟨keys, hkeys, hmem⟩ :=
    hbrowsing.complete (fun _ _ hgrown _ => hgrown) (keys_nodup hids) hshortKeys
    dated.key (List.mem_map_of_mem hdated)
  obtain ⟨page, hpage, rfl⟩ := List.mem_map.mp hkeys
  obtain ⟨listed, hlisted, hkey⟩ := List.mem_map.mp hmem
  obtain ⟨hcreated, hid⟩ := Prod.mk.inj (toLex.injective hkey)
  exact ⟨page, hpage, listed, hlisted, hid, hcreated⟩

/-- The third source comes in front, and pushes the first page down. -/
theorem list_misses_none_twoPages : ∃ page ∈ twoPages 4, ∃ listed ∈ page.items,
    listed.row.id = lit "a" ∧ listed.createdAt = 5 :=
  (@list_misses_none (some 2) _ _ _ ⟨some⟩ (by decide) (browse_twoPages 4 (worked_add 4))).2
    (by decide +kernel)
    (feedNamed (lit "a") 5) (by simp [twoFeeds])

/-- **Nothing is seen twice.**  As long as new sources come behind the others, and all pages but the
last are full, what a reader was given is the beginning of the table, in its order. -/
theorem list_in_order [Uuid] (hids : (idsOf start).Nodup)
    (h : Browse (fun s t => Worked s t ∧ Behind s t) pageSize start pages s)
    (hfull : ∀ page ∈ pages.dropLast, page.items.length = clampedSize pageSize) :
    keysOf (pages.flatMap ListSourcesPage.items) <+: keysOf (ordered s) ∧
      (keysOf (pages.flatMap ListSourcesPage.items)).Pairwise (· < ·) := by
  obtain ⟨hnodup, hbrowsing⟩ : (idsOf s).Nodup ∧ Browsing (clampedSize pageSize)
      (fun old new => sorted old <+: sorted new) (keysOf start) (keysRead pages) (keysOf s) :=
    h.browsing (fun _ _ hworked hnodup => Worked.behind hworked.1 hnodup hworked.2) hids
  have hfullKeys : ∀ keys ∈ (keysRead pages).dropLast, keys.length = clampedSize pageSize := by
    rw [keysRead, ← List.map_dropLast]
    intro keys hkeys
    obtain ⟨page, hpage, rfl⟩ := List.mem_map.mp hkeys
    rw [length_keysOf]
    exact hfull page hpage
  have horder := hbrowsing.in_order (fun _ _ hgrown => hgrown)
    (clampedSize_spec pageSize).1 hfullKeys
  have hflat : (keysRead pages).flatten = keysOf (pages.flatMap ListSourcesPage.items) := by
    rw [keysRead, keysOf, List.map_flatMap, List.flatMap_def]
    rfl
  rw [hflat, ← keys_ordered] at horder
  refine ⟨horder, List.Pairwise.sublist horder.sublist ?_⟩
  rw [keys_ordered]
  exact sorted_lt (keys_nodup hnodup)

theorem list_in_order_twoPages :
    keysOf ((twoPages 6).flatMap ListSourcesPage.items) <+: keysOf (ordered (threeFeeds 6)) ∧
      (keysOf ((twoPages 6).flatMap ListSourcesPage.items)).Pairwise (· < ·) :=
  @list_in_order (some 2) _ _ _ ⟨some⟩ (by decide)
    (browse_twoPages 6 ⟨worked_add 6, by unfold Behind; decide +kernel⟩) (by decide +kernel)

end Reader

/-! ### The admin -/

/-- The page size of the admin. -/
def adminPageSize : ℕ := 20

/-- `Math.max(1, Math.ceil(data.total / PAGE_SIZE))`. -/
def totalPages (total : ℕ) : ℕ := max 1 ((total + (adminPageSize - 1)) / adminPageSize)

/-- A page of a table that nobody writes to. -/
def adminPage (s : List Dated) (page : ℕ) : ListSourcesPage :=
  list ⟨some (page + 1), some adminPageSize⟩ s s

theorem ordered_perm (s : List Dated) : (ordered s).Perm s := List.perm_insertionSort _ s

/-- How the rows lie does not matter. -/
theorem ordered_eq {s t : List Dated} (hids : (idsOf s).Nodup) (hperm : t.Perm s) :
    ordered t = ordered s := by
  have hle : ∀ u : List Dated, (ordered u).Pairwise fun a b => a.key ≤ b.key := by
    intro u
    have hkeys : (keysOf (ordered u)).Pairwise (· ≤ ·) := by
      rw [keys_ordered]
      exact List.pairwise_insertionSort _ _
    exact List.pairwise_map.mp hkeys
  refine List.Perm.eq_of_pairwise ?_ (hle t) (hle s)
    ((ordered_perm t).trans (hperm.trans (ordered_perm s).symm))
  intro a b ha hb hab hba
  have has : a ∈ s := hperm.mem_iff.mp ((ordered_perm t).mem_iff.mp ha)
  have hbs : b ∈ s := (ordered_perm s).mem_iff.mp hb
  exact List.inj_on_of_nodup_map (keys_nodup hids) has hbs (le_antisymm hab hba)

/-- The admin can turn to the pages up to the last one that is counted.  Each source stands on one
of them, in the order of creation and however the rows lie; and unless there is no source, these are
the pages that are not empty. -/
theorem admin_pages {s t : List Dated} (hids : (idsOf s).Nodup) (hperm : t.Perm s) :
    ((List.range (totalPages s.length)).map fun page => (adminPage t page).items).flatten =
      ordered s ∧
      (ordered s).Perm s ∧
      (s ≠ [] → ∀ page, (adminPage t page).items ≠ [] ↔ page < totalPages s.length) := by
  have hsize : clampedSize (some adminPageSize) = 20 := by decide
  have hitems : ∀ page, (adminPage t page).items = window 20 page (ordered s) := by
    intro page
    rw [adminPage, items_list, hsize, ordered_eq hids hperm]
  have hlength : (ordered s).length = s.length := (ordered_perm s).length_eq
  refine ⟨?_, ordered_perm s, fun hs page => ?_⟩
  · simp only [hitems]
    rw [flatten_windows]
    refine List.take_of_length_le ?_
    rw [hlength, totalPages, adminPageSize]
    omega
  · have hpos := List.length_pos_iff.mpr hs
    rw [hitems, ← List.length_pos_iff, length_window, hlength, totalPages, adminPageSize]
    omega

/-- Sources that were all created at one time. -/
def manyFeeds : List Dated := (List.range 45).map fun n => feedNamed (decimal n) 5

theorem nodup_manyFeeds : (idsOf manyFeeds).Nodup := by
  have hids : idsOf manyFeeds = (List.range 45).map decimal := rfl
  rw [hids]
  decide +kernel

/-- Three pages, the last of them with five sources. -/
theorem admin_pages_manyFeeds :
    totalPages manyFeeds.length = 3 ∧
    ((List.range 3).map fun page => (adminPage manyFeeds.reverse page).items).flatten =
      ordered manyFeeds ∧
    (adminPage manyFeeds.reverse 2).items ≠ [] ∧ (adminPage manyFeeds.reverse 3).items = [] := by
  have htotal : totalPages manyFeeds.length = 3 := by decide
  obtain ⟨hall, -, hpages⟩ := admin_pages nodup_manyFeeds manyFeeds.reverse_perm
  rw [htotal] at hall hpages
  have hsome : manyFeeds ≠ [] := by decide
  exact ⟨htotal, hall, (hpages hsome 2).mpr (by decide),
    not_not.mp fun h => absurd ((hpages hsome 3).mp h) (by decide)⟩

end Newsdeck.Sources
