import Mathlib.Data.List.Sort

/-!
# Reading a growing table by pages

A table holds keys, in no order of its own; a page is cut out of the sorted table.  Between two
pages the table may grow.

* `rank` — how many keys stand in front of a key; it never falls while a table grows;
* `Browsing` — one page after the other, each cut out of the table as it is then;
* `Browsing.complete` — **a reader who meets a short page has read every key that was there at the
  beginning**;
* `Browsing.in_order` — when new keys only come behind, what was read is the beginning of the sorted
  table.
-/

namespace Paging

variable {α K : Type}

/-- The page that comes after `before` others. -/
def window (size before : ℕ) (xs : List α) : List α := (xs.drop (before * size)).take size

section Window

variable {size n : ℕ} {xs : List α}

theorem take_append_window (size n : ℕ) (xs : List α) :
    xs.take (n * size) ++ window size n xs = xs.take ((n + 1) * size) := by
  rw [Nat.add_one_mul, List.take_add]
  rfl

theorem length_window : (window size n xs).length = min size (xs.length - n * size) := by
  rw [window, List.length_take, List.length_drop]

theorem length_window_le : (window size n xs).length ≤ size := by
  rw [length_window]
  exact Nat.min_le_left _ _

/-- A short page is the last one. -/
theorem length_lt_of_short (hshort : (window size n xs).length < size) :
    xs.length < (n + 1) * size := by
  rw [length_window] at hshort
  rw [Nat.add_one_mul]
  omega

theorem length_of_full (hsize : 0 < size) (hfull : (window size n xs).length = size) :
    (n + 1) * size ≤ xs.length := by
  rw [length_window] at hfull
  rw [Nat.add_one_mul]
  omega

/-- The pages one after the other. -/
theorem flatten_windows (size : ℕ) (xs : List α) (n : ℕ) :
    ((List.range n).map fun i => window size i xs).flatten = xs.take (n * size) := by
  induction n with
  | zero => simp
  | succ n ih =>
    rw [List.range_succ, List.map_append, List.flatten_append, ih, List.map_singleton,
      List.flatten_singleton, take_append_window]

theorem map_window {β : Type} (f : α → β) : (window size n xs).map f = window size n
    (xs.map f) := by
  rw [window, window, List.map_take, List.map_drop]

end Window

/-! ### Keys -/

section Keys

variable [LinearOrder K] {s t new xs : List K} {x : K} {size n : ℕ}

/-- How many keys stand in front of a key. -/
def rank (s : List K) (x : K) : ℕ := s.countP (· < x)

def sorted (s : List K) : List K := s.insertionSort (· ≤ ·)

theorem rank_mono (h : s.Subperm t) (x : K) : rank s x ≤ rank t x := h.countP_le _

theorem perm_sorted (s : List K) : (sorted s).Perm s := List.perm_insertionSort _ s

theorem sorted_lt (hs : s.Nodup) : (sorted s).Pairwise (· < ·) := by
  have hle : (sorted s).Pairwise (· ≤ ·) := List.pairwise_insertionSort _ s
  have hne : (sorted s).Pairwise (· ≠ ·) := (perm_sorted s).nodup_iff.mpr hs
  exact (hle.and hne).imp fun h => lt_of_le_of_ne h.1 h.2

/-- The rank of a key is its place in the sorted table. -/
theorem rank_getElem (hxs : xs.Pairwise (· < ·)) (j : ℕ) (hj : j < xs.length) :
    rank xs xs[j] = j := by
  induction xs generalizing j with
  | nil => cases hj
  | cons y ys ih =>
    obtain ⟨hy, hys⟩ := List.pairwise_cons.mp hxs
    cases j with
    | zero =>
      have hnone : ∀ z ∈ y :: ys, ¬ z < y := by
        intro z hz
        rcases List.mem_cons.mp hz with rfl | hz
        · exact lt_irrefl z
        · exact (hy z hz).asymm
      exact List.countP_eq_zero.mpr fun z hz => by simpa using hnone z hz
    | succ j =>
      have hj' : j < ys.length := Nat.lt_of_succ_lt_succ hj
      have hfront : y < ys[j] := hy _ (List.getElem_mem hj')
      have hrest := ih hys j hj'
      rw [rank] at hrest ⊢
      rw [List.getElem_cons_succ, List.countP_cons, hrest]
      simp [hfront]

theorem exists_rank (hs : s.Nodup) (hx : x ∈ s) : ∃ hj :
    rank s x < (sorted s).length, (sorted s)[rank s x] = x := by
  obtain ⟨j, hj, rfl⟩ := List.getElem_of_mem ((perm_sorted s).mem_iff.mpr hx)
  have hrank : rank s (sorted s)[j] = j :=
    ((perm_sorted s).countP_eq _).symm.trans (rank_getElem (sorted_lt hs) j hj)
  exact ⟨hrank.symm ▸ hj, by simp only [hrank]⟩

/-- The page on which a key stands. -/
theorem mem_window (hs : s.Nodup) (hx : x ∈ s) (hfrom : n * size ≤ rank s x)
    (hto : rank s x < (n + 1) * size) :
    x ∈ window size n (sorted s) := by
  obtain ⟨hj, hget⟩ := exists_rank hs hx
  rw [Nat.add_one_mul] at hto
  rw [window, List.mem_take_iff_getElem]
  refine ⟨rank s x - n * size, ?_, ?_⟩
  · rw [List.length_drop]
    omega
  · rw [List.getElem_drop]
    simpa only [Nat.add_sub_cancel' hfrom] using hget

/-- Keys that come behind all others leave the sorted table as it was, up to its end. -/
theorem sorted_prefix (hperm : t.Perm (s ++ new)) (hbehind : ∀ x ∈ s, ∀ y ∈ new, x < y) :
    sorted s <+: sorted t := by
  refine ⟨sorted new, ?_⟩
  have hle : ∀ u : List K, (sorted u).Pairwise (· ≤ ·) := List.pairwise_insertionSort _
  have hboth : (sorted s ++ sorted new).Pairwise (· ≤ ·) := by
    refine List.pairwise_append.mpr ⟨hle s, hle new, fun x hx y hy => ?_⟩
    exact (hbehind x ((perm_sorted s).mem_iff.mp hx) y ((perm_sorted new).mem_iff.mp hy)).le
  refine List.Perm.eq_of_pairwise' hboth (hle t) ?_
  exact ((perm_sorted s).append (perm_sorted new)).trans (hperm.symm.trans (perm_sorted t).symm)

end Keys

/-! ### A reader -/

/-- The pages that were read, and the table as it is now. -/
inductive Browsing [LinearOrder K] (size : ℕ) (grows : List K → List K → Prop) (start : List K) :
    List (List K) → List K → Prop
  | nil : Browsing size grows start [] start
  | grow {pages : List (List K)} {s t : List K} (before : Browsing size grows start pages s)
      (h : grows s t) :
      Browsing size grows start pages t
  | read {pages : List (List K)} {s : List K} (before : Browsing size grows start pages s) :
      Browsing size grows start (pages ++ [window size pages.length (sorted s)]) s

namespace Browsing

variable [LinearOrder K] {size : ℕ} {grows : List K → List K → Prop} {start s : List K}
    {pages : List (List K)}

/-- A key that was there at the beginning is on a page that was read, or still to come. -/
theorem read_or_ahead (hgrows : ∀ s t, grows s t → s.Nodup → t.Nodup ∧ s.Subperm t)
    (hstart : start.Nodup) (h : Browsing size grows start pages s) : s.Nodup ∧ ∀ x ∈ start, x ∈ s ∧
      ((∃ page ∈ pages, x ∈ page) ∨ pages.length * size ≤ rank s x) := by
  induction h with
  | nil =>
    refine ⟨hstart, fun x hx => ⟨hx, .inr ?_⟩⟩
    rw [List.length_nil, Nat.zero_mul]
    exact Nat.zero_le _
  | grow _ hstep ih =>
    obtain ⟨hnodup, hsub⟩ := hgrows _ _ hstep ih.1
    refine ⟨hnodup, fun x hx => ⟨hsub.subset (ih.2 x hx).1, ?_⟩⟩
    exact (ih.2 x hx).2.imp_right fun hahead => hahead.trans (rank_mono hsub x)
  | @read pages s _ ih =>
    refine ⟨ih.1, fun x hx => ⟨(ih.2 x hx).1, ?_⟩⟩
    rw [List.length_append, List.length_singleton]
    rcases (ih.2 x hx).2 with ⟨page, hpage, hmem⟩ | hahead
    · exact .inl ⟨page, List.mem_append_left _ hpage, hmem⟩
    · by_cases hto : rank s x < (pages.length + 1) * size
      · have hmem := mem_window ih.1 (ih.2 x hx).1 hahead hto
        exact .inl ⟨_, List.mem_append_right _ (List.mem_singleton_self _), hmem⟩
      · exact .inr (Nat.le_of_not_lt hto)

/-- **Nothing is missed.** -/
theorem complete (hgrows : ∀ s t, grows s t → s.Nodup → t.Nodup ∧ s.Subperm t)
    (hstart : start.Nodup)
    (h : Browsing size grows start pages s) (hshort : ∃ page ∈ pages, page.length < size) :
    ∀ x ∈ start, ∃ page ∈ pages, x ∈ page := by
  induction h with
  | nil => simp at hshort
  | grow _ _ ih => exact ih hshort
  | @read pages s before ih =>
    obtain ⟨hnodup, hkeys⟩ := before.read_or_ahead hgrows hstart
    intro x hx
    obtain ⟨short, hmem, hlength⟩ := hshort
    rcases List.mem_append.mp hmem with hold | hnew
    · obtain ⟨page, hpage, hread⟩ := ih ⟨short, hold, hlength⟩ x hx
      exact ⟨page, List.mem_append_left _ hpage, hread⟩
    · obtain rfl := List.mem_singleton.mp hnew
      rcases (hkeys x hx).2 with ⟨page, hpage, hread⟩ | hahead
      · exact ⟨page, List.mem_append_left _ hpage, hread⟩
      · obtain ⟨hplace, -⟩ := exists_rank hnodup (hkeys x hx).1
        have hto := hplace.trans (length_lt_of_short hlength)
        exact ⟨_, hmem, mem_window hnodup (hkeys x hx).1 hahead hto⟩

/-- While all pages are full, what was read is known to its length. -/
theorem flatten_of_full (hgrows : ∀ s t, grows s t → sorted s <+: sorted t) (hsize : 0 < size)
    (h : Browsing size grows start pages s) (hfull : ∀ page ∈ pages, page.length = size) :
    pages.flatten = (sorted s).take (pages.length * size) ∧
      pages.length * size ≤ (sorted s).length := by
  induction h with
  | nil => simp
  | grow _ hstep ih =>
    obtain ⟨hread, hlength⟩ := ih hfull
    obtain ⟨more, hmore⟩ := hgrows _ _ hstep
    rw [← hmore, List.take_append_of_le_length hlength, List.length_append]
    exact ⟨hread, hlength.trans (Nat.le_add_right _ _)⟩
  | @read pages s _ ih =>
    obtain ⟨hread, -⟩ := ih fun page hpage => hfull page (List.mem_append_left _ hpage)
    rw [List.length_append, List.length_singleton, List.flatten_append,
      List.flatten_singleton, hread, take_append_window]
    exact ⟨rfl, length_of_full hsize
      (hfull _ (List.mem_append_right _ (List.mem_singleton_self _)))⟩

/-- **Everything in its order.**  All pages but the last are full. -/
theorem in_order (hgrows : ∀ s t, grows s t → sorted s <+: sorted t) (hsize : 0 < size)
    (h : Browsing size grows start pages s) (hfull : ∀ page ∈ pages.dropLast, page.length = size) :
    pages.flatten <+: sorted s := by
  induction h with
  | nil => exact List.nil_prefix
  | grow _ hstep ih => exact (ih hfull).trans (hgrows _ _ hstep)
  | @read pages s before _ =>
    rw [List.dropLast_concat] at hfull
    obtain ⟨hread, -⟩ := before.flatten_of_full hgrows hsize hfull
    rw [List.flatten_append, List.flatten_singleton, hread, take_append_window]
    exact List.take_prefix _ _

end Browsing

end Paging
