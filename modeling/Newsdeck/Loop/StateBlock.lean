import Newsdeck.Library.Framing
import Newsdeck.Loop.State

/-!
# The state block in a comment

What `STATE_BLOCK` finds in `before ++ marker ++ fence ++ body ++ …`, for an arbitrary text `before`
in front of the block the loop wrote.

* `capture_genuine` — when no marker with a fence behind it occurs in `before`, the captured text is
  the body of the block that was written;
* `capture_forged` — when one does, the captured text is a fixed part of `before` and of the marker
  behind it, whatever was written.

The marker allows blanks around its name and the fence blanks behind the word `json`, so both are
sets of texts, `IsMarker` and `IsFence`.
-/

namespace Newsdeck.Loop

open Ecma Framing

/-- The texts that `<!--\s*newsdeck-loop-state\s*-->` matches. -/
def IsMarker (m : Text) : Prop :=
  ∃ ws ws', (∀ c ∈ ws, isSpace c = true) ∧ (∀ c ∈ ws', isSpace c = true) ∧
    m = lit "<!--" ++ (ws ++ (lit "newsdeck-loop-state" ++ (ws' ++ lit "-->")))

/-- The texts that the opening fence of the block can match, up to their last line break. -/
def IsFence (f : Text) : Prop :=
  ∃ ws, (∀ c ∈ ws, isSpace c = true) ∧ f = lit "```json" ++ (ws ++ [10])

/-- A text that starts with a fence. -/
def FenceAt (t : Text) : Prop := ∃ f, IsFence f ∧ f <+: t

/-! ### Running the expression -/

/-- The closing fence. -/
def closingFence : Text := lit "\n```"

/-- The expression behind the marker: skip to a fence, capture, closing fence. -/
def blockTail : Regex ℕ :=
  .cat [.lazy .any, .str "```json", .many .space, .str "\n", .group 1 (.lazy .any), .str "\n```"]

/-- The expression behind what was skipped. -/
def blockBody : Regex ℕ :=
  .cat [.str "```json", .many .space, .str "\n", .group 1 (.lazy .any), .str "\n```"]

theorem stateBlock_run (k : Cont ℕ) : stateBlock.run k =
    (Regex.str "<!--").run ((Regex.many .space).run ((Regex.str "newsdeck-loop-state").run
      ((Regex.many .space).run ((Regex.str "-->").run (blockTail.run k))))) := rfl

/-- Text that begins with no marker is passed over. -/
theorem stateBlock_run_none {k : Cont ℕ} {b t : Text} {caps : Captures ℕ}
    (h : ∀ m, IsMarker m → ¬ m <+: t) : stateBlock.run k ⟨b, t⟩ caps = none := by
  rw [stateBlock_run]
  by_cases hopen : lit "<!--" <+: t
  · obtain ⟨t₁, rfl⟩ := hopen
    rw [Regex.str, Regex.run_units_append]
    unfold Regex.space
    rw [Regex.run_many]
    apply Regex.greedy_none
    intro ws t₂ ht₁ hws
    by_cases hname : lit "newsdeck-loop-state" <+: t₂
    · obtain ⟨t₃, rfl⟩ := hname
      rw [Regex.str, Regex.run_units_append, Regex.run_many]
      apply Regex.greedy_none
      intro ws' t₄ ht₃ hws'
      apply Regex.run_units_of_not_prefix
      rintro ⟨t₅, rfl⟩
      refine h _ ⟨ws, ws', hws, hws', rfl⟩ ⟨t₅, ?_⟩
      rw [ht₁, ht₃]
      simp only [List.append_assoc]
    · exact Regex.run_units_of_not_prefix _ _ _ _ hname
  · exact Regex.run_units_of_not_prefix _ _ _ _ hopen

/-- A marker is consumed as a whole. -/
theorem stateBlock_run_marker {k : Cont ℕ} {b t m : Text} {caps : Captures ℕ}
    (h : IsMarker m) :
    stateBlock.run k ⟨b, m ++ t⟩ caps = blockTail.run k ⟨m.reverse ++ b, t⟩ caps := by
  obtain ⟨ws, ws', hws, hws', rfl⟩ := h
  rw [stateBlock_run, Regex.str, List.append_assoc, Regex.run_units_append]
  unfold Regex.space
  rw [Regex.run_many, List.append_assoc, Regex.greedy_of_stop]
  · rw [Regex.str, List.append_assoc, Regex.run_units_append, Regex.run_many, List.append_assoc,
      Regex.greedy_of_stop]
    · rw [Regex.str, Regex.run_units_append]
      simp only [List.reverse_append, List.append_assoc]
    · exact hws'
    · intro c hc
      obtain rfl : 45 = c := by simpa [lit] using hc
      rfl
    · intro b' c t' hc
      apply Regex.run_units_of_not_prefix
      intro hpre
      obtain rfl : 45 = c := (List.cons_prefix_cons.mp hpre).1
      exact absurd hc (by decide)
  · exact hws
  · intro c hc
    obtain rfl : 110 = c := by simpa [lit] using hc
    rfl
  · intro b' c t' hc
    apply Regex.run_units_of_not_prefix
    intro hpre
    obtain rfl : 110 = c := (List.cons_prefix_cons.mp hpre).1
    exact absurd hc (by decide)

theorem blockBody_run_none {k : Cont ℕ} {b t : Text} {caps : Captures ℕ} (h : ¬ FenceAt t) :
    blockBody.run k ⟨b, t⟩ caps = none := by
  have hrun : blockBody.run k = (Regex.str "```json").run ((Regex.many .space).run
      ((Regex.str "\n").run ((Regex.group 1 (.lazy .any)).run ((Regex.str "\n```").run k)))) := rfl
  rw [hrun]
  by_cases hopen : lit "```json" <+: t
  · obtain ⟨t₁, rfl⟩ := hopen
    rw [Regex.str, Regex.run_units_append]
    unfold Regex.space
    rw [Regex.run_many]
    apply Regex.greedy_none
    intro ws t₂ ht₁ hws
    apply Regex.run_units_of_not_prefix
    rintro ⟨t₃, rfl⟩
    refine h ⟨_, ⟨ws, hws, rfl⟩, t₃, ?_⟩
    rw [ht₁]
    simp only [List.append_assoc]
    rfl
  · exact Regex.run_units_of_not_prefix _ _ _ _ hopen

/-- No line break stands among the leading blanks of the text. -/
def SameLine (t : Text) : Prop := ∀ u v, t = u ++ v → (∀ c ∈ u, isSpace c = true) → ¬ [10] <+: v

/-- `x` is followed by a closing fence, and by none before. -/
def ClosesFirst (x y : Text) : Prop :=
  ∀ u v, x = u ++ v → v ≠ [] → ¬ closingFence <+: v ++ (closingFence ++ y)

/-- From the last line break of the opening fence to the first closing fence. -/
theorem blockBody_run {b ws x y : Text} (hws : ∀ c ∈ ws, isSpace c = true)
    (hline : SameLine (x ++ (closingFence ++ y))) (hfirst : ClosesFirst x y) :
    ∃ pos, blockBody.run Regex.done ⟨b, lit "```json" ++ (ws ++ 10 :: (x ++ (closingFence ++ y)))⟩ []
      = some (pos, [(1, x)]) := by
  have hrun : blockBody.run Regex.done = (Regex.str "```json").run ((Regex.many .space).run
      ((Regex.str "\n").run ((Regex.group 1 (.lazy .any)).run
        ((Regex.str "\n```").run Regex.done)))) := rfl
  -- the capture, from behind the line break
  have hcapture : ∀ b, ∃ pos, (Regex.group 1 (.lazy .any)).run ((Regex.str "\n```").run Regex.done)
      ⟨b, x ++ (closingFence ++ y)⟩ [] = some (pos, [(1, x)]) := by
    intro b
    refine ⟨⟨closingFence.reverse ++ (x.reverse ++ b), y⟩, ?_⟩
    rw [Regex.run_group]
    unfold Regex.any
    rw [Regex.run_lazy, Regex.lazy_skip]
    · apply Regex.lazy_here
      rw [Regex.str, show lit "\n```" = closingFence from rfl, Regex.run_units_append]
      simp only [Regex.done, List.length_append, Nat.add_sub_cancel, List.take_left]
    · simp
    · intro u v huv hv
      exact Regex.run_units_of_not_prefix _ _ _ _ (hfirst u v huv hv)
  obtain ⟨pos, hpos⟩ := hcapture (10 :: (ws.reverse ++ ((lit "```json").reverse ++ b)))
  refine ⟨pos, ?_⟩
  rw [hrun, Regex.str, Regex.run_units_append]
  unfold Regex.space
  rw [Regex.run_many]
  apply Regex.greedy_last
  · exact hws
  · rw [Regex.str, show 10 :: (x ++ (closingFence ++ y)) = lit "\n" ++ (x ++ (closingFence ++ y))
      from rfl, Regex.run_units_append]
    exact hpos
  · intro u v huv hne hu
    cases u with
    | nil => exact absurd rfl hne
    | cons c u =>
      rw [List.cons_append, List.cons.injEq] at huv
      exact Regex.run_units_of_not_prefix _ _ _ _
        (hline u v huv.2 fun d hd => hu d (by simp [hd]))

/-- The lazy skip goes to the first fence. -/
theorem blockTail_run {b q e : Text} {r : Cursor ℕ × Captures ℕ}
    (hskip : ∀ u v, q = u ++ v → v ≠ [] → ¬ FenceAt (v ++ e))
    (he : blockBody.run Regex.done ⟨q.reverse ++ b, e⟩ [] = some r) :
    blockTail.run Regex.done ⟨b, q ++ e⟩ [] = some r := by
  have hrun : blockTail.run Regex.done =
      (Regex.lazy .any).run (blockBody.run Regex.done) := rfl
  rw [hrun]
  unfold Regex.any
  rw [Regex.run_lazy, Regex.lazy_skip]
  · exact Regex.lazy_here _ he
  · simp
  · intro u v huv hv
    exact blockBody_run_none (hskip u v huv hv)

/-! ### The block that was written -/

/-- The marker as the loop writes it, up to the ticks of its fence. -/
def blockHead : Text := loopStateMarker ++ lit "\n\n```"

/-- A block around `body`, followed by `after`. -/
def blockText (body after : Text) : Text :=
  blockHead ++ (lit "json\n" ++ (body ++ (closingFence ++ after)))

theorem isMarker_loopStateMarker : IsMarker loopStateMarker :=
  ⟨[32], [32], by decide, by decide, by decide⟩

theorem IsMarker.cons {m : Text} (h : IsMarker m) :
    ∃ m', m = 60 :: m' ∧ 60 ∉ m' := by
  obtain ⟨ws, ws', hws, hws', rfl⟩ := h
  have hspace : ∀ l : Text, (∀ c ∈ l, isSpace c = true) → 60 ∉ l := fun l hl hmem =>
    absurd (hl 60 hmem) (by decide)
  refine ⟨lit "!--" ++ (ws ++ (lit "newsdeck-loop-state" ++ (ws' ++ lit "-->"))), rfl, ?_⟩
  simp only [List.mem_append, not_or]
  exact ⟨by decide, hspace ws hws, by decide, hspace ws' hws', by decide⟩

theorem IsFence.cons {f : Text} (h : IsFence f) : ∃ f', f = 96 :: f' ∧ 60 ∉ f := by
  obtain ⟨ws, hws, rfl⟩ := h
  refine ⟨_, rfl, ?_⟩
  simp only [List.mem_append, not_or]
  exact ⟨by decide, fun hmem => absurd (hws 60 hmem) (by decide), by decide⟩

/-- A marker that begins before another `<` ends before it. -/
theorem IsMarker.prefix_left {m v t : Text} (hm : IsMarker m) (hv : v ≠ [])
    (h : m <+: v ++ 60 :: t) : m <+: v := by
  obtain ⟨m', rfl, hfree⟩ := hm.cons
  cases v with
  | nil => exact absurd rfl hv
  | cons c v =>
    obtain ⟨rfl, hpre⟩ := List.cons_prefix_cons.mp h
    exact List.cons_prefix_cons.mpr ⟨rfl, prefix_of_append_cons hfree hpre⟩

/-- A fence that begins before a `<` ends before it. -/
theorem FenceAt.left {v t : Text} (h : FenceAt (v ++ 60 :: t)) : FenceAt v := by
  obtain ⟨f, hf, hpre⟩ := h
  obtain ⟨f', -, hfree⟩ := hf.cons
  exact ⟨f, hf, prefix_of_append_cons hfree hpre⟩

theorem fenceAt_head {c : ℕ} {t : Text} (h : FenceAt (c :: t)) : c = 96 := by
  obtain ⟨f, hf, hpre⟩ := h
  obtain ⟨f', rfl, -⟩ := hf.cons
  exact ((List.cons_prefix_cons.mp hpre).1).symm

/-- No fence begins in the marker and the blank line behind it. -/
theorem not_fenceAt_marker {u v t : Text} (h : loopStateMarker ++ lit "\n\n" = u ++ v)
    (hv : v ≠ []) : ¬ FenceAt (v ++ t) := by
  intro hfence
  cases v with
  | nil => exact hv rfl
  | cons c v =>
    obtain rfl := fenceAt_head hfence
    have hmem : 96 ∈ loopStateMarker ++ lit "\n\n" := by
      rw [h]
      simp
    exact absurd hmem (by decide)

theorem blockText_eq (body after : Text) :
    blockText body after = (loopStateMarker ++ lit "\n\n") ++
      (lit "```json" ++ ([] ++ 10 :: (body ++ (closingFence ++ after)))) := by
  simp [blockText, blockHead, lit]

theorem blockText_cons (body after : Text) : ∃ t, blockText body after = 60 :: t :=
  ⟨_, rfl⟩

/-- **The genuine block.**  No marker with a fence behind it stands before the block that was
written: its body is what is captured. -/
theorem capture_genuine {before body after : Text}
    (hbefore : ¬ OccursThen IsMarker IsFence before)
    (hline : SameLine (body ++ (closingFence ++ after))) (hfirst : ClosesFirst body after) :
    stateBlock.capture 1 (before ++ blockText body after) = some body := by
  have hblank : ∀ c ∈ ([] : Text), isSpace c = true := by simp
  have hbody := fun b => blockBody_run (b := b) hblank hline hfirst
  -- behind any marker the skip goes to the fence of the block, over a text without one
  have htail : ∀ b q, (∀ u v, q = u ++ v → ¬ FenceAt v) →
      ∃ pos, blockTail.run Regex.done ⟨b, q ++ blockText body after⟩ [] = some (pos, [(1, body)]) := by
    intro b q hq
    obtain ⟨pos, hpos⟩ := hbody ((q ++ (loopStateMarker ++ lit "\n\n")).reverse ++ b)
    refine ⟨pos, ?_⟩
    rw [blockText_eq, ← List.append_assoc]
    refine blockTail_run (fun u v huv hv => ?_) hpos
    rcases List.append_eq_append_iff.mp huv with ⟨s, hs, hqs⟩ | ⟨s, hs, hqs⟩
    · exact not_fenceAt_marker hqs hv
    · intro hfence
      subst hqs
      rw [List.append_assoc, ← blockText_eq] at hfence
      obtain ⟨t, ht⟩ := blockText_cons body after
      rw [ht] at hfence
      exact hq u s hs hfence.left
  have hexec : ∃ pos, stateBlock.exec (before ++ blockText body after) = some (pos, [(1, body)]) := by
    have hblock : ∀ b, ∃ pos, stateBlock.run Regex.done ⟨b, blockText body after⟩ [] =
        some (pos, [(1, body)]) := by
      intro b
      obtain ⟨pos, hpos⟩ := hbody ((lit "\n\n").reverse ++ (loopStateMarker.reverse ++ b))
      refine ⟨pos, ?_⟩
      rw [blockText_eq, List.append_assoc, stateBlock_run_marker isMarker_loopStateMarker]
      refine blockTail_run (fun u v huv hv => ?_) hpos
      exact not_fenceAt_marker (u := loopStateMarker ++ u) (by rw [huv, List.append_assoc]) hv
    refine Regex.exec_captures (fun u v huv => ?_) (hblock _)
    by_cases hmarker : ∃ m, IsMarker m ∧ m <+: v ++ blockText body after
    · right
      obtain ⟨m, hm, hpre⟩ := hmarker
      by_cases hv : v = []
      · subst hv
        exact hblock _
      · obtain ⟨t, ht⟩ := blockText_cons body after
        rw [ht] at hpre
        obtain ⟨w, rfl⟩ := hm.prefix_left hv hpre
        rw [List.append_assoc, stateBlock_run_marker hm]
        refine htail _ w fun x y hxy hfence => hbefore ?_
        obtain ⟨f, hf, hpre⟩ := hfence
        refine ⟨u ++ m, w, by rw [huv, List.append_assoc], ⟨m, hm, List.infix_append_right⟩,
          f, hf, hpre.isInfix.trans ?_⟩
        rw [hxy]
        exact List.infix_append_right
    · left
      exact stateBlock_run_none fun m hm hpre => hmarker ⟨m, hm, hpre⟩
  obtain ⟨pos, hpos⟩ := hexec
  rw [Regex.capture, hpos]
  rfl

/-! ### A forged block -/

/-- The first marker with a fence behind it, the first fence behind that marker, and all the line
breaks that fence can take. -/
theorem exists_first_block {t : Text} (h : OccursThen IsMarker IsFence t) :
    ∃ a m b f c, t = a ++ (m ++ (b ++ (f ++ c))) ∧ IsMarker m ∧ IsFence f ∧
      (∀ u v m' r, a = u ++ v → v ≠ [] → IsMarker m' → Occurs IsFence r →
        v ++ (m ++ (b ++ (f ++ c))) ≠ m' ++ r) ∧
      (∀ u v, b = u ++ v → v ≠ [] → ¬ FenceAt (v ++ (f ++ c))) ∧
      (∀ f' c', IsFence f' → f ++ c = f' ++ c' → c.length ≤ c'.length) := by
  obtain ⟨a, ⟨m, r, hm, hr, rfl⟩, hamin⟩ := exists_shortest
    (S := fun a => ∃ m r, IsMarker m ∧ Occurs IsFence r ∧ t = a ++ (m ++ r)) (by
      obtain ⟨p, q, rfl, ⟨m, hm, s, e, rfl⟩, hq⟩ := h
      exact ⟨s, m, e ++ q, hm, hq.mono List.infix_append_right, by simp⟩)
  obtain ⟨b, ⟨g, ⟨f, hf, hfg⟩, rfl⟩, hbmin⟩ := exists_shortest
    (S := fun b => ∃ g, FenceAt g ∧ r = b ++ g) (by
      obtain ⟨f, hf, s, e, rfl⟩ := hr
      exact ⟨s, f ++ e, ⟨f, hf, List.prefix_append f e⟩, by simp⟩)
  obtain ⟨c, ⟨f, hf, rfl⟩, hcmin⟩ := exists_shortest
    (S := fun c => ∃ f, IsFence f ∧ g = f ++ c) (by
      obtain ⟨c, hc⟩ := hfg
      exact ⟨c, f, hf, hc.symm⟩)
  refine ⟨a, m, b, f, c, rfl, hm, hf, ?_, ?_, ?_⟩
  · intro u v m' r huv hv hm' hr' heq
    have hlen := hamin u ⟨m', r, hm', hr', by rw [huv, List.append_assoc, heq]⟩
    rw [huv, List.length_append] at hlen
    exact hv (List.length_eq_zero_iff.mp (by omega))
  · intro u v huv hv hfence
    have hlen := hbmin u ⟨_, hfence, by rw [huv, List.append_assoc]⟩
    rw [huv, List.length_append] at hlen
    exact hv (List.length_eq_zero_iff.mp (by omega))
  · intro f' c' hf' heq
    exact hcmin c' ⟨f', hf', heq⟩

/-- A fence may take further blanks up to a line break. -/
theorem IsFence.extend {f u : Text} (hf : IsFence f) (hu : ∀ c ∈ u, isSpace c = true) :
    IsFence (f ++ (u ++ [10])) := by
  obtain ⟨ws, hws, rfl⟩ := hf
  refine ⟨ws ++ [10] ++ u, fun c hc => ?_, by simp⟩
  simp only [List.mem_append, List.mem_singleton] at hc
  rcases hc with (hc | rfl) | hc
  · exact hws c hc
  · rfl
  · exact hu c hc

/-- Some text is followed by the first closing fence. -/
theorem exists_closesFirst {t : Text} (h : closingFence <:+: t) :
    ∃ x y, t = x ++ (closingFence ++ y) ∧ ∀ more, ClosesFirst x (y ++ more) := by
  obtain ⟨x, ⟨y, rfl⟩, hmin⟩ := exists_shortest (S := fun x => ∃ y, t = x ++ (closingFence ++ y)) (by
    obtain ⟨s, e, rfl⟩ := h
    exact ⟨s, e, by simp⟩)
  refine ⟨x, y, rfl, fun more u v huv hv hpre => ?_⟩
  -- a fence that begins in `x` ends before the one that was found does
  have hshort : closingFence <+: v ++ closingFence := by
    refine List.prefix_of_prefix_length_le hpre ?_ (by simp)
    rw [← List.append_assoc]
    exact List.prefix_append _ _
  obtain ⟨w, hw⟩ := hshort
  have hlen := hmin u ⟨w ++ y, by
    rw [huv, List.append_assoc, ← List.append_assoc v, ← hw, List.append_assoc]⟩
  rw [huv, List.length_append] at hlen
  exact hv (List.length_eq_zero_iff.mp (by omega))

/-- **A forged block.**  A marker with a fence behind it stands before the block that was written:
what is captured does not depend on that block. -/
theorem capture_forged {before : Text} (hbefore : OccursThen IsMarker IsFence before) :
    ∃ x, ∀ body after, stateBlock.capture 1 (before ++ blockText body after) = some x := by
  obtain ⟨a, m, b, f, c, rfl, hm, hf, hfirstMarker, hfirstFence, hlong⟩ :=
    exists_first_block hbefore
  obtain ⟨x, y, hxy, hcloses⟩ := exists_closesFirst (t := c ++ blockHead)
    (List.IsInfix.trans (by decide : closingFence <:+: blockHead) List.infix_append_right)
  refine ⟨x, fun body after => ?_⟩
  obtain ⟨ws, hws, rfl⟩ := hf
  have hf : IsFence (lit "```json" ++ (ws ++ [10])) := ⟨ws, hws, rfl⟩
  have hblock : c ++ blockText body after =
      x ++ (closingFence ++ (y ++ (lit "json\n" ++ (body ++ (closingFence ++ after))))) := by
    rw [blockText, ← List.append_assoc c, hxy]
    simp only [List.append_assoc]
  obtain ⟨t, ht⟩ := blockText_cons body after
  have hline : SameLine (x ++ (closingFence ++
      (y ++ (lit "json\n" ++ (body ++ (closingFence ++ after)))))) := by
    rw [← hblock, ht]
    rintro u v huv hu ⟨v', rfl⟩
    have hfree : 60 ∉ u ++ [10] := by
      simp only [List.mem_append, not_or]
      exact ⟨fun hmem => absurd (hu 60 hmem) (by decide), by decide⟩
    obtain ⟨c', rfl⟩ := prefix_of_append_cons hfree
      (⟨v', by rw [huv, List.append_assoc]⟩ : u ++ [10] <+: c ++ 60 :: t)
    have hlen := hlong _ c' (hf.extend hu) (by simp)
    simp only [List.length_append, List.length_singleton] at hlen
    omega
  obtain ⟨pos, hpos⟩ := blockBody_run (b := b.reverse ++ (m.reverse ++ a.reverse)) hws hline
    (hcloses _)
  have hrun : stateBlock.run Regex.done ⟨a.reverse, m ++ (b ++ ((lit "```json" ++ (ws ++ [10])) ++
      (c ++ blockText body after)))⟩ [] = some (pos, [(1, x)]) := by
    rw [stateBlock_run_marker hm]
    refine blockTail_run (fun u v huv hv hfence => ?_) ?_
    · rw [ht, ← List.append_assoc _ c, ← List.append_assoc v] at hfence
      exact hfirstFence u v huv hv hfence.left
    · rw [hblock]
      simpa using hpos
  have hexec : stateBlock.exec ((a ++ (m ++ (b ++ ((lit "```json" ++ (ws ++ [10])) ++ c)))) ++
      blockText body after) = some (pos, [(1, x)]) := by
    have hassoc : (a ++ (m ++ (b ++ ((lit "```json" ++ (ws ++ [10])) ++ c)))) ++
        blockText body after = a ++ (m ++ (b ++ ((lit "```json" ++ (ws ++ [10])) ++
          (c ++ blockText body after)))) := by
      simp only [List.append_assoc]
    rw [hassoc, Regex.exec, Regex.search_eq_skip]
    · rw [List.append_nil]
      exact Regex.search_eq_here hrun
    · intro u v huv hv
      apply stateBlock_run_none
      intro m' hm' hpre
      obtain ⟨m₁, hm₁, -⟩ := hm.cons
      subst hm₁
      obtain ⟨w, hw⟩ := hm'.prefix_left hv hpre
      refine hfirstMarker u v m' (w ++ ((60 :: m₁) ++ (b ++ ((lit "```json" ++ (ws ++ [10])) ++ c))))
        huv hv hm' ?_ ?_
      · refine ⟨_, hf, ?_⟩
        exact ⟨w ++ ((60 :: m₁) ++ b), c, by simp only [List.append_assoc]⟩
      · rw [← hw, List.append_assoc]
  rw [Regex.capture, hexec]
  rfl

end Newsdeck.Loop
