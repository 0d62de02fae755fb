import Newsdeck.Library.Splitting
import Newsdeck.Loop.OnePass

/-!
# The blocks of a declaration

A block is a heading, the blank lines below it, and the items that follow without a gap.

* `blocks` — the blocks of a list of lines;
* `Left`, `left_step` — what a block still has to give where the pass stands, and what one line of
  it gives;
* `left_read`, `read_left` — every text of a block is read; and nothing else is, where no list goes
  by without a reference;
* `unled_reads` — such a list, and a line put below its block is read too;
* `parseDependencyDeclaration_blocks` — exactly then a declaration is what the blocks say.
-/

namespace Newsdeck.Loop

open Ecma

/-! ### Blocks -/

structure Block where
  heading : Text
  blanks : List Text
  items : List Text
  deriving DecidableEq, Repr

def isItem (line : Text) : Bool := (itemText line).isSome

/-- The block of a heading, by the lines that follow. -/
def blockAt (heading : Text) (rest : List Text) : Block :=
  ⟨heading, rest.takeWhile isBlank, (rest.dropWhile isBlank).takeWhile isItem⟩

def blocks : List Text → List Block
  | [] => []
  | line :: rest =>
      if (headingText line).isSome then blockAt line rest :: blocks rest else blocks rest

/-- What a block says: the text of its heading and those of its items. -/
def Block.texts (block : Block) : List Text :=
  (headingText block.heading).toList ++ block.items.filterMap itemText

def Block.references (block : Block) : List ℕ := block.texts.flatMap Loop.references

/-- The first block that has items names a reference, or comes after one that does. -/
def Led : List Block → Prop
  | [] => True
  | block :: rest => block.references ≠ [] ∨ block.items = [] ∧ Led rest

def decideLed : (blocks : List Block) → Decidable (Led blocks)
  | [] => .isTrue trivial
  | block :: rest =>
      have : Decidable (Led rest) := decideLed rest
      inferInstanceAs (Decidable (block.references ≠ [] ∨ block.items = [] ∧ Led rest))

instance (blocks : List Block) : Decidable (Led blocks) := decideLed blocks

section Lines

variable {line text : Text} {rest : List Text}

theorem blocks_heading (h : headingText line = some text) :
    blocks (line :: rest) = blockAt line rest :: blocks rest := by
  rw [blocks, h]
  rfl

theorem blocks_other (h : headingText line = none) : blocks (line :: rest) = blocks rest := by
  rw [blocks, h]
  rfl

/-- The items of the block that the pass is in that are still to come. -/
def pending : Stage → List Text → List Text
  | .outside, _ => []
  | .awaiting, rest => (rest.dropWhile isBlank).takeWhile isItem
  | .listing, rest => rest.takeWhile isItem

theorem pending_other (hblank : isBlank line ≠ true) (hitem : itemText line = none)
    (stage : Stage) :
    pending stage (line :: rest) = [] := by
  have hnot : isItem line ≠ true := by simp [isItem, hitem]
  cases stage with
  | outside => rfl
  | awaiting => rw [pending, List.dropWhile_cons_of_neg hblank, List.takeWhile_cons_of_neg hnot]
  | listing => rw [pending, List.takeWhile_cons_of_neg hnot]

theorem pending_heading (h : headingText line = some text) (stage : Stage) :
    pending stage (line :: rest) = [] := by
  refine pending_other (fun hblank => ?_) ?_ stage
  · simp [headingText_of_isBlank hblank] at h
  · cases hitem : itemText line with
    | none => rfl
    | some item => simp [headingText_of_itemText hitem] at h

theorem pending_item (h : itemText line = some text) {stage : Stage} (hstage : stage ≠ .outside) :
    pending stage (line :: rest) = line :: pending .listing rest := by
  have hblank : isBlank line ≠ true := fun hblank => by simp [itemText_of_isBlank hblank] at h
  have hitem : isItem line = true := by simp [isItem, h]
  cases stage with
  | outside => exact absurd rfl hstage
  | awaiting =>
    rw [pending, List.dropWhile_cons_of_neg hblank, List.takeWhile_cons_of_pos hitem, pending]
  | listing => rw [pending, List.takeWhile_cons_of_pos hitem, pending]

theorem pending_awaiting_blank (h : isBlank line = true) :
    pending .awaiting (line :: rest) = pending .awaiting rest := by
  rw [pending, List.dropWhile_cons_of_pos h, pending]

theorem pending_listing_blank (h : isBlank line = true) : pending .listing (line :: rest) = [] := by
  have hnot : isItem line ≠ true := by simp [isItem, itemText_of_isBlank h]
  rw [pending, List.takeWhile_cons_of_neg hnot]

/-- A line is a heading, blank, an item, or something else. -/
theorem line_kinds (line : Text) : (∃ text, headingText line = some text) ∨
    (headingText line = none ∧ isBlank line = true) ∨ (∃ text, itemText line = some text) ∨
    (headingText line = none ∧ isBlank line ≠ true ∧ itemText line = none) := by
  cases hheading : headingText line with
  | some text => exact .inl ⟨text, rfl⟩
  | none =>
    by_cases hblank : isBlank line = true
    · exact .inr (.inl ⟨rfl, hblank⟩)
    · cases hitem : itemText line with
      | some text => exact .inr (.inr (.inl ⟨text, rfl⟩))
      | none => exact .inr (.inr (.inr ⟨rfl, hblank, rfl⟩))

end Lines

/-! ### What is left to read -/

/-- The text is one of the block the pass is in, or of a block below. -/
def Left (stage : Stage) (rest : List Text) (text : Text) : Prop :=
  text ∈ (pending stage rest).filterMap itemText ∨ ∃ block ∈ blocks rest, text ∈ block.texts

theorem left_heading {line text : Text} (h : headingText line = some text) (stage : Stage)
    (rest : List Text)
    (t : Text) : Left stage (line :: rest) t ↔ t = text ∨ Left .awaiting rest t := by
  unfold Left
  rw [pending_heading h, blocks_heading h]
  simp [Block.texts, blockAt, h, pending, or_assoc, eq_comm]

theorem left_other {line : Text} {rest : List Text} (h : headingText line = none)
    (stage stage' : Stage)
    (hpending : pending stage (line :: rest) = pending stage' rest) (t : Text) :
    Left stage (line :: rest) t ↔ Left stage' rest t := by
  unfold Left
  rw [hpending, blocks_other h]

theorem left_item {line text : Text} (h : itemText line = some text) {stage : Stage}
    (hstage : stage ≠ .outside) (rest : List Text) (t : Text) : Left stage (line :: rest) t ↔
      t = text ∨ Left .listing rest t := by
  unfold Left
  rw [pending_item h hstage, blocks_other (headingText_of_itemText h), List.filterMap_cons_some h,
    List.mem_cons, or_assoc]

/-- **One line.**  What is read or left to read stays so; and nothing else comes to it, unless a
list has gone by without a reference. -/
theorem left_step (stage : Stage) (texts : List Text) (line : Text) (rest : List Text) (t : Text) :
    (t ∈ texts ∨ Left stage (line :: rest) t →
      t ∈ ((⟨stage, texts⟩ : Pass).step line).texts ∨
        Left ((⟨stage, texts⟩ : Pass).step line).stage rest t) ∧
    (¬ (stage = .listing ∧ isBlank line = true ∧ collected texts = []) →
      t ∈ ((⟨stage, texts⟩ : Pass).step line).texts ∨
        Left ((⟨stage, texts⟩ : Pass).step line).stage rest t →
      t ∈ texts ∨ Left stage (line :: rest) t) := by
  by_cases hstage : stage = .outside
  · subst hstage
    cases hheading : headingText line with
    | some text =>
      rw [step_heading _ hheading, left_heading hheading]
      simp [or_assoc]
    | none =>
      rw [step_outside hheading, left_other hheading .outside .outside rfl]
      exact ⟨id, fun _ => id⟩
  rcases line_kinds line with
    ⟨text, hheading⟩ | ⟨hheading, hblank⟩ | ⟨text, hitem⟩ | ⟨hheading, hblank, hitem⟩
  · rw [step_heading _ hheading, left_heading hheading]
    simp [or_assoc]
  · rw [step_blank hblank hstage]
    cases stage with
    | outside => exact absurd rfl hstage
    | awaiting =>
      rw [if_neg (by simp), left_other hheading .awaiting .awaiting (pending_awaiting_blank hblank)]
      exact ⟨id, fun _ => id⟩
    | listing =>
      have hleft (stage' : Stage) (h : Left .listing (line :: rest) t) : Left stage' rest t := by
        unfold Left at h ⊢
        rw [pending_listing_blank hblank, blocks_other hheading] at h
        exact .inr (h.resolve_left List.not_mem_nil)
      by_cases hnamed : collected texts = []
      · rw [if_neg fun h => h.2 hnamed]
        exact ⟨fun h => h.imp id (hleft _), fun hnot => absurd ⟨rfl, hblank, hnamed⟩ hnot⟩
      · rw [if_pos ⟨rfl, hnamed⟩, left_other hheading .listing .outside
          (pending_listing_blank hblank)]
        exact ⟨id, fun _ => id⟩
  · rw [step_item hitem hstage, left_item hitem hstage]
    simp [or_assoc]
  · rw [step_other hheading hblank hitem,
      left_other hheading stage .outside (pending_other hblank hitem stage)]
    exact ⟨id, fun _ => id⟩

/-- Every text of a block is read. -/
theorem left_read (rest : List Text) : ∀ (stage : Stage) (texts : List Text) (t : Text),
    t ∈ texts ∨ Left stage rest t → t ∈ (rest.foldl Pass.step ⟨stage, texts⟩).texts := by
  induction rest with
  | nil =>
    rintro stage texts t (hread | hpending | ⟨block, hblock, -⟩)
    · exact hread
    · cases stage <;> cases hpending
    · cases hblock
  | cons line rest ih =>
    intro stage texts t h
    rw [List.foldl_cons]
    exact ih _ _ t ((left_step stage texts line rest t).1 h)

/-! ### What else is read -/

theorem collected_eq_nil {texts : List Text} : collected texts = [] ↔
    texts.flatMap references = [] := by
  simp only [List.eq_nil_iff_forall_not_mem, mem_collected, List.mem_flatMap]

theorem collected_append_ne_nil {texts : List Text} (h : collected texts ≠ []) (more : List Text) :
    collected (texts ++ more) ≠ [] := by
  rw [Ne, collected_eq_nil] at h ⊢
  rw [List.flatMap_append, List.append_eq_nil_iff]
  exact fun hnil => h hnil.1

/-- No list will go by without a reference: something is named by the end of the block the pass is
in, or that block has no list, and those below are led. -/
def Safe (stage : Stage) (texts : List Text) (rest : List Text) : Prop :=
  collected (texts ++ (pending stage rest).filterMap itemText) ≠ [] ∨
    stage ≠ .listing ∧ pending stage rest = [] ∧ Led (blocks rest)

theorem Safe.of_nil {stage : Stage} {texts rest : List Text} (h : Safe stage texts rest)
    (hpending : pending stage rest = []) :
    collected texts ≠ [] ∨ stage ≠ .listing ∧ Led (blocks rest) := by
  unfold Safe at h
  rw [hpending, List.filterMap_nil, List.append_nil] at h
  exact h.imp id fun h => ⟨h.1, h.2.2⟩

theorem safe_step {stage : Stage} {texts : List Text} {line : Text} {rest : List Text}
    (h : Safe stage texts (line :: rest)) :
      ¬ (stage = .listing ∧ isBlank line = true ∧ collected texts = []) ∧
      Safe ((⟨stage, texts⟩ : Pass).step line).stage
        ((⟨stage, texts⟩ : Pass).step line).texts rest := by
  have houtside (hnamed : collected texts ≠ []) : Safe .outside texts rest :=
    .inl (collected_append_ne_nil hnamed _)
  rcases line_kinds line with
    ⟨text, hheading⟩ | ⟨hheading, hblank⟩ | ⟨text, hitem⟩ | ⟨hheading, hblank, hitem⟩
  · have hnot : isBlank line ≠ true :=
      fun hblank => by simp [headingText_of_isBlank hblank] at hheading
    refine ⟨fun hspecial => hnot hspecial.2.1, ?_⟩
    rw [step_heading _ hheading]
    rcases h.of_nil (pending_heading hheading stage) with hnamed | ⟨-, hled⟩
    · exact .inl (collected_append_ne_nil (collected_append_ne_nil hnamed _) _)
    · rw [blocks_heading hheading] at hled
      rcases hled with hnames | ⟨hitems, hled⟩
      · refine .inl ?_
        rw [Ne, collected_eq_nil, List.append_assoc, List.flatMap_append, List.append_eq_nil_iff]
        refine fun hnil => hnames ?_
        rw [Block.references, Block.texts, blockAt, hheading]
        exact hnil.2
      · exact .inr ⟨by simp, hitems, hled⟩
  · cases stage with
    | outside =>
      rw [step_outside hheading]
      rcases h.of_nil rfl with hnamed | ⟨-, hled⟩
      · exact ⟨by simp, houtside hnamed⟩
      · exact ⟨by simp, .inr ⟨by simp, rfl, blocks_other hheading ▸ hled⟩⟩
    | awaiting =>
      rw [step_blank hblank (by simp), if_neg (by simp)]
      unfold Safe at h ⊢
      rw [pending_awaiting_blank hblank, blocks_other hheading] at h
      exact ⟨by simp, h⟩
    | listing =>
      rcases h.of_nil (pending_listing_blank hblank) with hnamed | ⟨hlisting, -⟩
      · rw [step_blank hblank (by simp), if_pos ⟨rfl, hnamed⟩]
        exact ⟨fun hspecial => hnamed hspecial.2.2, houtside hnamed⟩
      · exact absurd rfl hlisting
  · have hheading := headingText_of_itemText hitem
    have hnot : isBlank line ≠ true := fun hblank => by simp [itemText_of_isBlank hblank] at hitem
    refine ⟨fun hspecial => hnot hspecial.2.1, ?_⟩
    by_cases hstage : stage = .outside
    · subst hstage
      rw [step_outside hheading]
      rcases h.of_nil rfl with hnamed | ⟨-, hled⟩
      · exact houtside hnamed
      · exact .inr ⟨by simp, rfl, blocks_other hheading ▸ hled⟩
    · rw [step_item hitem hstage]
      unfold Safe at h
      rw [pending_item hitem hstage, List.filterMap_cons_some hitem] at h
      rcases h with hnamed | ⟨-, hnil, -⟩
      · refine .inl ?_
        rw [List.append_assoc]
        exact hnamed
      · cases hnil
  · refine ⟨fun hspecial => hblank hspecial.2.1, ?_⟩
    rw [step_other hheading hblank hitem]
    rcases h.of_nil (pending_other hblank hitem stage) with hnamed | ⟨-, hled⟩
    · exact houtside hnamed
    · exact .inr ⟨by simp, rfl, blocks_other hheading ▸ hled⟩

/-- **A run without such a list** reads nothing else. -/
theorem read_left (rest : List Text) : ∀ (stage : Stage) (texts : List Text) (t : Text),
    Safe stage texts rest → t ∈ (rest.foldl Pass.step ⟨stage, texts⟩).texts →
      t ∈ texts ∨ Left stage rest t := by
  induction rest with
  | nil => exact fun stage texts t _ h => .inl h
  | cons line rest ih =>
    intro stage texts t hsafe h
    rw [List.foldl_cons] at h
    obtain ⟨hnot, hnext⟩ := safe_step hsafe
    exact (left_step stage texts line rest t).2 hnot (ih _ _ t hnext h)

/-! ### A list that goes by -/

theorem unsafe_step {stage : Stage} {texts : List Text} {line : Text} {rest : List Text}
    (h : ¬ Safe stage texts (line :: rest)) (hlisting : stage = .listing → itemText line ≠ none) :
    ¬ Safe ((⟨stage, texts⟩ : Pass).step line).stage
      ((⟨stage, texts⟩ : Pass).step line).texts rest := by
  have hnothing : collected texts = [] := by
    by_contra hnamed
    exact h (.inl (collected_append_ne_nil hnamed _))
  have hstart (hitem : itemText line = none) : stage ≠ .listing :=
    fun hstage => hlisting hstage hitem
  refine fun hnext => h ?_
  rcases line_kinds line with
    ⟨text, hheading⟩ | ⟨hheading, hblank⟩ | ⟨text, hitem⟩ | ⟨hheading, hblank, hitem⟩
  · have hitem : itemText line = none := by
      cases hitem : itemText line with
      | none => rfl
      | some item => simp [headingText_of_itemText hitem] at hheading
    rw [step_heading _ hheading] at hnext
    refine .inr ⟨hstart hitem, pending_heading hheading stage, ?_⟩
    rw [blocks_heading hheading]
    rcases hnext with hnamed | ⟨-, hitems, hled⟩
    · refine .inl ?_
      rw [Ne, collected_eq_nil, List.append_assoc, List.flatMap_append,
        collected_eq_nil.mp hnothing] at hnamed
      rw [Block.references, Block.texts, blockAt, hheading]
      exact hnamed
    · exact .inr ⟨hitems, hled⟩
  · have hstage := hstart (itemText_of_isBlank hblank)
    cases stage with
    | outside =>
      rw [step_outside hheading] at hnext
      unfold Safe at hnext ⊢
      rwa [blocks_other hheading]
    | awaiting =>
      rw [step_blank hblank (by simp), if_neg (by simp)] at hnext
      unfold Safe at hnext ⊢
      rwa [blocks_other hheading, pending_awaiting_blank hblank]
    | listing => exact absurd rfl hstage
  · have hheading := headingText_of_itemText hitem
    by_cases hstage : stage = .outside
    · subst hstage
      rw [step_outside hheading] at hnext
      unfold Safe at hnext ⊢
      rwa [blocks_other hheading]
    · rw [step_item hitem hstage] at hnext
      rcases hnext with hnamed | ⟨hne, -⟩
      · refine .inl ?_
        rwa [pending_item hitem hstage, List.filterMap_cons_some hitem, ← List.singleton_append,
          ← List.append_assoc]
      · exact absurd rfl hne
  · rw [step_other hheading hblank hitem] at hnext
    refine .inr ⟨hstart hitem, pending_other hblank hitem stage, ?_⟩
    rcases hnext.of_nil rfl with hnamed | ⟨-, hled⟩
    · exact absurd hnothing hnamed
    · rwa [blocks_other hheading]

section Mending

variable {added : Text} {stage : Stage} {texts rest rest' : List Text} {line : Text}

/-- The lines have the same blocks, and are the same with blank lines and one more. -/
structure Mended (added : Text) (stage : Stage) (rest rest' : List Text) : Prop where
  blocks : blocks rest' = blocks rest
  pending : pending stage rest' = pending stage rest
  blanks : stage = .awaiting → rest'.takeWhile isBlank = rest.takeWhile isBlank
  lines : ∀ line ∈ rest', line ∈ rest ∨ line = [] ∨ line = added

theorem Mended.cons (h : Mended added ((⟨stage, texts⟩ : Pass).step line).stage rest rest')
    (hlisting : stage = .listing → itemText line ≠ none) :
      Mended added stage (line :: rest) (line :: rest') := by
  have hlines : ∀ x ∈ line :: rest', x ∈ line :: rest ∨ x = [] ∨ x = added := by
    intro x hx
    rcases List.mem_cons.mp hx with rfl | hx
    · exact .inl (List.mem_cons_self ..)
    · exact (h.lines x hx).imp (List.mem_cons_of_mem _) id
  have hblanks (hnot : isBlank line ≠ true) (_ : stage = .awaiting) :
      (line :: rest').takeWhile isBlank = (line :: rest).takeWhile isBlank := by
    rw [List.takeWhile_cons_of_neg hnot, List.takeWhile_cons_of_neg hnot]
  rcases line_kinds line with
    ⟨text, hheading⟩ | ⟨hheading, hblank⟩ | ⟨text, hitem⟩ | ⟨hheading, hblank, hitem⟩
  · rw [step_heading _ hheading] at h
    refine ⟨?_, ?_, hblanks fun hblank => ?_, hlines⟩
    · rw [blocks_heading hheading, blocks_heading hheading, h.blocks, blockAt, h.blanks rfl,
        show (rest'.dropWhile isBlank).takeWhile isItem = _ from h.pending]
      rfl
    · rw [pending_heading hheading, pending_heading hheading]
    · simp [headingText_of_isBlank hblank] at hheading
  · cases stage with
    | outside =>
      rw [step_outside hheading] at h
      refine ⟨?_, rfl, by simp, hlines⟩
      rw [blocks_other hheading, blocks_other hheading, h.blocks]
    | awaiting =>
      rw [step_blank hblank (by simp), if_neg (by simp)] at h
      refine ⟨?_, ?_, fun _ => ?_, hlines⟩
      · rw [blocks_other hheading, blocks_other hheading, h.blocks]
      · rw [pending_awaiting_blank hblank, pending_awaiting_blank hblank, h.pending]
      · rw [List.takeWhile_cons_of_pos hblank, List.takeWhile_cons_of_pos hblank, h.blanks rfl]
    | listing => exact absurd (itemText_of_isBlank hblank) (hlisting rfl)
  · have hheading := headingText_of_itemText hitem
    have hnot : isBlank line ≠ true := fun hblank => by simp [itemText_of_isBlank hblank] at hitem
    by_cases hstage : stage = .outside
    · subst hstage
      rw [step_outside hheading] at h
      refine ⟨?_, rfl, by simp, hlines⟩
      rw [blocks_other hheading, blocks_other hheading, h.blocks]
    · rw [step_item hitem hstage] at h
      refine ⟨?_, ?_, hblanks hnot, hlines⟩
      · rw [blocks_other hheading, blocks_other hheading, h.blocks]
      · rw [pending_item hitem hstage, pending_item hitem hstage, h.pending]
  · rw [step_other hheading hblank hitem] at h
    refine ⟨?_, ?_, hblanks hblank, hlines⟩
    · rw [blocks_other hheading, blocks_other hheading, h.blocks]
    · rw [pending_other hblank hitem, pending_other hblank hitem]

/-- Below a list without a reference, an item is read although a blank line stands before it. -/
theorem mend_here {item : Text} (hadded : itemText added = some item)
    (hnothing : collected texts = [])
    (hend : pending .listing rest = []) : Mended added .listing rest ([] :: added :: rest) ∧
      item ∈ (([] :: added :: rest).foldl Pass.step ⟨.listing, texts⟩).texts := by
  have hblank : isBlank [] = true := rfl
  have hempty : headingText [] = none := headingText_of_isBlank hblank
  constructor
  · refine ⟨?_, ?_, by simp, fun line hline => ?_⟩
    · rw [blocks_other hempty, blocks_other (headingText_of_itemText hadded)]
    · rw [pending_listing_blank hblank, hend]
    · rcases List.mem_cons.mp hline with rfl | hline
      · exact .inr (.inl rfl)
      · rcases List.mem_cons.mp hline with rfl | hline
        · exact .inr (.inr rfl)
        · exact .inl hline
  · rw [List.foldl_cons, step_blank hblank (by simp), if_neg fun h => h.2 hnothing, List.foldl_cons,
      step_item hadded (by simp)]
    exact left_read rest _ _ item (.inl (by simp))

/-- **A list that goes by** without a reference: an item put below its block, a blank line apart, is
read. -/
theorem unled_reads {item : Text} (hadded : itemText added = some item) (rest : List Text) :
    ∀ (stage : Stage) (texts : List Text), ¬ Safe stage texts rest →
      ∃ rest', Mended added stage rest rest' ∧
        item ∈ (rest'.foldl Pass.step ⟨stage, texts⟩).texts := by
  have hnothing {stage : Stage} {texts rest : List Text} (h : ¬ Safe stage texts rest) :
      collected texts = [] := by
    by_contra hnamed
    exact h (.inl (collected_append_ne_nil hnamed _))
  induction rest with
  | nil =>
    intro stage texts h
    cases stage with
    | outside => exact absurd (.inr ⟨by simp, rfl, trivial⟩) h
    | awaiting => exact absurd (.inr ⟨by simp, rfl, trivial⟩) h
    | listing => exact ⟨_, mend_here hadded (hnothing h) rfl⟩
  | cons line rest ih =>
    intro stage texts h
    by_cases hend : stage = .listing ∧ itemText line = none
    · obtain ⟨rfl, hitem⟩ := hend
      refine ⟨_, mend_here hadded (hnothing h) ?_⟩
      rw [pending, List.takeWhile_cons_of_neg (by simp [isItem, hitem])]
    · have hlisting : stage = .listing → itemText line ≠ none :=
        fun hstage hitem => hend ⟨hstage, hitem⟩
      obtain ⟨rest', hmended, hread⟩ := ih _ _ (unsafe_step h hlisting)
      exact ⟨line :: rest', hmended.cons hlisting, hread⟩

end Mending

/-! ### Declarations by blocks -/

def blocksOf (body : Text) : List Block := blocks (body.splitOn 10)

/-- Some block names the number. -/
def NamedIn (blocks : List Block) (n : ℕ) : Prop := ∃ block ∈ blocks, n ∈ block.references

/-- The blocks name every number that an item could name. -/
def Full (blocks : List Block) : Prop :=
  ∀ line text, 10 ∉ line → itemText line = some text → ∀ n ∈ references text, NamedIn blocks n

theorem left_start {lines : List Text} {t : Text} : Left .outside lines t ↔
    ∃ block ∈ blocks lines, t ∈ block.texts := by
  unfold Left pending
  simp

theorem heading_left {lines : List Text} {line t : Text} (hline : line ∈ lines)
    (h : headingText line = some t) :
    ∃ block ∈ blocks lines, t ∈ block.texts := by
  induction lines with
  | nil => cases hline
  | cons first rest ih =>
    rcases List.mem_cons.mp hline with rfl | hline
    · rw [blocks_heading h]
      exact ⟨blockAt line rest, List.mem_cons_self .., by simp [Block.texts, blockAt, h]⟩
    · obtain ⟨block, hblock, ht⟩ := ih hline
      cases hfirst : headingText first with
      | none => exact ⟨block, by rwa [blocks_other hfirst], ht⟩
      | some text => exact ⟨block, by simp [blocks_heading hfirst, hblock], ht⟩

/-- What the pass reads is the text of a heading or of an item. -/
theorem mem_texts_pass {lines : List Text} {t : Text} (h : t ∈ (pass lines).texts) :
    ∃ line ∈ lines, headingText line = some t ∨ itemText line = some t := by
  induction lines using List.reverseRecOn with
  | nil => cases h
  | append_singleton lines line ih =>
    rw [pass_snoc, texts_step, List.mem_append] at h
    rcases h with h | h
    · obtain ⟨other, hother, ht⟩ := ih h
      exact ⟨other, by simp [hother], ht⟩
    · refine ⟨line, by simp, ?_⟩
      unfold readLine at h
      split at h
      · rename_i text hheading
        exact .inl (by rw [hheading, List.mem_singleton.mp h])
      · split at h
        · exact .inr (Option.mem_toList.mp h)
        · cases h

theorem headingTexts_blocks (lines : List Text) :
    headingTexts lines = (blocks lines).filterMap fun block => headingText block.heading := by
  induction lines with
  | nil => rfl
  | cons line lines ih =>
    unfold headingTexts at ih ⊢
    cases hheading : headingText line with
    | none => rw [List.filterMap_cons_none hheading, blocks_other hheading, ih]
    | some text =>
      have hblock : headingText (blockAt line lines).heading = some text := hheading
      rw [List.filterMap_cons_some hheading, blocks_heading hheading,
        List.filterMap_cons_some (f := fun block : Block => headingText block.heading) hblock, ih]

theorem mem_references_iff {block : Block} {n : ℕ} :
    n ∈ block.references ↔ ∃ text ∈ block.texts, n ∈ references text :=
  List.mem_flatMap

/-- What a block names is named. -/
theorem named_of_namedIn {body : Text} {n : ℕ} (h : NamedIn (blocksOf body) n) :
    n ∈ named body := by
  obtain ⟨block, hblock, hn⟩ := h
  obtain ⟨text, htext, hn⟩ := mem_references_iff.mp hn
  exact mem_collected.mpr
    ⟨text, left_read _ .outside [] text (.inr (left_start.mpr ⟨block, hblock, htext⟩)), hn⟩

/-- And nothing else is, where no list goes by. -/
theorem namedIn_of_named {body : Text} (h : Led (blocksOf body) ∨ Full (blocksOf body)) {n : ℕ}
    (hn : n ∈ named body) : NamedIn (blocksOf body) n := by
  obtain ⟨text, htext, hn⟩ := mem_collected.mp hn
  have hread (hblocks : ∃ block ∈ blocksOf body, text ∈ block.texts) :
      NamedIn (blocksOf body) n := by
    obtain ⟨block, hblock, hmem⟩ := hblocks
    exact ⟨block, hblock, mem_references_iff.mpr ⟨text, hmem, hn⟩⟩
  rcases h with hled | hfull
  · rcases read_left _ .outside [] text (.inr ⟨by simp, rfl, hled⟩) htext with h | h
    · cases h
    · exact hread (left_start.mp h)
  · obtain ⟨line, hline, hheading | hitem⟩ := mem_texts_pass htext
    · exact hread (heading_left hline hheading)
    · exact hfull line text (Splitting.not_mem_of_mem_splitOn hline) hitem n hn

/-- The declaration is what the blocks say: its dependencies are the numbers they name, and nothing
outside them matters. -/
structure ByBlocks (body : Text) : Prop where
  sorted : (parseDependencyDeclaration (some body)).dependencies.Pairwise (· < ·)
  named : ∀ n, n ∈ (parseDependencyDeclaration (some body)).dependencies ↔ NamedIn (blocksOf body) n
  elsewhere : ∀ body', blocksOf body' = blocksOf body →
    parseDependencyDeclaration (some body') = parseDependencyDeclaration (some body)

/-- **Blocks.**  A declaration is what its blocks say exactly when the first block that has items
names a reference, or comes after one that does (or the blocks name all there is to name). -/
theorem parseDependencyDeclaration_blocks (body : Text) :
    ByBlocks body ↔ Led (blocksOf body) ∨ Full (blocksOf body) := by
  constructor
  · intro h
    by_contra hnot
    obtain ⟨hled, hfull⟩ := not_or.mp hnot
    unfold Full at hfull
    push Not at hfull
    obtain ⟨added, text, hadded, hitem, n, hn, hunnamed⟩ := hfull
    have hunsafe : ¬ Safe .outside [] (body.splitOn 10) := by
      rintro (hnamed | ⟨-, -, hsafe⟩)
      · exact hnamed rfl
      · exact hled hsafe
    obtain ⟨lines, hmended, hread⟩ := unled_reads hitem _ .outside [] hunsafe
    have hne : lines ≠ [] := by
      rintro rfl
      cases hread
    have hlines : ([10].intercalate lines).splitOn 10 = lines := by
      refine List.splitOn_intercalate 10 (fun line hline => ?_) hne
      rcases hmended.lines line hline with hold | rfl | rfl
      · exact Splitting.not_mem_of_mem_splitOn hold
      · simp
      · exact hadded
    have hsame : blocksOf ([10].intercalate lines) = blocksOf body := by
      unfold blocksOf
      rw [hlines, hmended.blocks]
    have hnamed : n ∈ Loop.named ([10].intercalate lines) := by
      unfold Loop.named
      rw [hlines]
      exact mem_collected.mpr ⟨text, hread, hn⟩
    rw [← mem_dependencies, h.elsewhere _ hsame, h.named] at hnamed
    exact hunnamed hnamed
  · intro h
    have hiff {other : Text} (hsame : blocksOf other = blocksOf body) (n : ℕ) :
        n ∈ Loop.named other ↔ NamedIn (blocksOf body) n := by
      rw [← hsame]
      exact ⟨namedIn_of_named (hsame ▸ h), named_of_namedIn⟩
    refine ⟨sorted_dependencies body, fun n => ?_, fun other hsame => ?_⟩
    · rw [mem_dependencies, hiff rfl]
    · rw [declaration_eq_iff]
      refine ⟨fun n => ?_, fun _ => ?_⟩
      · rw [hiff hsame, hiff rfl]
      · have hheadings : headingTexts (other.splitOn 10) = headingTexts (body.splitOn 10) := by
          rw [headingTexts_blocks, headingTexts_blocks]
          exact congrArg _ hsame
        unfold saysNone
        rw [hheadings]

/-- A list below a blank line, after one that names nothing. -/
theorem list_gone_by :
    parseDependencyDeclaration (some (lit "Depends on:\n- the reader\n\n- #5")) = ⟨true, [5]⟩ ∧
      blocksOf (lit "Depends on:\n- the reader\n\n- #5") =
        [⟨lit "Depends on:", [], [lit "- the reader"]⟩] ∧
      blocksOf (lit "Depends on:\n- the reader\n\n- #6") =
        [⟨lit "Depends on:", [], [lit "- the reader"]⟩] ∧
      parseDependencyDeclaration (some (lit "Depends on:\n- the reader\n\n- #6")) =
        ⟨true, [6]⟩ := by
  decide +kernel

end Newsdeck.Loop
