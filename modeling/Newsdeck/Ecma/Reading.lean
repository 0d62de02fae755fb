import Newsdeck.Ecma.RegExp

/-!
# Expressions read as functions

Where a match never has to give back what it has taken, what a continuation captures is a function of
the text that is left.

* `Reads` — the continuation captures, in one group, what the function says;
* `reads_cls`, `reads_alt`, `reads_many`, `reads_word`, `reads_rest` — one rule for each form;
* `capture_of_reads` — what an anchored expression captures.
-/

namespace Ecma

namespace Regex

section Reads

variable {α : Type} {n : ℕ} {k : Cont α} {f g : List α → Option (List α)}

/-- From the text on, the continuation adds to the captures what the function gives, and fails where it
gives nothing. -/
def Reads (n : ℕ) (k : Cont α) (f : List α → Option (List α)) : Prop :=
  ∀ before text caps, (k ⟨before, text⟩ caps).map Prod.snd = (f text).map fun caught => (n, caught) :: caps

theorem Reads.none_iff (h : Reads n k f) {before text : List α} {caps : Captures α} :
    k ⟨before, text⟩ caps = none ↔ f text = none := by
  rw [← Option.map_eq_none_iff (f := Prod.snd), h, Option.map_eq_none_iff]

theorem Reads.congr (h : Reads n k f) (hfg : ∀ text, f text = g text) : Reads n k g := by
  intro before text caps
  rw [h, hfg]

theorem reads_cls {p : α → Bool} (h : Reads n k f) : Reads n ((Regex.cls p).run k) fun
    | [] => none
    | c :: text => if p c then f text else none := by
  intro before text caps
  cases text with
  | nil => rfl
  | cons c text =>
    rw [run_cls_cons]
    dsimp only
    split
    · exact h _ text caps
    · rfl

theorem reads_alt {r s : Regex α} (hr : Reads n (r.run k) f) (hs : Reads n (s.run k) g) :
    Reads n ((Regex.alt r s).run k) fun text => (f text).or (g text) := by
  intro before text caps
  rw [run_alt, Option.map_or, hr, hs, Option.map_or]

/-- An option that is taken where the text starts with a mark. -/
theorem reads_opt [DecidableEq α] {r : Regex α} {mark : α} (hr : Reads n (r.run k) g) (h : Reads n k f)
    (hmark : ∀ text, g text = none → f (mark :: text) = none) :
    Reads n ((Regex.alt (.seq (.cls fun c => c = mark) r) .empty).run k) fun
      | [] => f []
      | c :: text => if c = mark then g text else f (c :: text) := by
  have hseq : Reads n ((Regex.seq (.cls fun c => decide (c = mark)) r).run k) _ := reads_cls hr
  have hempty : Reads n (Regex.empty.run k) f := h
  refine (reads_alt hseq hempty).congr fun text => ?_
  cases text with
  | nil => rfl
  | cons c text =>
    by_cases hc : c = mark
    · subst hc
      simp only [decide_true, if_true]
      cases hg : g text with
      | none => exact hmark text hg
      | some caught => rfl
    · simp [hc]

/-- A greedy run takes all it can, when giving some back does not help. -/
theorem reads_many {p : α → Bool} (h : Reads n k f)
    (hback : ∀ c text, p c = true → f text = none → f (c :: text) = none) :
    Reads n ((many (.cls p)).run k) fun text => f (text.dropWhile p) := by
  intro before text caps
  rw [run_many]
  dsimp only
  cases hread : f (text.dropWhile p) with
  | none =>
    rw [Option.map_none, Option.map_eq_none_iff]
    apply greedy_none
    intro u v htext hu
    rw [h.none_iff]
    have hdrop : v.dropWhile p = text.dropWhile p := by
      rw [htext, List.dropWhile_append_of_pos hu]
    rw [← hdrop] at hread
    clear htext hdrop
    induction v with
    | nil => exact hread
    | cons c v ih =>
      rw [List.dropWhile_cons] at hread
      split at hread
      · rename_i hc
        exact hback c v hc (ih hread)
      · exact hread
  | some caught =>
    have hcut := List.takeWhile_append_dropWhile (p := p) (l := text)
    have hk := h ((text.takeWhile p).reverse ++ before) (text.dropWhile p) caps
    rw [hread] at hk
    obtain ⟨result, hresult, hsnd⟩ := Option.map_eq_some_iff.mp hk
    have hlast := greedy_last p (text.takeWhile p) before (fun c hc =>
      List.all_eq_true.mp List.all_takeWhile c hc) hresult
      fun u v huv hne hu => by
        obtain ⟨c, u, rfl⟩ := List.exists_cons_of_ne_nil hne
        have hstop := List.head?_dropWhile_not p text
        rw [huv] at hstop
        simp [hu c (by simp)] at hstop
    rw [hcut] at hlast
    rw [hlast, Option.map_some, hsnd]
    rfl

end Reads

/-- The end of the text, after a group that takes the rest. -/
theorem reads_rest {α : Type} (n : ℕ) (p : α → Bool) :
    Reads n ((Regex.group n (many (.cls p))).run (Regex.eol.run done)) fun text =>
      if text.all p then some text else none := by
  intro before text caps
  rw [run_group, run_many]
  dsimp only
  split
  · rename_i hall
    have hend : Regex.eol.run done ⟨text.reverse ++ before, []⟩
        ((n, text.take (text.length - 0)) :: caps) =
          some (⟨text.reverse ++ before, []⟩, (n, text) :: caps) := by
      rw [Nat.sub_zero, List.take_length]
      rfl
    have hlast := greedy_last p (k := fun pos' caps' => Regex.eol.run done pos'
        ((n, text.take (text.length - pos'.after.length)) :: caps')) (t := []) text before
      (by simpa using hall) hend (by simp)
    rw [List.append_nil] at hlast
    rw [hlast]
    rfl
  · rename_i hnot
    rw [greedy_none]
    · rfl
    · intro u v htext hu
      cases v with
      | nil => exact absurd (by simpa [htext] using hu) hnot
      | cons c v => rfl

theorem capture_of_reads {α : Type} {n : ℕ} {r : Regex α} {f : List α → Option (List α)}
    (h : Reads n (r.run done) f) (text : List α) : (Regex.seq .bol r).capture n text = f text := by
  unfold capture
  rw [exec_bol]
  have hread := h [] text []
  cases hrun : r.run done ⟨[], text⟩ [] with
  | none =>
    rw [hrun, Option.map_none] at hread
    exact (Option.map_eq_none_iff.mp hread.symm).symm
  | some result =>
    rw [hrun, Option.map_some] at hread
    obtain ⟨caught, hcaught, hcaps⟩ := Option.map_eq_some_iff.mp hread.symm
    rw [hcaught]
    show result.2.lookup n = some caught
    rw [← hcaps]
    simp

theorem test_of_reads {α : Type} {n : ℕ} {r : Regex α} {f : List α → Option (List α)}
    (h : Reads n (r.run done) f) (text : List α) : (Regex.seq .bol r).test text = (f text).isSome := by
  unfold test
  rw [exec_bol, ← Option.isSome_map (f := Prod.snd), h, Option.isSome_map]

/-! ### Words in either case -/

/-- What follows a word that the text starts with, in either case. -/
def afterWord : Text → Text → Option Text
  | [], text => some text
  | _ :: _, [] => none
  | c :: word, d :: text => if d = c || swapCase d = c then afterWord word text else none

theorem reads_word {n : ℕ} {k : Cont ℕ} {f : Text → Option Text} (h : Reads n k f) (word : Text) :
    Reads n ((units word).ignoreCase.run k) fun text => (afterWord word text).bind f := by
  induction word with
  | nil => exact h
  | cons c word ih =>
    intro before text caps
    have hread := reads_cls ih (p := fun d => decide (d = c) || decide (swapCase d = c)) before text caps
    refine hread.trans ?_
    cases text with
    | nil => rfl
    | cons d text =>
      dsimp only [afterWord]
      split <;> rfl

theorem isLetter_swapCase {c : ℕ} (h : isLetter c = true) : isLetter (swapCase c) = true := by
  unfold isLetter isUpper isLower at h ⊢
  unfold swapCase isUpper isLower
  simp only [Bool.or_eq_true, Bool.and_eq_true, decide_eq_true_eq] at h ⊢
  split
  · omega
  · split <;> omega

theorem swapCase_of_not_letter {c : ℕ} (h : isLetter c ≠ true) : swapCase c = c := by
  unfold isLetter at h
  unfold swapCase
  simp_all

theorem afterWord_of_not_letter {c d : ℕ} (hc : isLetter c = true) (hd : isLetter d ≠ true) (word text : Text) :
    afterWord (c :: word) (d :: text) = none := by
  have hne : d ≠ c := fun heq => hd (heq ▸ hc)
  simp [afterWord, swapCase_of_not_letter hd, hne]

/-- A class that does not tell ASCII letters apart is the same in either case. -/
theorem ignoreCase_cls {p : ℕ → Bool} (b : Bool) (h : ∀ c, isLetter c = true → p c = b) :
    (Regex.cls p).ignoreCase = .cls p := by
  have hsame (c : ℕ) : (p c || p (swapCase c)) = p c := by
    by_cases hletter : isLetter c = true
    · rw [h c hletter, h _ (isLetter_swapCase hletter), Bool.or_self]
    · rw [swapCase_of_not_letter hletter, Bool.or_self]
  exact congrArg Regex.cls (funext hsame)

end Regex

end Ecma
