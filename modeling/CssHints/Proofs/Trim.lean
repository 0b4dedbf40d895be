import CssHints.Text.Blank

/-!
# `CssHints.Proofs.Trim`: what trimming takes off a text

`trim` takes blanks off the two ends and nothing else (`exists_blanks_trim`). What is left starts
and ends with no blank, and it is all there is if the text itself starts and ends so
(`trim_eq_self`).
-/

set_option autoImplicit false

namespace CssHints.Text

/-- A blank at the end is taken off. -/
theorem trimRight_append_blank {c : Char} (hc : isTrimmed c = true) (s : Text) :
    trimRight (s ++ [c]) = trimRight s := by
  simp [trimRight, hc]

/-- Nothing is taken off a text that ends with no blank. -/
theorem trimRight_append_ink {c : Char} (hc : isTrimmed c = false) (s : Text) :
    trimRight (s ++ [c]) = s ++ [c] := by
  simp [trimRight, hc]

/-- The end that is taken off is blank, and the rest is left as it is. -/
theorem exists_blanks_trimRight (s : Text) :
    ∃ b, s = trimRight s ++ b ∧ ∀ c ∈ b, isTrimmed c = true := by
  refine ⟨(s.reverse.takeWhile isTrimmed).reverse, ?_, ?_⟩
  · rw [trimRight, ← List.reverse_append, List.takeWhile_append_dropWhile, List.reverse_reverse]
  · intro c hc
    exact List.all_eq_true.1 List.all_takeWhile c (List.mem_reverse.1 hc)

/-- The two ends that are taken off are blank, and what stands between them is left as it is. -/
theorem exists_blanks_trim (s : Text) :
    ∃ a b, s = a ++ (trim s ++ b) ∧ (∀ c ∈ a, isTrimmed c = true) ∧
      ∀ c ∈ b, isTrimmed c = true := by
  obtain ⟨b, hb, hblank⟩ := exists_blanks_trimRight (s.dropWhile isTrimmed)
  refine ⟨s.takeWhile isTrimmed, b, ?_, ?_, hblank⟩
  · rw [trim, ← hb, List.takeWhile_append_dropWhile]
  · intro c hc
    exact List.all_eq_true.1 List.all_takeWhile c hc

/-- A blank in front makes no difference. -/
theorem trim_cons_blank {c : Char} (hc : isTrimmed c = true) (s : Text) :
    trim (c :: s) = trim s := by
  rw [trim, List.dropWhile_cons_of_pos hc, trim]

/-- A blank at the end makes no difference. If the text in front of it is all blank, nothing is left
either way. -/
theorem trim_append_blank {c : Char} (hc : isTrimmed c = true) (s : Text) :
    trim (s ++ [c]) = trim s := by
  rw [trim, List.dropWhile_append]
  split
  · rename_i h
    have hs : s.dropWhile isTrimmed = [] := by simpa using h
    rw [List.dropWhile_cons_of_pos hc, trim, hs]
    rfl
  · rw [trimRight_append_blank hc, trim]

/-- Blanks in front make no difference. -/
theorem trim_blanks_append {b : Text} (hb : ∀ c ∈ b, isTrimmed c = true) (s : Text) :
    trim (b ++ s) = trim s := by
  induction b with
  | nil => rfl
  | cons c b ih =>
      rw [List.cons_append, trim_cons_blank (hb c List.mem_cons_self)]
      exact ih fun d hd => hb d (List.mem_cons_of_mem _ hd)

/-- Blanks at the end make no difference. -/
theorem trim_append_blanks {b : Text} (hb : ∀ c ∈ b, isTrimmed c = true) (s : Text) :
    trim (s ++ b) = trim s := by
  induction b generalizing s with
  | nil => rw [List.append_nil]
  | cons c b ih =>
      have hcons : s ++ c :: b = s ++ [c] ++ b := by simp
      rw [hcons, ih (fun d hd => hb d (List.mem_cons_of_mem _ hd)),
        trim_append_blank (hb c List.mem_cons_self)]

/-- A text that starts and ends with no blank is left as it is. -/
theorem trim_eq_self {s : Text} (hhead : ∀ c ∈ s.head?, isTrimmed c = false)
    (hlast : ∀ c ∈ s.getLast?, isTrimmed c = false) : trim s = s := by
  have hdrop : s.dropWhile isTrimmed = s := by
    cases s with
    | nil => rfl
    | cons c s => simp [hhead c rfl]
  rw [trim, hdrop]
  rcases List.eq_nil_or_concat s with rfl | ⟨t, c, rfl⟩
  · rfl
  · rw [List.concat_eq_append] at hlast ⊢
    exact trimRight_append_ink (hlast c (by simp)) t

/-- What is left starts with no blank. -/
theorem head?_trim (s : Text) : ∀ c ∈ (trim s).head?, isTrimmed c = false := by
  intro c hc
  obtain ⟨b, hb, -⟩ := exists_blanks_trimRight (s.dropWhile isTrimmed)
  have hdrop := List.head?_dropWhile_not isTrimmed s
  -- what is left is a front part of the text without the blanks at its start
  cases ht : trim s with
  | nil => simp [ht] at hc
  | cons d t =>
      rw [trim] at ht
      rw [ht] at hb
      rw [trim, ht] at hc
      rw [hb] at hdrop
      obtain rfl : d = c := by simpa using hc
      simpa using hdrop

/-- What is left ends with no blank. -/
theorem getLast?_trim (s : Text) : ∀ c ∈ (trim s).getLast?, isTrimmed c = false := by
  intro c hc
  rw [trim, trimRight, List.getLast?_reverse] at hc
  -- the blanks at the end are dropped from the text read backwards
  have hdrop := List.head?_dropWhile_not isTrimmed (s.dropWhile isTrimmed).reverse
  rw [hc] at hdrop
  simpa using hdrop

/-- Trimming once is enough. -/
@[simp] theorem trim_trim (s : Text) : trim (trim s) = trim s :=
  trim_eq_self (head?_trim s) (getLast?_trim s)

end CssHints.Text
