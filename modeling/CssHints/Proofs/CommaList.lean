import CssHints.Proofs.Storage
import Mathlib.Data.List.Basic

/-!
# `CssHints.Proofs.CommaList`: what a list written with commas stands for

A text falls into its `Pieces` between the commas, in one way only (`pieces_iff`). A piece that is
not empty once trimmed is an entry. `splitList` gives each entry once, at the place where it first
occurs, and it is the only list that does so (`enumerates_iff`).

Two texts with a comma between them stand for the entries of the first and, behind these, for those
of the second that are new (`splitList_append`). With the way back from a list to its text
(`splitList_join_blanks`) this makes the list a normal form of the text: `splitList_normalForm`.
-/

set_option autoImplicit false

namespace CssHints.Config

/-- The pieces of a text between its commas: no piece holds a comma, and with a comma between each
two of them they make up the text. -/
structure Pieces (s : Text) (ps : List Text) : Prop where
  ne_nil : ps ≠ []
  no_comma : ∀ p ∈ ps, ',' ∉ p
  join_eq : Text.join "," ps = s

/-- The place of the first piece that is `e` once trimmed. -/
def firstPlace (ps : List Text) (e : Text) : Nat := (ps.map Text.trim).idxOf e

/-- The list holds the entries of the pieces and nothing else, in the order in which they first
occur. -/
structure Enumerates (ps es : List Text) : Prop where
  mem_iff : ∀ e, e ∈ es ↔ e ≠ [] ∧ ∃ p ∈ ps, Text.trim p = e
  ordered : es.Pairwise fun e f => firstPlace ps e < firstPlace ps f

/-! ### Pieces -/

/-- A text falls into pieces in one way only, and those are the ones that splitting at commas
gives. -/
theorem pieces_iff {s : Text} {ps : List Text} : Pieces s ps ↔ ps = Text.splitOn ',' s := by
  rw [Text.splitOn_eq_splitOn]
  constructor
  · rintro ⟨hne, hcomma, rfl⟩
    exact (List.splitOn_intercalate ',' hcomma hne).symm
  · rintro rfl
    refine ⟨List.splitOn_ne_nil ',' s, fun p hp => ?_, List.intercalate_splitOn ','⟩
    rw [← Text.splitOn_eq_splitOn] at hp
    exact Text.sep_not_mem_of_mem_splitOn hp

/-! ### First occurrences -/

/-- A new text in front moves the first places of all others by one, so their order stays. -/
theorem pairwise_idxOf_cons {t : Text} {ts us : List Text} (hne : t ∉ us)
    (h : us.Pairwise fun u v => ts.idxOf u < ts.idxOf v) :
    us.Pairwise fun u v => (t :: ts).idxOf u < (t :: ts).idxOf v := by
  -- each of the others is found in the tail, where it was found before
  have hshift : ∀ u ∈ us, (t :: ts).idxOf u = ts.idxOf u + 1 := fun u hu =>
    List.idxOf_cons_ne ts fun he => hne (he ▸ hu)
  refine h.imp_of_mem fun hu hv hlt => ?_
  rw [hshift _ hu, hshift _ hv]
  exact Nat.succ_lt_succ hlt

/-- Keeping each text once keeps the order of the first occurrences. The induction is on the texts:
a text that is kept stands at place zero, and its later copies are filtered out. -/
theorem pairwise_idxOf_distinct (ts : List Text) :
    (distinct ts).Pairwise fun t u => ts.idxOf t < ts.idxOf u := by
  induction ts with
  | nil => exact .nil
  | cons t ts ih =>
      rw [distinct]
      split
      · rename_i ht
        exact pairwise_idxOf_cons (fun hm => (mem_distinct.1 hm).2 ht) ih
      · refine List.pairwise_cons.2 ⟨fun u hu => ?_, ?_⟩
        · have hut : u ≠ t := of_decide_eq_true (List.mem_filter.1 hu).2
          rw [List.idxOf_cons_self, List.idxOf_cons_ne ts hut.symm]
          exact Nat.succ_pos _
        · exact pairwise_idxOf_cons (by simp) (ih.filter _)

/-- An enumeration repeats nothing, since no place comes before itself. -/
theorem Enumerates.nodup {ps es : List Text} (h : Enumerates ps es) : es.Nodup := by
  refine h.ordered.imp fun {e f} hlt => ?_
  rintro rfl
  exact Nat.lt_irrefl _ hlt

/-- Members and order leave no choice: two enumerations of the same pieces have the same members, so
one is a permutation of the other, and both are sorted by the first places. -/
theorem Enumerates.eq {ps es fs : List Text} (he : Enumerates ps es) (hf : Enumerates ps fs) :
    es = fs := by
  have hperm : es.Perm fs := (List.perm_ext_iff_of_nodup he.nodup hf.nodup).2 fun e =>
    (he.mem_iff e).trans (hf.mem_iff e).symm
  exact hperm.eq_of_pairwise (fun e f _ _ hlt hgt => absurd hgt (Nat.lt_asymm hlt))
    he.ordered hf.ordered

/-- The pieces, trimmed and each kept once, are the one list that enumerates their entries. -/
theorem enumerates_iff {ps es : List Text} :
    Enumerates ps es ↔ es = distinct (ps.map Text.trim) := by
  have hdistinct : Enumerates ps (distinct (ps.map Text.trim)) := by
    refine ⟨fun e => ?_, pairwise_idxOf_distinct _⟩
    rw [mem_distinct, List.mem_map, and_comm]
  exact ⟨fun h => h.eq hdistinct, fun h => h ▸ hdistinct⟩

/-! ### Two texts with a comma between them -/

/-- Of two lists in a row, the texts of the first are kept and then those of the second that the
first does not have. -/
theorem distinct_append (ts us : List Text) :
    distinct (ts ++ us) = distinct ts ++ (distinct us).filter (· ∉ distinct ts) := by
  induction ts with
  | nil => exact (List.filter_eq_self.2 (by simp [distinct])).symm
  | cons t ts ih =>
      rw [List.cons_append, distinct, distinct]
      split
      · exact ih
      · rw [ih, List.filter_append, List.filter_filter, List.cons_append]
        congr 2
        -- a text is new behind `t` and `ts` if it is new behind `ts` and is not `t`
        refine List.filter_congr fun u _ => ?_
        by_cases hut : u = t <;> simp [hut]

/-- The entries of the second text that are new follow those of the first, because the comma between
the texts ends the last piece of the first and opens the first piece of the second. -/
theorem splitList_append (a b : Text) :
    splitList (a ++ ',' :: b) = splitList a ++ (splitList b).filter (· ∉ splitList a) := by
  have hpieces : Text.splitOn ',' (a ++ ',' :: b) = Text.splitOn ',' a ++ Text.splitOn ',' b := by
    simp only [Text.splitOn_eq_splitOn, List.splitOn_append_cons_self]
  rw [splitList, hpieces, List.map_append, distinct_append]
  rfl

/-! ### The normal form -/

/-- **Normal form of a list with commas.** The entries of `a` are pairwise different, and each is
trimmed, not empty and free of commas. The text falls into pieces in one way, and the list is the
one that holds the trimmed pieces that are not empty, in the order in which they first occur. A
second text behind a comma adds the entries that are new. Joined with commas, with or without a
space behind each, the list is read back as it is. -/
theorem splitList_normalForm (a b : Text) :
    Storable (splitList a) ∧
      (∃ ps, (∀ qs, Pieces a qs ↔ qs = ps) ∧ ∀ es, Enumerates ps es ↔ es = splitList a) ∧
      splitList (a ++ ',' :: b) = splitList a ++ (splitList b).filter (· ∉ splitList a) ∧
      splitList (Text.join "," (splitList a)) = splitList a ∧
      splitList (Text.join ", " (splitList a)) = splitList a := by
  have hstorable : Storable (splitList a) := storable_splitList a
  refine ⟨hstorable, ⟨Text.splitOn ',' a, fun _ => pieces_iff, fun _ => enumerates_iff⟩,
    splitList_append a b, ?_, splitList_join hstorable⟩
  exact splitList_join_blanks (List.forall_mem_nil _) hstorable

-- pieces that differ in blanks only are one entry, and a piece of blanks is none
example : splitList " .b ,\t,.a,.b" = ([".b", ".a"] : List Text) := by decide

end CssHints.Config
