import CssHints.Command.Run
import CssHints.Proofs.JsonObject
import CssHints.Proofs.Mapping
import CssHints.Proofs.Trim

/-!
# `CssHints.Proofs.Storage`: settings that are stored and loaded again

Settings are stored as an object of texts, and their two lists as texts with commas. The object
comes back as it was (`Json.read_writeObject`), but a list only does if its entries can stand
between commas: a list is `Storable` if its entries are pairwise different and each of them is
trimmed, not empty and free of commas.

* `storable_splitList`: what is read from a text with commas is storable.
* `splitList_join`: a storable list is read back from its text.
* `Config.reload_eq`: settings that are saved can be loaded, with their lists split anew.
* `Config.reload_iff`: they are the same settings if and only if both lists are storable.

Settings that were read from a mapping, from a file or for a run have storable lists
(`Config.storable_of_ofOptions`, `Command.storable_of_loadConfig`), so they all come back as they
were.
-/

set_option autoImplicit false

namespace CssHints

/-- The list survives being written with commas: its entries are pairwise different, and each is
trimmed, not empty and free of commas. -/
structure Storable (entries : List Text) : Prop where
  nodup : entries.Nodup
  each : ∀ e ∈ entries, e ≠ [] ∧ ',' ∉ e ∧ Text.trim e = e

/-! ### Lists with commas -/

/-- The stretches of a text between separators are those of the list of its characters, so what the
library knows about splitting lists holds of texts. -/
theorem Text.splitOn_eq_splitOn (sep : Char) (s : Text) :
    Text.splitOn sep s = List.splitOn sep s := by
  induction s with
  | nil => rfl
  | cons c s ih =>
      obtain ⟨p, ps, hs⟩ := List.exists_cons_of_ne_nil (List.splitOn_ne_nil sep s)
      rw [Text.splitOn, ih, List.splitOn_cons_eq_if_modifyHead, hs]
      simp

/-- No stretch between separators holds a separator. It is what makes the entries of a list that was
read free of commas. -/
theorem Text.sep_not_mem_of_mem_splitOn {sep : Char} {s p : Text} (hp : p ∈ Text.splitOn sep s) :
    sep ∉ p := by
  induction s generalizing p with
  | nil =>
      obtain rfl : p = [] := by simpa [Text.splitOn] using hp
      simp
  | cons c s ih =>
      rw [Text.splitOn] at hp
      split at hp
      · rcases List.mem_cons.1 hp with rfl | hp
        · simp
        · exact ih hp
      · rename_i hc
        split at hp
        · obtain rfl : p = [c] := by simpa using hp
          simpa using Ne.symm hc
        · -- the character goes to the first of the parts behind it
          rename_i q qs hq
          rcases List.mem_cons.1 hp with rfl | hp
          · simpa [Ne.symm hc] using ih (hq ▸ List.mem_cons_self)
          · exact ih (hq ▸ List.mem_cons_of_mem _ hp)

/-- Trimming only takes characters away, so a trimmed stretch without commas was one before. -/
theorem Text.mem_of_mem_trim {s : Text} {c : Char} (h : c ∈ Text.trim s) : c ∈ s := by
  obtain ⟨a, b, hs, -⟩ := Text.exists_blanks_trim s
  rw [hs]
  exact List.mem_append_right _ (List.mem_append_left _ h)

namespace Config

/-- Keeping each text once loses no text and adds none, except that the empty text goes. Copies
behind the first one are dropped. -/
theorem mem_distinct {ts : List Text} {t : Text} : t ∈ distinct ts ↔ t ∈ ts ∧ t ≠ [] := by
  induction ts with
  | nil => simp [distinct]
  | cons u ts ih =>
      rw [distinct]
      split
      · rename_i hu
        rw [ih, List.mem_cons, hu]
        constructor
        · exact fun h => ⟨.inr h.1, h.2⟩
        · rintro ⟨rfl | h, hne⟩
          · exact absurd rfl hne
          · exact ⟨h, hne⟩
      · rename_i hu
        simp only [List.mem_cons, List.mem_filter, decide_eq_true_eq, ih]
        -- the filter takes away the later copies of `u`, which stands in front of them already
        by_cases ht : t = u
        · simp [ht, hu]
        · simp [ht]

/-- Each text that is kept is kept once. -/
theorem nodup_distinct (ts : List Text) : (distinct ts).Nodup := by
  induction ts with
  | nil => exact .nil
  | cons t ts ih =>
      rw [distinct]
      split
      · exact ih
      · exact List.nodup_cons.2 ⟨by simp, ih.filter _⟩

/-- A list without repetitions and without the empty text stays as it is. This is the half of the
round trip that needs the entries to be pairwise different. -/
theorem distinct_eq_self {ts : List Text} (hnodup : ts.Nodup) (hne : [] ∉ ts) :
    distinct ts = ts := by
  induction ts with
  | nil => rfl
  | cons t ts ih =>
      obtain ⟨ht, hnodup⟩ := List.nodup_cons.1 hnodup
      simp only [List.mem_cons, not_or] at hne
      -- nothing behind `t` equals it, so the filter of this step takes nothing away
      rw [distinct, if_neg (Ne.symm hne.1), ih hnodup hne.2, List.filter_eq_self.2]
      rintro u hu
      exact decide_eq_true fun he => ht (he ▸ hu)

/-- What is read from a text with commas can be stored: its entries are what splitting, trimming and
keeping each text once leave, and each of the three gives one part of the condition. -/
theorem storable_splitList (raw : Text) : Storable (splitList raw) := by
  refine ⟨nodup_distinct _, fun e he => ?_⟩
  obtain ⟨hmem, hne⟩ := mem_distinct.1 he
  obtain ⟨p, hp, rfl⟩ := List.mem_map.1 hmem
  exact ⟨hne, fun hc => Text.sep_not_mem_of_mem_splitOn hp (Text.mem_of_mem_trim hc),
    Text.trim_trim p⟩

/-- Blanks in front of a text belong to its first piece, and are trimmed off with it. A comma is no
blank, so the blanks open no piece of their own. -/
theorem map_trim_splitOn_blanks {gap : Text} (hgap : ∀ c ∈ gap, Text.isTrimmed c = true)
    (s : Text) :
    (Text.splitOn ',' (gap ++ s)).map Text.trim = (Text.splitOn ',' s).map Text.trim := by
  induction gap with
  | nil => rfl
  | cons c gap ih =>
      have hc : Text.isTrimmed c = true := hgap c List.mem_cons_self
      have hcomma : c ≠ ',' := by
        rintro rfl
        cases hc
      obtain ⟨p, ps, hp⟩ := List.exists_cons_of_ne_nil (List.splitOn_ne_nil ',' (gap ++ s))
      rw [← Text.splitOn_eq_splitOn] at hp
      rw [← ih fun d hd => hgap d (List.mem_cons_of_mem _ hd), List.cons_append, Text.splitOn,
        if_neg hcomma, hp]
      simp [Text.trim_cons_blank hc]

/-- Between the commas of a joined list stand its entries, all but the first behind the gap, which
trimming removes. The list must not be empty: the empty text has one piece, and not none. -/
theorem map_trim_splitOn_join {gap : Text} (hgap : ∀ c ∈ gap, Text.isTrimmed c = true)
    {es : List Text} (hne : es ≠ []) (h : ∀ t ∈ es, ',' ∉ t ∧ Text.trim t = t) :
    (Text.splitOn ',' (Text.join (',' :: gap) es)).map Text.trim = es := by
  induction es with
  | nil => exact absurd rfl hne
  | cons e es ih =>
      obtain ⟨hcomma, htrim⟩ := h e List.mem_cons_self
      cases es with
      | nil =>
          rw [Text.join, List.intercalate_singleton, Text.splitOn_eq_splitOn,
            List.splitOn_eq_singleton hcomma, List.map_singleton, htrim]
      | cons e' es =>
          -- the gap behind the comma goes to the next entry, and is trimmed off it
          have hjoin : Text.join (',' :: gap) (e :: e' :: es) =
              e ++ ',' :: (gap ++ Text.join (',' :: gap) (e' :: es)) := by
            simp [Text.join, List.intercalate_cons_cons]
          rw [hjoin, Text.splitOn_eq_splitOn, List.splitOn_append_cons_self_of_not_mem hcomma,
            ← Text.splitOn_eq_splitOn, List.map_cons, htrim, map_trim_splitOn_blanks hgap,
            ih (List.cons_ne_nil _ _) fun t ht => h t (List.mem_cons_of_mem _ ht)]

/-- A storable list is read back from its text, whatever blanks stand behind the commas. The empty
list is written as the empty text, whose one piece counts for nothing. -/
theorem splitList_join_blanks {gap : Text} (hgap : ∀ c ∈ gap, Text.isTrimmed c = true)
    {es : List Text} (h : Storable es) : splitList (Text.join (',' :: gap) es) = es := by
  cases es with
  | nil => rfl
  | cons e es =>
      rw [splitList, map_trim_splitOn_join hgap (List.cons_ne_nil e es) fun t ht => (h.each t ht).2,
        distinct_eq_self h.nodup fun hm => (h.each [] hm).1 rfl]

/-- A storable list is read back from the text that it is kept as, with a space behind each
comma. -/
theorem splitList_join {es : List Text} (h : Storable es) : splitList (Text.join ", " es) = es :=
  splitList_join_blanks (List.forall_mem_singleton.2 (by decide)) h

/-- A list comes back if and only if it can be stored: what comes back was split from a text, and
all such lists are storable. -/
theorem splitList_join_eq_iff {es : List Text} : splitList (Text.join ", " es) = es ↔ Storable es :=
  ⟨fun h => h ▸ storable_splitList _, splitList_join⟩

/-! ### Settings -/

/-- The settings that are loaded from the file that keeps `c`. -/
def reload (path : Text) (c : Config) (limits : Json.Limits := .standard) :
    Except ConfigError Config :=
  load path (Utf8.encode c.saved) limits

/-- The settings with their lists written and split anew. -/
def resplit (c : Config) : Config :=
  { c with
    exclude := splitList (Text.join ", " c.exclude)
    target := splitList (Text.join ", " c.target) }

/-- The mapping that settings are written as is always accepted, and stands for the settings with
their lists split anew. Each switch is written as one of the two texts that are read as switches. -/
theorem ofOptions_toOptions (c : Config) :
    ofOptions (Json.ofTexts c.toOptions) = .ok c.resplit := by
  rcases c with ⟨transform, willChange, backface, perspective, exclude, target⟩
  cases transform <;> cases willChange <;> cases backface <;> cases perspective <;> rfl

/-- Settings that are saved can be loaded, under any limits of the reader, and what comes back has
the lists split anew. The keys of the mapping are pairwise different, so no member hides another. -/
theorem reload_eq (path : Text) (c : Config) (limits : Json.Limits) :
    reload path c limits = .ok c.resplit := by
  have hkeys : (c.toOptions.map Prod.fst).Nodup := by
    show (Flag.all.map Flag.key ++ [excludeKey, targetKey]).Nodup
    decide
  -- the file decodes to the written object, which is read back as the mapping
  obtain ⟨source, hdecode, hread⟩ := Json.read_of_decode_encode (by simp [toOptions]) hkeys limits
  rw [reload, load, saved, hdecode]
  dsimp only
  rw [hread]
  dsimp only
  rw [ofOptions_toOptions]
  rfl

/-- The same settings come back if and only if both lists can be stored, since the switches always
do. -/
theorem resplit_eq_self_iff (c : Config) :
    c.resplit = c ↔ Storable c.exclude ∧ Storable c.target := by
  rw [← splitList_join_eq_iff, ← splitList_join_eq_iff]
  rcases c with ⟨transform, willChange, backface, perspective, exclude, target⟩
  simp [resplit]

/-- A list of the mapping can be stored, whether it was given as a text or as an array of texts:
both are split as one text. -/
theorem storable_of_readEntries {key : Text} {v : Json} {es : List Text}
    (h : readEntries key v = .ok es) : Storable es := by
  obtain ⟨raw, -, rfl⟩ := readEntries_eq_ok_iff.1 h
  exact storable_splitList raw

/-- Settings that were read from a mapping can be stored, and so come back as they are once
saved. -/
theorem storable_of_ofOptions {o : Options} {c : Config} (h : ofOptions o = .ok c) :
    Storable c.exclude ∧ Storable c.target := by
  obtain ⟨-, hexclude, htarget⟩ := ofOptions_eq_ok_iff_reads.1 h
  exact ⟨storable_of_readEntries hexclude, storable_of_readEntries htarget⟩

/-- Settings that were read from a file can be stored. A file that loads holds an object, and the
settings are those of the mapping that the object is. -/
theorem storable_of_load {path : Text} {content : Bytes} {limits : Json.Limits} {c : Config}
    (h : load path content limits = .ok c) : Storable c.exclude ∧ Storable c.target := by
  unfold load at h
  split at h
  · cases h
  · split at h
    · cases h
    · cases h
    · rename_i members hread
      -- all other outcomes of the reader are errors of the loading
      cases ho : ofOptions members with
      | error e =>
          rw [ho] at h
          cases h
      | ok d =>
          rw [ho] at h
          cases h
          exact storable_of_ofOptions ho
    · cases h

end Config

namespace Command

/-! ### The settings of a run -/

/-- The settings that the arguments can change: those of the file, or else the defaults. -/
def baseConfig (limits : Json.Limits) : Option (Text × Bytes) → Except ConfigError Config
  | none => .ok {}
  | some (path, content) => Config.load (PlainPath.ofText path).toText content limits

/-- The settings with what the arguments replace. -/
def ConfigRequest.override (r : ConfigRequest) (base : Config) : Config where
  transform := (r.flag .transform).getD base.transform
  willChange := (r.flag .willChange).getD base.willChange
  backface := (r.flag .backface).getD base.backface
  perspective := (r.flag .perspective).getD base.perspective
  exclude := (r.exclude.map Config.splitList).getD base.exclude
  target := (r.target.map Config.splitList).getD base.target

/-- A run takes the settings of the file, or the defaults, and then overrides them with the
arguments; it fails exactly when the file does not load. -/
theorem loadConfig_eq (file : Option (Text × Bytes)) (r : ConfigRequest) (limits : Json.Limits) :
    loadConfig file r limits = (baseConfig limits file).map r.override := by
  unfold loadConfig baseConfig
  cases file with
  | none => rfl
  | some f =>
      dsimp only
      cases Config.load (PlainPath.ofText f.1).toText f.2 limits <;> rfl

/-- The settings that a run starts from can be stored: those of a file were read, and the two lists
of the defaults are storable by inspection. -/
theorem storable_of_baseConfig {limits : Json.Limits} {file : Option (Text × Bytes)} {c : Config}
    (h : baseConfig limits file = .ok c) : Storable c.exclude ∧ Storable c.target := by
  cases file with
  | none =>
      cases h
      exact ⟨⟨.nil, by simp⟩, ⟨by decide, by decide⟩⟩
  | some f => exact Config.storable_of_load h

/-- A list that the arguments may replace stays storable, because what replaces it is split from a
text with commas. -/
theorem storable_override {raw : Option Text} {es : List Text} (h : Storable es) :
    Storable ((raw.map Config.splitList).getD es) := by
  cases raw with
  | none => exact h
  | some raw => exact Config.storable_splitList raw

/-- The settings of a run can be stored, whatever file and arguments they come from. Entries are
trimmed and hold no comma, because they were cut out between commas. -/
theorem storable_of_loadConfig {file : Option (Text × Bytes)} {r : ConfigRequest}
    {limits : Json.Limits} {c : Config} (h : loadConfig file r limits = .ok c) :
    Storable c.exclude ∧ Storable c.target := by
  rw [loadConfig_eq] at h
  cases hbase : baseConfig limits file with
  | error e =>
      rw [hbase] at h
      cases h
  | ok base =>
      rw [hbase] at h
      cases h
      obtain ⟨hexclude, htarget⟩ := storable_of_baseConfig hbase
      exact ⟨storable_override hexclude, storable_override htarget⟩

end Command

/-! ### Which settings come back -/

/-- **Stored settings.** Settings that are saved can be loaded. What comes back is what the mapping
of the settings stands for, and it is the same settings if and only if both lists are storable.
That is so for all settings that were read from a mapping or from a file, and for those of a run
with any file and any arguments. The limits of the reader play no part: the file that keeps settings
is within all of them, also within limits that are closer than those of an earlier reading. -/
theorem Config.reload_iff (path : Text) (c : Config) (limits : Json.Limits) :
    (∃ d, c.reload path limits = .ok d ∧ Config.ofOptions (Json.ofTexts c.toOptions) = .ok d ∧
        (d = c ↔ Storable c.exclude ∧ Storable c.target)) ∧
      (∀ o, Config.ofOptions o = .ok c → c.reload path limits = .ok c) ∧
      (∀ source content limits', Config.load source content limits' = .ok c →
        c.reload path limits = .ok c) ∧
      ∀ file r limits', Command.loadConfig file r limits' = .ok c →
        c.reload path limits = .ok c := by
  have hback : Storable c.exclude ∧ Storable c.target → c.reload path limits = .ok c := by
    intro h
    rw [Config.reload_eq, c.resplit_eq_self_iff.2 h]
  refine ⟨⟨c.resplit, Config.reload_eq path c limits, Config.ofOptions_toOptions c,
    c.resplit_eq_self_iff⟩, ?_, ?_, ?_⟩
  · exact fun o h => hback (Config.storable_of_ofOptions h)
  · exact fun source content limits' h => hback (Config.storable_of_load h)
  · exact fun file r limits' h => hback (Command.storable_of_loadConfig h)

/-- A list with a repetition and a character beyond `FFFF`. -/
theorem Config.reload_iff_pair :
    Config.ofOptions [(Config.excludeKey, .arr [.str " a,😀", .str "a"])] =
        .ok { exclude := ["a", "😀"] } ∧
      Config.reload "k" { exclude := ["a", "😀"] } =
        .ok { exclude := ["a", "😀"] } :=
  have hread : Config.ofOptions [(Config.excludeKey, .arr [.str " a,😀", .str "a"])] =
      .ok { exclude := ["a", "😀"] } := rfl
  ⟨hread, (Config.reload_iff "k" _ .standard).2.1 _ hread⟩

end CssHints
