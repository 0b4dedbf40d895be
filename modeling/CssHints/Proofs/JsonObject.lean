import CssHints.Json.Reader
import CssHints.Json.Writer
import CssHints.Text.Newline
import CssHints.Text.Utf8

/-!
# `CssHints.Proofs.JsonObject`: an object of texts, written and read again

`writeObject` writes an object whose values are texts, and `read` reads any JSON text. This module
says that reading undoes writing (`read_writeObject`), for texts of any characters.

The argument goes along the written text. A character is read back from its escape
(`readEscape_writeChar`): four hexadecimal digits give their number (`unit?_hex`), and the halves
of a surrogate pair give the character beyond `FFFF` that they were made from. A string is read
character by character, and the members one after the other. Where a reader stands is not followed:
what comes out of it depends on the text that is left and not on the place.

A written object has only characters from the space to the tilde and line feeds in it, so it is the
same text after a trip through a file (`decode_encode_writeObject`).
-/

set_option autoImplicit false

namespace CssHints.Json

/-! ### Hexadecimal digits -/

/-- A hexadecimal digit is read as its value. -/
theorem hexValue?_digitChar {d : Nat} (hd : d < 16) : hexValue? d.digitChar = some d := by
  have h : ∀ d < 16, hexValue? d.digitChar = some d := by decide
  exact h d hd

/-- The four digits of a number of two bytes, written out. The writer fills up with zeros, so the
proof goes by the number of digits that the number has. -/
theorem hex_four {n : Nat} (hn : n < 0x10000) :
    Text.hex 4 n =
      [(n / 0x1000).digitChar, (n / 0x100 % 16).digitChar, (n / 0x10 % 16).digitChar,
        (n % 16).digitChar] := by
  have hlt : ∀ {m : Nat}, m < 16 → Nat.toDigits 16 m = [m.digitChar] := Nat.toDigits_of_lt_base
  have hge : ∀ {m : Nat}, 16 ≤ m →
      Nat.toDigits 16 m = Nat.toDigits 16 (m / 16) ++ [(m % 16).digitChar] :=
    Nat.toDigits_of_base_le (by decide)
  unfold Text.hex
  -- how many digits there are depends on the size of the number; zeros fill up the rest
  by_cases h₁ : n < 16
  · rw [hlt h₁, show n / 0x1000 = 0 by omega, show n / 0x100 % 16 = 0 by omega,
      show n / 0x10 % 16 = 0 by omega, Nat.mod_eq_of_lt h₁]
    rfl
  rw [hge (by omega)]
  by_cases h₂ : n / 16 < 16
  · rw [hlt h₂, show n / 0x1000 = 0 by omega, show n / 0x100 % 16 = 0 by omega,
      Nat.mod_eq_of_lt h₂]
    rfl
  rw [hge (by omega), show n / 16 / 16 = n / 0x100 by omega]
  by_cases h₃ : n / 0x100 < 16
  · rw [hlt h₃, show n / 0x1000 = 0 by omega, Nat.mod_eq_of_lt h₃]
    rfl
  rw [hge (by omega), show n / 0x100 / 16 = n / 0x1000 by omega, hlt (by omega)]
  rfl

/-- Four digits are read as their number if something stands behind them. The reader asks for a
further character, which a string always has, since it ends with a quote. -/
theorem unit?_hex {n : Nat} (hn : n < 0x10000) (c : Char) (s : Text) :
    unit? (Text.hex 4 n ++ c :: s) = some n := by
  rw [hex_four hn]
  simp only [List.cons_append, List.nil_append, unit?,
    hexValue?_digitChar (show n / 0x1000 < 16 by omega),
    hexValue?_digitChar (show n / 0x100 % 16 < 16 by omega),
    hexValue?_digitChar (show n / 0x10 % 16 < 16 by omega),
    hexValue?_digitChar (show n % 16 < 16 by omega), bind, Option.bind, pure]
  congr 1
  omega

/-- Four digits are four characters. -/
theorem length_hex {n : Nat} (hn : n < 0x10000) : (Text.hex 4 n).length = 4 := by
  rw [hex_four hn]
  rfl

/-! ### Cursors -/

/-- A cursor that skips a text stands behind it. -/
theorem skip_append (loc : Location) (a b : Text) :
    Cursor.skip a.length ⟨loc, a ++ b⟩ = ⟨loc.after a, b⟩ := by
  simp [Cursor.skip]

/-- Blanks are skipped up to the first character that is none. -/
theorem skipBlanks_append {w : Text} (hw : ∀ c ∈ w, isBlank c = true) {s : Text}
    (hs : ∀ c ∈ s.head?, isBlank c = false) (loc : Location) :
    skipBlanks ⟨loc, w ++ s⟩ = ⟨loc.after w, s⟩ := by
  have htake : (w ++ s).takeWhile isBlank = w := by
    rw [List.takeWhile_append_of_pos hw]
    cases s with
    | nil => simp
    | cons c s => simp [hs c rfl]
  rw [skipBlanks, htake, skip_append]

/-! ### Strings -/

/-- The number of a character is no half of a surrogate pair. So a character that is written by its
number is read by it. -/
theorem not_surrogate (c : Char) : isHighHalf c.toNat = false ∧ isLowHalf c.toNat = false := by
  have hvalid : c.toNat.isValidChar := c.valid
  simp only [isHighHalf, isLowHalf, Bool.and_eq_false_iff, decide_eq_false_iff_not]
  omega

/-- The halves of the surrogate pair of a character beyond `FFFF`, and that they give back its
number. -/
theorem surrogate_halves {n : Nat} (hn : 0x10000 ≤ n) (hmax : n < 0x110000) :
    isHighHalf (0xD800 + (n - 0x10000) / 0x400) = true ∧
      isLowHalf (0xDC00 + (n - 0x10000) % 0x400) = true ∧
      0x10000 + (0xD800 + (n - 0x10000) / 0x400 - 0xD800) * 0x400 +
        (0xDC00 + (n - 0x10000) % 0x400 - 0xDC00) = n := by
  refine ⟨?_, ?_, by omega⟩
  · simp only [isHighHalf, Bool.and_eq_true, decide_eq_true_eq]
    omega
  · simp only [isLowHalf, Bool.and_eq_true, decide_eq_true_eq]
    omega

/-- How a character is written: as it is, by a letter behind a backslash, by its number, or by the
halves of a surrogate pair. The last two are told apart by the size of the number. -/
theorem writeChar_cases (c : Char) :
    (writeChar c = [c] ∧ c ≠ '\x22' ∧ c ≠ '\\' ∧ 0x20 ≤ c.toNat ∧ c.toNat < 0x7F) ∨
    (∃ x, writeChar c = ['\\', x] ∧ x ≠ 'u' ∧ shortEscape? x = some c) ∨
    (c.toNat < 0x10000 ∧ writeChar c = unitEscape c.toNat) ∨
    (0x10000 ≤ c.toNat ∧ writeChar c = unitEscape (0xD800 + (c.toNat - 0x10000) / 0x400) ++
      unitEscape (0xDC00 + (c.toNat - 0x10000) % 0x400)) := by
  -- seven characters have an escape of their own, of two characters
  by_cases hshort : c ∈ ['\x22', '\\', '\n', '\r', '\t', '\x08', '\x0c']
  · simp only [List.mem_cons, List.not_mem_nil, or_false] at hshort
    right; left
    rcases hshort with rfl | rfl | rfl | rfl | rfl | rfl | rfl <;>
      exact ⟨_, rfl, by decide, rfl⟩
  · simp only [List.mem_cons, List.not_mem_nil, or_false, not_or] at hshort
    obtain ⟨h₁, h₂, h₃, h₄, h₅, h₆, h₇⟩ := hshort
    unfold writeChar
    rw [if_neg h₁, if_neg h₂, if_neg h₃, if_neg h₄, if_neg h₅, if_neg h₆, if_neg h₇]
    dsimp only
    split
    · rename_i hplain
      exact .inl ⟨rfl, h₁, h₂, hplain⟩
    · split
      · rename_i hunit
        exact .inr (.inr (.inl ⟨hunit, rfl⟩))
      · rename_i hunit
        exact .inr (.inr (.inr ⟨by omega, rfl⟩))

/-- A letter behind a backslash is read as the character that it stands for. -/
theorem readEscape_short {c x : Char} (hx : x ≠ 'u') (hc : shortEscape? x = some c)
    (opening loc : Location) (s : Text) :
    readEscape opening ⟨loc, '\\' :: x :: s⟩ =
      .ok ([c], Cursor.skip 2 ⟨loc, '\\' :: x :: s⟩) := by
  simp [readEscape, hx, hc]

/-- The text of an escape, character by character. -/
theorem unitEscape_append (n : Nat) (s : Text) :
    unitEscape n ++ s = '\\' :: 'u' :: (Text.hex 4 n ++ s) := rfl

/-- An escape has six characters. -/
theorem length_unitEscape {n : Nat} (hn : n < 0x10000) : (unitEscape n).length = 6 := by
  rw [unitEscape, List.length_append, length_hex hn]
  rfl

/-- Four digits that are no first half of a pair stand for the character of their number. -/
theorem readEscape_of_unit {s : Text} {n : Nat} (h : unit? s = some n)
    (hhigh : isHighHalf n = false) (opening loc : Location) :
    readEscape opening ⟨loc, '\\' :: 'u' :: s⟩ =
      .ok (charsOf n, Cursor.skip 6 ⟨loc, '\\' :: 'u' :: s⟩) := by
  simp only [readEscape, List.drop_succ_cons, List.drop_zero, if_true, h, hhigh]

/-- Four digits that are the first half of a pair stand for one character together with the second
half behind them. -/
theorem readEscape_of_halves {s : Text} {n low : Nat} (h : unit? s = some n)
    (hhigh : isHighHalf n = true) (hlow : lowHalf? (s.drop 4) = some low)
    (opening loc : Location) :
    readEscape opening ⟨loc, '\\' :: 'u' :: s⟩ =
      .ok ([Char.ofNat (0x10000 + (n - 0xD800) * 0x400 + (low - 0xDC00))],
        Cursor.skip 12 ⟨loc, '\\' :: 'u' :: s⟩) := by
  simp only [readEscape, List.drop_succ_cons, List.drop_zero, if_true, h, hhigh, hlow]

/-- A character that was written by its number is read back. -/
theorem readEscape_unit {c : Char} (hc : c.toNat < 0x10000) (opening loc : Location) (d : Char)
    (s : Text) :
    readEscape opening ⟨loc, unitEscape c.toNat ++ d :: s⟩ =
      .ok ([c], ⟨loc.after (unitEscape c.toNat), d :: s⟩) := by
  obtain ⟨hhigh, hlow⟩ := not_surrogate c
  have hskip := skip_append loc (unitEscape c.toNat) (d :: s)
  rw [length_unitEscape hc] at hskip
  rw [← hskip, unitEscape_append, readEscape_of_unit (unit?_hex hc d s) hhigh]
  simp [charsOf, hhigh, hlow, Char.ofNat_toNat]

/-- A character that was written as a pair is read back. The place behind it is left open, as in all
lemmas about a reader from here on. -/
theorem readEscape_pair {c : Char} (hc : 0x10000 ≤ c.toNat) (opening loc : Location) (d : Char)
    (s : Text) :
    ∃ loc', readEscape opening ⟨loc, unitEscape (0xD800 + (c.toNat - 0x10000) / 0x400) ++
        (unitEscape (0xDC00 + (c.toNat - 0x10000) % 0x400) ++ d :: s)⟩ =
      .ok ([c], ⟨loc', d :: s⟩) := by
  have hmax : c.toNat < 0x110000 := by
    have hvalid : c.toNat.isValidChar := c.valid
    omega
  obtain ⟨hhigh, hlow, hsum⟩ := surrogate_halves hc hmax
  -- what the halves are no longer matters, only that they are halves and give the number
  generalize 0xD800 + (c.toNat - 0x10000) / 0x400 = high at hhigh hsum ⊢
  generalize 0xDC00 + (c.toNat - 0x10000) % 0x400 = low at hlow hsum ⊢
  have hhigh' : high < 0x10000 := by
    simp only [isHighHalf, Bool.and_eq_true, decide_eq_true_eq] at hhigh
    omega
  have hlow' : low < 0x10000 := by
    simp only [isLowHalf, Bool.and_eq_true, decide_eq_true_eq] at hlow
    omega
  have hskip := skip_append loc (unitEscape high ++ unitEscape low) (d :: s)
  rw [List.length_append, length_unitEscape hhigh', length_unitEscape hlow',
    List.append_assoc] at hskip
  refine ⟨loc.after (unitEscape high ++ unitEscape low), ?_⟩
  rw [← hskip]
  -- the second half is found behind the four digits of the first
  have hsecond : lowHalf? ((Text.hex 4 high ++ (unitEscape low ++ d :: s)).drop 4) = some low := by
    have hfour := length_hex hhigh'
    rw [List.drop_append_of_le_length (by omega), List.drop_of_length_le (by omega),
      List.nil_append, unitEscape_append, lowHalf?, if_pos (by rfl)]
    show (unit? (Text.hex 4 low ++ d :: s)).filter isLowHalf = _
    rw [unit?_hex hlow']
    simp [hlow]
  have hfirst : unit? (Text.hex 4 high ++ (unitEscape low ++ d :: s)) = some high :=
    unit?_hex hhigh' _ _
  rw [unitEscape_append high, readEscape_of_halves hfirst hhigh hsecond, hsum, Char.ofNat_toNat]

/-- A string goes on behind a character that is read as one character, whether it stands there as it
is or by an escape. -/
theorem readString_of_char {c d : Char} {s : Text} {next : Cursor} (hquote : c ≠ '\x22')
    (hcontrol : 0x20 ≤ c.toNat) {opening loc : Location}
    (h : (if c = '\\' then readEscape opening ⟨loc, c :: s⟩
      else .ok ([c], Cursor.skip 1 ⟨loc, c :: s⟩)) = .ok ([d], next)) (fuel : Nat) :
    readString opening (fuel + 1) ⟨loc, c :: s⟩ =
      (readString opening fuel next).map fun r => (d :: r.1, r.2) := by
  rw [readString]
  dsimp only
  rw [if_neg hquote, if_neg (by omega)]
  split at h <;> rename_i hslash
  · rw [if_pos hslash, h]
    simp only [bind, Except.bind]
    cases readString opening fuel next <;> rfl
  · rw [if_neg hslash, h]
    simp only [bind, Except.bind]
    cases readString opening fuel next <;> rfl

/-- One character of a string is read back, with anything behind it. There is one case for each of
the ways in which a character is written. -/
theorem readString_writeChar (c : Char) (opening loc : Location) (fuel : Nat) (d : Char)
    (s : Text) :
    ∃ loc', readString opening (fuel + 1) ⟨loc, writeChar c ++ d :: s⟩ =
      (readString opening fuel ⟨loc', d :: s⟩).map fun r => (c :: r.1, r.2) := by
  rcases writeChar_cases c with ⟨hw, hquote, hslash, hcontrol, -⟩ | ⟨x, hw, hx, hshort⟩ |
    ⟨hlt, hw⟩ | ⟨hge, hw⟩ <;> rw [hw]
  · exact ⟨_, readString_of_char hquote hcontrol (if_neg hslash) fuel⟩
  · exact ⟨_, readString_of_char (by decide) (by decide)
      ((if_pos rfl).trans (readEscape_short hx hshort opening loc _)) fuel⟩
  · exact ⟨_, readString_of_char (by decide) (by decide)
      ((if_pos rfl).trans (readEscape_unit hlt opening loc d s)) fuel⟩
  · obtain ⟨loc', h⟩ := readEscape_pair hge opening loc d s
    rw [List.append_assoc]
    exact ⟨loc', readString_of_char (by decide) (by decide) ((if_pos rfl).trans h) fuel⟩

/-- A string is read back up to its closing quote. The induction is on the characters, with the
place and the bound on the depth generalized. -/
theorem readString_flatMap (t : Text) (opening loc : Location) {fuel : Nat}
    (hfuel : t.length < fuel) (s : Text) :
    ∃ loc', readString opening fuel ⟨loc, t.flatMap writeChar ++ '\x22' :: s⟩ =
      .ok (t, ⟨loc', s⟩) := by
  induction t generalizing loc fuel with
  | nil =>
      obtain ⟨fuel, rfl⟩ := Nat.exists_eq_succ_of_ne_zero (by omega : fuel ≠ 0)
      exact ⟨_, rfl⟩
  | cons c t ih =>
      obtain ⟨fuel, rfl⟩ := Nat.exists_eq_succ_of_ne_zero (by omega : fuel ≠ 0)
      -- what stands behind the character is at least the quote
      obtain ⟨d, u, hu⟩ := List.exists_cons_of_ne_nil
        (show t.flatMap writeChar ++ '\x22' :: s ≠ [] by simp)
      obtain ⟨loc₁, h₁⟩ := readString_writeChar c opening loc fuel d u
      obtain ⟨loc₂, h₂⟩ := ih loc₁ (by simpa using hfuel)
      refine ⟨loc₂, ?_⟩
      rw [List.flatMap_cons, List.append_assoc, hu, h₁, ← hu, h₂]
      rfl

/-- A character is written as at least one. -/
theorem writeChar_ne_nil (c : Char) : writeChar c ≠ [] := by
  have hunit : ∀ n s, unitEscape n ++ s ≠ [] := fun n s => List.cons_ne_nil _ _
  rcases writeChar_cases c with ⟨h, -⟩ | ⟨x, h, -⟩ | ⟨-, h⟩ | ⟨-, h⟩ <;> rw [h]
  · exact List.cons_ne_nil _ _
  · exact List.cons_ne_nil _ _
  · rw [← List.append_nil (unitEscape _)]
    exact hunit _ _
  · exact hunit _ _

/-- A written string is at least as long as the string. So the length of the text is bound enough
for the reader. -/
theorem length_le_flatMap_writeChar (t : Text) : t.length ≤ (t.flatMap writeChar).length := by
  induction t with
  | nil => exact Nat.le_refl 0
  | cons c t ih =>
      have hpos := List.length_pos_iff.2 (writeChar_ne_nil c)
      rw [List.flatMap_cons, List.length_append, List.length_cons]
      omega

/-- A written string is read back at a cursor that stands on its opening quote. Each character takes
at least one character to write, so the length of the text is fuel enough. -/
theorem readString_writeString (t : Text) (loc : Location) (s : Text) :
    ∃ loc', readString loc (writeString t ++ s).length
      (Cursor.skip 1 ⟨loc, writeString t ++ s⟩) = .ok (t, ⟨loc', s⟩) := by
  have htext : writeString t ++ s = '\x22' :: (t.flatMap writeChar ++ '\x22' :: s) := by
    simp [writeString]
  have hlength := length_le_flatMap_writeChar t
  rw [htext]
  refine readString_flatMap t loc _ ?_ s
  simp only [List.length_cons, List.length_append]
  omega

/-- A written string is read back as a value, at any depth and within any limits: a string opens no
container and is no number. -/
theorem readValue_writeString (limits : Limits) (fuel depth : Nat) (t : Text) (loc : Location)
    (s : Text) : ∃ loc',
      readValue limits (fuel + 1) depth ⟨loc, writeString t ++ s⟩ = .ok (.str t, ⟨loc', s⟩) := by
  obtain ⟨loc', h⟩ := readString_writeString t loc s
  refine ⟨loc', ?_⟩
  have hread : readValue limits (fuel + 1) depth ⟨loc, writeString t ++ s⟩ =
      (readString loc (writeString t ++ s).length
        (Cursor.skip 1 ⟨loc, writeString t ++ s⟩)).bind fun r => .ok (.str r.1, r.2) := by
    rw [readValue]
    rfl
  rw [hread, h]
  rfl

/-! ### Members -/

/-- The text of the members behind one of them, to the end of the object. -/
def behindMember : List (Text × Text) → Text
  | [] => ['\n', '\x7d']
  | m :: ms => ',' :: '\n' :: (writeMember m ++ behindMember ms)

/-- The text of a member, part by part. -/
theorem writeMember_append (m : Text × Text) (s : Text) :
    writeMember m ++ s =
      ' ' :: ' ' :: (writeString m.1 ++ ':' :: ' ' :: (writeString m.2 ++ s)) := by
  simp [writeMember]

/-- The members with commas between them, told from the first one on. The reader goes through them
in this order, with the rest in `behindMember`. -/
theorem join_writeMember (m : Text × Text) (ms : List (Text × Text)) :
    Text.join ",\n" ((m :: ms).map writeMember) ++ ['\n', '\x7d'] =
      writeMember m ++ behindMember ms := by
  induction ms generalizing m with
  | nil => simp [Text.join, List.intercalate, behindMember]
  | cons m' ms ih =>
      have hjoin : Text.join ",\n" ((m :: m' :: ms).map writeMember) =
          writeMember m ++ ',' :: '\n' :: Text.join ",\n" ((m' :: ms).map writeMember) := by
        simp [Text.join, List.intercalate]
      rw [hjoin, List.append_assoc, List.cons_append, List.cons_append, ih m', behindMember]

/-- There are at least as many characters as members. -/
theorem length_le_behindMember (ms : List (Text × Text)) :
    ms.length ≤ (behindMember ms).length := by
  induction ms with
  | nil => exact Nat.zero_le _
  | cons m ms ih =>
      simp only [behindMember, List.length_cons, List.length_append]
      omega

/-- A new key is put at the end. -/
theorem put_of_not_mem {key : Text} (v : Json) {ms : List (Text × Json)}
    (h : key ∉ ms.map Prod.fst) : put key v ms = ms ++ [(key, v)] := by
  induction ms with
  | nil => rfl
  | cons m ms ih =>
      simp only [List.map_cons, List.mem_cons, not_or] at h
      rw [put, if_neg (Ne.symm h.1), ih h.2, List.cons_append]

/-- The members as the reader gives them. -/
def ofTexts (ms : List (Text × Text)) : List (Text × Json) := ms.map fun m => (m.1, .str m.2)

/-- One member is read back: its key, the colon and its value. What the reader does next depends on
the sign behind the value, so the rest of its definition stands in the statement. -/
theorem readMembers_member (limits : Limits) (fuel depth : Nat) {acc : List (Text × Json)}
    {m : Text × Text} (hkey : m.1 ∉ acc.map Prod.fst) (loc : Location) (s : Text) :
    ∃ loc', readMembers limits (fuel + 2) depth acc
        ⟨loc, writeString m.1 ++ ':' :: ' ' :: (writeString m.2 ++ s)⟩ =
      (let members := acc ++ [(m.1, .str m.2)]
       let next := skipBlanks ⟨loc', s⟩
       if next.rest.head? = some '\x7d' then .ok (members, next.skip 1)
       else if next.rest.head? = some ',' then
         readMembers limits (fuel + 1) depth members (skipBlanks (next.skip 1))
       else next.fail .missingComma) := by
  obtain ⟨loc₁, h₁⟩ := readString_writeString m.1 loc (':' :: ' ' :: (writeString m.2 ++ s))
  have hcolon : skipBlanks ⟨loc₁, ':' :: ' ' :: (writeString m.2 ++ s)⟩ =
      ⟨loc₁, ':' :: ' ' :: (writeString m.2 ++ s)⟩ :=
    skipBlanks_append (w := []) (by simp) (by simp [isBlank]) loc₁
  have hvalue : skipBlanks (Cursor.skip 1 ⟨loc₁, ':' :: ' ' :: (writeString m.2 ++ s)⟩) =
      ⟨(loc₁.next ':').next ' ', writeString m.2 ++ s⟩ :=
    skipBlanks_append (w := [' ']) (by simp [isBlank]) (by simp [isBlank]) _
  -- the key, the colon, the blank behind it, and the value
  obtain ⟨loc₂, h₂⟩ := readValue_writeString limits fuel depth m.2 ((loc₁.next ':').next ' ') s
  refine ⟨loc₂, ?_⟩
  rw [readMembers, if_neg (by simp [writeString])]
  dsimp only
  rw [h₁]
  simp only [bind, Except.bind]
  rw [hcolon, if_neg (by simp), hvalue, h₂]
  dsimp only
  rw [put_of_not_mem _ hkey]
  rfl

/-- The members are read back from the first key on, and the object ends behind them. The induction
is on the members behind the first one. The keys are all different, so each is put at the end. -/
theorem readMembers_behind (limits : Limits) (depth : Nat) (ms : List (Text × Text))
    {m : Text × Text} {acc : List (Text × Json)}
    (hkeys : (acc.map Prod.fst ++ (m :: ms).map Prod.fst).Nodup) {fuel : Nat}
    (hfuel : ms.length + 2 ≤ fuel) (loc : Location) (s : Text) :
    ∃ loc', readMembers limits fuel depth acc
        ⟨loc, writeString m.1 ++ ':' :: ' ' :: (writeString m.2 ++ (behindMember ms ++ s))⟩ =
      .ok (acc ++ ofTexts (m :: ms), ⟨loc', s⟩) := by
  induction ms generalizing m acc fuel loc with
  | nil =>
      obtain ⟨fuel, rfl⟩ := Nat.exists_eq_add_of_le' (show 2 ≤ fuel by simpa using hfuel)
      have hkey : m.1 ∉ acc.map Prod.fst := fun h =>
        (List.nodup_append.1 hkeys).2.2 _ h _ List.mem_cons_self rfl
      obtain ⟨loc₁, h₁⟩ := readMembers_member limits fuel depth hkey loc (behindMember [] ++ s)
      have hend : skipBlanks ⟨loc₁, behindMember [] ++ s⟩ = ⟨loc₁.next '\n', '\x7d' :: s⟩ :=
        skipBlanks_append (w := ['\n']) (by simp [isBlank]) (by simp [isBlank]) loc₁
      refine ⟨(loc₁.next '\n').next '\x7d', ?_⟩
      rw [h₁]
      dsimp only
      rw [hend]
      rfl
  | cons m' ms ih =>
      obtain ⟨fuel, rfl⟩ := Nat.exists_eq_add_of_le' (Nat.le_trans (Nat.le_add_left 2 _) hfuel)
      have hkey : m.1 ∉ acc.map Prod.fst := fun h =>
        (List.nodup_append.1 hkeys).2.2 _ h _ List.mem_cons_self rfl
      obtain ⟨loc₁, h₁⟩ :=
        readMembers_member limits fuel depth hkey loc (behindMember (m' :: ms) ++ s)
      have hcomma : skipBlanks ⟨loc₁, behindMember (m' :: ms) ++ s⟩ =
          ⟨loc₁, behindMember (m' :: ms) ++ s⟩ :=
        skipBlanks_append (w := []) (by simp) (by simp [isBlank]) loc₁
      -- behind the comma the line feed and the indentation are skipped, and the next key follows
      have hnext : skipBlanks (Cursor.skip 1 ⟨loc₁, behindMember (m' :: ms) ++ s⟩) =
          ⟨(loc₁.next ',').after ['\n', ' ', ' '],
            writeString m'.1 ++ ':' :: ' ' :: (writeString m'.2 ++ (behindMember ms ++ s))⟩ := by
        have htext : behindMember (m' :: ms) ++ s = ',' :: (['\n', ' ', ' '] ++
            (writeString m'.1 ++ ':' :: ' ' :: (writeString m'.2 ++ (behindMember ms ++ s)))) := by
          simp [behindMember, writeMember_append]
        rw [htext]
        exact skipBlanks_append (by simp [isBlank]) (by simp [writeString, isBlank]) _
      have hkeys' : ((acc ++ [(m.1, Json.str m.2)]).map Prod.fst ++
          (m' :: ms).map Prod.fst).Nodup := by simpa using hkeys
      obtain ⟨loc₂, h₂⟩ := ih hkeys'
        (show ms.length + 2 ≤ fuel + 1 by simp only [List.length_cons] at hfuel; omega)
        ((loc₁.next ',').after ['\n', ' ', ' '])
      refine ⟨loc₂, ?_⟩
      rw [h₁]
      dsimp only
      rw [hcomma, if_neg (by simp [behindMember]), if_pos (by simp [behindMember]), hnext, h₂]
      simp [ofTexts]

/-- There is room for one container within any limits, because a limit on the nesting is not
zero. -/
theorem checkDepth_zero (limits : Limits) (kind : Container) :
    limits.checkDepth kind 0 = .ok () := by
  unfold Limits.checkDepth
  split
  · rfl
  · rename_i limit hlimit
    have hne : limit ≠ 0 := by
      rintro rfl
      exact limits.depth_ne hlimit
    exact if_neg (by omega)

/-- An object that starts with a key is read by its members. The blanks between the brace and the
key are skipped. -/
theorem readValue_object (limits : Limits) (fuel : Nat) {body : Text}
    (hbody : body.head? = some '\x22') (loc : Location) :
    ∃ loc', readValue limits (fuel + 1) 0 ⟨loc, '\x7b' :: '\n' :: ' ' :: ' ' :: body⟩ =
      (readMembers limits fuel 1 [] ⟨loc', body⟩).map fun r => (.obj r.1, r.2) := by
  obtain ⟨body, rfl⟩ := List.head?_eq_some_iff.1 hbody
  have hinner : skipBlanks (Cursor.skip 1 ⟨loc, '\x7b' :: '\n' :: ' ' :: ' ' :: '\x22' :: body⟩) =
      ⟨(loc.next '\x7b').after ['\n', ' ', ' '], '\x22' :: body⟩ :=
    skipBlanks_append (w := ['\n', ' ', ' ']) (by simp [isBlank]) (by simp [isBlank]) _
  refine ⟨(loc.next '\x7b').after ['\n', ' ', ' '], ?_⟩
  rw [readValue]
  dsimp only
  rw [checkDepth_zero]
  simp only [bind, Except.bind]
  rw [hinner, if_neg (by simp)]
  cases readMembers limits fuel 1 [] ⟨(loc.next '\x7b').after ['\n', ' ', ' '], '\x22' :: body⟩
  all_goals rfl

/-- The text of an object, from its first member on. -/
theorem writeObject_cons (m : Text × Text) (ms : List (Text × Text)) :
    writeObject (m :: ms) = '\x7b' :: '\n' :: ' ' :: ' ' ::
      (writeString m.1 ++ ':' :: ' ' :: (writeString m.2 ++ (behindMember ms ++ []))) := by
  have hjoin := join_writeMember m ms
  rw [writeMember_append] at hjoin
  rw [List.append_nil, ← hjoin]
  rfl

/-- **Reading undoes writing.** An object of texts with keys that are all different is read back
from its written form, whatever the limits: it holds no number and no other container. -/
theorem read_writeObject {ms : List (Text × Text)} (hne : ms ≠ [])
    (hkeys : (ms.map Prod.fst).Nodup) (limits : Limits) :
    read (writeObject ms) limits = .ok (.obj (ofTexts ms)) := by
  obtain ⟨m, ms, rfl⟩ := List.exists_cons_of_ne_nil hne
  rw [writeObject_cons]
  have hlength : ms.length <
      (writeString m.1 ++ ':' :: ' ' :: (writeString m.2 ++ (behindMember ms ++ []))).length := by
    have := length_le_behindMember ms
    simp only [List.length_cons, List.length_append]
    omega
  have hhead : (writeString m.1 ++ ':' :: ' ' ::
      (writeString m.2 ++ (behindMember ms ++ []))).head? = some '\x22' := rfl
  have hmembers : ∀ loc fuel, ms.length + 2 ≤ fuel →
      ∃ loc', readMembers limits fuel 1 [] ⟨loc, writeString m.1 ++ ':' :: ' ' ::
        (writeString m.2 ++ (behindMember ms ++ []))⟩ = .ok (ofTexts (m :: ms), ⟨loc', []⟩) :=
    fun loc fuel hfuel => readMembers_behind limits 1 ms (by simpa using hkeys) hfuel loc []
  -- from here on the text of the members is of no interest
  generalize writeString m.1 ++ ':' :: ' ' :: (writeString m.2 ++ (behindMember ms ++ [])) = body
    at hlength hhead hmembers ⊢
  obtain ⟨loc, hvalue⟩ := readValue_object limits
    (2 * ('\x7b' :: '\n' :: ' ' :: ' ' :: body).length + 1) hhead .start
  obtain ⟨loc', hread⟩ := hmembers loc (2 * ('\x7b' :: '\n' :: ' ' :: ' ' :: body).length + 1)
    (by simp only [List.length_cons]; omega)
  have hstart : skipBlanks ⟨.start, '\x7b' :: '\n' :: ' ' :: ' ' :: body⟩ =
      ⟨.start, '\x7b' :: '\n' :: ' ' :: ' ' :: body⟩ :=
    skipBlanks_append (w := []) (by simp) (by simp [isBlank]) _
  rw [read, if_neg (by simp), hstart, hvalue, hread]
  rfl

/-! ### The characters of a written object -/

/-- The character is a line feed, or it lies between the space and the tilde. -/
def IsBasic (c : Char) : Prop := c = '\n' ∨ 0x20 ≤ c.toNat ∧ c.toNat < 0x7F

/-- A hexadecimal digit is basic. -/
theorem isBasic_digitChar {d : Nat} (hd : d < 16) : IsBasic d.digitChar := by
  have h : ∀ d < 16, 0x20 ≤ d.digitChar.toNat ∧ d.digitChar.toNat < 0x7F := by decide
  exact .inr (h d hd)

/-- The characters of an escape are basic. -/
theorem isBasic_of_mem_unitEscape {n : Nat} (hn : n < 0x10000) {c : Char}
    (hc : c ∈ unitEscape n) : IsBasic c := by
  rw [← List.append_nil (unitEscape n), unitEscape_append, hex_four hn] at hc
  simp only [List.cons_append, List.nil_append, List.mem_cons, List.not_mem_nil, or_false] at hc
  rcases hc with rfl | rfl | rfl | rfl | rfl | rfl
  · exact .inr (by decide)
  · exact .inr (by decide)
  all_goals exact isBasic_digitChar (by omega)

/-- A letter that stands for a character behind a backslash is basic. -/
theorem isBasic_of_shortEscape? {c x : Char} (h : shortEscape? x = some c) : IsBasic x := by
  unfold shortEscape? at h
  split at h
  all_goals first
    | exact .inr (by decide)
    | cases h

/-- A character is written in basic characters, whatever it is. Characters beyond the first 128 are
written by their code units. -/
theorem isBasic_of_mem_writeChar {c d : Char} (hd : d ∈ writeChar c) : IsBasic d := by
  have hmax : c.toNat < 0x110000 := by
    have hvalid : c.toNat.isValidChar := c.valid
    omega
  rcases writeChar_cases c with ⟨h, -, -, hplain⟩ | ⟨x, h, -, hshort⟩ | ⟨hlt, h⟩ | ⟨-, h⟩ <;>
    rw [h] at hd
  · obtain rfl := List.mem_singleton.1 hd
    exact .inr hplain
  · simp only [List.mem_cons, List.not_mem_nil, or_false] at hd
    rcases hd with rfl | rfl
    · exact .inr (by decide)
    · exact isBasic_of_shortEscape? hshort
  · exact isBasic_of_mem_unitEscape hlt hd
  · rcases List.mem_append.1 hd with hd | hd
    · exact isBasic_of_mem_unitEscape (by omega) hd
    · exact isBasic_of_mem_unitEscape (by omega) hd

/-- A string is written in basic characters. -/
theorem isBasic_of_mem_writeString {t : Text} {d : Char} (hd : d ∈ writeString t) : IsBasic d := by
  simp only [writeString, List.cons_append, List.mem_cons, List.mem_append, List.mem_flatMap,
    List.not_mem_nil, or_false] at hd
  rcases hd with rfl | ⟨c, -, hd⟩ | rfl
  · exact .inr (by decide)
  · exact isBasic_of_mem_writeChar hd
  · exact .inr (by decide)

/-- The members are written in basic characters. -/
theorem isBasic_of_mem_behindMember {ms : List (Text × Text)} {d : Char}
    (hd : d ∈ behindMember ms) : IsBasic d := by
  induction ms with
  | nil =>
      simp only [behindMember, List.mem_cons, List.not_mem_nil, or_false] at hd
      rcases hd with rfl | rfl
      · exact .inl rfl
      · exact .inr (by decide)
  | cons m ms ih =>
      simp only [behindMember, writeMember_append, List.mem_cons, List.mem_append] at hd
      -- a comma, a line feed, two spaces, the key, a colon, a space, the value, and the members
      -- behind it
      rcases hd with rfl | rfl | rfl | rfl | hd | rfl | rfl | hd | hd
      · exact .inr (by decide)
      · exact .inl rfl
      · exact .inr (by decide)
      · exact .inr (by decide)
      · exact isBasic_of_mem_writeString hd
      · exact .inr (by decide)
      · exact .inr (by decide)
      · exact isBasic_of_mem_writeString hd
      · exact ih hd

/-- An object is written in basic characters. -/
theorem isBasic_of_mem_writeObject {ms : List (Text × Text)} (hne : ms ≠ []) {d : Char}
    (hd : d ∈ writeObject ms) : IsBasic d := by
  obtain ⟨m, ms, rfl⟩ := List.exists_cons_of_ne_nil hne
  -- but for its first character, the object is what would stand behind a further member
  have hobject : writeObject (m :: ms) = '\x7b' :: (behindMember (m :: ms)).tail := by
    rw [writeObject_cons, List.append_nil, ← writeMember_append]
    rfl
  rw [hobject] at hd
  rcases List.mem_cons.1 hd with rfl | hd
  · exact .inr (by decide)
  · exact isBasic_of_mem_behindMember (List.mem_of_mem_tail hd)

end CssHints.Json

namespace CssHints

/-- One of the first 128 characters is a byte by itself, and it is read back from that byte. Nothing
longer is needed here, since settings are written in these characters only. -/
theorem Utf8.decodeFrom_encodeChar {c : Char} (hc : c.toNat < 0x80) (pos : Nat) (bytes : Bytes) :
    Utf8.decodeFrom pos (Utf8.encodeChar c ++ bytes) =
      (Utf8.decodeFrom (pos + 1) bytes).map (c :: ·) := by
  have hbyte : c.toNat.toUInt8.toNat = c.toNat := by
    rw [Nat.toUInt8, UInt8.toNat_ofNat']
    omega
  have hlt : c.toNat.toUInt8 < 0x80 := by
    rw [UInt8.lt_iff_toNat_lt, hbyte]
    exact hc
  rw [Utf8.encodeChar, if_pos hc, List.singleton_append]
  conv => lhs; unfold Utf8.decodeFrom
  rw [if_pos hlt, hbyte, Char.ofNat_toNat]

/-- A text of the first 128 characters is read back from its bytes. -/
theorem Utf8.decode_encode {s : Text} (hs : ∀ c ∈ s, c.toNat < 0x80) :
    Utf8.decode (Utf8.encode s) = .ok s := by
  have hfrom : ∀ pos, Utf8.decodeFrom pos (Utf8.encode s) = .ok s := by
    induction s with
    | nil => exact fun _ => rfl
    | cons c s ih =>
        intro pos
        rw [Utf8.encode, List.flatMap_cons, Utf8.decodeFrom_encodeChar (hs c List.mem_cons_self)]
        have hrest := ih (fun d hd => hs d (List.mem_cons_of_mem _ hd)) (pos + 1)
        rw [Utf8.encode] at hrest
        rw [hrest]
        rfl
  exact hfrom 0

/-- **A written object in a file.** It is read back from the bytes of its text. Its characters are
basic, so each is one byte, and there is no carriage return for the ends of lines to be changed. -/
theorem Json.read_of_decode_encode {ms : List (Text × Text)} (hne : ms ≠ [])
    (hkeys : (ms.map Prod.fst).Nodup) (limits : Json.Limits) :
    ∃ source, Utf8.decode (Utf8.encode (Json.writeObject ms)) = .ok source ∧
      Json.read (Text.normalizeNewlines source) limits = .ok (.obj (Json.ofTexts ms)) := by
  have hbasic : ∀ c ∈ Json.writeObject ms, Json.IsBasic c := fun c hc =>
    Json.isBasic_of_mem_writeObject hne hc
  refine ⟨Json.writeObject ms, Utf8.decode_encode ?_, ?_⟩
  · intro c hc
    rcases hbasic c hc with rfl | h
    · decide
    · omega
  · -- a line feed is the only control character that is written, so reading changes no end of a
    -- line
    have hreturn : '\r' ∉ Json.writeObject ms := by
      intro hm
      rcases hbasic _ hm with h | h
      · exact absurd h (by decide)
      · exact absurd h.1 (by decide)
    rw [Text.normalizeNewlines_eq_self hreturn, Json.read_writeObject hne hkeys limits]

end CssHints
