import CssHints.Proofs.FileEffects
import CssHints.Proofs.Meaning

/-!
# `CssHints.Proofs.PassThrough`: what becomes of a source that is no stylesheet

The command `transform` writes a source that cannot be read as a stylesheet to its output instead of
a result. The source has then gone through three changes of form: its bytes were decoded, the ends
of its lines were made line feeds, and the text was encoded again.

* Decoding and encoding lose nothing (`Utf8.encode_of_decode`): a character has only one sequence of
  bytes that is accepted for it.
* The ends of lines are lost: the text that is written has no carriage return
  (`Text.not_mem_normalizeNewlines`), and the byte of a carriage return is part of no other
  character (`Utf8.mem_encode_iff`).

So the output is the source byte for byte if and only if the source has no carriage return.
`run_passThrough` says so of a whole run.
-/

set_option autoImplicit false

namespace CssHints

/-! ### Bytes -/

namespace Utf8

/-- A number that is the value of a byte is that byte. -/
theorem toUInt8_eq {n : Nat} {a : UInt8} (h : n = a.toNat) : n.toUInt8 = a := by
  rw [h]
  exact UInt8.ofNat_toNat

/-- A number that is the code point of a character is the code point of the one it gives. -/
theorem toNat_ofNat {n : Nat} (h : n < 0xD800 ∨ 0xDFFF < n ∧ n < 0x110000) :
    (Char.ofNat n).toNat = n := by
  have hvalid : n.isValidChar := h
  rw [Char.ofNat, dif_pos hvalid]
  rfl

/-- The further bytes of a sequence, by their values. -/
theorem isTail_iff {b : UInt8} : isTail b = true ↔ 0x80 ≤ b.toNat ∧ b.toNat ≤ 0xBF := by
  simp [isTail, UInt8.le_iff_toNat_le]

/-- The second bytes of a sequence, by their values. Behind four of the first bytes fewer are
allowed: the others would give a second sequence for a character, or a number that is no code point
of one. -/
theorem isSecond_iff {a b : UInt8} : isSecond a b = true ↔
    (0x80 ≤ b.toNat ∧ b.toNat ≤ 0xBF) ∧ (a.toNat = 0xE0 → 0xA0 ≤ b.toNat) ∧
      (a.toNat = 0xED → b.toNat ≤ 0x9F) ∧ (a.toNat = 0xF0 → 0x90 ≤ b.toNat) ∧
      (a.toNat = 0xF4 → b.toNat ≤ 0x8F) := by
  simp only [isSecond, Bool.and_eq_true, Bool.or_eq_true, isTail_iff, decide_eq_true_eq, ne_eq,
    UInt8.le_iff_toNat_le, ← UInt8.toNat_inj, ← Decidable.imp_iff_not_or]
  exact ⟨fun h => ⟨h.1.1.1.1, h.1.1.1.2, h.1.1.2, h.1.2, h.2⟩,
    fun h => ⟨⟨⟨⟨h.1, h.2.1⟩, h.2.2.1⟩, h.2.2.2.1⟩, h.2.2.2.2⟩⟩

/-- A character below `80` is its own byte. -/
theorem encodeChar_one {a : UInt8} (ha : a.toNat < 0x80) :
    encodeChar (Char.ofNat a.toNat) = [a] := by
  rw [encodeChar, toNat_ofNat (.inl (by omega)), if_pos ha, toUInt8_eq rfl]

/-- The character that two bytes are read as is written as these two. -/
theorem encodeChar_two {a b : UInt8} (ha : 0xC2 ≤ a.toNat ∧ a.toNat < 0xE0)
    (hb : 0x80 ≤ b.toNat ∧ b.toNat ≤ 0xBF) :
    encodeChar (Char.ofNat ((a.toNat - 0xC0) * 0x40 + tailValue b)) = [a, b] := by
  unfold tailValue
  rw [encodeChar, toNat_ofNat (.inl (by omega)), if_neg (by omega), if_pos (by omega),
    toUInt8_eq (a := a) (by omega), toUInt8_eq (a := b) (by omega)]

/-- The character that three bytes are read as is written as these three. The bounds on the second
byte keep it above the characters with two bytes and outside the surrogates. -/
theorem encodeChar_three {a b c : UInt8} (ha : 0xE0 ≤ a.toNat ∧ a.toNat < 0xF0)
    (hb : isSecond a b = true) (hc : 0x80 ≤ c.toNat ∧ c.toNat ≤ 0xBF) :
    encodeChar (Char.ofNat ((a.toNat - 0xE0) * 0x1000 + tailValue b * 0x40 + tailValue c)) =
      [a, b, c] := by
  obtain ⟨htail, hlow, hhigh, -⟩ := isSecond_iff.1 hb
  unfold tailValue
  rw [encodeChar, toNat_ofNat (by omega), if_neg (by omega), if_neg (by omega), if_pos (by omega),
    toUInt8_eq (a := a) (by omega), toUInt8_eq (a := b) (by omega), toUInt8_eq (a := c) (by omega)]

/-- The character that four bytes are read as is written as these four. The bounds on the second
byte keep it above the characters with three bytes and below `110000`. -/
theorem encodeChar_four {a b c d : UInt8} (ha : 0xF0 ≤ a.toNat ∧ a.toNat ≤ 0xF4)
    (hb : isSecond a b = true) (hc : 0x80 ≤ c.toNat ∧ c.toNat ≤ 0xBF)
    (hd : 0x80 ≤ d.toNat ∧ d.toNat ≤ 0xBF) :
    encodeChar (Char.ofNat ((a.toNat - 0xF0) * 0x40000 + tailValue b * 0x1000 +
      tailValue c * 0x40 + tailValue d)) = [a, b, c, d] := by
  obtain ⟨htail, -, -, hlow, hhigh⟩ := isSecond_iff.1 hb
  unfold tailValue
  rw [encodeChar, toNat_ofNat (by omega), if_neg (by omega), if_neg (by omega), if_neg (by omega),
    toUInt8_eq (a := a) (by omega), toUInt8_eq (a := b) (by omega), toUInt8_eq (a := c) (by omega),
    toUInt8_eq (a := d) (by omega)]

/-- A text that starts with a character is written as the bytes of the two. -/
theorem encode_of_map {x : Except Fault Text} {c : Char} {s : Text} {bytes front : Bytes}
    (hx : ∀ t, x = .ok t → encode t = bytes) (hc : encodeChar c = front)
    (h : x.map (c :: ·) = .ok s) : encode s = front ++ bytes := by
  cases x with
  | error f => cases h
  | ok t =>
      cases h
      rw [encode, List.flatMap_cons, hc, ← encode, hx t rfl]

/-- The first bytes that are not refused lie between `C2` and `F4`. -/
theorem toNat_of_start {a : UInt8} (h : ¬(decide (a < 0xC2) || decide (0xF4 < a)) = true) :
    0xC2 ≤ a.toNat ∧ a.toNat ≤ 0xF4 := by
  simpa [UInt8.lt_iff_toNat_lt] using h

/-- Bytes that are decoded from some place on are what their text is written as. The cases are those
of the decoder: one for each length of a sequence, and those that it refuses. -/
theorem encode_of_decodeFrom {pos : Nat} {bytes : Bytes} {s : Text}
    (h : decodeFrom pos bytes = .ok s) : encode s = bytes := by
  fun_induction decodeFrom pos bytes generalizing s with
  | case1 => cases h; rfl
  | case2 pos a r ha ih =>
      exact encode_of_map (fun t => ih) (encodeChar_one (UInt8.lt_iff_toNat_lt.1 ha)) h
  | case6 pos a ha hstart b r hb hlead ih =>
      rw [UInt8.lt_iff_toNat_lt] at hlead
      have htail := (isSecond_iff.1 (by simpa using hb)).1
      exact encode_of_map (fun t => ih) (encodeChar_two ⟨(toNat_of_start hstart).1, hlead⟩ htail) h
  | case9 pos a ha hstart b hb hlead c r hc hlead' ih =>
      rw [UInt8.lt_iff_toNat_lt] at hlead hlead'
      exact encode_of_map (fun t => ih) (encodeChar_three ⟨Nat.not_lt.1 hlead, hlead'⟩
        (by simpa using hb) (isTail_iff.1 (by simpa using hc))) h
  | case12 pos a ha hstart b hb hlead c hc hlead' d r hd ih =>
      rw [UInt8.lt_iff_toNat_lt] at hlead'
      exact encode_of_map (fun t => ih) (encodeChar_four
        ⟨Nat.not_lt.1 hlead', (toNat_of_start hstart).2⟩ (by simpa using hb)
        (isTail_iff.1 (by simpa using hc)) (isTail_iff.1 (by simpa using hd))) h
  -- the other cases are the sequences that are refused
  | _ => cases h

/-- **Decoding loses nothing**: bytes that hold a text are what the text is written as. -/
theorem encode_of_decode {bytes : Bytes} {s : Text} (h : decode bytes = .ok s) :
    encode s = bytes :=
  encode_of_decodeFrom h

/-- A byte below `80` stands only for the character of that number, because all bytes of a longer
sequence are above. -/
theorem mem_encodeChar {a : UInt8} (ha : a.toNat < 0x80) {c : Char} (h : a ∈ encodeChar c) :
    c.toNat = a.toNat := by
  have hmax : c.toNat < 0x110000 := by
    rcases c.valid with hlow | ⟨-, hhigh⟩
    · exact Nat.lt_trans hlow (by decide)
    · exact hhigh
  have hbyte (n : Nat) : a = n.toUInt8 ↔ a.toNat = n % 256 := by
    rw [← UInt8.toNat_inj, Nat.toUInt8, UInt8.toNat_ofNat']
  simp only [encodeChar] at h
  split at h
  · rw [List.mem_singleton, hbyte] at h
    omega
  -- the bytes of a longer sequence are all above
  · split at h
    · simp only [List.mem_cons, List.not_mem_nil, or_false, hbyte] at h
      omega
    · split at h
      · simp only [List.mem_cons, List.not_mem_nil, or_false, hbyte] at h
        omega
      · simp only [List.mem_cons, List.not_mem_nil, or_false, hbyte] at h
        omega

/-- The byte of a carriage return is among the bytes of a text just if the text has one. -/
theorem mem_encode_iff {s : Text} : (0x0D : UInt8) ∈ encode s ↔ '\r' ∈ s := by
  rw [encode, List.mem_flatMap]
  refine ⟨?_, fun h => ⟨'\r', h, by decide⟩⟩
  rintro ⟨c, hc, hbyte⟩
  have hcode : c.toNat = '\r'.toNat := mem_encodeChar (by decide) hbyte
  rw [← Char.ofNat_toNat c, hcode] at hc
  exact hc

end Utf8

/-! ### The ends of lines -/

namespace Text

/-- A text that was read has no carriage return. -/
theorem not_mem_normalizeNewlines (s : Text) : '\r' ∉ normalizeNewlines s := by
  fun_induction normalizeNewlines s with
  | case1 => simp
  | case2 s ih => simpa using ih
  | case3 c s _ ih =>
      by_cases hc : c = '\r'
      · simpa [hc] using ih
      · simpa [hc, Ne.symm hc] using ih

end Text

/-! ### The run -/

namespace FileTree

/-- The path names a file, or a place where a file can be made. -/
def CanWrite (tree : FileTree) (path : Text) : Prop :=
  ∃ names, (∃ old, tree.lookup path = .file names old) ∨ tree.lookup path = .absent names

/-- Where a file can be written, writing it succeeds, whatever the content. -/
theorem CanWrite.exists_write {tree : FileTree} {path : Text} (h : tree.CanWrite path)
    (content : Bytes) : ∃ after, tree.write path content = .ok after := by
  obtain ⟨names, ⟨old, hfile⟩ | habsent⟩ := h
  · exact ⟨_, by rw [write, hfile]⟩
  · exact ⟨_, by rw [write, habsent]⟩

/-- What was put at a path is read there. -/
theorem Replaces.read_eq {tree after : FileTree} {path : Text} {content : Bytes}
    (h : tree.Replaces path content after) : after.read path = .ok content := by
  obtain ⟨names, -, hafter, -⟩ := h
  rw [read, hafter]

end FileTree

namespace Command

/-- The text that is read from bytes, encoded again, is these bytes just if none of them is a
carriage return. What is written has none, and without one the ends of lines stay as they are. -/
theorem encode_of_readText {bytes : Bytes} {css : Text} (h : readText bytes = .ok css) :
    Utf8.encode css = bytes ↔ (0x0D : UInt8) ∉ bytes := by
  unfold readText at h
  cases hdecode : Utf8.decode bytes with
  | error f =>
      rw [hdecode] at h
      cases h
  | ok s =>
      rw [hdecode] at h
      cases h
      have hbytes := Utf8.encode_of_decode hdecode
      refine ⟨fun hsame => ?_, fun hno => ?_⟩
      · rw [← hsame, Utf8.mem_encode_iff]
        exact Text.not_mem_normalizeNewlines s
      · rw [← hbytes, Utf8.mem_encode_iff] at hno
        rw [Text.normalizeNewlines_eq_self hno, hbytes]

/-- With settings, a source that is no stylesheet and a place to write to, `transform` ends well and
writes the text that it has read. -/
theorem runTransform_of_failure {tree : FileTree} {inputs : Inputs} {r : TransformRequest}
    {limits : Json.Limits} {config : Config} {css : Text} {e : SourceError}
    (hstrict : r.strict = false)
    (hconfig : loadConfig inputs.config r.config limits = .ok config)
    (hread : readText inputs.source = .ok css) (herror : Stylesheet.ofSource css = .error e)
    (houtput : r.output ≠ ['-']) (hwrite : tree.CanWrite r.output) :
    (runTransform tree inputs r limits).ending = .success ∧
      tree.Replaces r.output (Utf8.encode css) (runTransform tree inputs r limits).files := by
  obtain ⟨after, hafter⟩ := hwrite.exists_write (Utf8.encode css)
  -- the report has the source as its output
  obtain ⟨notices, hreport⟩ :=
    accelerate_of_error herror config (if r.compact then .compact else .spaced) []
  have hwritten : writeOutput tree r.output css = .ok ⟨[], after⟩ := by
    rw [writeOutput, if_neg houtput, hafter]
    rfl
  rw [runTransform, hconfig]
  dsimp only
  rw [hread]
  dsimp only
  rw [hreport, if_neg (by simp [hstrict])]
  dsimp only
  rw [hwritten]
  exact ⟨rfl, FileTree.replaces_of_write hafter⟩

/-- **What becomes of a source that is no stylesheet.** A `transform` that is not strict ends well
and leaves the text of the source, as it was read, in the output file and all else as it was. The
output file has the bytes of the source if and only if no carriage return is among them. -/
theorem run_passThrough (args : List Text) (r : TransformRequest)
    (hrequest : Request.ofArguments args = .ok (.transform r)) (hstrict : r.strict = false)
    (tree : FileTree) (stdin : Bytes) (limits : Json.Limits) (inputs : Inputs)
    (hinputs : openInputs tree stdin r.source r.config = .ok inputs) (config : Config)
    (hconfig : loadConfig inputs.config r.config limits = .ok config) (css : Text)
    (hread : readText inputs.source = .ok css) (e : SourceError)
    (herror : Stylesheet.ofSource css = .error e) (houtput : r.output ≠ ['-'])
    (hwrite : tree.CanWrite r.output) :
    (run args tree stdin limits).ending.exitCode = 0 ∧
      tree.Replaces r.output (Utf8.encode css) (run args tree stdin limits).files ∧
      ((run args tree stdin limits).files.read r.output = .ok inputs.source ↔
        (0x0D : UInt8) ∉ inputs.source) := by
  have hrun : run args tree stdin limits = runTransform tree inputs r limits := by
    rw [run_of_ofArguments hrequest, serve, hinputs]
    rfl
  obtain ⟨hending, hfiles⟩ :=
    runTransform_of_failure hstrict hconfig hread herror houtput hwrite
  rw [hrun]
  refine ⟨(Ending.exitCode_eq_zero_iff _).2 hending, hfiles, ?_⟩
  -- what is read back was written from the text, in which the ends of lines are already changed
  rw [hfiles.read_eq, Except.ok.injEq]
  exact encode_of_readText hread

/-- A file with an open block whose line ends with a carriage return and a line feed. -/
def brokenFile : FileTree := { files := [(["a"], Utf8.encode "b\x7b\r\n")] }

/-- The output lacks the carriage return. -/
theorem run_passThrough_carriageReturn :
    (run ["transform", "a", "-o", "c"] brokenFile []).ending.exitCode = 0 ∧
      (run ["transform", "a", "-o", "c"] brokenFile []).files.read "c" ≠
        .ok (Utf8.encode "b\x7b\r\n") := by
  have hnone : (Stylesheet.ofSource "b\x7b\n").toOption = none := by decide +kernel
  obtain ⟨e, herror⟩ : ∃ e, Stylesheet.ofSource "b\x7b\n" = .error e := by
    cases h : Stylesheet.ofSource "b\x7b\n" with
    | error e => exact ⟨e, rfl⟩
    | ok sheet =>
        rw [h] at hnone
        cases hnone
  obtain ⟨hcode, -, hiff⟩ := run_passThrough ["transform", "a", "-o", "c"] _ rfl rfl brokenFile []
    .standard ⟨Utf8.encode "b\x7b\r\n", none⟩ rfl _ rfl "b\x7b\n" rfl e herror (by decide)
    ⟨["c"], .inr rfl⟩
  exact ⟨hcode, fun h => hiff.1 h (by decide)⟩

end Command

end CssHints
