import CssHints.Text.Basic

/-!
# `CssHints.Text.Letter`: lower case, as far as it reaches the Latin letters

Names are compared with fixed lower-case names. A character takes part in such a comparison
only through a lower case in `a` to `z`, and besides `A` to `Z` one character has it: the
Kelvin sign `212A`, whose lower case is `k`. All other characters stay as they are.
-/

set_option autoImplicit false

namespace CssHints.Text

/-- The lower case of a character, where it is a letter from `a` to `z`. -/
def lowerChar (c : Char) : Char :=
  if c = '\u212a' then 'k' else c.toLower

/-- A character that is not its own lower case is the Kelvin sign or a letter from `A` to `Z`.
Comparisons with fixed names ask for no more than that. -/
theorem lowerChar_cases (c : Char) :
    c = '\u212a' ∧ lowerChar c = 'k' ∨
      (65 ≤ c.toNat ∧ c.toNat ≤ 90) ∧ (lowerChar c).toNat = c.toNat + 32 ∨ lowerChar c = c := by
  rw [lowerChar]
  split
  · exact .inl ⟨‹_›, rfl⟩
  · delta Char.toLower
    split
    · rename_i hrange
      have hlo : 65 ≤ c.toNat := UInt32.le_iff_toNat_le.1 hrange.1
      have hhi : c.toNat ≤ 90 := UInt32.le_iff_toNat_le.1 hrange.2
      refine .inr (.inl ⟨⟨hlo, hhi⟩, ?_⟩)
      show (c.val + 32).toNat = c.toNat + 32
      rw [UInt32.toNat_add]
      exact Nat.mod_eq_of_lt (show c.toNat + 32 < 2 ^ 32 by omega)
    · exact .inr (.inr rfl)

/-- The text with each character in lower case. -/
def lower (s : Text) : Text := s.map lowerChar

/-- The character is a letter from `a` to `z` or a digit from `0` to `9`. -/
def isLowerAlphanum (c : Char) : Bool := c.isLower || c.isDigit

end CssHints.Text
