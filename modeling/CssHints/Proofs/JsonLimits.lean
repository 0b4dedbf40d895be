import CssHints.Json.Reader

/-!
# `CssHints.Proofs.JsonLimits`: what the limits of the JSON reader decide

A reader with limits and the reader without them go through a text in step. They part only where the
one with limits gives up, and there it ends without looking at the rest.

* `read_givesUp`: with limits a text is read as without them, with the same value or the same fault
  at the same place, or it is given up.
* `within_of_read`: a value that was read holds no integer and no nesting beyond the limits.
* `exists_excess_of_not_within`: so a text whose value holds one is given up, whatever else it holds
  and however little of it is needed.

The converse of the last one fails, since a value tells less than its text: the members of an object
that stand under a repeated key are read like all others, and only the last of them stays.
-/

set_option autoImplicit false

namespace CssHints.Json

/-! ### A reader that gives up -/

/-- The first result is the second one, or the first reader has given up. This is how a reader with
limits compares with one that has none. -/
def GivesUp {α : Type} (a b : Except Refusal α) : Prop := a = b ∨ ∃ x, a = .error (.excess x)

namespace GivesUp

variable {α β : Type}

/-- Two readers with the same result are in step. -/
theorem refl (a : Except Refusal α) : GivesUp a a := .inl rfl

/-- Two readers in step stay in step with whatever they do next. If the first of them has given up
by then, it does nothing next. -/
theorem bind {a b : Except Refusal α} {f g : α → Except Refusal β} (h : GivesUp a b)
    (hnext : ∀ r, GivesUp (f r) (g r)) : GivesUp (a >>= f) (b >>= g) := by
  rcases h with rfl | ⟨x, rfl⟩
  · cases a with
    | error e => exact refl _
    | ok r => exact hnext r
  · exact .inr ⟨x, rfl⟩

/-- Changing what was read does not bring two readers out of step. -/
theorem map {a b : Except Refusal α} (h : GivesUp a b) (f : α → β) :
    GivesUp (a.map f) (b.map f) := by
  rcases h with rfl | ⟨x, rfl⟩
  · exact refl _
  · exact .inr ⟨x, rfl⟩

/-- Both readers look at the same text, so they take the same branch. -/
theorem ite {p : Prop} [Decidable p] {a b a' b' : Except Refusal α} (h : p → GivesUp a b)
    (h' : ¬p → GivesUp a' b') : GivesUp (if p then a else a') (if p then b else b') := by
  by_cases hp : p
  · rw [if_pos hp, if_pos hp]
    exact h hp
  · rw [if_neg hp, if_neg hp]
    exact h' hp

end GivesUp

/-- Without limits no number of digits is too many, so the check with limits passes or gives up. -/
theorem checkDigits_givesUp (limits : Limits) (count : Nat) :
    GivesUp (limits.checkDigits count) (Limits.unlimited.checkDigits count) := by
  unfold Limits.checkDigits
  split
  · exact .refl _
  · split
    · exact .inr ⟨_, rfl⟩
    · exact .refl _

/-- Without limits no nesting is too deep, so the check with limits passes or gives up. -/
theorem checkDepth_givesUp (limits : Limits) (kind : Container) (depth : Nat) :
    GivesUp (limits.checkDepth kind depth) (Limits.unlimited.checkDepth kind depth) := by
  unfold Limits.checkDepth
  split
  · exact .refl _
  · split
    · exact .inr ⟨_, rfl⟩
    · exact .refl _

/-- Words and numbers are read as without limits, or given up for their digits. -/
theorem readScalar_givesUp (limits : Limits) (cur : Cursor) :
    GivesUp (readScalar limits cur) (readScalar .unlimited cur) := by
  unfold readScalar
  split
  · exact .refl _
  · -- of the numbers only the integers are measured
    unfold readNumber
    refine .ite (fun _ => .refl _) fun _ => .ite (fun _ => ?_) fun _ => .refl _
    exact (checkDigits_givesUp limits _).map _

mutual

/-- A value is read as without limits, or given up. The three readers call each other with less
fuel, and the fuel is the same on both sides. -/
theorem readValue_givesUp (limits : Limits) : (fuel depth : Nat) → (cur : Cursor) →
    GivesUp (readValue limits fuel depth cur) (readValue .unlimited fuel depth cur)
  | 0, _, _ => .refl _
  | fuel + 1, depth, cur => by
      unfold readValue
      split
      · exact .refl _
      · refine (checkDepth_givesUp limits _ depth).bind fun _ => ?_
        refine .ite (fun _ => .refl _) fun _ => ?_
        exact (readMembers_givesUp limits fuel (depth + 1) [] _).bind fun _ => .refl _
      · refine (checkDepth_givesUp limits _ depth).bind fun _ => ?_
        refine .ite (fun _ => .refl _) fun _ => ?_
        exact (readItems_givesUp limits fuel (depth + 1) _).bind fun _ => .refl _
      · exact readScalar_givesUp limits cur

/-- The items of an array are read as without limits, or given up. -/
theorem readItems_givesUp (limits : Limits) : (fuel depth : Nat) → (cur : Cursor) →
    GivesUp (readItems limits fuel depth cur) (readItems .unlimited fuel depth cur)
  | 0, _, _ => .refl _
  | fuel + 1, depth, cur => by
      unfold readItems
      refine (readValue_givesUp limits fuel depth cur).bind fun _ => ?_
      refine .ite (fun _ => .refl _) fun _ => .ite (fun _ => ?_) fun _ => .refl _
      exact (readItems_givesUp limits fuel depth _).bind fun _ => .refl _

/-- The members of an object are read as without limits, or given up. Limits are looked at only
where a container is opened and where a number is read, so the reader takes the same way until
then. -/
theorem readMembers_givesUp (limits : Limits) : (fuel depth : Nat) →
    (members : List (Text × Json)) → (cur : Cursor) →
    GivesUp (readMembers limits fuel depth members cur)
      (readMembers .unlimited fuel depth members cur)
  | 0, _, _, _ => .refl _
  | fuel + 1, depth, members, cur => by
      unfold readMembers
      refine .ite (fun _ => .refl _) fun _ => ?_
      refine (GivesUp.refl _).bind fun _ => .ite (fun _ => .refl _) fun _ => ?_
      refine (readValue_givesUp limits fuel depth _).bind fun _ => ?_
      refine .ite (fun _ => .refl _) fun _ => .ite (fun _ => ?_) fun _ => .refl _
      exact readMembers_givesUp limits fuel depth _ _

end

/-- **Limits only cut.** A reader with limits gives up on a text, or it finds what the reader
without limits finds: the same value, or the same fault at the same place. -/
theorem read_givesUp (source : Text) (limits : Limits) :
    GivesUp (read source limits) (read source .unlimited) := by
  unfold read
  refine .ite (fun _ => .refl _) fun _ => ?_
  exact (readValue_givesUp limits _ 0 _).bind fun _ => .refl _

/-! ### Values within the limits -/

mutual

/-- The value is within the limits, where `depth` containers are open around it: no integer in it
has too many digits, and no container in it stands too deep. -/
def Within (limits : Limits) (depth : Nat) : Json → Prop
  | .int n => ∀ limit ∈ limits.digits, (Nat.toDigits 10 n.natAbs).length ≤ limit
  | .arr items => (∀ limit ∈ limits.depth, depth < limit) ∧ WithinItems limits (depth + 1) items
  | .obj members =>
    (∀ limit ∈ limits.depth, depth < limit) ∧ WithinMembers limits (depth + 1) members
  | _ => True

/-- Each of the values is within the limits. -/
def WithinItems (limits : Limits) (depth : Nat) : List Json → Prop
  | [] => True
  | v :: vs => Within limits depth v ∧ WithinItems limits depth vs

/-- The value of each member is within the limits. -/
def WithinMembers (limits : Limits) (depth : Nat) : List (Text × Json) → Prop
  | [] => True
  | m :: ms => Within limits depth m.2 ∧ WithinMembers limits depth ms

end

/-- Members within the limits stay so with one more, which may take the place of an earlier one. The
earlier value is dropped then, and nothing is nested deeper. -/
theorem WithinMembers.put {limits : Limits} {depth : Nat} {ms : List (Text × Json)}
    (h : WithinMembers limits depth ms) (key : Text) {v : Json} (hv : Within limits depth v) :
    WithinMembers limits depth (put key v ms) := by
  induction ms with
  | nil => exact ⟨hv, trivial⟩
  | cons m ms ih =>
      unfold Json.put
      split
      · exact ⟨hv, h.2⟩
      · exact ⟨h.1, ih h.2⟩

/-- Digits stand for a number that takes no more digits to write; zeros in front make it fewer. So a
limit on the digits of a source bounds the number that is read. -/
theorem length_toDigits_digitsValue {s : Text} (hne : s ≠ []) (h : ∀ c ∈ s, c.isDigit = true) :
    (Nat.toDigits 10 (digitsValue s)).length ≤ s.length := by
  -- the fold is generalized over the number that stands before the digits
  have key : ∀ n, s.foldl (fun n c => n * 10 + (c.toNat - '0'.toNat)) n <
      (n + 1) * Nat.pow 10 s.length := by
    clear hne
    induction s with
    | nil => simp
    | cons c s ih =>
        intro n
        have hdigit : c.toNat - '0'.toNat ≤ 9 := by
          have := h c List.mem_cons_self
          simp only [Char.isDigit, Bool.and_eq_true, decide_eq_true_eq] at this
          have hle : c.toNat ≤ 57 := this.2
          have : '0'.toNat = 48 := rfl
          omega
        have hrest := ih (fun d hd => h d (List.mem_cons_of_mem _ hd))
          (n * 10 + (c.toNat - '0'.toNat))
        refine Nat.lt_of_lt_of_le hrest ?_
        show _ ≤ (n + 1) * (Nat.pow 10 s.length * 10)
        rw [Nat.mul_comm (Nat.pow 10 s.length), ← Nat.mul_assoc]
        exact Nat.mul_le_mul_right _ (by omega)
  have hlt : digitsValue s < Nat.pow 10 s.length := by simpa [digitsValue] using key 0
  exact (Nat.length_toDigits_le_iff (by decide) (List.length_pos_iff.2 hne)).2 hlt

/-- The whole part of a number consists of digits. -/
theorem isDigit_of_mem_take_wholeLength {s : Text} {c : Char}
    (h : c ∈ s.take (wholeLength s)) : c.isDigit = true := by
  cases s with
  | nil => cases h
  | cons d s =>
      rw [wholeLength] at h
      split at h
      · -- a zero in front is the whole number
        rename_i hd
        obtain rfl : c = d := by simpa using h
        rw [hd]
        rfl
      · split at h
        · rename_i hd
          rw [Nat.add_comm, List.take_succ_cons, List.mem_cons,
            ← List.prefix_iff_eq_take.1 (List.takeWhile_prefix _)] at h
          rcases h with rfl | h
          · exact hd
          · exact List.all_eq_true.1 List.all_takeWhile c h
        · cases h

/-! ### What is read is within the limits -/

/-- Whatever the reader gives has the property. -/
def Ensures {α : Type} (P : α → Prop) (a : Except Refusal α) : Prop := ∀ r, a = .ok r → P r

namespace Ensures

variable {α β : Type} {P : α → Prop} {Q : β → Prop}

/-- A result with the property ensures it. -/
theorem ok {r : α} (h : P r) : Ensures P (.ok r) := by
  rintro r' ⟨⟩
  exact h

/-- A reader that fails ensures anything. -/
theorem error (e : Refusal) : Ensures P (.error e) := by
  rintro r ⟨⟩

/-- What a reader ensures may be used by whatever is done next. -/
theorem bind {a : Except Refusal α} {f : α → Except Refusal β} (h : Ensures P a)
    (hnext : ∀ r, P r → Ensures Q (f r)) : Ensures Q (a >>= f) := by
  cases a with
  | error e => exact error e
  | ok r => exact hnext r (h r rfl)

/-- What a reader ensures is carried along when its result is changed. -/
theorem map {a : Except Refusal α} {f : α → β} (h : Ensures P a) (hf : ∀ r, P r → Q (f r)) :
    Ensures Q (a.map f) := by
  cases a with
  | error e => exact error e
  | ok r => exact ok (hf r (h r rfl))

/-- Both branches must ensure the property, each under its own condition. -/
theorem ite {p : Prop} [Decidable p] {a b : Except Refusal α} (h : p → Ensures P a)
    (h' : ¬p → Ensures P b) : Ensures P (if p then a else b) := by
  by_cases hp : p
  · rw [if_pos hp]
    exact h hp
  · rw [if_neg hp]
    exact h' hp

end Ensures

/-- Behind the check for digits, their number is within the limit. Without a limit there is nothing
to show. -/
theorem checkDigits_ensures (limits : Limits) (count : Nat) :
    Ensures (fun _ => ∀ limit ∈ limits.digits, count ≤ limit) (limits.checkDigits count) := by
  unfold Limits.checkDigits
  split
  · rename_i hnone
    exact .ok (by simp [hnone])
  · rename_i limit hlimit
    split
    · exact .error _
    · exact .ok (by simp only [hlimit, Option.mem_def, Option.some.injEq]; omega)

/-- Behind the check for nesting, the number of open containers is below the limit, so there is room
for one more. -/
theorem checkDepth_ensures (limits : Limits) (kind : Container) (depth : Nat) :
    Ensures (fun _ => ∀ limit ∈ limits.depth, depth < limit) (limits.checkDepth kind depth) := by
  unfold Limits.checkDepth
  split
  · rename_i hnone
    exact .ok (by simp [hnone])
  · rename_i limit hlimit
    split
    · exact .error _
    · exact .ok (by simp only [hlimit, Option.mem_def, Option.some.injEq]; omega)

/-- A word or a number that was read is within the limits. Only integers have a limit, and it is
checked on the digits of the text, which are at least those of the number. -/
theorem readScalar_ensures (limits : Limits) (depth : Nat) (cur : Cursor) :
    Ensures (fun r => Within limits depth r.1) (readScalar limits cur) := by
  unfold readScalar
  split
  · rename_i w v hfind
    refine .ok ?_
    -- none of the words stands for an integer or a container
    have hwords : ∀ w ∈ words, Within limits depth w.2 := by simp [words, Within]
    exact hwords _ (List.mem_of_find?_eq_some hfind)
  · unfold readNumber
    refine .ite (fun _ => .error _) fun hne => .ite (fun _ => ?_) fun _ => .ok trivial
    refine (checkDigits_ensures limits _).map fun _ hcount => ?_
    intro limit hlimit
    generalize cur.rest.drop (if cur.rest.head? = some '-' then 1 else 0) = s at hne hcount ⊢
    have hvalue := length_toDigits_digitsValue hne fun c => isDigit_of_mem_take_wholeLength
    -- a sign does not count
    split
    all_goals simp only [Int.natAbs_neg, Int.natAbs_natCast]
    all_goals exact Nat.le_trans hvalue (hcount limit hlimit)

mutual

/-- A value that was read is within the limits, where `depth` containers are open around it. The
mutual recursion is that of the readers, with one check for each container and each number. -/
theorem readValue_ensures (limits : Limits) : (fuel depth : Nat) → (cur : Cursor) →
    Ensures (fun r => Within limits depth r.1) (readValue limits fuel depth cur)
  | 0, _, _ => .error _
  | fuel + 1, depth, cur => by
      unfold readValue
      split
      · exact Ensures.bind (P := fun _ => True) (fun _ _ => trivial) fun _ _ => .ok trivial
      · refine (checkDepth_ensures limits _ depth).bind fun _ hdepth => ?_
        refine .ite (fun _ => .ok ⟨hdepth, trivial⟩) fun _ => ?_
        refine (readMembers_ensures limits fuel (depth + 1) [] _ trivial).bind fun r hr => ?_
        exact .ok ⟨hdepth, hr⟩
      · refine (checkDepth_ensures limits _ depth).bind fun _ hdepth => ?_
        refine .ite (fun _ => .ok ⟨hdepth, trivial⟩) fun _ => ?_
        refine (readItems_ensures limits fuel (depth + 1) _).bind fun r hr => ?_
        exact .ok ⟨hdepth, hr⟩
      · exact readScalar_ensures limits depth cur

/-- The items of an array that was read are within the limits. -/
theorem readItems_ensures (limits : Limits) : (fuel depth : Nat) → (cur : Cursor) →
    Ensures (fun r => WithinItems limits depth r.1) (readItems limits fuel depth cur)
  | 0, _, _ => .error _
  | fuel + 1, depth, cur => by
      unfold readItems
      refine (readValue_ensures limits fuel depth cur).bind fun r hr => ?_
      refine .ite (fun _ => .ok ⟨hr, trivial⟩) fun _ => .ite (fun _ => ?_) fun _ => .error _
      refine (readItems_ensures limits fuel depth _).bind fun rs hrs => ?_
      exact .ok ⟨hr, hrs⟩

/-- The members of an object that was read are within the limits, if those that were there before
are. -/
theorem readMembers_ensures (limits : Limits) : (fuel depth : Nat) →
    (members : List (Text × Json)) → (cur : Cursor) → WithinMembers limits depth members →
    Ensures (fun r => WithinMembers limits depth r.1)
      (readMembers limits fuel depth members cur)
  | 0, _, _, _, _ => .error _
  | fuel + 1, depth, members, cur, h => by
      unfold readMembers
      refine .ite (fun _ => .error _) fun _ => ?_
      refine Ensures.bind (P := fun _ => True) (fun _ _ => trivial) fun key _ => ?_
      refine .ite (fun _ => .error _) fun _ => ?_
      refine (readValue_ensures limits fuel depth _).bind fun r hr => ?_
      -- a key that stands again takes the later value, and both are within the limits
      have hput := h.put key.1 hr
      refine .ite (fun _ => .ok hput) fun _ => .ite (fun _ => ?_) fun _ => .error _
      exact readMembers_ensures limits fuel depth _ _ hput

end

/-- What a reader gives is within its limits. -/
theorem within_of_read {source : Text} {limits : Limits} {v : Json}
    (h : read source limits = .ok v) : Within limits 0 v := by
  have hread : Ensures (Within limits 0) (read source limits) := by
    unfold read
    refine .ite (fun _ => .error _) fun _ => ?_
    refine (readValue_ensures limits _ 0 _).bind fun r hr => ?_
    exact .ite (fun _ => .ok hr) fun _ => .error _
  exact hread v h

/-- **A text beyond the limits.** If the value of a text holds an integer or a nesting beyond the
limits, then the text is given up, and neither a value nor a fault is found. -/
theorem exists_excess_of_not_within {source : Text} {limits : Limits} {v : Json}
    (hread : read source .unlimited = .ok v) (hv : ¬Within limits 0 v) :
    ∃ x, read source limits = .error (.excess x) := by
  rcases read_givesUp source limits with heq | hexcess
  · exact absurd (within_of_read (heq.trans hread)) hv
  · exact hexcess

end CssHints.Json
