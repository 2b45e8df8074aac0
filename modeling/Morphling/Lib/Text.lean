import Mathlib.Algebra.Ring.Nat
import Mathlib.Data.List.DropRight

/-!
# Text

A text is a list of characters. `pieces` cuts it at a delimiter the way repeated `std::getline`
does, `trim` strips both ends, `readInt` is `operator>>` of an integer without its range check, and
`showInt` prints an integer in decimal.

* `pieces_append`, `pieces_of_notMem`: the pieces of a text that was put together from them.
* `trim_trim`, `trim_eq_self`, `trim_congr`: stripping twice, stripping nothing, and stripping by two
  sets of characters that agree on the text.
* `toInt_eq_some_iff`: the texts that are integers; `toInt_showInt`: what was printed is read back.
-/

namespace Morphling.Text

open List

-- What holds of the characters of a text is decided by going through the text, not through all
-- characters.
instance decidableForallMem {p : Char → Prop} [DecidablePred p] (s : List Char) :
    Decidable (∀ c ∈ s, p c) :=
  List.decidableBAll p s

/-- The characters of `isspace`. -/
def isSpace (c : Char) : Bool := c ∈ [' ', '\t', '\n', '\x0b', '\x0c', '\r']

/-! ## Pieces -/

/-- What `std::getline` with this delimiter returns, until it fails: there is no piece after a
delimiter at the end. -/
def pieces (delim : Char) : List Char → List (List Char)
  | [] => []
  | c :: s =>
    if c = delim then [] :: pieces delim s
    else
      match pieces delim s with
      | [] => [[c]]
      | piece :: rest => (c :: piece) :: rest

variable {delim : Char} {s t : List Char}

/-- A piece that ends with a delimiter. -/
theorem pieces_append (h : delim ∉ s) : pieces delim (s ++ delim :: t) = s :: pieces delim t := by
  induction s with
  | nil => simp [pieces]
  | cons c s ih =>
    simp only [mem_cons, not_or] at h
    simp [pieces, ih h.2, Ne.symm h.1]

/-- The piece at the end of the text. -/
theorem pieces_of_notMem (h : delim ∉ s) (hne : s ≠ []) : pieces delim s = [s] := by
  induction s with
  | nil => exact absurd rfl hne
  | cons c s ih =>
    simp only [mem_cons, not_or] at h
    by_cases hs : s = []
    · subst hs
      simp [pieces, Ne.symm h.1]
    · simp [pieces, ih h.2 hs, Ne.symm h.1]

/-- `str.split`: there is always a piece after the last delimiter. -/
def split (delim : Char) : List Char → List (List Char)
  | [] => [[]]
  | c :: s =>
    if c = delim then [] :: split delim s
    else
      match split delim s with
      | [] => [[c]]
      | piece :: rest => (c :: piece) :: rest

theorem split_append (h : delim ∉ s) : split delim (s ++ delim :: t) = s :: split delim t := by
  induction s with
  | nil => simp [split]
  | cons c s ih =>
    simp only [mem_cons, not_or] at h
    simp [split, ih h.2, Ne.symm h.1]

/-! ## Stripping -/

/-- The text without the characters `p` at its two ends. -/
def trim (p : Char → Bool) (s : List Char) : List Char := (s.dropWhile p).rdropWhile p

variable {p q : Char → Bool} {c : Char} {n : Int}

theorem trim_eq_self (h : ∀ c ∈ s, p c = false) : trim p s = s := by
  have hdrop : s.dropWhile p = s := by
    cases s with
    | nil => rfl
    | cons c s => simp [h c]
  rw [trim, hdrop, rdropWhile_eq_self_iff]
  intro hne
  simp [h _ (getLast_mem hne)]

theorem dropWhile_rdropWhile (hs : s.dropWhile p = s) :
    (s.rdropWhile p).dropWhile p = s.rdropWhile p := by
  have hpre : s.rdropWhile p <+: s := rdropWhile_prefix p s
  cases hr : s.rdropWhile p with
  | nil => rfl
  | cons c r =>
    rw [hr] at hpre
    obtain ⟨u, hu⟩ := hpre
    rw [← hu] at hs
    by_contra hne
    cases hc : p c with
    | false => exact hne (by simp [hc])
    | true =>
      have hlen := congrArg List.length hs
      have hle := (dropWhile_sublist p (l := r ++ u)).length_le
      simp [hc] at hlen
      simp at hle
      omega

theorem dropWhile_of_trim (h : trim p s = s) : s.dropWhile p = s := by
  refine (dropWhile_sublist p).eq_of_length_le ?_
  have hlen := ( rdropWhile_prefix p (s.dropWhile p)).length_le
  rw [trim] at h
  rwa [h] at hlen

theorem trim_trim (p : Char → Bool) (s : List Char) : trim p (trim p s) = trim p s := by
  have h : (trim p s).dropWhile p = trim p s :=
    dropWhile_rdropWhile (dropWhile_idempotent p s)
  rw [trim, h, trim, rdropWhile_idempotent]

theorem dropWhile_congr (h : ∀ c ∈ s, p c = q c) : s.dropWhile p = s.dropWhile q := by
  induction s with
  | nil => rfl
  | cons c s ih =>
    have hs : ∀ d ∈ s, p d = q d := fun d hd => h d (mem_cons_of_mem _ hd)
    simp only [dropWhile_cons, h c mem_cons_self, ih hs]

theorem trim_congr (h : ∀ c ∈ s, p c = q c) : trim p s = trim q s := by
  rw [trim, dropWhile_congr h, trim, List.rdropWhile, List.rdropWhile, dropWhile_congr]
  intro c hc
  exact h c ((dropWhile_sublist q).subset (mem_reverse.mp hc))

/-- A character that is not stripped keeps what is before it. -/
theorem trim_append_cons {d : Char} (hs : (s ++ d :: t).dropWhile p = s ++ d :: t)
    (hd : p d = false) : trim p (s ++ d :: t) = s ++ d :: t.rdropWhile p := by
  rw [trim, hs, List.rdropWhile, reverse_append, reverse_cons, append_assoc,
    singleton_append, dropWhile_append]
  split
  · rename_i h
    have ht : t.rdropWhile p = [] := by
      rw [List.rdropWhile, List.isEmpty_iff.mp h, reverse_nil]
    rw [dropWhile_cons_of_neg (by simp [hd]), ht]
    simp
  · rw [reverse_append, reverse_cons, reverse_reverse, List.rdropWhile]
    simp

/-! ## Integers -/

/-- A sign, if there is one. -/
def readSign : List Char → Int × List Char
  | '-' :: s => (-1, s)
  | '+' :: s => (1, s)
  | s => (1, s)

/-- The digits at the start of the text. -/
def readNat (s : List Char) : Option (Nat × List Char) :=
  let digits := s.takeWhile Char.isDigit
  if digits = [] then none else some (Nat.ofDigitChars 10 digits 0, s.dropWhile Char.isDigit)

/-- `operator>>` of an integer type, before the value is checked against the type: white space, a
sign and the digits that follow. -/
def readInt (s : List Char) : Option (Int × List Char) :=
  let (sign, s) := readSign (s.dropWhile isSpace)
  (readNat s).map fun (n, rest) => (sign * n, rest)

/-- The integer that the text is, as a whole. -/
def toInt (s : List Char) : Option Int :=
  match readInt s with
  | some (n, []) => some n
  | _ => none

/-- The decimal digits of an integer, after its sign. -/
def showInt : Int → List Char
  | .ofNat n => Nat.toDigits 10 n
  | .negSucc n => '-' :: Nat.toDigits 10 (n + 1)

theorem isSpace_of_isDigit (h : c.isDigit = true) : isSpace c = false := by
  have hne : ∀ d : Char, d.isDigit = false → c ≠ d := by
    rintro d hd rfl
    simp [hd] at h
  simp [isSpace, hne]

theorem readSign_of_isDigit (h : c.isDigit = true) : readSign (c :: s) = (1, c :: s) := by
  unfold readSign
  split
  · rename_i heq
    cases heq
    cases h
  · rename_i heq
    cases heq
    cases h
  · rfl

/-- A text of digits, and nothing else. -/
theorem readNat_eq_some_iff {n : Nat} :
    readNat s = some (n, []) ↔
      s ≠ [] ∧ (∀ c ∈ s, c.isDigit = true) ∧ n = Nat.ofDigitChars 10 s 0 := by
  simp only [readNat]
  constructor
  · intro h
    split at h
    · cases h
    · rename_i hne
      simp only [Option.some.injEq, Prod.mk.injEq, dropWhile_eq_nil_iff] at h
      obtain ⟨rfl, hall⟩ := h
      rw [takeWhile_eq_self_iff.mpr hall] at hne ⊢
      exact ⟨hne, hall, rfl⟩
  · rintro ⟨hne, hall, rfl⟩
    rw [takeWhile_eq_self_iff.mpr hall, if_neg hne, dropWhile_eq_nil_iff.mpr hall]

/-- A text is an integer where it is white space, a sign or none, and digits. -/
theorem toInt_eq_some_iff : toInt s = some n ↔ let digits := (readSign (s.dropWhile isSpace)).2
      digits ≠ [] ∧ (∀ c ∈ digits, c.isDigit = true) ∧
        n = (readSign (s.dropWhile isSpace)).1 * Nat.ofDigitChars 10 digits 0 := by
  simp only [toInt, readInt]
  generalize readSign (s.dropWhile isSpace) = r
  obtain ⟨sign, digits⟩ := r
  constructor
  · intro h
    split at h
    · rename_i m heq
      obtain ⟨⟨k, rest⟩, hread, hpair⟩ := Option.map_eq_some_iff.mp heq
      simp only [Prod.mk.injEq] at hpair
      obtain ⟨rfl, rfl⟩ := hpair
      obtain ⟨hne, hall, rfl⟩ := readNat_eq_some_iff.mp hread
      exact ⟨hne, hall, (Option.some.inj h).symm⟩
    · cases h
  · rintro ⟨hne, hall, rfl⟩
    simp [readNat_eq_some_iff.mpr ⟨hne, hall, rfl⟩]

theorem isDigit_of_mem_toDigits {n : Nat} (h : c ∈ Nat.toDigits 10 n) : c.isDigit = true :=
  Nat.isDigit_of_mem_toDigits (by decide) (by decide) h

theorem dropWhile_isSpace_toDigits (n : Nat) :
    (Nat.toDigits 10 n).dropWhile isSpace = Nat.toDigits 10 n := by
  cases h : Nat.toDigits 10 n with
  | nil => rfl
  | cons c s =>
    have hc : c.isDigit = true := isDigit_of_mem_toDigits (n := n) (by simp [h])
    simp [isSpace_of_isDigit hc]

theorem readSign_toDigits (n : Nat) :
    readSign (Nat.toDigits 10 n) = (1, Nat.toDigits 10 n) := by
  cases h : Nat.toDigits 10 n with
  | nil => exact absurd h Nat.toDigits_ne_nil
  | cons c s => exact readSign_of_isDigit (isDigit_of_mem_toDigits (n := n) (by simp [h]))

/-- What was printed is read back. -/
theorem toInt_showInt (n : Int) : toInt (showInt n) = some n := by
  rw [toInt_eq_some_iff]
  cases n with
  | ofNat n =>
    simp only [showInt, dropWhile_isSpace_toDigits, readSign_toDigits]
    exact ⟨Nat.toDigits_ne_nil, fun _ => isDigit_of_mem_toDigits,
      by simp [Nat.ofDigitChars_ten_toDigits]⟩
  | negSucc n =>
    have hdrop : ('-' :: Nat.toDigits 10 (n + 1)).dropWhile isSpace
        = '-' :: Nat.toDigits 10 (n + 1) := by
      simp [isSpace]
    simp only [showInt, hdrop, readSign]
    exact ⟨Nat.toDigits_ne_nil, fun _ => isDigit_of_mem_toDigits,
      by rw [Nat.ofDigitChars_ten_toDigits]; omega⟩

/-- The characters of a printed integer. -/
theorem mem_showInt (h : c ∈ showInt n) : c = '-' ∨ c.isDigit = true := by
  cases n with
  | ofNat n => exact .inr (isDigit_of_mem_toDigits h)
  | negSucc n => exact (mem_cons.mp h).imp_right isDigit_of_mem_toDigits

theorem length_showInt {k : Nat} (hk : 0 < k) (h : n.natAbs < 10 ^ k) :
    (showInt n).length ≤ k + 1 := by
  cases n with
  | ofNat n =>
    exact Nat.le_succ_of_le ((Nat.length_toDigits_le_iff (b := 10) (by decide) hk).mpr h)
  | negSucc n =>
    exact Nat.succ_le_succ ((Nat.length_toDigits_le_iff (b := 10) (by decide) hk).mpr h)

theorem showInt_ne_nil (n : Int) : showInt n ≠ [] := by
  cases n with
  | ofNat n => exact Nat.toDigits_ne_nil
  | negSucc n => exact cons_ne_nil _ _

end Morphling.Text
