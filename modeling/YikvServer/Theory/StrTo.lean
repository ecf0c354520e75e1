import YikvServer.Theory.DecimalText

/-!
# The `strtol` family

C's conversions of a text to an integer, in base 10. White space and a sign may stand
before the digits; the conversion reads as many digits as there are and says where it has
stopped, and without a digit it reads nothing. The signed ones saturate; the unsigned ones
negate in the unsigned type and saturate at the top only. What a whole text denotes is
stated apart from how it is read.
-/
namespace YikvServer.Theory.StrTo

open YikvServer.Theory.DecimalText

/-- The integer at the start of the text, and the text from `endptr` on. -/
def scan (text : List Char) : Option Int × List Char :=
  let (negative, unsigned) := splitSign (text.dropWhile isSpace)
  let digits := unsigned.takeWhile Char.isDigit
  if digits = [] then (none, text)
  else (some (if negative then -(value digits : Int) else value digits),
    unsigned.dropWhile Char.isDigit)

/-- `strtol` into a type of this range. -/
def strtol (lo hi : Int) (text : List Char) : Int × List Char :=
  match scan text with
  | (none, rest) => (0, rest)
  | (some v, rest) => (max lo (min hi v), rest)

/-- `strtoul` into a type of this many bits. -/
def strtoul (bits : Nat) (text : List Char) : Nat :=
  match scan text with
  | (none, _) => 0
  | (some v, _) =>
    if (2 : Int) ^ bits ≤ v.natAbs then 2 ^ bits - 1 else (v % 2 ^ bits).toNat

/-- The text is one decimal integer, with white space and a sign before it or without. -/
def Denotes (text : List Char) (v : Int) : Prop :=
  ∃ blanks sign digits, text = blanks ++ (sign ++ digits) ∧ (∀ c ∈ blanks, isSpace c = true) ∧
    digits ≠ [] ∧ (∀ c ∈ digits, c.isDigit = true) ∧
    ((sign = [] ∨ sign = ['+']) ∧ v = value digits ∨ sign = ['-'] ∧ v = -(value digits : Int))

variable {text : List Char} {lo hi v v' : Int} {digits : List Char}

theorem takeWhile_all_digits (hd : ∀ c ∈ digits, c.isDigit = true) :
    digits.takeWhile Char.isDigit = digits ∧ digits.dropWhile Char.isDigit = [] :=
  ⟨List.takeWhile_eq_self_iff.mpr hd, List.dropWhile_eq_nil_iff.mpr hd⟩

theorem dropWhile_blanks {blanks rest : List Char} (hb : ∀ c ∈ blanks, isSpace c = true)
    (hr : ∀ c ∈ rest.head?, isSpace c = false) : (blanks ++ rest).dropWhile isSpace = rest := by
  rw [List.dropWhile_append_of_pos hb]
  cases rest with
  | nil => rfl
  | cons c cs => simp [hr c rfl]

/-- Reading a sign and digits. -/
theorem splitSign_append {sign : List Char} (hne : digits ≠ [])
    (hd : ∀ c ∈ digits, c.isDigit = true) (hs : sign = [] ∨ sign = ['+'] ∨ sign = ['-']) :
    splitSign (sign ++ digits) = (decide (sign = ['-']), digits) ∧
      ∀ c ∈ (sign ++ digits).head?, isSpace c = false := by
  rcases hs with rfl | rfl | rfl
  · cases digits with
    | nil => exact absurd rfl hne
    | cons d ds =>
      have hdigit := hd d List.mem_cons_self
      refine ⟨splitSign_digit hdigit ds, fun c hc => ?_⟩
      obtain rfl := Option.some.inj hc
      exact not_isSpace_of_isDigit hdigit
  · exact ⟨rfl, fun c hc => Option.some.inj hc ▸ rfl⟩
  · exact ⟨rfl, fun c hc => Option.some.inj hc ▸ rfl⟩

/-- Splitting the sign off loses nothing. -/
theorem splitSign_sign (text : List Char) : ∃ sign, text = sign ++ (splitSign text).2 ∧
    ((sign = [] ∨ sign = ['+']) ∧ (splitSign text).1 = false ∨
      sign = ['-'] ∧ (splitSign text).1 = true) := by
  unfold splitSign
  split
  · exact ⟨['-'], rfl, Or.inr ⟨rfl, rfl⟩⟩
  · exact ⟨['+'], rfl, Or.inl ⟨Or.inr rfl, rfl⟩⟩
  · exact ⟨[], rfl, Or.inl ⟨Or.inl rfl, rfl⟩⟩

/-- A text is read to its end as the integer that it denotes. -/
theorem scan_eq_whole : scan text = (some v, []) ↔ Denotes text v := by
  constructor
  · intro h
    obtain ⟨sign, hrest, hsign⟩ := splitSign_sign (text.dropWhile isSpace)
    dsimp only [scan] at h
    generalize hsplit : splitSign (text.dropWhile isSpace) = split at h hrest hsign
    obtain ⟨negative, unsigned⟩ := split
    dsimp only at h hrest hsign
    split at h
    · cases h
    · rename_i hne
      obtain ⟨hv, hend⟩ := Prod.mk.inj h
      have hunsigned : unsigned = unsigned.takeWhile Char.isDigit := by
        have hsplit := List.takeWhile_append_dropWhile (p := Char.isDigit) (l := unsigned)
        rw [hend, List.append_nil] at hsplit
        exact hsplit.symm
      refine ⟨text.takeWhile isSpace, sign, unsigned.takeWhile Char.isDigit, ?_,
        fun c hc => List.mem_takeWhile_imp hc, hne, fun c hc => List.mem_takeWhile_imp hc, ?_⟩
      · rw [← hunsigned, ← hrest, List.takeWhile_append_dropWhile]
      · have hv := Option.some.inj hv
        rcases hsign with ⟨hs, rfl⟩ | ⟨hs, rfl⟩
        · exact Or.inl ⟨hs, hv.symm⟩
        · exact Or.inr ⟨hs, hv.symm⟩
  · rintro ⟨blanks, sign, digits, rfl, hblanks, hne, hdigits, hsign⟩
    have hs : sign = [] ∨ sign = ['+'] ∨ sign = ['-'] := by
      rcases hsign with ⟨hs, -⟩ | ⟨hs, -⟩
      · exact hs.imp_right Or.inl
      · exact Or.inr (Or.inr hs)
    obtain ⟨hsplit, hhead⟩ := splitSign_append hne hdigits hs
    obtain ⟨htake, hdrop⟩ := takeWhile_all_digits hdigits
    simp only [scan, dropWhile_blanks hblanks hhead, hsplit, htake, hdrop, hne, if_false]
    rcases hsign with ⟨rfl | rfl, rfl⟩ | ⟨rfl, rfl⟩ <;> rfl

theorem Denotes.unique (h : Denotes text v) (h' : Denotes text v') : v = v' := by
  have hscan := (scan_eq_whole.mpr h).symm.trans (scan_eq_whole.mpr h')
  exact Option.some.inj (Prod.mk.inj hscan).1

/-- A text that is read to its end is empty or denotes an integer. -/
theorem scan_rest_nil (h : (scan text).2 = []) (hne : text ≠ []) :
    ∃ v, scan text = (some v, []) := by
  dsimp only [scan] at h ⊢
  split at h
  · exact absurd h hne
  · rename_i hdigits
    rw [if_neg hdigits]
    exact ⟨_, Prod.ext rfl h⟩

theorem strtol_rest : (strtol lo hi text).2 = (scan text).2 := by
  unfold strtol
  split <;> rename_i h <;> rw [h]

theorem strtol_denotes (h : Denotes text v) : strtol lo hi text = (max lo (min hi v), []) := by
  simp only [strtol, scan_eq_whole.mpr h]

/-- Reading to the end of a text that is not empty means that it denotes an integer. -/
theorem denotes_of_strtol (h : (strtol lo hi text).2 = []) (hne : text ≠ []) :
    ∃ v, Denotes text v ∧ (strtol lo hi text).1 = max lo (min hi v) := by
  rw [strtol_rest] at h
  obtain ⟨v, hscan⟩ := scan_rest_nil h hne
  have hdenotes := scan_eq_whole.mp hscan
  exact ⟨v, hdenotes, congrArg Prod.fst (strtol_denotes hdenotes)⟩

theorem denotes_toDigits (n : Nat) : Denotes (Nat.toDigits 10 n) n := by
  refine ⟨[], [], Nat.toDigits 10 n, rfl, ?_, Nat.toDigits_ne_nil, fun c hc => ?_, ?_⟩
  · exact fun c hc => nomatch hc
  · exact Nat.isDigit_of_mem_toDigits (by decide) (by decide) hc
  · exact Or.inl ⟨Or.inl rfl, by rw [value_toDigits]⟩

/-- The unsigned conversions read what fits their type. -/
theorem strtoul_denotes {bits : Nat} (h : Denotes text v) (h0 : 0 ≤ v) (hlt : v < 2 ^ bits) :
    strtoul bits text = v.toNat := by
  have habs : ¬ (2 : Int) ^ bits ≤ v.natAbs := by
    rw [Int.natAbs_of_nonneg h0]
    exact not_le.mpr hlt
  simp only [strtoul, scan_eq_whole.mpr h, if_neg habs]
  rw [Int.emod_eq_of_lt h0 hlt]

/-- Every value of the unsigned type is read from its decimal text. -/
theorem strtoul_toDigits {bits n : Nat} (h : n < 2 ^ bits) :
    strtoul bits (Nat.toDigits 10 n) = n :=
  strtoul_denotes (denotes_toDigits n) (Int.natCast_nonneg n) (by exact_mod_cast h)

end YikvServer.Theory.StrTo
