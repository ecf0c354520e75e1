import Mathlib.Data.List.TakeWhile
import Mathlib.Algebra.Order.Group.Int
import Mathlib.Algebra.Group.Nat.Defs

/-!
# Decimal integers as text

What `ostream << long` writes and what `istream >> long` reads back, over the
range of an integer type. Reading skips white space; on an empty rest the old
value stays, without a digit the value is 0, and beyond the range it saturates. Texts of
as many digits are ordered as their values are.
-/
namespace YikvServer.Theory.DecimalText

/-- `isspace` in the C locale. -/
def isSpace (c : Char) : Bool :=
  c.toNat = 32 || (9 ≤ c.toNat && c.toNat ≤ 13)

def write (v : Int) : List Char :=
  if 0 ≤ v then Nat.toDigits 10 v.toNat else '-' :: Nat.toDigits 10 (-v).toNat

def value (digits : List Char) : Nat := Nat.ofDigitChars 10 digits 0

def splitSign : List Char → Bool × List Char
  | '-' :: rest => (true, rest)
  | '+' :: rest => (false, rest)
  | rest => (false, rest)

/-- The value read into a variable that held `old`. -/
def read (lo hi old : Int) (text : List Char) : Int :=
  match text.dropWhile isSpace with
  | [] => old
  | c :: cs =>
    let (negative, rest) := splitSign (c :: cs)
    let digits := rest.takeWhile Char.isDigit
    if digits = [] then 0
    else max lo (min hi (if negative then -(value digits : Int) else value digits))

variable {lo hi old v : Int} {c : Char} {digits tail : List Char} {n m : Nat}

theorem isDigit_toNat (h : c.isDigit = true) : 48 ≤ c.toNat ∧ c.toNat ≤ 57 := by
  simpa [Char.isDigit, UInt32.le_iff_toNat_le] using h

theorem not_isSpace_of_isDigit (h : c.isDigit = true) : isSpace c = false := by
  have hc := isDigit_toNat h
  simp only [isSpace, Bool.or_eq_false_iff, Bool.and_eq_false_iff, decide_eq_false_iff_not]
  omega

theorem splitSign_digit (h : c.isDigit = true) (cs : List Char) :
    splitSign (c :: cs) = (false, c :: cs) := by
  have hc := isDigit_toNat h
  unfold splitSign
  split
  · rename_i heq
    obtain ⟨rfl, -⟩ := List.cons.inj heq
    exact absurd hc.1 (by decide)
  · rename_i heq
    obtain ⟨rfl, -⟩ := List.cons.inj heq
    exact absurd hc.1 (by decide)
  · rfl

theorem takeWhile_digits (hd : ∀ c ∈ digits, c.isDigit = true)
    (ht : ∀ c ∈ tail.head?, c.isDigit = false) :
    (digits ++ tail).takeWhile Char.isDigit = digits := by
  rw [List.takeWhile_append_of_pos hd]
  cases tail with
  | nil => simp
  | cons c cs => simp [ht c rfl]

/-- A run of digits is read up to its end. -/
theorem read_digits (hne : digits ≠ []) (hd : ∀ c ∈ digits, c.isDigit = true)
    (ht : ∀ c ∈ tail.head?, c.isDigit = false) :
    read lo hi old (digits ++ tail) = max lo (min hi (value digits)) := by
  cases digits with
  | nil => exact absurd rfl hne
  | cons c cs =>
    have hc : c.isDigit = true := hd c List.mem_cons_self
    have hdrop : ((c :: cs) ++ tail).dropWhile isSpace = c :: (cs ++ tail) := by
      simp [not_isSpace_of_isDigit hc]
    have htake := takeWhile_digits hd ht
    rw [List.cons_append] at htake
    simp only [read, hdrop, splitSign_digit hc, htake, if_false, reduceCtorEq,
      Bool.false_eq_true]

theorem write_natCast (n : Nat) : write n = Nat.toDigits 10 n := by
  simp [write]

theorem value_toDigits (n : Nat) : value (Nat.toDigits 10 n) = n :=
  Nat.ofDigitChars_ten_toDigits

/-- A value that was not negative is read back. -/
theorem read_write (h0 : 0 ≤ v) (hlo : lo ≤ 0) (hhi : v ≤ hi)
    (ht : ∀ c ∈ tail.head?, c.isDigit = false) : read lo hi old (write v ++ tail) = v := by
  obtain ⟨n, rfl⟩ := Int.eq_ofNat_of_zero_le h0
  rw [write_natCast, read_digits Nat.toDigits_ne_nil
    (fun c hc => Nat.isDigit_of_mem_toDigits (by decide) (by decide) hc) ht, value_toDigits]
  omega

/-- So is a negative one. -/
theorem read_write_neg (h0 : v < 0) (hlo : lo ≤ v) (hhi : 0 ≤ hi)
    (ht : ∀ c ∈ tail.head?, c.isDigit = false) : read lo hi old (write v ++ tail) = v := by
  obtain ⟨n, hn⟩ : ∃ n : Nat, -v = n := ⟨(-v).toNat, by omega⟩
  have hwrite : write v = '-' :: Nat.toDigits 10 n := by
    rw [write, if_neg (by omega), hn]
    rfl
  have htake : (Nat.toDigits 10 n ++ tail).takeWhile Char.isDigit = Nat.toDigits 10 n :=
    takeWhile_digits (fun c hc => Nat.isDigit_of_mem_toDigits (by decide) (by decide) hc) ht
  have hdrop : ('-' :: (Nat.toDigits 10 n ++ tail)).dropWhile isSpace =
      '-' :: (Nat.toDigits 10 n ++ tail) := rfl
  rw [hwrite, List.cons_append]
  simp only [read, hdrop, splitSign, htake, Nat.toDigits_ne_nil, if_false, if_true,
    value_toDigits]
  omega

theorem write_injective {w : Int} (h : write v = write w) : v = w := by
  have hread : ∀ u : Int, min v w ≤ u → u ≤ max v w →
      read (min 0 (min v w)) (max 0 (max v w)) 0 (write u ++ []) = u := by
    intro u hlo hhi
    by_cases hu : 0 ≤ u
    · exact read_write hu (by omega) (by omega) (by simp)
    · exact read_write_neg (by omega) (by omega) (by omega) (by simp)
  rw [← hread v (by omega) (by omega), h, hread w (by omega) (by omega)]

/-- `std::to_string` writes the same digits. -/
theorem toList_toString (v : Int) : (toString v).toList = write v := by
  rw [Int.toString_eq_repr, Int.repr_eq_if, write]
  split
  · simp
  · simp

theorem value_append_le (xs ys : List Char) : value xs ≤ value (xs ++ ys) := by
  unfold value
  rw [Nat.ofDigitChars_append]
  generalize Nat.ofDigitChars 10 xs 0 = m
  induction ys generalizing m with
  | nil => simp
  | cons y ys ih =>
    rw [Nat.ofDigitChars_cons]
    exact (Nat.le_add_right_of_le (by omega)).trans (ih _)

/-- A prefix of a written value that was not negative reads as the old value, when
it is empty, or as a value that is no larger. -/
theorem read_take_write (lo hi old : Int) (n m : Nat) (hlo : lo ≤ 0) (hhi : (n : Int) ≤ hi)
    (ht : ∀ c ∈ tail.head?, c.isDigit = false) :
    read lo hi old ((write n ++ tail).take m) = old ∨
      (0 ≤ read lo hi old ((write n ++ tail).take m) ∧
        read lo hi old ((write n ++ tail).take m) ≤ n) := by
  have hdigits : ∀ c ∈ Nat.toDigits 10 n, c.isDigit = true :=
    fun c hc => Nat.isDigit_of_mem_toDigits (by decide) (by decide) hc
  by_cases hm : (Nat.toDigits 10 n).length ≤ m
  · right
    have hhead : ∀ c ∈ (tail.take (m - (Nat.toDigits 10 n).length)).head?, c.isDigit = false := by
      intro c hc
      rw [List.head?_take] at hc
      split at hc
      · cases hc
      · exact ht c hc
    rw [write_natCast, List.take_append, List.take_of_length_le hm,
      read_digits Nat.toDigits_ne_nil hdigits hhead, value_toDigits]
    omega
  · have htake : (write n ++ tail).take m = (Nat.toDigits 10 n).take m ++ [] := by
      rw [write_natCast, List.take_append_of_le_length (by omega), List.append_nil]
    rw [htake]
    by_cases hnil : (Nat.toDigits 10 n).take m = []
    · left
      rw [hnil]
      rfl
    · right
      have hle : value ((Nat.toDigits 10 n).take m) ≤ n := by
        have happ := value_append_le ((Nat.toDigits 10 n).take m) ((Nat.toDigits 10 n).drop m)
        rwa [List.take_append_drop, value_toDigits] at happ
      rw [read_digits hnil (fun c hc => hdigits c (List.mem_of_mem_take hc)) (by simp)]
      omega

/-! ## Order as text -/

theorem value_cons (c : Char) (cs : List Char) :
    value (c :: cs) = 10 ^ cs.length * (c.toNat - 48) + value cs := by
  rw [value, Nat.ofDigitChars_cons, Nat.ofDigitChars_eq_ofDigitChars_zero, Nat.mul_zero,
    Nat.zero_add]
  rfl

theorem value_lt_pow (hd : ∀ c ∈ digits, c.isDigit = true) : value digits < 10 ^ digits.length := by
  induction digits with
  | nil => exact Nat.one_pos
  | cons c cs ih =>
    obtain ⟨hc, hcs⟩ := List.forall_mem_cons.mp hd
    have hdigit := isDigit_toNat hc
    have hrest := ih hcs
    rw [value_cons, List.length_cons]
    calc 10 ^ cs.length * (c.toNat - 48) + value cs
        < 10 ^ cs.length * (c.toNat - 48) + 10 ^ cs.length := by omega
      _ = 10 ^ cs.length * (c.toNat - 48 + 1) := rfl
      _ ≤ 10 ^ cs.length * 10 := Nat.mul_le_mul_left _ (by omega)
      _ = 10 ^ (cs.length + 1) := rfl

/-- Texts of as many digits are ordered as their values are, whatever follows. -/
theorem append_lt_append {xs ys tail tail' : List Char} (hlen : xs.length = ys.length)
    (hxs : ∀ c ∈ xs, c.isDigit = true) (hys : ∀ c ∈ ys, c.isDigit = true)
    (h : value xs < value ys) : xs ++ tail < ys ++ tail' := by
  induction xs generalizing ys with
  | nil =>
    obtain rfl := List.eq_nil_of_length_eq_zero hlen.symm
    exact absurd h (lt_irrefl _)
  | cons c cs ih =>
    cases ys with
    | nil => cases hlen
    | cons d ds =>
      obtain ⟨hc, hcs⟩ := List.forall_mem_cons.mp hxs
      obtain ⟨hd, hds⟩ := List.forall_mem_cons.mp hys
      have hrest : cs.length = ds.length := Nat.succ.inj hlen
      have hcd := isDigit_toNat hc
      have hdd := isDigit_toNat hd
      rw [value_cons, value_cons, hrest] at h
      refine List.cons_lt_cons_iff.mpr ?_
      rcases lt_trichotomy c.toNat d.toNat with hlt | heq | hgt
      · exact Or.inl hlt
      · have hcd : c = d := Char.toNat_inj.mp heq
        subst hcd
        exact Or.inr ⟨rfl, ih hrest hcs hds (by omega)⟩
      · exfalso
        have hsmall := value_lt_pow hds
        have hle : 10 ^ ds.length * (d.toNat - 48 + 1) ≤ 10 ^ ds.length * (c.toNat - 48) :=
          Nat.mul_le_mul_left _ (by omega)
        rw [Nat.mul_add, Nat.mul_one] at hle
        omega

/-- So are numbers of as many digits. -/
theorem toDigits_append_lt {tail tail' : List Char} (h : n < m)
    (hlen : (Nat.toDigits 10 n).length = (Nat.toDigits 10 m).length) :
    Nat.toDigits 10 n ++ tail < Nat.toDigits 10 m ++ tail' := by
  refine append_lt_append hlen
    (fun c hc => Nat.isDigit_of_mem_toDigits (by decide) (by decide) hc)
    (fun c hc => Nat.isDigit_of_mem_toDigits (by decide) (by decide) hc) ?_
  rwa [value_toDigits, value_toDigits]

theorem length_toDigits {k : Nat} (hlo : 10 ^ k ≤ n) (hhi : n < 10 ^ (k + 1)) :
    (Nat.toDigits 10 n).length = k + 1 := by
  refine le_antisymm ((Nat.length_toDigits_le_iff (by decide) k.succ_pos).mpr hhi) ?_
  cases k with
  | zero => exact Nat.length_toDigits_pos
  | succ k =>
    by_contra hshort
    have hlt : n < 10 ^ (k + 1) :=
      (Nat.length_toDigits_le_iff (by decide) k.succ_pos).mp (by omega)
    exact absurd hlo (not_le.mpr hlt)

/-! ## Prefixes of negative values -/

theorem value_append (xs ys : List Char) :
    value (xs ++ ys) = 10 ^ ys.length * value xs + value ys := by
  rw [value, value, Nat.ofDigitChars_append, Nat.ofDigitChars_eq_ofDigitChars_zero]
  rfl

/-- A written number that is not zero starts with a digit that is not zero. -/
theorem value_take_toDigits_pos (hn : 0 < n) (hm : 0 < m) :
    0 < value ((Nat.toDigits 10 n).take m) := by
  refine Nat.pos_of_ne_zero fun hzero => ?_
  have hrest : ∀ c ∈ (Nat.toDigits 10 n).drop m, c.isDigit = true := fun c hc =>
    Nat.isDigit_of_mem_toDigits (by decide) (by decide) (List.mem_of_mem_drop hc)
  have hn' : n = value ((Nat.toDigits 10 n).drop m) := by
    have hsplit := value_append ((Nat.toDigits 10 n).take m) ((Nat.toDigits 10 n).drop m)
    rwa [List.take_append_drop, value_toDigits, hzero, Nat.mul_zero, Nat.zero_add] at hsplit
  have hlt : n < 10 ^ ((Nat.toDigits 10 n).drop m).length := hn'.trans_lt (value_lt_pow hrest)
  have hlen : ((Nat.toDigits 10 n).drop m).length = (Nat.toDigits 10 n).length - m :=
    List.length_drop
  have hpos : 0 < (Nat.toDigits 10 n).length := Nat.length_toDigits_pos
  by_cases hshort : (Nat.toDigits 10 n).length - m = 0
  · rw [hlen, hshort, Nat.pow_zero] at hlt
    omega
  · have hle : (Nat.toDigits 10 n).length ≤ (Nat.toDigits 10 n).length - m :=
      (Nat.length_toDigits_le_iff (by decide) (by omega)).mpr (hlen ▸ hlt)
    omega

/-- A prefix of a written negative value that goes beyond the sign reads as a negative
value. -/
theorem read_take_write_neg (h0 : v < 0) (hlo : lo < 0) (hm : 2 ≤ m)
    (ht : ∀ c ∈ tail.head?, c.isDigit = false) :
    read lo hi old ((write v ++ tail).take m) < 0 := by
  obtain ⟨n, hn⟩ : ∃ n : Nat, -v = n := ⟨(-v).toNat, by omega⟩
  obtain ⟨k, rfl⟩ : ∃ k, m = k + 1 := ⟨m - 1, by omega⟩
  have hwrite : write v = '-' :: Nat.toDigits 10 n := by
    rw [write, if_neg (by omega), hn]
    rfl
  have hdigits : ∀ c ∈ (Nat.toDigits 10 n).take k, c.isDigit = true := fun c hc =>
    Nat.isDigit_of_mem_toDigits (by decide) (by decide) (List.mem_of_mem_take hc)
  have hhead : ∀ c ∈ (tail.take (k - (Nat.toDigits 10 n).length)).head?, c.isDigit = false := by
    intro c hc
    rw [List.head?_take] at hc
    split at hc
    · cases hc
    · exact ht c hc
  have hpos : 0 < value ((Nat.toDigits 10 n).take k) :=
    value_take_toDigits_pos (by omega) (by omega)
  have hne : (Nat.toDigits 10 n).take k ≠ [] := fun he => by
    rw [he] at hpos
    exact absurd hpos (by decide)
  have hdrop : ('-' :: ((Nat.toDigits 10 n).take k ++
      tail.take (k - (Nat.toDigits 10 n).length))).dropWhile isSpace =
      '-' :: ((Nat.toDigits 10 n).take k ++ tail.take (k - (Nat.toDigits 10 n).length)) := rfl
  rw [hwrite, List.cons_append, List.take_succ_cons, List.take_append]
  simp only [read, hdrop, splitSign, takeWhile_digits hdigits hhead, hne, if_false, if_true]
  omega

end YikvServer.Theory.DecimalText
