import YikvServer.Theory.While
import YikvServer.Theory.StrTo
import Mathlib.Order.Bounds.Basic

/-!
# Row estimate to bucket bits

`BucketBitsForRows` of `import_pipeline_main.cc` doubles a 64-bit counter until it reaches
the estimate of the rows. After the 63rd doubling the counter is 0: an estimate above 2^63
is never reached. Such an estimate comes from the command line.
-/
namespace YikvServer.Import

open YikvServer.Theory

/-- `bits` and `buckets`. -/
structure BucketLoop where
  bits : UInt32
  buckets : UInt64

namespace BucketLoop

def start : BucketLoop := ⟨1, 2⟩

def body (s : BucketLoop) : BucketLoop := ⟨s.bits + 1, s.buckets <<< 1⟩

def guard (nRows : UInt64) (s : BucketLoop) : Bool := s.buckets < nRows

end BucketLoop

/-- With so many turns of the loop at most. -/
def bucketBitsForRows (fuel : Nat) (nRows : UInt64) : Option UInt32 :=
  if nRows = 0 then some 15
  else
    (While.run (BucketLoop.guard nRows) BucketLoop.body fuel BucketLoop.start).map fun s =>
      if s.bits > 28 then 28 else s.bits

/-- `EstimateTotalRows`: the rows of the files that could be counted, as 64-bit integers. -/
def estimateTotalRows (counts : List UInt64) : UInt64 := counts.foldl (· + ·) 0

/-- `--sql_est_rows`. -/
def sqlEstRows (arg : List Char) : UInt64 := UInt64.ofNat (StrTo.strtoul 64 arg)

/-- `est_rows` of `main`. -/
def estRows (mysqlQuery : String) (counts : List UInt64) (arg : List Char) : UInt64 :=
  if mysqlQuery = "" then estimateTotalRows counts else sqlEstRows arg

/-- It returns, and what it returns is 15 for no estimate and else the least number of bits
from 1 on with as many buckets as rows, 28 at most. -/
def RightSize (nRows : UInt64) : Prop :=
  ∃ fuel bits, bucketBitsForRows fuel nRows = some bits ∧
    if nRows = 0 then bits = 15
    else ∃ b : Nat, IsLeast {b | 1 ≤ b ∧ nRows.toNat ≤ 2 ^ b} b ∧ bits.toNat = min 28 b

variable {nRows : UInt64} {s : BucketLoop} {k : Nat}

namespace BucketLoop

/-- After some turns `buckets` is the power of two, as far as 64 bits hold it. -/
theorem buckets_body (h : s.buckets.toNat = 2 ^ k % 2 ^ 64) :
    s.body.buckets.toNat = 2 ^ (k + 1) % 2 ^ 64 := by
  have hshift : s.body.buckets.toNat = s.buckets.toNat * 2 % 2 ^ 64 := by
    simp [body, UInt64.toNat_shiftLeft, Nat.shiftLeft_eq]
  rw [hshift, h, Nat.mod_mul_mod, ← Nat.pow_succ]

/-- The turns that an estimate of 2^63 or less needs: all powers so far were too small. -/
structure Counting (nRows : UInt64) (s : BucketLoop) (k : Nat) : Prop where
  pos : 1 ≤ k
  le : k ≤ 63
  bits : s.bits.toNat = k
  buckets : s.buckets.toNat = 2 ^ k
  small : ∀ j, 1 ≤ j → j < k → 2 ^ j < nRows.toNat

theorem counting_start (nRows : UInt64) : Counting nRows start 1 :=
  ⟨Nat.le_refl 1, by decide, rfl, rfl, fun _ h1 h2 => absurd h1 (Nat.not_le.mpr h2)⟩

theorem Counting.body (h : Counting nRows s k) (hn : nRows.toNat ≤ 2 ^ 63)
    (hg : guard nRows s = true) : Counting nRows s.body (k + 1) := by
  have hlt : 2 ^ k < nRows.toNat := by
    have hguard : s.buckets < nRows := of_decide_eq_true hg
    rw [← h.buckets]
    exact UInt64.lt_iff_toNat_lt.mp hguard
  have hk : k < 63 := (Nat.pow_lt_pow_iff_right (by decide)).mp (hlt.trans_le hn)
  have hsmall : 2 ^ (k + 1) < 2 ^ 64 := Nat.pow_lt_pow_right (by decide) (by omega)
  have hpow : s.buckets.toNat = 2 ^ k % 2 ^ 64 := by
    rw [h.buckets, Nat.mod_eq_of_lt (Nat.pow_lt_pow_right (by decide) (by omega))]
  refine ⟨by omega, hk, ?_, ?_, fun j h1 hj => ?_⟩
  · have hbits : s.body.bits.toNat = (s.bits.toNat + 1) % 2 ^ 32 := by
      simp [BucketLoop.body, UInt32.toNat_add]
    rw [hbits, h.bits, Nat.mod_eq_of_lt (by omega)]
  · rw [buckets_body hpow, Nat.mod_eq_of_lt hsmall]
  · rcases Nat.lt_succ_iff_lt_or_eq.mp hj with hj | rfl
    · exact h.small j h1 hj
    · exact hlt

/-- The loop ends when the first power that is large enough is reached. -/
theorem ends_of_le (hn : nRows.toNat ≤ 2 ^ 63) :
    ∃ t b, While.Ends (guard nRows) BucketLoop.body start t ∧ t.bits.toNat = b ∧
      IsLeast {b | 1 ≤ b ∧ nRows.toNat ≤ 2 ^ b} b := by
  have hturn : ∀ s, (∃ k, Counting nRows s k) → guard nRows s = true →
      (∃ k, Counting nRows s.body k) ∧ 64 - s.body.bits.toNat < 64 - s.bits.toNat := by
    rintro s ⟨k, hk⟩ hg
    have hnext := hk.body hn hg
    refine ⟨⟨k + 1, hnext⟩, ?_⟩
    have hle := hnext.le
    rw [hnext.bits, hk.bits]
    omega
  obtain ⟨t, hends, ⟨b, hb⟩, hstop⟩ :=
    While.ends_of_variant (fun s : BucketLoop => 64 - s.bits.toNat) hturn
      ⟨1, counting_start nRows⟩
  refine ⟨t, b, hends, hb.bits, ⟨hb.pos, ?_⟩, ?_⟩
  · have hguard : ¬ t.buckets < nRows := of_decide_eq_false hstop
    rw [UInt64.lt_iff_toNat_lt, hb.buckets] at hguard
    exact Nat.le_of_not_lt hguard
  · rintro j ⟨h1, hj⟩
    by_contra hlt
    exact absurd (hb.small j h1 (Nat.lt_of_not_le hlt)) (Nat.not_lt.mpr hj)

/-- No power of two that 64 bits hold is above 2^63. -/
theorem not_ends_of_lt (hn : 2 ^ 63 < nRows.toNat) :
    ¬ ∃ t, While.Ends (guard nRows) BucketLoop.body start t := by
  have hle : ∀ k, 2 ^ k % 2 ^ 64 ≤ 2 ^ 63 := by
    intro k
    by_cases hk : k < 64
    · exact (Nat.mod_le _ _).trans (Nat.pow_le_pow_right (by decide) (by omega))
    · rw [Nat.mod_eq_zero_of_dvd (Nat.pow_dvd_pow 2 (by omega))]
      exact Nat.zero_le _
  refine While.not_ends_of_invariant (I := fun s => ∃ k, s.buckets.toNat = 2 ^ k % 2 ^ 64)
    ?_ ?_ ⟨1, rfl⟩
  · rintro s ⟨k, hk⟩
    refine decide_eq_true (UInt64.lt_iff_toNat_lt.mpr ?_)
    rw [hk]
    exact (hle k).trans_lt hn
  · rintro s ⟨k, hk⟩
    exact ⟨k + 1, buckets_body hk⟩

end BucketLoop

/-- It returns what it should exactly for estimates up to 2^63; beyond that it runs on for
ever. -/
theorem bucketBitsForRows_iff (nRows : UInt64) : RightSize nRows ↔ nRows.toNat ≤ 2 ^ 63 := by
  by_cases h0 : nRows = 0
  · subst h0
    exact iff_of_true ⟨0, 15, rfl, rfl⟩ (by decide)
  constructor
  · rintro ⟨fuel, bits, hrun, -⟩
    by_contra hlarge
    rw [bucketBitsForRows, if_neg h0] at hrun
    obtain ⟨t, ht, -⟩ := Option.map_eq_some_iff.mp hrun
    exact BucketLoop.not_ends_of_lt (Nat.lt_of_not_le hlarge) ⟨t, fuel, ht⟩
  · intro hn
    obtain ⟨t, b, ⟨fuel, hrun⟩, hbits, hleast⟩ := BucketLoop.ends_of_le hn
    refine ⟨fuel, if t.bits > 28 then 28 else t.bits, ?_, ?_⟩
    · rw [bucketBitsForRows, if_neg h0, hrun]
      rfl
    · rw [if_neg h0]
      refine ⟨b, hleast, ?_⟩
      split
      · rename_i hgt
        have hgt : 28 < t.bits.toNat := UInt32.lt_iff_toNat_lt.mp hgt
        rw [min_eq_left (by omega)]
        rfl
      · rename_i hle
        have hle : t.bits.toNat ≤ 28 := Nat.le_of_not_lt fun h =>
          hle (UInt32.lt_iff_toNat_lt.mpr h)
        rw [min_eq_right (by omega), hbits]

/-- Every 64-bit value can be given on the command line. -/
theorem estRows_surjective {mysqlQuery : String} (h : mysqlQuery ≠ "") (counts : List UInt64)
    (nRows : UInt64) : ∃ arg, estRows mysqlQuery counts arg = nRows :=
  ⟨Nat.toDigits 10 nRows.toNat, by
    rw [estRows, if_neg h, sqlEstRows, StrTo.strtoul_toDigits nRows.toNat_lt,
      UInt64.ofNat_toNat]⟩

/-- `--sql_est_rows -1` is `ULLONG_MAX`, for which the loop does not end. -/
theorem negative_estimate_hangs :
    estRows "SELECT * FROM users" [] ['-', '1'] = 18446744073709551615 ∧
      ¬ RightSize (estRows "SELECT * FROM users" [] ['-', '1']) := by
  have hest : estRows "SELECT * FROM users" [] ['-', '1'] = 18446744073709551615 := by decide
  refine ⟨hest, ?_⟩
  rintro ⟨fuel, bits, hrun, -⟩
  rw [hest] at hrun
  obtain ⟨t, ht, -⟩ := Option.map_eq_some_iff.mp hrun
  exact BucketLoop.not_ends_of_lt (by decide) ⟨t, fuel, ht⟩

end YikvServer.Import
