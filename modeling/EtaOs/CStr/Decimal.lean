import EtaOs.CStr.Output

/-!
# Conversion to decimal

`to_string` counts the digits of a number and then writes them from the last one on.  The counter
is not initialised.  So the unsigned conversion is right when the counter happens to start at
zero.  The signed one, taken with that start, negates the value, and `-2 ^ 63` stays negative.

The results about these functions are equivalences in the start value of the counter, as the source
leaves it to whatever was on the stack.  A start above zero makes the digits stand too far to the
right, behind bytes that the call has not written.

* `probe`, `writeDigits`, `toStringU64`, `toStringI64`: the code.
* `probe_eq`: the count.
* `wroteNumeral_writeNumeral`: what the second loop writes.
* `convertsU64_iff`, `convertsI64_iff`: where the conversions are right.
-/

namespace EtaOs

open Numerals

/-- `d + '0'`. -/
def digitChar (d : ℕ) : BitVec 8 := BitVec.ofNat 8 (d + 48)

/-- The first loop of `to_string`: it adds the number of digits behind the first to `size`. -/
def probe (sizeProbe : ℕ) (size : BitVec 8) : BitVec 8 :=
  if sizeProbe / 10 > 0 then probe (sizeProbe / 10) (size + 1) else size
termination_by sizeProbe
decreasing_by omega

theorem toNat_tdiv_ten_lt {value : ℤ} (h : value.tdiv 10 > 0) :
    (value.tdiv 10).toNat < value.toNat := by
  rcases Int.le_total 0 value with hnonneg | hneg
  · rw [Int.tdiv_eq_ediv_of_nonneg hnonneg] at h ⊢
    omega
  · rw [← Int.neg_neg value, Int.neg_tdiv, Int.tdiv_eq_ediv_of_nonneg (by omega)] at h
    omega

/-- The second loop of `to_string`, and the last digit behind it.  The digits start at `start`. -/
def writeDigits (start : ℤ) (size : BitVec 8) (value : ℤ) (index : BitVec 8) (o : Output) :
    Output :=
  if value.tdiv 10 > 0 then
    let remainder := BitVec.ofInt 8 (value.tmod 10)
    let o := o.put (start + size.toNat - index.toNat) (digitChar remainder.toNat)
    writeDigits start size (value.tdiv 10) (index + 1) o
  else
    let remainder := BitVec.ofInt 8 (value.tmod 10)
    o.put (start + size.toNat - index.toNat) (digitChar remainder.toNat)
termination_by value.toNat
decreasing_by exact toNat_tdiv_ten_lt ‹_›

/-- The digits and NUL. -/
def writeNumeral (start : ℤ) (size : BitVec 8) (value : ℤ) (o : Output) : Output :=
  (writeDigits start size value 0 o).put (start + size.toNat + 1) 0

/-- `to_string(uint64_t)`, with the contents of the local `size` and of the buffer. -/
def toStringU64 (value : BitVec 64) (size : BitVec 8) (buf : ℤ → BitVec 8) : Output :=
  let size := probe value.toNat size
  writeNumeral 0 size value.toNat ⟨buf, []⟩

/-- `to_string(int64_t)`, with the contents of the locals `is_negative` and `size` and of the
buffer.  The product with -1 wraps. -/
def toStringI64 (value : BitVec 64) (isNegative : Bool) (size : BitVec 8) (buf : ℤ → BitVec 8) :
    Output :=
  let (isNegative, value, o) :=
    if value.toInt < 0 then (true, value * -1, Output.put ⟨buf, []⟩ 0 0x2d)
    else (isNegative, value, ⟨buf, []⟩)
  let size := probe value.toNat size
  writeNumeral (if isNegative then 1 else 0) size value.toInt o

/-! ## The two loops -/

/-- **The count.** -/
theorem probe_eq (n : ℕ) (size : BitVec 8) :
    probe n size = size + BitVec.ofNat 8 (Nat.log 10 n) := by
  induction n using Nat.strong_induction_on generalizing size with
  | _ n ih =>
      rw [probe]
      split
      next hpos =>
        rw [ih (n / 10) (by omega), Nat.log_of_one_lt_of_le (by omega : 1 < 10) (by omega : 10 ≤ n),
          BitVec.ofNat_add, BitVec.add_assoc, BitVec.add_comm (BitVec.ofNat 8 _)]
        rfl
      next hzero =>
        rw [Nat.log_of_lt (by omega : n < 10)]
        exact (BitVec.add_zero size).symm

theorem toNat_probe (n : ℕ) (size : BitVec 8) :
    (probe n size).toNat = (size.toNat + Nat.log 10 n) % 256 := by
  rw [probe_eq, BitVec.toNat_add, BitVec.toNat_ofNat]
  omega

theorem log_le {n : ℕ} (hn : n < 2 ^ 64) : Nat.log 10 n ≤ 19 :=
  Nat.lt_succ_iff.mp (Nat.log_lt_of_lt_pow' (by decide) (by omega))

/-- The count from zero on. -/
theorem toNat_probe_zero {n : ℕ} (hn : n < 2 ^ 64) : (probe n 0).toNat = Nat.log 10 n := by
  have hlog := log_le hn
  rw [toNat_probe, show (0 : BitVec 8).toNat = 0 from rfl]
  omega

/-- **The digits of a number are written**, the last one at `last` and the others in front of
it. -/
structure WroteDigits (last : ℤ) (n : ℕ) (o o' : Output) : Prop where
  digit : ∀ k ≤ Nat.log 10 n, o'.buf (last - k) = digitChar (n / 10 ^ k % 10)
  frame : ∀ i, i < last - Nat.log 10 n ∨ last < i → o'.buf i = o.buf i
  writes : ∀ i, i ∈ o'.writes ↔ last - Nat.log 10 n ≤ i ∧ i ≤ last ∨ i ∈ o.writes

section

variable {last : ℤ} {n : ℕ} {o o' : Output}

/-- A number of one digit. -/
theorem wroteDigits_put (hn : n < 10) : WroteDigits last n o (o.put last (digitChar (n % 10))) where
  digit := by
    intro k hk
    rw [Nat.log_of_lt hn, Nat.le_zero] at hk
    rw [hk, Int.natCast_zero, Int.sub_zero, pow_zero, Nat.div_one]
    exact Output.buf_put_self _ _ _
  frame := by
    intro i hi
    rw [Nat.log_of_lt hn] at hi
    exact Output.buf_put_of_ne (by omega)
  writes := by
    intro i
    rw [Nat.log_of_lt hn, Output.mem_writes_put]
    exact or_congr_left (by omega)

/-- **One digit more**: the last one, and then those of the number without it. -/
theorem WroteDigits.of_div (hn : 10 ≤ n)
    (h : WroteDigits (last - 1) (n / 10) (o.put last (digitChar (n % 10))) o') :
    WroteDigits last n o o' := by
  have hlog : Nat.log 10 n = Nat.log 10 (n / 10) + 1 := Nat.log_of_one_lt_of_le (by decide) hn
  refine ⟨fun k hk => ?_, fun i hi => ?_, fun i => ?_⟩
  · cases k with
    | zero =>
        rw [h.frame _ (Or.inr (by omega)), Int.natCast_zero, Int.sub_zero, pow_zero, Nat.div_one]
        exact Output.buf_put_self _ _ _
    | succ k =>
        have hindex : last - (k + 1 : ℕ) = last - 1 - k := by omega
        rw [hindex, h.digit k (by omega), Nat.div_div_eq_div_mul, Nat.pow_succ']
  · rw [h.frame i (by omega)]
    exact Output.buf_put_of_ne (by omega)
  · rw [h.writes, Output.mem_writes_put, ← or_assoc]
    exact or_congr_left (by omega)

end

/-- **The second loop** writes the digits. -/
theorem wroteDigits_writeDigits (start : ℤ) (size : BitVec 8) (n : ℕ) (index : BitVec 8)
    (hindex : index.toNat + Nat.log 10 n < 256) (o : Output) :
    WroteDigits (start + size.toNat - index.toNat) n o (writeDigits start size n index o) := by
  induction n using Nat.strong_induction_on generalizing index o with
  | _ n ih =>
      have hquot : (n : ℤ).tdiv 10 = (n / 10 : ℕ) := (Int.ofNat_tdiv n 10).symm
      have hrem : (BitVec.ofInt 8 ((n : ℤ).tmod 10)).toNat = n % 10 := by
        have hcast : (n : ℤ).tmod 10 = (n % 10 : ℕ) := (Int.ofNat_tmod n 10).symm
        rw [hcast, BitVec.ofInt_natCast, BitVec.toNat_ofNat]
        omega
      rw [writeDigits]
      dsimp only
      rw [hrem, hquot]
      split
      next hpos =>
        have hn : 10 ≤ n := by omega
        have hlog : Nat.log 10 n = Nat.log 10 (n / 10) + 1 :=
          Nat.log_of_one_lt_of_le (by decide) hn
        have hnext : (index + 1).toNat = index.toNat + 1 := by bv_omega
        have hrest := ih (n / 10) (by omega) (index + 1) (by omega)
          (o.put (start + size.toNat - index.toNat) (digitChar (n % 10)))
        rw [hnext] at hrest
        refine WroteDigits.of_div hn ?_
        convert hrest using 1
        omega
      next hzero => exact wroteDigits_put (by omega)

section

variable {start : ℤ} {size : BitVec 8} {n : ℕ} {o : Output} (hn : n < 2 ^ 64)

include hn

theorem wroteDigits_start :
    WroteDigits (start + size.toNat) n o (writeDigits start size n 0 o) := by
  have hlog := log_le hn
  have hwrote := wroteDigits_writeDigits start size n 0 (by simp; omega) o
  rwa [show (0 : BitVec 8).toNat = 0 from rfl, Int.natCast_zero, Int.sub_zero] at hwrote

theorem writeNumeral_digit {k : ℕ} (hk : k ≤ Nat.log 10 n) :
    (writeNumeral start size n o).buf (start + size.toNat - k) = digitChar (n / 10 ^ k % 10) :=
  (Output.buf_put_of_ne (by omega)).trans ((wroteDigits_start hn).digit k hk)

theorem writeNumeral_frame {i : ℤ}
    (hi : i < start + size.toNat - Nat.log 10 n ∨ start + size.toNat + 1 < i) :
    (writeNumeral start size n o).buf i = o.buf i :=
  (Output.buf_put_of_ne (by omega)).trans ((wroteDigits_start hn).frame i (by omega))

theorem mem_writes_writeNumeral {i : ℤ} : i ∈ (writeNumeral start size n o).writes ↔
    start + size.toNat - Nat.log 10 n ≤ i ∧ i ≤ start + size.toNat + 1 ∨ i ∈ o.writes := by
  rw [writeNumeral, Output.mem_writes_put, (wroteDigits_start hn).writes, ← or_assoc]
  exact or_congr_left (by omega)

end

/-! ## The numeral -/

/-- A canonical decimal numeral. -/
def IsDecimal (s : List (BitVec 8)) (n : ℕ) : Prop :=
  ∃ ds, s = ds.map digitChar ∧ IsNumeral 10 ds n

/-- The decimal numeral. -/
def decimal (n : ℕ) : List (BitVec 8) := (numeral 10 n).map digitChar

theorem isDecimal_iff {s : List (BitVec 8)} {n : ℕ} : IsDecimal s n ↔ s = decimal n := by
  constructor
  · rintro ⟨ds, rfl, hds⟩
    rw [decimal, (isNumeral_iff (by decide)).mp hds]
  · rintro rfl
    exact ⟨_, rfl, isNumeral_numeral (by decide) n⟩

@[simp] theorem length_decimal (n : ℕ) : (decimal n).length = Nat.log 10 n + 1 := by
  rw [decimal, List.length_map, numeral, length_digitsOf]

theorem digitChar_ne {d : ℕ} (hd : d < 10) : digitChar d ≠ 0 := by
  unfold digitChar
  bv_omega

/-- **The string**, when the first digit is at the start. -/
theorem isString_writeNumeral {n : ℕ} (hn : n < 2 ^ 64) (start : ℤ) {size : BitVec 8}
    (hsize : size.toNat = Nat.log 10 n) (o : Output) :
    IsString (fun i => (writeNumeral start size n o).buf (start + i)) (decimal n) := by
  refine isString_map (fun d hd => digitChar_ne (digitsOf_lt (by decide) d hd)) ?_ ?_
  · intro i hi
    rw [numeral, length_digitsOf] at hi
    have hindex : start + i = start + size.toNat - (Nat.log 10 n - i : ℕ) := by omega
    rw [hindex, writeNumeral_digit hn (Nat.sub_le _ _), numeral, getD_digitsOf hi]
    rfl
  · have hindex : start + ((Nat.log 10 n + 1 : ℕ) : ℤ) = start + size.toNat + 1 := by omega
    rw [numeral, length_digitsOf, hindex]
    exact Output.buf_put_self _ _ _

theorem isString_writeNumeral_zero {n : ℕ} (hn : n < 2 ^ 64) {size : BitVec 8}
    (hsize : size.toNat = Nat.log 10 n) (o : Output) :
    IsString (writeNumeral 0 size n o).buf (decimal n) := by
  have hstring := isString_writeNumeral hn 0 hsize o
  simp only [Int.zero_add] at hstring
  exact hstring

/-! ## The unsigned conversion -/

/-- **The unsigned conversion is right**: it writes inside the buffer only, and the string is the
canonical numeral of the value. -/
structure ConvertsU64 (value : BitVec 64) (size : BitVec 8) (buf : ℤ → BitVec 8) : Prop where
  inside : ∀ i ∈ (toStringU64 value size buf).writes, 0 ≤ i ∧ i < 128
  decimal : ∃ s, IsString (toStringU64 value size buf).buf s ∧ IsDecimal s value.toNat

/-- **The conversions that are right**: those whose counter starts at zero, and those that write
behind a string in the buffer that is the numeral already. -/
theorem convertsU64_iff (value : BitVec 64) (size : BitVec 8) (buf : ℤ → BitVec 8) :
    ConvertsU64 value size buf ↔
      size = 0 ∨ (decimal value.toNat).length < size.toNat ∧
        size.toNat + (decimal value.toNat).length < 128 ∧ IsString buf (decimal value.toNat) := by
  have hn := value.isLt
  have hlog := log_le hn
  have hsize := size.isLt
  have hcount := toNat_probe value.toNat size
  have hframe : Nat.log 10 value.toNat + 1 < size.toNat ∧
      size.toNat + Nat.log 10 value.toNat < 256 → ∀ i ≤ Nat.log 10 value.toNat + 1,
        (toStringU64 value size buf).buf i = buf i :=
    fun _ i hi => writeNumeral_frame hn (Or.inl (by omega))
  rw [length_decimal]
  constructor
  · rintro ⟨hinside, s, hs, hdecimal⟩
    rw [isDecimal_iff.mp hdecimal] at hs
    have hfirst := hinside (0 + (probe value.toNat size).toNat - Nat.log 10 value.toNat)
      ((mem_writes_writeNumeral hn).mpr (Or.inl (by omega)))
    have hlast := hinside (0 + (probe value.toNat size).toNat + 1)
      ((mem_writes_writeNumeral hn).mpr (Or.inl (by omega)))
    rcases Nat.eq_zero_or_pos size.toNat with hzero | hpos
    · exact Or.inl (BitVec.eq_of_toNat_eq hzero)
    · have hlong : Nat.log 10 value.toNat + 1 < size.toNat := by
        by_contra hshort
        have hnul := hs.buf_length
        -- a digit stands where NUL has to be
        have hindex : ((Nat.log 10 value.toNat + 1 : ℕ) : ℤ) =
            0 + (probe value.toNat size).toNat - (size.toNat - 1 : ℕ) := by omega
        rw [length_decimal, hindex, toStringU64, writeNumeral_digit hn (by omega)] at hnul
        exact digitChar_ne (Nat.mod_lt _ (by decide)) hnul
      refine Or.inr ⟨hlong, by omega, hs.congr fun i hi => (hframe (by omega) i ?_).symm⟩
      rwa [length_decimal] at hi
  · rintro (rfl | ⟨hlong, hroom, hs⟩)
    · have hzero := toNat_probe_zero hn
      refine ⟨fun i hi => ?_, decimal value.toNat, isString_writeNumeral_zero hn hzero _,
        isDecimal_iff.mpr rfl⟩
      rcases (mem_writes_writeNumeral hn).mp hi with hi | hi
      · omega
      · exact absurd hi List.not_mem_nil
    · refine ⟨fun i hi => ?_, decimal value.toNat, hs.congr fun i hi => ?_, isDecimal_iff.mpr rfl⟩
      · rcases (mem_writes_writeNumeral hn).mp hi with hi | hi
        · omega
        · exact absurd hi List.not_mem_nil
      · rw [length_decimal] at hi
        exact hframe (by omega) i hi

/-- With a counter that starts at 1 the conversion of 7 leaves the first byte of the buffer. -/
theorem not_convertsU64_seven : ¬ ∀ (value : BitVec 64) (size : BitVec 8) (buf : ℤ → BitVec 8),
    ConvertsU64 value size buf := by
  intro hclaim
  obtain ⟨s, hs, hdecimal⟩ := (hclaim 7 1 fun _ => 0).decimal
  have hfirst := hs.buf_eq 0 (Nat.zero_le _)
  have hframe : (toStringU64 7 1 fun _ => 0).buf 0 = 0 :=
    writeNumeral_frame (n := 7) (by decide) (Or.inl (by simp [probe]))
  rw [isDecimal_iff.mp hdecimal, Int.natCast_zero, hframe] at hfirst
  exact absurd hfirst (by decide)

/-! ## The signed conversion -/

/-- A canonical decimal numeral of an integer: with a minus sign exactly for the negative ones. -/
def IsSignedDecimal (s : List (BitVec 8)) (v : ℤ) : Prop :=
  (0 ≤ v ∧ ∃ n : ℕ, IsDecimal s n ∧ v = n) ∨
    (v < 0 ∧ ∃ (t : List (BitVec 8)) (n : ℕ), s = 0x2d :: t ∧ IsDecimal t n ∧ v = -n)

/-- **The signed conversion is right**, with the two locals cleared: the string is the canonical
numeral of the value. -/
def ConvertsI64 (value : BitVec 64) (buf : ℤ → BitVec 8) : Prop :=
  ∃ s, IsString (toStringI64 value false 0 buf).buf s ∧ IsSignedDecimal s value.toInt

/-- A value that is not negative. -/
theorem convertsI64_of_nonneg {value : BitVec 64} (buf : ℤ → BitVec 8) (hnonneg : 0 ≤ value.toInt) :
    ConvertsI64 value buf := by
  have hn := value.isLt
  have hint : value.toInt = value.toNat := by
    rw [BitVec.toInt_eq_toNat_cond] at hnonneg ⊢
    split at hnonneg <;> omega
  have hconv : toStringI64 value false 0 buf =
      writeNumeral 0 (probe value.toNat 0) value.toNat ⟨buf, []⟩ := by
    unfold toStringI64
    rw [if_neg (Int.not_lt.mpr hnonneg), ← hint]
    rfl
  refine ⟨decimal value.toNat, ?_, Or.inl ⟨hnonneg, value.toNat, isDecimal_iff.mpr rfl, hint⟩⟩
  rw [hconv]
  exact isString_writeNumeral_zero hn (toNat_probe_zero hn) _

/-- What is done with a negative value. -/
theorem toStringI64_of_neg {value : BitVec 64} (buf : ℤ → BitVec 8) (hneg : value.toInt < 0) :
    toStringI64 value false 0 buf = writeNumeral 1 (probe (-value).toNat 0) (-value).toInt
      (Output.put ⟨buf, []⟩ 0 0x2d) := by
  have hprod : value * -1 = -value :=
    (BitVec.mul_neg value 1).trans (congrArg _ (BitVec.mul_one value))
  unfold toStringI64
  rw [if_pos hneg, ← hprod]
  rfl

/-- A negative value other than the least one. -/
theorem convertsI64_of_neg {value : BitVec 64} (buf : ℤ → BitVec 8) (hneg : value.toInt < 0)
    (hmin : value ≠ BitVec.intMin 64) : ConvertsI64 value buf := by
  have hn := (-value).isLt
  have habs : (-value).toInt = -value.toInt := BitVec.toInt_neg_of_ne_intMin hmin
  have hint : (-value).toInt = (-value).toNat := by
    have hpos : 0 ≤ (-value).toInt := by omega
    rw [BitVec.toInt_eq_toNat_cond] at hpos ⊢
    split at hpos <;> omega
  have hcount := toNat_probe_zero hn
  refine ⟨0x2d :: decimal (-value).toNat, ?_,
    Or.inr ⟨hneg, _, (-value).toNat, rfl, isDecimal_iff.mpr rfl, by omega⟩⟩
  rw [toStringI64_of_neg buf hneg, hint]
  refine (isString_writeNumeral hn 1 hcount _).cons (by decide) ?_
  rw [writeNumeral_frame hn (Or.inl (by omega))]
  exact Output.buf_put_self _ _ _

/-- **The least value** stays negative: its last digit is written as `'('`. -/
theorem not_convertsI64_intMin (buf : ℤ → BitVec 8) : ¬ ConvertsI64 (BitVec.intMin 64) buf := by
  rintro ⟨s, hs, hdecimal⟩
  have hneg : (BitVec.intMin 64).toInt = -2 ^ 63 := by decide
  obtain ⟨t, rfl, ht⟩ : ∃ t, s = 0x2d :: t ∧ t = decimal (2 ^ 63) := by
    rcases hdecimal with ⟨hnonneg, -⟩ | ⟨-, t, n, rfl, ht, hn⟩
    · omega
    · obtain rfl : n = 2 ^ 63 := by omega
      exact ⟨t, rfl, isDecimal_iff.mp ht⟩
  have hcount : probe (2 ^ 63) 0 = 18 := by
    rw [probe_eq]
    decide +kernel
  have hbyte : (toStringI64 (BitVec.intMin 64) false 0 buf).buf 19 = 0x28 := by
    rw [toStringI64_of_neg buf (by omega), BitVec.neg_intMin, hneg, BitVec.toNat_intMin,
      show 2 ^ (64 - 1) % 2 ^ 64 = 2 ^ 63 from rfl, hcount, writeNumeral, writeDigits,
      if_neg (by decide)]
    rfl
  have hdigit := hs.buf_eq 19 (by rw [List.length_cons, ht, length_decimal]; decide +kernel)
  rw [Nat.cast_ofNat, hbyte, ht] at hdigit
  exact absurd hdigit (by decide +kernel)

/-- **The signed conversion is right** for all values but the least one. -/
theorem convertsI64_iff (value : BitVec 64) (buf : ℤ → BitVec 8) :
    ConvertsI64 value buf ↔ value.toInt ≠ -2 ^ 63 := by
  have hmin : value.toInt = -2 ^ 63 ↔ value = BitVec.intMin 64 := by
    rw [← BitVec.toInt_inj, show (BitVec.intMin 64).toInt = -2 ^ 63 by decide]
  rw [ne_eq, hmin]
  constructor
  · rintro hconv rfl
    exact not_convertsI64_intMin buf hconv
  · intro hne
    rcases le_or_gt 0 value.toInt with hnonneg | hneg
    · exact convertsI64_of_nonneg buf hnonneg
    · exact convertsI64_of_neg buf hneg hne

/-- The conversion of `-2 ^ 63`. -/
theorem not_convertsI64 : ¬ ∀ (value : BitVec 64) (buf : ℤ → BitVec 8), ConvertsI64 value buf :=
  fun hclaim => not_convertsI64_intMin (fun _ => 0) (hclaim _ _)

end EtaOs
