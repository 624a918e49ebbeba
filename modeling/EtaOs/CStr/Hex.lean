import EtaOs.CStr.Output
import EtaOs.Library.CountedLoop

/-!
# Conversion to hexadecimal

The four overloads of `to_hstring` run their loop once for every digit but one, and each time
convert a whole byte.  The later iterations read behind the value and write in front of the
buffer.  No index is written twice, so the digits of the value stay.

Two properties are kept apart.  The round trip is about the bytes that the caller is shown, and it
holds for all widths, whatever lies next to the value and next to the buffer.  Staying inside is
about the bytes that are touched, and it fails for all widths but one.

* `toHstring`: the code of the overloads; `toHstring64` to `toHstring8`, each of them.
* `buf_hexLoop`, `mem_writes_hexLoop`, `mem_reads_hexLoop`: what the first iterations do.
* `convertsHex`: the conversion round trip.
* `staysInside_iff`: only the overload for bytes stays in bounds.
-/

namespace EtaOs

open Numerals CountedLoop

/-- `tmp + (tmp > 9 ? 55 : '0')`. -/
def hexChar (tmp : ℕ) : BitVec 8 := BitVec.ofNat 8 (tmp + if tmp > 9 then 55 else 48)

/-- The state of a conversion: the output, and the offsets from the start of the value that are
read. -/
structure HexState where
  out : Output
  reads : List ℕ

/-- One iteration.  The bytes from the start of the value on are `bytes`. -/
def hexStep (size : ℕ) (bytes : ℕ → BitVec 8) (i : ℕ) (s : HexState) : HexState :=
  let tmp := (bytes i &&& 0xF0) >>> 4
  let out := s.out.put (size - (i * 2 + 1)) (hexChar tmp.toNat)
  let tmp := bytes i &&& 0x0F
  let out := out.put (size - i * 2) (hexChar tmp.toNat)
  ⟨out, i :: i :: s.reads⟩

/-- The state after `k` iterations. -/
def hexLoop (size : ℕ) (bytes : ℕ → BitVec 8) (k : ℕ) (s : HexState) : HexState :=
  forRange 0 k (hexStep size bytes) s

/-- `to_hstring`, with the local `size`. -/
def toHstring (size : ℕ) (bytes : ℕ → BitVec 8) (buf : ℤ → BitVec 8) : HexState :=
  let s := hexLoop size bytes size ⟨⟨buf, []⟩, []⟩
  { s with out := s.out.put (size + 1) 0 }

/-- The bytes from the start of a value on: those of the value, in little-endian order, and then
the `rest` of the stack. -/
def valueBytes {w : ℕ} (value : BitVec w) (rest : ℕ → BitVec 8) (i : ℕ) : BitVec 8 :=
  if i < w / 8 then value.extractLsb' (8 * i) 8 else rest i

/-- `to_hstring(uint64_t)`. -/
def toHstring64 (value : BitVec 64) (rest : ℕ → BitVec 8) (buf : ℤ → BitVec 8) : HexState :=
  toHstring (8 * 2 - 1) (valueBytes value rest) buf

/-- `to_hstring(uint32_t)`. -/
def toHstring32 (value : BitVec 32) (rest : ℕ → BitVec 8) (buf : ℤ → BitVec 8) : HexState :=
  toHstring (4 * 2 - 1) (valueBytes value rest) buf

/-- `to_hstring(uint16_t)`. -/
def toHstring16 (value : BitVec 16) (rest : ℕ → BitVec 8) (buf : ℤ → BitVec 8) : HexState :=
  toHstring (2 * 2 - 1) (valueBytes value rest) buf

/-- `to_hstring(uint8_t)`. -/
def toHstring8 (value : BitVec 8) (rest : ℕ → BitVec 8) (buf : ℤ → BitVec 8) : HexState :=
  toHstring 1 (valueBytes value rest) buf

/-! ## The loop -/

section

variable {size k : ℕ} {bytes : ℕ → BitVec 8} {s : HexState}

/-- The nibble `j` of the bytes. -/
def nibble (bytes : ℕ → BitVec 8) (j : ℕ) : ℕ :=
  (if j % 2 = 0 then bytes (j / 2) &&& 0x0F else (bytes (j / 2) &&& 0xF0) >>> 4).toNat

theorem hexLoop_succ (k : ℕ) :
    hexLoop size bytes (k + 1) s = hexStep size bytes k (hexLoop size bytes k s) :=
  forRange_succ (Nat.zero_le k)

/-- One iteration writes two nibbles. -/
theorem buf_hexStep (i : ℕ) (q : ℤ) : (hexStep size bytes i s).out.buf q =
    if q = size - 2 * i then hexChar (nibble bytes (2 * i))
    else if q = size - 2 * i - 1 then hexChar (nibble bytes (2 * i + 1)) else s.out.buf q := by
  have heven : nibble bytes (2 * i) = (bytes i &&& 0x0F).toNat := by
    rw [nibble, if_pos (Nat.mul_mod_right 2 i), Nat.mul_div_cancel_left i Nat.two_pos]
  have hodd : nibble bytes (2 * i + 1) = ((bytes i &&& 0xF0) >>> 4).toNat := by
    rw [nibble, if_neg (by omega), show (2 * i + 1) / 2 = i by omega]
  rw [heven, hodd]
  unfold hexStep Output.put
  simp only [Function.update_apply]
  refine if_congr (by omega) rfl (if_congr (by omega) rfl rfl)

/-- **After `k` iterations** the last `2 * k` indices have their nibbles. -/
theorem buf_hexLoop (q : ℤ) : (hexLoop size bytes k s).out.buf q =
    if size - 2 * k < q ∧ q ≤ size then hexChar (nibble bytes (size - q).toNat)
    else s.out.buf q := by
  induction k with
  | zero =>
      rw [if_neg (by omega)]
      rfl
  | succ k ih =>
      rw [hexLoop_succ, buf_hexStep, ih]
      rcases eq_or_ne q (size - 2 * k) with rfl | hlow
      · rw [if_pos rfl, if_pos (by omega),
          show ((size : ℤ) - (size - 2 * k)).toNat = 2 * k by omega]
      · rw [if_neg hlow]
        rcases eq_or_ne q (size - 2 * k - 1) with rfl | hhigh
        · rw [if_pos rfl, if_pos (by omega),
            show ((size : ℤ) - (size - 2 * k - 1)).toNat = 2 * k + 1 by omega]
        · rw [if_neg hhigh]
          exact if_congr (by omega) rfl rfl

theorem mem_writes_hexLoop {q : ℤ} : q ∈ (hexLoop size bytes k s).out.writes ↔
    size - 2 * k < q ∧ q ≤ size ∨ q ∈ s.out.writes := by
  induction k with
  | zero => exact (or_iff_right (by omega)).symm
  | succ k ih =>
      rw [hexLoop_succ]
      unfold hexStep
      simp only [Output.mem_writes_put]
      rw [ih, ← or_assoc, ← or_assoc]
      exact or_congr_left (by omega)

theorem mem_reads_hexLoop {i : ℕ} : i ∈ (hexLoop size bytes k s).reads ↔ i < k ∨ i ∈ s.reads := by
  induction k with
  | zero => exact (or_iff_right (Nat.not_lt_zero i)).symm
  | succ k ih =>
      rw [hexLoop_succ]
      unfold hexStep
      simp only [List.mem_cons]
      rw [ih, ← or_assoc, ← or_assoc]
      exact or_congr_left (by omega)

end

/-! ## The overloads -/

/-- The widths of the overloads. -/
inductive HexWidth
  | w8
  | w16
  | w32
  | w64
  deriving DecidableEq

namespace HexWidth

/-- The bytes of a value, `sizeof(value)`. -/
def bytes : HexWidth → ℕ
  | w8 => 1
  | w16 => 2
  | w32 => 4
  | w64 => 8

/-- The overload for a width. -/
def convert : (w : HexWidth) → BitVec (8 * w.bytes) → (ℕ → BitVec 8) → (ℤ → BitVec 8) → HexState
  | w8 => toHstring8
  | w16 => toHstring16
  | w32 => toHstring32
  | w64 => toHstring64

theorem bytes_pos (w : HexWidth) : 0 < w.bytes := by
  cases w <;> decide

/-- The digits but one. -/
def size (w : HexWidth) : ℕ := 2 * w.bytes - 1

theorem convert_eq (w : HexWidth) (value : BitVec (8 * w.bytes)) (rest : ℕ → BitVec 8)
    (buf : ℤ → BitVec 8) :
    w.convert value rest buf = toHstring w.size (valueBytes value rest) buf := by
  cases w <;> rfl

end HexWidth

/-! ## The round trip -/

/-- The digit of a character. -/
def hexDigit (c : BitVec 8) : Option ℕ :=
  if 0x30 ≤ c ∧ c ≤ 0x39 then some (c.toNat - 0x30)
  else if 0x41 ≤ c ∧ c ≤ 0x46 then some (c.toNat - 0x41 + 10)
  else none

/-- The number that a string of the digits 0-9 and A-F denotes. -/
def readHex (s : List (BitVec 8)) : Option ℕ := (s.mapM hexDigit).map (value 16)

theorem hexDigit_hexChar : ∀ d < 16, hexDigit (hexChar d) = some d := by
  decide

theorem hexChar_ne : ∀ d < 16, hexChar d ≠ 0 := by
  decide

theorem readHex_map {ds : List ℕ} (h : ∀ d ∈ ds, d < 16) :
    readHex (ds.map hexChar) = some (value 16 ds) := by
  have hdigits : (ds.map hexChar).mapM hexDigit = some ds := by
    induction ds with
    | nil => rfl
    | cons d ds ih =>
        rw [List.map_cons, List.mapM_cons, hexDigit_hexChar d (h d List.mem_cons_self),
          ih fun d' hd' => h d' (List.mem_cons_of_mem d hd')]
        rfl
  rw [readHex, hdigits, Option.map_some]

/-- **The nibbles of a value** are its digits. -/
theorem nibble_valueBytes {m : ℕ} (value : BitVec (8 * m)) (rest : ℕ → BitVec 8) {j : ℕ}
    (hj : j < 2 * m) : nibble (valueBytes value rest) j = value.toNat / 16 ^ j % 16 := by
  have hbyte : valueBytes value rest (j / 2) = value.extractLsb' (8 * (j / 2)) 8 :=
    if_pos (by omega)
  have hlow : ∀ b : BitVec 8, (b &&& 0x0F).toNat = b.toNat % 16 := by decide
  have hhigh : ∀ b : BitVec 8, ((b &&& 0xF0) >>> 4).toNat = b.toNat / 16 := by decide
  have hpow : 2 ^ (8 * (j / 2)) = 16 ^ (2 * (j / 2)) := by
    rw [show (16 : ℕ) = 2 ^ 4 from rfl, ← pow_mul]
    congr 1
    omega
  have hnat : (valueBytes value rest (j / 2)).toNat = value.toNat / 16 ^ (2 * (j / 2)) % 256 := by
    rw [hbyte, BitVec.extractLsb'_toNat, Nat.shiftRight_eq_div_pow, hpow]
  rw [nibble]
  split
  next heven =>
    have hj2 : 2 * (j / 2) = j := by omega
    rw [hlow, hnat, hj2]
    omega
  next hodd =>
    have hj2 : j = 2 * (j / 2) + 1 := by omega
    rw [hhigh, hnat]
    conv_rhs => rw [hj2, Nat.pow_succ, ← Nat.div_div_eq_div_mul]
    omega

section

variable (w : HexWidth) (value : BitVec (8 * w.bytes)) (rest : ℕ → BitVec 8) (buf : ℤ → BitVec 8)

/-- The characters of the value after `k` iterations, once its bytes are converted. -/
theorem buf_hexLoop_valueBytes {k : ℕ} (hk : w.bytes ≤ k) (s : HexState) {p : ℕ}
    (hp : p < 2 * w.bytes) :
    (hexLoop w.size (valueBytes value rest) k s).out.buf p =
      hexChar (value.toNat / 16 ^ (2 * w.bytes - 1 - p) % 16) := by
  have hsize : (w.size : ℤ) = 2 * w.bytes - 1 := by
    have hpos := w.bytes_pos
    unfold HexWidth.size
    omega
  rw [buf_hexLoop, if_pos (by omega),
    show ((w.size : ℤ) - p).toNat = 2 * w.bytes - 1 - p by omega,
    nibble_valueBytes value rest (by omega)]

theorem bytes_le_size : w.bytes ≤ w.size ∧ w.size + 1 = 2 * w.bytes := by
  have hpos := w.bytes_pos
  unfold HexWidth.size
  omega

/-- The characters of the value in the end. -/
theorem buf_convert {p : ℕ} (hp : p < 2 * w.bytes) : (w.convert value rest buf).out.buf p =
    hexChar (value.toNat / 16 ^ (2 * w.bytes - 1 - p) % 16) := by
  have hsize := bytes_le_size w
  rw [w.convert_eq, toHstring]
  dsimp only
  rw [Output.buf_put_of_ne (by omega), buf_hexLoop_valueBytes w value rest hsize.1 _ hp]

/-- The text of the value: a digit for every four bits. -/
def hexText : List (BitVec 8) := (digitsOf 16 (2 * w.bytes) value.toNat).map hexChar

/-- **The string that starts in the buffer** is the text, whatever the buffer held. -/
theorem isString_convert : IsString (w.convert value rest buf).out.buf (hexText w value) := by
  refine isString_map ?_ ?_ ?_
  · exact fun d hd => hexChar_ne d (digitsOf_lt (by decide) d hd)
  · intro p hp
    rw [length_digitsOf] at hp
    rw [buf_convert w value rest buf hp, getD_digitsOf hp]
  · rw [length_digitsOf, w.convert_eq, toHstring]
    dsimp only
    rw [← (bytes_le_size w).2, Nat.cast_succ]
    exact Output.buf_put_self _ _ _

/-- **The conversion round trip**: the buffer starts with a string of a digit for every four bits,
which reads back as the value, and the iterations behind the bytes of the value change none of
its characters. -/
structure ConvertsHex : Prop where
  reads : ∃ s : List (BitVec 8), s.length = 8 * w.bytes / 4 ∧
    IsString (w.convert value rest buf).out.buf s ∧ readHex s = some value.toNat
  stable : ∀ k, w.bytes ≤ k → k ≤ w.size → ∀ p < 8 * w.bytes / 4,
    (hexLoop w.size (valueBytes value rest) k ⟨⟨buf, []⟩, []⟩).out.buf p =
      (w.convert value rest buf).out.buf p

/-- **The conversion round trip**, for every overload and value. -/
theorem convertsHex : ConvertsHex w value rest buf := by
  refine ⟨⟨hexText w value, ?_, isString_convert w value rest buf, ?_⟩, ?_⟩
  · rw [hexText, List.length_map, length_digitsOf]
    omega
  · rw [hexText, readHex_map fun d hd => digitsOf_lt (by decide) d hd, value_digitsOf,
      Nat.mod_eq_of_lt]
    have hlt := value.isLt
    rwa [show 2 ^ (8 * w.bytes) = 16 ^ (2 * w.bytes) by
      rw [show (16 : ℕ) = 2 ^ 4 from rfl, ← pow_mul]; congr 1; omega] at hlt
  · intro k hk _ p hp
    rw [buf_convert w value rest buf (by omega),
      buf_hexLoop_valueBytes w value rest hk _ (by omega)]

/-! ## The bounds -/

/-- **The conversion stays in bounds**: it reads bytes of the value only, and writes indices up to
that of NUL only. -/
structure StaysInside : Prop where
  reads : ∀ i ∈ (w.convert value rest buf).reads, i < w.bytes
  writes : ∀ i ∈ (w.convert value rest buf).out.writes, 0 ≤ i ∧ i ≤ 2 * w.bytes

theorem mem_reads_convert {i : ℕ} : i ∈ (w.convert value rest buf).reads ↔ i < w.size := by
  rw [w.convert_eq]
  exact mem_reads_hexLoop.trans (or_iff_left List.not_mem_nil)

theorem mem_writes_convert {i : ℤ} : i ∈ (w.convert value rest buf).out.writes ↔
    i = w.size + 1 ∨ w.size - 2 * w.size < i ∧ i ≤ w.size := by
  rw [w.convert_eq]
  exact Output.mem_writes_put.trans
    (or_congr_right (mem_writes_hexLoop.trans (or_iff_left List.not_mem_nil)))

/-- **Only the overload for bytes** stays in bounds. -/
theorem staysInside_iff : StaysInside w value rest buf ↔ w = .w8 := by
  constructor
  · intro hinside
    have hlast := hinside.reads (w.size - 1)
    rw [mem_reads_convert] at hlast
    cases w with
    | w8 => rfl
    | w16 => exact absurd (hlast (by decide)) (by decide)
    | w32 => exact absurd (hlast (by decide)) (by decide)
    | w64 => exact absurd (hlast (by decide)) (by decide)
  · rintro rfl
    refine ⟨fun i hi => (mem_reads_convert _ _ _ _).mp hi, fun i hi => ?_⟩
    have hindex := (mem_writes_convert _ _ _ _).mp hi
    simp only [HexWidth.size, HexWidth.bytes] at hindex ⊢
    omega

end

/-- The conversion of a 16-bit zero reads the byte behind it. -/
theorem not_staysInside_w16 : ¬ StaysInside .w16 0 (fun _ => 0) fun _ => 0 := by
  intro hinside
  exact absurd (hinside.reads 2 ((mem_reads_convert _ _ _ _).mpr (by decide))) (by decide)

end EtaOs
