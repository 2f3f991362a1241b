import Mathlib.Data.BitVec
import Mathlib.Tactic.IntervalCases
import Dynarmic.Lib.XorLinear
import Dynarmic.Lib.Lanes

/-!
# AES round helpers

The byte-level AES transforms of common/crypto/aes.cpp, which the backends call for the AES instructions: the two
substitution tables, the row permutations, one round of encryption and of decryption without the round key, and the
column mixing with its inverse.

The state is the `std::array<u8, 16>` of the source, column by column (byte `4 * c + r` is row `r` of column `c`). Each
function writes its `out_state` afresh from `state`, so the model returns a new array.

`MixColumns` uses the shortcut `a ^ xtime(a ^ b) ^ tmp`, and `InverseMixColumns` the coefficients `0E 0B 0D 09` through
the shift-and-add `Multiply`; a column has `2 ^ 32` values. Both maps are additive over XOR, because `xtime` and
`Multiply` are, so their composite is fixed by its values on the 32 columns with a single bit set (`XorLinear`), which
the kernel checks. The two tables are checked entry by entry on their packings into one number (`Lanes.pack`).
-/

namespace Dynarmic.AES

/-- `State`: sixteen bytes, column by column. -/
abbrev State := Vector (BitVec 8) 16

/-- The four bytes one iteration of the column loops writes. -/
abbrev Column := Vector (BitVec 8) 4

/-- `SubstitutionTable`. -/
abbrev SubstitutionTable := Vector (BitVec 8) 256

set_option maxRecDepth 2000 in
/-- `substitution_box` (FIPS 197, Figure 7). -/
def substitutionBox : SubstitutionTable := #v[
  0x63, 0x7C, 0x77, 0x7B, 0xF2, 0x6B, 0x6F, 0xC5, 0x30, 0x01, 0x67, 0x2B, 0xFE, 0xD7, 0xAB, 0x76,
  0xCA, 0x82, 0xC9, 0x7D, 0xFA, 0x59, 0x47, 0xF0, 0xAD, 0xD4, 0xA2, 0xAF, 0x9C, 0xA4, 0x72, 0xC0,
  0xB7, 0xFD, 0x93, 0x26, 0x36, 0x3F, 0xF7, 0xCC, 0x34, 0xA5, 0xE5, 0xF1, 0x71, 0xD8, 0x31, 0x15,
  0x04, 0xC7, 0x23, 0xC3, 0x18, 0x96, 0x05, 0x9A, 0x07, 0x12, 0x80, 0xE2, 0xEB, 0x27, 0xB2, 0x75,
  0x09, 0x83, 0x2C, 0x1A, 0x1B, 0x6E, 0x5A, 0xA0, 0x52, 0x3B, 0xD6, 0xB3, 0x29, 0xE3, 0x2F, 0x84,
  0x53, 0xD1, 0x00, 0xED, 0x20, 0xFC, 0xB1, 0x5B, 0x6A, 0xCB, 0xBE, 0x39, 0x4A, 0x4C, 0x58, 0xCF,
  0xD0, 0xEF, 0xAA, 0xFB, 0x43, 0x4D, 0x33, 0x85, 0x45, 0xF9, 0x02, 0x7F, 0x50, 0x3C, 0x9F, 0xA8,
  0x51, 0xA3, 0x40, 0x8F, 0x92, 0x9D, 0x38, 0xF5, 0xBC, 0xB6, 0xDA, 0x21, 0x10, 0xFF, 0xF3, 0xD2,
  0xCD, 0x0C, 0x13, 0xEC, 0x5F, 0x97, 0x44, 0x17, 0xC4, 0xA7, 0x7E, 0x3D, 0x64, 0x5D, 0x19, 0x73,
  0x60, 0x81, 0x4F, 0xDC, 0x22, 0x2A, 0x90, 0x88, 0x46, 0xEE, 0xB8, 0x14, 0xDE, 0x5E, 0x0B, 0xDB,
  0xE0, 0x32, 0x3A, 0x0A, 0x49, 0x06, 0x24, 0x5C, 0xC2, 0xD3, 0xAC, 0x62, 0x91, 0x95, 0xE4, 0x79,
  0xE7, 0xC8, 0x37, 0x6D, 0x8D, 0xD5, 0x4E, 0xA9, 0x6C, 0x56, 0xF4, 0xEA, 0x65, 0x7A, 0xAE, 0x08,
  0xBA, 0x78, 0x25, 0x2E, 0x1C, 0xA6, 0xB4, 0xC6, 0xE8, 0xDD, 0x74, 0x1F, 0x4B, 0xBD, 0x8B, 0x8A,
  0x70, 0x3E, 0xB5, 0x66, 0x48, 0x03, 0xF6, 0x0E, 0x61, 0x35, 0x57, 0xB9, 0x86, 0xC1, 0x1D, 0x9E,
  0xE1, 0xF8, 0x98, 0x11, 0x69, 0xD9, 0x8E, 0x94, 0x9B, 0x1E, 0x87, 0xE9, 0xCE, 0x55, 0x28, 0xDF,
  0x8C, 0xA1, 0x89, 0x0D, 0xBF, 0xE6, 0x42, 0x68, 0x41, 0x99, 0x2D, 0x0F, 0xB0, 0x54, 0xBB, 0x16]

set_option maxRecDepth 2000 in
/-- `inverse_substitution_box` (FIPS 197, Figure 14). -/
def inverseSubstitutionBox : SubstitutionTable := #v[
  0x52, 0x09, 0x6A, 0xD5, 0x30, 0x36, 0xA5, 0x38, 0xBF, 0x40, 0xA3, 0x9E, 0x81, 0xF3, 0xD7, 0xFB,
  0x7C, 0xE3, 0x39, 0x82, 0x9B, 0x2F, 0xFF, 0x87, 0x34, 0x8E, 0x43, 0x44, 0xC4, 0xDE, 0xE9, 0xCB,
  0x54, 0x7B, 0x94, 0x32, 0xA6, 0xC2, 0x23, 0x3D, 0xEE, 0x4C, 0x95, 0x0B, 0x42, 0xFA, 0xC3, 0x4E,
  0x08, 0x2E, 0xA1, 0x66, 0x28, 0xD9, 0x24, 0xB2, 0x76, 0x5B, 0xA2, 0x49, 0x6D, 0x8B, 0xD1, 0x25,
  0x72, 0xF8, 0xF6, 0x64, 0x86, 0x68, 0x98, 0x16, 0xD4, 0xA4, 0x5C, 0xCC, 0x5D, 0x65, 0xB6, 0x92,
  0x6C, 0x70, 0x48, 0x50, 0xFD, 0xED, 0xB9, 0xDA, 0x5E, 0x15, 0x46, 0x57, 0xA7, 0x8D, 0x9D, 0x84,
  0x90, 0xD8, 0xAB, 0x00, 0x8C, 0xBC, 0xD3, 0x0A, 0xF7, 0xE4, 0x58, 0x05, 0xB8, 0xB3, 0x45, 0x06,
  0xD0, 0x2C, 0x1E, 0x8F, 0xCA, 0x3F, 0x0F, 0x02, 0xC1, 0xAF, 0xBD, 0x03, 0x01, 0x13, 0x8A, 0x6B,
  0x3A, 0x91, 0x11, 0x41, 0x4F, 0x67, 0xDC, 0xEA, 0x97, 0xF2, 0xCF, 0xCE, 0xF0, 0xB4, 0xE6, 0x73,
  0x96, 0xAC, 0x74, 0x22, 0xE7, 0xAD, 0x35, 0x85, 0xE2, 0xF9, 0x37, 0xE8, 0x1C, 0x75, 0xDF, 0x6E,
  0x47, 0xF1, 0x1A, 0x71, 0x1D, 0x29, 0xC5, 0x89, 0x6F, 0xB7, 0x62, 0x0E, 0xAA, 0x18, 0xBE, 0x1B,
  0xFC, 0x56, 0x3E, 0x4B, 0xC6, 0xD2, 0x79, 0x20, 0x9A, 0xDB, 0xC0, 0xFE, 0x78, 0xCD, 0x5A, 0xF4,
  0x1F, 0xDD, 0xA8, 0x33, 0x88, 0x07, 0xC7, 0x31, 0xB1, 0x12, 0x10, 0x59, 0x27, 0x80, 0xEC, 0x5F,
  0x60, 0x51, 0x7F, 0xA9, 0x19, 0xB5, 0x4A, 0x0D, 0x2D, 0xE5, 0x7A, 0x9F, 0x93, 0xC9, 0x9C, 0xEF,
  0xA0, 0xE0, 0x3B, 0x4D, 0xAE, 0x2A, 0xF5, 0xB0, 0xC8, 0xEB, 0xBB, 0x3C, 0x83, 0x53, 0x99, 0x61,
  0x17, 0x2B, 0x04, 0x7E, 0xBA, 0x77, 0xD6, 0x26, 0xE1, 0x69, 0x14, 0x63, 0x55, 0x21, 0x0C, 0x7D]

/-- `xtime`: multiplication by `x` modulo the AES polynomial. -/
def xtime (x : BitVec 8) : BitVec 8 :=
  (x <<< 1) ^^^ (((x >>> 7) &&& 1#8) * 0x1B#8)

/-- `Multiply`: shift and add over the low five bits of `y`, which is all the inverse mixing needs. -/
def multiply (x y : BitVec 8) : BitVec 8 :=
  ((y &&& 1#8) * x)
    ^^^ ((y >>> 1 &&& 1#8) * xtime x)
    ^^^ ((y >>> 2 &&& 1#8) * xtime (xtime x))
    ^^^ ((y >>> 3 &&& 1#8) * xtime (xtime (xtime x)))
    ^^^ ((y >>> 4 &&& 1#8) * xtime (xtime (xtime (xtime x))))

/-- `ShiftRows`: row `r` rotated `r` columns left. -/
def shiftRows (state : State) : State :=
  #v[state[0], state[5], state[10], state[15], state[4], state[9], state[14], state[3],
    state[8], state[13], state[2], state[7], state[12], state[1], state[6], state[11]]

/-- `InverseShiftRows`: row `r` rotated `r` columns right. -/
def inverseShiftRows (state : State) : State :=
  #v[state[0], state[13], state[10], state[7], state[4], state[1], state[14], state[11],
    state[8], state[5], state[2], state[15], state[12], state[9], state[6], state[3]]

/-- `SubBytes`: every byte through the table. -/
def subBytes (state : State) (table : SubstitutionTable) : State :=
  state.map fun x => table[x.toNat]

/-- `DecryptSingleRound`. -/
def decryptSingleRound (state : State) : State :=
  subBytes (inverseShiftRows state) inverseSubstitutionBox

/-- `EncryptSingleRound`. -/
def encryptSingleRound (state : State) : State :=
  subBytes (shiftRows state) substitutionBox

/-- The body of the loop of `MixColumns`, on the column `a b c d`. -/
def mixColumn (a b c d : BitVec 8) : Column :=
  let tmp := a ^^^ b ^^^ c ^^^ d
  #v[a ^^^ xtime (a ^^^ b) ^^^ tmp, b ^^^ xtime (b ^^^ c) ^^^ tmp,
    c ^^^ xtime (c ^^^ d) ^^^ tmp, d ^^^ xtime (d ^^^ a) ^^^ tmp]

/-- The body of the loop of `InverseMixColumns`, on the column `a b c d`. -/
def inverseMixColumn (a b c d : BitVec 8) : Column :=
  #v[multiply a 0x0E ^^^ multiply b 0x0B ^^^ multiply c 0x0D ^^^ multiply d 0x09,
    multiply a 0x09 ^^^ multiply b 0x0E ^^^ multiply c 0x0B ^^^ multiply d 0x0D,
    multiply a 0x0D ^^^ multiply b 0x09 ^^^ multiply c 0x0E ^^^ multiply d 0x0B,
    multiply a 0x0B ^^^ multiply b 0x0D ^^^ multiply c 0x09 ^^^ multiply d 0x0E]

/-- The loop `for (i = 0; i < 16; i += 4)` of the two column functions: byte `j` of the result is byte `j % 4` of the
body on the column `i = j / 4 * 4` holding it. -/
def forEachColumn (body : BitVec 8 → BitVec 8 → BitVec 8 → BitVec 8 → Column) (state : State) : State :=
  Vector.ofFn fun j =>
    let i := j.val / 4 * 4
    (body state[i] state[i + 1] state[i + 2] state[i + 3])[j.val % 4]

/-- `MixColumns`. -/
def mixColumns (state : State) : State := forEachColumn mixColumn state

/-- `InverseMixColumns`. -/
def inverseMixColumns (state : State) : State := forEachColumn inverseMixColumn state

/-! ## Bytes -/

/-- The low bit of a byte, as a byte, is 0 or 1. -/
theorem and_one_eq_zero_or_one (z : BitVec 8) : z &&& 1#8 = 0#8 ∨ z &&& 1#8 = 1#8 := by
  rcases Nat.mod_two_eq_zero_or_one z.toNat with h | h
  · left; apply BitVec.eq_of_toNat_eq; simp [h]
  · right; apply BitVec.eq_of_toNat_eq; simp [h]

/-- `xtime` shifts left and reduces by the AES polynomial when the top bit falls out. -/
theorem xtime_eq (x : BitVec 8) : xtime x = x <<< 1 ^^^ (if x.msb then 0x1B#8 else 0#8) := by
  have hbit : (x >>> 7) &&& 1#8 = if x.msb then 1#8 else 0#8 := by
    apply BitVec.eq_of_toNat_eq
    have hx := x.isLt
    rw [BitVec.toNat_and, BitVec.toNat_ushiftRight, Nat.shiftRight_eq_div_pow, BitVec.msb_eq_decide]
    split <;> simp_all [Nat.and_one_is_mod] <;> omega
  rw [xtime, hbit]
  split <;> simp

/-- `xtime` distributes over xor. -/
theorem xtime_xor (x y : BitVec 8) : xtime (x ^^^ y) = xtime x ^^^ xtime y := by
  have hmask : ∀ a b : Bool, (if (a ^^ b) = true then 0x1B#8 else 0#8) =
      (if a then 0x1B#8 else 0#8) ^^^ (if b then 0x1B#8 else 0#8) := by decide
  rw [xtime_eq, xtime_eq, xtime_eq, BitVec.msb_xor, BitVec.shiftLeft_xor_distrib, hmask]
  ac_rfl

/-- Multiplying by 0 or 1 distributes over xor. -/
theorem mul_xor_of_bit {m : BitVec 8} (hm : m = 0#8 ∨ m = 1#8) (u v : BitVec 8) :
    m * (u ^^^ v) = m * u ^^^ m * v := by
  rcases hm with rfl | rfl <;> simp

/-- Every term of `Multiply` is `0` or a power of `xtime`, so the product is additive in `x` for every `y`. -/
theorem multiply_xor (x x' y : BitVec 8) : multiply (x ^^^ x') y = multiply x y ^^^ multiply x' y := by
  simp only [multiply, xtime_xor, mul_xor_of_bit (and_one_eq_zero_or_one _)]
  ac_rfl

/-! ## Columns -/

/-- Byte-wise XOR of two columns. -/
def xorColumns (u v : Column) : Column := Vector.zipWith (· ^^^ ·) u v

@[simp] theorem getElem_xorColumns {u v : Column} {k : Nat} (hk : k < 4) :
    (xorColumns u v)[k] = u[k] ^^^ v[k] := by
  simp [xorColumns]

/-- The column with byte `x` in row `r` and zero elsewhere. -/
def single (r : Nat) (x : BitVec 8) : Column := Vector.ofFn fun k => if k.val = r then x else 0

@[simp] theorem getElem_single {r k : Nat} {x : BitVec 8} (hk : k < 4) :
    (single r x)[k] = if k = r then x else 0 := by
  simp [single]

/-- Placing a byte at row `r` of an otherwise zero column is additive. -/
theorem single_additive (r : Nat) : XorLinear.Additive xorColumns (single r) := by
  intro x y
  refine Vector.ext fun k hk => ?_
  simp only [getElem_single, getElem_xorColumns]
  split <;> simp

/-- A column is the XOR of its four single-byte parts. -/
theorem eq_xorColumns_single (v : Column) :
    v = xorColumns (single 0 v[0]) (xorColumns (single 1 v[1]) (xorColumns (single 2 v[2]) (single 3 v[3]))) := by
  refine Vector.ext fun k hk => ?_
  interval_cases k <;> simp

/-- A map of columns additive over XOR. -/
def ColumnAdditive (F : Column → Column) : Prop :=
  ∀ u v, F (xorColumns u v) = xorColumns (F u) (F v)

section Additive

variable {F G : Column → Column}

/-- Column-additive maps compose. -/
theorem ColumnAdditive.comp (hF : ColumnAdditive F) (hG : ColumnAdditive G) : ColumnAdditive (fun v => F (G v)) := by
  intro u v
  show F (G (xorColumns u v)) = xorColumns (F (G u)) (F (G v))
  rw [hG u v, hF (G u) (G v)]

/-- A column-additive map fixes the zero column at every row. -/
theorem ColumnAdditive.map_single_zero (hF : ColumnAdditive F) (r : Nat) : F (single r 0) = single r 0 := by
  have hz : xorColumns (single r 0) (single r 0) = single r 0 := by
    refine Vector.ext fun k hk => ?_
    simp
  have hself : ∀ u : Column, xorColumns u u = single r 0 := by
    intro u
    refine Vector.ext fun k hk => ?_
    simp
  calc F (single r 0) = F (xorColumns (single r 0) (single r 0)) := by rw [hz]
    _ = xorColumns (F (single r 0)) (F (single r 0)) := hF _ _
    _ = single r 0 := hself _

/-- On the columns with one nonzero byte, in row `r`, an additive map is fixed by the eight single bits. -/
theorem ColumnAdditive.map_single (hF : ColumnAdditive F) {r : Nat}
    (hb : ∀ i < 8, F (single r (BitVec.twoPow 8 i)) = single r (BitVec.twoPow 8 i)) (x : BitVec 8) :
    F (single r x) = single r x := by
  have hslice : XorLinear.Additive xorColumns fun x => F (single r x) := by
    intro x y
    show F (single r (x ^^^ y)) = xorColumns (F (single r x)) (F (single r y))
    rw [single_additive r x y, hF]
  exact XorLinear.eq_of_additive hslice (single_additive r) (hF.map_single_zero r) hb x

/-- An additive map of columns that keeps the 32 columns with a single bit set keeps every column. -/
theorem ColumnAdditive.eq_self (hF : ColumnAdditive F)
    (hb : ∀ r < 4, ∀ i < 8, F (single r (BitVec.twoPow 8 i)) = single r (BitVec.twoPow 8 i)) (v : Column) :
    F v = v := by
  rw [eq_xorColumns_single v, hF, hF, hF, hF.map_single (hb 0 (by decide)), hF.map_single (hb 1 (by decide)),
    hF.map_single (hb 2 (by decide)), hF.map_single (hb 3 (by decide))]

end Additive

/-- A loop body run on the four bytes of a column. -/
def onColumn (body : BitVec 8 → BitVec 8 → BitVec 8 → BitVec 8 → Column) (v : Column) : Column :=
  body v[0] v[1] v[2] v[3]

/-- `MixColumns` is additive on each column. -/
theorem mixColumn_additive : ColumnAdditive (onColumn mixColumn) := by
  intro u v
  refine Vector.ext fun r hr => ?_
  interval_cases r <;> simp [onColumn, mixColumn, xtime_xor] <;> ac_rfl

/-- `InverseMixColumns` is additive on each column. -/
theorem inverseMixColumn_additive : ColumnAdditive (onColumn inverseMixColumn) := by
  intro u v
  refine Vector.ext fun r hr => ?_
  interval_cases r <;> simp [onColumn, inverseMixColumn, multiply_xor] <;> ac_rfl

/-- On one column, the body of `InverseMixColumns` undoes the body of `MixColumns`. -/
theorem inverseMixColumn_mixColumn (v : Column) : onColumn inverseMixColumn (onColumn mixColumn v) = v :=
  (inverseMixColumn_additive.comp mixColumn_additive).eq_self (by decide +kernel) v

/-- On one column, the body of `MixColumns` undoes the body of `InverseMixColumns`. -/
theorem mixColumn_inverseMixColumn (v : Column) : onColumn mixColumn (onColumn inverseMixColumn v) = v :=
  (mixColumn_additive.comp inverseMixColumn_additive).eq_self (by decide +kernel) v

/-! ## The state -/

/-- Byte `k` of the column at `i` after the loop is byte `k` of the body on that column. -/
theorem getElem_forEachColumn {body : BitVec 8 → BitVec 8 → BitVec 8 → BitVec 8 → Column} {s : State} {i k : Nat}
    (hi : i % 4 = 0) (h16 : i < 16) (hk : k < 4) :
    (forEachColumn body s)[i + k] = (body s[i] s[i + 1] s[i + 2] s[i + 3])[k] := by
  have e1 : (i + k) / 4 * 4 = i := by omega
  have e2 : (i + k) % 4 = k := by omega
  simp only [forEachColumn, Vector.getElem_ofFn, e1, e2]

/-- Running the loop with `f` and then with `g` undoes it when `g` undoes `f` on every column. -/
theorem forEachColumn_forEachColumn {f g : BitVec 8 → BitVec 8 → BitVec 8 → BitVec 8 → Column}
    (h : ∀ v, onColumn g (onColumn f v) = v) (s : State) : forEachColumn g (forEachColumn f s) = s := by
  refine Vector.ext fun j hj => ?_
  obtain ⟨i, k, hi, hk, rfl⟩ : ∃ i k, i % 4 = 0 ∧ k < 4 ∧ j = i + k :=
    ⟨j / 4 * 4, j % 4, by omega, Nat.mod_lt _ (by decide), by omega⟩
  have h16 : i < 16 := by omega
  have h0 := @getElem_forEachColumn f s i 0 hi h16 (by decide)
  simp only [Nat.add_zero] at h0
  have hv := h #v[s[i], s[i + 1], s[i + 2], s[i + 3]]
  simp only [onColumn, Vector.getElem_mk, List.getElem_toArray, List.getElem_cons_zero,
    List.getElem_cons_succ] at hv
  rw [getElem_forEachColumn hi h16 hk, h0, getElem_forEachColumn hi h16 (by decide),
    getElem_forEachColumn hi h16 (by decide), getElem_forEachColumn hi h16 (by decide)]
  rw [hv]
  interval_cases k <;> rfl

/-- `InverseMixColumns` undoes `MixColumns`. -/
theorem inverseMixColumns_mixColumns (s : State) : inverseMixColumns (mixColumns s) = s :=
  forEachColumn_forEachColumn inverseMixColumn_mixColumn s

/-- `MixColumns` undoes `InverseMixColumns`. -/
theorem mixColumns_inverseMixColumns (s : State) : mixColumns (inverseMixColumns s) = s :=
  forEachColumn_forEachColumn mixColumn_inverseMixColumn s

/-- `InverseShiftRows` undoes `ShiftRows`. -/
theorem inverseShiftRows_shiftRows (s : State) : inverseShiftRows (shiftRows s) = s := by
  refine Vector.ext fun i hi => ?_
  interval_cases i <;> rfl

/-- `ShiftRows` undoes `InverseShiftRows`. -/
theorem shiftRows_inverseShiftRows (s : State) : shiftRows (inverseShiftRows s) = s := by
  refine Vector.ext fun i hi => ?_
  interval_cases i <;> rfl

/-- The row permutations move bytes without reading them, so they commute with `SubBytes`. -/
theorem inverseShiftRows_subBytes (s : State) (table : SubstitutionTable) :
    inverseShiftRows (subBytes s table) = subBytes (inverseShiftRows s) table := by
  refine Vector.ext fun i hi => ?_
  interval_cases i <;> simp [inverseShiftRows, subBytes]

/-- `SubBytes` works byte by byte, so it commutes with `ShiftRows`. -/
theorem shiftRows_subBytes (s : State) (table : SubstitutionTable) :
    shiftRows (subBytes s table) = subBytes (shiftRows s) table := by
  refine Vector.ext fun i hi => ?_
  interval_cases i <;> simp [shiftRows, subBytes]

/-- A table inverts another when it does on their packings, which the kernel reads in constant time per entry. -/
theorem getElem_getElem_of_pack {t t' : SubstitutionTable}
    (h : ∀ n < 256, (Lanes.pack 8 t'.toList >>> ((Lanes.pack 8 t.toList >>> (n * 8)) % 2 ^ 8 * 8)) % 2 ^ 8 = n)
    (x : BitVec 8) : t'[t[x.toNat].toNat] = x := by
  apply BitVec.eq_of_toNat_eq
  rw [Lanes.toNat_getElem_eq_pack_toList, Lanes.toNat_getElem_eq_pack_toList]
  exact h x.toNat x.isLt

/-- Substituting twice with tables that invert each other gives the state back. -/
theorem subBytes_subBytes {t t' : SubstitutionTable} (h : ∀ x : BitVec 8, t'[t[x.toNat].toNat] = x) (s : State) :
    subBytes (subBytes s t) t' = s := by
  refine Vector.ext fun i hi => ?_
  simp [subBytes, h]

/-- `inverse_substitution_box` inverts `substitution_box`, checked over the 256 bytes. -/
theorem inverseSubstitutionBox_substitutionBox :
    ∀ x : BitVec 8, inverseSubstitutionBox[substitutionBox[x.toNat].toNat] = x :=
  getElem_getElem_of_pack (by decide +kernel)

/-- The inverse S-box is inverted by the S-box. -/
theorem substitutionBox_inverseSubstitutionBox :
    ∀ x : BitVec 8, substitutionBox[inverseSubstitutionBox[x.toNat].toNat] = x :=
  getElem_getElem_of_pack (by decide +kernel)

/-- One decryption round undoes one encryption round. -/
theorem decryptSingleRound_encryptSingleRound (s : State) : decryptSingleRound (encryptSingleRound s) = s := by
  rw [decryptSingleRound, encryptSingleRound, inverseShiftRows_subBytes, inverseShiftRows_shiftRows,
    subBytes_subBytes inverseSubstitutionBox_substitutionBox]

/-- One encryption round undoes one decryption round. -/
theorem encryptSingleRound_decryptSingleRound (s : State) : encryptSingleRound (decryptSingleRound s) = s := by
  rw [decryptSingleRound, encryptSingleRound, shiftRows_subBytes, shiftRows_inverseShiftRows,
    subBytes_subBytes substitutionBox_inverseSubstitutionBox]

/-- The AES helpers invert each other: `InverseMixColumns` and `MixColumns` in both orders, and a decryption round after
an encryption round. -/
theorem aes_helpers_invert (s : State) :
    inverseMixColumns (mixColumns s) = s ∧ mixColumns (inverseMixColumns s) = s ∧
      decryptSingleRound (encryptSingleRound s) = s :=
  ⟨inverseMixColumns_mixColumns s, mixColumns_inverseMixColumns s, decryptSingleRound_encryptSingleRound s⟩

end Dynarmic.AES
