import Mathlib.Data.BitVec

/-!
# Lanes of a bit vector

A SIMD register of `n` bits holds lanes of `esize` bits, lane `i` in bits `i * esize` to `i * esize + esize - 1`: the
`Elem[vector, i, esize]` of the Arm pseudocode. `get` reads a lane and `set` writes one; `setRange` writes a run of
lanes from a function of the lane index, as a pseudocode loop `for e = lo to hi` does, and `ofFn` writes every lane of
a zero vector, which is how an element-wise operation is built.

The rules: a lane reads back what was written to it and every other lane is untouched (`get_set_self`,
`get_set_of_ne`, `get_setRange`); two vectors with the same lanes are equal (`ext`); rotating the whole vector by `k`
lanes moves lane `i + k` to lane `i` (`get_rotateRight`, `get_rotateLeft`); a lane of `c * e` bits is `c` lanes of `e`
bits (`get_get`, `get_set_wide`); and a concatenation, a truncation and the bitwise operations act lane by lane.
-/

namespace Lanes

variable {n : Nat}

/-- Lane `i` of `esize` bits. -/
def get (esize : Nat) (x : BitVec n) (i : Nat) : BitVec esize :=
  x.extractLsb' (i * esize) esize

/-- The vector with lane `i` of `esize` bits replaced by `v`; bits past the width are dropped. -/
def set (esize : Nat) (x : BitVec n) (i : Nat) (v : BitVec esize) : BitVec n :=
  x &&& ~~~((BitVec.allOnes esize).setWidth n <<< (i * esize)) ||| v.setWidth n <<< (i * esize)

/-- Bit `t` of lane `i` is bit `i * esize + t` of the vector, within the lane. -/
theorem getLsbD_get (esize : Nat) (x : BitVec n) (i t : Nat) :
    (get esize x i).getLsbD t = (decide (t < esize) && x.getLsbD (i * esize + t)) := by
  rw [get, BitVec.getLsbD_extractLsb']

/-- `set` writes the bits of lane `i` and keeps the others. -/
theorem getLsbD_set {esize : Nat} (x : BitVec n) (i : Nat) (v : BitVec esize) {j : Nat} (hj : j < n) :
    (set esize x i v).getLsbD j =
      if i * esize ≤ j ∧ j < i * esize + esize then v.getLsbD (j - i * esize) else x.getLsbD j := by
  by_cases hl : i * esize ≤ j ∧ j < i * esize + esize
  · simp [set, hj, hl, show ¬ j < i * esize by omega, show j - i * esize < esize by omega]
  · rw [if_neg hl]
    by_cases hlo : j < i * esize
    · simp [set, hj, hlo]
    · have hhi : ¬ j - i * esize < esize := by omega
      simp [set, hj, hlo, hhi, BitVec.getLsbD_of_ge v (j - i * esize) (by omega)]


/-- A lane written within the vector reads back. -/
theorem get_set_self {esize : Nat} (x : BitVec n) {i : Nat} (v : BitVec esize) (h : i * esize + esize ≤ n) :
    get esize (set esize x i v) i = v := by
  apply BitVec.eq_of_getLsbD_eq
  intro t ht
  rw [getLsbD_get, getLsbD_set x i v (by omega), if_pos (by omega)]
  simp [ht]

/-- Writing a lane keeps every other lane. -/
theorem get_set_of_ne {esize : Nat} (x : BitVec n) {i j : Nat} (v : BitVec esize) (hij : i ≠ j) :
    get esize (set esize x i v) j = get esize x j := by
  apply BitVec.eq_of_getLsbD_eq
  intro t ht
  rw [getLsbD_get, getLsbD_get]
  by_cases hn : j * esize + t < n
  · rw [getLsbD_set x i v hn, if_neg]
    rcases Nat.lt_or_gt_of_ne hij with h | h
    · have : (i + 1) * esize ≤ j * esize := Nat.mul_le_mul_right _ h
      rw [Nat.succ_mul] at this
      omega
    · have : (j + 1) * esize ≤ i * esize := Nat.mul_le_mul_right _ h
      rw [Nat.succ_mul] at this
      omega
  · rw [BitVec.getLsbD_of_ge _ _ (by omega), BitVec.getLsbD_of_ge _ _ (by omega)]


/-- Reading a lane after a write: the written value in that lane, the old one elsewhere. -/
theorem get_set {esize : Nat} (x : BitVec n) {i : Nat} (v : BitVec esize) (h : i * esize + esize ≤ n) (j : Nat) :
    get esize (set esize x i v) j = if i = j then v else get esize x j := by
  split
  · rename_i hij
    rw [← hij]
    exact get_set_self x v h
  · rename_i hij
    exact get_set_of_ne x v hij

/-- Lanes `lo` to `lo + count - 1` of `x` replaced by `f lo`, ..., `f (lo + count - 1)`, in that order. -/
def setRange (esize : Nat) (x : BitVec n) (lo count : Nat) (f : Nat → BitVec esize) : BitVec n :=
  (List.range' lo count).foldl (fun r e => set esize r e (f e)) x

/-- The vector whose first `count` lanes are `f 0`, ..., `f (count - 1)` and whose other bits are clear. -/
def ofFn (esize count : Nat) (f : Nat → BitVec esize) : BitVec n :=
  setRange esize 0 0 count f

/-- `setRange` writes the lanes from `lo` on and keeps the others. -/
theorem get_setRange {esize : Nat} (x : BitVec n) {lo count : Nat} (f : Nat → BitVec esize)
    (h : (lo + count) * esize ≤ n) (j : Nat) :
    get esize (setRange esize x lo count f) j = if lo ≤ j ∧ j < lo + count then f j else get esize x j := by
  induction count generalizing x lo with
  | zero => simp [setRange]
  | succ c ih =>
    have hlo : lo * esize + esize ≤ n := by
      have : (lo + 1) * esize ≤ (lo + (c + 1)) * esize := Nat.mul_le_mul_right _ (by omega)
      rw [Nat.succ_mul] at this
      omega
    rw [setRange, List.range'_succ, List.foldl_cons, ← setRange, ih _ (by rw [Nat.add_right_comm]; exact h)]
    by_cases hj : j = lo
    · rw [hj, if_neg (by omega), get_set_self _ _ hlo, if_pos (by omega)]
    · rw [get_set_of_ne _ _ (Ne.symm hj)]
      by_cases hin : lo + 1 ≤ j ∧ j < lo + 1 + c
      · rw [if_pos hin, if_pos (by omega)]
      · rw [if_neg hin, if_neg (by omega)]

/-- `ofFn` has `f j` in lane `j`. -/
theorem get_ofFn {esize count : Nat} (f : Nat → BitVec esize) {j : Nat} (hj : j < count) (h : count * esize ≤ n) :
    get esize (ofFn (n := n) esize count f) j = f j := by
  rw [ofFn, get_setRange _ _ (by rwa [Nat.zero_add]), if_pos (by omega)]

/-- Two vectors of `count` lanes are equal when their lanes are. -/
theorem ext {e c : Nat} {x y : BitVec n} (hn : n ≤ c * e)
    (h : ∀ i < c, get e x i = get e y i) : x = y := by
  apply BitVec.eq_of_getLsbD_eq
  intro j hj
  have hpos : 0 < e := Nat.pos_of_ne_zero fun h0 => by rw [h0, Nat.mul_zero] at hn; omega
  have hi : j / e < c := by rw [Nat.div_lt_iff_lt_mul hpos]; omega
  have hb := congrArg (fun v => v.getLsbD (j % e)) (h (j / e) hi)
  simp only [getLsbD_get, Nat.mod_lt j hpos, decide_true, Bool.true_and, Nat.div_add_mod'] at hb
  exact hb

/-- Rotating a vector of `count` lanes right by `k` lanes brings lane `i + k` down to lane `i`. -/
theorem get_rotateRight {e c : Nat} (x : BitVec n) (hn : n = c * e) {i k : Nat} (hi : i < c)
    (hk : k < c) : get e (x.rotateRight (k * e)) i = get e x ((i + k) % c) := by
  apply BitVec.eq_of_getLsbD_eq
  intro t ht
  have hie : (i + 1) * e ≤ c * e := Nat.mul_le_mul_right _ hi
  have hke : (k + 1) * e ≤ c * e := Nat.mul_le_mul_right _ hk
  have hadd : (i + k) * e = i * e + k * e := Nat.add_mul _ _ _
  rw [Nat.succ_mul] at hie hke
  rw [getLsbD_get, getLsbD_get, BitVec.getLsbD_rotateRight, Nat.mod_eq_of_lt (by omega)]
  simp only [ht, decide_true, Bool.true_and, Bool.cond_decide]
  by_cases hik : i + k < c
  · have : (i + k + 1) * e ≤ c * e := Nat.mul_le_mul_right _ hik
    rw [Nat.succ_mul] at this
    rw [Nat.mod_eq_of_lt hik, if_pos (by omega)]
    congr 1
    omega
  · have : c * e ≤ (i + k) * e := Nat.mul_le_mul_right _ (by omega)
    have hsub : (i + k - c) * e = (i + k) * e - c * e := Nat.sub_mul _ _ _
    rw [Nat.mod_eq_sub_mod (by omega), Nat.mod_eq_of_lt (by omega), if_neg (by omega)]
    simp only [show i * e + t < n by omega, decide_true, Bool.true_and]
    congr 1
    omega

/-- The lanes of a concatenation: those of the low part, then those of the high part. -/
theorem get_append {e c m : Nat} (hi : BitVec m) (lo : BitVec (c * e)) (i : Nat) :
    get e (hi ++ lo) i = if i < c then get e lo i else get e hi (i - c) := by
  apply BitVec.eq_of_getLsbD_eq
  intro t ht
  split
  · rename_i hic
    have : (i + 1) * e ≤ c * e := Nat.mul_le_mul_right _ hic
    rw [Nat.succ_mul] at this
    rw [getLsbD_get, getLsbD_get, BitVec.getLsbD_append, if_pos (by omega)]
  · rename_i hic
    have : c * e ≤ i * e := Nat.mul_le_mul_right _ (by omega)
    have hsub : (i - c) * e = i * e - c * e := Nat.sub_mul _ _ _
    rw [getLsbD_get, getLsbD_get, BitVec.getLsbD_append, if_neg (by omega)]
    congr 2
    omega

/-- A lane of a slice that starts on a lane boundary. -/
theorem get_extractLsb' {e s len : Nat} (x : BitVec n) {i : Nat} (hs : s % e = 0) (hi : i * e + e ≤ len) :
    get e (x.extractLsb' s len) i = get e x (s / e + i) := by
  apply BitVec.eq_of_getLsbD_eq
  intro t ht
  have hdiv := Nat.div_add_mod s e
  have hidx : (s / e + i) * e + t = s + (i * e + t) := by
    rw [Nat.add_mul, Nat.mul_comm (s / e) e]
    omega
  rw [getLsbD_get, getLsbD_get, BitVec.getLsbD_extractLsb', hidx]
  simp [ht, show i * e + t < len by omega]

/-- Lane `k` of lane `i` of `c * e` bits is lane `i * c + k` of `e` bits. -/
theorem get_get {e c : Nat} (x : BitVec n) (i : Nat) {k : Nat} (hk : k < c) :
    get e (get (c * e) x i) k = get e x (i * c + k) := by
  apply BitVec.eq_of_getLsbD_eq
  intro t ht
  have : (k + 1) * e ≤ c * e := Nat.mul_le_mul_right _ hk
  rw [Nat.succ_mul] at this
  have hidx : i * (c * e) + (k * e + t) = (i * c + k) * e + t := by
    rw [Nat.add_mul, Nat.mul_assoc, Nat.add_assoc]
  rw [getLsbD_get, getLsbD_get, getLsbD_get, hidx]
  simp [ht, show k * e + t < c * e by omega]


/-- A lane is a lane of the wider lane that contains it. -/
theorem get_eq_get_get {e c : Nat} (x : BitVec n) (hc : 0 < c) (j : Nat) :
    get e x j = get e (get (c * e) x (j / c)) (j % c) := by
  rw [get_get x _ (Nat.mod_lt j hc), Nat.div_add_mod']

/-- Writing a lane of `c * e` bits writes `c` lanes of `e` bits. -/
theorem get_set_wide {e c : Nat} (x : BitVec n) {i : Nat} (v : BitVec (c * e)) (hc : 0 < c)
    (h : i * (c * e) + c * e ≤ n) (j : Nat) :
    get e (set (c * e) x i v) j = if i * c ≤ j ∧ j < i * c + c then get e v (j - i * c) else get e x j := by
  have hj := Nat.div_add_mod' j c
  have hmod := Nat.mod_lt j hc
  rw [get_eq_get_get (set (c * e) x i v) hc j]
  by_cases hin : i * c ≤ j ∧ j < i * c + c
  · have hdiv : j / c = i := Nat.div_eq_of_lt_le hin.1 (by rw [Nat.succ_mul]; exact hin.2)
    rw [if_pos hin, hdiv, get_set_self _ _ h]
    congr 1
    rw [hdiv] at hj
    omega
  · have hdiv : i ≠ j / c := by
      rintro rfl
      exact hin ⟨by omega, by omega⟩
    rw [if_neg hin, get_set_of_ne _ _ hdiv, ← get_eq_get_get x hc j]

/-- A lane past the width is zero. -/
theorem get_of_ge {e : Nat} (x : BitVec n) {i : Nat} (h : n ≤ i * e) : get e x i = 0 := by
  apply BitVec.eq_of_getLsbD_eq
  intro t _
  rw [getLsbD_get, BitVec.getLsbD_of_ge x _ (by omega), Bool.and_false]
  exact (BitVec.getLsbD_zero).symm

/-- Truncating or extending a vector keeps every lane that fits in both widths. -/
theorem get_setWidth {e m : Nat} (x : BitVec m) {i : Nat} (h : i * e + e ≤ n) :
    get e (x.setWidth n) i = get e x i := by
  apply BitVec.eq_of_getLsbD_eq
  intro t ht
  rw [getLsbD_get, getLsbD_get, BitVec.getLsbD_setWidth]
  simp [ht, show i * e + t < n by omega]

/-- Lanes distribute over xor. -/
theorem get_xor {e : Nat} (x y : BitVec n) (i : Nat) : get e (x ^^^ y) i = get e x i ^^^ get e y i :=
  BitVec.extractLsb'_xor

/-- Lanes distribute over or. -/
theorem get_or {e : Nat} (x y : BitVec n) (i : Nat) : get e (x ||| y) i = get e x i ||| get e y i :=
  BitVec.extractLsb'_or


/-- Rotating a vector of `count` lanes left by `k` lanes moves lane `i` up to lane `i + k`. -/
theorem get_rotateLeft {e c : Nat} (x : BitVec n) (hn : n = c * e) {i k : Nat} (hi : i < c)
    (hk : k < c) : get e (x.rotateLeft (k * e)) i = get e x ((i + c - k) % c) := by
  apply BitVec.eq_of_getLsbD_eq
  intro t ht
  have hie : (i + 1) * e ≤ c * e := Nat.mul_le_mul_right _ hi
  have hke : (k + 1) * e ≤ c * e := Nat.mul_le_mul_right _ hk
  rw [Nat.succ_mul] at hie hke
  rw [getLsbD_get, getLsbD_get, BitVec.getLsbD_rotateLeft, Nat.mod_eq_of_lt (by omega)]
  simp only [ht, decide_true, Bool.true_and, Bool.cond_decide]
  by_cases hik : i < k
  · have : (i + 1) * e ≤ k * e := Nat.mul_le_mul_right _ hik
    have hsub : (i + c - k) * e = i * e + c * e - k * e := by
      rw [Nat.sub_mul, Nat.add_mul]
    rw [Nat.succ_mul] at this
    rw [Nat.mod_eq_of_lt (by omega), if_pos (by omega)]
    congr 1
    omega
  · have : k * e ≤ i * e := Nat.mul_le_mul_right _ (by omega)
    have hsub : (i - k) * e = i * e - k * e := Nat.sub_mul _ _ _
    rw [show i + c - k = i - k + c by omega, Nat.add_mod_right, Nat.mod_eq_of_lt (by omega),
      if_neg (by omega)]
    simp only [show i * e + t < n by omega, decide_true, Bool.true_and]
    congr 1
    omega

/-! ## A list packed into a number -/

/-- The entries of `l` packed little-endian, `esize` bits each: a table as one number, entry `k` in lane `k`. -/
def pack (esize : Nat) : List (BitVec esize) → Nat
  | [] => 0
  | b :: l => b.toNat + 2 ^ esize * pack esize l

/-- Entry `k` of a list is lane `k` of its packing. -/
theorem toNat_getElem_eq_pack {e : Nat} (l : List (BitVec e)) {k : Nat} (hk : k < l.length) :
    l[k].toNat = (pack e l >>> (k * e)) % 2 ^ e := by
  induction l generalizing k with
  | nil => simp at hk
  | cons b l ih =>
    cases k with
    | zero => simp [pack, Nat.add_mul_mod_self_left, Nat.mod_eq_of_lt b.isLt]
    | succ k =>
      have hdiv : (b.toNat + 2 ^ e * pack e l) >>> e = pack e l := by
        rw [Nat.shiftRight_eq_div_pow, Nat.add_mul_div_left _ _ (Nat.two_pow_pos e), Nat.div_eq_of_lt b.isLt,
          Nat.zero_add]
      rw [List.getElem_cons_succ, ih (by simpa using hk), pack, Nat.succ_mul, Nat.add_comm (k * e) e,
        Nat.shiftRight_add, hdiv]

/-- Entry `k` of a vector is lane `k` of the packing of its list. -/
theorem toNat_getElem_eq_pack_toList {e n : Nat} (v : Vector (BitVec e) n) {k : Nat} (hk : k < n) :
    v[k].toNat = (pack e v.toList >>> (k * e)) % 2 ^ e := by
  have h := toNat_getElem_eq_pack v.toList (k := k) (by simpa using hk)
  simpa using h

end Lanes
