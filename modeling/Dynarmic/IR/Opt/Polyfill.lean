import Dynarmic.Lib.Lanes
import Dynarmic.IR.Semantics

/-!
# The SHA-256 polyfills

`PolyfillSHA256MessageSchedule0`, `PolyfillSHA256MessageSchedule1` and `PolyfillSHA256Hash` (ir/opt/polyfill_pass.cpp).
On a host without the SHA extensions the pass replaces each `SHA256MessageSchedule0`, `SHA256MessageSchedule1` and
`SHA256Hash` instruction by a sequence of vector and 32-bit operations that the emitter builds before it. The A64
translators `SHA256SU0`, `SHA256SU1`, `SHA256H` and `SHA256H2` (frontend/A64/translate/impl/simd_sha.cpp) are where
those three opcodes come from.

A sequence is written here as the values its instructions compute, each `ir.` call of the C++ by the function of
`IREmitter` that computes the value of the instruction it emits. The 32-bit calls are the opcodes of `IR.Semantics` with
a zero carry in, evaluated by `evalOp`. The vector opcodes are given by their lanes, as the x64 backend computes them:
`VectorExtract` is `palignr` on `b:a`, `VectorRotateWholeVectorRight` is a `pshufd` that rotates the 32-bit lanes, the
element-wise operations act on each lane. `VectorRotateRight` is not an opcode: the emitter builds it from two shifts
and an `Or`. The assertions of the emitter (a lane inside the vector, a rotation below the lane size, a whole-vector
rotation by a multiple of 32) hold at every call of the polyfills and are not modelled.

The opcodes mean the Arm pseudocode `SHA256SU0`, `SHA256SU1` and `SHA256hash`, written below in its own terms: the
slices `operand2<31:0>:operand1<127:32>`, the `Elem[]` reads and writes of its loops, and the rotation of the 256-bit
`Y:X` left by 32 bits after each round of the hash.
-/

namespace Dynarmic.IR

namespace IREmitter

/-- The value an instruction of opcode `op` on plain arguments computes, as `evalOp` gives it. -/
def valueOf (op : Opcode) (args : List Val) : Option Val :=
  (evalOp (fun k => (args[k.val]?).map Outcome.plain) op).map (·.value)

/-- The value of a 32-bit instruction; zero stands for a type mismatch, which the emitter's types rule out. -/
def value32 (op : Opcode) (args : List Val) : BitVec 32 :=
  ((valueOf op args).bind Val.asU32).getD 0

/-- `RotateRight(value_in, shift_amount)` on a `U32`: `RotateRight32` with the carry in `Imm1(0)`. -/
def rotateRight (valueIn : BitVec 32) (shiftAmount : BitVec 8) : BitVec 32 :=
  value32 .rotateRight32 [.u32 valueIn, .u8 shiftAmount, .u1 false]

/-- `LogicalShiftRight(value_in, shift_amount)` on a `U32`: `LogicalShiftRight32` with the carry in `Imm1(0)`. -/
def logicalShiftRight (valueIn : BitVec 32) (shiftAmount : BitVec 8) : BitVec 32 :=
  value32 .logicalShiftRight32 [.u32 valueIn, .u8 shiftAmount, .u1 false]

/-- `Add(a, b)` on `U32`s: `Add32` with the carry in `Imm1(0)`. -/
def add (a b : BitVec 32) : BitVec 32 :=
  value32 .add32 [.u32 a, .u32 b, .u1 false]

/-- `Eor(a, b)` on `U32`s. -/
def eor (a b : BitVec 32) : BitVec 32 :=
  value32 .eor32 [.u32 a, .u32 b]

/-- `And(a, b)` on `U32`s. -/
def and (a b : BitVec 32) : BitVec 32 :=
  value32 .and32 [.u32 a, .u32 b]

/-- `Or(a, b)` on `U32`s. -/
def or (a b : BitVec 32) : BitVec 32 :=
  value32 .or32 [.u32 a, .u32 b]

/-- The value of a 32-bit shift by a byte amount with a zero carry in, which a zero amount leaves alone. -/
theorem value32_shift (op : Opcode) (f : BitVec 32 → Nat → BitVec 32) (carryOut : BitVec 32 → Nat → Bool)
    (hop : ∀ a, evalOp a op = do some (shift32 f carryOut (← argU32 a 0) (← argU8 a 1) (← argU1 a 2)))
    (hf : ∀ x, f x 0 = x) (x : BitVec 32) (n : BitVec 8) :
    value32 op [.u32 x, .u8 n, .u1 false] = f x n.toNat := by
  by_cases hn : n = 0
  · simp [value32, valueOf, hop, argU32, argU8, argU1, shift32, Outcome.plain, Val.asU32, Val.asU8, Val.asU1, hn, hf]
  · simp [value32, valueOf, hop, argU32, argU8, argU1, shift32, Outcome.plain, Val.asU32, Val.asU8, Val.asU1,
      show n ≠ 0#8 from hn]

@[simp] theorem rotateRight_eq (x : BitVec 32) (n : BitVec 8) : rotateRight x n = x.rotateRight n.toNat :=
  value32_shift .rotateRight32 _ _ (fun _ => rfl) (fun x => by simp [BitVec.rotateRight_def]) x n

@[simp] theorem logicalShiftRight_eq (x : BitVec 32) (n : BitVec 8) : logicalShiftRight x n = x >>> n.toNat :=
  value32_shift .logicalShiftRight32 _ _ (fun _ => rfl) (fun x => BitVec.ushiftRight_zero x) x n

@[simp] theorem add_eq (a b : BitVec 32) : add a b = a + b := by
  have h := addWithCarry_fst a b false
  simp only [Bool.toNat_false, BitVec.add_zero] at h
  simp [add, value32, valueOf, evalOp, argU32, argU1, addOutcome, h, Outcome.plain, Val.asU32, Val.asU1]

@[simp] theorem eor_eq (a b : BitVec 32) : eor a b = a ^^^ b := by
  simp [eor, value32, valueOf, evalOp, binary32, argU32, Outcome.plain, Val.asU32]

@[simp] theorem and_eq (a b : BitVec 32) : and a b = a &&& b := by
  simp [and, value32, valueOf, evalOp, binary32, argU32, Outcome.plain, Val.asU32]

@[simp] theorem or_eq (a b : BitVec 32) : or a b = a ||| b := by
  simp [or, value32, valueOf, evalOp, binary32, argU32, Outcome.plain, Val.asU32]

/-! ### Vector operations -/

/-- `ZeroVector()`. -/
def zeroVector : BitVec 128 := 0

/-- `VectorGetElement(esize, a, index)`. -/
def vectorGetElement (esize : Nat) (a : BitVec 128) (index : Nat) : BitVec esize :=
  Lanes.get esize a index

/-- `VectorSetElement(esize, a, index, elem)`. -/
def vectorSetElement (esize : Nat) (a : BitVec 128) (index : Nat) (elem : BitVec esize) : BitVec 128 :=
  Lanes.set esize a index elem

/-- `VectorExtract(a, b, position)`: the 128 bits of `b:a` from bit `position` up, which `palignr` computes. -/
def vectorExtract (a b : BitVec 128) (position : Nat) : BitVec 128 :=
  (b ++ a).extractLsb' position 128

/-- `VectorRotateWholeVectorRight(a, amount)`: the `pshufd` that moves each 32-bit lane down by `amount / 32` places,
round the vector. -/
def vectorRotateWholeVectorRight (a : BitVec 128) (amount : Nat) : BitVec 128 :=
  a.rotateRight amount

/-- `VectorAdd(esize, a, b)`: lane by lane, modulo `2 ^ esize`. -/
def vectorAdd (esize : Nat) (a b : BitVec 128) : BitVec 128 :=
  Lanes.ofFn esize (128 / esize) fun e => Lanes.get esize a e + Lanes.get esize b e

/-- `VectorLogicalShiftRight(esize, a, shift_amount)`: lane by lane. -/
def vectorLogicalShiftRight (esize : Nat) (a : BitVec 128) (shiftAmount : Nat) : BitVec 128 :=
  Lanes.ofFn esize (128 / esize) fun e => Lanes.get esize a e >>> shiftAmount

/-- `VectorLogicalShiftLeft(esize, a, shift_amount)`: lane by lane. -/
def vectorLogicalShiftLeft (esize : Nat) (a : BitVec 128) (shiftAmount : Nat) : BitVec 128 :=
  Lanes.ofFn esize (128 / esize) fun e => Lanes.get esize a e <<< shiftAmount

/-- `VectorEor(a, b)`. -/
def vectorEor (a b : BitVec 128) : BitVec 128 :=
  a ^^^ b

/-- `VectorOr(a, b)`. -/
def vectorOr (a b : BitVec 128) : BitVec 128 :=
  a ||| b

/-- `IREmitter::VectorRotateRight(esize, a, amount)`: the operand itself for a zero amount, else the `Or` of a right
shift by `amount` and a left shift by `esize - amount`. -/
def vectorRotateRight (esize : Nat) (a : BitVec 128) (amount : Nat) : BitVec 128 :=
  if amount = 0 then a
  else vectorOr (vectorLogicalShiftRight esize a amount) (vectorLogicalShiftLeft esize a (esize - amount))

/-- `VectorZeroUpper(a)`, as `evalOp` computes it. -/
def vectorZeroUpper (a : BitVec 128) : BitVec 128 :=
  match valueOf .vectorZeroUpper [.u128 a] with
  | some (.u128 r) => r
  | _ => 0

section Lanes

variable {esize i : Nat}

/-- `VectorAdd` adds lane by lane. -/
theorem get_vectorAdd (a b : BitVec 128) (hi : i < 128 / esize) :
    Lanes.get esize (vectorAdd esize a b) i = Lanes.get esize a i + Lanes.get esize b i :=
  Lanes.get_ofFn _ hi (Nat.div_mul_le_self 128 esize)

/-- `VectorLogicalShiftRight` shifts lane by lane. -/
theorem get_vectorLogicalShiftRight (a : BitVec 128) (s : Nat) (hi : i < 128 / esize) :
    Lanes.get esize (vectorLogicalShiftRight esize a s) i = Lanes.get esize a i >>> s :=
  Lanes.get_ofFn _ hi (Nat.div_mul_le_self 128 esize)

/-- `VectorLogicalShiftLeft` shifts lane by lane. -/
theorem get_vectorLogicalShiftLeft (a : BitVec 128) (s : Nat) (hi : i < 128 / esize) :
    Lanes.get esize (vectorLogicalShiftLeft esize a s) i = Lanes.get esize a i <<< s :=
  Lanes.get_ofFn _ hi (Nat.div_mul_le_self 128 esize)

/-- The two shifts of `VectorRotateRight` put together rotate every lane. -/
theorem get_vectorRotateRight (a : BitVec 128) {amount : Nat} (h : amount < esize) (hi : i < 128 / esize) :
    Lanes.get esize (vectorRotateRight esize a amount) i = (Lanes.get esize a i).rotateRight amount := by
  rw [vectorRotateRight]
  split
  · rename_i h0
    simp [h0, BitVec.rotateRight_def]
  · rw [vectorOr, Lanes.get_or, get_vectorLogicalShiftRight a _ hi, get_vectorLogicalShiftLeft a _ hi,
      BitVec.rotateRight_def, Nat.mod_eq_of_lt h]

/-- `VectorEor` is xor lane by lane, at every lane size. -/
theorem get_vectorEor (a b : BitVec 128) (i : Nat) :
    Lanes.get esize (vectorEor a b) i = Lanes.get esize a i ^^^ Lanes.get esize b i :=
  Lanes.get_xor a b i

/-- `VectorRotateWholeVectorRight` by `amount` bits, a multiple of 32, brings lane `i + amount / 32` down to lane
`i`. -/
theorem get_vectorRotateWholeVectorRight (a : BitVec 128) {amount : Nat} (h32 : amount % 32 = 0) (h : amount < 128)
    (hi : i < 4) : Lanes.get 32 (vectorRotateWholeVectorRight a amount) i = Lanes.get 32 a ((i + amount / 32) % 4) := by
  obtain ⟨k, rfl⟩ : ∃ k, amount = k * 32 := ⟨amount / 32, by omega⟩
  rw [vectorRotateWholeVectorRight, Nat.mul_div_cancel k (by decide)]
  exact Lanes.get_rotateRight a rfl hi (by omega)

/-- `VectorSetElement` writes its lane and keeps the others. -/
theorem get_vectorSetElement (a : BitVec 128) {index : Nat} (elem : BitVec esize) (h : index * esize + esize ≤ 128)
    (i : Nat) : Lanes.get esize (vectorSetElement esize a index elem) i = if index = i then elem else Lanes.get esize a i :=
  Lanes.get_set a elem h i

/-- `VectorZeroUpper` keeps the lower 64 bits. -/
theorem vectorZeroUpper_eq (a : BitVec 128) : vectorZeroUpper a = (a.setWidth 64).setWidth 128 := by
  simp [vectorZeroUpper, valueOf, evalOp, Outcome.plain]

/-- `VectorZeroUpper` keeps the two lower words and clears the two upper. -/
theorem get_vectorZeroUpper (a : BitVec 128) (hi : i < 4) :
    Lanes.get 32 (vectorZeroUpper a) i = if i < 2 then Lanes.get 32 a i else 0 := by
  rw [vectorZeroUpper_eq, Lanes.get_setWidth _ (by omega)]
  split
  · exact Lanes.get_setWidth _ (by omega)
  · exact Lanes.get_of_ge _ (by omega)

/-- `VectorExtract` by 32 bits is the pseudocode's `b<31:0>:a<127:32>`. -/
theorem vectorExtract_thirtyTwo (a b : BitVec 128) :
    vectorExtract a b 32 = b.extractLsb' 0 32 ++ a.extractLsb' 32 96 := by
  apply BitVec.eq_of_getLsbD_eq
  intro j hj
  simp only [vectorExtract, BitVec.getLsbD_extractLsb', BitVec.getLsbD_append, hj, decide_true, Bool.true_and]
  by_cases h : j < 96
  · simp [h, show 32 + j < 128 by omega]
  · simp [h, show ¬ 32 + j < 128 by omega, show j - 96 < 32 by omega, show 32 + j - 128 = j - 96 by omega]

/-- A 64-bit lane read as two 32-bit lanes. -/
theorem get_vectorGetElement64 (a : BitVec 128) (index : Nat) {k : Nat} (hk : k < 2) :
    Lanes.get 32 (vectorGetElement 64 a index) k = Lanes.get 32 a (index * 2 + k) :=
  Lanes.get_get (c := 2) a index hk

/-- A 64-bit lane written as two 32-bit lanes. -/
theorem get_vectorSetElement64 (a : BitVec 128) {index : Nat} (elem : BitVec 64) (h : index < 2) (i : Nat) :
    Lanes.get 32 (vectorSetElement 64 a index elem) i =
      if index * 2 ≤ i ∧ i < index * 2 + 2 then Lanes.get 32 elem (i - index * 2) else Lanes.get 32 a i :=
  Lanes.get_set_wide (c := 2) (e := 32) a elem (by decide) (by omega) i

/-- A loop of `VectorSetElement` over the lanes `0` to `n - 1` writes that run of lanes. -/
theorem foldl_vectorSetElement (a : BitVec 128) (n : Nat) (f : Nat → BitVec esize) :
    (List.range n).foldl (fun r i => vectorSetElement esize r i (f i)) a = Lanes.setRange esize a 0 n f := by
  rw [List.range_eq_range']
  rfl

end Lanes

end IREmitter

end Dynarmic.IR

/-! ### The Arm pseudocode -/

namespace Dynarmic.A64

/-- `SHAchoose(x, y, z)`. -/
def shaChoose (x y z : BitVec 32) : BitVec 32 :=
  ((y ^^^ z) &&& x) ^^^ z

/-- `SHAmajority(x, y, z)`. -/
def shaMajority (x y z : BitVec 32) : BitVec 32 :=
  (x &&& y) ||| ((x ||| y) &&& z)

/-- `SHAhashSIGMA0(x)`. -/
def shaHashSIGMA0 (x : BitVec 32) : BitVec 32 :=
  x.rotateRight 2 ^^^ x.rotateRight 13 ^^^ x.rotateRight 22

/-- `SHAhashSIGMA1(x)`. -/
def shaHashSIGMA1 (x : BitVec 32) : BitVec 32 :=
  x.rotateRight 6 ^^^ x.rotateRight 11 ^^^ x.rotateRight 25

/-- `SHA256SU0`, with `operand1 = V[d]` and `operand2 = V[n]`. The loop writes every element of `result`. -/
def sha256su0 (operand1 operand2 : BitVec 128) : BitVec 128 :=
  let T : BitVec 128 := operand2.extractLsb' 0 32 ++ operand1.extractLsb' 32 96
  Lanes.ofFn 32 4 fun e =>
    let elt := Lanes.get 32 T e
    let elt := elt.rotateRight 7 ^^^ elt.rotateRight 18 ^^^ elt >>> 3
    elt + Lanes.get 32 operand1 e

/-- `SHA256SU1`, with `operand1 = V[d]`, `operand2 = V[n]` and `operand3 = V[m]`: the loop over elements 2 and 3
reads the elements 0 and 1 that the first loop wrote. -/
def sha256su1 (operand1 operand2 operand3 : BitVec 128) : BitVec 128 :=
  let T0 : BitVec 128 := operand3.extractLsb' 0 32 ++ operand2.extractLsb' 32 96
  let sigma (elt : BitVec 32) : BitVec 32 := elt.rotateRight 17 ^^^ elt.rotateRight 19 ^^^ elt >>> 10
  let T1 : BitVec 64 := operand3.extractLsb' 64 64
  let result : BitVec 128 := Lanes.setRange 32 0 0 2 fun e =>
    sigma (Lanes.get 32 T1 e) + Lanes.get 32 operand1 e + Lanes.get 32 T0 e
  let T1 : BitVec 64 := result.extractLsb' 0 64
  Lanes.setRange 32 result 2 2 fun e =>
    sigma (Lanes.get 32 T1 (e - 2)) + Lanes.get 32 operand1 e + Lanes.get 32 T0 e

/-- One round of `SHA256hash`, for element `e` of `W`; the slice `X<32i+31:32i>` is lane `i` of `X`. -/
def sha256hashRound (W : BitVec 128) (XY : BitVec 128 × BitVec 128) (e : Nat) : BitVec 128 × BitVec 128 :=
  let (X, Y) := XY
  let chs := shaChoose (Lanes.get 32 Y 0) (Lanes.get 32 Y 1) (Lanes.get 32 Y 2)
  let maj := shaMajority (Lanes.get 32 X 0) (Lanes.get 32 X 1) (Lanes.get 32 X 2)
  let t := Lanes.get 32 Y 3 + shaHashSIGMA1 (Lanes.get 32 Y 0) + chs + Lanes.get 32 W e
  let X := Lanes.set 32 X 3 (t + Lanes.get 32 X 3)
  let Y := Lanes.set 32 Y 3 (t + shaHashSIGMA0 (Lanes.get 32 X 0) + maj)
  let YX : BitVec 256 := (Y ++ X).rotateLeft 32
  (YX.extractLsb' 0 128, YX.extractLsb' 128 128)

/-- `SHA256hash(X, Y, W, part1)`: four rounds, then `X` for `SHA256H` and `Y` for `SHA256H2`. -/
def sha256hash (X Y W : BitVec 128) (part1 : Bool) : BitVec 128 :=
  let XY := (List.range 4).foldl (sha256hashRound W) (X, Y)
  if part1 then XY.1 else XY.2

/-- The rotation of `Y:X` moves each 32-bit lane up by one, the top lane to the bottom. -/
theorem get_rotateLeft_thirtyTwo (x : BitVec 256) {i : Nat} (hi : i < 8) :
    Lanes.get 32 (x.rotateLeft 32) i = Lanes.get 32 x ((i + 7) % 8) := by
  have h := Lanes.get_rotateLeft (c := 8) (e := 32) (k := 1) x rfl hi (by decide)
  rwa [Nat.one_mul, show i + 8 - 1 = i + 7 by omega] at h

/-- Of two vectors appended, the lower four words are those of the lower vector. -/
theorem get_append_128 (hi lo : BitVec 128) (i : Nat) :
    Lanes.get 32 (hi ++ lo) i = if i < 4 then Lanes.get 32 lo i else Lanes.get 32 hi (i - 4) :=
  Lanes.get_append (c := 4) (e := 32) hi lo i

end Dynarmic.A64

/-! ### The polyfills -/

namespace Dynarmic.Optimization

open Dynarmic.IR

/-- `PolyfillSHA256MessageSchedule0`, on the arguments `x` and `y` of the instruction it replaces. -/
def polyfillSHA256MessageSchedule0 (x y : BitVec 128) : BitVec 128 :=
  let t := IREmitter.vectorExtract x y 32
  let result := (List.range 4).foldl (fun result i =>
      IREmitter.vectorSetElement 32 result i
        (let element := IREmitter.vectorGetElement 32 t i
         let tmp1 := IREmitter.rotateRight element 7
         let tmp2 := IREmitter.rotateRight element 18
         let tmp3 := IREmitter.logicalShiftRight element 3
         IREmitter.eor tmp1 (IREmitter.eor tmp2 tmp3)))
    IREmitter.zeroVector
  IREmitter.vectorAdd 32 result x

/-- `PolyfillSHA256MessageSchedule1`, on the arguments `x`, `y` and `z`: the upper half is computed from the lower
half, which is zero above its two elements. -/
def polyfillSHA256MessageSchedule1 (x y z : BitVec 128) : BitVec 128 :=
  let T0 := IREmitter.vectorExtract y z 32
  let lowerHalf :=
    let T := IREmitter.vectorRotateWholeVectorRight z 64
    let tmp1 := IREmitter.vectorRotateRight 32 T 17
    let tmp2 := IREmitter.vectorRotateRight 32 T 19
    let tmp3 := IREmitter.vectorLogicalShiftRight 32 T 10
    let tmp4 := IREmitter.vectorEor tmp1 (IREmitter.vectorEor tmp2 tmp3)
    let tmp5 := IREmitter.vectorAdd 32 tmp4 (IREmitter.vectorAdd 32 x T0)
    IREmitter.vectorZeroUpper tmp5
  let upperHalf :=
    let tmp1 := IREmitter.vectorRotateRight 32 lowerHalf 17
    let tmp2 := IREmitter.vectorRotateRight 32 lowerHalf 19
    let tmp3 := IREmitter.vectorLogicalShiftRight 32 lowerHalf 10
    let tmp4 := IREmitter.vectorEor tmp1 (IREmitter.vectorEor tmp2 tmp3)
    -- the top two elements of `x` and `T0` shuffled down: [3, 2, 1, 0] -> [1, 0, 3, 2]
    let shuffledD := IREmitter.vectorRotateWholeVectorRight x 64
    let shuffledT0 := IREmitter.vectorRotateWholeVectorRight T0 64
    let tmp5 := IREmitter.vectorAdd 32 tmp4 (IREmitter.vectorAdd 32 shuffledD shuffledT0)
    IREmitter.vectorGetElement 64 tmp5 0
  IREmitter.vectorSetElement 64 lowerHalf 1 upperHalf

/-- `SHAchoose` of the polyfill pass. -/
def shaChoose (x y z : BitVec 32) : BitVec 32 :=
  IREmitter.eor (IREmitter.and (IREmitter.eor y z) x) z

/-- `SHAmajority` of the polyfill pass. -/
def shaMajority (x y z : BitVec 32) : BitVec 32 :=
  IREmitter.or (IREmitter.and x y) (IREmitter.and (IREmitter.or x y) z)

/-- `SHAhashSIGMA0` of the polyfill pass. -/
def shaHashSIGMA0 (x : BitVec 32) : BitVec 32 :=
  let tmp1 := IREmitter.rotateRight x 2
  let tmp2 := IREmitter.rotateRight x 13
  let tmp3 := IREmitter.rotateRight x 22
  IREmitter.eor tmp1 (IREmitter.eor tmp2 tmp3)

/-- `SHAhashSIGMA1` of the polyfill pass. -/
def shaHashSIGMA1 (x : BitVec 32) : BitVec 32 :=
  let tmp1 := IREmitter.rotateRight x 6
  let tmp2 := IREmitter.rotateRight x 11
  let tmp3 := IREmitter.rotateRight x 25
  IREmitter.eor tmp1 (IREmitter.eor tmp2 tmp3)

/-- The body of the loop of `PolyfillSHA256Hash`, for element `i` of `w`. -/
def polyfillSHA256HashRound (w : BitVec 128) (xy : BitVec 128 × BitVec 128) (i : Nat) :
    BitVec 128 × BitVec 128 :=
  let (x, y) := xy
  let lowX := IREmitter.vectorGetElement 32 x 0
  let afterLowX := IREmitter.vectorGetElement 32 x 1
  let beforeHighX := IREmitter.vectorGetElement 32 x 2
  let highX := IREmitter.vectorGetElement 32 x 3
  let lowY := IREmitter.vectorGetElement 32 y 0
  let afterLowY := IREmitter.vectorGetElement 32 y 1
  let beforeHighY := IREmitter.vectorGetElement 32 y 2
  let highY := IREmitter.vectorGetElement 32 y 3
  let choice := shaChoose lowY afterLowY beforeHighY
  let majority := shaMajority lowX afterLowX beforeHighX
  let t :=
    let wElement := IREmitter.vectorGetElement 32 w i
    let sig := shaHashSIGMA1 lowY
    IREmitter.add highY (IREmitter.add sig (IREmitter.add choice wElement))
  let newLowX := IREmitter.add t (IREmitter.add (shaHashSIGMA0 lowX) majority)
  let newLowY := IREmitter.add t highX
  -- every word moved up one element: [3, 2, 1, 0] -> [2, 1, 0, 3]
  let shuffledX := IREmitter.vectorRotateWholeVectorRight x 96
  let shuffledY := IREmitter.vectorRotateWholeVectorRight y 96
  (IREmitter.vectorSetElement 32 shuffledX 0 newLowX, IREmitter.vectorSetElement 32 shuffledY 0 newLowY)

/-- `PolyfillSHA256Hash`, on the arguments `x`, `y`, `w` and `part1`. -/
def polyfillSHA256Hash (x y w : BitVec 128) (part1 : Bool) : BitVec 128 :=
  let xy := (List.range 4).foldl (polyfillSHA256HashRound w) (x, y)
  if part1 then xy.1 else xy.2

/-! ### The polyfills compute the pseudocode -/

/-- The polyfill of `SHA256MessageSchedule0` computes `SHA256SU0`. -/
theorem polyfillSHA256MessageSchedule0_eq (x y : BitVec 128) :
    polyfillSHA256MessageSchedule0 x y = A64.sha256su0 x y := by
  apply Lanes.ext (e := 32) (c := 4) (by decide)
  intro i hi
  simp only [polyfillSHA256MessageSchedule0, A64.sha256su0]
  rw [IREmitter.get_vectorAdd _ _ (by omega), IREmitter.foldl_vectorSetElement, Lanes.get_setRange _ _ (by decide),
    if_pos (by omega), Lanes.get_ofFn _ hi (by decide), IREmitter.vectorExtract_thirtyTwo]
  simp [IREmitter.vectorGetElement, BitVec.xor_assoc]

/-- The lower half is the first loop of the pseudocode, and the upper half, computed from the lower half shifted into
place by `VectorRotateWholeVectorRight`, is the second. -/
theorem polyfillSHA256MessageSchedule1_eq (x y z : BitVec 128) :
    polyfillSHA256MessageSchedule1 x y z = A64.sha256su1 x y z := by
  apply Lanes.ext (e := 32) (c := 4) (by decide)
  intro i hi
  obtain rfl | rfl | rfl | rfl : i = 0 ∨ i = 1 ∨ i = 2 ∨ i = 3 := by omega
  all_goals
    simp (disch := omega) only [polyfillSHA256MessageSchedule1, A64.sha256su1, IREmitter.get_vectorSetElement64,
      Lanes.get_setRange, IREmitter.get_vectorZeroUpper, IREmitter.get_vectorAdd, IREmitter.get_vectorEor,
      IREmitter.get_vectorRotateRight, IREmitter.get_vectorLogicalShiftRight, IREmitter.get_vectorRotateWholeVectorRight,
      IREmitter.get_vectorGetElement64, Lanes.get_extractLsb', IREmitter.vectorExtract_thirtyTwo]
    simp [BitVec.add_assoc, BitVec.xor_assoc]

@[simp] theorem shaChoose_eq (x y z : BitVec 32) : shaChoose x y z = A64.shaChoose x y z := by
  simp [shaChoose, A64.shaChoose]

@[simp] theorem shaMajority_eq (x y z : BitVec 32) : shaMajority x y z = A64.shaMajority x y z := by
  simp [shaMajority, A64.shaMajority]

@[simp] theorem shaHashSIGMA0_eq (x : BitVec 32) : shaHashSIGMA0 x = A64.shaHashSIGMA0 x := by
  simp [shaHashSIGMA0, A64.shaHashSIGMA0, BitVec.xor_assoc]

@[simp] theorem shaHashSIGMA1_eq (x : BitVec 32) : shaHashSIGMA1 x = A64.shaHashSIGMA1 x := by
  simp [shaHashSIGMA1, A64.shaHashSIGMA1, BitVec.xor_assoc]

/-- A round of the polyfill is a round of the pseudocode: the rotation of `x` and `y` by three lanes and the writes
of lane 0 are the rotation of `Y:X` by one lane after the writes of lane 3. -/
theorem polyfillSHA256HashRound_eq (w : BitVec 128) (xy : BitVec 128 × BitVec 128) (i : Nat) :
    polyfillSHA256HashRound w xy i = A64.sha256hashRound w xy i := by
  obtain ⟨x, y⟩ := xy
  refine Prod.ext ?_ ?_ <;> apply Lanes.ext (e := 32) (c := 4) (by decide) <;> intro j hj <;>
    obtain rfl | rfl | rfl | rfl : j = 0 ∨ j = 1 ∨ j = 2 ∨ j = 3 := by omega
  all_goals
    simp (disch := omega) only [polyfillSHA256HashRound, A64.sha256hashRound, IREmitter.get_vectorSetElement,
      IREmitter.get_vectorRotateWholeVectorRight, Lanes.get_extractLsb', A64.get_rotateLeft_thirtyTwo,
      A64.get_append_128, Lanes.get_set]
    simp [IREmitter.vectorGetElement, BitVec.add_assoc]

/-- The polyfill of `SHA256Hash` computes `SHA256H` and `SHA256H2`. -/
theorem polyfillSHA256Hash_eq (x y w : BitVec 128) (part1 : Bool) :
    polyfillSHA256Hash x y w part1 = A64.sha256hash x y w part1 := by
  have hround : polyfillSHA256HashRound w = A64.sha256hashRound w := by
    funext xy i
    exact polyfillSHA256HashRound_eq w xy i
  rw [polyfillSHA256Hash, A64.sha256hash, hround]

end Dynarmic.Optimization

/-! ### The translators -/

namespace Dynarmic.A64

/-- The SIMD&FP registers `V0` to `V31`. -/
abbrev VectorRegisters := Fin 32 → BitVec 128

/-- The A64 instructions `SHA256SU0 Vd.4S, Vn.4S`, `SHA256SU1 Vd.4S, Vn.4S, Vm.4S`, `SHA256H Qd, Qn, Vm.4S` and
`SHA256H2 Qd, Qn, Vm.4S`, by their register fields. -/
inductive Sha256Instruction where
  | sha256su0 (n d : Fin 32)
  | sha256su1 (m n d : Fin 32)
  | sha256h (m n d : Fin 32)
  | sha256h2 (m n d : Fin 32)
  deriving DecidableEq, Repr

/-- What the instruction does in the Arm pseudocode: `V[d]` gets the function of `V[d]`, `V[n]` and `V[m]`, with the
roles of `d` and `n` exchanged in `SHA256H2`. -/
def Sha256Instruction.execute : Sha256Instruction → VectorRegisters → VectorRegisters
  | .sha256su0 n d, V => Function.update V d (A64.sha256su0 (V d) (V n))
  | .sha256su1 m n d, V => Function.update V d (A64.sha256su1 (V d) (V n) (V m))
  | .sha256h m n d, V => Function.update V d (A64.sha256hash (V d) (V n) (V m) true)
  | .sha256h2 m n d, V => Function.update V d (A64.sha256hash (V n) (V d) (V m) false)

/-- The values of the three IR opcodes the translators emit, as functions of their arguments. -/
structure Sha256Opcodes where
  sha256MessageSchedule0 : BitVec 128 → BitVec 128 → BitVec 128
  sha256MessageSchedule1 : BitVec 128 → BitVec 128 → BitVec 128 → BitVec 128
  sha256Hash : BitVec 128 → BitVec 128 → BitVec 128 → Bool → BitVec 128

/-- `TranslatorVisitor::SHA256SU0`, `SHA256SU1`, `SHA256H` and `SHA256H2`: the opcode on the `GetQ` of the registers,
its result written back by `SetQ(Vd, ...)`. -/
def translate (ops : Sha256Opcodes) : Sha256Instruction → VectorRegisters → VectorRegisters
  | .sha256su0 n d, V => Function.update V d (ops.sha256MessageSchedule0 (V d) (V n))
  | .sha256su1 m n d, V => Function.update V d (ops.sha256MessageSchedule1 (V d) (V n) (V m))
  | .sha256h m n d, V => Function.update V d (ops.sha256Hash (V d) (V n) (V m) true)
  | .sha256h2 m n d, V => Function.update V d (ops.sha256Hash (V n) (V d) (V m) false)

/-- The opcodes as the polyfill pass replaces them. -/
def polyfillOpcodes : Sha256Opcodes :=
  ⟨Optimization.polyfillSHA256MessageSchedule0, Optimization.polyfillSHA256MessageSchedule1,
    Optimization.polyfillSHA256Hash⟩

/-- The SHA-256 polyfills compute the Arm functions for every operand, and with them as the meaning of the opcodes
the translated instructions do what the Arm pseudocode says, for every instruction and every register file. -/
theorem polyfill_sha256_refines_pseudocode (x y z w : BitVec 128) (part1 : Bool) :
    Optimization.polyfillSHA256MessageSchedule0 x y = sha256su0 x y ∧
      Optimization.polyfillSHA256MessageSchedule1 x y z = sha256su1 x y z ∧
      Optimization.polyfillSHA256Hash x y w part1 = sha256hash x y w part1 ∧
      ∀ (ins : Sha256Instruction) (V : VectorRegisters), translate polyfillOpcodes ins V = ins.execute V := by
  refine ⟨Optimization.polyfillSHA256MessageSchedule0_eq x y, Optimization.polyfillSHA256MessageSchedule1_eq x y z,
    Optimization.polyfillSHA256Hash_eq x y w part1, ?_⟩
  intro ins V
  cases ins <;>
    simp only [translate, Sha256Instruction.execute, polyfillOpcodes,
      Optimization.polyfillSHA256MessageSchedule0_eq, Optimization.polyfillSHA256MessageSchedule1_eq,
      Optimization.polyfillSHA256Hash_eq]

end Dynarmic.A64
