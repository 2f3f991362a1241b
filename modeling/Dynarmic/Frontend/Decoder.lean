import Dynarmic.Mcl.Bit
import Dynarmic.Lib.FirstMatch

/-!
# The instruction decoders: matchers, bitstrings and the fast-lookup tables

`frontend/decoder/matcher.h` and `decoder_detail.h`, `frontend/A64/decoder/a64.h` and `frontend/A32/decoder/arm.h`.

Each instruction of a table (`a64.inc`, `arm.inc`) is a line `INST(fn, name, bitstring)`; `GetMatcher` turns it into a
matcher whose mask has a bit for every `0` or `1` of the bitstring and whose expected value has a bit for every `1`. The
tables themselves are a parameter here: every theorem holds for every list of matchers, so for the lists the `.inc` files
give in particular. The handler a matcher calls (`fn`, with the argument fields `GetArgInfo` cuts out of the word) is opaque:
the decoder never reads it.

`GetDecodeTable` orders the list (a stable sort that puts masks with more bits first, and for A64 a stable partition that
moves three names to the front) and then files each matcher under every one of the `0x1000` buckets whose index agrees with
the matcher on the bits the index reads. `Decode` searches only the bucket of the word's index. The index packs two fields of
the word into twelve bits under disjoint masks, so it distributes over `&&&`; a matcher that matches a word is then always
filed under that word's bucket (`FirstMatch.index_masked_match`), and the bucket search is the search of the whole ordered
list (`FirstMatch.find?_bucket`).
-/

namespace Dynarmic.Decoder

open Mcl.Bit

/-- `Matcher<Visitor, OpcodeType>` over words of `w` bits: the instruction's name, the mask of the bits its encoding fixes,
the value those bits must have, and the handler `fn`. -/
structure Matcher (H : Type) (w : Nat) where
  name : String
  mask : BitVec w
  expected : BitVec w
  fn : H

variable {H : Type} {w : Nat}

/-- `Matcher::Matches`. -/
def Matcher.matches (m : Matcher H w) (instruction : BitVec w) : Bool :=
  (instruction &&& m.mask) == m.expected

/-- One iteration of the loop of `GetMaskAndExpect`: character `i` of the bitstring fixes bit `w - i - 1`, to zero for `0`
and to one for `1`; any other character leaves the bit free. -/
def maskAndExpectStep (bitstring : Vector Char w) (acc : BitVec w × BitVec w) (i : Fin w) : BitVec w × BitVec w :=
  let one : BitVec w := 1
  let bitPosition := w - i - 1
  match bitstring[i] with
  | '0' => (acc.1 ||| one <<< bitPosition, acc.2)
  | '1' => (acc.1 ||| one <<< bitPosition, acc.2 ||| one <<< bitPosition)
  | _ => acc

/-- `GetMaskAndExpect`: the mask and the expected value of a bitstring, from zero, character by character. -/
def getMaskAndExpect (bitstring : Vector Char w) : BitVec w × BitVec w :=
  (List.finRange w).foldl (maskAndExpectStep bitstring) (0, 0)

/-- `GetMatcher`: the matcher of one table line. -/
def getMatcher (fn : H) (name : String) (bitstring : Vector Char w) : Matcher H w :=
  { name, mask := (getMaskAndExpect bitstring).1, expected := (getMaskAndExpect bitstring).2, fn }

/-! ### The ordering of the list and the table of buckets -/

/-- The `std::stable_sort` of both decoders: a matcher with more bits in its mask is more specific and comes first, and
matchers with as many bits keep their order (`List.mergeSort` is stable, so it gives the one stable order there is). -/
def sortBySpecificity (list : List (Matcher H w)) : List (Matcher H w) :=
  list.mergeSort fun matcher1 matcher2 => countOnes matcher2.mask ≤ countOnes matcher1.mask

/-- The bucket test of the table loop, `(i & mask) == expect` with both read through the index. -/
def bucketAdmits (index : BitVec 32 → BitVec 32) (matcher : Matcher H 32) (i : Fin 0x1000) : Bool :=
  (BitVec.ofNat 32 i &&& index matcher.mask) == index matcher.expected

/-- The loop that fills the `0x1000` buckets of a decode table: bucket `i` gets, in list order, every matcher that the
bucket test admits. -/
def fillDecodeTable (index : BitVec 32 → BitVec 32) (list : List (Matcher H 32)) (i : Fin 0x1000) :
    List (Matcher H 32) :=
  FirstMatch.bucket (bucketAdmits index) list i

/-- The fast-lookup index of both decoders: bits `lo .. lo + 3` of the word at bits 0 to 3, and the field read at `hi`
under `0xFF0` at bits 4 to 11. -/
def twoFieldIndex (lo hi : Nat) (instruction : BitVec 32) : BitVec 32 :=
  ((instruction >>> lo) &&& 0x00F) ||| ((instruction >>> hi) &&& 0xFF0)

/-- The decoder's index of the two fields distributes over `and`. -/
theorem twoFieldIndex_and (lo hi : Nat) (x y : BitVec 32) :
    twoFieldIndex lo hi (x &&& y) = twoFieldIndex lo hi x &&& twoFieldIndex lo hi y :=
  FirstMatch.twoField_and (by decide) x y

/-- The decoder's index of the two fields has 12 bits. -/
theorem toNat_twoFieldIndex_lt (lo hi : Nat) (instruction : BitVec 32) :
    (twoFieldIndex lo hi instruction).toNat < 0x1000 :=
  FirstMatch.toNat_twoField_lt 12 (by decide) (by decide) instruction

/-- The bucket a word's index selects, `table[ToFastLookupIndex(instruction)]`: the index is below `0x1000`, so the array
access is in bounds. -/
def subtableIndex (lo hi : Nat) (instruction : BitVec 32) : Fin 0x1000 :=
  ⟨(twoFieldIndex lo hi instruction).toNat, toNat_twoFieldIndex_lt lo hi instruction⟩

/-- The search of `Decode` and `DecodeArm`: `std::find_if` for the first matcher that matches, in the word's bucket. -/
def findInSubtable (lo hi : Nat) (table : Fin 0x1000 → List (Matcher H 32)) (instruction : BitVec 32) :
    Option (Matcher H 32) :=
  (table (subtableIndex lo hi instruction)).find? (·.matches instruction)

/-- A matcher that matches a word is filed in the word's bucket. -/
theorem bucketAdmits_of_matches (lo hi : Nat) {matcher : Matcher H 32} {instruction : BitVec 32}
    (h : matcher.matches instruction = true) :
    bucketAdmits (twoFieldIndex lo hi) matcher (subtableIndex lo hi instruction) = true := by
  have hmatch : instruction &&& matcher.mask = matcher.expected := by
    simpa [Matcher.matches] using h
  have hidx := FirstMatch.index_masked_match (twoFieldIndex_and lo hi) hmatch
  simp [bucketAdmits, subtableIndex, hidx]

/-- The bucket search of a table filled from a list is the first-match search of that list. -/
theorem findInSubtable_fillDecodeTable (lo hi : Nat) (list : List (Matcher H 32)) (instruction : BitVec 32) :
    findInSubtable lo hi (fillDecodeTable (twoFieldIndex lo hi) list) instruction =
      list.find? (·.matches instruction) :=
  FirstMatch.find?_bucket fun _ _ h => bucketAdmits_of_matches lo hi h

end Dynarmic.Decoder

namespace Dynarmic.A64

open Dynarmic.Decoder

variable {H : Type}

/-- `detail::ToFastLookupIndex`: `((instruction >> 10) & 0x00F) | ((instruction >> 18) & 0xFF0)`. -/
def toFastLookupIndex (instruction : BitVec 32) : BitVec 32 :=
  twoFieldIndex 10 18 instruction

/-- The names `GetDecodeTable` moves to the front, exceptions to the rule that a longer mask comes first. -/
def comesFirst : List String :=
  ["MOVI, MVNI, ORR, BIC (vector, immediate)", "FMOV (vector, immediate)", "Unallocated SIMD modified immediate"]

/-- The list `GetDecodeTable` fills its buckets from: sorted by specificity, then stably partitioned so that the
`comes_first` names lead. -/
def decodeList (list : List (Matcher H 32)) : List (Matcher H 32) :=
  let sorted := sortBySpecificity list
  sorted.filter (fun matcher => comesFirst.contains matcher.name) ++
    sorted.filter (fun matcher => !comesFirst.contains matcher.name)

/-- `GetDecodeTable`. -/
def getDecodeTable (list : List (Matcher H 32)) : Fin 0x1000 → List (Matcher H 32) :=
  fillDecodeTable toFastLookupIndex (decodeList list)

/-- `Decode`: the first matcher that matches, in the bucket of the word's index. -/
def decode (list : List (Matcher H 32)) (instruction : BitVec 32) : Option (Matcher H 32) :=
  findInSubtable 10 18 (getDecodeTable list) instruction

end Dynarmic.A64

namespace Dynarmic.A32

open Dynarmic.Decoder

variable {H : Type}

/-- `detail::ToFastLookupIndexArm`: `((instruction >> 4) & 0x00F) | ((instruction >> 16) & 0xFF0)`. -/
def toFastLookupIndexArm (instruction : BitVec 32) : BitVec 32 :=
  twoFieldIndex 4 16 instruction

/-- The list `GetArmDecodeTable` fills its buckets from: sorted by specificity, with no partition. -/
def armDecodeList (list : List (Matcher H 32)) : List (Matcher H 32) :=
  sortBySpecificity list

/-- `GetArmDecodeTable`. -/
def getArmDecodeTable (list : List (Matcher H 32)) : Fin 0x1000 → List (Matcher H 32) :=
  fillDecodeTable toFastLookupIndexArm (armDecodeList list)

/-- `DecodeArm`. -/
def decodeArm (list : List (Matcher H 32)) (instruction : BitVec 32) : Option (Matcher H 32) :=
  findInSubtable 4 16 (getArmDecodeTable list) instruction

end Dynarmic.A32

namespace Dynarmic.Decoder

variable {H : Type}

/-- Both fast-lookup decoders agree with a linear first-match search of the ordered list their table is filled from: for
every list of matchers and every word, `Decode` returns the first matcher of the sorted and partitioned list that matches
the word (none if none does), and `DecodeArm` the first of the sorted list. -/
theorem fast_lookup_decoders_agree_with_linear_search (list armList : List (Matcher H 32)) (instruction : BitVec 32) :
    A64.decode list instruction = (A64.decodeList list).find? (·.matches instruction) ∧
      A32.decodeArm armList instruction = (A32.armDecodeList armList).find? (·.matches instruction) :=
  ⟨findInSubtable_fillDecodeTable 10 18 _ instruction, findInSubtable_fillDecodeTable 4 16 _ instruction⟩

end Dynarmic.Decoder
