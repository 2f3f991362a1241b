import Mathlib.Data.BitVec
import Dynarmic.Lib.XorLinear
import Dynarmic.Lib.Lanes

/-!
# CRC32

The table-driven CRC32 of common/crypto/crc32.cpp, which the x64 backend calls for the `CRC32` and `CRC32C`
instructions: the loop of `ComputeCRC32` over the low `length` bytes of a 64-bit value, with the 256-entry table of the
ISO polynomial `0x04C11DB7` or of the Castagnoli polynomial `0x1EDC6F41`.

The specification is the Arm pseudocode of the instructions, `BitReverse(Poly32Mod2(BitReverse(acc):Zeros(size) EOR
BitReverse(val):Zeros(32), poly))`. Between the two stands the reflected bit-serial CRC (`bitFold`): the pseudocode's
division from the top bit computes it for a value of any width, one division step being one serial step on the
reversed register (`crc32Pseudocode_eq_bitFold`); each table entry is the serial CRC of a zero byte from its index,
checked against the 256 entries; and one iteration of the loop is then eight serial steps (`bitFold_byte`), so the loop
over the bytes is the serial CRC of their bits.
-/

namespace Dynarmic.CRC32

/-- `CRC32Table`. -/
abbrev CRC32Table := Vector (BitVec 32) 256

set_option maxRecDepth 2000 in
/-- `castagnoli_table`: the polynomial `0x1EDC6F41`. -/
def castagnoliTable : CRC32Table := #v[
  0x00000000, 0xF26B8303, 0xE13B70F7, 0x1350F3F4, 0xC79A971F, 0x35F1141C, 0x26A1E7E8, 0xD4CA64EB,
  0x8AD958CF, 0x78B2DBCC, 0x6BE22838, 0x9989AB3B, 0x4D43CFD0, 0xBF284CD3, 0xAC78BF27, 0x5E133C24,
  0x105EC76F, 0xE235446C, 0xF165B798, 0x030E349B, 0xD7C45070, 0x25AFD373, 0x36FF2087, 0xC494A384,
  0x9A879FA0, 0x68EC1CA3, 0x7BBCEF57, 0x89D76C54, 0x5D1D08BF, 0xAF768BBC, 0xBC267848, 0x4E4DFB4B,
  0x20BD8EDE, 0xD2D60DDD, 0xC186FE29, 0x33ED7D2A, 0xE72719C1, 0x154C9AC2, 0x061C6936, 0xF477EA35,
  0xAA64D611, 0x580F5512, 0x4B5FA6E6, 0xB93425E5, 0x6DFE410E, 0x9F95C20D, 0x8CC531F9, 0x7EAEB2FA,
  0x30E349B1, 0xC288CAB2, 0xD1D83946, 0x23B3BA45, 0xF779DEAE, 0x05125DAD, 0x1642AE59, 0xE4292D5A,
  0xBA3A117E, 0x4851927D, 0x5B016189, 0xA96AE28A, 0x7DA08661, 0x8FCB0562, 0x9C9BF696, 0x6EF07595,
  0x417B1DBC, 0xB3109EBF, 0xA0406D4B, 0x522BEE48, 0x86E18AA3, 0x748A09A0, 0x67DAFA54, 0x95B17957,
  0xCBA24573, 0x39C9C670, 0x2A993584, 0xD8F2B687, 0x0C38D26C, 0xFE53516F, 0xED03A29B, 0x1F682198,
  0x5125DAD3, 0xA34E59D0, 0xB01EAA24, 0x42752927, 0x96BF4DCC, 0x64D4CECF, 0x77843D3B, 0x85EFBE38,
  0xDBFC821C, 0x2997011F, 0x3AC7F2EB, 0xC8AC71E8, 0x1C661503, 0xEE0D9600, 0xFD5D65F4, 0x0F36E6F7,
  0x61C69362, 0x93AD1061, 0x80FDE395, 0x72966096, 0xA65C047D, 0x5437877E, 0x4767748A, 0xB50CF789,
  0xEB1FCBAD, 0x197448AE, 0x0A24BB5A, 0xF84F3859, 0x2C855CB2, 0xDEEEDFB1, 0xCDBE2C45, 0x3FD5AF46,
  0x7198540D, 0x83F3D70E, 0x90A324FA, 0x62C8A7F9, 0xB602C312, 0x44694011, 0x5739B3E5, 0xA55230E6,
  0xFB410CC2, 0x092A8FC1, 0x1A7A7C35, 0xE811FF36, 0x3CDB9BDD, 0xCEB018DE, 0xDDE0EB2A, 0x2F8B6829,
  0x82F63B78, 0x709DB87B, 0x63CD4B8F, 0x91A6C88C, 0x456CAC67, 0xB7072F64, 0xA457DC90, 0x563C5F93,
  0x082F63B7, 0xFA44E0B4, 0xE9141340, 0x1B7F9043, 0xCFB5F4A8, 0x3DDE77AB, 0x2E8E845F, 0xDCE5075C,
  0x92A8FC17, 0x60C37F14, 0x73938CE0, 0x81F80FE3, 0x55326B08, 0xA759E80B, 0xB4091BFF, 0x466298FC,
  0x1871A4D8, 0xEA1A27DB, 0xF94AD42F, 0x0B21572C, 0xDFEB33C7, 0x2D80B0C4, 0x3ED04330, 0xCCBBC033,
  0xA24BB5A6, 0x502036A5, 0x4370C551, 0xB11B4652, 0x65D122B9, 0x97BAA1BA, 0x84EA524E, 0x7681D14D,
  0x2892ED69, 0xDAF96E6A, 0xC9A99D9E, 0x3BC21E9D, 0xEF087A76, 0x1D63F975, 0x0E330A81, 0xFC588982,
  0xB21572C9, 0x407EF1CA, 0x532E023E, 0xA145813D, 0x758FE5D6, 0x87E466D5, 0x94B49521, 0x66DF1622,
  0x38CC2A06, 0xCAA7A905, 0xD9F75AF1, 0x2B9CD9F2, 0xFF56BD19, 0x0D3D3E1A, 0x1E6DCDEE, 0xEC064EED,
  0xC38D26C4, 0x31E6A5C7, 0x22B65633, 0xD0DDD530, 0x0417B1DB, 0xF67C32D8, 0xE52CC12C, 0x1747422F,
  0x49547E0B, 0xBB3FFD08, 0xA86F0EFC, 0x5A048DFF, 0x8ECEE914, 0x7CA56A17, 0x6FF599E3, 0x9D9E1AE0,
  0xD3D3E1AB, 0x21B862A8, 0x32E8915C, 0xC083125F, 0x144976B4, 0xE622F5B7, 0xF5720643, 0x07198540,
  0x590AB964, 0xAB613A67, 0xB831C993, 0x4A5A4A90, 0x9E902E7B, 0x6CFBAD78, 0x7FAB5E8C, 0x8DC0DD8F,
  0xE330A81A, 0x115B2B19, 0x020BD8ED, 0xF0605BEE, 0x24AA3F05, 0xD6C1BC06, 0xC5914FF2, 0x37FACCF1,
  0x69E9F0D5, 0x9B8273D6, 0x88D28022, 0x7AB90321, 0xAE7367CA, 0x5C18E4C9, 0x4F48173D, 0xBD23943E,
  0xF36E6F75, 0x0105EC76, 0x12551F82, 0xE03E9C81, 0x34F4F86A, 0xC69F7B69, 0xD5CF889D, 0x27A40B9E,
  0x79B737BA, 0x8BDCB4B9, 0x988C474D, 0x6AE7C44E, 0xBE2DA0A5, 0x4C4623A6, 0x5F16D052, 0xAD7D5351]

set_option maxRecDepth 2000 in
/-- `iso_table`: the polynomial `0x04C11DB7`. -/
def isoTable : CRC32Table := #v[
  0x00000000, 0x77073096, 0xEE0E612C, 0x990951BA, 0x076DC419, 0x706AF48F, 0xE963A535, 0x9E6495A3,
  0x0EDB8832, 0x79DCB8A4, 0xE0D5E91E, 0x97D2D988, 0x09B64C2B, 0x7EB17CBD, 0xE7B82D07, 0x90BF1D91,
  0x1DB71064, 0x6AB020F2, 0xF3B97148, 0x84BE41DE, 0x1ADAD47D, 0x6DDDE4EB, 0xF4D4B551, 0x83D385C7,
  0x136C9856, 0x646BA8C0, 0xFD62F97A, 0x8A65C9EC, 0x14015C4F, 0x63066CD9, 0xFA0F3D63, 0x8D080DF5,
  0x3B6E20C8, 0x4C69105E, 0xD56041E4, 0xA2677172, 0x3C03E4D1, 0x4B04D447, 0xD20D85FD, 0xA50AB56B,
  0x35B5A8FA, 0x42B2986C, 0xDBBBC9D6, 0xACBCF940, 0x32D86CE3, 0x45DF5C75, 0xDCD60DCF, 0xABD13D59,
  0x26D930AC, 0x51DE003A, 0xC8D75180, 0xBFD06116, 0x21B4F4B5, 0x56B3C423, 0xCFBA9599, 0xB8BDA50F,
  0x2802B89E, 0x5F058808, 0xC60CD9B2, 0xB10BE924, 0x2F6F7C87, 0x58684C11, 0xC1611DAB, 0xB6662D3D,
  0x76DC4190, 0x01DB7106, 0x98D220BC, 0xEFD5102A, 0x71B18589, 0x06B6B51F, 0x9FBFE4A5, 0xE8B8D433,
  0x7807C9A2, 0x0F00F934, 0x9609A88E, 0xE10E9818, 0x7F6A0DBB, 0x086D3D2D, 0x91646C97, 0xE6635C01,
  0x6B6B51F4, 0x1C6C6162, 0x856530D8, 0xF262004E, 0x6C0695ED, 0x1B01A57B, 0x8208F4C1, 0xF50FC457,
  0x65B0D9C6, 0x12B7E950, 0x8BBEB8EA, 0xFCB9887C, 0x62DD1DDF, 0x15DA2D49, 0x8CD37CF3, 0xFBD44C65,
  0x4DB26158, 0x3AB551CE, 0xA3BC0074, 0xD4BB30E2, 0x4ADFA541, 0x3DD895D7, 0xA4D1C46D, 0xD3D6F4FB,
  0x4369E96A, 0x346ED9FC, 0xAD678846, 0xDA60B8D0, 0x44042D73, 0x33031DE5, 0xAA0A4C5F, 0xDD0D7CC9,
  0x5005713C, 0x270241AA, 0xBE0B1010, 0xC90C2086, 0x5768B525, 0x206F85B3, 0xB966D409, 0xCE61E49F,
  0x5EDEF90E, 0x29D9C998, 0xB0D09822, 0xC7D7A8B4, 0x59B33D17, 0x2EB40D81, 0xB7BD5C3B, 0xC0BA6CAD,
  0xEDB88320, 0x9ABFB3B6, 0x03B6E20C, 0x74B1D29A, 0xEAD54739, 0x9DD277AF, 0x04DB2615, 0x73DC1683,
  0xE3630B12, 0x94643B84, 0x0D6D6A3E, 0x7A6A5AA8, 0xE40ECF0B, 0x9309FF9D, 0x0A00AE27, 0x7D079EB1,
  0xF00F9344, 0x8708A3D2, 0x1E01F268, 0x6906C2FE, 0xF762575D, 0x806567CB, 0x196C3671, 0x6E6B06E7,
  0xFED41B76, 0x89D32BE0, 0x10DA7A5A, 0x67DD4ACC, 0xF9B9DF6F, 0x8EBEEFF9, 0x17B7BE43, 0x60B08ED5,
  0xD6D6A3E8, 0xA1D1937E, 0x38D8C2C4, 0x4FDFF252, 0xD1BB67F1, 0xA6BC5767, 0x3FB506DD, 0x48B2364B,
  0xD80D2BDA, 0xAF0A1B4C, 0x36034AF6, 0x41047A60, 0xDF60EFC3, 0xA867DF55, 0x316E8EEF, 0x4669BE79,
  0xCB61B38C, 0xBC66831A, 0x256FD2A0, 0x5268E236, 0xCC0C7795, 0xBB0B4703, 0x220216B9, 0x5505262F,
  0xC5BA3BBE, 0xB2BD0B28, 0x2BB45A92, 0x5CB36A04, 0xC2D7FFA7, 0xB5D0CF31, 0x2CD99E8B, 0x5BDEAE1D,
  0x9B64C2B0, 0xEC63F226, 0x756AA39C, 0x026D930A, 0x9C0906A9, 0xEB0E363F, 0x72076785, 0x05005713,
  0x95BF4A82, 0xE2B87A14, 0x7BB12BAE, 0x0CB61B38, 0x92D28E9B, 0xE5D5BE0D, 0x7CDCEFB7, 0x0BDBDF21,
  0x86D3D2D4, 0xF1D4E242, 0x68DDB3F8, 0x1FDA836E, 0x81BE16CD, 0xF6B9265B, 0x6FB077E1, 0x18B74777,
  0x88085AE6, 0xFF0F6A70, 0x66063BCA, 0x11010B5C, 0x8F659EFF, 0xF862AE69, 0x616BFFD3, 0x166CCF45,
  0xA00AE278, 0xD70DD2EE, 0x4E048354, 0x3903B3C2, 0xA7672661, 0xD06016F7, 0x4969474D, 0x3E6E77DB,
  0xAED16A4A, 0xD9D65ADC, 0x40DF0B66, 0x37D83BF0, 0xA9BCAE53, 0xDEBB9EC5, 0x47B2CF7F, 0x30B5FFE9,
  0xBDBDF21C, 0xCABAC28A, 0x53B39330, 0x24B4A3A6, 0xBAD03605, 0xCDD70693, 0x54DE5729, 0x23D967BF,
  0xB3667A2E, 0xC4614AB8, 0x5D681B02, 0x2A6F2B94, 0xB40BBE37, 0xC30C8EA1, 0x5A05DF1B, 0x2D02EF8D]

/-- The low byte of a word indexes the 256-entry tables. -/
theorem toNat_and_0xFF_lt (x : BitVec 32) : (x &&& 0xFF#32).toNat < 256 := by
  rw [BitVec.toNat_and]
  exact Nat.lt_of_le_of_lt Nat.and_le_right (by decide)

/-- One iteration of the loop of `ComputeCRC32`: `crc = (crc >> 8) ^ table[(crc ^ byte) & 0xFF]`. -/
def step (table : CRC32Table) (crc : BitVec 32) (byte : BitVec 8) : BitVec 32 :=
  have hindex := toNat_and_0xFF_lt (crc ^^^ byte.setWidth 32)
  (crc >>> 8) ^^^ table[((crc ^^^ byte.setWidth 32) &&& 0xFF#32).toNat]

/-- `ComputeCRC32`: the loop `while (length-- > 0)`, step `i` on byte `i` of `value` (the host is little-endian). Past
the eighth byte the source reads beyond `value`; the model reads zeros there, a case no caller reaches. -/
def computeCRC32 (table : CRC32Table) (crc : BitVec 32) (value : BitVec 64) (length : Int) : BitVec 32 :=
  (List.range length.toNat).foldl (fun crc i => step table crc (Lanes.get 8 value i)) crc

/-- `ComputeCRC32Castagnoli`. -/
def computeCRC32Castagnoli (crc : BitVec 32) (value : BitVec 64) (length : Int) : BitVec 32 :=
  computeCRC32 castagnoliTable crc value length

/-- `ComputeCRC32ISO`. -/
def computeCRC32ISO (crc : BitVec 32) (value : BitVec 64) (length : Int) : BitVec 32 :=
  computeCRC32 isoTable crc value length

/-! ## The Arm pseudocode -/

/-- `Poly32Mod2`: for `i = N-1 downto 32`, when bit `i` is set, `data<i-1:0> = data<i-1:0> EOR (poly:Zeros(i-32))`;
the remainder is `data<31:0>`. -/
def poly32Mod2 {N : Nat} (data : BitVec N) (poly : BitVec 32) : BitVec 32 :=
  ((List.range (N - 32)).foldl (fun data k =>
    if data.getLsbD (N - 1 - k) then data ^^^ (poly ++ 0#(N - 1 - k - 32)).setWidth N else data) data).setWidth 32

/-- The result of `CRC32` and `CRC32C` in the Arm pseudocode, for the accumulator `acc` and a value of `size` bits. -/
def crc32Pseudocode (poly acc : BitVec 32) {size : Nat} (val : BitVec size) : BitVec 32 :=
  let tempacc : BitVec (32 + size) := acc.reverse ++ 0#(size)
  let tempval : BitVec (32 + size) := (val.reverse ++ 0#32).cast (Nat.add_comm size 32)
  (poly32Mod2 (tempacc ^^^ tempval) poly).reverse

/-! ## The pseudocode is the bit-serial CRC -/

/-- One bit of the reflected CRC: the register shifts right and takes in the reversed polynomial when the bit leaving it
differs from the data bit. -/
def bitStep (poly r : BitVec 32) (b : Bool) : BitVec 32 :=
  (r >>> 1) ^^^ (if (r.getLsbD 0 ^^ b) = true then poly.reverse else 0)

/-- The reflected CRC of `val` from the register `acc`, bit 0 of `val` first. -/
def bitFold (poly acc : BitVec 32) {s : Nat} (val : BitVec s) : BitVec 32 :=
  (List.range s).foldl (fun r k => bitStep poly r (val.getLsbD k)) acc

/-- The dividend of the pseudocode, `BitReverse(acc):Zeros(size) EOR BitReverse(val):Zeros(32)`. -/
def dividend (acc : BitVec 32) {size : Nat} (val : BitVec size) : BitVec (32 + size) :=
  (acc.reverse ++ 0#(size)) ^^^ (val.reverse ++ 0#32).cast (Nat.add_comm size 32)

/-- The step of `Poly32Mod2` at bit `i`. -/
def divStep (poly : BitVec 32) (i : Nat) {N : Nat} (d : BitVec N) : BitVec N :=
  if d.getLsbD i then d ^^^ (poly ++ 0#(i - 32)).setWidth N else d

/-- The pseudocode's CRC is the reversed remainder of its dividend. -/
theorem crc32Pseudocode_eq_dividend (poly acc : BitVec 32) {size : Nat} (val : BitVec size) :
    crc32Pseudocode poly acc val = (poly32Mod2 (dividend acc val) poly).reverse := rfl

/-- `Poly32Mod2` is one division step per bit above the low 32. -/
theorem poly32Mod2_eq_foldl_divStep {N : Nat} (d : BitVec N) (poly : BitVec 32) :
    poly32Mod2 d poly = ((List.range (N - 32)).foldl (fun d k => divStep poly (N - 1 - k) d) d).setWidth 32 := rfl

/-- A step below bit `M` commutes with dropping the bits from `M` up: it neither reads nor writes them. -/
theorem setWidth_divStep (poly : BitVec 32) {N M i : Nat} (d : BitVec N) (hi : i < M) (hM : M ≤ N) :
    (divStep poly i d).setWidth M = divStep poly i (d.setWidth M) := by
  have hbit : (d.setWidth M).getLsbD i = d.getLsbD i := by simp [hi]
  rw [divStep, divStep, hbit]
  split
  · rw [BitVec.setWidth_xor, BitVec.setWidth_setWidth_of_le _ hM]
  · rfl

/-- Division steps below the top bit commute with dropping the top bit. -/
theorem setWidth_foldl_divStep (poly : BitVec 32) {M : Nat} (hM : 1 ≤ M) (l : List Nat) (d : BitVec (M + 1)) :
    (l.foldl (fun d k => divStep poly (M - 1 - k) d) d).setWidth M =
      l.foldl (fun d k => divStep poly (M - 1 - k) d) (d.setWidth M) := by
  induction l generalizing d with
  | nil => rfl
  | cons k l ih => rw [List.foldl_cons, List.foldl_cons, ih, setWidth_divStep poly _ (by omega) (by omega)]

/-- `Poly32Mod2` on `M + 1` bits is its step at the top bit, then `Poly32Mod2` on the `M` bits below. -/
theorem poly32Mod2_succ (poly : BitVec 32) {M : Nat} (hM : 32 ≤ M) (d : BitVec (M + 1)) :
    poly32Mod2 d poly = poly32Mod2 ((divStep poly M d).setWidth M) poly := by
  rw [poly32Mod2_eq_foldl_divStep, poly32Mod2_eq_foldl_divStep, show M + 1 - 32 = (M - 32) + 1 by omega,
    List.range_succ_eq_map, List.foldl_cons, List.foldl_map]
  simp only [show M + 1 - 1 - 0 = M by omega, show ∀ k, M + 1 - 1 - Nat.succ k = M - 1 - k from fun k => by omega]
  rw [← BitVec.setWidth_setWidth_of_le _ hM, setWidth_foldl_divStep poly (by omega)]

/-- Bit `j` of `x` reversed above `n` zero bits. -/
theorem getLsbD_reverse_append_zero {w n : Nat} (x : BitVec w) (j : Nat) :
    (x.reverse ++ 0#n).getLsbD j = (decide (n ≤ j ∧ j < n + w) && x.getLsbD (n + w - 1 - j)) := by
  rw [BitVec.getLsbD_append, BitVec.getLsbD_zero]
  by_cases h : j < n
  · simp [h]
  · rw [if_neg h, BitVec.getLsbD_reverse, BitVec.getMsbD_eq_getLsbD, show w - 1 - (j - n) = n + w - 1 - j by omega]
    congr 1
    simp only [decide_eq_decide]
    omega

/-- Bit `j` of the dividend: `acc` reversed in bits `size .. size + 31`, `val` reversed in bits `32 .. size + 31`. -/
theorem getLsbD_dividend (acc : BitVec 32) {size : Nat} (val : BitVec size) (j : Nat) :
    (dividend acc val).getLsbD j =
      ((decide (size ≤ j ∧ j < size + 32) && acc.getLsbD (size + 31 - j)) ^^
        (decide (32 ≤ j ∧ j < 32 + size) && val.getLsbD (size + 31 - j))) := by
  rw [dividend, BitVec.getLsbD_xor, BitVec.getLsbD_cast, getLsbD_reverse_append_zero, getLsbD_reverse_append_zero,
    show size + 32 - 1 - j = size + 31 - j by omega, show 32 + size - 1 - j = size + 31 - j by omega]

/-- Bit `j` of the polynomial placed under bit `i`, as a step of `Poly32Mod2` XORs it in. -/
theorem getLsbD_divisor (poly : BitVec 32) {N i : Nat} (hi : 32 ≤ i) (hiN : i ≤ N) (j : Nat) :
    ((poly ++ 0#(i - 32)).setWidth N).getLsbD j = (decide (i - 32 ≤ j ∧ j < i) && poly.getLsbD (j - (i - 32))) := by
  rw [BitVec.getLsbD_setWidth, BitVec.getLsbD_append, BitVec.getLsbD_zero]
  by_cases h : j < i - 32
  · simp only [if_pos h, Bool.and_false, show ¬(i - 32 ≤ j ∧ j < i) by omega, decide_false, Bool.false_and]
  · rw [if_neg h]
    by_cases h' : j < i
    · rw [decide_eq_true (show j < N by omega), decide_eq_true (show i - 32 ≤ j ∧ j < i by omega), Bool.true_and]
    · simp only [show ¬(i - 32 ≤ j ∧ j < i) by omega, decide_false,
        BitVec.getLsbD_of_ge poly _ (by omega : 32 ≤ j - (i - 32)), Bool.and_false]

/-- Bit `t` of the register after one serial step. -/
theorem getLsbD_bitStep (poly r : BitVec 32) (b : Bool) {t : Nat} (ht : t < 32) :
    (bitStep poly r b).getLsbD t = (r.getLsbD (t + 1) ^^ ((r.getLsbD 0 ^^ b) && poly.getLsbD (31 - t))) := by
  rw [bitStep, BitVec.getLsbD_xor, BitVec.getLsbD_ushiftRight, Nat.add_comm 1 t]
  by_cases hb : (r.getLsbD 0 ^^ b) = true
  · rw [if_pos hb, hb, Bool.true_and, BitVec.getLsbD_reverse, BitVec.getMsbD_eq_getLsbD, decide_eq_true ht,
      Bool.true_and, show 32 - 1 - t = 31 - t by omega]
  · rw [if_neg hb, Bool.eq_false_iff.mpr hb, Bool.false_and]
    simp

/-- One division step at the top bit of the dividend is the bit step on the accumulator, followed by the dividend of the
remaining bits. -/
theorem setWidth_divStep_dividend (poly acc : BitVec 32) {s : Nat} (val : BitVec (s + 1)) :
    (divStep poly (32 + s) (dividend acc val)).setWidth (32 + s) =
      dividend (bitStep poly acc (val.getLsbD 0)) (val.extractLsb' 1 s) := by
  apply BitVec.eq_of_getLsbD_eq
  intro j hj
  -- the bit the step looks at is `acc[0] ^ val[0]`, the one the serial register compares
  have hc : (dividend acc val).getLsbD (32 + s) = (acc.getLsbD 0 ^^ val.getLsbD 0) := by
    rw [getLsbD_dividend, decide_eq_true (by omega : s + 1 ≤ 32 + s ∧ 32 + s < s + 1 + 32),
      decide_eq_true (by omega : 32 ≤ 32 + s ∧ 32 + s < 32 + (s + 1)), Bool.true_and, Bool.true_and,
      show s + 1 + 31 - (32 + s) = 0 by omega]
  have hd := getLsbD_divisor poly (N := 32 + (s + 1)) (i := 32 + s) (by omega) (by omega) j
  rw [BitVec.getLsbD_setWidth, divStep, hc, decide_eq_true hj, Bool.true_and, getLsbD_dividend,
    BitVec.getLsbD_extractLsb']
  by_cases hsj : s ≤ j
  · -- inside the accumulator's window: bit `s + 31 - j` of the new register is bit `s + 32 - j` of the old
    have e1 : s + 1 + 31 - j = s + 31 - j + 1 := by omega
    have e2 : j - (32 + s - 32) = 31 - (s + 31 - j) := by omega
    have e3 : 1 + (s + 31 - j) = s + 31 - j + 1 := by omega
    have h32 : j = s → acc.getLsbD (s + 31 - j + 1) = false := fun h => BitVec.getLsbD_of_ge _ _ (by omega)
    rw [getLsbD_bitStep poly acc _ (by omega)]
    split
    · rw [BitVec.getLsbD_xor, getLsbD_dividend, hd, e1, e2, e3]
      grind
    · rw [getLsbD_dividend, e1, e3]
      grind
  · -- below it only `val` contributes, one place further down
    have e1 : s + 1 + 31 - j = 1 + (s + 31 - j) := by omega
    split
    · rw [BitVec.getLsbD_xor, getLsbD_dividend, hd, e1]
      grind
    · rw [getLsbD_dividend, e1]
      grind

/-- On a value of no bits the pseudocode returns the accumulator. -/
theorem crc32Pseudocode_zero (poly acc : BitVec 32) (val : BitVec 0) : crc32Pseudocode poly acc val = acc := by
  rw [crc32Pseudocode_eq_dividend, poly32Mod2_eq_foldl_divStep]
  apply BitVec.eq_of_getLsbD_eq
  intro j hj
  rw [show 32 + 0 - 32 = 0 from rfl, List.range_zero, List.foldl_nil, BitVec.getLsbD_reverse,
    BitVec.getMsbD_eq_getLsbD, decide_eq_true hj, Bool.true_and, BitVec.getLsbD_setWidth, getLsbD_dividend,
    BitVec.getLsbD_of_ge val _ (Nat.zero_le _), Bool.and_false, Bool.xor_false,
    decide_eq_true (show 32 - 1 - j < 32 by omega), Bool.true_and,
    decide_eq_true (show 0 ≤ 32 - 1 - j ∧ 32 - 1 - j < 0 + 32 by omega), Bool.true_and,
    show 0 + 31 - (32 - 1 - j) = j by omega]

/-- The pseudocode on `s + 1` bits: one serial step on bit 0, then the pseudocode on the `s` bits above. -/
theorem crc32Pseudocode_succ (poly acc : BitVec 32) {s : Nat} (val : BitVec (s + 1)) :
    crc32Pseudocode poly acc val = crc32Pseudocode poly (bitStep poly acc (val.getLsbD 0)) (val.extractLsb' 1 s) := by
  rw [crc32Pseudocode_eq_dividend, crc32Pseudocode_eq_dividend, poly32Mod2_succ poly (M := 32 + s) (by omega),
    setWidth_divStep_dividend]

/-- The bitwise CRC consumes the lowest bit first. -/
theorem bitFold_succ (poly acc : BitVec 32) {s : Nat} (val : BitVec (s + 1)) :
    bitFold poly acc val = bitFold poly (bitStep poly acc (val.getLsbD 0)) (val.extractLsb' 1 s) := by
  rw [bitFold, bitFold, List.range_succ_eq_map, List.foldl_cons, List.foldl_map]
  apply List.foldl_ext
  intro r k hk
  rw [BitVec.getLsbD_extractLsb', decide_eq_true (List.mem_range.mp hk), Bool.true_and, Nat.add_comm 1 k]

/-- The polynomial division of the Arm pseudocode computes the reflected bit-serial CRC, for a value of any width. -/
theorem crc32Pseudocode_eq_bitFold (poly acc : BitVec 32) {s : Nat} (val : BitVec s) :
    crc32Pseudocode poly acc val = bitFold poly acc val := by
  induction s generalizing acc with
  | zero => rw [crc32Pseudocode_zero]; rfl
  | succ s ih => rw [crc32Pseudocode_succ, bitFold_succ, ih]

/-! ## The table -/

/-- The reflected remainder of a byte: the serial CRC of a zero byte from the register `x`, what entry `x` of a table
holds. -/
def tableEntry (poly : BitVec 32) (x : BitVec 8) : BitVec 32 :=
  bitFold poly (x.setWidth 32) 0#8

/-- A table whose entries are `f` of their index, checked on the table packed into one number. -/
theorem getElem_eq_of_pack {table : CRC32Table} {f : BitVec 8 → BitVec 32}
    (h : ∀ n < 256, (Lanes.pack 32 table.toList >>> (n * 32)) % 2 ^ 32 = (f (BitVec.ofNat 8 n)).toNat)
    (x : BitVec 8) : getElem table x.toNat x.isLt = f x := by
  apply BitVec.eq_of_toNat_eq
  have hx := h x.toNat x.isLt
  rw [BitVec.ofNat_toNat, BitVec.setWidth_eq] at hx
  rw [← hx]
  exact Lanes.toNat_getElem_eq_pack_toList table x.isLt

/-- `iso_table` holds the reflected remainders for `0x04C11DB7`. -/
theorem isoTable_eq : ∀ x : BitVec 8, getElem isoTable x.toNat x.isLt = tableEntry 0x04C11DB7#32 x :=
  getElem_eq_of_pack (by decide +kernel)

/-- `castagnoli_table` holds the reflected remainders for `0x1EDC6F41`. -/
theorem castagnoliTable_eq : ∀ x : BitVec 8, getElem castagnoliTable x.toNat x.isLt = tableEntry 0x1EDC6F41#32 x :=
  getElem_eq_of_pack (by decide +kernel)

/-- A data bit can be XORed into the register's low bit before the step instead of compared with it. -/
theorem bitStep_eq_xor (poly r : BitVec 32) (b : Bool) :
    bitStep poly r b = bitStep poly (r ^^^ (if b then 1#32 else 0#32)) false := by
  cases b <;> simp [bitStep, BitVec.ushiftRight_xor_distrib]

/-- Over zero bits the serial CRC is additive in the register. -/
theorem bitFold_zero_xor (poly r r' : BitVec 32) (s : Nat) :
    bitFold poly (r ^^^ r') 0#s = bitFold poly r 0#s ^^^ bitFold poly r' 0#s := by
  simp only [bitFold, BitVec.getLsbD_zero]
  refine XorLinear.foldl_xor (fun _ x y => ?_) _ r r'
  rw [bitStep, bitStep, bitStep, BitVec.ushiftRight_xor_distrib, BitVec.getLsbD_xor, Bool.xor_false,
    Bool.xor_false, Bool.xor_false, XorLinear.ite_xor]
  ac_rfl

/-- The serial CRC of `val` is that of zero bits from the register with `val` XORed in, for `val` of at most 32 bits:
each bit of `val` reaches the register's low bit at the step that reads it. -/
theorem bitFold_eq_xor (poly : BitVec 32) {s : Nat} (hs : s ≤ 32) (r : BitVec 32) (val : BitVec s) :
    bitFold poly r val = bitFold poly (r ^^^ val.setWidth 32) 0#s := by
  induction s generalizing r with
  | zero => rw [BitVec.of_length_zero (x := val)]; simp
  | succ s ih =>
    rw [bitFold_succ, bitFold_succ, ih (by omega), BitVec.getLsbD_zero, bitStep_eq_xor]
    congr 1
    · -- after the step, the bits of `val` above bit 0 are the ones the XORed register shifted down
      have hlow : (r ^^^ (if val.getLsbD 0 then 1#32 else 0#32)).getLsbD 0 = (r ^^^ val.setWidth 32).getLsbD 0 := by
        rw [BitVec.getLsbD_xor, BitVec.getLsbD_xor, BitVec.getLsbD_setWidth, decide_eq_true (by decide : 0 < 32),
          Bool.true_and]
        congr 1
        cases val.getLsbD 0 <;> decide
      have hone : ∀ j, (if val.getLsbD 0 then 1#32 else 0#32).getLsbD (1 + j) = false := by
        intro j
        cases val.getLsbD 0 <;> simp
      apply BitVec.eq_of_getLsbD_eq
      intro j hj
      simp only [bitStep, hlow, BitVec.getLsbD_xor, BitVec.getLsbD_ushiftRight, hone, BitVec.getLsbD_setWidth,
        BitVec.getLsbD_extractLsb']
      have hv : s ≤ j → val.getLsbD (1 + j) = false := fun h => BitVec.getLsbD_of_ge val _ (by omega)
      grind
    · simp

/-- A register whose low `s` bits are clear shifts `s` places through `s` zero bits. -/
theorem bitFold_zero_of_low (poly : BitVec 32) {s : Nat} (r : BitVec 32) (hr : ∀ i < s, r.getLsbD i = false) :
    bitFold poly r 0#s = r >>> s := by
  induction s generalizing r with
  | zero => simp [bitFold]
  | succ s ih =>
    have hstep : bitStep poly r false = r >>> 1 := by
      rw [bitStep, Bool.xor_false, hr 0 (by omega)]
      simp
    rw [bitFold_succ, BitVec.getLsbD_zero, hstep, show (0#(s + 1)).extractLsb' 1 s = 0#s by simp, ih]
    · rw [← BitVec.shiftRight_add, Nat.add_comm]
    · intro i hi
      simp [BitVec.getLsbD_ushiftRight, hr (1 + i) (by omega)]

/-- One iteration of the table loop is eight serial steps over the byte. -/
theorem bitFold_byte (poly crc : BitVec 32) (b : BitVec 8) :
    bitFold poly crc b = (crc >>> 8) ^^^ tableEntry poly (crc.setWidth 8 ^^^ b) := by
  have hsplit : crc ^^^ b.setWidth 32 = (crc >>> 8 <<< 8) ^^^ (crc.setWidth 8 ^^^ b).setWidth 32 := by
    apply BitVec.eq_of_getLsbD_eq
    intro j hj
    simp only [BitVec.getLsbD_xor, BitVec.getLsbD_setWidth, BitVec.getLsbD_shiftLeft, BitVec.getLsbD_ushiftRight]
    grind
  have hhigh : bitFold poly (crc >>> 8 <<< 8) 0#8 = crc >>> 8 := by
    rw [bitFold_zero_of_low poly _ (fun i hi => by simp [BitVec.getLsbD_shiftLeft, hi])]
    apply BitVec.eq_of_getLsbD_eq
    intro j hj
    simp only [BitVec.getLsbD_ushiftRight, BitVec.getLsbD_shiftLeft]
    grind
  rw [bitFold_eq_xor poly (by decide) crc b, hsplit, bitFold_zero_xor, hhigh, tableEntry]

/-! ## The loop computes the pseudocode -/

/-- The index `(crc ^ byte) & 0xFF` is the low byte of `crc` XOR `byte`. -/
theorem toNat_index (crc : BitVec 32) (byte : BitVec 8) :
    ((crc ^^^ byte.setWidth 32) &&& 0xFF#32).toNat = (crc.setWidth 8 ^^^ byte).toNat := by
  have h255 : (0xFF#32).toNat = 2 ^ 8 - 1 := by decide
  have hb := byte.isLt
  rw [BitVec.toNat_and, h255, Nat.and_two_pow_sub_one_eq_mod, BitVec.toNat_xor, Nat.xor_mod_two_pow,
    BitVec.toNat_xor, BitVec.toNat_setWidth, BitVec.toNat_setWidth, Nat.mod_eq_of_lt (by omega : byte.toNat < 2 ^ 32),
    Nat.mod_eq_of_lt hb]

/-- With a table of reflected remainders, one iteration of the loop is eight serial steps over the byte. -/
theorem step_eq_bitFold {table : CRC32Table} {poly : BitVec 32}
    (htable : ∀ x : BitVec 8, getElem table x.toNat x.isLt = tableEntry poly x) (crc : BitVec 32) (byte : BitVec 8) :
    step table crc byte = bitFold poly crc byte := by
  simp only [step, toNat_index, htable, bitFold_byte]

/-- The serial CRC of the low `m + t` bits is that of the low `m` bits, then of the `t` bits above them. -/
theorem bitFold_extractLsb'_add (poly acc : BitVec 32) {w : Nat} (x : BitVec w) (m t : Nat) :
    bitFold poly acc (x.extractLsb' 0 (m + t)) =
      bitFold poly (bitFold poly acc (x.extractLsb' 0 m)) (x.extractLsb' m t) := by
  rw [bitFold, bitFold, bitFold, List.range_add, List.foldl_append, List.foldl_map]
  have hlow : (List.range m).foldl (fun r k => bitStep poly r ((x.extractLsb' 0 (m + t)).getLsbD k)) acc =
      (List.range m).foldl (fun r k => bitStep poly r ((x.extractLsb' 0 m).getLsbD k)) acc := by
    apply List.foldl_ext
    intro r k hk
    have hk' := List.mem_range.mp hk
    simp [hk', show k < m + t by omega]
  rw [hlow]
  apply List.foldl_ext
  intro r k hk
  have hk' := List.mem_range.mp hk
  simp [hk']

/-- The loop of `ComputeCRC32` over `n` bytes is the serial CRC of the low `8 * n` bits of `value`. -/
theorem foldl_step_eq_bitFold {table : CRC32Table} {poly : BitVec 32}
    (htable : ∀ x : BitVec 8, getElem table x.toNat x.isLt = tableEntry poly x) (crc : BitVec 32) (value : BitVec 64) (n : Nat) :
    (List.range n).foldl (fun crc i => step table crc (Lanes.get 8 value i)) crc =
      bitFold poly crc (value.extractLsb' 0 (8 * n)) := by
  induction n with
  | zero => rfl
  | succ n ih =>
    rw [List.range_succ, List.foldl_append, ih, List.foldl_cons, List.foldl_nil, step_eq_bitFold htable,
      Lanes.get, Nat.mul_comm n 8, Nat.mul_succ, bitFold_extractLsb'_add]

/-- With a table of reflected remainders, `ComputeCRC32` computes the pseudocode on the low `length` bytes of the
value. Past the eighth byte the model's zero bytes meet the zero bits `extractLsb'` gives there. -/
theorem computeCRC32_eq_crc32Pseudocode {table : CRC32Table} {poly : BitVec 32}
    (htable : ∀ x : BitVec 8, getElem table x.toNat x.isLt = tableEntry poly x) (crc : BitVec 32) (value : BitVec 64)
    (length : Int) :
    computeCRC32 table crc value length = crc32Pseudocode poly crc (value.extractLsb' 0 (8 * length.toNat)) := by
  rw [crc32Pseudocode_eq_bitFold, computeCRC32, foldl_step_eq_bitFold htable]

/-- `ComputeCRC32ISO` and `ComputeCRC32Castagnoli` compute the CRC of the ARM pseudocode for each length the
instructions use: 1, 2, 4 and 8 bytes. -/
theorem computeCRC32_matches_arm_pseudocode (crc : BitVec 32) (value : BitVec 64) (length : Int)
    (hlength : length = 1 ∨ length = 2 ∨ length = 4 ∨ length = 8) :
    computeCRC32ISO crc value length = crc32Pseudocode 0x04C11DB7#32 crc (value.extractLsb' 0 (8 * length.toNat)) ∧
      computeCRC32Castagnoli crc value length =
        crc32Pseudocode 0x1EDC6F41#32 crc (value.extractLsb' 0 (8 * length.toNat)) := by
  rcases hlength with rfl | rfl | rfl | rfl <;>
    exact ⟨computeCRC32_eq_crc32Pseudocode isoTable_eq crc value _,
      computeCRC32_eq_crc32Pseudocode castagnoliTable_eq crc value _⟩

/-- The two CRCs of a word agree with the pseudocode. -/
theorem computeCRC32_matches_arm_pseudocode_word :
    computeCRC32ISO 0xFFFFFFFF#32 0x0123456789ABCDEF#64 4 =
        crc32Pseudocode 0x04C11DB7#32 0xFFFFFFFF#32 ((0x0123456789ABCDEF#64).extractLsb' 0 (8 * (4 : Int).toNat)) ∧
      computeCRC32Castagnoli 0xFFFFFFFF#32 0x0123456789ABCDEF#64 4 =
        crc32Pseudocode 0x1EDC6F41#32 0xFFFFFFFF#32 ((0x0123456789ABCDEF#64).extractLsb' 0 (8 * (4 : Int).toNat)) :=
  computeCRC32_matches_arm_pseudocode _ _ 4 (by decide)

end Dynarmic.CRC32
