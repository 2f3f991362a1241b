import Dynarmic.IR.Opt.A32GetSetElimination.Flags
import Dynarmic.Lib.Run

/-!
# `RegisterPass` keeps the meaning of a block

`RegisterPass` walks the list forwards. For each core register and each word of the extended registers it keeps the
value the register is known to hold and its last setter while nothing has read the register since. A getter of a known
register becomes an identity of the value; a setter of a register whose last setter nothing has read invalidates that
setter. The extended registers are 64 words that the S, D and Q views share, and a word remembers the view through
which it was last seen (`ExtValueType`): a getter is forwarded, and a setter invalidates the last setter, only when
every word of its view was last seen through the same view.

A setter the walk has passed may still be invalidated by a later visit. `RegWalked P P' S st` says that, after the walk
has visited the front `P` of the list (which is `P'` in the walk's block, with the instructions it inserted), any block
that has the walk's code on `P'` except that it voids some of the setters the walk may still invalidate (`Pending`)
computes the original outcomes on `P`, ends in a context that agrees with the original one except on what the voided
setters wrote (`RegAgree`), and has outcomes in which every value the walk knows is what the register holds in the
original run (`Known`). One visit keeps this (`RegWalked.visit`), and the walk over the whole list gives the theorem
(`registerPass_execA32`).

The facts the walk relies on: the views of one type cut the words into groups that do not overlap (`IsGroup`), and a
word last seen through a view was last seen together with every word of the view (`RegWalked.shared`).
-/

namespace Dynarmic.IR

/-- A 64-bit value is its two halves. -/
theorem append_halves (x : BitVec 64) : x.extractLsb' 32 32 ++ x.extractLsb' 0 32 = x := by
  apply BitVec.eq_of_getLsbD_eq
  intro i hi
  simp only [BitVec.getLsbD_append, BitVec.getLsbD_extractLsb']
  split
  · simp only [Nat.zero_add, decide_eq_true ‹i < 32›, Bool.true_and]
  · rw [decide_eq_true (by omega : i - 32 < 32), Bool.true_and, Nat.add_sub_cancel' (by omega)]

/-- A 128-bit value is its four quarters. -/
theorem append_quarters (x : BitVec 128) :
    x.extractLsb' 96 32 ++ x.extractLsb' 64 32 ++ x.extractLsb' 32 32 ++ x.extractLsb' 0 32 = x := by
  apply BitVec.eq_of_getLsbD_eq
  intro i hi
  simp only [BitVec.getLsbD_append, BitVec.getLsbD_extractLsb']
  split
  · simp only [Nat.zero_add, decide_eq_true ‹i < 32›, Bool.true_and]
  · split
    · rw [decide_eq_true (by omega : i - 32 < 32), Bool.true_and, Nat.add_sub_cancel' (by omega)]
    · split
      · rw [decide_eq_true (by omega : i - 32 - 32 < 32), Bool.true_and]
        congr 1
        omega
      · rw [decide_eq_true (by omega : i - 32 - 32 - 32 < 32), Bool.true_and]
        congr 1
        omega

namespace A32Context

@[simp] theorem reg_setWord (c : A32Context) (k : Nat) (x : BitVec 32) : (c.setWord k x).reg = c.reg := by
  unfold setWord
  split <;> rfl

@[simp] theorem reg_setDouble (c : A32Context) (n : Nat) (x : BitVec 64) : (c.setDouble n x).reg = c.reg := by
  simp only [setDouble, reg_setWord]

@[simp] theorem reg_setQuad (c : A32Context) (n : Nat) (x : BitVec 128) : (c.setQuad n x).reg = c.reg := by
  simp only [setQuad, reg_setWord]

/-- A word of the extended registers after a write of one word. -/
theorem word_setWord {k : Nat} (hk : k < 64) (c : A32Context) (x : BitVec 32) (k' : Nat) :
    (c.setWord k x).word k' = if k' = k then x else c.word k' := by
  unfold setWord word
  rw [dif_pos hk]
  split
  · rename_i hk'
    dsimp only
    split
    · rename_i h
      subst h
      exact Function.update_self _ _ _
    · rename_i h
      exact Function.update_of_ne (fun he => h (congrArg Fin.val he)) _ _
  · rename_i hk'
    rw [if_neg fun (h : k' = k) => hk' (h ▸ hk)]

/-- D`n` after a write of D`n`. -/
theorem double_setDouble {n : Nat} (hn : n < 32) (c : A32Context) (x : BitVec 64) : (c.setDouble n x).double n = x := by
  simp only [double, setDouble, word_setWord (by omega : 2 * n + 1 < 64), word_setWord (by omega : 2 * n < 64)]
  simp only [if_true, show 2 * n ≠ 2 * n + 1 by omega, if_false]
  exact append_halves x

/-- Q`n` after a write of Q`n`. -/
theorem quad_setQuad {n : Nat} (hn : n < 16) (c : A32Context) (x : BitVec 128) : (c.setQuad n x).quad n = x := by
  simp only [quad, setQuad, word_setWord (by omega : 4 * n + 3 < 64), word_setWord (by omega : 4 * n + 2 < 64),
    word_setWord (by omega : 4 * n + 1 < 64), word_setWord (by omega : 4 * n < 64)]
  simp only [if_true, show 4 * n + 2 ≠ 4 * n + 3 by omega, show 4 * n + 1 ≠ 4 * n + 3 by omega,
    show 4 * n ≠ 4 * n + 3 by omega, show 4 * n + 1 ≠ 4 * n + 2 by omega, show 4 * n ≠ 4 * n + 2 by omega,
    show 4 * n ≠ 4 * n + 1 by omega, if_false]
  exact append_quarters x

/-- Two contexts with the same core registers, flags and words are the same. -/
theorem eq_of_words {c d : A32Context} (hreg : d.reg = c.reg) (hflags : d.flags = c.flags)
    (hword : ∀ k < 64, d.word k = c.word k) : d = c := by
  have hext : d.ext = c.ext := by
    funext k
    have := hword k.val k.isLt
    simpa [word] using this
  exact eq_of_flags_registers hflags (by simp only [registers, hreg, hext])

end A32Context

/-- `GetA32RegRef` finds the core register a value names. -/
theorem Value.getA32RegRef_eq_some {v : Value} {x : Fin 16} : v.getA32RegRef = some x ↔ v = .a32Reg x := by
  cases v <;> simp [Value.getA32RegRef]

/-- `GetA32ExtRegRef` finds the extended register a value names. -/
theorem Value.getA32ExtRegRef_eq_some {v : Value} {e : Fin 80} : v.getA32ExtRegRef = some e ↔ v = .a32ExtReg e := by
  cases v <;> simp [Value.getA32ExtRegRef]

/-- Every bank has at most 32 registers. -/
theorem extRegNumber_lt (e : Fin 80) : extRegNumber e < 32 := by
  unfold extRegNumber
  split_ifs <;> omega

/-- The Q bank has 16 registers. -/
theorem extRegNumber_lt_of_quad {e : Fin 80} (h : 64 ≤ e.val) : extRegNumber e < 16 := by
  unfold extRegNumber
  split_ifs <;> omega

/-- An argument read through a typed view of its value has the value the view came from. -/
theorem map_value_of_bind {α : Type} {o : Option Outcome} {g : Val → Option α} {f : α → Val} {x : α}
    (hg : ∀ v y, g v = some y → v = f y) (h : o.bind (fun o => g o.value) = some x) :
    o.map Outcome.value = some (f x) := by
  cases o with
  | none => exact absurd h (by simp)
  | some o =>
    rw [Option.bind_some] at h
    rw [Option.map_some, hg _ _ h]

/-- A value read as a word is that word. -/
theorem Val.eq_of_asU32 : ∀ (v : Val) (y : BitVec 32), v.asU32 = some y → v = .u32 y := by
  intro v y h
  cases v <;> simp_all [Val.asU32]

/-- A value read as a doubleword is that doubleword. -/
theorem Val.eq_of_asU64 : ∀ (v : Val) (y : BitVec 64), v.asU64 = some y → v = .u64 y := by
  intro v y h
  cases v <;> simp_all [Val.asU64]

/-- A value read as a quadword is that quadword. -/
theorem Val.eq_of_asU128 : ∀ (v : Val) (y : BitVec 128), v.asU128 = some y → v = .u128 y := by
  intro v y h
  cases v <;> simp_all [Val.asU128]

@[simp] theorem Outcome.value_plain (v : Val) : (Outcome.plain v).value = v := rfl

/-- An instruction whose arguments refer only to instructions on which two runs agree computes alike after either. -/
theorem Block.stepA32_of_args (ext : InstRef → A32Context → A32Context × Outcome) {b b' : Block} {p : InstRef}
    (hcode : b'.code p = b.code p) {o : InstRef → Option Outcome} {s : A32Context × (InstRef → Option Outcome)}
    (ho : ∀ k t, (b.pool p).args k = .inst t → s.2 t = o t) :
    b'.stepA32 ext s p = ((execA32Inst ext s.1 (fun k => evalArg o ((b.pool p).args k)) p (b.pool p)).1,
      Function.update s.2 p (execA32Inst ext s.1 (fun k => evalArg o ((b.pool p).args k)) p (b.pool p)).2) := by
  have hargs : (fun k => evalArg s.2 ((b.pool p).args k)) = fun k => evalArg o ((b.pool p).args k) := by
    funext k
    exact evalArg_congr fun t ht => ho k t ht
  rw [Block.stepA32_congr ext hcode, Block.stepA32]
  simp only [hargs]

/-- A voided instruction computes nothing and leaves the context. -/
theorem Block.stepA32_of_void (ext : InstRef → A32Context → A32Context × Outcome) {b : Block} {p : InstRef}
    (hcode : b.code p = (.void, fun _ => .void)) (s : A32Context × (InstRef → Option Outcome)) :
    b.stepA32 ext s p = (s.1, Function.update s.2 p (some (.plain .void))) := by
  rw [Block.stepA32, execA32Inst_void ext (congrArg Prod.fst hcode)]

/-- An identity computes the value of its argument, plain, and leaves the context. -/
theorem Block.stepA32_of_identity (ext : InstRef → A32Context → A32Context × Outcome) {b : Block} {p : InstRef}
    {v : Value} (hcode : b.code p = (.identity, Function.update (fun _ => .void) 0 v))
    (s : A32Context × (InstRef → Option Outcome)) :
    b.stepA32 ext s p = (s.1, Function.update s.2 p ((evalArg s.2 v).map fun o => .plain o.value)) := by
  have hargs : (b.pool p).args = Function.update (fun _ => .void) 0 v := congrArg Prod.snd hcode
  rw [Block.stepA32, execA32Inst_identity ext (congrArg Prod.fst hcode)]
  simp [hargs]

end Dynarmic.IR

namespace Dynarmic.Optimization.A32GetSetElimination

open Dynarmic.IR

/-! ### The words a setter writes -/

/-- A change of the context that writes the words `W` of the extended registers with `f` and leaves the rest. -/
structure WritesWords (E : A32Context → A32Context) (W : List Nat) (f : Nat → BitVec 32) : Prop where
  reg : ∀ c, (E c).reg = c.reg
  flags : ∀ c, (E c).flags = c.flags
  word : ∀ c k, (E c).word k = if k ∈ W then f k else c.word k

/-- Writing an S register writes its one word. -/
theorem writesWords_setWord {k : Nat} (hk : k < 64) (x : BitVec 32) :
    WritesWords (fun c => c.setWord k x) [k] fun _ => x where
  reg c := A32Context.reg_setWord c k x
  flags c := A32Context.flags_setWord c k x
  word c k' := by
    simp only [A32Context.word_setWord hk, List.mem_singleton]

/-- Writing a D register writes its two words, the low half first. -/
theorem writesWords_setDouble {n : Nat} (hn : n < 32) (x : BitVec 64) :
    WritesWords (fun c => c.setDouble n x) (doubleWords n)
      fun k => if k = 2 * n then x.extractLsb' 0 32 else x.extractLsb' 32 32 where
  reg c := A32Context.reg_setDouble c n x
  flags c := A32Context.flags_setDouble c n x
  word c k := by
    simp only [A32Context.setDouble, A32Context.word_setWord (by omega : 2 * n + 1 < 64),
      A32Context.word_setWord (by omega : 2 * n < 64), doubleWords, List.mem_cons, List.not_mem_nil, or_false]
    by_cases h1 : k = 2 * n + 1
    · simp [h1]
    · by_cases h0 : k = 2 * n <;> simp [h0, h1]

/-- Writing a Q register writes its four words, the lowest first. -/
theorem writesWords_setQuad {n : Nat} (hn : n < 16) (x : BitVec 128) :
    WritesWords (fun c => c.setQuad n x) (quadWords n)
      fun k => if k = 4 * n then x.extractLsb' 0 32 else if k = 4 * n + 1 then x.extractLsb' 32 32
        else if k = 4 * n + 2 then x.extractLsb' 64 32 else x.extractLsb' 96 32 where
  reg c := A32Context.reg_setQuad c n x
  flags c := A32Context.flags_setQuad c n x
  word c k := by
    simp only [A32Context.setQuad, A32Context.word_setWord (by omega : 4 * n + 3 < 64),
      A32Context.word_setWord (by omega : 4 * n + 2 < 64), A32Context.word_setWord (by omega : 4 * n + 1 < 64),
      A32Context.word_setWord (by omega : 4 * n < 64), quadWords, List.mem_cons, List.not_mem_nil, or_false]
    by_cases h3 : k = 4 * n + 3
    · simp [h3]
    by_cases h2 : k = 4 * n + 2
    · simp [h2]
    by_cases h1 : k = 4 * n + 1
    · simp [h1]
    by_cases h0 : k = 4 * n <;> simp [h0, h1, h2, h3]

/-! ### Views and the groups of words they cover -/

/-- The view through which an opcode reads or writes the extended register `r`, and the words it covers, as
`RegisterPass` takes them. -/
def extView (op : Opcode) (r : Fin 80) : Option (ExtValueType × List Nat) :=
  match op with
  | .a32GetExtendedRegister32 | .a32SetExtendedRegister32 => some (.single, [extRegNumber r])
  | .a32GetExtendedRegister64 | .a32SetExtendedRegister64 => some (.double, doubleWords (extRegNumber r))
  | .a32GetVector | .a32SetVector =>
    some (if isDoubleExtReg r then (.vectorDouble, doubleWords (extRegNumber r))
      else (.vectorQuad, quadWords (extRegNumber r)))
  | _ => none

/-- What a getter of a view reads from the words of the view. -/
def extRead (T : ExtValueType) (W : List Nat) (c : A32Context) : Val :=
  match T with
  | .single => .u32 (c.word (W.headD 0))
  | .double => .u64 (c.double (W.headD 0 / 2))
  | .vectorDouble => .u128 ((c.double (W.headD 0 / 2)).setWidth 128)
  | .vectorQuad => .u128 (c.quad (W.headD 0 / 4))
  | .empty => .void

/-- The groups of words a view covers: one word, the two words of a D register, the four words of a Q register. -/
def IsGroup : ExtValueType → List Nat → Prop
  | .single, W => ∃ k < 64, W = [k]
  | .double, W => ∃ n < 32, W = doubleWords n
  | .vectorDouble, W => ∃ n < 32, W = doubleWords n
  | .vectorQuad, W => ∃ n < 16, W = quadWords n
  | .empty, _ => False

/-- Two groups of one view that share a word are the same group. -/
theorem IsGroup.eq_of_mem {T : ExtValueType} {W W' : List Nat} (hW : IsGroup T W) (hW' : IsGroup T W') {k : Nat}
    (hk : k ∈ W) (hk' : k ∈ W') : W = W' := by
  cases T with
  | empty => exact hW.elim
  | single =>
    obtain ⟨a, -, rfl⟩ := hW
    obtain ⟨a', -, rfl⟩ := hW'
    simp_all
  | double | vectorDouble =>
    obtain ⟨n, -, rfl⟩ := hW
    obtain ⟨n', -, rfl⟩ := hW'
    simp only [doubleWords, List.mem_cons, List.not_mem_nil, or_false] at hk hk'
    have : n = n' := by omega
    rw [this]
  | vectorQuad =>
    obtain ⟨n, -, rfl⟩ := hW
    obtain ⟨n', -, rfl⟩ := hW'
    simp only [quadWords, List.mem_cons, List.not_mem_nil, or_false] at hk hk'
    have : n = n' := by omega
    rw [this]

/-- The first word of a view is one of its words. -/
theorem IsGroup.head_mem {T : ExtValueType} {W : List Nat} (hW : IsGroup T W) : W.headD 0 ∈ W := by
  cases T with
  | empty => exact hW.elim
  | single =>
    obtain ⟨k, -, rfl⟩ := hW
    simp
  | double | vectorDouble =>
    obtain ⟨n, -, rfl⟩ := hW
    simp [doubleWords]
  | vectorQuad =>
    obtain ⟨n, -, rfl⟩ := hW
    simp [quadWords]

/-- The words of a view are among the 64 words of the extended registers. -/
theorem IsGroup.lt {T : ExtValueType} {W : List Nat} (hW : IsGroup T W) {k : Nat} (hk : k ∈ W) : k < 64 := by
  cases T with
  | empty => exact hW.elim
  | single =>
    obtain ⟨a, ha, rfl⟩ := hW
    simp_all
  | double | vectorDouble =>
    obtain ⟨n, hn, rfl⟩ := hW
    simp only [doubleWords, List.mem_cons, List.not_mem_nil, or_false] at hk
    omega
  | vectorQuad =>
    obtain ⟨n, hn, rfl⟩ := hW
    simp only [quadWords, List.mem_cons, List.not_mem_nil, or_false] at hk
    omega

/-- What a view reads depends only on its words. -/
theorem extRead_congr {T : ExtValueType} {W : List Nat} (hW : IsGroup T W) {c d : A32Context}
    (h : ∀ k ∈ W, d.word k = c.word k) : extRead T W d = extRead T W c := by
  cases T with
  | empty => rfl
  | single =>
    obtain ⟨k, -, rfl⟩ := hW
    simp [extRead, h k (by simp)]
  | double | vectorDouble =>
    obtain ⟨n, -, rfl⟩ := hW
    have h2 : 2 * n / 2 = n := by omega
    simp only [extRead, doubleWords, List.headD_cons, h2, A32Context.double]
    rw [h (2 * n) (by simp [doubleWords]), h (2 * n + 1) (by simp [doubleWords])]
  | vectorQuad =>
    obtain ⟨n, -, rfl⟩ := hW
    have h4 : 4 * n / 4 = n := by omega
    simp only [extRead, quadWords, List.headD_cons, h4, A32Context.quad]
    rw [h (4 * n) (by simp [quadWords]), h (4 * n + 1) (by simp [quadWords]), h (4 * n + 2) (by simp [quadWords]),
      h (4 * n + 3) (by simp [quadWords])]

/-- A view is a group of words when the register of a vector operand is a D or a Q register. -/
theorem extView_isGroup {op : Opcode} {e : Fin 80} {T : ExtValueType} {W : List Nat} (hv : extView op e = some (T, W))
    (hwide : (op = .a32GetVector ∨ op = .a32SetVector) → 32 ≤ e.val) : IsGroup T W := by
  have h32 := extRegNumber_lt e
  unfold extView at hv
  split at hv
  case h_1 | h_2 =>
    cases hv
    exact ⟨_, by omega, rfl⟩
  case h_3 | h_4 =>
    cases hv
    exact ⟨_, h32, rfl⟩
  -- a vector names a D register, or a Q register (`DEBUG_ASSERT(A32::IsQuadExtReg(reg))`)
  case h_5 | h_6 =>
    have hw := hwide (by simp)
    split at hv
    · cases hv
      exact ⟨_, h32, rfl⟩
    · cases hv
      rename_i hd
      have h64 : 64 ≤ e.val := by
        simp only [isDoubleExtReg, Bool.and_eq_true, decide_eq_true_eq, not_and, Nat.not_lt] at hd
        exact hd hw
      exact ⟨_, extRegNumber_lt_of_quad h64, rfl⟩
  case h_7 => cases hv

/-- Every view covers its first word. -/
theorem extView_head_mem {op : Opcode} {e : Fin 80} {T : ExtValueType} {W : List Nat}
    (hv : extView op e = some (T, W)) : W.headD 0 ∈ W := by
  unfold extView at hv
  split at hv
  case h_1 | h_2 =>
    cases hv
    simp
  case h_3 | h_4 =>
    cases hv
    simp [doubleWords]
  case h_5 | h_6 =>
    split at hv <;> cases hv <;> simp [doubleWords, quadWords]
  case h_7 => cases hv

/-! ### What the getters and setters of the registers do -/

/-- What a view reads after a setter of the view was given the value `x`: a vector written to a D register keeps its
lower half. -/
def extStored : ExtValueType → Val → Val
  | .vectorDouble, .u128 x => .u128 ((x.setWidth 64).setWidth 128)
  | _, x => x

/-- Only a vector written to a D register is stored other than it was given. -/
theorem extStored_of_ne {T : ExtValueType} (hT : T ≠ .vectorDouble) (x : Val) : extStored T x = x := by
  unfold extStored
  split
  · exact absurd rfl hT
  · rfl

section Exec
variable (ext : InstRef → A32Context → A32Context × Outcome) {i : Inst} {a : Fin 4 → Option Outcome} {r : InstRef}

/-- A getter of a view reads the words of the view. -/
theorem execA32Inst_extGet (hread : i.op.readsFromCoreRegister = true) {e : Fin 80} (h0 : i.args 0 = .a32ExtReg e)
    {T : ExtValueType} {W : List Nat} (hv : extView i.op e = some (T, W)) (c : A32Context) :
    execA32Inst ext c a r i = (c, some (.plain (extRead T W c))) := by
  have h2 : 2 * extRegNumber e / 2 = extRegNumber e := by omega
  unfold extView at hv
  split at hv
  case h_2 | h_4 | h_6 =>
    rename_i hop
    simp [hop, Opcode.readsFromCoreRegister] at hread
  case h_7 => cases hv
  case h_1 | h_3 =>
    rename_i hop
    cases hv
    simp [execA32Inst, hop, h0, Value.getA32ExtRegRef, extRead, doubleWords, h2]
  case h_5 =>
    rename_i hop
    split at hv
    · rename_i hd
      cases hv
      simp [execA32Inst, hop, h0, Value.getA32ExtRegRef, extRead, doubleWords, h2, hd]
    · rename_i hd
      have h4 : 4 * extRegNumber e / 4 = extRegNumber e := by omega
      cases hv
      simp [execA32Inst, hop, h0, Value.getA32ExtRegRef, extRead, quadWords, h4, hd]

/-- A setter that writes the words of its view with a value that the view then reads back. -/
theorem extSet_of_exec {E : A32Context → A32Context} {W : List Nat} {f : Nat → BitVec 32} {T : ExtValueType}
    {x : Val} (hexec : ∀ d, execA32Inst ext d a r i = (E d, some (.plain .void))) (hw : WritesWords E W f)
    (hread : ∀ d, extRead T W (E d) = extStored T x) (hx : (a 1).map Outcome.value = some x)
    (hvec : i.op = .a32SetVector → ∃ y, x = .u128 y) :
    ∃ x f, (a 1).map Outcome.value = some x ∧ (i.op = .a32SetVector → ∃ y, x = .u128 y) ∧
      WritesWords (fun d => (execA32Inst ext d a r i).1) W f ∧
      (∀ d, (execA32Inst ext d a r i).2 = some (.plain .void)) ∧
      ∀ d, extRead T W (execA32Inst ext d a r i).1 = extStored T x := by
  refine ⟨x, f, hx, hvec, ⟨fun d => ?_, fun d => ?_, fun d k => ?_⟩, fun d => by rw [hexec], fun d => ?_⟩
  · rw [hexec]
    exact hw.reg d
  · rw [hexec]
    exact hw.flags d
  · rw [hexec]
    exact hw.word d k
  · rw [hexec]
    exact hread d

/-- A setter of a view that ran writes the words of the view, from every context, so that the view then reads the value
it was given (`extStored`). -/
theorem execA32Inst_extSet (hwrite : i.op.writesToCoreRegister = true) {e : Fin 80} (h0 : i.args 0 = .a32ExtReg e)
    {T : ExtValueType} {W : List Nat} (hv : extView i.op e = some (T, W)) (hW : IsGroup T W) {c : A32Context}
    (h : (execA32Inst ext c a r i).2 ≠ none) :
    ∃ x f, (a 1).map Outcome.value = some x ∧ (i.op = .a32SetVector → ∃ y, x = .u128 y) ∧
      WritesWords (fun d => (execA32Inst ext d a r i).1) W f ∧
      (∀ d, (execA32Inst ext d a r i).2 = some (.plain .void)) ∧
      ∀ d, extRead T W (execA32Inst ext d a r i).1 = extStored T x := by
  have h2 : 2 * extRegNumber e / 2 = extRegNumber e := by omega
  unfold extView at hv
  split at hv
  case h_1 | h_3 | h_5 =>
    rename_i hop
    simp [hop, Opcode.writesToCoreRegister] at hwrite
  case h_7 => cases hv
  case h_2 =>
    rename_i hop
    cases hv
    obtain ⟨v, hv'⟩ : ∃ v, argU32 a 1 = some v := by
      cases hx : argU32 a 1 with
      | none => simp [execA32Inst, hop, h0, Value.getA32ExtRegRef, hx] at h
      | some v => exact ⟨v, rfl⟩
    have hk := hW.lt (List.mem_singleton_self _)
    refine extSet_of_exec ext (E := fun d => d.setWord (extRegNumber e) v)
      (fun d => by simp [execA32Inst, hop, h0, Value.getA32ExtRegRef, hv']) (writesWords_setWord hk v)
      (fun d => by simp [extRead, extStored, A32Context.word_setWord hk]) (map_value_of_bind Val.eq_of_asU32 hv')
      (by simp [hop])
  case h_4 =>
    rename_i hop
    cases hv
    obtain ⟨v, hv'⟩ : ∃ v, argU64 a 1 = some v := by
      cases hx : argU64 a 1 with
      | none => simp [execA32Inst, hop, h0, Value.getA32ExtRegRef, hx] at h
      | some v => exact ⟨v, rfl⟩
    have hn : extRegNumber e < 32 := extRegNumber_lt e
    refine extSet_of_exec ext (E := fun d => d.setDouble (extRegNumber e) v)
      (fun d => by simp [execA32Inst, hop, h0, Value.getA32ExtRegRef, hv']) (writesWords_setDouble hn v)
      (fun d => by simp [extRead, extStored, doubleWords, h2, A32Context.double_setDouble hn])
      (map_value_of_bind Val.eq_of_asU64 hv') (by simp [hop])
  case h_6 =>
    rename_i hop
    obtain ⟨y, hy⟩ : ∃ y, (a 1).bind (·.value.asU128) = some y := by
      cases hx : (a 1).bind (·.value.asU128) with
      | none => simp [execA32Inst, hop, h0, Value.getA32ExtRegRef, hx] at h
      | some y => exact ⟨y, rfl⟩
    have hx := map_value_of_bind Val.eq_of_asU128 hy
    split at hv
    · rename_i hd
      cases hv
      have hn : extRegNumber e < 32 := extRegNumber_lt e
      refine extSet_of_exec ext (E := fun d => d.setDouble (extRegNumber e) (y.setWidth 64))
        (fun d => by simp [execA32Inst, hop, h0, Value.getA32ExtRegRef, hy, hd]) (writesWords_setDouble hn _)
        (fun d => by simp [extRead, extStored, doubleWords, h2, A32Context.double_setDouble hn]) hx
        (fun _ => ⟨y, rfl⟩)
    · rename_i hd
      cases hv
      have hn : extRegNumber e < 16 := by
        have := hW.lt (by simp [quadWords] : 4 * extRegNumber e + 3 ∈ quadWords (extRegNumber e))
        omega
      have h4 : 4 * extRegNumber e / 4 = extRegNumber e := by omega
      refine extSet_of_exec ext (E := fun d => d.setQuad (extRegNumber e) y)
        (fun d => by simp [execA32Inst, hop, h0, Value.getA32ExtRegRef, hy, hd]) (writesWords_setQuad hn _)
        (fun d => by simp [extRead, extStored, quadWords, h4, A32Context.quad_setQuad hn]) hx
        (fun _ => ⟨y, rfl⟩)

/-- A getter of a core register reads it. -/
theorem execA32Inst_getRegister (hop : i.op = .a32GetRegister) {x : Fin 16} (h0 : i.args 0 = .a32Reg x)
    (c : A32Context) : execA32Inst ext c a r i = (c, some (.plain (.u32 (c.reg x)))) := by
  simp [execA32Inst, hop, h0, Value.getA32RegRef]

/-- A setter of a core register that ran writes the register with the word of its value, from every context. -/
theorem execA32Inst_setRegister (hop : i.op = .a32SetRegister) {x : Fin 16} (h0 : i.args 0 = .a32Reg x)
    {c : A32Context} (h : (execA32Inst ext c a r i).2 ≠ none) :
    ∃ v : BitVec 32, (a 1).map Outcome.value = some (.u32 v) ∧
      ∀ d, execA32Inst ext d a r i = ({ d with reg := Function.update d.reg x v }, some (.plain .void)) := by
  obtain ⟨v, hv⟩ : ∃ v, argU32 a 1 = some v := by
    cases hx : argU32 a 1 with
    | none => simp [execA32Inst, hop, h0, Value.getA32RegRef, hx] at h
    | some v => exact ⟨v, rfl⟩
  exact ⟨v, map_value_of_bind Val.eq_of_asU32 hv, fun d => by simp [execA32Inst, hop, h0, Value.getA32RegRef, hv]⟩

/-- An instruction whose opcode neither reads nor writes a core register computes the same outcome and the same flags
from contexts with the same flags, and leaves the registers. -/
theorem execA32Inst_of_flags_eq (hread : i.op.readsFromCoreRegister = false)
    (hwrite : i.op.writesToCoreRegister = false) {c c' : A32Context}
    (hext : (i.op.isInput = true ∨ i.op = .a32SetCpsr) → (ext r c').2 = (ext r c).2 ∧
      (ext r c').1.flags = (ext r c).1.flags ∧ (ext r c).1.registers = c.registers ∧
      (ext r c').1.registers = c'.registers)
    (h : c'.flags = c.flags) :
    (execA32Inst ext c' a r i).2 = (execA32Inst ext c a r i).2 ∧
      (execA32Inst ext c' a r i).1.flags = (execA32Inst ext c a r i).1.flags ∧
      (execA32Inst ext c a r i).1.registers = c.registers ∧ (execA32Inst ext c' a r i).1.registers = c'.registers := by
  simp only [A32Context.flags, Prod.mk.injEq] at h
  obtain ⟨hn, hz, hc, hv, hq, hge⟩ := h
  unfold execA32Inst
  split
  all_goals rename_i heq
  all_goals simp only [heq, Opcode.readsFromCoreRegister, Opcode.writesToCoreRegister, Bool.true_eq_false] at hread hwrite
  all_goals dsimp only
  all_goals (repeat' split)
  all_goals simp_all [A32Context.flags, A32Context.registers, A32Context.setNZCVWord]
/-- `VectorZeroUpper` of a vector is what a D register written with the vector holds, as a vector. -/
theorem execA32Inst_vectorZeroUpper (hop : i.op = .vectorZeroUpper) {y : BitVec 128}
    (h : (a 0).map Outcome.value = some (.u128 y)) (c : A32Context) :
    execA32Inst ext c a r i = (c, some (.plain (extStored .vectorDouble (.u128 y)))) := by
  obtain ⟨o, ho, hv⟩ : ∃ o, a 0 = some o ∧ o.value = .u128 y := by
    cases ha : a 0 <;> simp_all
  simp [execA32Inst, hop, Opcode.isInput, evalOp, ho, hv, extStored]

end Exec

/-! ### One visit of `RegisterPass` -/

namespace RegisterState

variable (st : RegisterState) (p : InstRef)

/-- A getter of a core register with no known value: the getter's own result becomes the known value. -/
theorem regGet_of_void {x : Fin 15} (h : (st.regInfo x).registerValue = .void) :
    st.regGet x p = { st with regInfo := Function.update st.regInfo x { st.regInfo x with registerValue := .inst p } } := by
  simp only [regGet, doRegGet, if_pos h]

/-- A getter of a core register with a known value: the getter becomes an identity of the value. -/
theorem regGet_of_ne_void {x : Fin 15} (h : (st.regInfo x).registerValue ≠ .void) :
    st.regGet x p = { st with block := st.block.replaceUsesWith p (st.regInfo x).registerValue } := by
  simp only [regGet, doRegGet, if_neg h, Function.update_eq_self]

/-- `RegSet` records the value and the setter of the core register. -/
theorem regSet_regInfo (x : Fin 15) (v : Value) :
    (st.regSet x v p).regInfo = Function.update st.regInfo x { registerValue := v, lastSetInstruction := some p } := rfl

/-- `RegSet` keeps the extended registers' entries. -/
theorem regSet_extRegInfo (x : Fin 15) (v : Value) : (st.regSet x v p).extRegInfo = st.extRegInfo := rfl

/-- A setter of a core register invalidates the register's last setter. -/
theorem regSet_block_code (x : Fin 15) (v : Value) (r : InstRef) :
    (st.regSet x v p).block.code r =
      if (st.regInfo x).lastSetInstruction = some r then (.void, fun _ => .void) else st.block.code r := by
  simp only [regSet, doRegSet]
  split
  · rename_i s hs
    rw [hs, Block.code_invalidate]
    simp only [Option.some.injEq, eq_comm]
  · rename_i hs
    rw [hs]
    simp

/-- `RegSet` keeps the list. -/
theorem regSet_block_instructions (x : Fin 15) (v : Value) :
    (st.regSet x v p).block.instructions = st.block.instructions := by
  simp only [regSet, doRegSet]
  split
  · exact Block.instructions_invalidate _ _
  · rfl

/-- A getter of a view whose words were all last seen through it becomes an identity of their value. -/
theorem extGet_of_all {T : ExtValueType} {W : List Nat} (h : ∀ k ∈ W, (st.extRegInfo k).valueType = T) :
    st.extGet T W p = { st with block := st.block.replaceUsesWith p (st.extRegInfo (W.headD 0)).registerValue } := by
  simp only [extGet, List.all_eq_true, decide_eq_true_eq, if_pos h]

/-- A getter of a view whose words were not all last seen through it: its result becomes their value. -/
theorem extGet_of_not_all {T : ExtValueType} {W : List Nat} (h : ¬∀ k ∈ W, (st.extRegInfo k).valueType = T) :
    st.extGet T W p = { st with extRegInfo := fun k => if k ∈ W then
      { valueType := T, registerValue := .inst p, lastSetInstruction := none } else st.extRegInfo k } := by
  simp only [extGet, List.all_eq_true, decide_eq_true_eq, if_neg h]

/-- `ExtSet` keeps the core registers' entries. -/
theorem extSet_regInfo (T : ExtValueType) (W : List Nat) (v : Value) : (st.extSet T W v p).regInfo = st.regInfo := rfl

/-- `ExtSet` records the view, the value and the setter on each word of the view. -/
theorem extSet_extRegInfo (T : ExtValueType) (W : List Nat) (v : Value) :
    (st.extSet T W v p).extRegInfo = fun k => if k ∈ W then
      { valueType := T, registerValue := v, lastSetInstruction := some p } else st.extRegInfo k := rfl

/-- The setter a setter of a view invalidates: the last setter of the view's first word, when every word of the view
was last seen through it. -/
def extInvalidated (T : ExtValueType) (W : List Nat) : Option InstRef :=
  if ∀ k ∈ W, (st.extRegInfo k).valueType = T then (st.extRegInfo (W.headD 0)).lastSetInstruction else none

/-- `ExtSet` invalidates the earlier setter when every word of the view had the same view and that setter is recorded on
the first. -/
theorem extInvalidated_eq_some {T : ExtValueType} {W : List Nat} {s : InstRef} :
    st.extInvalidated T W = some s ↔
      (∀ k ∈ W, (st.extRegInfo k).valueType = T) ∧ (st.extRegInfo (W.headD 0)).lastSetInstruction = some s := by
  unfold extInvalidated
  split <;> simp_all

/-- A setter of a view invalidates the setter `extInvalidated` names. -/
theorem extSet_block_code (T : ExtValueType) (W : List Nat) (v : Value) (r : InstRef) :
    (st.extSet T W v p).block.code r =
      if st.extInvalidated T W = some r then (.void, fun _ => .void) else st.block.code r := by
  by_cases hall : ∀ k ∈ W, (st.extRegInfo k).valueType = T
  · have hb : (W.all fun k => decide ((st.extRegInfo k).valueType = T)) = true := by simpa using hall
    simp only [extSet, hb, if_true, extInvalidated, if_pos hall]
    cases hs : (st.extRegInfo (W.headD 0)).lastSetInstruction with
    | none => simp
    | some s =>
      rw [Block.code_invalidate]
      by_cases hrs : r = s
      · rw [if_pos hrs, if_pos (hrs ▸ rfl)]
      · rw [if_neg hrs, if_neg fun h => hrs (Option.some.inj h).symm]
  · have hb : (W.all fun k => decide ((st.extRegInfo k).valueType = T)) = false := by simpa using hall
    simp only [extSet, hb, Bool.false_eq_true, if_false, extInvalidated, if_neg hall, reduceCtorEq]

/-- `ExtSet` keeps the list. -/
theorem extSet_block_instructions (T : ExtValueType) (W : List Nat) (v : Value) :
    (st.extSet T W v p).block.instructions = st.block.instructions := by
  simp only [extSet]
  split
  · split
    · exact Block.instructions_invalidate _ _
    · rfl
  · rfl

end RegisterState

/-- What one visit of the forward walk can do, by the opcode and the operand of the visited instruction. -/
inductive RegisterStepCase (st : RegisterState) (p : InstRef) : Option RegisterState → Prop
  | getRegister (x : Fin 15) (hop : (st.block.pool p).op = .a32GetRegister)
      (h0 : (st.block.pool p).args 0 = .a32Reg x.castSucc) : RegisterStepCase st p (some (st.regGet x p))
  | setRegister (x : Fin 15) (hop : (st.block.pool p).op = .a32SetRegister)
      (h0 : (st.block.pool p).args 0 = .a32Reg x.castSucc) :
      RegisterStepCase st p (some (st.regSet x ((st.block.pool p).args 1) p))
  | setPC (hop : (st.block.pool p).op = .a32SetRegister) (h0 : (st.block.pool p).args 0 = .a32Reg 15) :
      RegisterStepCase st p (some st)
  | extGet (e : Fin 80) (T : ExtValueType) (W : List Nat) (hread : (st.block.pool p).op.readsFromCoreRegister = true)
      (h0 : (st.block.pool p).args 0 = .a32ExtReg e) (hv : extView (st.block.pool p).op e = some (T, W)) :
      RegisterStepCase st p (some (st.extGet T W p))
  | extSet (e : Fin 80) (T : ExtValueType) (W : List Nat) (hwrite : (st.block.pool p).op.writesToCoreRegister = true)
      (h0 : (st.block.pool p).args 0 = .a32ExtReg e) (hv : extView (st.block.pool p).op e = some (T, W))
      (hT : T ≠ .vectorDouble) : RegisterStepCase st p (some (st.extSet T W ((st.block.pool p).args 1) p))
  | setVectorDouble (e : Fin 80) (hop : (st.block.pool p).op = .a32SetVector)
      (h0 : (st.block.pool p).args 0 = .a32ExtReg e) (hd : isDoubleExtReg e = true) :
      RegisterStepCase st p (some ({ st with
        block := (st.block.insertAfter p .vectorZeroUpper [(st.block.pool p).args 1]).1 }.extSet .vectorDouble
          (doubleWords (extRegNumber e)) (.inst st.block.freshRef) p))
  | reset (h : ((st.block.pool p).op.readsFromCoreRegister || (st.block.pool p).op.writesToCoreRegister) = true) :
      RegisterStepCase st p (some { st with regInfo := fun _ => .empty, extRegInfo := fun _ => .empty })
  | keep (hread : (st.block.pool p).op.readsFromCoreRegister = false)
      (hwrite : (st.block.pool p).op.writesToCoreRegister = false) : RegisterStepCase st p (some st)
  | getPC (hop : (st.block.pool p).op = .a32GetRegister) (h0 : (st.block.pool p).args 0 = .a32Reg 15) :
      RegisterStepCase st p none
  | undefined (hreg : ((st.block.pool p).op.readsFromCoreRegister || (st.block.pool p).op.writesToCoreRegister) = true)
      (h : ∀ ext c a, (execA32Inst ext c a p (st.block.pool p)).2 = none) : RegisterStepCase st p none

/-- A getter or setter of a core register whose operand names no core register has no outcome: the C++ asserts. -/
theorem registerStepCase_of_regRef_none {st : RegisterState} {p : InstRef}
    (hop : (st.block.pool p).op = .a32GetRegister ∨ (st.block.pool p).op = .a32SetRegister)
    (hr : ((st.block.pool p).args 0).getA32RegRef = none) : RegisterStepCase st p none := by
  rcases hop with hop | hop <;>
    exact .undefined (by simp [hop, Opcode.readsFromCoreRegister, Opcode.writesToCoreRegister]) fun ext c a => by
      simp [execA32Inst, hop, hr]

/-- A getter or setter of the extended registers whose operand names no extended register has no outcome: the C++
asserts. -/
theorem registerStepCase_of_extRegRef_none {st : RegisterState} {p : InstRef}
    (hop : (st.block.pool p).op ∈ [.a32GetExtendedRegister32, .a32SetExtendedRegister32, .a32GetExtendedRegister64,
      .a32SetExtendedRegister64, .a32GetVector, .a32SetVector])
    (hr : ((st.block.pool p).args 0).getA32ExtRegRef = none) : RegisterStepCase st p none := by
  simp only [List.mem_cons, List.not_mem_nil, or_false] at hop
  rcases hop with hop | hop | hop | hop | hop | hop <;>
    exact .undefined (by simp [hop, Opcode.readsFromCoreRegister, Opcode.writesToCoreRegister]) fun ext c a => by
      simp [execA32Inst, hop, hr]

/-- Every visit is one of the cases of `RegisterStepCase`. -/
theorem registerStep_cases (st : RegisterState) (p : InstRef) : RegisterStepCase st p (registerStep st p) := by
  generalize hs : registerStep st p = s
  unfold registerStep at hs
  dsimp only at hs
  split at hs
  case h_1 hop =>
    cases hr : ((st.block.pool p).args 0).getA32RegRef with
    | none =>
      rw [hr] at hs
      subst hs
      exact registerStepCase_of_regRef_none (.inl hop) hr
    | some x =>
      rw [hr] at hs
      have h0 := Value.getA32RegRef_eq_some.mp hr
      by_cases hx : x.val < 15
      · simp only [Option.bind_eq_bind, Option.bind_some, dif_pos hx] at hs
        subst hs
        exact .getRegister ⟨x.val, hx⟩ hop (by rw [h0]; rfl)
      · simp only [Option.bind_eq_bind, Option.bind_some, dif_neg hx] at hs
        subst hs
        exact .getPC hop (by rw [h0]; congr; omega)
  case h_2 hop =>
    cases hr : ((st.block.pool p).args 0).getA32RegRef with
    | none =>
      rw [hr] at hs
      subst hs
      exact registerStepCase_of_regRef_none (.inr hop) hr
    | some x =>
      rw [hr] at hs
      have h0 := Value.getA32RegRef_eq_some.mp hr
      by_cases hx : x.val < 15
      · simp only [Option.bind_eq_bind, Option.bind_some, dif_pos hx] at hs
        subst hs
        exact .setRegister ⟨x.val, hx⟩ hop (by rw [h0]; rfl)
      · simp only [Option.bind_eq_bind, Option.bind_some, dif_neg hx] at hs
        subst hs
        exact .setPC hop (by rw [h0]; congr; omega)
  case h_3 hop | h_5 hop =>
    cases hr : ((st.block.pool p).args 0).getA32ExtRegRef with
    | none =>
      rw [hr] at hs
      subst hs
      exact registerStepCase_of_extRegRef_none (by simp [hop]) hr
    | some e =>
      rw [hr, Option.map_some] at hs
      subst hs
      exact .extGet e _ _ (by simp [hop, Opcode.readsFromCoreRegister]) (Value.getA32ExtRegRef_eq_some.mp hr)
        (by simp [extView, hop])
  case h_7 hop =>
    cases hr : ((st.block.pool p).args 0).getA32ExtRegRef with
    | none =>
      rw [hr] at hs
      subst hs
      exact registerStepCase_of_extRegRef_none (by simp [hop]) hr
    | some e =>
      rw [hr, Option.map_some] at hs
      subst hs
      have h0 := Value.getA32ExtRegRef_eq_some.mp hr
      have hread : (st.block.pool p).op.readsFromCoreRegister = true := by simp [hop, Opcode.readsFromCoreRegister]
      by_cases hd : isDoubleExtReg e = true
      · rw [if_pos hd]
        exact .extGet e _ _ hread h0 (by simp [extView, hop, hd])
      · rw [if_neg hd]
        exact .extGet e _ _ hread h0 (by simp [extView, hop, hd])
  case h_4 hop | h_6 hop =>
    cases hr : ((st.block.pool p).args 0).getA32ExtRegRef with
    | none =>
      rw [hr] at hs
      subst hs
      exact registerStepCase_of_extRegRef_none (by simp [hop]) hr
    | some e =>
      rw [hr, Option.map_some] at hs
      subst hs
      exact .extSet e _ _ (by simp [hop, Opcode.writesToCoreRegister]) (Value.getA32ExtRegRef_eq_some.mp hr)
        (by simp [extView, hop]) (by decide)
  case h_8 hop =>
    cases hr : ((st.block.pool p).args 0).getA32ExtRegRef with
    | none =>
      rw [hr] at hs
      subst hs
      exact registerStepCase_of_extRegRef_none (by simp [hop]) hr
    | some e =>
      rw [hr, Option.map_some] at hs
      subst hs
      have h0 := Value.getA32ExtRegRef_eq_some.mp hr
      by_cases hd : isDoubleExtReg e = true
      · rw [if_pos hd]
        exact .setVectorDouble e hop h0 hd
      · rw [if_neg hd]
        exact .extSet e _ _ (by simp [hop, Opcode.writesToCoreRegister]) h0 (by simp [extView, hop, hd]) (by decide)
  case h_9 =>
    split at hs
    · subst hs
      exact .reset ‹_›
    · subst hs
      rename_i h
      simp only [Bool.or_eq_true, not_or, Bool.not_eq_true] at h
      exact .keep h.1 h.2
/-! ### The invariant of the forward walk -/

section Walk

variable (ext : InstRef → A32Context → A32Context × Outcome) (B : Block) (c0 : A32Context)

/-- The vector getters and setters of a block name D or Q registers, as the A32 frontend emits them: `RegisterPass`
takes the view of any other register to be a Q register (`DEBUG_ASSERT(A32::IsQuadExtReg(reg))`). -/
def VectorsWide (b : Block) : Prop :=
  ∀ r ∈ b.instructions, ∀ e, (b.pool r).args 0 = .a32ExtReg e →
    ((b.pool r).op = .a32GetVector ∨ (b.pool r).op = .a32SetVector) → 32 ≤ e.val

instance (b : Block) : Decidable (VectorsWide b) := by
  unfold VectorsWide
  infer_instance

/-- No getter of a core register in a block reads the PC (`ASSERT(reg != A32::Reg::PC)`). -/
def NoPCGetter (b : Block) : Prop :=
  ∀ r ∈ b.instructions, (b.pool r).op = .a32GetRegister → (b.pool r).args 0 ≠ .a32Reg (Fin.last 15)

instance (b : Block) : Decidable (NoPCGetter b) := by
  unfold NoPCGetter
  infer_instance

/-- `s` is a setter of the extended registers of `B` through the view `T`, over the words `W`. -/
def ExtSetterOf (s : InstRef) (T : ExtValueType) (W : List Nat) : Prop :=
  (B.pool s).op.writesToCoreRegister = true ∧
    ∃ e, (B.pool s).args 0 = .a32ExtReg e ∧ extView (B.pool s).op e = some (T, W)

/-- A setter the walk may still invalidate: the last setter of a core register, or of every word of its view. -/
def RegisterState.Pending (st : RegisterState) (s : InstRef) : Prop :=
  (∃ x, (st.regInfo x).lastSetInstruction = some s) ∨
    ∃ T W, ExtSetterOf B s T W ∧ ∀ k ∈ W, (st.extRegInfo k).lastSetInstruction = some s

/-- Two contexts agree on the flags, the PC, and every register whose last setter is not in `Q`. -/
structure RegAgree (st : RegisterState) (Q : InstRef → Bool) (c c' : A32Context) : Prop where
  flags : c'.flags = c.flags
  pc : c'.reg 15 = c.reg 15
  reg : ∀ x : Fin 15, (∀ s, (st.regInfo x).lastSetInstruction = some s → Q s = false) →
    c'.reg x.castSucc = c.reg x.castSucc
  word : ∀ k, (∀ s, (st.extRegInfo k).lastSetInstruction = some s → Q s = false) → c'.word k = c.word k

/-- Every value the walk knows a register, or a view whose words were all last seen through it, to hold is, in the
outcomes `o'`, what it holds in the context `c`. -/
structure Known (st : RegisterState) (o' : InstRef → Option Outcome) (c : A32Context) : Prop where
  reg : ∀ x : Fin 15, (st.regInfo x).registerValue ≠ .void →
    (evalArg o' (st.regInfo x).registerValue).map Outcome.value = some (.u32 (c.reg x.castSucc))
  ext : ∀ T W, IsGroup T W → (∀ k ∈ W, (st.extRegInfo k).valueType = T) →
    (evalArg o' (st.extRegInfo (W.headD 0)).registerValue).map Outcome.value = some (extRead T W c)

/-- A run `s'` of an edited block simulates the original run `s` over `P`: the same outcomes on `P`, contexts that agree
but for the registers whose setters are in `Q`, and outcomes that hold what the walk knows. -/
structure RegSim (st : RegisterState) (Q : InstRef → Bool) (P : List InstRef)
    (s s' : A32Context × (InstRef → Option Outcome)) : Prop where
  outcomes : ∀ r ∈ P, s'.2 r = s.2 r
  agree : RegAgree st Q s.1 s'.1
  known : Known st s'.2 s.1

/-- The walk has visited the front `P` of the list of `B`, which is `P'` in the walk's block with the instructions it
inserted, and has the rest `S` still to visit. -/
structure RegLayout (P P' S : List InstRef) (b : Block) : Prop where
  split : B.instructions = P ++ S
  instructions : b.instructions = P' ++ S
  nodup : b.instructions.Nodup
  sub : ∀ r ∈ P, r ∈ P'
  codeS : ∀ r ∈ S, b.code r = B.code r

/-- What the walk's state says of the front: a last setter is a setter of the front with the register or the view it
names, a known value refers into the front, and a view whose words were all last seen through it was seen whole. -/
structure RegFacts (P P' : List InstRef) (st : RegisterState) : Prop where
  regSetter : ∀ x s, (st.regInfo x).lastSetInstruction = some s →
    s ∈ P ∧ (B.pool s).op = .a32SetRegister ∧ (B.pool s).args 0 = .a32Reg x.castSucc
  regVoid : ∀ x, (st.regInfo x).registerValue = .void → (st.regInfo x).lastSetInstruction = none
  regValue : ∀ x t, (st.regInfo x).registerValue = .inst t → t ∈ P'
  extSetter : ∀ k s, (st.extRegInfo k).lastSetInstruction = some s →
    s ∈ P ∧ ∃ W, ExtSetterOf B s (st.extRegInfo k).valueType W ∧ k ∈ W
  extValue : ∀ k t, (st.extRegInfo k).registerValue = .inst t → t ∈ P'
  shared : ∀ T W, IsGroup T W → (∀ k ∈ W, (st.extRegInfo k).valueType = T) →
    ∀ k ∈ W, st.extRegInfo k = st.extRegInfo (W.headD 0)

/-- The forward walk has visited `P`. Every block that has the walk's code on `P'`, except that it voids some of the
setters the walk may still invalidate, simulates the original run over `P`. -/
structure RegWalked (P P' S : List InstRef) (st : RegisterState) : Prop where
  layout : RegLayout B P P' S st.block
  facts : RegFacts B P P' st
  run : ∀ Q : InstRef → Bool, (∀ s, Q s = true → st.Pending B s) → ∀ b' : Block,
    (∀ r ∈ P', b'.code r = if Q r = true then (.void, fun _ => .void) else st.block.code r) →
    RegSim st Q P (frontRun ext B c0 P) (frontRun ext b' c0 P')

variable {ext B c0}

/-- Two setters of the extended registers through views that name the same instruction are the same setter. -/
theorem ExtSetterOf.unique {s : InstRef} {T T' : ExtValueType} {W W' : List Nat} (h : ExtSetterOf B s T W)
    (h' : ExtSetterOf B s T' W') : T = T' ∧ W = W' := by
  obtain ⟨-, e, he, hv⟩ := h
  obtain ⟨-, e', he', hv'⟩ := h'
  rw [he] at he'
  cases he'
  rw [hv] at hv'
  cases hv'
  exact ⟨rfl, rfl⟩

/-- The view of an extended setter of the block is one of the views the pass records. -/
theorem ExtSetterOf.isGroup (hwide : VectorsWide B)
    {s : InstRef} (hs : s ∈ B.instructions) {T : ExtValueType} {W : List Nat} (h : ExtSetterOf B s T W) :
    IsGroup T W := by
  obtain ⟨-, e, he, hv⟩ := h
  exact extView_isGroup hv (hwide s hs e he)


/-- The setter of a core register sets no view. -/
theorem not_extSetterOf_of_setRegister {s : InstRef} (hs : (B.pool s).op = .a32SetRegister) {T : ExtValueType}
    {W : List Nat} : ¬ExtSetterOf B s T W := by
  rintro ⟨-, e, -, hv⟩
  rw [hs] at hv
  cases hv


/-- The state that knows nothing: no register has a known value or a last setter. -/
theorem regFacts_empty (b : Block) (P P' : List InstRef) :
    RegFacts B P P' { block := b, regInfo := fun _ => .empty, extRegInfo := fun _ => .empty } where
  regSetter _ _ h := by simp [RegInfo.empty] at h
  regVoid _ _ := rfl
  regValue _ _ h := by simp [RegInfo.empty] at h
  extSetter _ _ h := by simp [ExtRegInfo.empty] at h
  extValue _ _ h := by simp [ExtRegInfo.empty] at h
  shared _ _ _ _ _ _ := rfl

/-- The empty state knows no value. -/
theorem known_empty (b : Block) (o' : InstRef → Option Outcome) (c : A32Context) :
    Known { block := b, regInfo := fun _ => .empty, extRegInfo := fun _ => .empty } o' c where
  reg _ h := absurd rfl h
  ext T W hW hT := by
    have hT : ExtValueType.empty = T := hT _ hW.head_mem
    subst hT
    exact hW.elim

/-- The empty state has no pending setter. -/
theorem not_pending_empty (b : Block) (s : InstRef) :
    ¬({ block := b, regInfo := fun _ => .empty, extRegInfo := fun _ => .empty } : RegisterState).Pending B s := by
  rintro (⟨x, hx⟩ | ⟨T, W, ⟨-, e, -, hv⟩, hW⟩)
  · simp [RegInfo.empty] at hx
  · have := hW _ (extView_head_mem hv)
    simp [ExtRegInfo.empty] at this

/-- The walk before its first visit: nothing is known, and the run over the empty front is the start. -/
theorem regWalked_start (hnd : B.instructions.Nodup) :
    RegWalked ext B c0 [] [] B.instructions { block := B, regInfo := fun _ => .empty, extRegInfo := fun _ => .empty } where
  layout := ⟨rfl, rfl, hnd, fun _ h => absurd h List.not_mem_nil, fun _ _ => rfl⟩
  facts := regFacts_empty B [] []
  run _ _ _ _ :=
    { outcomes := fun _ h => absurd h List.not_mem_nil
      agree := ⟨rfl, rfl, fun _ _ => rfl, fun _ _ => rfl⟩
      known := known_empty B _ _ }

namespace RegLayout

variable {P P' S : List InstRef} {p : InstRef} {b : Block}

/-- An edit that keeps the list and the code of the rest keeps the layout. -/
theorem edit (h : RegLayout B P P' S b) {b' : Block} (hi : b'.instructions = b.instructions)
    (hS : ∀ r ∈ S, b'.code r = b.code r) : RegLayout B P P' S b' :=
  ⟨h.split, hi.trans h.instructions, hi ▸ h.nodup, h.sub, fun r hr => (hS r hr).trans (h.codeS r hr)⟩

/-- The next instruction is not in the front the walk has left. -/
theorem not_mem_front (h : RegLayout B P P' (p :: S) b) : p ∉ P' := by
  have hnd := h.nodup
  rw [h.instructions, List.nodup_append] at hnd
  exact fun hp => hnd.2.2 p hp p List.mem_cons_self rfl

/-- The visited part and the rest do not overlap. -/
theorem not_mem_of_mem_front {S : List InstRef} (h : RegLayout B P P' S b) {r : InstRef} (hr : r ∈ P) : r ∉ S := by
  have hnd := h.nodup
  rw [h.instructions, List.nodup_append] at hnd
  exact fun hS => hnd.2.2 r (h.sub r hr) r hS rfl

/-- The next instruction is not in the rest of the list. -/
theorem not_mem_rest (h : RegLayout B P P' (p :: S) b) : p ∉ S := by
  have hnd := h.nodup
  rw [h.instructions, List.nodup_append] at hnd
  exact (List.nodup_cons.mp hnd.2.1).1

/-- The next instruction still has its code. -/
theorem code_self (h : RegLayout B P P' (p :: S) b) : b.code p = B.code p :=
  h.codeS p List.mem_cons_self

/-- The next instruction is in the original list. -/
theorem mem (h : RegLayout B P P' (p :: S) b) : p ∈ B.instructions := by
  rw [h.split]
  exact List.mem_append_right P List.mem_cons_self

/-- The arguments of the visited instruction refer into the front. -/
theorem args_mem (h : RegLayout B P P' (p :: S) b) (hb : B.ArgsEarlier) {k : Fin 4} {t : InstRef}
    (ht : (B.pool p).args k = .inst t) : t ∈ P :=
  hb.mem_of_arg h.split ht

/-- The original front and the next instruction are all in the front the walk leaves after it. -/
theorem sub_snoc (h : RegLayout B P P' (p :: S) b) (ins : List InstRef) : ∀ r ∈ P ++ [p], r ∈ P' ++ p :: ins := by
  intro r hr
  rcases List.mem_append.mp hr with hr | hr
  · exact List.mem_append_left _ (h.sub r hr)
  · rw [List.mem_singleton.mp hr]
    exact List.mem_append_right _ List.mem_cons_self

/-- A visit that inserts nothing moves the visited instruction to the front. -/
theorem visit (h : RegLayout B P P' (p :: S) b) : RegLayout B (P ++ [p]) (P' ++ [p]) S b where
  split := by rw [h.split, List.append_assoc, List.singleton_append]
  instructions := by rw [h.instructions, List.append_assoc, List.singleton_append]
  nodup := h.nodup
  sub := h.sub_snoc []
  codeS r hr := h.codeS r (List.mem_cons_of_mem p hr)

/-- A visit that inserts an instruction right after the visited one moves both to the front. -/
theorem insert (h : RegLayout B P P' (p :: S) b) (op : Opcode) (args : List Value) :
    RegLayout B (P ++ [p]) (P' ++ [p, b.freshRef]) S (b.insertAfter p op args).1 where
  split := by rw [h.split, List.append_assoc, List.singleton_append]
  instructions := by
    rw [instructions_insertAfter, h.instructions, insertAfterIn_append h.not_mem_front]
    simp
  nodup := by
    have hfresh := freshRef_not_mem b
    have hnd := h.nodup
    rw [h.instructions] at hnd hfresh
    rw [instructions_insertAfter, h.instructions, insertAfterIn_append h.not_mem_front,
      show P' ++ p :: b.freshRef :: S = (P' ++ [p]) ++ b.freshRef :: S by simp, List.nodup_middle, List.nodup_cons]
    exact ⟨by simpa using hfresh, by simpa using hnd⟩
  sub := h.sub_snoc [b.freshRef]
  codeS r hr := by
    have hrb : r ∈ b.instructions := by
      rw [h.instructions]
      exact List.mem_append_right _ (List.mem_cons_of_mem p hr)
    rw [code_insertAfter, if_neg fun (h' : r = b.freshRef) => freshRef_not_mem b (h' ▸ hrb)]
    exact h.codeS r (List.mem_cons_of_mem p hr)

end RegLayout

/-- The original run over the front with one more instruction. -/
theorem frontRun_snoc_eq {P : List InstRef} {p : InstRef} : frontRun ext B c0 (P ++ [p]) =
    ((execA32Inst ext (frontRun ext B c0 P).1 (frontArgs ext B c0 P p) p (B.pool p)).1,
      Function.update (frontRun ext B c0 P).2 p
        (execA32Inst ext (frontRun ext B c0 P).1 (frontArgs ext B c0 P p) p (B.pool p)).2) := by
  rw [frontRun_snoc]
  rfl

namespace RegFacts

/-- The facts of a front hold of a longer front. -/
theorem mono {P P' Q Q' : List InstRef} {st : RegisterState} (h : RegFacts B P P' st) (hP : ∀ r ∈ P, r ∈ Q)
    (hP' : ∀ r ∈ P', r ∈ Q') : RegFacts B Q Q' st where
  regSetter x s hs := ⟨hP s (h.regSetter x s hs).1, (h.regSetter x s hs).2⟩
  regVoid := h.regVoid
  regValue x t ht := hP' t (h.regValue x t ht)
  extSetter k s hs := ⟨hP s (h.extSetter k s hs).1, (h.extSetter k s hs).2⟩
  extValue k t ht := hP' t (h.extValue k t ht)
  shared := h.shared

end RegFacts

namespace Known

variable {st : RegisterState} {o' : InstRef → Option Outcome} {c : A32Context}

/-- What the walk knows refers into the front, so it survives the outcome of an instruction behind it. -/
theorem update {P P' : List InstRef} (hk : Known st o' c) (hf : RegFacts B P P' st) {p : InstRef} (hp : p ∉ P')
    (y : Option Outcome) : Known st (Function.update o' p y) c := by
  have hev : ∀ v : Value, (∀ t, v = .inst t → t ∈ P') → evalArg (Function.update o' p y) v = evalArg o' v :=
    fun v hv => evalArg_congr fun t ht => Function.update_of_ne (fun (he : t = p) => hp (he ▸ hv t ht)) _ _
  refine ⟨fun x hx => ?_, fun T W hW hT => ?_⟩
  · rw [hev _ (hf.regValue x)]
    exact hk.reg x hx
  · rw [hev _ (hf.extValue _)]
    exact hk.ext T W hW hT

/-- What the walk knows holds of a context with the same registers. -/
theorem of_registers_eq (hk : Known st o' c) {c₁ : A32Context} (h : c₁.registers = c.registers) :
    Known st o' c₁ := by
  have hreg : c₁.reg = c.reg := congrArg Prod.fst h
  refine ⟨fun x hx => by rw [hreg]; exact hk.reg x hx, fun T W hW hT => ?_⟩
  rw [extRead_congr hW fun k _ => A32Context.word_congr h k]
  exact hk.ext T W hW hT

end Known

/-- Two contexts that agree keep agreeing after an instruction that leaves the registers of both and gives both the
same flags. -/
theorem RegAgree.frame {st : RegisterState} {Q : InstRef → Bool} {c c' e e' : A32Context} (h : RegAgree st Q c c')
    (hreg : e.registers = c.registers) (hreg' : e'.registers = c'.registers) (hflags : e'.flags = e.flags) :
    RegAgree st Q e e' := by
  have hr : e.reg = c.reg := congrArg Prod.fst hreg
  have hr' : e'.reg = c'.reg := congrArg Prod.fst hreg'
  refine ⟨hflags, by rw [hr, hr']; exact h.pc, fun x hx => by rw [hr, hr']; exact h.reg x hx, fun k hk => ?_⟩
  rw [A32Context.word_congr hreg k, A32Context.word_congr hreg' k]
  exact h.word k hk

/-- R0-R14 are not the PC. -/
theorem castSucc_ne_pc (x : Fin 15) : x.castSucc ≠ (15 : Fin 16) :=
  (Fin.castSucc_lt_last x).ne

/-- Contexts that agree outside no setter are the same. -/
theorem RegAgree.eq {st : RegisterState} {Q : InstRef → Bool} {c c' : A32Context} (h : RegAgree st Q c c')
    (hQ : ∀ s, Q s = false) : c' = c := by
  refine A32Context.eq_of_words (funext fun i => ?_) h.flags fun k _ => h.word k fun s _ => hQ s
  rcases Fin.eq_castSucc_or_eq_last i with ⟨x, rfl⟩ | rfl
  · exact h.reg x fun s _ => hQ s
  · exact h.pc

/-- Agreement outside a set of voided setters gives agreement outside a larger one. -/
theorem RegAgree.mono {st : RegisterState} {Q Q' : InstRef → Bool} {c c' : A32Context} (h : RegAgree st Q c c')
    (hQ : ∀ s, Q s = true → Q' s = true) : RegAgree st Q' c c' := by
  have hfalse : ∀ s, Q' s = false → Q s = false := fun s hs =>
    Bool.eq_false_iff.mpr fun hq => absurd (hQ s hq) (by rw [hs]; exact Bool.false_ne_true)
  exact ⟨h.flags, h.pc, fun x hx => h.reg x fun s hs => hfalse s (hx s hs),
    fun k hk => h.word k fun s hs => hfalse s (hk s hs)⟩

/-- Agreement carries over to a state whose last setters are voided only where those of the old state were. -/
theorem RegAgree.transfer {st st' : RegisterState} {Q Q' : InstRef → Bool} {c c' : A32Context}
    (h : RegAgree st Q c c')
    (hreg : ∀ x, (∀ s, (st'.regInfo x).lastSetInstruction = some s → Q' s = false) →
      ∀ s, (st.regInfo x).lastSetInstruction = some s → Q s = false)
    (hword : ∀ k, (∀ s, (st'.extRegInfo k).lastSetInstruction = some s → Q' s = false) →
      ∀ s, (st.extRegInfo k).lastSetInstruction = some s → Q s = false) : RegAgree st' Q' c c' :=
  ⟨h.flags, h.pc, fun x hx => h.reg x (hreg x hx), fun k hk => h.word k (hword k hk)⟩

/-- The voided setters of a visit that invalidates nothing are the voided setters after it. -/
theorem voided_of_none {Q' : InstRef → Bool} {p s : InstRef}
    (hs : ((Q' s && !decide (s = p)) || decide (none = some s)) = true) : Q' s = true := by
  simp only [Bool.or_eq_true, Bool.and_eq_true, reduceCtorEq, decide_false, Bool.false_eq_true, or_false] at hs
  exact hs.1

/-- The facts speak of what the walk knows, not of its block. -/
theorem RegFacts.withBlock {P P' : List InstRef} {st : RegisterState} (h : RegFacts B P P' st) (b : Block) :
    RegFacts B P P' { st with block := b } :=
  ⟨h.regSetter, h.regVoid, h.regValue, h.extSetter, h.extValue, h.shared⟩

/-- `RegAgree` does not read the block of the state. -/
theorem RegAgree.withBlock {st : RegisterState} {Q : InstRef → Bool} {c c' : A32Context} (h : RegAgree st Q c c')
    (b : Block) : RegAgree { st with block := b } Q c c' :=
  ⟨h.flags, h.pc, h.reg, h.word⟩

/-- `Known` does not read the block of the state. -/
theorem Known.withBlock {st : RegisterState} {o' : InstRef → Option Outcome} {c : A32Context} (h : Known st o' c)
    (b : Block) : Known { st with block := b } o' c :=
  ⟨h.reg, h.ext⟩

/-- A simulation over the front extends to one more instruction with the same outcome in both runs. -/
theorem RegSim.snoc {st st' : RegisterState} {Q Q' : InstRef → Bool} {P : List InstRef} {p : InstRef}
    {s s' : A32Context × (InstRef → Option Outcome)} (hsim : RegSim st Q P s s') {c₁ c₁' : A32Context}
    {y y' : Option Outcome} (hy : y' = y) (hagree : RegAgree st' Q' c₁ c₁')
    (hknown : Known st' (Function.update s'.2 p y') c₁) :
    RegSim st' Q' (P ++ [p]) (c₁, Function.update s.2 p y) (c₁', Function.update s'.2 p y') where
  outcomes r hr := by
    by_cases hrp : r = p
    · subst hrp
      simp only [Function.update_self, hy]
    · simp only [Function.update_of_ne hrp]
      exact hsim.outcomes r ((List.mem_append.mp hr).resolve_right fun h => hrp (List.mem_singleton.mp h))
  agree := hagree
  known := hknown

namespace RegFacts

variable {P P' : List InstRef} {st : RegisterState} (h : RegFacts B P P' st)
include h

/-- A setter is the last setter of at most one core register. -/
theorem reg_inj {x y : Fin 15} {s : InstRef} (hx : (st.regInfo x).lastSetInstruction = some s)
    (hy : (st.regInfo y).lastSetInstruction = some s) : x = y := by
  have h0 : Value.a32Reg x.castSucc = .a32Reg y.castSucc :=
    (h.regSetter x s hx).2.2.symm.trans (h.regSetter y s hy).2.2
  exact Fin.castSucc_injective _ (Value.a32Reg.inj h0)

/-- A setter the walk may still invalidate is in the front. -/
theorem pending_mem {s : InstRef} (hs : st.Pending B s) : s ∈ P := by
  rcases hs with ⟨x, hx⟩ | ⟨T, W, ⟨-, e, -, hv⟩, hW⟩
  · exact (h.regSetter x s hx).1
  · exact (h.extSetter _ s (hW _ (extView_head_mem hv))).1

end RegFacts

/-- A group whose words were all last seen through one view, after a write of a group of a view, is the written group
or does not meet it. -/
theorem eq_or_disjoint_of_writeGroup {E : Nat → ExtRegInfo} {T : ExtValueType} {W : List Nat} (hW : IsGroup T W)
    {i : ExtRegInfo} (hi : i.valueType = T) {T' : ExtValueType} {W' : List Nat} (hW' : IsGroup T' W')
    (hT' : ∀ k ∈ W', (if k ∈ W then i else E k).valueType = T') : (T' = T ∧ W' = W) ∨ ∀ k ∈ W', k ∉ W := by
  by_cases hov : ∃ j ∈ W', j ∈ W
  · obtain ⟨j, hjW', hjW⟩ := hov
    have hT : T = T' := by
      have := hT' j hjW'
      rwa [if_pos hjW, hi] at this
    subst hT
    exact .inl ⟨rfl, hW'.eq_of_mem hW hjW' hjW⟩
  · push Not at hov
    exact .inr hov

/-- Writing one info to every word of a group keeps every group whose words were all last seen through one view seen
whole. -/
theorem shared_writeGroup {E : Nat → ExtRegInfo}
    (hshared : ∀ T W, IsGroup T W → (∀ k ∈ W, (E k).valueType = T) → ∀ k ∈ W, E k = E (W.headD 0))
    {T : ExtValueType} {W : List Nat} (hW : IsGroup T W) {i : ExtRegInfo} (hi : i.valueType = T) :
    ∀ T' W', IsGroup T' W' → (∀ k ∈ W', (if k ∈ W then i else E k).valueType = T') →
      ∀ k ∈ W', (if k ∈ W then i else E k) = if W'.headD 0 ∈ W then i else E (W'.headD 0) := by
  intro T' W' hW' hT' k hk
  rcases eq_or_disjoint_of_writeGroup hW hi hW' hT' with ⟨rfl, rfl⟩ | hdis
  · rw [if_pos hk, if_pos hW'.head_mem]
  · rw [if_neg (hdis k hk), if_neg (hdis _ hW'.head_mem)]
    exact hshared T' W' hW' (fun j hj => by have := hT' j hj; rwa [if_neg (hdis j hj)] at this) k hk

namespace RegFacts

/-- The facts after a visit that writes one info to every word of a group: the view, a value, and no last setter or
the visited setter. -/
theorem writeGroup {P P' P'' : List InstRef} {st st' : RegisterState} (h : RegFacts B P P' st) {p : InstRef}
    {T : ExtValueType} {W : List Nat} {v : Value} {ls : Option InstRef} (hW : IsGroup T W)
    (hls : ∀ s, ls = some s → s = p ∧ ExtSetterOf B p T W) (hreg : st'.regInfo = st.regInfo)
    (hext : st'.extRegInfo = fun k => if k ∈ W then
      { valueType := T, registerValue := v, lastSetInstruction := ls } else st.extRegInfo k)
    (hvP : ∀ t, v = .inst t → t ∈ P'') (hP' : ∀ r ∈ P', r ∈ P'') : RegFacts B (P ++ [p]) P'' st' where
  regSetter x s hs := by
    rw [hreg] at hs
    exact ⟨List.mem_append_left _ (h.regSetter x s hs).1, (h.regSetter x s hs).2⟩
  regVoid x := by
    rw [hreg]
    exact h.regVoid x
  regValue x t ht := by
    rw [hreg] at ht
    exact hP' t (h.regValue x t ht)
  extSetter k s hs := by
    rw [hext] at hs ⊢
    dsimp only at hs ⊢
    by_cases hk : k ∈ W
    · rw [if_pos hk] at hs ⊢
      obtain ⟨rfl, hsetter⟩ := hls s hs
      exact ⟨List.mem_append_right _ (List.mem_singleton_self _), W, hsetter, hk⟩
    · rw [if_neg hk] at hs ⊢
      exact ⟨List.mem_append_left _ (h.extSetter k s hs).1, (h.extSetter k s hs).2⟩
  extValue k t ht := by
    rw [hext] at ht
    dsimp only at ht
    by_cases hk : k ∈ W
    · rw [if_pos hk] at ht
      exact hvP t ht
    · rw [if_neg hk] at ht
      exact hP' t (h.extValue k t ht)
  shared := by
    rw [hext]
    exact shared_writeGroup h.shared hW rfl

/-- The facts after the setter `p` of a core register: it is the register's last setter, and its value is the one the
walk knows. -/
theorem regSet {P P' : List InstRef} {st : RegisterState} (h : RegFacts B P P' st) {p : InstRef} {x : Fin 15}
    (hop : (B.pool p).op = .a32SetRegister) (h0 : (B.pool p).args 0 = .a32Reg x.castSucc)
    (hval : (B.pool p).args 1 ≠ .void) (hvP : ∀ t, (B.pool p).args 1 = .inst t → t ∈ P') :
    RegFacts B (P ++ [p]) (P' ++ [p]) (st.regSet x ((B.pool p).args 1) p) := by
  have hfacts : RegFacts B (P ++ [p]) (P' ++ [p]) st :=
    h.mono (fun r hr => List.mem_append_left [p] hr) (fun r hr => List.mem_append_left [p] hr)
  refine ⟨fun y s hs => ?_, fun y hy => ?_, fun y t ht => ?_, hfacts.extSetter, hfacts.extValue, hfacts.shared⟩
  · rw [RegisterState.regSet_regInfo] at hs
    by_cases hyx : y = x
    · subst hyx
      rw [Function.update_self] at hs
      cases hs
      exact ⟨List.mem_append_right _ List.mem_cons_self, hop, h0⟩
    · rw [Function.update_of_ne hyx] at hs
      exact hfacts.regSetter y s hs
  · rw [RegisterState.regSet_regInfo] at hy ⊢
    by_cases hyx : y = x
    · subst hyx
      rw [Function.update_self] at hy
      exact absurd hy hval
    · rw [Function.update_of_ne hyx] at hy ⊢
      exact hfacts.regVoid y hy
  · rw [RegisterState.regSet_regInfo] at ht
    by_cases hyx : y = x
    · subst hyx
      rw [Function.update_self] at ht
      exact List.mem_append_left _ (hvP t ht)
    · rw [Function.update_of_ne hyx] at ht
      exact hfacts.regValue y t ht

end RegFacts

/-- A setter the walk may still invalidate after a write of a group is the setter it recorded, or one it could
invalidate before. -/
theorem pending_of_writeGroup (st st' : RegisterState) {T : ExtValueType} {W : List Nat} {v : Value}
    {ls : Option InstRef} (hreg : st'.regInfo = st.regInfo)
    (hext : st'.extRegInfo = fun k => if k ∈ W then
      { valueType := T, registerValue := v, lastSetInstruction := ls } else st.extRegInfo k)
    {r : InstRef} (hr : st'.Pending B r) : ls = some r ∨ st.Pending B r := by
  rcases hr with ⟨x, hx⟩ | ⟨T', W', hset, hW'⟩
  · rw [hreg] at hx
    exact .inr (.inl ⟨x, hx⟩)
  · by_cases hov : ∃ k ∈ W', k ∈ W
    · obtain ⟨k, hkW', hkW⟩ := hov
      have := hW' k hkW'
      rw [hext] at this
      dsimp only at this
      rw [if_pos hkW] at this
      exact .inl this
    · push Not at hov
      refine .inr (.inr ⟨T', W', hset, fun k hk => ?_⟩)
      have := hW' k hk
      rw [hext] at this
      dsimp only at this
      rwa [if_neg (hov k hk)] at this

/-- The next instruction is not in the original front. -/
theorem RegWalked.not_mem_front_self {P P' S : List InstRef} {p : InstRef} {st : RegisterState}
    (h : RegWalked ext B c0 P P' (p :: S) st) : p ∉ P := fun hp =>
  h.layout.not_mem_front (h.layout.sub p hp)

/-- The visited instruction is not a setter the walk may still invalidate. -/
theorem RegWalked.not_pending_self {P P' S : List InstRef} {p : InstRef} {st : RegisterState}
    (h : RegWalked ext B c0 P P' (p :: S) st) : ¬st.Pending B p := fun hp =>
  h.layout.not_mem_front (h.layout.sub p (h.facts.pending_mem hp))

/-- The voided setters of a block that completes the state after a visit, with the setter the visit invalidated, are
setters the walk could still invalidate before the visit: the run over the front simulates the original one. -/
theorem RegWalked.sim {P P' S : List InstRef} {p : InstRef} {st : RegisterState}
    (h : RegWalked ext B c0 P P' (p :: S) st) (st' : RegisterState) (inv : Option InstRef)
    (hinv : ∀ s, inv = some s → st.Pending B s) (hpend : ∀ r, st'.Pending B r → r = p ∨ st.Pending B r)
    (hcode : ∀ r ∈ P', st'.block.code r = if inv = some r then (.void, fun _ => .void) else st.block.code r)
    {Q' : InstRef → Bool} (hQ' : ∀ s, Q' s = true → st'.Pending B s) {b' : Block}
    (hb' : ∀ r ∈ P', b'.code r = if Q' r = true then (.void, fun _ => .void) else st'.block.code r) :
    RegSim st (fun r => (Q' r && !decide (r = p)) || decide (inv = some r)) P (frontRun ext B c0 P)
      (frontRun ext b' c0 P') := by
  refine h.run _ (fun s hs => ?_) b' (fun r hr => ?_)
  · simp only [Bool.or_eq_true, Bool.and_eq_true, Bool.not_eq_true', decide_eq_false_iff_not,
      decide_eq_true_eq] at hs
    rcases hs with ⟨hq, hne⟩ | hs
    · exact (hpend s (hQ' s hq)).resolve_left hne
    · exact hinv s hs
  · have hrp : r ≠ p := fun hrp => h.layout.not_mem_front (hrp ▸ hr)
    rw [hb' r hr, hcode r hr]
    by_cases hq : Q' r = true <;> by_cases hi : inv = some r <;> simp [hq, hi, hrp]


/-- The visited instruction, where the edited block has its original code, computes from the arguments of the original
run. -/
theorem RegWalked.stepA32_kept {P P' S : List InstRef} {p : InstRef} {st : RegisterState}
    (h : RegWalked ext B c0 P P' (p :: S) st) (hb : B.ArgsEarlier) {b' : Block} (hcp : b'.code p = B.code p)
    {s' : A32Context × (InstRef → Option Outcome)} (ho : ∀ r ∈ P, s'.2 r = (frontRun ext B c0 P).2 r) :
    b'.stepA32 ext s' p = ((execA32Inst ext s'.1 (frontArgs ext B c0 P p) p (B.pool p)).1,
      Function.update s'.2 p (execA32Inst ext s'.1 (frontArgs ext B c0 P p) p (B.pool p)).2) :=
  Block.stepA32_of_args ext hcp fun _ t ht => ho t (h.layout.args_mem hb ht)

/-- A setter, voided or run, in a block that completes the state after its visit. -/
theorem RegWalked.stepA32_setter (h : RegWalked ext B c0 P P' (p :: S) st) (hb : B.ArgsEarlier) {b' : Block}
    {st' : RegisterState} {Q' : InstRef → Bool}
    (hb'p : b'.code p = if Q' p = true then (.void, fun _ => .void) else st'.block.code p)
    (hcode : st'.block.code p = B.code p) {s' : A32Context × (InstRef → Option Outcome)}
    (ho : ∀ r ∈ P, s'.2 r = (frontRun ext B c0 P).2 r) {E : A32Context → A32Context}
    (hexec : ∀ d, execA32Inst ext d (frontArgs ext B c0 P p) p (B.pool p) = (E d, some (.plain .void))) :
    b'.stepA32 ext s' p = (if Q' p = true then s'.1 else E s'.1, Function.update s'.2 p (some (.plain .void))) := by
  by_cases hQp : Q' p = true
  · rw [if_pos hQp, Block.stepA32_of_void ext (by rw [hb'p, if_pos hQp])]
  · rw [if_neg hQp, h.stepA32_kept hb (by rw [hb'p, if_neg hQp, hcode]) ho, hexec]

/-- The setter a setter of a view invalidates is a setter of the same group that the walk may still invalidate, and the
last setter of no word outside the group. -/
theorem RegWalked.extInvalidated_pending (h : RegWalked ext B c0 P P' S st)
    (hwide : VectorsWide B)
    {T : ExtValueType} {W : List Nat} (hW : IsGroup T W) {s : InstRef} (hs : st.extInvalidated T W = some s) :
    st.Pending B s ∧ ∀ k, (st.extRegInfo k).lastSetInstruction = some s → k ∈ W := by
  obtain ⟨hall, hhead⟩ := (RegisterState.extInvalidated_eq_some st).mp hs
  obtain ⟨hsP, W₀, hset₀, hhead₀⟩ := h.facts.extSetter _ s hhead
  rw [hall _ hW.head_mem] at hset₀
  have hsB : s ∈ B.instructions := by
    rw [h.layout.split]
    exact List.mem_append_left _ hsP
  have hWW : W₀ = W := (hset₀.isGroup hwide hsB).eq_of_mem hW hhead₀ hW.head_mem
  subst hWW
  refine ⟨.inr ⟨T, W₀, hset₀, fun k hk => by rw [h.facts.shared T W₀ hW hall k hk]; exact hhead⟩, fun k hk => ?_⟩
  obtain ⟨-, W₁, hset₁, hk₁⟩ := h.facts.extSetter k s hk
  rwa [(hset₁.unique hset₀).2] at hk₁

/-- What the walk knows after a write of a group, when the written value is what the view reads after the write. -/
theorem Known.writeGroup {st : RegisterState} {o' : InstRef → Option Outcome} {c : A32Context}
    (hk : Known st o' c) {T : ExtValueType} {W : List Nat} (hW : IsGroup T W) {v : Value} {ls : Option InstRef}
    (st' : RegisterState) (hreg : st'.regInfo = st.regInfo)
    (hext : st'.extRegInfo = fun k => if k ∈ W then
      { valueType := T, registerValue := v, lastSetInstruction := ls } else st.extRegInfo k)
    {E : A32Context → A32Context} {f : Nat → BitVec 32} (hw : WritesWords E W f)
    (hval : (evalArg o' v).map Outcome.value = some (extRead T W (E c))) : Known st' o' (E c) := by
  refine ⟨fun y hy => ?_, fun T' W' hW' hT' => ?_⟩
  · rw [hreg] at hy ⊢
    rw [hw.reg]
    exact hk.reg y hy
  · rw [hext] at hT' ⊢
    dsimp only at hT' ⊢
    rcases eq_or_disjoint_of_writeGroup hW rfl hW' hT' with ⟨rfl, rfl⟩ | hdis
    · rw [if_pos hW'.head_mem]
      exact hval
    · have hT'' : ∀ k ∈ W', (st.extRegInfo k).valueType = T' := fun k hk => by
        simpa [hdis k hk] using hT' k hk
      rw [if_neg (hdis _ hW'.head_mem), extRead_congr hW' (c := c) fun k hk => by rw [hw.word, if_neg (hdis k hk)]]
      exact hk.ext T' W' hW' hT''

/-- After a setter of a group, voided or run in the completing block, the contexts agree outside the setters the
completing block voids. -/
theorem RegWalked.agree_extSet (h : RegWalked ext B c0 P P' (p :: S) st)
    (hwide : VectorsWide B)
    {T : ExtValueType} {W : List Nat} (hW : IsGroup T W) {v : Value} (st' : RegisterState)
    (hreg : st'.regInfo = st.regInfo)
    (hext : st'.extRegInfo = fun k => if k ∈ W then
      { valueType := T, registerValue := v, lastSetInstruction := some p } else st.extRegInfo k)
    {Q' : InstRef → Bool} {c c' : A32Context}
    (hagree : RegAgree st (fun r => (Q' r && !decide (r = p)) || decide (st.extInvalidated T W = some r)) c c')
    {E : A32Context → A32Context} {f : Nat → BitVec 32} (hw : WritesWords E W f) :
    RegAgree st' Q' (E c) (if Q' p = true then c' else E c') := by
  have hinv := fun s (hs : st.extInvalidated T W = some s) => h.extInvalidated_pending hwide hW hs
  -- a setter that the completing block keeps is kept before the visit, unless the visit invalidated it
  have hQ : ∀ s, Q' s = false → st.extInvalidated T W ≠ some s →
      ((Q' s && !decide (s = p)) || decide (st.extInvalidated T W = some s)) = false := fun s hq hne => by
    simp [hq, hne]
  have hnot : ∀ s, st.extInvalidated T W = some s → (B.pool s).op ≠ .a32SetRegister := fun s hi hop => by
    obtain ⟨-, hhead⟩ := (RegisterState.extInvalidated_eq_some st).mp hi
    obtain ⟨-, W₀, hset₀, -⟩ := h.facts.extSetter _ s hhead
    exact not_extSetterOf_of_setRegister hop hset₀
  refine ⟨?_, ?_, fun y hy => ?_, fun k hk => ?_⟩
  · rw [hw.flags]
    split
    · exact hagree.flags
    · rw [hw.flags]
      exact hagree.flags
  · rw [hw.reg]
    split
    · exact hagree.pc
    · rw [hw.reg]
      exact hagree.pc
  · rw [hreg] at hy
    have := hagree.reg y fun s hs => hQ s (hy s hs) fun hi => hnot s hi (h.facts.regSetter y s hs).2.1
    rw [hw.reg]
    split
    · exact this
    · rw [hw.reg]
      exact this
  · rw [hext] at hk
    by_cases hkW : k ∈ W
    · -- a word of the view: the setter is its last setter, so the completing block keeps it
      have hQp : Q' p = false := hk p (by simp [hkW])
      rw [if_neg (by simp [hQp]), hw.word, hw.word, if_pos hkW, if_pos hkW]
    · simp only [hkW, if_false] at hk
      have := hagree.word k fun s hs => hQ s (hk s hs) fun hi => hkW ((hinv s hi).2 k hs)
      rw [hw.word, if_neg hkW]
      split
      · exact this
      · rw [hw.word, if_neg hkW]
        exact this

section Visit

variable {P P' S : List InstRef} {p : InstRef} {st : RegisterState}

/-- An instruction that neither reads nor writes a core register: the walk keeps its state. -/
theorem RegWalked.keep (h : RegWalked ext B c0 P P' (p :: S) st) (hb : B.ArgsEarlier) (hext : ExtRespectsTable ext B)
    (hread : (B.pool p).op.readsFromCoreRegister = false) (hwrite : (B.pool p).op.writesToCoreRegister = false) :
    RegWalked ext B c0 (P ++ [p]) (P' ++ [p]) S st where
  layout := h.layout.visit
  facts := h.facts.mono (fun r hr => List.mem_append_left _ hr) (fun r hr => List.mem_append_left _ hr)
  run Q' hQ' b' hb' := by
    have hsim := h.sim _ none (fun _ h => by cases h) (fun r hr => .inr hr) (fun r _ => by simp) hQ'
      (fun r hr => hb' r (List.mem_append_left _ hr))
    have hQp : Q' p = false := Bool.eq_false_iff.mpr fun hq => h.not_pending_self (hQ' p hq)
    have hcp : b'.code p = B.code p := by
      rw [hb' p (List.mem_append_right _ List.mem_cons_self), hQp, if_neg Bool.false_ne_true, h.layout.code_self]
    rw [frontRun_snoc_eq, frontRun_snoc, h.stepA32_kept hb hcp hsim.outcomes]
    have hopen : ((B.pool p).op.isInput = true ∨ (B.pool p).op = .a32SetCpsr) →
        (ext p (frontRun ext b' c0 P').1).2 = (ext p (frontRun ext B c0 P).1).2 ∧
        (ext p (frontRun ext b' c0 P').1).1.flags = (ext p (frontRun ext B c0 P).1).1.flags ∧
        (ext p (frontRun ext B c0 P).1).1.registers = (frontRun ext B c0 P).1.registers ∧
        (ext p (frontRun ext b' c0 P').1).1.registers = (frontRun ext b' c0 P').1.registers := fun hin =>
      ⟨(hext.of_flags_eq p h.layout.mem hin hread _ _ hsim.agree.flags).1,
        (hext.of_flags_eq p h.layout.mem hin hread _ _ hsim.agree.flags).2,
        hext.registers_eq p h.layout.mem hin hwrite _, hext.registers_eq p h.layout.mem hin hwrite _⟩
    obtain ⟨hout, hfl, hreg, hreg'⟩ := execA32Inst_of_flags_eq ext (a := frontArgs ext B c0 P p) (r := p) hread
      hwrite hopen hsim.agree.flags
    refine hsim.snoc hout ((hsim.agree.frame hreg hreg' hfl).mono fun _ => voided_of_none) ?_
    exact (hsim.known.update h.facts h.layout.not_mem_front _).of_registers_eq hreg
    
/-- An instruction that reads or writes a core register in a way the walk does not track: the walk forgets all. -/
theorem RegWalked.reset (h : RegWalked ext B c0 P P' (p :: S) st) (hb : B.ArgsEarlier) :
    RegWalked ext B c0 (P ++ [p]) (P' ++ [p]) S
      { st with regInfo := fun _ => .empty, extRegInfo := fun _ => .empty } where
  layout := h.layout.visit
  facts := regFacts_empty _ _ _
  run Q' hQ' b' hb' := by
    have hQ'f : ∀ r, Q' r = false := fun r =>
      Bool.eq_false_iff.mpr fun hq => not_pending_empty st.block r (hQ' r hq)
    have hsim := h.sim _ none (fun _ h => by cases h) (fun r hr => absurd hr (not_pending_empty _ r))
      (fun r _ => by simp) hQ' (fun r hr => hb' r (List.mem_append_left _ hr))
    have heq : (frontRun ext b' c0 P').1 = (frontRun ext B c0 P).1 := hsim.agree.eq fun r => by simp [hQ'f r]
    have hcp : b'.code p = B.code p := by
      rw [hb' p (List.mem_append_right _ List.mem_cons_self), hQ'f, if_neg Bool.false_ne_true, h.layout.code_self]
    rw [frontRun_snoc_eq, frontRun_snoc, h.stepA32_kept hb hcp hsim.outcomes, heq]
    exact hsim.snoc rfl ⟨rfl, rfl, fun _ _ => rfl, fun _ _ => rfl⟩ (known_empty _ _ _)

/-- A setter of the PC, which the walk does not track. -/
theorem RegWalked.setPC (h : RegWalked ext B c0 P P' (p :: S) st) (hb : B.ArgsEarlier)
    (hdef : (execA32Inst ext (frontRun ext B c0 P).1 (frontArgs ext B c0 P p) p (B.pool p)).2 ≠ none)
    (hop : (B.pool p).op = .a32SetRegister) (h0 : (B.pool p).args 0 = .a32Reg 15) :
    RegWalked ext B c0 (P ++ [p]) (P' ++ [p]) S st where
  layout := h.layout.visit
  facts := h.facts.mono (fun r hr => List.mem_append_left _ hr) (fun r hr => List.mem_append_left _ hr)
  run Q' hQ' b' hb' := by
    have hsim := h.sim _ none (fun _ h => by cases h) (fun r hr => .inr hr) (fun r _ => by simp) hQ'
      (fun r hr => hb' r (List.mem_append_left _ hr))
    have hQp : Q' p = false := Bool.eq_false_iff.mpr fun hq => h.not_pending_self (hQ' p hq)
    have hcp : b'.code p = B.code p := by
      rw [hb' p (List.mem_append_right _ List.mem_cons_self), hQp, if_neg Bool.false_ne_true, h.layout.code_self]
    obtain ⟨v, -, hexec⟩ := execA32Inst_setRegister ext hop h0 hdef
    rw [frontRun_snoc_eq, frontRun_snoc, h.stepA32_kept hb hcp hsim.outcomes, hexec, hexec]
    have hagree := hsim.agree.mono fun _ => voided_of_none
    refine hsim.snoc rfl ⟨hagree.flags, by simp, fun x hx => ?_, fun k hk => hagree.word k hk⟩ ?_
    · dsimp only
      rw [Function.update_of_ne (castSucc_ne_pc x), Function.update_of_ne (castSucc_ne_pc x)]
      exact hagree.reg x hx
    · have hk := hsim.known.update h.facts h.layout.not_mem_front (some (.plain .void))
      refine ⟨fun x hx => ?_, fun T W hW hT => hk.ext T W hW hT⟩
      dsimp only
      rw [Function.update_of_ne (castSucc_ne_pc x)]
      exact hk.reg x hx

/-- A getter whose value the walk knows, `y` in the original run, becomes an identity of the value. -/
theorem RegWalked.forward (h : RegWalked ext B c0 P P' (p :: S) st) {v : Value} {y : Val}
    (horig : execA32Inst ext (frontRun ext B c0 P).1 (frontArgs ext B c0 P p) p (B.pool p) =
      ((frontRun ext B c0 P).1, some (.plain y)))
    (hval : ∀ o', Known st o' (frontRun ext B c0 P).1 → (evalArg o' v).map Outcome.value = some y) :
    RegWalked ext B c0 (P ++ [p]) (P' ++ [p]) S { st with block := st.block.replaceUsesWith p v } where
  layout := h.layout.visit.edit (Block.instructions_replaceUsesWith _ _ _) fun r hr => by
    rw [Block.code_replaceUsesWith, if_neg fun (hrp : r = p) => h.layout.not_mem_rest (hrp ▸ hr)]
  facts := (h.facts.mono (fun r hr => List.mem_append_left _ hr) (fun r hr => List.mem_append_left _ hr)).withBlock _
  run Q' hQ' b' hb' := by
    have hsim := h.sim { st with block := st.block.replaceUsesWith p v } none (fun _ h => by cases h)
      (fun r hr => .inr hr) (fun r hr => by
        rw [Block.code_replaceUsesWith, if_neg fun (hrp : r = p) => h.layout.not_mem_front (hrp ▸ hr)]
        simp) hQ' (fun r hr => hb' r (List.mem_append_left _ hr))
    have hQp : Q' p = false := Bool.eq_false_iff.mpr fun hq => h.not_pending_self (hQ' p hq)
    have hcp : b'.code p = (.identity, Function.update (fun _ => .void) 0 v) := by
      rw [hb' p (List.mem_append_right _ List.mem_cons_self), hQp, if_neg Bool.false_ne_true]
      exact (Block.code_replaceUsesWith _ _ _ _).trans (if_pos rfl)
    rw [frontRun_snoc_eq, frontRun_snoc, Block.stepA32_of_identity ext hcp, horig]
    exact hsim.snoc (map_plain_of_map_value (hval _ hsim.known))
      ((hsim.agree.mono fun _ => voided_of_none).withBlock _) ((hsim.known.update h.facts h.layout.not_mem_front _).withBlock _)

/-- A getter of a core register with no known value: its result becomes the value the walk knows. -/
theorem RegWalked.getRegister_void (h : RegWalked ext B c0 P P' (p :: S) st) (hb : B.ArgsEarlier) {x : Fin 15}
    (hop : (B.pool p).op = .a32GetRegister) (h0 : (B.pool p).args 0 = .a32Reg x.castSucc)
    (hv : (st.regInfo x).registerValue = .void) :
    RegWalked ext B c0 (P ++ [p]) (P' ++ [p]) S
      { st with regInfo := Function.update st.regInfo x { st.regInfo x with registerValue := .inst p } } := by
  set st' : RegisterState :=
    { st with regInfo := Function.update st.regInfo x { st.regInfo x with registerValue := .inst p } } with hst'
  have hlast : ∀ y, (st'.regInfo y).lastSetInstruction = (st.regInfo y).lastSetInstruction := fun y => by
    by_cases hyx : y = x
    · subst hyx
      simp [st']
    · simp [st', Function.update_of_ne hyx]
  have hpend : ∀ r, st'.Pending B r → st.Pending B r := fun r hr => by
    rcases hr with ⟨y, hy⟩ | hr
    · exact .inl ⟨y, (hlast y).symm.trans hy⟩
    · exact .inr hr
  have hfacts := h.facts.mono (P := P) (fun r hr => List.mem_append_left [p] hr)
    (fun r hr => List.mem_append_left [p] hr)
  refine ⟨h.layout.visit, ⟨fun y s hs => hfacts.regSetter y s ((hlast y).symm.trans hs), fun y hy => ?_,
    fun y t ht => ?_, hfacts.extSetter, hfacts.extValue, hfacts.shared⟩, fun Q' hQ' b' hb' => ?_⟩
  · by_cases hyx : y = x
    · subst hyx
      simp [st'] at hy
    · rw [hlast y]
      exact hfacts.regVoid y (by simpa [st', Function.update_of_ne hyx] using hy)
  · by_cases hyx : y = x
    · subst hyx
      simp only [st', Function.update_self, Value.inst.injEq] at ht
      exact ht ▸ List.mem_append_right _ List.mem_cons_self
    · exact hfacts.regValue y t (by simpa [st', Function.update_of_ne hyx] using ht)
  · have hsim := h.sim st' none (fun _ h => by cases h) (fun r hr => .inr (hpend r hr))
      (fun r _ => by simp [st']) hQ' (fun r hr => hb' r (List.mem_append_left _ hr))
    have hQp : Q' p = false := Bool.eq_false_iff.mpr fun hq => h.not_pending_self (hpend p (hQ' p hq))
    have hcp : b'.code p = B.code p := by
      rw [hb' p (List.mem_append_right _ List.mem_cons_self), hQp, if_neg Bool.false_ne_true, h.layout.code_self]
    rw [frontRun_snoc_eq, frontRun_snoc, h.stepA32_kept hb hcp hsim.outcomes, execA32Inst_getRegister ext hop h0,
      execA32Inst_getRegister ext hop h0]
    have hsame : (frontRun ext b' c0 P').1.reg x.castSucc = (frontRun ext B c0 P).1.reg x.castSucc :=
      hsim.agree.reg x fun s hs => by rw [h.facts.regVoid x hv] at hs; cases hs
    have hk := hsim.known.update h.facts h.layout.not_mem_front
      (some (.plain (.u32 ((frontRun ext b' c0 P').1.reg x.castSucc))))
    refine hsim.snoc (by rw [hsame]) ((hsim.agree.mono fun _ => voided_of_none).transfer
      (fun y hy s hs => hy s ((hlast y).trans hs)) fun k hk s hs => hk s hs) ⟨fun y hy => ?_, hk.ext⟩
    by_cases hyx : y = x
    · subst hyx
      simp [st', evalArg, hsame]
    · simp only [st', Function.update_of_ne hyx]
      exact hk.reg y (by simpa [st', Function.update_of_ne hyx] using hy)

/-- The outcomes of the arguments of the visited instruction are the same after the edited run, and after the visited
instruction in it. -/
theorem RegWalked.evalArg_args (h : RegWalked ext B c0 P P' (p :: S) st) (hb : B.ArgsEarlier)
    {s' : A32Context × (InstRef → Option Outcome)} (ho : ∀ r ∈ P, s'.2 r = (frontRun ext B c0 P).2 r) (k : Fin 4)
    (y : Option Outcome) : evalArg (Function.update s'.2 p y) ((B.pool p).args k) = frontArgs ext B c0 P p k := by
  refine evalArg_congr fun t ht => ?_
  have htP := h.layout.args_mem hb ht
  rw [Function.update_of_ne fun (htp : t = p) => h.layout.not_mem_front (htp ▸ h.layout.sub t htP)]
  exact ho t htP

/-- A setter of a core register: it invalidates the register's last setter and becomes its last setter, with its
value known. -/
theorem RegWalked.setRegister (h : RegWalked ext B c0 P P' (p :: S) st) (hb : B.ArgsEarlier)
    (hdef : (execA32Inst ext (frontRun ext B c0 P).1 (frontArgs ext B c0 P p) p (B.pool p)).2 ≠ none) {x : Fin 15}
    (hop : (B.pool p).op = .a32SetRegister) (h0 : (B.pool p).args 0 = .a32Reg x.castSucc) :
    RegWalked ext B c0 (P ++ [p]) (P' ++ [p]) S (st.regSet x ((B.pool p).args 1) p) := by
  set st' := st.regSet x ((B.pool p).args 1) p with hst'
  obtain ⟨v, hv1, hexec⟩ := execA32Inst_setRegister ext hop h0 hdef
  have hval1 : (B.pool p).args 1 ≠ .void := fun h1 => by
    simp [frontArgs, h1, evalArg] at hv1
  have hother : ∀ y, y ≠ x → st'.regInfo y = st.regInfo y := fun y hyx => by
    rw [hst', RegisterState.regSet_regInfo, Function.update_of_ne hyx]
  have hself : st'.regInfo x = { registerValue := (B.pool p).args 1, lastSetInstruction := some p } := by
    rw [hst', RegisterState.regSet_regInfo, Function.update_self]
  have hinvP : ∀ s, (st.regInfo x).lastSetInstruction = some s → s ∈ P := fun s hs => (h.facts.regSetter x s hs).1
  have hpend : ∀ r, st'.Pending B r → r = p ∨ st.Pending B r := fun r hr => by
    rcases hr with ⟨y, hy⟩ | hr
    · by_cases hyx : y = x
      · subst hyx
        rw [hself] at hy
        exact .inl (Option.some.inj hy).symm
      · rw [hother y hyx] at hy
        exact .inr (.inl ⟨y, hy⟩)
    · exact .inr (.inr hr)
  refine ⟨h.layout.visit.edit (RegisterState.regSet_block_instructions _ _ _ _) fun r hr => ?_,
    h.facts.regSet hop h0 hval1 fun t ht => h.layout.sub t (h.layout.args_mem hb ht), fun Q' hQ' b' hb' => ?_⟩
  · rw [RegisterState.regSet_block_code, if_neg fun hs => h.layout.not_mem_of_mem_front (hinvP r hs)
      (List.mem_cons_of_mem p hr)]
  · have hsim := h.sim st' (st.regInfo x).lastSetInstruction (fun s hs => .inl ⟨x, hs⟩) hpend
      (fun r _ => RegisterState.regSet_block_code _ _ _ _ _) hQ' (fun r hr => hb' r (List.mem_append_left _ hr))
    have hstep : b'.stepA32 ext (frontRun ext b' c0 P') p =
        (if Q' p = true then (frontRun ext b' c0 P').1 else
          { (frontRun ext b' c0 P').1 with reg := Function.update (frontRun ext b' c0 P').1.reg x.castSucc v },
          Function.update (frontRun ext b' c0 P').2 p (some (.plain .void))) := by
      by_cases hQp : Q' p = true
      · rw [if_pos hQp, Block.stepA32_of_void ext (by rw [hb' p (List.mem_append_right _ List.mem_cons_self),
          if_pos hQp])]
      · have hcp : b'.code p = B.code p := by
          rw [hb' p (List.mem_append_right _ List.mem_cons_self), if_neg hQp, hst', RegisterState.regSet_block_code,
            if_neg fun hs => h.layout.not_mem_front (h.layout.sub p (hinvP p hs)), h.layout.code_self]
        rw [if_neg hQp, h.stepA32_kept hb hcp hsim.outcomes, hexec]
    rw [frontRun_snoc_eq, frontRun_snoc, hstep, hexec]
    have hQ : ∀ s, Q' s = false → (∀ y : Fin 15, (st.regInfo y).lastSetInstruction = some s → y ≠ x) →
        ((Q' s && !decide (s = p)) || decide ((st.regInfo x).lastSetInstruction = some s)) = false :=
      fun s hq hne => by
        simp only [hq, Bool.false_and, Bool.false_or, decide_eq_false_iff_not]
        exact fun h => hne x h rfl
    have hk := hsim.known.update h.facts h.layout.not_mem_front (some (.plain .void))
    refine hsim.snoc rfl ⟨?_, ?_, fun y hy => ?_, fun k hk' => ?_⟩ ⟨fun y hy => ?_, fun T W hW hT => ?_⟩
    · have := hsim.agree.flags
      split <;> exact this
    · have := hsim.agree.pc
      split <;> simpa [Function.update_of_ne (castSucc_ne_pc x).symm] using this
    · by_cases hyx : y = x
      · subst hyx
        have hQp : Q' p = false := hy p (by rw [hself])
        simp [hQp]
      · have hne : y.castSucc ≠ x.castSucc := fun he => hyx (Fin.castSucc_injective _ he)
        have := hsim.agree.reg y fun s hs => hQ s (hy s (by rw [hother y hyx]; exact hs))
          fun z hz hzx => hyx (h.facts.reg_inj hs (hzx ▸ hz))
        split <;> simpa [Function.update_of_ne hne] using this
    · have := hsim.agree.word k fun s hs => hQ s (hk' s hs) fun z hz _ =>
        not_extSetterOf_of_setRegister (h.facts.regSetter z s hz).2.1 (h.facts.extSetter k s hs).2.choose_spec.1
      split <;> exact this
    · by_cases hyx : y = x
      · subst hyx
        rw [hself]
        rw [h.evalArg_args hb hsim.outcomes 1]
        simpa using hv1
      · rw [hother y hyx] at hy ⊢
        simpa [Function.update_of_ne (fun he => hyx (Fin.castSucc_injective _ he))] using hk.reg y hy
    · exact hk.ext T W hW hT

/-- A getter of a view whose words were not all last seen through it: its result becomes the value of the view. -/
theorem RegWalked.extGet_miss (h : RegWalked ext B c0 P P' (p :: S) st) (hb : B.ArgsEarlier)
    (hwide : VectorsWide B)
    {e : Fin 80} {T : ExtValueType} {W : List Nat} (hread : (B.pool p).op.readsFromCoreRegister = true)
    (h0 : (B.pool p).args 0 = .a32ExtReg e) (hv : extView (B.pool p).op e = some (T, W))
    (hall : ¬∀ k ∈ W, (st.extRegInfo k).valueType = T) :
    RegWalked ext B c0 (P ++ [p]) (P' ++ [p]) S (st.extGet T W p) := by
  rw [RegisterState.extGet_of_not_all st p hall]
  set st' : RegisterState := { st with extRegInfo := fun k => if k ∈ W then
    { valueType := T, registerValue := .inst p, lastSetInstruction := none } else st.extRegInfo k } with hst'
  have hW : IsGroup T W := extView_isGroup hv (hwide p h.layout.mem e h0)
  have hpend : ∀ r, st'.Pending B r → st.Pending B r := fun r hr =>
    (pending_of_writeGroup st st' rfl rfl hr).resolve_left (by simp)
  have hfree : ∀ Q' : InstRef → Bool, (∀ s, Q' s = true → st'.Pending B s) →
      ∀ k ∈ W, ∀ s, (st.extRegInfo k).lastSetInstruction = some s → Q' s = false := by
    intro Q' hQ' k hk s hs
    refine Bool.eq_false_iff.mpr fun hq => ?_
    obtain ⟨W₀, hset₀, hk₀⟩ := (h.facts.extSetter k s hs).2
    rcases hQ' s hq with ⟨x, hx⟩ | ⟨T'', W'', hset, hW''⟩
    · exact not_extSetterOf_of_setRegister (h.facts.regSetter x s hx).2.1 hset₀
    · have := hW'' k ((hset.unique hset₀).2 ▸ hk₀)
      simp [st', hk] at this
  refine ⟨h.layout.visit, h.facts.writeGroup hW (fun _ h => by cases h) rfl rfl (fun t ht => ?_)
    (fun r hr => List.mem_append_left _ hr), fun Q' hQ' b' hb' => ?_⟩
  · cases ht
    exact List.mem_append_right _ (List.mem_singleton_self _)
  have hsim := h.sim st' none (fun _ h => by cases h) (fun r hr => .inr (hpend r hr))
    (fun r _ => by simp [st']) hQ' (fun r hr => hb' r (List.mem_append_left _ hr))
  have hQp : Q' p = false := Bool.eq_false_iff.mpr fun hq => h.not_pending_self (hpend p (hQ' p hq))
  have hcp : b'.code p = B.code p := by
    rw [hb' p (List.mem_append_right _ List.mem_cons_self), hQp, if_neg Bool.false_ne_true, h.layout.code_self]
  rw [frontRun_snoc_eq, frontRun_snoc, h.stepA32_kept hb hcp hsim.outcomes, execA32Inst_extGet ext hread h0 hv,
    execA32Inst_extGet ext hread h0 hv]
  have hQ : ∀ s, Q' s = false → ((Q' s && !decide (s = p)) || decide (none = some s)) = false := fun s hs => by
    simp [hs]
  have hsame : extRead T W (frontRun ext b' c0 P').1 = extRead T W (frontRun ext B c0 P).1 :=
    extRead_congr hW fun k hk => hsim.agree.word k fun s hs => hQ s (hfree Q' hQ' k hk s hs)
  have hk := hsim.known.update h.facts h.layout.not_mem_front
    (some (.plain (extRead T W (frontRun ext b' c0 P').1)))
  refine hsim.snoc (by rw [hsame]) (hsim.agree.transfer (fun x hx s hs => hQ s (hx s hs)) fun k hk' s hs => ?_)
    ⟨hk.reg, fun T' W' hW' hT' => ?_⟩
  · by_cases hkW : k ∈ W
    · exact hQ s (hfree Q' hQ' k hkW s hs)
    · exact hQ s (hk' s (by simp [st', hkW, hs]))
  · rcases eq_or_disjoint_of_writeGroup hW rfl hW' hT' with ⟨rfl, rfl⟩ | hdis
    · have hhead : (st'.extRegInfo (W'.headD 0)).registerValue = .inst p := by
        simp only [st', if_pos hW'.head_mem]
      rw [hhead, evalArg, Function.update_self, Option.map_some, Outcome.value_plain, hsame]
    · have hT'' : ∀ k ∈ W', (st.extRegInfo k).valueType = T' := fun k hk => by
        simpa [st', hdis k hk] using hT' k hk
      have hhead : st'.extRegInfo (W'.headD 0) = st.extRegInfo (W'.headD 0) := if_neg (hdis _ hW'.head_mem)
      rw [hhead]
      exact hk.ext T' W' hW' hT''

/-- A setter of a view other than a vector written to a D register: it invalidates the setter `extInvalidated` names and
becomes the last setter of every word of the view, with its value known. -/
theorem RegWalked.extSet (h : RegWalked ext B c0 P P' (p :: S) st) (hb : B.ArgsEarlier)
    (hwide : VectorsWide B)
    (hdef : (execA32Inst ext (frontRun ext B c0 P).1 (frontArgs ext B c0 P p) p (B.pool p)).2 ≠ none)
    {e : Fin 80} {T : ExtValueType} {W : List Nat} (hwrite : (B.pool p).op.writesToCoreRegister = true)
    (h0 : (B.pool p).args 0 = .a32ExtReg e) (hv : extView (B.pool p).op e = some (T, W)) (hT : T ≠ .vectorDouble) :
    RegWalked ext B c0 (P ++ [p]) (P' ++ [p]) S (st.extSet T W ((B.pool p).args 1) p) := by
  set st' := st.extSet T W ((B.pool p).args 1) p with hst'
  have hW : IsGroup T W := extView_isGroup hv (hwide p h.layout.mem e h0)
  have hsetter : ExtSetterOf B p T W := ⟨hwrite, e, h0, hv⟩
  obtain ⟨x, f, hx, -, hw, hout, hread⟩ := execA32Inst_extSet ext hwrite h0 hv hW hdef
  have hinv := fun s (hs : st.extInvalidated T W = some s) => h.extInvalidated_pending hwide hW hs
  have hinvP : ∀ s, st.extInvalidated T W = some s → s ∈ P := fun s hs => h.facts.pending_mem (hinv s hs).1
  have hcode : ∀ r, r ∉ P → st'.block.code r = st.block.code r := fun r hr => by
    rw [RegisterState.extSet_block_code, if_neg fun hs => hr (hinvP r hs)]
  refine ⟨h.layout.visit.edit (RegisterState.extSet_block_instructions _ _ _ _ _)
      (fun r hr => hcode r fun hP => h.layout.not_mem_of_mem_front hP (List.mem_cons_of_mem p hr)),
    h.facts.writeGroup hW (fun s hs => ⟨(Option.some.inj hs).symm, hsetter⟩) rfl rfl
      (fun t ht => List.mem_append_left _ (h.layout.sub t (h.layout.args_mem hb ht)))
      (fun r hr => List.mem_append_left _ hr), fun Q' hQ' b' hb' => ?_⟩
  have hsim := h.sim st' (st.extInvalidated T W) (fun s hs => (hinv s hs).1)
    (fun r hr => (pending_of_writeGroup st st' rfl rfl hr).imp (fun h => (Option.some.inj h).symm) id)
    (fun r _ => RegisterState.extSet_block_code _ _ _ _ _ _) hQ' (fun r hr => hb' r (List.mem_append_left _ hr))
  rw [frontRun_snoc_eq, frontRun_snoc, h.stepA32_setter hb (hb' p (List.mem_append_right _ List.mem_cons_self))
    ((hcode p h.not_mem_front_self).trans h.layout.code_self) hsim.outcomes (fun d => Prod.ext rfl (hout d)), hout]
  refine hsim.snoc rfl (h.agree_extSet hwide hW st' rfl rfl hsim.agree hw)
    ((hsim.known.update h.facts h.layout.not_mem_front _).writeGroup hW st' rfl rfl hw ?_)
  rw [h.evalArg_args hb hsim.outcomes 1, hread, extStored_of_ne hT]
  exact hx

/-- A vector written to a D register: the walk inserts a `VectorZeroUpper` of the vector right after the setter, whose
result becomes the value the words of the register are known to hold. -/
theorem RegWalked.setVectorDouble (h : RegWalked ext B c0 P P' (p :: S) st) (hb : B.ArgsEarlier)
    (hwide : VectorsWide B)
    (hdef : (execA32Inst ext (frontRun ext B c0 P).1 (frontArgs ext B c0 P p) p (B.pool p)).2 ≠ none)
    {e : Fin 80} (hop : (B.pool p).op = .a32SetVector) (h0 : (B.pool p).args 0 = .a32ExtReg e)
    (hd : isDoubleExtReg e = true) :
    RegWalked ext B c0 (P ++ [p]) (P' ++ [p, st.block.freshRef]) S
      ({ st with block := (st.block.insertAfter p .vectorZeroUpper [(B.pool p).args 1]).1 }.extSet .vectorDouble
        (doubleWords (extRegNumber e)) (.inst st.block.freshRef) p) := by
  set z := st.block.freshRef with hz
  set b₁ := (st.block.insertAfter p .vectorZeroUpper [(B.pool p).args 1]).1 with hb₁
  set W := doubleWords (extRegNumber e) with hWdef
  set st' := ({ st with block := b₁ } : RegisterState).extSet .vectorDouble W (.inst z) p with hst'
  have hv : extView (B.pool p).op e = some (.vectorDouble, W) := by simp [extView, hop, hd, W]
  have hwrite : (B.pool p).op.writesToCoreRegister = true := by simp [hop, Opcode.writesToCoreRegister]
  have hW : IsGroup .vectorDouble W := extView_isGroup hv (hwide p h.layout.mem e h0)
  have hsetter : ExtSetterOf B p .vectorDouble W := ⟨hwrite, e, h0, hv⟩
  obtain ⟨x, f, hx, hvec, hw, hout, hread⟩ := execA32Inst_extSet ext hwrite h0 hv hW hdef
  obtain ⟨y, rfl⟩ := hvec hop
  have hinv := fun s (hs : st.extInvalidated .vectorDouble W = some s) => h.extInvalidated_pending hwide hW hs
  have hinvP : ∀ s, st.extInvalidated .vectorDouble W = some s → s ∈ P := fun s hs =>
    h.facts.pending_mem (hinv s hs).1
  have hzb : z ∉ st.block.instructions := freshRef_not_mem _
  have hzP' : z ∉ P' := fun hz' => hzb (by rw [h.layout.instructions]; exact List.mem_append_left _ hz')
  have hzp : p ≠ z := fun hpz => hzb (by rw [h.layout.instructions, ← hpz]; exact List.mem_append_right _ List.mem_cons_self)
  have hcode₁ : ∀ r, r ≠ z → b₁.code r = st.block.code r := fun r hr => by
    rw [hb₁, code_insertAfter, if_neg hr]
  have hcode : ∀ r, r ∉ P → st'.block.code r = b₁.code r := fun r hr => by
    rw [RegisterState.extSet_block_code]
    exact if_neg fun hs => hr (hinvP r hs)
  refine ⟨(h.layout.insert .vectorZeroUpper [(B.pool p).args 1]).edit
      (RegisterState.extSet_block_instructions _ _ _ _ _)
      (fun r hr => hcode r fun hP => h.layout.not_mem_of_mem_front hP (List.mem_cons_of_mem p hr)),
    h.facts.writeGroup hW (fun s hs => ⟨(Option.some.inj hs).symm, hsetter⟩) rfl rfl
      (fun t ht => by cases ht; simp)
      (fun r hr => List.mem_append_left _ hr), fun Q' hQ' b' hb' => ?_⟩
  have hsim := h.sim st' (st.extInvalidated .vectorDouble W) (fun s hs => (hinv s hs).1)
    (fun r hr => (pending_of_writeGroup st st' rfl rfl hr).imp (fun h => (Option.some.inj h).symm) id)
    (fun r hr => by
      rw [RegisterState.extSet_block_code, hcode₁ r fun hrz => hzP' (hrz ▸ hr)]
      rfl) hQ'
    (fun r hr => hb' r (List.mem_append_left _ hr))
  have hQz : Q' z = false := Bool.eq_false_iff.mpr fun hq => by
    rcases pending_of_writeGroup st st' rfl rfl (hQ' z hq) with hzs | hzs
    · exact hzp (Option.some.inj hzs)
    · exact hzP' (h.layout.sub z (h.facts.pending_mem hzs))
  have hcz : b'.code z = (.vectorZeroUpper, fun k => [(B.pool p).args 1].getD k.val .void) := by
    rw [hb' z (by simp), hQz, if_neg Bool.false_ne_true, hcode z fun hzP => hzP' (h.layout.sub z hzP), hb₁,
      code_insertAfter, if_pos rfl]
  rw [show P' ++ [p, z] = (P' ++ [p]) ++ [z] by simp, frontRun_snoc (B := b'), frontRun_snoc (B := b'),
    frontRun_snoc_eq (B := B), h.stepA32_setter hb (hb' p (List.mem_append_right _ List.mem_cons_self))
      ((hcode p h.not_mem_front_self).trans ((hcode₁ p hzp).trans h.layout.code_self)) hsim.outcomes
      (fun d => Prod.ext rfl (hout d)), hout]
  have hzarg : (evalArg (Function.update (frontRun ext b' c0 P').2 p (some (.plain .void)))
      ((b'.pool z).args 0)).map Outcome.value = some (.u128 y) := by
    rw [show (b'.pool z).args 0 = (B.pool p).args 1 from congrFun (congrArg Prod.snd hcz) 0,
      h.evalArg_args hb hsim.outcomes 1]
    exact hx
  rw [Block.stepA32, execA32Inst_vectorZeroUpper ext (congrArg Prod.fst hcz) hzarg]
  dsimp only
  refine ⟨fun r hr => ?_, h.agree_extSet hwide hW st' rfl rfl hsim.agree hw,
    (((hsim.known.update h.facts h.layout.not_mem_front _).update h.facts hzP' _).writeGroup hW st' rfl rfl hw ?_)⟩
  · have hrz : r ≠ z := fun hrz => by
      have := h.layout.sub_snoc [] r hr
      rw [hrz, List.mem_append, List.mem_singleton] at this
      exact this.elim hzP' fun hzp' => hzp hzp'.symm
    dsimp only
    rw [Function.update_of_ne hrz]
    by_cases hrp : r = p
    · subst hrp
      simp
    · rw [Function.update_of_ne hrp, Function.update_of_ne hrp]
      exact hsim.outcomes r ((List.mem_append.mp hr).resolve_right fun h => hrp (List.mem_singleton.mp h))
  · rw [evalArg, Function.update_self, Option.map_some, Outcome.value_plain, hread]

/-- One visit of the forward walk succeeds and keeps the invariant. -/
theorem RegWalked.visit (h : RegWalked ext B c0 P P' (p :: S) st) (hb : B.ArgsEarlier) (hndB : B.instructions.Nodup)
    (hdef : ∀ r ∈ B.instructions, ((B.pool r).op.readsFromCoreRegister || (B.pool r).op.writesToCoreRegister) = true →
      (B.execA32 ext c0).2 r ≠ none)
    (hpc : NoPCGetter B)
    (hwide : VectorsWide B)
    (hext : ExtRespectsTable ext B) :
    ∃ st' P'', registerStep st p = some st' ∧ RegWalked ext B c0 (P ++ [p]) P'' S st' := by
  have hop : (st.block.pool p).op = (B.pool p).op := congrArg Prod.fst h.layout.code_self
  have hargs : (st.block.pool p).args = (B.pool p).args := congrArg Prod.snd h.layout.code_self
  have hsplit : B.instructions = P ++ p :: S := h.layout.split
  have hdef' : ((B.pool p).op.readsFromCoreRegister || (B.pool p).op.writesToCoreRegister) = true →
      (execA32Inst ext (frontRun ext B c0 P).1 (frontArgs ext B c0 P p) p (B.pool p)).2 ≠ none := fun hrw => by
    rw [← execA32_snd_of_split hndB hsplit]
    exact hdef p h.layout.mem hrw
  have hc := registerStep_cases st p
  generalize registerStep st p = o at hc ⊢
  cases hc with
  | getRegister x hop' h0 =>
    rw [hop] at hop'
    rw [hargs] at h0
    by_cases hv : (st.regInfo x).registerValue = .void
    · exact ⟨_, _, rfl, by rw [RegisterState.regGet_of_void st p hv]; exact h.getRegister_void hb hop' h0 hv⟩
    · exact ⟨_, _, rfl, by
        rw [RegisterState.regGet_of_ne_void st p hv]
        exact h.forward (execA32Inst_getRegister ext hop' h0 _) fun o hk => hk.reg x hv⟩
  | setRegister x hop' h0 =>
    rw [hop] at hop'
    rw [hargs] at h0 ⊢
    exact ⟨_, _, rfl, h.setRegister hb (hdef' (by simp [hop', Opcode.writesToCoreRegister])) hop' h0⟩
  | setPC hop' h0 =>
    rw [hop] at hop'
    rw [hargs] at h0
    exact ⟨_, _, rfl, h.setPC hb (hdef' (by simp [hop', Opcode.writesToCoreRegister])) hop' h0⟩
  | extGet e T W hread h0 hv =>
    rw [hop] at hread hv
    rw [hargs] at h0
    have hW : IsGroup T W := extView_isGroup hv (hwide p h.layout.mem e h0)
    by_cases hall : ∀ k ∈ W, (st.extRegInfo k).valueType = T
    · exact ⟨_, _, rfl, by
        rw [RegisterState.extGet_of_all st p hall]
        exact h.forward (execA32Inst_extGet ext hread h0 hv _) fun o hk => hk.ext T W hW hall⟩
    · exact ⟨_, _, rfl, h.extGet_miss hb hwide hread h0 hv hall⟩
  | extSet e T W hwrite h0 hv hT =>
    rw [hop] at hwrite hv
    rw [hargs] at h0 ⊢
    exact ⟨_, _, rfl, h.extSet hb hwide (hdef' (by simp [hwrite])) hwrite h0 hv hT⟩
  | setVectorDouble e hop' h0 hd =>
    rw [hop] at hop'
    rw [hargs] at h0 ⊢
    exact ⟨_, _, rfl, h.setVectorDouble hb hwide (hdef' (by simp [hop', Opcode.writesToCoreRegister])) hop' h0 hd⟩
  | reset _ => exact ⟨_, _, rfl, h.reset hb⟩
  | keep hread hwrite =>
    rw [hop] at hread hwrite
    exact ⟨_, _, rfl, h.keep hb hext hread hwrite⟩
  | getPC hop' h0 =>
    rw [hop] at hop'
    rw [hargs] at h0
    exact absurd h0 (hpc p h.layout.mem hop')
  | undefined hrw hnone =>
    rw [hop] at hrw
    refine absurd ?_ (hdef' hrw)
    rw [← execA32Inst_congr ext hop hargs]
    exact hnone ext _ _

end Visit

/-! ### The whole walk -/

section Pass

variable (hb : B.ArgsEarlier) (hndB : B.instructions.Nodup)
  (hdef : ∀ r ∈ B.instructions, ((B.pool r).op.readsFromCoreRegister || (B.pool r).op.writesToCoreRegister) = true →
    (B.execA32 ext c0).2 r ≠ none)
  (hpc : NoPCGetter B)
  (hwide : VectorsWide B)
  (hext : ExtRespectsTable ext B)
include hb hndB hdef hpc hwide hext

/-- The forward walk visits the whole list without a failed assertion, and its invariant holds at the end. -/
theorem registerPass_walk : ∃ st P', registerPass B = some st.block ∧ RegWalked ext B c0 B.instructions P' [] st := by
  let inv : List InstRef → RegisterState → Prop := fun pre st => ∃ P' S, RegWalked ext B c0 pre P' S st
  have hstep : ∀ pre p post st, B.instructions = pre ++ p :: post → inv pre st →
      registerStep st p = some ((registerStep st p).getD st) ∧ inv (pre ++ [p]) ((registerStep st p).getD st) := by
    rintro pre p post st hl ⟨P', S, hw⟩
    have hS : S = p :: post := List.append_cancel_left (hw.layout.split.symm.trans hl)
    subst hS
    obtain ⟨st', P'', hs, hw'⟩ := hw.visit hb hndB hdef hpc hwide hext
    rw [hs]
    exact ⟨rfl, P'', post, hw'⟩
  have hs₀ : inv [] { block := B, regInfo := fun _ => .empty, extRegInfo := fun _ => .empty } :=
    ⟨[], B.instructions, regWalked_start hndB⟩
  have hfold := Run.foldlM_eq_some_of_invariant_prefix inv B.instructions hstep hs₀
  obtain ⟨P', S, hw⟩ := Run.foldl_invariant_prefix inv B.instructions
    (fun pre e post s hl hs => (hstep pre e post s hl hs).2) hs₀
  have hS : S = [] := List.self_eq_append_right.mp hw.layout.split
  subst hS
  exact ⟨_, P', by rw [registerPass, hfold]; rfl, hw⟩

/-- `RegisterPass` succeeds, and the block it returns ends in the context the original block ends in and gives every
instruction of the original block the outcome it had. -/
theorem registerPass_execA32 : ∃ B', registerPass B = some B' ∧ (B'.execA32 ext c0).1 = (B.execA32 ext c0).1 ∧
    ∀ r ∈ B.instructions, (B'.execA32 ext c0).2 r = (B.execA32 ext c0).2 r := by
  obtain ⟨st, P', hpass, hw⟩ := registerPass_walk hb hndB hdef hpc hwide hext
  -- the walk's own block voids nothing, and runs over its whole list
  have hsim := hw.run (fun _ => false) (fun _ h => absurd h Bool.false_ne_true) st.block fun r _ => by simp
  have hrun : frontRun ext st.block c0 P' = st.block.execA32 ext c0 := by
    rw [Block.execA32_eq_foldl, hw.layout.instructions, List.append_nil]
    rfl
  rw [hrun, show frontRun ext B c0 B.instructions = B.execA32 ext c0 from rfl] at hsim
  exact ⟨st.block, hpass, hsim.agree.eq fun _ => rfl, hsim.outcomes⟩

end Pass

end Walk

end Dynarmic.Optimization.A32GetSetElimination
