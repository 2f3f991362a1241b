import Dynarmic.IR.Context

/-!
# Runs on the A32 context, one instruction at a time

`Block.execA32` folds `Block.stepA32` over the instruction list. A pass that edits a block is compared with it one stretch
of the list at a time. A stretch runs alike in two blocks where its instructions have the same opcode and arguments
(`Block.foldl_stepA32_congr`). A run leaves the outcome of an instruction it does not reach
(`Block.foldl_stepA32_snd_of_not_mem`). An instruction it reached keeps the outcome it computed from the outcomes of its
arguments (`Block.foldl_stepA32_snd_of_mem`), so that following identities keeps a value (`Block.value_resolve`).

The opcodes the model leaves open are handed to `ext`, of which only the opcode table is known: `ExtRespectsTable` says
that such an instruction leaves the flags when its opcode does not write the CPSR, reads no flag when it does not read
it, and the same for the core registers. The two halves of the context are `A32Context.flags` and
`A32Context.registers`, and what each instruction does to them is stated here once.
-/

namespace Dynarmic.IR

namespace A32Context

/-- The flags: N, Z, C, V, Q and the GE masks. -/
def flags (c : A32Context) : Bool × Bool × Bool × Bool × Bool × BitVec 32 :=
  (c.n, c.z, c.c, c.v, c.q, c.ge)

/-- The registers: R0-R15 and the words of the extended registers. -/
def registers (c : A32Context) : (Fin 16 → BitVec 32) × (Fin 64 → BitVec 32) :=
  (c.reg, c.ext)

/-- An A32 context is its flags and its registers. -/
theorem eq_of_flags_registers {c d : A32Context} (hf : c.flags = d.flags) (hr : c.registers = d.registers) :
    c = d := by
  cases c
  cases d
  simp only [flags, registers, Prod.mk.injEq] at hf hr
  obtain ⟨rfl, rfl, rfl, rfl, rfl, rfl⟩ := hf
  obtain ⟨rfl, rfl⟩ := hr
  rfl

/-- A word of the extended registers depends only on the registers. -/
theorem word_congr {c d : A32Context} (h : d.registers = c.registers) (k : Nat) : d.word k = c.word k := by
  simp only [registers, Prod.mk.injEq] at h
  simp only [word, h.2]

/-- A D register depends only on the registers. -/
theorem double_congr {c d : A32Context} (h : d.registers = c.registers) (n : Nat) : d.double n = c.double n := by
  simp only [double, word_congr h]

/-- A Q register depends only on the registers. -/
theorem quad_congr {c d : A32Context} (h : d.registers = c.registers) (n : Nat) : d.quad n = c.quad n := by
  simp only [quad, word_congr h]

@[simp] theorem flags_setWord (c : A32Context) (k : Nat) (x : BitVec 32) : (c.setWord k x).flags = c.flags := by
  unfold setWord
  split <;> rfl

@[simp] theorem c_setWord (c : A32Context) (k : Nat) (x : BitVec 32) : (c.setWord k x).c = c.c := by
  unfold setWord
  split <;> rfl

/-- Writing a word keeps contexts with the same registers equal on their registers. -/
theorem registers_setWord_congr {c d : A32Context} (h : d.registers = c.registers) (k : Nat) (x : BitVec 32) :
    (d.setWord k x).registers = (c.setWord k x).registers := by
  simp only [registers, Prod.mk.injEq] at h ⊢
  unfold setWord
  split <;> simp [h.1, h.2]

@[simp] theorem flags_setDouble (c : A32Context) (n : Nat) (x : BitVec 64) : (c.setDouble n x).flags = c.flags := by
  simp only [setDouble, flags_setWord]

@[simp] theorem flags_setQuad (c : A32Context) (n : Nat) (x : BitVec 128) : (c.setQuad n x).flags = c.flags := by
  simp only [setQuad, flags_setWord]

@[simp] theorem c_setDouble (c : A32Context) (n : Nat) (x : BitVec 64) : (c.setDouble n x).c = c.c := by
  simp only [setDouble, c_setWord]

@[simp] theorem c_setQuad (c : A32Context) (n : Nat) (x : BitVec 128) : (c.setQuad n x).c = c.c := by
  simp only [setQuad, c_setWord]

/-- Writing a D register keeps contexts with the same registers equal on their registers. -/
theorem registers_setDouble_congr {c d : A32Context} (h : d.registers = c.registers) (n : Nat) (x : BitVec 64) :
    (d.setDouble n x).registers = (c.setDouble n x).registers :=
  registers_setWord_congr (registers_setWord_congr h _ _) _ _

/-- Writing a Q register keeps contexts with the same registers equal on their registers. -/
theorem registers_setQuad_congr {c d : A32Context} (h : d.registers = c.registers) (n : Nat) (x : BitVec 128) :
    (d.setQuad n x).registers = (c.setQuad n x).registers :=
  registers_setWord_congr (registers_setWord_congr (registers_setWord_congr (registers_setWord_congr h _ _) _ _) _ _)
    _ _

end A32Context

/-- The opcode and the arguments of an instruction: what a run reads of it. -/
def Block.code (b : Block) (r : InstRef) : Opcode × (Fin 4 → Value) :=
  ((b.pool r).op, (b.pool r).args)

/-- The open opcodes of a block read and write the context as the opcode table says: an instruction with an open opcode
that does not write the CPSR leaves the flags, one that does not read it computes the same outcome and the same
registers from contexts with the same registers, and the same for the core registers. -/
structure ExtRespectsTable (ext : InstRef → A32Context → A32Context × Outcome) (b : Block) : Prop where
  flags_eq : ∀ r ∈ b.instructions, ((b.pool r).op.isInput = true ∨ (b.pool r).op = .a32SetCpsr) →
    (b.pool r).op.writesToCPSR = false → ∀ c, (ext r c).1.flags = c.flags
  of_registers_eq : ∀ r ∈ b.instructions, ((b.pool r).op.isInput = true ∨ (b.pool r).op = .a32SetCpsr) →
    (b.pool r).op.readsFromCPSR = false → ∀ c c', c'.registers = c.registers →
      (ext r c').2 = (ext r c).2 ∧ (ext r c').1.registers = (ext r c).1.registers
  registers_eq : ∀ r ∈ b.instructions, ((b.pool r).op.isInput = true ∨ (b.pool r).op = .a32SetCpsr) →
    (b.pool r).op.writesToCoreRegister = false → ∀ c, (ext r c).1.registers = c.registers
  of_flags_eq : ∀ r ∈ b.instructions, ((b.pool r).op.isInput = true ∨ (b.pool r).op = .a32SetCpsr) →
    (b.pool r).op.readsFromCoreRegister = false → ∀ c c', c'.flags = c.flags →
      (ext r c').2 = (ext r c).2 ∧ (ext r c').1.flags = (ext r c).1.flags

/-- The open opcodes respect the table in a block whose open instructions are instructions of `b` with their opcodes. -/
theorem ExtRespectsTable.of_ops {ext : InstRef → A32Context → A32Context × Outcome} {b b' : Block}
    (h : ExtRespectsTable ext b)
    (hop : ∀ r ∈ b'.instructions, ((b'.pool r).op.isInput = true ∨ (b'.pool r).op = .a32SetCpsr) →
      r ∈ b.instructions ∧ (b'.pool r).op = (b.pool r).op) : ExtRespectsTable ext b' := by
  constructor
  · intro r hr hin hw
    obtain ⟨hmem, hop⟩ := hop r hr hin
    rw [hop] at hin hw
    exact h.flags_eq r hmem hin hw
  · intro r hr hin hrd
    obtain ⟨hmem, hop⟩ := hop r hr hin
    rw [hop] at hin hrd
    exact h.of_registers_eq r hmem hin hrd
  · intro r hr hin hw
    obtain ⟨hmem, hop⟩ := hop r hr hin
    rw [hop] at hin hw
    exact h.registers_eq r hmem hin hw
  · intro r hr hin hrd
    obtain ⟨hmem, hop⟩ := hop r hr hin
    rw [hop] at hin hrd
    exact h.of_flags_eq r hmem hin hrd

section Step

variable (ext : InstRef → A32Context → A32Context × Outcome)

/-- One instruction of a run on the A32 context: its outcome joins the outcomes so far. -/
def Block.stepA32 (b : Block) (s : A32Context × (InstRef → Option Outcome)) (r : InstRef) :
    A32Context × (InstRef → Option Outcome) :=
  let step := execA32Inst ext s.1 (fun k => evalArg s.2 ((b.pool r).args k)) r (b.pool r)
  (step.1, Function.update s.2 r step.2)

/-- A run on the A32 context is a fold of its steps over the list. -/
theorem Block.execA32_eq_foldl (c : A32Context) (b : Block) :
    b.execA32 ext c = b.instructions.foldl (b.stepA32 ext) (c, fun _ => none) := rfl

/-- An instruction runs as its opcode and arguments say. -/
theorem execA32Inst_congr {i i' : Inst} (hop : i'.op = i.op) (hargs : i'.args = i.args) (c : A32Context)
    (a : Fin 4 → Option Outcome) (r : InstRef) : execA32Inst ext c a r i' = execA32Inst ext c a r i := by
  obtain ⟨op, u, args, n⟩ := i
  obtain ⟨op', u', args', n'⟩ := i'
  dsimp only at hop hargs
  subst hop hargs
  rfl

/-- An instruction with the same opcode and arguments steps the same way. -/
theorem Block.stepA32_congr {b b' : Block} {r : InstRef} (h : b'.code r = b.code r)
    (s : A32Context × (InstRef → Option Outcome)) : b'.stepA32 ext s r = b.stepA32 ext s r := by
  simp only [Block.code, Prod.mk.injEq] at h
  simp only [Block.stepA32, h.2, execA32Inst_congr ext h.1 h.2]

/-- A stretch of the list runs alike in two blocks where its instructions have the same code. -/
theorem Block.foldl_stepA32_congr {b b' : Block} {l : List InstRef} (h : ∀ r ∈ l, b'.code r = b.code r)
    (s : A32Context × (InstRef → Option Outcome)) : l.foldl (b'.stepA32 ext) s = l.foldl (b.stepA32 ext) s := by
  induction l generalizing s with
  | nil => rfl
  | cons r l ih =>
    rw [List.foldl_cons, List.foldl_cons, Block.stepA32_congr ext (h r List.mem_cons_self)]
    exact ih (fun t ht => h t (List.mem_cons_of_mem r ht)) _

/-- A run leaves the outcome of an instruction it does not reach. -/
theorem Block.foldl_stepA32_snd_of_not_mem (b : Block) {r : InstRef} :
    ∀ {l : List InstRef}, r ∉ l → ∀ s : A32Context × (InstRef → Option Outcome), (l.foldl (b.stepA32 ext) s).2 r = s.2 r
  | [], _, _ => rfl
  | x :: l, hr, s => by
    rw [List.foldl_cons, Block.foldl_stepA32_snd_of_not_mem b (fun h => hr (List.mem_cons_of_mem x h))]
    exact Function.update_of_ne (by rintro rfl; exact hr List.mem_cons_self) _ _

/-- An instruction a run reached once keeps the outcome it computed, from the context before it and the outcomes its
arguments have at the end, when they refer to instructions before it. -/
theorem Block.foldl_stepA32_snd_of_mem (b : Block) {pre post : List InstRef} {r : InstRef}
    (hnd : (pre ++ r :: post).Nodup) (hargs : ∀ k t, (b.pool r).args k = .inst t → t ∈ pre)
    (s : A32Context × (InstRef → Option Outcome)) :
    ((pre ++ r :: post).foldl (b.stepA32 ext) s).2 r =
      (execA32Inst ext (pre.foldl (b.stepA32 ext) s).1
        (fun k => evalArg ((pre ++ r :: post).foldl (b.stepA32 ext) s).2 ((b.pool r).args k)) r (b.pool r)).2 := by
  rw [List.nodup_append, List.nodup_cons] at hnd
  obtain ⟨-, ⟨hrpost, -⟩, hdisj⟩ := hnd
  have hpre : ∀ t ∈ pre, ((pre ++ r :: post).foldl (b.stepA32 ext) s).2 t = (pre.foldl (b.stepA32 ext) s).2 t := by
    intro t ht
    rw [List.foldl_append, Block.foldl_stepA32_snd_of_not_mem ext b fun h => hdisj t ht t h rfl]
  have hself : ((pre ++ r :: post).foldl (b.stepA32 ext) s).2 r = (b.stepA32 ext (pre.foldl (b.stepA32 ext) s) r).2 r := by
    rw [List.foldl_append, List.foldl_cons, Block.foldl_stepA32_snd_of_not_mem ext b hrpost]
  rw [hself, Block.stepA32]
  dsimp only
  rw [Function.update_self]
  congr 2
  funext k
  exact evalArg_congr fun t ht => (hpre t (hargs k t ht)).symm

/-- An identity computes the value of its argument. -/
theorem execA32Inst_identity {i : Inst} (h : i.op = .identity) (c : A32Context) (a : Fin 4 → Option Outcome)
    (r : InstRef) : execA32Inst ext c a r i = (c, (a 0).map fun o => .plain o.value) := by
  rw [execA32Inst, h]
  dsimp only [Opcode.isInput, evalOp]
  cases a 0 <;> rfl

/-- An identity of an outcome with a known value computes that value, plain. -/
theorem map_plain_of_map_value {x : Option Outcome} {y : Val} (h : x.map Outcome.value = some y) :
    x.map (fun o => Outcome.plain o.value) = some (.plain y) := by
  cases x
  · exact absurd h (by simp)
  · simp only [Option.map_some, Option.some.injEq] at h ⊢
    rw [h]

/-- Following the identities from a value that refers to instructions a run has reached keeps the value it has at the
end of the run. -/
theorem Block.value_resolveAux {b : Block} (hnd : b.instructions.Nodup) (hb : b.ArgsEarlier) {P rest : List InstRef}
    (hL : b.instructions = P ++ rest) (s : A32Context × (InstRef → Option Outcome)) :
    ∀ (n : Nat) (v : Value), v.refersInto P = true →
      (evalArg (P.foldl (b.stepA32 ext) s).2 (Value.resolveAux b.pool n v)).map Outcome.value =
        (evalArg (P.foldl (b.stepA32 ext) s).2 v).map Outcome.value
  | 0, _, _ => rfl
  | n + 1, v, hv => by
    cases v
    case inst t =>
      have ht : t ∈ P := by simpa [Value.refersInto] using hv
      rw [Value.resolveAux]
      split
      · rename_i hid
        obtain ⟨pre, post, hP⟩ := List.append_of_mem ht
        have hargs : ∀ k u, (b.pool t).args k = .inst u → u ∈ pre :=
          fun k u hu => hb.mem_of_arg (by rw [hL, hP, List.append_assoc, List.cons_append]) hu
        have hnd' : (pre ++ t :: post).Nodup := by
          rw [← hP]
          exact (List.nodup_append.mp (hL ▸ hnd)).1
        have h0 : ((b.pool t).args 0).refersInto P = true := by
          cases h : (b.pool t).args 0
          case inst u => simpa [Value.refersInto, hP] using Or.inl (hargs 0 u h)
          all_goals rfl
        rw [Block.value_resolveAux hnd hb hL s n _ h0, evalArg, hP, Block.foldl_stepA32_snd_of_mem ext b hnd' hargs,
          execA32Inst_identity ext hid]
        cases evalArg _ ((b.pool t).args 0) <;> rfl
      · rfl
    all_goals rfl

/-- Resolving identities keeps the value of an argument that refers into the part of the list already run. -/
theorem Block.value_resolve {b : Block} (hnd : b.instructions.Nodup) (hb : b.ArgsEarlier) {P rest : List InstRef}
    (hL : b.instructions = P ++ rest) (s : A32Context × (InstRef → Option Outcome)) {v : Value}
    (hv : v.refersInto P = true) :
    (evalArg (P.foldl (b.stepA32 ext) s).2 (v.resolve b)).map Outcome.value =
      (evalArg (P.foldl (b.stepA32 ext) s).2 v).map Outcome.value :=
  Block.value_resolveAux ext hnd hb hL s b.fuel v hv

end Step

end Dynarmic.IR
