import Libobject.Lib.Bytes
import Mathlib.Logic.Function.Basic

/-!
# Straight x86-64 code

The instructions that set up a frame, call from it and leave it, as bytes and as what they do. The
memory is one of words, each at the address of its first byte: the words of a stack are eight bytes
apart.
-/

namespace Libobject.X86

abbrev Word := BitVec 64

inductive Reg
  | rax | rcx | rdx | rbx | rsp | rbp | rsi | rdi
  | r8 | r9 | r10 | r11 | r12 | r13 | r14 | r15
  deriving DecidableEq

/-- The registers by their numbers. -/
def Reg.all : List Reg :=
  [.rax, .rcx, .rdx, .rbx, .rsp, .rbp, .rsi, .rdi,
    .r8, .r9, .r10, .r11, .r12, .r13, .r14, .r15]

/-- Displacements are from the base register, those of `lea` and `call` from the next instruction.
-/
inductive Instr
  | push (src : Reg)
  | pop (dst : Reg)
  | mov (dst src : Reg)
  | add (dst : Reg) (imm : BitVec 8)
  | sub (dst : Reg) (imm : BitVec 8)
  | store (base : Reg) (disp : BitVec 8) (src : Reg)
  | lea (dst : Reg) (disp : BitVec 32)
  | call (disp : BitVec 32)
  | ret

def disp32 (b₀ b₁ b₂ b₃ : UInt8) : BitVec 32 := BitVec.ofNat 32 (leNat [b₀, b₁, b₂, b₃])

/-- What follows a REX prefix for 64 bits: the operation, the byte with the mode and the registers,
and the rest. The first of the registers is one of the upper ones if the prefix says so. -/
def decodeWide (upper : ℕ) (op m : UInt8) (bs : List UInt8) : Option (Instr × ℕ) := do
  let reg ← Reg.all[upper + m.toNat / 8 % 8]?
  let rm ← Reg.all[m.toNat % 8]?
  match op.toNat, m.toNat / 64, bs with
  | 0x89, 3, _ => return (.mov rm reg, 3)
  | 0x89, 1, d :: _ => if rm = .rsp then none else return (.store rm d.toBitVec reg, 4)
  | 0x83, 3, n :: _ =>
    match m.toNat / 8 % 8 with
    | 0 => return (.add rm n.toBitVec, 4)
    | 5 => return (.sub rm n.toBitVec, 4)
    | _ => none
  | 0x8d, 0, b₀ :: b₁ :: b₂ :: b₃ :: _ =>
    if rm = .rbp then return (.lea reg (disp32 b₀ b₁ b₂ b₃), 7) else none
  | _, _, _ => none

/-- The first instruction with its length. -/
def decode : List UInt8 → Option (Instr × ℕ)
  | [] => none
  | b :: bs =>
    if b.toNat / 8 = 0x0a then (Reg.all[b.toNat % 8]?).map fun r ↦ (.push r, 1)
    else if b.toNat / 8 = 0x0b then (Reg.all[b.toNat % 8]?).map fun r ↦ (.pop r, 1)
    else match b.toNat, bs with
      | 0xc3, _ => some (.ret, 1)
      | 0xe8, b₀ :: b₁ :: b₂ :: b₃ :: _ => some (.call (disp32 b₀ b₁ b₂ b₃), 5)
      | 0x48, op :: m :: bs => decodeWide 0 op m bs
      | 0x4c, op :: m :: bs => decodeWide 8 op m bs
      | _, _ => none

/-- The instructions as far as the `ret`, each with the place behind it; there are no more than the
first number says, and the second one is the place of the bytes. -/
def disassemble : ℕ → ℕ → List UInt8 → Option (List (Instr × ℕ))
  | 0, _, _ => none
  | n + 1, off, bs =>
    match decode bs with
    | none => none
    | some (.ret, len) => some [(.ret, off + len)]
    | some (i, len) =>
      (disassemble n (off + len) (bs.drop len)).map fun is ↦ (i, off + len) :: is

structure Cpu where
  reg : Reg → Word
  mem : Word → Word

namespace Cpu

def set (c : Cpu) (r : Reg) (v : Word) : Cpu := { c with reg := Function.update c.reg r v }

def write (c : Cpu) (a v : Word) : Cpu := { c with mem := Function.update c.mem a v }

def push (c : Cpu) (v : Word) : Cpu :=
  (c.set .rsp (c.reg .rsp - 8)).write (c.reg .rsp - 8) v

/-- The word on the top of the stack goes to a register. -/
def pop (c : Cpu) (r : Reg) : Cpu :=
  (c.set .rsp (c.reg .rsp + 8)).set r (c.mem (c.reg .rsp))

@[simp] theorem set_mem (c : Cpu) (r : Reg) (v : Word) : (c.set r v).mem = c.mem := rfl

@[simp] theorem write_reg (c : Cpu) (a v : Word) : (c.write a v).reg = c.reg := rfl

@[simp] theorem set_reg_self (c : Cpu) (r : Reg) (v : Word) : (c.set r v).reg r = v :=
  Function.update_self ..

theorem set_reg_of_ne (c : Cpu) {r r' : Reg} (h : r' ≠ r) (v : Word) :
    (c.set r v).reg r' = c.reg r' :=
  Function.update_of_ne h ..

@[simp] theorem push_reg_rsp (c : Cpu) (v : Word) : (c.push v).reg .rsp = c.reg .rsp - 8 := by
  rw [push, write_reg, set_reg_self]

theorem push_reg_of_ne (c : Cpu) {r : Reg} (h : r ≠ .rsp) (v : Word) :
    (c.push v).reg r = c.reg r := by
  rw [push, write_reg, set_reg_of_ne _ h]

theorem push_mem (c : Cpu) (v : Word) :
    (c.push v).mem = Function.update c.mem (c.reg .rsp - 8) v := rfl

end Cpu

/-- Straight code with the base address of its places. What is called gets the state with the return
address pushed, and gives its own state and the result in `rax`; it keeps the stack and `rbp`. At
the end stands the address that is returned to. -/
def run {σ : Type*} (callee : Word → Cpu → σ → Option (σ × Word)) (base : Word) :
    List (Instr × ℕ) → σ → Cpu → Option (σ × Word × Cpu)
  | [], _, _ => none
  | (i, off) :: is, s, c =>
    let rip := base + BitVec.ofNat 64 off
    match i with
    | .push src => run callee base is s (c.push (c.reg src))
    | .pop dst => run callee base is s (c.pop dst)
    | .mov dst src => run callee base is s (c.set dst (c.reg src))
    | .add dst imm => run callee base is s (c.set dst (c.reg dst + imm.signExtend 64))
    | .sub dst imm => run callee base is s (c.set dst (c.reg dst - imm.signExtend 64))
    | .store b disp src =>
      run callee base is s (c.write (c.reg b + disp.signExtend 64) (c.reg src))
    | .lea dst disp => run callee base is s (c.set dst (rip + disp.signExtend 64))
    | .call disp => do
      let (s, rax) ← callee (rip + disp.signExtend 64) (c.push rip) s
      run callee base is s (((c.push rip).set .rsp (c.reg .rsp)).set .rax rax)
    | .ret => some (s, c.mem (c.reg .rsp), c.set .rsp (c.reg .rsp + 8))

/-- The `k`-th word from an address on. -/
def word (a : Word) (k : ℕ) : Word := a + BitVec.ofNat 64 (8 * k)

theorem word_inj (a : Word) {j k : ℕ} (hj : j < 2 ^ 61) (hk : k < 2 ^ 61) :
    word a j = word a k ↔ j = k := by
  refine ⟨fun h ↦ ?_, fun h ↦ h ▸ rfl⟩
  have hmod := congrArg BitVec.toNat (BitVec.add_right_inj a |>.mp h)
  rw [BitVec.toNat_ofNat, BitVec.toNat_ofNat, Nat.mod_eq_of_lt (by omega),
    Nat.mod_eq_of_lt (by omega)] at hmod
  omega

theorem update_word (m : Word → Word) (a v : Word) {j k : ℕ} (hj : j < 2 ^ 61) (hk : k < 2 ^ 61) :
    Function.update m (word a j) v (word a k) = if k = j then v else m (word a k) := by
  rw [Function.update_apply]
  exact ite_cond_congr (propext (word_inj a hk hj))

theorem word_add (a : Word) (j k : ℕ) : word (word a j) k = word a (j + k) := by
  rw [word, word, word, BitVec.add_assoc, ← BitVec.ofNat_add, ← Nat.mul_add]

end Libobject.X86
