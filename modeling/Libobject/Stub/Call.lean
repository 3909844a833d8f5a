import Libobject.Lib.Buffer
import Libobject.Lib.X86
import Libobject.Stub.Hooks

/-!
# A call of a hooked function

The jump in a hooked function leads to the code in its stub's area, which puts the first six
arguments on the stack, below the saved frame pointer and the return address, and calls
`stub_parse_context` with its own address and that of the arguments. There they are collected, and
the functions of the hook are called with twenty of them each.
-/

namespace Libobject.Stub

open X86

variable {n : ℕ}

/-- The rest of a stub: the functions before and after, and the number of arguments. -/
structure Hook (n : ℕ) where
  pre : Option (Fin n)
  post : Option (Fin n)
  para_count : BitVec 32

/-- A function was called. -/
structure Entry (n : ℕ) where
  fn : Fin n
  args : List Word
  deriving DecidableEq

structure World (n : ℕ) where
  process : Process n
  hooks : ℕ → Hook n
  exec_code : ℕ → List UInt8
  entries : List (Entry n)

/-- Functions of one number of parameters, with their results and where they are. -/
structure Functions (n : ℕ) where
  arity : ℕ
  result : Fin n → List Word → Word
  pages : Pages (Fin n)

/-- The address of `stub_parse_context` and of the areas of the stubs there are, where each stub is
found again. What the upper half of `rax` is after an `int` was returned is not said, only that the
lower one is the `int`. -/
structure Layout where
  stub_parse_context : Word
  stubs : ℕ
  area : ℕ → Word
  stub : Word → Option ℕ
  stub_area : ∀ s < stubs, stub (area s) = some s
  extend : BitVec 32 → Word
  lower_extend : ∀ v, (extend v).setWidth 32 = v

/-- The code of an area, which calls what is so far behind it. -/
def code (disp : BitVec 32) : List UInt8 :=
  [0x55, 0x48, 0x89, 0xe5, 0x48, 0x83, 0xec, 0x30, 0x4c, 0x89, 0x4d, 0xf8, 0x4c, 0x89, 0x45, 0xf0,
    0x48, 0x89, 0x4d, 0xe8, 0x48, 0x89, 0x55, 0xe0, 0x48, 0x89, 0x75, 0xd8, 0x48, 0x89, 0x7d, 0xd0,
    0x48, 0x89, 0xe6, 0x48, 0x8d, 0x3d, 0x00, 0x00, 0x00, 0x00, 0xe8] ++ leBytes 4 disp.toNat ++
  [0x48, 0x83, 0xc4, 0x30, 0x5d, 0xc3, 0x00]

namespace World

/-- The system makes the pages writable. -/
def stub_add_hooks (F : Functions n) (L : Layout) (w : World n) (stub : ℕ) (func : Fin n)
    (pre : Option (Fin n)) (new_fn : Fin n) (post : Option (Fin n)) (para_count : BitVec 32) :
    Option (World n) :=
  let addr := (L.stub_parse_context - L.area stub - 43 - 4).setWidth 32
  (w.process.stub_add_hooks F.pages stub func new_fn true true).map fun process ↦
    { w with
      process
      hooks := Function.update w.hooks stub ⟨pre, post, para_count⟩
      exec_code := Function.update w.exec_code stub (code addr) }

/-- A function takes its parameters from what it is given. Where it does not start with its own
code, it does not come to itself. -/
def enter (F : Functions n) (w : World n) (g : Fin n) (p : List Word) :
    Option (World n × Word) :=
  if w.process.code g = .original g ∧ F.arity ≤ p.length then
    let args := p.take F.arity
    some ({ w with entries := w.entries ++ [⟨g, args⟩] }, F.result g args)
  else none

def enterIf (F : Functions n) (w : World n) (g : Option (Fin n)) (p : List Word) :
    Option (World n) :=
  match g with
  | none => some w
  | some g => (w.enter F g p).map Prod.fst

end World

/-- The loop over the arguments, from `i` and the `j`-th word of the stack on. -/
def parameters (par_addr : ℕ → Word) (para_count i j : ℕ) (p : List Word) : Option (List Word) :=
  if i < para_count then
    if j = 6 ∨ j = 7 then parameters par_addr para_count i (j + 1) p
    else match Buffer.put p i [par_addr j] with
      | none => none
      | some p => parameters par_addr para_count (i + 1) (j + 1) p
  else some p
termination_by (para_count - i) + (8 - j)

namespace World

/-- What is called instead: the function itself runs without its stub, which is added again with
`new_fn` as where to jump. -/
def replace (F : Functions n) (w : World n) (stub : ℕ) (p : List Word) :
    Option (World n × Word) := do
  let h := w.process.stubs stub
  if h.new_fn ≠ h.fn then w.enter F (← h.new_fn) p
  else do
    let f ← h.fn
    let (w, ret) ← ({ w with process := w.process.stub_remove stub true } : World n).enter F f p
    let new_fn ← h.new_fn
    let process ← w.process.stub_add F.pages stub f (.fn new_fn) true
    return ({ w with process }, ret)

/-- With what the caller finds in `rax`: the result went through an `int`. -/
def stub_parse_context (F : Functions n) (L : Layout) (exec_code_addr rsp : Word)
    (mem : Word → Word) (w : World n) : Option (World n × Word) := do
  let stub ← L.stub (exec_code_addr - 42)
  let h := w.hooks stub
  let p ← parameters (fun j ↦ mem (word rsp j)) h.para_count.toNat 0 0 (List.replicate 20 0)
  let w ← w.enterIf F h.pre p
  let (w, ret) ← w.replace F stub p
  let w ← w.enterIf F h.post p
  return (w, L.extend (ret.setWidth 32))

/-- The only function that the code of an area can call. -/
def callee (F : Functions n) (L : Layout) (target : Word) (c : Cpu) (w : World n) :
    Option (World n × Word) :=
  if target = L.stub_parse_context then
    w.stub_parse_context F L (c.reg .rdi) (c.reg .rsi) c.mem
  else none

/-- A call of a function that is hooked. -/
def call (F : Functions n) (L : Layout) (w : World n) (f : Fin n) (c : Cpu) :
    Option (World n × Word × Cpu) :=
  match w.process.code f with
  | .jump (.area stub) => do
    let is ← disassemble 54 0 (w.exec_code stub)
    run (callee F L) (L.area stub) is w c
  | _ => none

end World

/-- The registers of the first six arguments. -/
def argRegs : List Reg := [.rdi, .rsi, .rdx, .rcx, .r8, .r9]

/-- The state when a function is entered: the other arguments are above the return address. -/
structure Caller (arity : ℕ) where
  cpu : Cpu
  args : List Word
  length_args : args.length = arity
  regs : ∀ (i : ℕ) (r : Reg), argRegs[i]? = some r → ∀ v ∈ args[i]?, cpu.reg r = v
  stack : ∀ i, 6 ≤ i → ∀ v ∈ args[i]?, cpu.mem (word (cpu.reg .rsp) (i - 5)) = v

/-- What is asked of a stub. The functions of the hook are not hooked themselves, apart from the
one that this hook is for. -/
structure HookRequest (L : Layout) (n : ℕ) where
  world : World n
  stub : ℕ
  stub_lt : stub < L.stubs
  func : Fin n
  pre : Option (Fin n)
  new_fn : Fin n
  post : Option (Fin n)
  para_count : BitVec 32
  own : ∀ g, g ∈ pre ∨ g = new_fn ∨ g ∈ post → g ≠ func → world.process.code g = .original g

namespace HookRequest

variable {L : Layout}

def hooked (F : Functions n) (r : HookRequest L n) : Option (World n) :=
  r.world.stub_add_hooks F L r.stub r.func r.pre r.new_fn r.post r.para_count

/-- The functions in their order. -/
def order (r : HookRequest L n) : List (Fin n) := r.pre.toList ++ r.new_fn :: r.post.toList

end HookRequest

/-- What the caller and the functions see is the hook and nothing else. -/
structure Transparent {L : Layout} (F : Functions n) (r : HookRequest L n) (w w' : World n)
    (c : Caller F.arity)
    (rip : Word) (c' : Cpu) : Prop where
  entries : w'.entries = w.entries ++ r.order.map fun g ↦ ⟨g, c.args⟩
  hooked : w'.process.code = w.process.code
  result : c'.reg .rax = F.result r.new_fn c.args
  returns : rip = c.cpu.mem (c.cpu.reg .rsp)
  rsp : c'.reg .rsp = c.cpu.reg .rsp + 8
  rbp : c'.reg .rbp = c.cpu.reg .rbp

/-- One call after the other. -/
def MeetsFrom {L : Layout} (F : Functions n) (r : HookRequest L n) :
    World n → List (Caller F.arity) → Prop
  | _, [] => True
  | w, c :: cs => ∃ w' rip c', w.call F L r.func c.cpu = some (w', rip, c') ∧
      Transparent F r w w' c rip c' ∧ MeetsFrom F r w' cs

/-- The stub can be added, and then the calls are as they should be. -/
def Meets {L : Layout} (F : Functions n) (r : HookRequest L n)
    (cs : List (Caller F.arity)) : Prop :=
  ∃ w ∈ r.hooked F, MeetsFrom F r w cs

/-- `stub_parse_context` is as near to the area as a call goes, and both the number that is given
and that of the arguments are at most twenty, with zeros for the arguments that are not counted;
neither of the functions is the hooked one, and the result is what becomes of its lower half. -/
structure Supported {L : Layout} (F : Functions n) (r : HookRequest L n) (c : Caller F.arity) :
    Prop where
  near : -2147483648 ≤ (L.stub_parse_context - L.area r.stub - 47).toInt ∧
    (L.stub_parse_context - L.area r.stub - 47).toInt < 2147483648
  para_count : r.para_count.toNat ≤ 20
  arity : F.arity ≤ 20
  zeros : ∀ i, r.para_count.toNat ≤ i → ∀ v ∈ c.args[i]?, v = 0
  others : r.func ∉ r.order
  result : L.extend ((F.result r.new_fn c.args).setWidth 32) = F.result r.new_fn c.args

/-! ## The code of the area -/

def routine (disp : BitVec 32) : List (Instr × ℕ) :=
  [(.push .rbp, 1), (.mov .rbp .rsp, 4), (.sub .rsp 0x30, 8),
    (.store .rbp 0xf8 .r9, 12), (.store .rbp 0xf0 .r8, 16), (.store .rbp 0xe8 .rcx, 20),
    (.store .rbp 0xe0 .rdx, 24), (.store .rbp 0xd8 .rsi, 28), (.store .rbp 0xd0 .rdi, 32),
    (.mov .rsi .rsp, 35), (.lea .rdi 0, 42), (.call disp, 47),
    (.add .rsp 0x30, 51), (.pop .rbp, 52), (.ret, 53)]

theorem disassemble_code (disp : BitVec 32) : disassemble 54 0 (code disp) =
    some (routine disp) := by
  have hdisp : BitVec.ofNat 32 (leNat (leBytes 4 disp.toNat)) = disp := by
    have hlt : disp.toNat < 256 ^ 4 := disp.isLt
    rw [leNat_leBytes, Nat.mod_eq_of_lt hlt, BitVec.ofNat_toNat, BitVec.setWidth_eq]
  calc
    disassemble 54 0 (code disp) =
        some (routine (BitVec.ofNat 32 (leNat (leBytes 4 disp.toNat)))) := rfl
    _ = some (routine disp) := by rw [hdisp]

/-- The frame without the arguments. -/
def opened (c : Cpu) : Cpu :=
  let c := c.push (c.reg .rbp)
  let c := c.set .rbp (c.reg .rsp)
  c.set .rsp (c.reg .rsp - (0x30 : BitVec 8).signExtend 64)

/-- The frame with the arguments, and the registers for the call. -/
def entered (base : Word) (c : Cpu) : Cpu :=
  let c := opened c
  let c := c.write (c.reg .rbp + (0xf8 : BitVec 8).signExtend 64) (c.reg .r9)
  let c := c.write (c.reg .rbp + (0xf0 : BitVec 8).signExtend 64) (c.reg .r8)
  let c := c.write (c.reg .rbp + (0xe8 : BitVec 8).signExtend 64) (c.reg .rcx)
  let c := c.write (c.reg .rbp + (0xe0 : BitVec 8).signExtend 64) (c.reg .rdx)
  let c := c.write (c.reg .rbp + (0xd8 : BitVec 8).signExtend 64) (c.reg .rsi)
  let c := c.write (c.reg .rbp + (0xd0 : BitVec 8).signExtend 64) (c.reg .rdi)
  let c := c.set .rsi (c.reg .rsp)
  c.set .rdi (base + BitVec.ofNat 64 42 + (0 : BitVec 32).signExtend 64)

def framed (base : Word) (c : Cpu) : Cpu := (entered base c).push (base + BitVec.ofNat 64 47)

/-- The frame is gone again. -/
def left (base : Word) (c : Cpu) (rax : Word) : Cpu :=
  let c := ((framed base c).set .rsp ((entered base c).reg .rsp)).set .rax rax
  let c := c.set .rsp (c.reg .rsp + (0x30 : BitVec 8).signExtend 64)
  c.pop .rbp

theorem run_routine {σ : Type*} (callee : Word → Cpu → σ → Option (σ × Word)) (base : Word)
    (disp : BitVec 32) (s : σ) (c : Cpu) :
    run callee base (routine disp) s c =
      (callee (base + BitVec.ofNat 64 47 + disp.signExtend 64) (framed base c) s).map fun r ↦
        (r.1, (left base c r.2).mem ((left base c r.2).reg .rsp),
          (left base c r.2).set .rsp ((left base c r.2).reg .rsp + 8)) := by
  rw [Option.map_eq_bind]
  rfl

theorem opened_rbp (c : Cpu) : (opened c).reg .rbp = c.reg .rsp - 8 := by
  simp [opened, Cpu.set_reg_of_ne]

theorem opened_rsp (c : Cpu) : (opened c).reg .rsp = c.reg .rsp - 56 := by
  have hsub : c.reg .rsp - 8 - 48 = c.reg .rsp - 56 := by bv_omega
  simpa [opened, Cpu.set_reg_of_ne] using hsub

theorem opened_reg (c : Cpu) {r : Reg} (hrsp : r ≠ .rsp) (hrbp : r ≠ .rbp) :
    (opened c).reg r = c.reg r := by
  rw [opened, Cpu.set_reg_of_ne _ hrsp, Cpu.set_reg_of_ne _ hrbp, Cpu.push_reg_of_ne _ hrsp]

theorem opened_mem (c : Cpu) :
    (opened c).mem = Function.update c.mem (c.reg .rsp - 8) (c.reg .rbp) := rfl

theorem entered_rsp (base : Word) (c : Cpu) : (entered base c).reg .rsp = c.reg .rsp - 56 := by
  simp [entered, Cpu.set_reg_of_ne, opened_rsp]

theorem framed_rdi (base : Word) (c : Cpu) : (framed base c).reg .rdi = base + 42 := by
  simp [framed, Cpu.push_reg_of_ne, entered]

theorem framed_rsi (base : Word) (c : Cpu) : (framed base c).reg .rsi = c.reg .rsp - 56 := by
  simp [framed, Cpu.push_reg_of_ne, entered, Cpu.set_reg_of_ne, opened_rsp]

/-- The arguments in registers, the frame pointer, and above them what was on the stack. -/
def frameWord (c : Cpu) : ℕ → Word
  | 0 => c.reg .rdi
  | 1 => c.reg .rsi
  | 2 => c.reg .rdx
  | 3 => c.reg .rcx
  | 4 => c.reg .r8
  | 5 => c.reg .r9
  | 6 => c.reg .rbp
  | k + 7 => c.mem (word (c.reg .rsp) k)

theorem store_addr (sp : Word) {d : BitVec 8} {j : ℕ}
    (hd : d.signExtend 64 = BitVec.ofNat 64 (8 * j) - 48) :
    sp - 8 + d.signExtend 64 = word (sp - 56) j := by
  rw [hd, word]
  bv_omega

theorem framed_mem (base : Word) (c : Cpu) {k : ℕ} (hk : k < 2 ^ 60) :
    (framed base c).mem (word (c.reg .rsp - 56) k) = frameWord c k := by
  have hrbp : c.reg .rsp - 8 = word (c.reg .rsp - 56) 6 := by
    rw [word]
    bv_omega
  have hreturn : c.reg .rsp - 56 - 8 = word (c.reg .rsp - 56) (2 ^ 61 - 1) := by
    rw [word]
    bv_omega
  rw [framed, Cpu.push_mem, entered_rsp, hreturn]
  simp only [entered, Cpu.set_mem, Cpu.write, opened_rbp, opened_mem,
    store_addr _ (d := 0xf8) (j := 5) rfl, store_addr _ (d := 0xf0) (j := 4) rfl,
    store_addr _ (d := 0xe8) (j := 3) rfl, store_addr _ (d := 0xe0) (j := 2) rfl,
    store_addr _ (d := 0xd8) (j := 1) rfl, store_addr _ (d := 0xd0) (j := 0) rfl]
  rw [hrbp]
  simp (disch := omega) only [update_word]
  rw [if_neg (by omega)]
  rcases k with _ | _ | _ | _ | _ | _ | _ | k
  iterate 6 exact opened_reg c (by decide) (by decide)
  · rfl
  · have hword : word (c.reg .rsp - 56) (k + 7) = word (c.reg .rsp) k := by
      rw [Nat.add_comm, ← word_add]
      congr 1
      rw [word]
      bv_omega
    iterate 7 rw [if_neg (by omega)]
    exact congrArg c.mem hword

theorem left_rax (base : Word) (c : Cpu) (rax : Word) : (left base c rax).reg .rax = rax := by
  simp [left, Cpu.pop, Cpu.set_reg_of_ne]

theorem left_rsp (base : Word) (c : Cpu) (rax : Word) :
    (left base c rax).reg .rsp = c.reg .rsp := by
  have hadd : c.reg .rsp - 56 + 48 + 8 = c.reg .rsp := by bv_omega
  simpa [left, Cpu.pop, Cpu.set_reg_of_ne, entered_rsp] using hadd

theorem left_mem (base : Word) (c : Cpu) (rax : Word) :
    (left base c rax).mem (c.reg .rsp) = c.mem (c.reg .rsp) := by
  have htop : c.reg .rsp = word (c.reg .rsp - 56) 7 := by
    rw [word]
    bv_omega
  calc
    (left base c rax).mem (c.reg .rsp) = (framed base c).mem (word (c.reg .rsp - 56) 7) := by
      rw [← htop]
      rfl
    _ = frameWord c 7 := framed_mem base c (by decide)
    _ = c.mem (c.reg .rsp) := by rw [frameWord, word, Nat.mul_zero, BitVec.add_zero]

theorem left_rbp (base : Word) (c : Cpu) (rax : Word) :
    (left base c rax).reg .rbp = c.reg .rbp := by
  have hsaved : c.reg .rsp - 56 + 48 = word (c.reg .rsp - 56) 6 := rfl
  have hmem : (framed base c).mem (c.reg .rsp - 56 + 48) = c.reg .rbp := by
    rw [hsaved]
    exact framed_mem base c (by decide)
  simpa [left, Cpu.pop, Cpu.set_reg_of_ne, entered_rsp] using hmem

theorem target_iff (a t : Word) :
    a + BitVec.ofNat 64 47 + ((t - a - 43 - 4).setWidth 32).signExtend 64 = t ↔
      -2147483648 ≤ (t - a - 47).toInt ∧ (t - a - 47).toInt < 2147483648 := by
  have hcut : t - a - 43 - 4 = t - a - 47 := by bv_omega
  have hback : ∀ y, a + BitVec.ofNat 64 47 + y = t ↔ y = t - a - 47 := by
    intro y
    constructor
    · rintro rfl
      bv_omega
    · rintro rfl
      bv_omega
  rw [hcut, hback, ← BitVec.toInt_inj, BitVec.toInt_signExtend_of_le (by decide)]
  generalize t - a - 47 = x
  have hlt := x.isLt
  rw [BitVec.toInt_eq_toNat_cond, BitVec.toInt_eq_toNat_cond, BitVec.toNat_setWidth]
  split_ifs <;> omega

/-! ## The arguments -/

/-- Where the `i`-th argument is, in words from the first one on. -/
def slot (i : ℕ) : ℕ := if i < 6 then i else i + 2

theorem slot_ne (i : ℕ) : ¬ (slot i = 6 ∨ slot i = 7) := by
  rw [slot]
  split_ifs <;> omega

theorem parameters_skip (par_addr : ℕ → Word) (para_count i : ℕ) (p : List Word) :
    parameters par_addr para_count i 6 p = parameters par_addr para_count i 8 p := by
  by_cases h : i < para_count
  · rw [parameters, if_pos h, if_pos (.inl rfl), parameters, if_pos h, if_pos (.inr rfl)]
  · rw [parameters, if_neg h, parameters, if_neg h]

theorem parameters_succ (par_addr : ℕ → Word) (para_count i : ℕ) (p : List Word) :
    parameters par_addr para_count (i + 1) (slot i + 1) p =
      parameters par_addr para_count (i + 1) (slot (i + 1)) p := by
  rcases eq_or_ne i 5 with rfl | hi
  · exact parameters_skip par_addr para_count 6 p
  · have hslot : slot i + 1 = slot (i + 1) := by
      rw [slot, slot]
      split_ifs <;> omega
    rw [hslot]

theorem parameters_step {par_addr : ℕ → Word} {para_count i : ℕ} (h : i < para_count)
    (p : List Word) :
    parameters par_addr para_count i (slot i) p =
      (Buffer.put p i [par_addr (slot i)]).bind fun p ↦
        parameters par_addr para_count (i + 1) (slot (i + 1)) p := by
  rw [parameters, if_pos h, if_neg (slot_ne i)]
  cases Buffer.put p i [par_addr (slot i)] with
  | none => rfl
  | some p => exact parameters_succ par_addr para_count i p

theorem parameters_from (par_addr : ℕ → Word) (m : ℕ) {i room : ℕ} {p : List Word}
    (hp : p.length = i) :
    parameters par_addr (i + m) i (slot i) (p ++ List.replicate room 0) =
      if m ≤ room then
        some (p ++ (List.range' i m).map (fun k ↦ par_addr (slot k)) ++
          List.replicate (room - m) 0)
      else none := by
  induction m generalizing i room p with
  | zero =>
    rw [Nat.add_zero, parameters, if_neg (Nat.lt_irrefl i), if_pos (Nat.zero_le room)]
    simp only [List.range'_zero, List.map_nil, List.append_nil, Nat.sub_zero]
  | succ m ih =>
    subst hp
    have hcount : p.length + (m + 1) = p.length + 1 + m := by omega
    rw [parameters_step (Nat.lt_add_of_pos_right m.succ_pos), hcount]
    cases room with
    | zero =>
      have hnone : Buffer.put (p ++ List.replicate 0 0) p.length [par_addr (slot p.length)] =
          none := if_neg (by simp)
      rw [hnone, if_neg (by omega)]
      rfl
    | succ room =>
      have hlen : (p ++ [par_addr (slot p.length)]).length = p.length + 1 :=
        List.length_append
      rw [Buffer.put_append p _ _ (by simp), Option.bind_some, List.replicate_succ,
        List.length_singleton, List.drop_one, List.tail_cons, ih hlen]
      simp only [Nat.add_le_add_iff_right, List.range'_succ, List.map_cons,
        List.append_assoc, List.singleton_append, Nat.add_sub_add_right]

theorem parameters_eq (par_addr : ℕ → Word) (para_count : ℕ) :
    parameters par_addr para_count 0 0 (List.replicate 20 0) =
      if para_count ≤ 20 then
        some ((List.range para_count).map (fun k ↦ par_addr (slot k)) ++
          List.replicate (20 - para_count) 0)
      else none := by
  have h := @parameters_from par_addr para_count 0 20 [] rfl
  rwa [Nat.zero_add, ← List.range_eq_range'] at h

def collected (c : Cpu) (para_count : ℕ) : List Word :=
  (List.range para_count).map (fun k ↦ frameWord c (slot k)) ++ List.replicate (20 - para_count) 0

theorem parameters_framed (base : Word) (c : Cpu) (para_count : ℕ) :
    parameters (fun j ↦ (framed base c).mem (word (c.reg .rsp - 56) j)) para_count 0 0
        (List.replicate 20 0) =
      if para_count ≤ 20 then some (collected c para_count) else none := by
  rw [parameters_eq]
  refine if_ctx_congr Iff.rfl (fun hcount ↦ ?_) fun _ ↦ rfl
  rw [collected]
  congr 2
  refine List.map_congr_left fun k hk ↦ framed_mem base c ?_
  have hlt := List.mem_range.mp hk
  rw [slot]
  split_ifs <;> omega

theorem length_collected (c : Cpu) {para_count : ℕ} (h : para_count ≤ 20) :
    (collected c para_count).length = 20 := by
  rw [collected, List.length_append, List.length_map, List.length_range, List.length_replicate]
  omega

theorem getElem?_collected (c : Cpu) {para_count i : ℕ} (hi : i < 20) :
    (collected c para_count)[i]? =
      some (if i < para_count then frameWord c (slot i) else 0) := by
  rw [collected]
  split_ifs with h
  · rw [List.getElem?_append_left (by simpa using h), List.getElem?_map,
      List.getElem?_range h, Option.map_some]
  · have hlen : ((List.range para_count).map fun k ↦ frameWord c (slot k)).length = para_count := by
      rw [List.length_map, List.length_range]
    rw [List.getElem?_append_right (by omega), hlen, List.getElem?_replicate, if_pos (by omega)]

theorem Caller.frameWord_slot {arity : ℕ} (c : Caller arity) {i : ℕ} {v : Word}
    (hv : c.args[i]? = some v) : frameWord c.cpu (slot i) = v := by
  match i with
  | 0 => exact c.regs 0 .rdi rfl v hv
  | 1 => exact c.regs 1 .rsi rfl v hv
  | 2 => exact c.regs 2 .rdx rfl v hv
  | 3 => exact c.regs 3 .rcx rfl v hv
  | 4 => exact c.regs 4 .r8 rfl v hv
  | 5 => exact c.regs 5 .r9 rfl v hv
  | i + 6 =>
    have hslot : slot (i + 6) = i + 1 + 7 := by rw [slot, if_neg (by omega)]
    rw [hslot, frameWord]
    exact c.stack (i + 6) (by omega) v hv

theorem Caller.take_collected_iff {arity para_count : ℕ} (c : Caller arity) (harity : arity ≤ 20) :
    (collected c.cpu para_count).take arity = c.args ↔
      ∀ i, para_count ≤ i → ∀ v ∈ c.args[i]?, v = 0 := by
  have hlt : ∀ {i v}, c.args[i]? = some v → i < arity := fun hv ↦
    c.length_args ▸ (List.getElem?_eq_some_iff.mp hv).1
  constructor
  · intro h i hi v hv
    have hi' := hlt hv
    have hget : (collected c.cpu para_count)[i]? = some v := by
      rw [← h, List.getElem?_take_of_lt hi'] at hv
      exact hv
    rw [getElem?_collected c.cpu (hi'.trans_le harity), if_neg (Nat.not_lt.mpr hi)] at hget
    exact (Option.some.inj hget).symm
  · intro h
    refine List.ext_getElem? fun i ↦ ?_
    cases hv : c.args[i]? with
    | some v =>
      rw [List.getElem?_take_of_lt (hlt hv), getElem?_collected c.cpu ((hlt hv).trans_le harity)]
      split_ifs with hi
      · rw [c.frameWord_slot hv]
      · rw [h i (Nat.le_of_not_lt hi) v hv]
    | none =>
      have hle := c.length_args ▸ List.getElem?_eq_none_iff.mp hv
      exact List.getElem?_eq_none (by rw [List.length_take]; omega)

/-! ## The hook -/

/-- The stub is as it was asked for. -/
structure Hooked {L : Layout} (r : HookRequest L n) (w : World n) : Prop where
  jump : w.process.code r.func = .jump (.area r.stub)
  own : ∀ g ∈ r.order, g ≠ r.func → w.process.code g = .original g
  fn : (w.process.stubs r.stub).fn = some r.func
  new_fn : (w.process.stubs r.stub).new_fn = some r.new_fn
  hook : w.hooks r.stub = ⟨r.pre, r.post, r.para_count⟩
  exec_code : w.exec_code r.stub =
    code ((L.stub_parse_context - L.area r.stub - 43 - 4).setWidth 32)

theorem HookRequest.mem_order {L : Layout} {r : HookRequest L n} {g : Fin n} :
    g ∈ r.order ↔ g ∈ r.pre ∨ g = r.new_fn ∨ g ∈ r.post := by
  rw [HookRequest.order, List.mem_append, List.mem_cons, Option.mem_toList, Option.mem_toList]
  rfl

theorem HookRequest.hooked_isSome {L : Layout} (F : Functions n) (r : HookRequest L n) :
    (r.hooked F).isSome ↔ F.pages.OnOne r.func 0 replaceSize := by
  rw [hooked, World.stub_add_hooks, Option.isSome_map, Process.stub_add_hooks, if_pos rfl,
    Process.stub_add, if_pos rfl, Option.isSome_ite]

theorem HookRequest.hooked_hooked {L : Layout} {F : Functions n} {r : HookRequest L n}
    {w : World n} (h : w ∈ r.hooked F) : Hooked r w := by
  obtain ⟨process, hprocess, rfl⟩ := Option.map_eq_some_iff.mp h
  obtain ⟨-, hprocess⟩ := Option.ite_none_right_eq_some.mp hprocess
  cases hprocess
  exact
    { jump := Function.update_self ..
      own := fun g hg hne ↦
        (Function.update_of_ne hne ..).trans (r.own g (HookRequest.mem_order.mp hg) hne)
      fn := by simp
      new_fn := by simp
      hook := Function.update_self ..
      exec_code := Function.update_self .. }

section Calls

variable {F : Functions n} {L : Layout} {r : HookRequest L n} {w w' : World n}

/-- The functions are called one after the other with these arguments. -/
def World.after (w : World n) (gs : List (Fin n)) (args : List Word) : World n :=
  { w with entries := w.entries ++ gs.map fun g ↦ ⟨g, args⟩ }

theorem World.after_after (w : World n) (gs gs' : List (Fin n)) (args : List Word) :
    (w.after gs args).after gs' args = w.after (gs ++ gs') args := by
  simp [after]

theorem Hooked.after (h : Hooked r w) (gs : List (Fin n)) (args : List Word) :
    Hooked r (w.after gs args) :=
  ⟨h.jump, h.own, h.fn, h.new_fn, h.hook, h.exec_code⟩

theorem World.enter_eq_some {g : Fin n} {p : List Word} {v : Word}
    (h : w.enter F g p = some (w', v)) :
    w.process.code g = .original g ∧ F.arity ≤ p.length ∧
      w' = w.after [g] (p.take F.arity) := by
  rw [enter] at h
  split_ifs at h with hown
  cases h
  exact ⟨hown.1, hown.2, rfl⟩

theorem World.enterIf_eq_some {g : Option (Fin n)} {p : List Word}
    (h : w.enterIf F g p = some w') :
    (∀ f ∈ g, w.process.code f = .original f) ∧ w' = w.after g.toList (p.take F.arity) := by
  cases g with
  | none =>
    cases h
    exact ⟨nofun, by rw [Option.toList_none, after, List.map_nil, List.append_nil]⟩
  | some g =>
    obtain ⟨⟨w₁, v⟩, henter, rfl⟩ := Option.map_eq_some_iff.mp h
    obtain ⟨hown, -, rfl⟩ := World.enter_eq_some henter
    exact ⟨fun f hf ↦ Option.some.inj hf ▸ hown, rfl⟩

theorem Hooked.enter (h : Hooked r w) {g : Fin n} (hg : g ∈ r.order) (hne : g ≠ r.func)
    {p : List Word} (hp : F.arity ≤ p.length) :
    w.enter F g p =
      some (w.after [g] (p.take F.arity), F.result g (p.take F.arity)) :=
  if_pos ⟨h.own g hg hne, hp⟩

theorem Hooked.enterIf (h : Hooked r w) {g : Option (Fin n)} (hg : ∀ f ∈ g, f ∈ r.order)
    (hne : r.func ∉ r.order) {p : List Word} (hp : F.arity ≤ p.length) :
    w.enterIf F g p = some (w.after g.toList (p.take F.arity)) := by
  cases g with
  | none => rw [World.enterIf, Option.toList_none, World.after, List.map_nil, List.append_nil]
  | some g =>
    have hmem := hg g rfl
    rw [World.enterIf, h.enter hmem (fun heq ↦ hne (heq ▸ hmem)) hp]
    rfl

theorem Hooked.replace (h : Hooked r w) (hne : r.func ∉ r.order) {p : List Word}
    (hp : F.arity ≤ p.length) :
    w.replace F r.stub p =
      some (w.after [r.new_fn] (p.take F.arity), F.result r.new_fn (p.take F.arity)) := by
  have hmem : r.new_fn ∈ r.order := HookRequest.mem_order.mpr (.inr (.inl rfl))
  have hfn : r.new_fn ≠ r.func := fun heq ↦ hne (heq ▸ hmem)
  rw [World.replace, h.fn, h.new_fn, if_pos (fun heq ↦ hfn (Option.some.inj heq))]
  exact h.enter hmem hfn hp

theorem Hooked.replace_eq_some (h : Hooked r w) {p : List Word} {v : Word}
    (hsome : w.replace F r.stub p = some (w', v)) :
    F.arity ≤ p.length ∧
      (r.new_fn ≠ r.func ∧ w'.process = w.process ∨
        r.new_fn = r.func ∧ w'.process.code r.func = .jump (.fn r.func)) := by
  rw [World.replace, h.fn, h.new_fn] at hsome
  split_ifs at hsome with heq
  · obtain ⟨-, hp, rfl⟩ := World.enter_eq_some hsome
    exact ⟨hp, .inl ⟨fun hfn ↦ heq (congrArg some hfn), rfl⟩⟩
  · obtain ⟨f, hf, hsome⟩ := Option.bind_eq_some_iff.mp hsome
    cases hf
    obtain ⟨⟨w₁, ret⟩, henter, hsome⟩ := Option.bind_eq_some_iff.mp hsome
    obtain ⟨new_fn, hnew, hsome⟩ := Option.bind_eq_some_iff.mp hsome
    cases hnew
    obtain ⟨process, hadd, hsome⟩ := Option.bind_eq_some_iff.mp hsome
    obtain ⟨-, hadd⟩ := Option.ite_none_right_eq_some.mp hadd
    cases hsome
    cases hadd
    have hfn : r.new_fn = r.func := Option.some.inj (not_not.mp heq)
    refine ⟨(World.enter_eq_some henter).2.1, .inr ⟨hfn, ?_⟩⟩
    rw [← hfn]
    exact Function.update_self ..

theorem Hooked.context (h : Hooked r w) {rsp : Word} {mem : Word → Word} :
    w.stub_parse_context F L (L.area r.stub + 42) rsp mem =
      (parameters (fun j ↦ mem (word rsp j)) r.para_count.toNat 0 0
        (List.replicate 20 0)).bind fun p ↦
      (w.enterIf F r.pre p).bind fun w ↦
      (w.replace F r.stub p).bind fun x ↦
      (x.1.enterIf F r.post p).map fun w ↦ (w, L.extend (x.2.setWidth 32)) := by
  have hstub : L.stub (L.area r.stub + 42 - 42) = some r.stub := by
    rw [BitVec.add_sub_cancel, L.stub_area r.stub r.stub_lt]
  rw [World.stub_parse_context, hstub]
  simp only [Option.bind_eq_bind, Option.bind_some, h.hook, Option.map_eq_bind]
  rfl

theorem Hooked.context_eq (h : Hooked r w) (hne : r.func ∉ r.order) {rsp : Word}
    {mem : Word → Word} {p : List Word}
    (hparameters : parameters (fun j ↦ mem (word rsp j)) r.para_count.toNat 0 0
      (List.replicate 20 0) = some p) (hp : F.arity ≤ p.length) :
    w.stub_parse_context F L (L.area r.stub + 42) rsp mem =
      some (w.after r.order (p.take F.arity),
        L.extend ((F.result r.new_fn (p.take F.arity)).setWidth 32)) := by
  have hpre : ∀ f ∈ r.pre, f ∈ r.order := fun f hf ↦ HookRequest.mem_order.mpr (.inl hf)
  have hpost : ∀ f ∈ r.post, f ∈ r.order := fun f hf ↦ HookRequest.mem_order.mpr (.inr (.inr hf))
  rw [h.context, hparameters, Option.bind_some, h.enterIf hpre hne hp, Option.bind_some,
    (h.after ..).replace hne hp, Option.bind_some, ((h.after ..).after ..).enterIf hpost hne hp,
    World.after_after, World.after_after, List.append_assoc]
  rfl

theorem Hooked.context_eq_some (h : Hooked r w) {rsp rax : Word} {mem : Word → Word}
    (hsome : w.stub_parse_context F L (L.area r.stub + 42) rsp mem = some (w', rax))
    (hcode : w'.process.code = w.process.code) :
    ∃ p, parameters (fun j ↦ mem (word rsp j)) r.para_count.toNat 0 0
        (List.replicate 20 0) = some p ∧ F.arity ≤ p.length ∧ r.func ∉ r.order := by
  rw [h.context] at hsome
  obtain ⟨p, hparameters, hsome⟩ := Option.bind_eq_some_iff.mp hsome
  obtain ⟨w₁, hpre, hsome⟩ := Option.bind_eq_some_iff.mp hsome
  obtain ⟨⟨w₂, ret⟩, hreplace, hsome⟩ := Option.bind_eq_some_iff.mp hsome
  obtain ⟨w₃, hpost, hsome⟩ := Option.map_eq_some_iff.mp hsome
  cases hsome
  obtain ⟨hownPre, rfl⟩ := World.enterIf_eq_some hpre
  obtain ⟨hp, hcases⟩ := (h.after ..).replace_eq_some hreplace
  obtain ⟨hownPost, rfl⟩ := World.enterIf_eq_some hpost
  have hjump : w₂.process.code r.func = .jump (.area r.stub) :=
    (congrFun hcode r.func).trans h.jump
  have hfn : r.new_fn ≠ r.func := by
    rcases hcases with ⟨hfn, -⟩ | ⟨-, hself⟩
    · exact hfn
    · exact nomatch hself.symm.trans hjump
  refine ⟨p, hparameters, hp, fun hmem ↦ ?_⟩
  rcases HookRequest.mem_order.mp hmem with hmem | hmem | hmem
  · exact nomatch (hownPre _ hmem).symm.trans h.jump
  · exact hfn hmem.symm
  · exact nomatch (hownPost _ hmem).symm.trans hjump

theorem Hooked.call (h : Hooked r w) (c : Cpu) :
    w.call F L r.func c =
      if -2147483648 ≤ (L.stub_parse_context - L.area r.stub - 47).toInt ∧
          (L.stub_parse_context - L.area r.stub - 47).toInt < 2147483648 then
        (w.stub_parse_context F L (L.area r.stub + 42) (c.reg .rsp - 56)
          (framed (L.area r.stub) c).mem).map fun x ↦
            (x.1, c.mem (c.reg .rsp),
              (left (L.area r.stub) c x.2).set .rsp (c.reg .rsp + 8))
      else none := by
  rw [World.call, h.jump]
  simp only [h.exec_code, disassemble_code, Option.bind_eq_bind, Option.bind_some, run_routine,
    left_rsp, left_mem, World.callee, target_iff, framed_rdi, framed_rsi]
  split_ifs <;> rfl

theorem Hooked.call_eq (h : Hooked r w) {c : Caller F.arity} (hc : Supported F r c) :
    w.call F L r.func c.cpu = some (w.after r.order c.args, c.cpu.mem (c.cpu.reg .rsp),
      (left (L.area r.stub) c.cpu (F.result r.new_fn c.args)).set .rsp
        (c.cpu.reg .rsp + 8)) := by
  have hparameters := parameters_framed (L.area r.stub) c.cpu r.para_count.toNat
  rw [if_pos hc.para_count] at hparameters
  have hlen := length_collected c.cpu hc.para_count
  have htake := (c.take_collected_iff hc.arity).mpr hc.zeros
  rw [h.call, if_pos hc.near, h.context_eq hc.others hparameters (hlen ▸ hc.arity), htake,
    hc.result]
  rfl

theorem Hooked.transparent (h : Hooked r w) {c : Caller F.arity} (hc : Supported F r c) :
    ∃ w' rip c', w.call F L r.func c.cpu = some (w', rip, c') ∧
      Transparent F r w w' c rip c' ∧ Hooked r w' := by
  refine ⟨_, _, _, h.call_eq hc, ?_, h.after ..⟩
  constructor
  · rfl
  · rfl
  · rw [Cpu.set_reg_of_ne _ (by decide : Reg.rax ≠ .rsp), left_rax]
  · rfl
  · rw [Cpu.set_reg_self]
  · rw [Cpu.set_reg_of_ne _ (by decide : Reg.rbp ≠ .rsp), left_rbp]

theorem Hooked.supported (h : Hooked r w) {c : Caller F.arity} {rip : Word} {c' : Cpu}
    (hcall : w.call F L r.func c.cpu = some (w', rip, c'))
    (htransparent : Transparent F r w w' c rip c') : Supported F r c := by
  rw [h.call] at hcall
  split_ifs at hcall with hnear
  obtain ⟨⟨w₁, rax⟩, hcontext, hcall⟩ := Option.map_eq_some_iff.mp hcall
  cases hcall
  obtain ⟨p, hparameters, hp, hne⟩ := h.context_eq_some hcontext htransparent.hooked
  have hexact := h.context_eq hne hparameters hp
  rw [parameters_framed] at hparameters
  split_ifs at hparameters with hcount
  cases hparameters
  have harity : F.arity ≤ 20 := length_collected c.cpu hcount ▸ hp
  cases hcontext.symm.trans hexact
  have hargs : (collected c.cpu r.para_count.toNat).take F.arity = c.args := by
    have hentries := List.append_cancel_left htransparent.entries
    have hfn : r.new_fn ∈ r.order := HookRequest.mem_order.mpr (.inr (.inl rfl))
    exact congrArg Entry.args (List.map_inj_left.mp hentries r.new_fn hfn)
  refine ⟨hnear, hcount, harity, (c.take_collected_iff harity).mp hargs, hne, ?_⟩
  have hresult := htransparent.result
  rw [Cpu.set_reg_of_ne _ (by decide : Reg.rax ≠ .rsp), left_rax, hargs] at hresult
  exact hresult

theorem Hooked.meets_iff (h : Hooked r w) (cs : List (Caller F.arity)) :
    MeetsFrom F r w cs ↔ ∀ c ∈ cs, Supported F r c := by
  induction cs generalizing w with
  | nil => exact iff_of_true trivial nofun
  | cons c cs ih =>
    rw [List.forall_mem_cons]
    constructor
    · rintro ⟨w', rip, c', hcall, htransparent, hrest⟩
      have hc := h.supported hcall htransparent
      obtain ⟨w₁, rip₁, c₁, hcall₁, -, hnext⟩ := h.transparent hc
      cases hcall.symm.trans hcall₁
      exact ⟨hc, (ih hnext).mp hrest⟩
    · rintro ⟨hc, hcs⟩
      obtain ⟨w', rip, c', hcall, htransparent, hnext⟩ := h.transparent hc
      exact ⟨w', rip, c', hcall, htransparent, (ih hnext).mpr hcs⟩

end Calls

/-- A hooked function is called as if it were what is called instead, with the functions before and
after. -/
theorem calls_iff {L : Layout} (F : Functions n) (r : HookRequest L n)
    (cs : List (Caller F.arity)) :
    Meets F r cs ↔ F.pages.OnOne r.func 0 replaceSize ∧ ∀ c ∈ cs, Supported F r c := by
  rw [← r.hooked_isSome, Option.isSome_iff_exists, Meets]
  constructor
  · rintro ⟨w, hw, hmeets⟩
    exact ⟨⟨w, hw⟩, ((HookRequest.hooked_hooked hw).meets_iff cs).mp hmeets⟩
  · rintro ⟨⟨w, hw⟩, hcs⟩
    exact ⟨w, hw, ((HookRequest.hooked_hooked hw).meets_iff cs).mpr hcs⟩

/-- A result that is not an `int`, where `rax` is filled up with zeros. -/
theorem not_calls : ¬ ∀ (n : ℕ) (L : Layout) (F : Functions n) (r : HookRequest L n)
    (cs : List (Caller F.arity)), Meets F r cs := by
  intro h
  let L : Layout := ⟨4096, 1, fun _ ↦ 0, fun _ ↦ some 0, fun s hs ↦ by
    rw [Nat.lt_one_iff.mp hs], fun v ↦ v.setWidth 64, fun v ↦ by simp⟩
  let w : World 2 := ⟨.new 2, fun _ ↦ ⟨none, none, 0⟩, fun _ ↦ [], []⟩
  let r : HookRequest L 2 := ⟨w, 0, Nat.one_pos, 0, none, 1, none, 0, fun _ _ _ ↦ rfl⟩
  let c : Caller 0 := ⟨⟨fun _ ↦ 0, fun _ ↦ 0⟩, [], rfl, nofun, nofun⟩
  let F : Functions 2 := ⟨0, fun _ _ ↦ 0x100000000, ⟨4096, fun f ↦ 64 * f.val⟩⟩
  obtain ⟨w₀, hw₀, w', rip, c', hcall, htransparent, -⟩ := h 2 L F r [c]
  have hresult := ((HookRequest.hooked_hooked hw₀).supported hcall htransparent).result
  exact absurd hresult (by decide)

end Libobject.Stub
