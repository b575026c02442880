/-
# The x86 frontend

`src/frontends/x86.py`: an AVX-512 kernel is executed with concrete scalar
registers and flags, and every instruction it comes by is recorded with the
registers it reads and writes (`registerRoles`), the instructions they come
from and its memory access. The scalar instructions are evaluated by
`evaluate`: at most one register is written, and the flags all at once. The
assembly text is parsed before; a program here is the list of its instructions
and the positions of its labels.
-/
import VectorSim.Operands
import VectorSim.Lib.Checked
import VectorSim.Lib.Trail
import VectorSim.Lib.Words
import Mathlib.Data.Int.Bitwise

namespace VectorSim
namespace X86

open Checked

/-- `StaticInstruction`. -/
structure StaticInstruction where
  mnemonic : String
  operands : List String
  deriving DecidableEq, Repr

/-- What `build_dynamic_trace` raises. -/
inductive X86Error
  /-- "unsupported scalar operand" -/
  | unsupportedOperand (operand : String)
  /-- "scalar register read before write" -/
  | readBeforeWrite (register : String)
  /-- "unsupported memory operand" -/
  | unsupportedMemory (operand : String)
  /-- `registers[base]` of a register that was not written -/
  | missingRegister (register : String)
  /-- `int` of a text that is no number -/
  | invalidInteger (token : String)
  /-- `operands[-1]` of no operands -/
  | missingOperand
  /-- "no semantic recipe" -/
  | noRecipe (mnemonic : String)
  /-- "unsupported branch" -/
  | unsupportedBranch (mnemonic : String)
  /-- "unknown branch target" -/
  | unknownTarget (label : String)
  /-- "dynamic expansion exceeded safety bound" -/
  | exceededBound
  /-- "x86 AVX-512 kernel requires count > 0 and divisible by 16" -/
  | invalidCount
  deriving DecidableEq, Repr

def inputBase : ℕ := 0x100000
def outputBase : ℕ := 0x200000
def constantBase : ℕ := 0x400000

def unconditionalBranches : List String := ["jmp", "jmpq"]

def conditionalBranches : List String :=
  ["ja", "jae", "jb", "jbe", "jc", "je", "jg", "jge", "jl", "jle", "jna", "jnae", "jnb", "jnbe", "jnc", "jne",
    "jng", "jnge", "jnl", "jnle", "jno", "jns", "jnz", "jo", "js", "jz"]

def branches : List String := unconditionalBranches ++ conditionalBranches

def flagWriters : List String :=
  ["addq", "andq", "cmpq", "decq", "incq", "negq", "orq", "salq", "sarq", "shlq", "shrq", "subq", "testq", "xorl",
    "xorq"]

/-! ### Operands -/

/-- `REGISTER_ALIASES`. -/
def registerAliases : List (String × String) :=
  [("rax", ["eax", "ax", "al", "ah"]), ("rbx", ["ebx", "bx", "bl", "bh"]), ("rcx", ["ecx", "cx", "cl", "ch"]),
    ("rdx", ["edx", "dx", "dl", "dh"]), ("rsi", ["esi", "si", "sil"]), ("rdi", ["edi", "di", "dil"]),
    ("rbp", ["ebp", "bp", "bpl"]), ("rsp", ["esp", "sp", "spl"])].flatMap (fun e => e.2.map fun a => (a, e.1)) ++
  (List.range' 8 8).flatMap fun i => [(s!"r{i}d", s!"r{i}"), (s!"r{i}w", s!"r{i}"), (s!"r{i}b", s!"r{i}")]

/-- The number of a vector register `xmm`, `ymm` or `zmm`. -/
def vectorNumber? : List Char → Option (List Char)
  | c :: 'm' :: 'm' :: ds =>
    if (c = 'x' ∨ c = 'y' ∨ c = 'z') ∧ ds ≠ [] ∧ ds.all Char.isDigit then some ds else none
  | _ => none

/-- The name after the `%` of a register operand. -/
def registerName? (operand : String) : Option String :=
  match (normalized operand).toList with
  | '%' :: name => some (String.ofList name)
  | _ => none

/-- `canonical_register`. -/
def canonicalRegister (operand : String) : Option String :=
  (registerName? operand).map fun name =>
    match registerAliases.lookup name, vectorNumber? name.toList with
    | some canonical, _ => canonical
    | none, some number => "zmm" ++ String.ofList number
    | none, none => name

/-- The groups of a match of `MEMORY_RE`. -/
structure MemoryOperand where
  disp : String
  base : Option String
  index : Option String
  scale : ℕ
  deriving DecidableEq, Repr

/-- `(%[A-Za-z0-9]+)?`. -/
def registerField? : List Char → Option (Option String)
  | [] => some none
  | '%' :: c :: cs =>
    if (c :: cs).all Char.isAlphanum then some (some (String.ofList ('%' :: c :: cs))) else none
  | _ => none

/-- `[1248]`. -/
def scaleField? : List Char → Option ℕ
  | ['1'] => some 1 | ['2'] => some 2 | ['4'] => some 4 | ['8'] => some 8
  | _ => none

/-- The match of `MEMORY_RE`. -/
def memoryOperand? (operand : String) : Option MemoryOperand :=
  let paren : Char → Bool := fun c => c = '(' || c = ')'
  let disp := String.ofList (operand.toList.takeWhile fun c => !paren c)
  match operand.toList.dropWhile (fun c => !paren c) with
  | '(' :: rest =>
    match rest.reverse with
    | ')' :: inner =>
      match inner.reverse.splitOn ',' with
      | [b] => do
        let base ← registerField? b
        return ⟨disp, base, none, 1⟩
      | [b, i] => do
        let base ← registerField? b
        let index ← registerField? i
        return ⟨disp, base, index, 1⟩
      | [b, i, s] => do
        let base ← registerField? b
        let index ← registerField? i
        let scale ← scaleField? s
        return ⟨disp, base, index, scale⟩
      | _ => none
    | _ => none
  | _ => none

/-- `registers_in_memory`. -/
def registersInMemory (operand : String) : List String :=
  match memoryOperand? operand with
  | none => []
  | some m => ([m.base, m.index].filterMap id).filterMap canonicalRegister

/-- The operand has a `(` or a `[`. -/
def isMemory (operand : String) : Bool := '(' ∈ operand.toList || '[' ∈ operand.toList

/-- `operand_form`. -/
def operandForm (operands : List String) : String :=
  if operands.any isMemory then
    if operands.getLast?.any isMemory then "memory_store" else "memory_load"
  else "register"

/-! ### Register roles -/

structure Roles where
  reads : List String
  writes : List String
  readsFlags : Bool
  writesFlags : Bool
  deriving DecidableEq, Repr

def moves : List String :=
  ["movl", "movq", "movslq", "movzbl", "vmovaps", "vmovdqu64", "vmovss", "vmovups"]

def twoOperand : List String :=
  ["addq", "andq", "orq", "salq", "sarq", "shlq", "shrq", "subq", "xorl", "xorq"]

/-- The registers among the operands, but for the last. -/
def sourceRegisters (i : StaticInstruction) : List String := i.operands.dropLast.filterMap canonicalRegister

/-- The last operand, where it is a register. -/
def destinationRegister (i : StaticInstruction) : Option String := i.operands.getLast?.bind canonicalRegister

/-- The exclusive or of a register with itself, by the registers among the operands. -/
def isZeroIdiom (i : StaticInstruction) : Bool :=
  i.mnemonic ∈ ["xorl", "xorq", "vxorpd", "vxorps"] &&
    (i.operands.filterMap canonicalRegister).dedup.length = 1

/-- The chain of cases of `register_roles`: what is read besides the memory operands, and what is
written. -/
def operandRoles (i : StaticInstruction) : List String × List String :=
  let destination := (destinationRegister i).toList
  if i.mnemonic ∈ branches ++ ["ret", "vzeroupper", "endbr64"] then ([], [])
  else if i.mnemonic ∈ ["testq", "cmpq"] then (i.operands.filterMap canonicalRegister, [])
  else if isZeroIdiom i then ([], destination)
  else if i.mnemonic ∈ moves then
    (sourceRegisters i, if i.operands.getLast?.any isMemory then [] else destination)
  else if i.mnemonic ∈ twoOperand then (destination ++ sourceRegisters i, destination)
  else if i.mnemonic ∈ ["decq", "incq", "negq", "notq"] then (destination, destination)
  else if i.mnemonic = "leaq" then ([], destination)
  else
    let accumulates := "vfmadd".toList.isPrefixOf i.mnemonic.toList || "vfnmadd".toList.isPrefixOf i.mnemonic.toList
    (sourceRegisters i ++ (if accumulates then destination else []), destination)

/-- `register_roles`. -/
def registerRoles (i : StaticInstruction) : Roles where
  reads := sorted (i.operands.flatMap registersInMemory ++ (operandRoles i).1)
  writes := sorted (operandRoles i).2
  readsFlags := i.mnemonic ∈ conditionalBranches
  writesFlags := i.mnemonic ∈ flagWriters

/-! ### The scalar state -/

structure Flags where
  zf : Bool := false
  cf : Bool := false
  sf : Bool := false
  of : Bool := false
  deriving DecidableEq, Repr

/-- The registers that were written, the flags, and the labels of the constants met so far. -/
structure ScalarState where
  registers : String → Option ℤ
  flags : Flags
  constants : List String

/-- `parse_integer`. -/
def parseInteger (token : String) : Except X86Error ℤ :=
  let text := match token.toList with
    | '$' :: cs => String.ofList cs
    | _ => token
  match readInt text with
  | some n => .ok n
  | none => .error (.invalidInteger token)

/-- `scalar_operand_value`. -/
def scalarOperandValue (token : String) (registers : String → Option ℤ) : Except X86Error ℤ :=
  if token.toList.head? = some '$' then parseInteger token
  else match canonicalRegister token with
    | none => .error (.unsupportedOperand token)
    | some r =>
      match registers r with
      | none => .error (.readBeforeWrite r)
      | some v => .ok v

/-- The region of an access. -/
inductive Region
  | input | output | constant
  deriving DecidableEq, Repr

/-- The displacement: the constants met so far, its value, and whether it is the label of one. -/
def displacement (constants : List String) (disp : String) : List String × ℤ × Bool :=
  let text := String.ofList
    ((disp.toList.dropWhile Char.isWhitespace).reverse.dropWhile Char.isWhitespace).reverse
  if text = "" then (constants, 0, false)
  else match readInt text with
    | some n => (constants, n, false)
    | none =>
      let constants' := if text ∈ constants then constants else constants ++ [text]
      (constants', constantBase + constants'.idxOf text * 4, true)

/-- `registers[base]`, of a register of a memory operand that counts. -/
def addressTerm (registers : String → Option ℤ) : Option String → Except X86Error ℤ
  | none => .ok 0
  | some r =>
    match registers r with
    | none => .error (.missingRegister r)
    | some v => .ok v

/-- The base register of a memory operand, unless it is `rip`. -/
def baseRegister (m : MemoryOperand) : Option String :=
  (m.base.bind canonicalRegister).filter (· ≠ "rip")

def indexRegister (m : MemoryOperand) : Option String := m.index.bind canonicalRegister

/-- `evaluate_memory`: the constants met so far, the address and its region. -/
def evaluateMemory (operand : String) (registers : String → Option ℤ) (constants : List String) :
    Except X86Error (List String × ℤ × Region) :=
  match memoryOperand? operand with
  | none => .error (.unsupportedMemory operand)
  | some m => do
    let d := displacement constants m.disp
    let base ← addressTerm registers (baseRegister m)
    let index ← addressTerm registers (indexRegister m)
    let address := d.2.1 + base + index * m.scale
    .ok (d.1, address, if d.2.2 then .constant else if address < 0x200000 then .input else .output)

/-! ### Evaluation -/

/-- What an instruction writes: a register, the flags, the labels of constants. A write to
`registers[None]` is left out, since nothing reads it. -/
structure Effect where
  register : Option (String × ℤ) := none
  flags : Option Flags := none
  constants : Option (List String) := none
  deriving DecidableEq, Repr

def ScalarState.apply (s : ScalarState) (e : Effect) : ScalarState where
  registers := match e.register with
    | none => s.registers
    | some (r, v) => Function.update s.registers r (some v)
  flags := e.flags.getD s.flags
  constants := e.constants.getD s.constants

/-- `value & mask`. -/
def wrap (value : ℤ) : ℤ := value % 2 ^ 64

/-- `write_flags`. -/
def flagsOf (result : ℤ) (cf : Bool) (of : Bool) : Flags where
  zf := wrap result = 0
  cf := cf
  sf := (wrap result).testBit 63
  of := of

/-- The width that `write_register` takes from the name of a register. -/
def registerBits (token : String) : ℕ :=
  let name := (normalized token).toList.dropWhile (· = '%')
  if name.getLast? = some 'd' ∨ name.head? = some 'e' then 32 else 64

/-- `write_register`. -/
def writeRegister (token : String) (value : ℤ) : Option (String × ℤ) :=
  (canonicalRegister token).map fun r => (r, value % 2 ^ registerBits token)

/-- `operands[0]` and `operands[-1]`. -/
def operandPair (i : StaticInstruction) : Except X86Error (String × String) :=
  match i.operands.head?, i.operands.getLast? with
  | some a, some b => .ok (a, b)
  | _, _ => .error .missingOperand

/-- A move of a value, sign- or zero-extended as the mnemonic says. -/
def movedValue (mnemonic : String) (value : ℤ) : ℤ :=
  if mnemonic = "movslq" then
    if (value % 2 ^ 32).testBit 31 then value % 2 ^ 32 - 2 ^ 32 else value % 2 ^ 32
  else if mnemonic = "movzbl" then value % 2 ^ 8
  else value

/-- The sum of `addq`, with its flags. -/
def addFlags (old source : ℤ) : ℤ × Flags :=
  let result := wrap (old + source)
  (result, flagsOf result (2 ^ 64 - 1 < old + source)
    ((Int.land (Int.lnot (Int.xor old source)) (Int.xor old result)).testBit 63))

/-- The difference of `subq` and `cmpq`, with its flags. -/
def subFlags (old source : ℤ) : ℤ × Flags :=
  let result := wrap (old - source)
  (result, flagsOf result (old < source)
    ((Int.land (Int.xor old source) (Int.xor old result)).testBit 63))

/-- The result of `andq`, `orq`, `xorl` and `xorq`. -/
def logicResult (mnemonic : String) (left right : ℤ) : ℤ :=
  if mnemonic = "andq" then Int.land left right
  else if mnemonic = "orq" then Int.lor left right
  else Int.xor left right

/-- The result of a shift and its carry, for a count that is not zero. -/
def shiftResult (mnemonic : String) (old : ℤ) (count : ℕ) : ℤ × Bool :=
  if mnemonic = "salq" ∨ mnemonic = "shlq" then (wrap (old * 2 ^ count), old.testBit (64 - count))
  else if mnemonic = "shrq" then (old / 2 ^ count, old.testBit (count - 1))
  else (wrap ((if old.testBit 63 then old - 2 ^ 64 else old) / 2 ^ count), old.testBit (count - 1))

/-- The effect of a shift of a register's value. -/
def shiftEffect (mnemonic : String) (destination : String) (old : ℤ) (count : ℕ) : Effect :=
  if count = 0 then {}
  else
    let r := shiftResult mnemonic old count
    { register := some (destination, r.1), flags := some (flagsOf r.1 r.2 false) }

/-- The effect of `incq` and `decq`: the carry stays. -/
def stepEffect (mnemonic : String) (destination : String) (old : ℤ) (cf : Bool) : Effect :=
  let result := wrap (old + if mnemonic = "incq" then 1 else -1)
  let overflow := if mnemonic = "incq" then old = 2 ^ 63 - 1 else old = 2 ^ 63
  { register := some (destination, result), flags := some (flagsOf result cf overflow) }

/-- The effect of `negq` and `notq`. -/
def negateEffect (mnemonic : String) (destination : String) (old : ℤ) : Effect :=
  if mnemonic = "negq" then
    { register := some (destination, wrap (-old))
      flags := some (flagsOf (wrap (-old)) (old ≠ 0) (old = 2 ^ 63)) }
  else { register := some (destination, wrap (Int.lnot old)) }

/-- `update_scalar_state`: what the instruction writes. -/
def evaluate (i : StaticInstruction) (s : ScalarState) : Except X86Error Effect :=
  let value (token : String) := scalarOperandValue token s.registers
  if i.mnemonic ∈ ["movl", "movq", "movslq", "movzbl"] then do
    let o ← operandPair i
    let v ← value o.1
    .ok { register := writeRegister o.2 (movedValue i.mnemonic v) }
  else if i.mnemonic ∈ ["addq", "subq"] then do
    let o ← operandPair i
    match canonicalRegister o.2 with
    | none => .ok {}
    | some d => do
      let old ← value o.2
      let source ← value o.1
      let r := if i.mnemonic = "addq" then addFlags old (wrap source) else subFlags old (wrap source)
      .ok { register := some (d, r.1), flags := some r.2 }
  else if i.mnemonic ∈ ["andq", "orq", "xorl", "xorq"] then do
    let o ← operandPair i
    match canonicalRegister o.2 with
    | none => .ok {}
    | some _ => do
      let left ← value o.2
      let right ← value o.1
      let result := logicResult i.mnemonic left right
      .ok { register := writeRegister o.2 result, flags := some (flagsOf result false false) }
  else if i.mnemonic ∈ ["salq", "sarq", "shlq", "shrq"] then do
    let o ← operandPair i
    match canonicalRegister o.2 with
    | none => .ok {}
    | some d => do
      let count ← value o.1
      let old ← value o.2
      .ok (shiftEffect i.mnemonic d (wrap old) (count % 64).toNat)
  else if i.mnemonic ∈ ["decq", "incq"] then do
    let o ← operandPair i
    match canonicalRegister o.2 with
    | none => .ok {}
    | some d => do
      let old ← value o.2
      .ok (stepEffect i.mnemonic d (wrap old) s.flags.cf)
  else if i.mnemonic ∈ ["negq", "notq"] then do
    let o ← operandPair i
    match canonicalRegister o.2 with
    | none => .ok {}
    | some d => do
      let old ← value o.2
      .ok (negateEffect i.mnemonic d (wrap old))
  else if i.mnemonic = "leaq" then do
    let o ← operandPair i
    let a ← evaluateMemory o.1 s.registers s.constants
    .ok { register := (canonicalRegister o.2).map fun d => (d, a.2.1), constants := some a.1 }
  else if i.mnemonic = "testq" then do
    let o ← operandPair i
    let left ← value o.2
    let right ← value o.1
    .ok { flags := some (flagsOf (Int.land left right) false false) }
  else if i.mnemonic = "cmpq" then do
    let o ← operandPair i
    let source ← value o.1
    let old ← value o.2
    .ok { flags := some (subFlags (wrap old) (wrap source)).2 }
  else .ok {}

/-- `update_scalar_state`. -/
def updateScalarState (i : StaticInstruction) (s : ScalarState) : Except X86Error ScalarState :=
  (evaluate i s).map s.apply

/-- `branch_taken`. -/
def branchTaken (mnemonic : String) (f : Flags) : Except X86Error Bool :=
  if mnemonic ∈ unconditionalBranches then .ok true
  else if mnemonic ∈ ["je", "jz"] then .ok f.zf
  else if mnemonic ∈ ["jne", "jnz"] then .ok !f.zf
  else if mnemonic ∈ ["jb", "jc", "jnae"] then .ok f.cf
  else if mnemonic ∈ ["jae", "jnb", "jnc"] then .ok !f.cf
  else if mnemonic ∈ ["jbe", "jna"] then .ok (f.cf || f.zf)
  else if mnemonic ∈ ["ja", "jnbe"] then .ok (!f.cf && !f.zf)
  else if mnemonic ∈ ["jl", "jnge"] then .ok (f.sf != f.of)
  else if mnemonic ∈ ["jge", "jnl"] then .ok (f.sf == f.of)
  else if mnemonic ∈ ["jle", "jng"] then .ok (f.zf || f.sf != f.of)
  else if mnemonic ∈ ["jg", "jnle"] then .ok (!f.zf && f.sf == f.of)
  else if mnemonic = "jo" then .ok f.of
  else if mnemonic = "jno" then .ok !f.of
  else if mnemonic = "js" then .ok f.sf
  else if mnemonic = "jns" then .ok !f.sf
  else .error (.unsupportedBranch mnemonic)

/-! ### Execution -/

/-- The width that `%(zmm|ymm|xmm)\d+` finds in an operand. -/
def vectorWidth? (operand : String) : Option ℕ :=
  operand.toList.tails.findSome? fun
    | '%' :: c :: 'm' :: 'm' :: d :: _ =>
      if d.isDigit then
        if c = 'z' then some 512 else if c = 'y' then some 256 else if c = 'x' then some 128 else none
      else none
    | _ => none

/-- `access_bytes`. -/
def accessBytes (i : StaticInstruction) : ℕ :=
  if i.mnemonic = "movb" then 1
  else if i.mnemonic = "movw" then 2
  else if i.mnemonic ∈ ["movl", "vmovss", "vbroadcastss"] then 4
  else if i.mnemonic ∈ ["movq", "vmovsd", "vmovlps", "vmovhps", "vbroadcastsd"] then 8
  else (i.operands.findSome? vectorWidth?).getD 32 / 8

/-- What the loop of `build_dynamic_trace` carries from one instruction to the next. -/
structure Execution where
  pc : ℕ
  state : ScalarState
  lastRegisterWriter : String → Option Id
  lastFlagsWriter : Option Id
  lastStoreByLine : ℤ → Option Id
  instructions : List Instruction

structure Program where
  static : List StaticInstruction
  labels : List (String × ℕ)
  /-- The semantic recipes by mnemonic and form. -/
  recipes : List ((String × String) × List SemanticKind)

/-- The memory operand whose address the frontend records. -/
def recordedOperand (i : StaticInstruction) : Option String :=
  if i.mnemonic = "leaq" then none else i.operands.find? fun o => '(' ∈ o.toList

/-- An access with its region and the offset in it. -/
structure RegionAccess where
  access : MemoryAccess
  region : Region
  offset : ℤ
  deriving DecidableEq, Repr

/-- The base that the offset of an access is taken from. -/
def regionBase (address : ℤ) : Region → ℤ
  | .input => inputBase
  | .output => outputBase
  | .constant => address

/-- The `memory` of an instruction, with the constants it refers to. -/
def memoryOf (s : ScalarState) (i : StaticInstruction) :
    Except X86Error (List String × Option RegionAccess) :=
  match recordedOperand i with
  | none => .ok (s.constants, none)
  | some operand => do
    let a ← evaluateMemory operand s.registers s.constants
    let size := accessBytes i
    .ok (a.1, some {
      region := a.2.2
      offset := a.2.1 - regionBase a.2.1 a.2.2
      access := {
        address := a.2.1, bytes := size, cacheLines := cacheLinesOf a.2.1 size 64,
        access := if i.operands.getLast? = some operand then .store else .load,
        addressRegisters := registersInMemory operand } })

/-- The registers with their last writers, where they have one. -/
def writersOf (last : String → Option Id) (registers : List String) : List (String × Id) :=
  registers.filterMap fun r => (last r).map fun w => (r, w)

/-- The recipe of a mnemonic in a form, or in any. -/
def kindsOf (p : Program) (i : StaticInstruction) : List SemanticKind :=
  match (p.recipes.lookup (i.mnemonic, operandForm i.operands)).getD [] with
  | [] => (p.recipes.lookup (i.mnemonic, "any")).getD []
  | kinds => kinds

/-- The dynamic instruction that an instruction becomes, with the region of its access. -/
structure Recorded where
  constants : List String
  memory : Option RegionAccess
  dynamic : Instruction
  deriving DecidableEq, Repr

def record (p : Program) (x : Execution) (i : StaticInstruction) : Except X86Error Recorded := do
  let roles := registerRoles i
  let m ← memoryOf x.state i
  let lines := (m.2.map (·.access.cacheLines)).getD []
  match kindsOf p i with
  | [] => .error (.noRecipe i.mnemonic)
  | kinds => .ok {
      constants := m.1
      memory := m.2
      dynamic := {
        id := x.instructions.length
        sequence := x.instructions.length
        mnemonic := i.mnemonic
        form := operandForm i.operands
        operands := i.operands
        registerReads := roles.reads
        registerWrites := roles.writes
        registerDependencies := writersOf x.lastRegisterWriter roles.reads
        flagsDependency := if roles.readsFlags then x.lastFlagsWriter else none
        memoryDependencies := sorted (lines.filterMap x.lastStoreByLine)
        memory := m.2.map (·.access)
        semanticUops := kinds.map fun k => { kind := k } } }

/-- The state after the instruction was appended: it is the last writer of what it writes. -/
def append (x : Execution) (i : StaticInstruction) (r : Recorded) : Execution :=
  { x with
    state := { x.state with constants := r.constants }
    instructions := x.instructions ++ [r.dynamic]
    lastRegisterWriter := fun k => if k ∈ (registerRoles i).writes then some r.dynamic.id else x.lastRegisterWriter k
    lastFlagsWriter := if (registerRoles i).writesFlags then some r.dynamic.id else x.lastFlagsWriter
    lastStoreByLine := fun l =>
      if r.dynamic.memory.any (fun m => m.access = .store && l ∈ m.cacheLines) then some r.dynamic.id
      else x.lastStoreByLine l }

/-- The instruction is a branch that is taken. -/
def leaves (f : Flags) (i : StaticInstruction) : Except X86Error Bool :=
  if i.mnemonic ∈ branches then branchTaken i.mnemonic f else .ok false

/-- Where execution goes on after an instruction. -/
def advance (p : Program) (x : Execution) (i : StaticInstruction) : Except X86Error (Execution × Bool) :=
  if i.mnemonic = "ret" then .ok (x, false)
  else do
    let taken ← leaves x.state.flags i
    if taken then
      match i.operands.getLast? with
      | none => .error .missingOperand
      | some target =>
        match p.labels.lookup target with
        | none => .error (.unknownTarget target)
        | some pc => .ok ({ x with pc := pc }, true)
    else .ok ({ x with pc := x.pc + 1 }, true)

/-- An instruction the frontend comes by, with what it records of it. -/
structure Item where
  static : StaticInstruction
  recorded : Recorded
  deriving DecidableEq, Repr

/-- One turn of the loop: the item, the state after it and whether the loop goes on. -/
def execute (p : Program) (x : Execution) (i : StaticInstruction) : Except X86Error (Item × Execution × Bool) := do
  let r ← record p x i
  let y := append x i r
  let s ← updateScalarState i y.state
  let z ← advance p { y with state := s } i
  .ok (⟨i, r⟩, z)

/-- One turn of the loop, where an instruction is left. -/
def step (p : Program) (x : Execution) : Option (Except X86Error (Item × Execution × Bool)) :=
  (p.static[x.pc]?).map (execute p x)

/-- The registers at the start. -/
def initialRegisters (count : ℕ) : String → Option ℤ
  | "rdi" => some inputBase
  | "rsi" => some outputBase
  | "rdx" => some count
  | "rax" => some 0
  | "rcx" => some 0
  | _ => none

def initial (count : ℕ) : Execution where
  pc := 0
  state := { registers := initialRegisters count, flags := {}, constants := [] }
  lastRegisterWriter := fun _ => none
  lastFlagsWriter := none
  lastStoreByLine := fun _ => none
  instructions := []

/-- The turns the loop may make. -/
def maxSteps (count : ℕ) : ℕ := 1000 + count * 16

/-- `build_dynamic_trace`: the instructions of the trace. -/
def buildDynamicTrace (p : Program) (count : ℕ) : Except X86Error (List Instruction) := do
  check (0 < count ∧ count % 16 = 0) .invalidCount
  let x ← Trail.run (step p) .exceededBound (maxSteps count) (initial count)
  .ok x.instructions

end X86
end VectorSim
