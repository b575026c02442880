/-
# The RVV frontend

`src/frontends/rvv.py`: a compiled kernel is executed with concrete scalar
registers, and every instruction it comes by is recorded with the registers it
reads and writes, the instructions they come from, its memory access and its
vector state. The assembly text is parsed before; a program here is the list of
its instructions and the positions of its labels.
-/
import VectorSim.Operands
import VectorSim.Lib.Checked

namespace VectorSim
namespace Rvv

open Checked

/-- `StaticInstruction`. -/
structure StaticInstruction where
  mnemonic : String
  operands : List String
  deriving DecidableEq, Repr

/-- What `build_dynamic_trace` raises. -/
inductive RvvError
  /-- "vector register group exceeds v31" -/
  | groupExceeds (register : String)
  /-- "unsupported memory operand" -/
  | unsupportedMemory (operand : String)
  /-- "missing memory operand" -/
  | missingMemory (mnemonic : String)
  /-- "executed before vsetvli" -/
  | beforeVsetvli (mnemonic : String)
  /-- "invalid vsetvli operands" -/
  | invalidVsetvli
  /-- "vsetvli is missing SEW/LMUL" -/
  | missingSewLmul
  /-- "vsetvli zero, zero requires an established VL" -/
  | noEstablishedVl
  /-- "no semantic recipe" -/
  | noRecipe (mnemonic : String)
  /-- "unknown branch target" -/
  | unknownTarget (label : String)
  /-- "RVV dynamic expansion exceeded safety bound" -/
  | exceededBound
  /-- "RVV kernel requires count > 0", "RVV VLEN must be a positive multiple of 8 bits" -/
  | invalidArgument
  /-- `int` of a text that is no number, a negative shift count, a missing operand, an element
  width of zero -/
  | invalidOperand
  deriving DecidableEq, Repr

def inputBase : ℕ := 0x100000
def outputBase : ℕ := 0x200000
def stackBase : ℕ := 0x300000
def constantBase : ℕ := 0x400000

def branches : List String := ["beq", "bgeu", "bgtu", "bltu", "j"]
def returns : List String := ["ret", "jr"]
def loads : List String := ["ld", "flw", "vle32.v"]
def stores : List String := ["sd", "fsw", "vse32.v"]
/-- `VECTOR_FMA`. -/
def vectorFma : List String := ["vfmacc.vf", "vfmacc.vv"]
def scalarOps : List String := ["add", "addi", "sub", "slli"]

/-! ### Operands -/

/-- The registers that `canonical_register` matches. -/
def registerNames : List String :=
  scalarRegisters ++ fpRegisters ++ vectorRegisters

/-- `canonical_register`. -/
def canonicalRegister (token : String) : Option String :=
  if normalized token ∈ registerNames then some (normalized token) else none

/-- The index `VECTOR_REGISTER_RE` finds in a register. -/
def vectorIndex (register : String) : Option ℕ := (List.range 32).find? fun i => s!"v{i}" = register

/-- `max(1, int(lmul))` of a state, `m1` where there is none. -/
def groupSize (lmul : Option Lmul) : ℕ := max 1 ⌊(lmul.getD .m1).value⌋.toNat

/-- `vector_group`. -/
def vectorGroup (register : String) (lmul : Option Lmul) : Except RvvError (List String) :=
  match vectorIndex register with
  | none => .ok [register]
  | some start =>
    if 32 < start + groupSize lmul then .error (.groupExceeds register)
    else .ok ((List.range' start (groupSize lmul)).map fun i => s!"v{i}")

/-- The match of `MEMORY_RE`: displacement and base of an operand `disp(base)`. -/
def memoryOperand? (operand : String) : Option (String × String) :=
  match operand.toList.reverse with
  | ')' :: rest =>
    let base := (rest.takeWhile (· ≠ '(')).reverse
    match base, rest.dropWhile (· ≠ '(') with
    | c :: cs, _ :: disp =>
      if c.isAlpha ∧ cs.all Char.isAlphanum then some (String.ofList disp.reverse, String.ofList (c :: cs))
      else none
    | _, _ => none
  | _ => none

/-- `registers_in_memory`. -/
def registersInMemory (operand : String) : List String :=
  match memoryOperand? operand with
  | none => []
  | some (_, base) =>
    match canonicalRegister base with
    | none => []
    | some r => if r = "zero" then [] else [r]

/-- `add_operand_registers`: what the operand adds to a list of registers. -/
def operandRegisters (lmul : Option Lmul) (operand : String) : Except RvvError (List String) :=
  match canonicalRegister operand with
  | none => .ok []
  | some r => if r = "zero" then .ok [] else vectorGroup r lmul

/-- `add_operand_registers` for each operand. -/
def allOperandRegisters (lmul : Option Lmul) (operands : List String) : Except RvvError (List String) := do
  let groups ← operands.mapM (operandRegisters lmul)
  .ok groups.flatten

/-! ### Register roles -/

/-- `mnemonic.startswith("v")`. -/
def isVectorMnemonic (mnemonic : String) : Bool := mnemonic.toList.head? = some 'v'

def vconfigIf (b : Bool) : List String := if b then ["vconfig"] else []

/-- The chain of cases of `register_roles`: what is read besides the memory operands, and what is
written. -/
def mnemonicRoles (lmul : Option Lmul) (i : StaticInstruction) :
    Except RvvError (List String × List String) :=
  let vector := isVectorMnemonic i.mnemonic
  let first := allOperandRegisters lmul i.operands.head?.toList
  let others := allOperandRegisters lmul i.operands.tail
  if i.mnemonic ∈ returns then
    if i.mnemonic = "ret" then .ok (["ra"], []) else first.map fun r => (r, [])
  else if i.mnemonic ∈ branches then
    if i.mnemonic = "j" then .ok ([], [])
    else (allOperandRegisters lmul i.operands.dropLast).map fun r => (r, [])
  else if i.mnemonic ∈ stores then first.map fun r => (r ++ vconfigIf vector, [])
  else if i.mnemonic ∈ loads then first.map fun w => (vconfigIf vector, w)
  else if i.mnemonic = "vsetvli" then do
    let reads ← allOperandRegisters lmul (i.operands.tail.head?.toList)
    let writes ← first
    .ok (reads, writes ++ ["vconfig"])
  else if i.mnemonic ∈ ["li", "lui"] then first.map fun w => ([], w)
  else if i.mnemonic ∈ scalarOps then do
    let writes ← first
    let reads ← others
    .ok (reads, writes)
  else do
    let writes ← first
    let reads ← others
    .ok (vconfigIf vector ++ (if i.mnemonic ∈ vectorFma then writes else []) ++ reads, writes)

/-- `register_roles`: the registers an instruction reads and writes. -/
def registerRoles (lmul : Option Lmul) (i : StaticInstruction) :
    Except RvvError (List String × List String) := do
  let r ← mnemonicRoles lmul i
  .ok (orderedUnique (i.operands.flatMap registersInMemory ++ r.1), orderedUnique r.2)

/-! ### Scalar values -/

/-- `int(text, 0)`. -/
def parseInt (text : String) : Except RvvError ℤ :=
  match readInt text with
  | some n => .ok n
  | none => .error .invalidOperand

/-- `scalar_value`. -/
def scalarValue (registers : String → ℕ) (operand : String) : Except RvvError ℤ :=
  match canonicalRegister operand with
  | some r => .ok (if r = "zero" then 0 else registers r)
  | none => parseInt operand

/-- The `[^)]+` of a relocation `%hi(...)` or `%lo(...)`. -/
def relocation? (kind : String) (text : String) : Option String :=
  let opening := ('%' :: kind.toList) ++ ['(']
  if opening.isPrefixOf text.toList then
    match (text.toList.drop opening.length).reverse with
    | ')' :: rest => if rest ≠ [] ∧ ')' ∉ rest then some (String.ofList rest.reverse) else none
    | _ => none
  else none

/-- `constant_address`: the labels met so far, in order, and the address of one. -/
def constantAddress (constants : List String) (label : String) : List String × ℤ :=
  let constants' := if label ∈ constants then constants else constants ++ [label]
  (constants', constantBase + constants'.idxOf label * 64)

/-- `evaluate_memory`: the constants and the address. -/
def evaluateMemory (registers : String → ℕ) (constants : List String) (operand : String) :
    Except RvvError (List String × ℤ) :=
  match memoryOperand? operand with
  | none => .error (.unsupportedMemory operand)
  | some (disp, base) =>
    match relocation? "lo" disp with
    | some label => .ok (constantAddress constants label)
    | none => do
      let offset ← parseInt (if disp = "" then "0" else disp)
      match canonicalRegister base with
      | some r => .ok (constants, (if r = "zero" then 0 else (registers r : ℤ)) + offset)
      | none => .ok (constants, offset)

/-! ### Vector state -/

inductive TailPolicy
  | agnostic | undisturbed
  deriving DecidableEq, Repr

/-- The `vector_state` of the frontend. Nothing reads the mask policy. -/
structure State extends VectorState where
  vlmax : Option ℕ := none
  tailPolicy : Option TailPolicy := none
  deriving DecidableEq, Repr

def lmulToken : String → Option Lmul
  | "mf8" => some .mf8 | "mf4" => some .mf4 | "mf2" => some .mf2 | "m1" => some .m1
  | "m2" => some .m2 | "m4" => some .m4 | "m8" => some .m8
  | _ => none

/-- The width of a token `e{digits}`. -/
def sewToken (token : String) : Option ℕ :=
  match token.toList with
  | 'e' :: cs => if cs ≠ [] ∧ cs.all Char.isDigit then some (cs.foldl (fun n c => n * 10 + digitValue c) 0) else none
  | _ => none

def tailToken : String → Option TailPolicy
  | "ta" => some .agnostic
  | "tu" => some .undisturbed
  | _ => none

/-- The last token of a kind. -/
def lastToken {α : Type} (read : String → Option α) (tokens : List String) : Option α :=
  (tokens.filterMap read).getLast?

/-- The register `zero` in both places: the vector length stays what it is. -/
def keepsVl (destination source : String) : Prop :=
  canonicalRegister source = some "zero" ∧ canonicalRegister destination = some "zero"

instance (destination source : String) : Decidable (keepsVl destination source) := by
  unfold keepsVl; infer_instance

/-- The vector length a `vsetvli` sets. The source takes the minimum with a negative immediate too, which is
no AVL. -/
def newVl (registers : String → ℕ) (previous : State) (destination source : String) (vlmax : ℕ) :
    Except RvvError ℕ :=
  if keepsVl destination source then
    match previous.vl with
    | some vl => .ok vl
    | none => .error .noEstablishedVl
  else if canonicalRegister source = some "zero" then .ok vlmax
  else do
    let avl ← scalarValue registers source
    check (0 ≤ avl) .invalidOperand
    .ok (min avl.toNat vlmax)

/-- `vector_state_from_operands`. -/
def vectorStateFromOperands (registers : String → ℕ) (previous : State) (operands : List String) :
    Except RvvError State :=
  match operands with
  | destination :: source :: rest => do
    check (rest ≠ []) .invalidVsetvli
    let tokens := rest.map String.toLower
    match lastToken sewToken tokens, lastToken lmulToken tokens with
    | some sew, some lmul => do
      check (sew ≠ 0) .invalidOperand
      let vlmax := ⌊(previous.vlenBits : ℚ) / sew * lmul.value⌋.toNat
      let vl ← newVl registers previous destination source vlmax
      .ok { vlenBits := previous.vlenBits, sewBits := some sew, lmul := some lmul, vl := some vl,
            vlmax := some vlmax, tailPolicy := lastToken tailToken tokens }
    | _, _ => .error .missingSewLmul
  | _ => .error .invalidVsetvli

/-- `access_bytes`. -/
def accessBytes (mnemonic : String) (state : State) : Except RvvError ℕ :=
  if mnemonic ∈ ["ld", "sd"] then .ok 8
  else if mnemonic ∈ ["flw", "fsw"] then .ok 4
  else match state.vl with
    | some vl => .ok (vl * 4)
    | none => .error (.beforeVsetvli mnemonic)

/-! ### Execution -/

/-- What the loop of `build_dynamic_trace` carries from one instruction to the next. -/
structure Execution where
  pc : ℕ
  registers : String → ℕ
  stack : ℤ → ℤ
  constants : List String
  vectorState : State
  lastRegisterWriter : String → Option Id
  lastStoreByLine : ℤ → Option Id
  instructions : List Instruction

structure Program where
  static : List StaticInstruction
  labels : List (String × ℕ)
  /-- The semantic recipes of a mnemonic's form `any`. -/
  recipes : List (String × List SemanticKind)

def mask64 (value : ℤ) : ℕ := (value % 2 ^ 64).toNat

def operandAt (i : StaticInstruction) (k : ℕ) : Except RvvError String :=
  match i.operands[k]? with
  | some o => .ok o
  | none => .error .invalidOperand

/-- The `write` of `update_scalar_state`. -/
def writeRegister (registers : String → ℕ) (destination : String) (value : ℤ) : String → ℕ :=
  match canonicalRegister destination with
  | some r => if r = "zero" then registers else Function.update registers r (mask64 value)
  | none => registers

/-- The value of an `add`, `addi`, `sub` or `slli`. -/
def arithmetic (mnemonic : String) (left right : ℤ) : Except RvvError ℤ :=
  if mnemonic ∈ ["add", "addi"] then .ok (left + right)
  else if mnemonic = "sub" then .ok (left - right)
  else if right < 0 then .error .invalidOperand
  else .ok (left * 2 ^ right.toNat)

/-- `update_scalar_state`. -/
def updateScalarState (x : Execution) (i : StaticInstruction) : Except RvvError Execution :=
  if i.mnemonic = "li" then do
    let v ← scalarValue x.registers (← operandAt i 1)
    .ok { x with registers := writeRegister x.registers (← operandAt i 0) v }
  else if i.mnemonic = "lui" then do
    let source ← operandAt i 1
    match relocation? "hi" source with
    | some label =>
      let c := constantAddress x.constants label
      .ok { x with constants := c.1,
                   registers := writeRegister x.registers (← operandAt i 0) ((c.2 + 0x800) / 0x1000 * 0x1000) }
    | none =>
      let v ← scalarValue x.registers source
      .ok { x with registers := writeRegister x.registers (← operandAt i 0) (v * 2 ^ 12) }
  else if i.mnemonic ∈ scalarOps then do
    let left ← scalarValue x.registers (← operandAt i 1)
    let right ← scalarValue x.registers (← operandAt i 2)
    let v ← arithmetic i.mnemonic left right
    .ok { x with registers := writeRegister x.registers (← operandAt i 0) v }
  else if i.mnemonic = "sd" then do
    let a ← evaluateMemory x.registers x.constants (← operandAt i 1)
    let v ← scalarValue x.registers (← operandAt i 0)
    .ok { x with constants := a.1, stack := Function.update x.stack a.2 v }
  else if i.mnemonic = "ld" then do
    let a ← evaluateMemory x.registers x.constants (← operandAt i 1)
    .ok { x with constants := a.1, registers := writeRegister x.registers (← operandAt i 0) (x.stack a.2) }
  else if i.mnemonic = "vsetvli" then do
    let state ← vectorStateFromOperands x.registers x.vectorState i.operands
    .ok { x with vectorState := state,
                 registers := writeRegister x.registers (← operandAt i 0) ((state.vl.getD 0 : ℕ) : ℤ) }
  else .ok x

/-- `branch_taken`. -/
def branchTaken (registers : String → ℕ) (i : StaticInstruction) : Except RvvError Bool :=
  if i.mnemonic = "j" then .ok true
  else do
    let left := mask64 (← scalarValue registers (← operandAt i 0))
    let right := mask64 (← scalarValue registers (← operandAt i 1))
    if i.mnemonic = "beq" then .ok (left = right)
    else if i.mnemonic = "bgeu" then .ok (right ≤ left)
    else if i.mnemonic = "bgtu" then .ok (right < left)
    else .ok (left < right)

/-- The instruction is a branch that is taken. -/
def leaves (registers : String → ℕ) (i : StaticInstruction) : Except RvvError Bool :=
  if i.mnemonic ∈ branches then branchTaken registers i else .ok false

/-- `semantic_uops`. -/
def semanticUops (kinds : List SemanticKind) (oldDestination : List String) : List SemanticUop :=
  kinds.map fun k =>
    if oldDestination ≠ [] ∧ k ≠ .addressGeneration ∧ k ≠ .vectorConfig then
      { kind := k, readsOldDestination := true, oldDestinationRegisters := oldDestination }
    else { kind := k }

/-- The registers with their last writers, where they have one. -/
def writersOf (last : String → Option Id) (registers : List String) : List (String × Id) :=
  registers.filterMap fun r => (last r).map fun w => (r, w)

/-- The `memory` of an instruction, with the constants it refers to. -/
def memoryOf (x : Execution) (i : StaticInstruction) : Except RvvError (List String × Option MemoryAccess) :=
  if i.mnemonic ∈ loads ∨ i.mnemonic ∈ stores then
    match i.operands.find? fun o => (memoryOperand? o).isSome with
    | none => .error (.missingMemory i.mnemonic)
    | some operand => do
      let a ← evaluateMemory x.registers x.constants operand
      let size ← accessBytes i.mnemonic x.vectorState
      .ok (a.1, some {
        address := a.2, bytes := size, cacheLines := cacheLinesOf a.2 size 64,
        access := if i.mnemonic ∈ stores then .store else .load,
        addressRegisters := registersInMemory operand })
  else .ok (x.constants, none)

/-- The region of an access. -/
inductive Region
  | input | output | stack | constant | other
  deriving DecidableEq, Repr

/-- The displacement of the operand is a relocation `%lo(...)`. -/
def isRelocated (operand : String) : Bool :=
  (memoryOperand? operand).any fun m => (relocation? "lo" m.1).isSome

/-- The region that `evaluate_memory` finds. -/
def regionOf (operand : String) (address : ℤ) : Region :=
  if isRelocated operand then .constant
  else if inputBase ≤ address ∧ address < outputBase then .input
  else if outputBase ≤ address ∧ address < stackBase then .output
  else if (stackBase : ℤ) - 0x10000 ≤ address ∧ address < constantBase then .stack
  else if constantBase ≤ address then .constant
  else .other

/-- The base that the offset of an access is taken from. -/
def regionBase (address : ℤ) : Region → ℤ
  | .input => inputBase
  | .output => outputBase
  | .stack => stackBase
  | .constant => constantBase
  | .other => address

/-- The memory operand of an instruction. -/
def memoryOperand (i : StaticInstruction) : Option String := i.operands.find? fun o => (memoryOperand? o).isSome

/-- The `region` and the `offset` of the `memory` of an instruction. -/
def regionAccess (i : StaticInstruction) (m : MemoryAccess) : Option (Region × ℤ) :=
  (memoryOperand i).map fun operand =>
    (regionOf operand m.address, m.address - regionBase m.address (regionOf operand m.address))

/-- The vector state an instruction is recorded with. -/
def recordedState (x : Execution) (i : StaticInstruction) : Except RvvError (Option State) :=
  if isVectorMnemonic i.mnemonic then
    if i.mnemonic = "vsetvli" then (vectorStateFromOperands x.registers x.vectorState i.operands).map some
    else .ok (some x.vectorState)
  else .ok none

/-- `int(vl) * int(sew_bits)`, where both are known. -/
def activeBits (state : State) : Option ℕ := do
  let vl ← state.vl
  let sew ← state.sewBits
  return vl * sew

/-- The dynamic instruction that an instruction becomes. -/
def record (p : Program) (x : Execution) (i : StaticInstruction) : Except RvvError (List String × Instruction) := do
  let roles ← registerRoles x.vectorState.lmul i
  let reads := roles.1
  let writes := roles.2
  let oldDestination := sorted (reads.filter fun r => r ∈ writes ∧ (vectorIndex r).isSome)
  let destinations := sorted (writes.filter fun r => (vectorIndex r).isSome)
  let dependencies := writersOf x.lastRegisterWriter reads
  let m ← memoryOf x i
  let lines := (m.2.map (·.cacheLines)).getD []
  match (p.recipes.lookup i.mnemonic).getD [] with
  | [] => .error (.noRecipe i.mnemonic)
  | kinds => do
    let state ← recordedState x i
    .ok (m.1, {
      id := x.instructions.length
      sequence := x.instructions.length
      mnemonic := i.mnemonic
      operands := i.operands
      registerReads := reads
      registerWrites := writes
      registerDependencies := dependencies
      memoryDependencies := sorted (lines.filterMap x.lastStoreByLine)
      memory := m.2
      semanticUops := semanticUops kinds oldDestination
      vectorState := state.map (·.toVectorState)
      activeVectorBits := state.bind activeBits
      oldDestinationRegisters := oldDestination
      oldDestinationDependencies := if oldDestination = [] then none
        else some (dependencies.filter (·.1 ∈ oldDestination))
      vectorDestinationRegisters := destinations
      vectorDestinationDependencies := if destinations = [] then none
        else some (writersOf x.lastRegisterWriter destinations) })

/-- The state after the instruction was appended: it is the last writer of what it writes. -/
def append (x : Execution) (constants : List String) (d : Instruction) : Execution :=
  { x with
    constants := constants
    instructions := x.instructions ++ [d]
    lastRegisterWriter := fun r => if r ∈ d.registerWrites ∧ r ≠ "zero" then some d.id else x.lastRegisterWriter r
    lastStoreByLine := fun l =>
      if d.memory.any (fun m => m.access = .store && l ∈ m.cacheLines) then some d.id else x.lastStoreByLine l }

/-- One turn of the loop: the state after it and whether the loop goes on. -/
def step (p : Program) (x : Execution) (i : StaticInstruction) : Except RvvError (Execution × Bool) := do
  let r ← record p x i
  let x ← updateScalarState (append x r.1 r.2) i
  if i.mnemonic ∈ returns then .ok (x, false)
  else do
    let taken ← leaves x.registers i
    if taken then
      match i.operands.getLast? with
      | none => .error .invalidOperand
      | some target =>
        match p.labels.lookup target with
        | none => .error (.unknownTarget target)
        | some pc => .ok ({ x with pc := pc }, true)
    else .ok ({ x with pc := x.pc + 1 }, true)

/-- The loop of `build_dynamic_trace`, with the number of turns it may make. -/
def loop (p : Program) : ℕ → Execution → Except RvvError Execution
  | 0, x => if x.pc < p.static.length then .error .exceededBound else .ok x
  | steps + 1, x =>
    match p.static[x.pc]? with
    | none => .ok x
    | some i => do
      let r ← step p x i
      if r.2 then loop p steps r.1 else .ok r.1

/-- The registers at the start. -/
def initialRegisters (count : ℕ) : String → ℕ
  | "a0" => inputBase
  | "a1" => outputBase
  | "a2" => count
  | "sp" => stackBase
  | _ => 0

def initial (count vlenBits : ℕ) : Execution where
  pc := 0
  registers := initialRegisters count
  stack := fun _ => 0
  constants := []
  vectorState := { vlenBits := vlenBits }
  lastRegisterWriter := fun _ => none
  lastStoreByLine := fun _ => none
  instructions := []

/-- `build_dynamic_trace`: the instructions of the trace. -/
def buildDynamicTrace (p : Program) (count vlenBits : ℕ) : Except RvvError (List Instruction) := do
  check (0 < count) .invalidArgument
  check (0 < vlenBits ∧ vlenBits % 8 = 0) .invalidArgument
  let x ← loop p (10000 + count * 256) (initial count vlenBits)
  .ok x.instructions

end Rvv
end VectorSim
