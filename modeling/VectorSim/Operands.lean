/-
# Operands and recipe keys

How the frontends and the binder read an operand: integer literals, the
registers' names, and `operand_class` of `src/simulator/profile.py`, from which
the key of an instruction's recipe is made.
-/
import VectorSim.Model

namespace VectorSim

/-- `token.strip().lower()`. -/
def normalized (token : String) : String :=
  let blank : Char → Bool := Char.isWhitespace
  (String.ofList ((token.toList.dropWhile blank).reverse.dropWhile blank).reverse).toLower

/-! ### Integers -/

def digitValue (c : Char) : ℕ :=
  if c.isDigit then c.toNat - '0'.toNat else c.toLower.toNat - 'a'.toNat + 10

def isDigitOf (base : ℕ) (c : Char) : Bool := (c.isDigit || c.isAlpha) && digitValue c < base

/-- Digits with single underscores between them. -/
def parseDigits (base : ℕ) : ℕ → List Char → Option ℕ
  | _, [] => none
  | acc, [c] => if isDigitOf base c then some (acc * base + digitValue c) else none
  | acc, c :: '_' :: cs => if isDigitOf base c then parseDigits base (acc * base + digitValue c) cs else none
  | acc, c :: cs => if isDigitOf base c then parseDigits base (acc * base + digitValue c) cs else none

/-- The digits after an optional underscore that follows a prefix. -/
def parsePrefixed (base : ℕ) : List Char → Option ℕ
  | '_' :: cs => parseDigits base 0 cs
  | cs => parseDigits base 0 cs

/-- An unsigned literal: a prefix for the base, or decimal digits without a leading zero. -/
def parseUnsigned : List Char → Option ℕ
  | '0' :: 'x' :: cs => parsePrefixed 16 cs
  | '0' :: 'o' :: cs => parsePrefixed 8 cs
  | '0' :: 'b' :: cs => parsePrefixed 2 cs
  | '0' :: cs => if (cs.all fun c => c = '0' || c = '_') then parseDigits 10 0 ('0' :: cs) else none
  | cs => parseDigits 10 0 cs

/-- `int(text, 0)`, where it does not raise. -/
def readInt (text : String) : Option ℤ :=
  match (normalized text).toList with
  | '-' :: cs => (parseUnsigned cs).map fun n => -(n : ℤ)
  | '+' :: cs => (parseUnsigned cs).map fun n => (n : ℤ)
  | cs => (parseUnsigned cs).map fun n => (n : ℤ)

/-! ### Registers and recipe keys -/

def scalarRegisters : List String :=
  ["zero", "ra", "sp", "gp", "tp"] ++ (List.range 7).map (s!"t{·}") ++ (List.range 12).map (s!"s{·}") ++
    (List.range 8).map (s!"a{·}")

def fpRegisters : List String :=
  (List.range 12).map (s!"ft{·}") ++ (List.range 12).map (s!"fs{·}") ++ (List.range 8).map (s!"fa{·}")

def vectorRegisters : List String := (List.range 32).map fun i => s!"v{i}"

/-- The classes of `operand_class`. -/
inductive OperandClass
  | zmm | ymm | xmm | memory | immediate | vector | fpRegister | register | other
  deriving DecidableEq, Repr

def OperandClass.name : OperandClass → String
  | .zmm => "zmm" | .ymm => "ymm" | .xmm => "xmm" | .memory => "memory" | .immediate => "immediate"
  | .vector => "vector" | .fpRegister => "fp_register" | .register => "register" | .other => "other"

/-- `[-+]?(?:0x[0-9a-f]+|\d+)`, of a text in lower case. -/
def isNumber (text : List Char) : Bool :=
  let digits := match text with
    | '-' :: cs => cs
    | '+' :: cs => cs
    | cs => cs
  let hex : List Char → Bool := fun cs => cs ≠ [] && cs.all fun c => c.isDigit || ('a' ≤ c && c ≤ 'f')
  match digits with
  | '0' :: 'x' :: cs => hex cs
  | cs => cs ≠ [] && cs.all Char.isDigit

/-- `operand_class`. -/
def operandClass (operand : String) : OperandClass :=
  let token := (normalized operand).toList
  let names (name : String) : Bool := decide (('%' :: name.toList) <:+: token)
  if names "zmm" then .zmm
  else if names "ymm" then .ymm
  else if names "xmm" then .xmm
  else if '(' ∈ token ∨ '[' ∈ token then .memory
  else if token.head? = some '$' ∨ isNumber token then .immediate
  else if normalized operand ∈ vectorRegisters then .vector
  else if normalized operand ∈ fpRegisters then .fpRegister
  else if normalized operand ∈ scalarRegisters then .register
  else if '%' ∈ token then .register
  else .other

/-- `Profile._is_vector_register`. -/
def isVectorRegister (register : String) : Bool :=
  let token := (normalized register).toList.dropWhile (· = '%')
  let numbered (name : String) : Bool :=
    name.toList.isPrefixOf token && token.length > name.length && (token.drop name.length).all Char.isDigit
  String.ofList token ∈ vectorRegisters || numbered "xmm" || numbered "ymm" || numbered "zmm"

/-- `sorted(set(values))`. -/
def sorted {α : Type} [LE α] [DecidableRel fun a b : α => a ≤ b] [DecidableEq α] (values : List α) : List α :=
  values.dedup.insertionSort (· ≤ ·)

@[simp] theorem mem_sorted {α : Type} [LE α] [DecidableRel fun a b : α => a ≤ b] [DecidableEq α]
    {values : List α} {a : α} : a ∈ sorted values ↔ a ∈ values := by
  simp [sorted]

/-- `recipe_keys`: by the classes of the operands, and by the form. -/
def recipeKeys (i : Instruction) : List String :=
  let classes := ",".intercalate (i.operands.map fun o => (operandClass o).name)
  orderedUnique (s!"{i.mnemonic}:{classes}" :: if i.form = "" then [] else [s!"{i.mnemonic}:{i.form}"])

/-- The lines an instruction is recorded to store to. -/
def storedLines (d : Instruction) : List ℤ :=
  match d.memory with
  | none => []
  | some m => if m.access = .store then m.cacheLines else []

theorem mem_storedLines {d : Instruction} {l : ℤ} :
    l ∈ storedLines d ↔ d.memory.any (fun m => m.access = .store && l ∈ m.cacheLines) = true := by
  unfold storedLines
  cases d.memory with
  | none => simp
  | some m => by_cases ha : m.access = .store <;> simp [ha]

end VectorSim
