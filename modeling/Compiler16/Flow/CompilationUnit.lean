import Compiler16.Flow.Graph
import Compiler16.IndexedMap

/-!
# Compilation units

All functions of a program by name, in the order in which they were first put
in, together with the instructions that stand outside of functions and the
constant arrays.  Generic in the instructions `ι` and in what a function is, `φ`.
-/

namespace Compiler16.Flow

/-- The name of the block of global instructions. -/
def globalBlockName : String := "Global"

/-- A compilation unit. -/
structure CompilationUnit (ι φ : Type) where
  /-- The functions by name. -/
  functions : IndexedMap String φ := .empty
  /-- The instructions outside of functions. -/
  globals : Block ι := Block.new 0 (some globalBlockName)
  /-- The arrays by slot, each with its name. -/
  arrays : List (String × List UInt8) := []

namespace CompilationUnit

variable {ι φ : Type}

/-- No function, no global instruction, no array. -/
def empty : CompilationUnit ι φ := {}

/-- Puts a function in; one of the same name gives way to it. -/
def insertFunction (u : CompilationUnit ι φ) (name : String) (f : φ) :
    CompilationUnit ι φ :=
  { u with functions := u.functions.insert name f }

/-- The function of this name. -/
def function (u : CompilationUnit ι φ) (name : String) : Except Error φ :=
  match u.functions.get? name with
  | some f => .ok f
  | none => .error (.functionNotFound name)

/-- Changes the function of this name. -/
def modifyFunction (u : CompilationUnit ι φ) (name : String) (f : φ → φ) :
    Except Error (CompilationUnit ι φ) :=
  match u.functions.get? name with
  | some _ => .ok { u with functions := u.functions.modify name f }
  | none => .error (.functionNotFound name)

/-- Adds a global instruction. -/
def insertGlobal (u : CompilationUnit ι φ) (i : ι) : CompilationUnit ι φ :=
  { u with globals := u.globals.append i }

/-- Changes the block of global instructions. -/
def modifyGlobals (u : CompilationUnit ι φ) (f : Block ι → Block ι) :
    CompilationUnit ι φ :=
  { u with globals := f u.globals }

/-- Adds an array, which takes the next free slot. -/
def insertArray (u : CompilationUnit ι φ) (name : String) (bytes : List UInt8) :
    Nat × CompilationUnit ι φ :=
  (u.arrays.length, { u with arrays := u.arrays ++ [(name, bytes)] })

/-- The bytes of the array in a slot. -/
def array? (u : CompilationUnit ι φ) (slot : Nat) : Option (List UInt8) :=
  u.arrays[slot]?.map Prod.snd

/-- The unit in a listing, given how functions are listed. -/
def text [Instr ι] (functionText : φ → String) (u : CompilationUnit ι φ) : String :=
  "Globals:\n" ++ Block.instLines u.globals.insts ++
    String.join (u.functions.entries.map fun (name, f) =>
      "\nCFG for " ++ name ++ ":\n" ++ functionText f)

@[simp] theorem array?_insertArray (u : CompilationUnit ι φ) (name : String)
    (bytes : List UInt8) :
    (u.insertArray name bytes).2.array? (u.insertArray name bytes).1 = some bytes := by
  simp [insertArray, array?]

end CompilationUnit

end Compiler16.Flow
