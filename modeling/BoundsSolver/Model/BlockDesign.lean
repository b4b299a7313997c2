/-
# Balanced incomplete block designs

A design is a matrix of zeros and ones with a row for each object and a column
for each block.  All rows have the same number of ones, so have all columns, and
any two rows have a one in common in the same number of columns.

Rows and columns may be permuted without changing this; the model keeps designs
whose rows and columns are in lexicographic order.

The only constraints that a problem may refuse here are those that count ones.
Counts that exceed the number of places are therefore refused before anything is
built.
-/

import BoundsSolver.Model.Basic

namespace BoundsSolver

/-- The parameters of a block design. -/
structure DesignParameters where
  objects : Nat
  blocks : Nat
  /-- The number of blocks that hold an object. -/
  replication : Nat
  /-- The number of objects in a block. -/
  blockSize : Nat
  /-- The number of blocks that hold both of two objects. -/
  concurrence : Nat
  deriving DecidableEq, Repr

/-- The model of a block design. -/
structure BlockDesign where
  parameters : DesignParameters
  problem : Problem

namespace DesignParameters

/-- Whether an object is in a block. -/
def entry (d : DesignParameters) (object block : Nat) : VariableId :=
  ⟨object * d.blocks + block⟩

/-- Whether both objects of the pair at a position are in a block. -/
def together (d : DesignParameters) (pair block : Nat) : VariableId :=
  ⟨d.objects * d.blocks + pair * d.blocks + block⟩

def row (d : DesignParameters) (object : Nat) : List VariableId :=
  (List.range d.blocks).map (d.entry object)

def column (d : DesignParameters) (block : Nat) : List VariableId :=
  (List.range d.objects).map (d.entry · block)

/-- Every object is in the same number of blocks. -/
def rowCounts (d : DesignParameters) : List Posting :=
  (List.range d.objects).map fun object => ⟨.exactlyEq, d.row object, [1, d.replication]⟩

/-- Every block holds the same number of objects. -/
def columnCounts (d : DesignParameters) : List Posting :=
  (List.range d.blocks).map fun block => ⟨.exactlyEq, d.column block, [1, d.blockSize]⟩

/-- Two objects are together in so many blocks. -/
def pairCount (d : DesignParameters) (pair first second : Nat) : List Posting :=
  (List.range d.blocks).map (fun block =>
    ⟨.andEq, [d.entry first block, d.entry second block, d.together pair block], []⟩) ++
  [⟨.exactlyEq, (List.range d.blocks).map (d.together pair), [1, d.concurrence]⟩]

/-- Any two objects are together in the same number of blocks. -/
def pairCounts (d : DesignParameters) : List Posting :=
  (pairs d.objects).zipIdx.flatMap fun ((first, second), pair) => d.pairCount pair first second

/-- Rows are in lexicographic order. -/
def rowOrder (d : DesignParameters) : List Posting :=
  (List.range (d.objects - 1)).map fun object =>
    ⟨.lexicographicLeq, d.row object ++ d.row (object + 1), []⟩

/-- Columns are in lexicographic order. -/
def columnOrder (d : DesignParameters) : List Posting :=
  (List.range (d.blocks - 1)).map fun block =>
    ⟨.lexicographicLeq, d.column block ++ d.column (block + 1), []⟩

def postings (d : DesignParameters) : List Posting :=
  d.rowCounts ++ d.columnCounts ++ d.pairCounts ++ d.rowOrder ++ d.columnOrder

/-- No count exceeds the number of places for ones. -/
def CountsFit (d : DesignParameters) : Prop :=
  d.replication ≤ d.blocks ∧ d.blockSize ≤ d.objects ∧ (2 ≤ d.objects → d.concurrence ≤ d.blocks)

instance (d : DesignParameters) : Decidable d.CountsFit := inferInstanceAs (Decidable (_ ∧ _))

/-- The number of variables: the matrix, and for each pair of objects one per block. -/
def size (d : DesignParameters) : Nat :=
  d.objects * d.blocks + (pairs d.objects).length * d.blocks

/-- The model for the parameters of a design. -/
def model (d : DesignParameters) : Except ModelError BlockDesign := do
  if d.objects = 0 ∨ d.blocks = 0 then .error (.invalidInstance .blockDesign .emptyDesign)
  let _ ← ModelKind.blockDesign.parameter d.replication
  let _ ← ModelKind.blockDesign.parameter d.blockSize
  let _ ← ModelKind.blockDesign.parameter d.concurrence
  if d.CountsFit then
    let p := Problem.ofIntervals (List.replicate d.size ⟨0, 1⟩)
    let p ← (p.post d.postings).mapError (.build ·.cause)
    return ⟨d, p⟩
  else .error (.build (.invalidParameter .exactlyEq .countOutOfRange))

end DesignParameters

namespace BlockDesign

/-- The variable that says whether an object is in a block; blocks beyond the last are
those of the next object. -/
def incidence (m : BlockDesign) (object block : Nat) : Checked VariableId := do
  let start ← Width.index.mul object m.parameters.blocks
  let position ← Width.index.add start block
  let size := m.parameters.objects * m.parameters.blocks
  if position < size then return ⟨position.toNat⟩ else .error (.outOfBounds size position.toNat)

/-- The matrix of a solution, row by row. -/
def matrix (m : BlockDesign) (values : List Int) : Checked (List (List Int)) :=
  (List.range m.parameters.objects).mapM fun object =>
    (m.parameters.row object).mapM fun x => x.valueIn values

end BlockDesign
end BoundsSolver
