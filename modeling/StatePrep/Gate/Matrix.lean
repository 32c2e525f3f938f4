import StatePrep.Gate.Basic
import StatePrep.Number.Amplitude

/-! # Matrices of gates

A gate on one qubit acts on the pair of amplitudes for the values zero and one by a matrix with two
rows and two columns. `Gate.matrix?` gives the matrix of every gate but `cx`. -/

namespace StatePrep

/-- A matrix of two rows, `a b` above `c d`. -/
structure Matrix2 (α : Type) where
  a : Amplitude α
  b : Amplitude α
  c : Amplitude α
  d : Amplitude α

namespace Matrix2

section Ring

variable {α : Type} [Scalar α]

def identity : Matrix2 α := ⟨1, 0, 0, 1⟩

/-- The matrix that exchanges the two amplitudes. -/
def flip : Matrix2 α := ⟨0, 1, 1, 0⟩

def entries (m : Matrix2 α) : List (Amplitude α) := [m.a, m.b, m.c, m.d]

instance : Mul (Matrix2 α) :=
  ⟨fun m n => ⟨m.a * n.a + m.b * n.c, m.a * n.b + m.b * n.d,
    m.c * n.a + m.d * n.c, m.c * n.b + m.d * n.d⟩⟩

/-- The image of the amplitudes for the values zero and one. -/
def apply (m : Matrix2 α) (zero one : Amplitude α) : Amplitude α × Amplitude α :=
  (m.a * zero + m.b * one, m.c * zero + m.d * one)

end Ring

section Rotation

variable {α : Type} [Analytic α]

def rx (theta : α) : Matrix2 α :=
  let c := Analytic.cos (Scalar.half theta)
  let s := Analytic.sin (Scalar.half theta)
  ⟨⟨c, 0⟩, ⟨0, -s⟩, ⟨0, -s⟩, ⟨c, 0⟩⟩

def ry (theta : α) : Matrix2 α :=
  let c := Analytic.cos (Scalar.half theta)
  let s := Analytic.sin (Scalar.half theta)
  ⟨⟨c, 0⟩, ⟨-s, 0⟩, ⟨s, 0⟩, ⟨c, 0⟩⟩

/-- The rotation about the `z` axis: opposite phases on the two amplitudes. -/
def rz (theta : α) : Matrix2 α :=
  ⟨.polar 1 (Scalar.half (-theta)), 0, 0, .polar 1 (Scalar.half theta)⟩

def u (theta phi lambda : α) : Matrix2 α :=
  let c := Analytic.cos (Scalar.half theta)
  let s := Analytic.sin (Scalar.half theta)
  ⟨⟨c, 0⟩, -.polar s lambda, .polar s phi, .polar c (phi + lambda)⟩

/-- Whether every two entries in the same place are closer than the tolerance. -/
def isNear (m n : Matrix2 α) (tolerance : α) : Bool :=
  (m.entries.zip n.entries).all fun p => (p.1 - p.2).norm < tolerance

end Rotation

end Matrix2

/-- The matrix of a gate on one qubit. -/
def Gate.matrix? {α : Type} [Analytic α] : Gate α → Option (Matrix2 α)
  | .x => some .flip
  | .rx theta => some (.rx theta)
  | .ry theta => some (.ry theta)
  | .rz theta => some (.rz theta)
  | .u theta phi lambda => some (.u theta phi lambda)
  | .cx => none

end StatePrep
