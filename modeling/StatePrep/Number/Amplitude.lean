import StatePrep.Number.Scalar

/-! # Amplitudes

Complex numbers given by their two parts, with the products and sums in the textbook order: the
product of `a` and `b` has the parts `a.re * b.re - a.im * b.im` and `a.re * b.im + a.im * b.re`. -/

namespace StatePrep

/-- A complex number, by its real and imaginary part. -/
structure Amplitude (α : Type) where
  re : α
  im : α
  deriving BEq

namespace Amplitude

section Ring

variable {α : Type} [Scalar α]

instance : Zero (Amplitude α) := ⟨⟨0, 0⟩⟩

instance : One (Amplitude α) := ⟨⟨1, 0⟩⟩

instance : Inhabited (Amplitude α) := ⟨0⟩

instance : Add (Amplitude α) := ⟨fun a b => ⟨a.re + b.re, a.im + b.im⟩⟩

instance : Sub (Amplitude α) := ⟨fun a b => ⟨a.re - b.re, a.im - b.im⟩⟩

instance : Mul (Amplitude α) :=
  ⟨fun a b => ⟨a.re * b.re - a.im * b.im, a.re * b.im + a.im * b.re⟩⟩

instance : Neg (Amplitude α) := ⟨fun a => ⟨-a.re, -a.im⟩⟩

def conj (a : Amplitude α) : Amplitude α := ⟨a.re, -a.im⟩

def normSq (a : Amplitude α) : α := a.re * a.re + a.im * a.im

/-- The sum of a list, from the left and starting at zero. -/
def total (amps : List (Amplitude α)) : Amplitude α := amps.foldl (· + ·) 0

/-- The total weight of a list: the sum of the squared magnitudes, from the left. -/
def weight (amps : List (Amplitude α)) : α := amps.foldl (fun s a => s + a.normSq) 0

end Ring

section Polar

variable {α : Type} [Analytic α]

def norm (a : Amplitude α) : α := Analytic.hypot a.re a.im

/-- The angle from the positive real axis. -/
def arg (a : Amplitude α) : α := Analytic.atan2 a.im a.re

/-- The number of magnitude `r` at the angle `t`. -/
def polar (r t : α) : Amplitude α := ⟨r * Analytic.cos t, r * Analytic.sin t⟩

end Polar

end Amplitude

end StatePrep
