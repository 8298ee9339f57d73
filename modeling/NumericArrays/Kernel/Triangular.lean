import NumericArrays.Kernel.Buffer

/-! Triangular systems in memory. -/
namespace NumericArrays.Kernel

open InPlace (Stop)

variable {K : Type}

/-- What is left of a right-hand side when multiples of some unknowns have been taken off. -/
def takeOff [Sub K] [Mul K] (coefficient unknown : Nat → Except Stop K) (js : List Nat) (rest : K) :
    Except Stop K :=
  js.foldlM
    (fun rest j => do
      let c ← coefficient j
      let x ← unknown j
      return rest - c * x)
    rest

/-- The leading `r` unknowns of an upper triangular system, from the last on, into column `k`. -/
def backward [Sub K] [Mul K] [Div K] (u : Buffer K) (r : Nat) (rhs : Nat → Except Stop K) (k : Nat)
    (x : Buffer K) : Except Stop (Buffer K) :=
  (List.range r).reverse.foldlM
    (fun x i => do
      let start ← rhs i
      let rest ← takeOff (u.read i) (fun j => x.read j k) (between (i + 1) r) start
      let pivot ← u.read i i
      x.write i k (rest / pivot))
    x

/-- Solutions of the leading `r` equations of an upper triangular system with `n` unknowns. Unknowns past
    `r` are zero. -/
def solveUpper [Arith K] (u : Buffer K) (r : Nat) (c : Buffer K) (n : Nat) : Except Stop (Buffer K) := do
  let y ← Buffer.zeros n c.ncols
  (List.range c.ncols).foldlM (fun y k => backward u r (c.read · k) k y) y

section Adjoint

variable {R : Type} [Arith K] [MatrixScalar K R]

/-- One unknown of the lower triangular system whose coefficients are the conjugates of those of `u` across
    the diagonal. It is kept for the unknowns after it and written to column `k` of the solution. -/
def adjointUnknown (u c : Buffer K) (k : Nat) (s : Buffer K × Array K) (i : Nat) :
    Except Stop (Buffer K × Array K) := do
  let (z, known) := s
  let start ← c.read i k
  let rest ← takeOff (fun j => MatrixScalar.conj <$> u.read j i) (fetch known) (List.range i) start
  let pivot ← u.read i i
  let known ← put known i (rest / MatrixScalar.conj pivot)
  let x ← fetch known i
  let z ← z.write i k x
  return (z, known)

/-- Solutions of the leading `r` equations of that system. Unknowns past `r` are zero. -/
def solveUpperAdjoint (u : Buffer K) (r : Nat) (c : Buffer K) (n : Nat) : Except Stop (Buffer K) := do
  let z ← Buffer.zeros n c.ncols
  let (z, _) ← (List.range c.ncols).foldlM
    (fun s k => (List.range r).foldlM (adjointUnknown u c k) s) (z, .replicate r 0)
  return z

end Adjoint

end NumericArrays.Kernel
