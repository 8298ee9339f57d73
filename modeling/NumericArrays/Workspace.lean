import NumericArrays.Concat
import NumericArrays.Elementwise.Comparison
import NumericArrays.Elementwise.Logic
import NumericArrays.Engine.Operators
import NumericArrays.InPlace.Write

/-! What can be done with named values: make them, compute with them, change them, look at them. Names are
    numbers, and extents are words. Commands are carried out one after the other. -/
namespace NumericArrays

namespace Workspace

abbrev Values := Nat → Value

abbrev Extents := List UInt64

def Extents.shape (dims : Extents) : Shape := dims.map UInt64.toNat

/-! ### Making values -/

inductive Construction where
  | number (x : Number)
  | single (x : Number)
  | zeros (dims : Extents) (kind : Storage)
  | reals (dims : Extents) (real : Array Float)
  | parts (dims : Extents) (real imag : Array Float)
  | cartesian (dims : Extents) (zs : Array (Cartesian Float))
  | bools (dims : Extents) (bs : Array Bool)
  | byPosition (dims : Extents) (f : Nat → Float)

def Construction.make : Construction → Option Value
  | number x => some (.number x)
  | single x => some (.array (.ofNumber x))
  | zeros dims kind => (NDArray.zeros? dims.shape kind).map .array
  | reals dims real => (NDArray.ofReals? dims.shape real .double).map .array
  | parts dims real imag => (NDArray.ofParts? dims.shape real imag).map .array
  | cartesian dims zs => (NDArray.ofCartesian? dims.shape zs).map .array
  | bools dims bs => (NDArray.ofBools? dims.shape bs).map .array
  | byPosition dims f => (NDArray.ofFn? dims.shape f).map .array

/-! ### Computing -/

inductive Operation where
  | arithmetic (op : Arithmetic) (x y : Nat)
  | comparison (op : Comparison) (x y : Nat)
  | connective (op : Connective) (x y : Nat)
  | not (x : Nat)
  | neg (x : Nat)
  | conj (x : Nat)
  | demote (x : Nat)
  | convert (kind : Storage) (x : Nat)
  | concat (axis : Nat) (xs : List Nat)
  | mul (x y : Nat)
  | leftDiv (x y : Nat)
  | rightDiv (x y : Nat)
  | transposed (x : Nat)
  | adjointed (x : Nat)

def Operation.eval (e : Engine) (v : Values) : Operation → Logged Value
  | arithmetic op x y => Logged.ofExcept (op.apply (v x) (v y))
  | comparison op x y => Logged.ofExcept (op.apply (v x) (v y))
  | connective op x y => Logged.ofExcept (op.apply (v x) (v y))
  | not x => Logged.ofExcept (v x).not
  | neg x => pure (v x).neg
  | conj x => pure (v x).conj
  | demote x => pure (v x).demote
  | convert kind x => Logged.ofExcept (Value.ofKind kind (v x).toArray)
  | concat axis xs => Logged.ofExcept ((Value.concat axis (xs.map v)).map .array)
  | mul x y => e.mul (v x) (v y)
  | leftDiv x y => e.leftDiv (v x) (v y)
  | rightDiv x y => e.rightDiv (v x) (v y)
  | transposed x => e.transposed (v x)
  | adjointed x => e.adjointed (v x)

/-! ### Changing -/

inductive Change where
  | set (coords : List Nat) (x : Nat)
  | setAt (index : List Nat) (x : Nat)
  | resize (dims : Extents)
  | promote
  | demote

/-- The steps of a change in memory. Only the last one has an answer to give. -/
def Change.steps (v : Values) : Change → InPlace.Steps (Option Bool)
  | set coords x => do
    InPlace.set coords (v x)
    return none
  | setAt index x => do
    InPlace.setAt (index.map v) (v x)
    return none
  | resize dims => do
    InPlace.resize dims.shape
    return none
  | promote => do
    InPlace.promote
    return none
  | demote => some <$> InPlace.demote

/-! ### Looking -/

inductive Query where
  | get (coords : List Nat) (x : Nat)
  | getAt (index : List Nat) (x : Nat)
  | text (x : Nat)
  | equal (x y : Nat)

inductive Reply where
  | done
  | refused
  | truth (b : Bool)
  | text (s : String)
  | value (v : Value)

def Query.answer (v : Values) : Query → Except Fault Reply
  | get coords x => ((v x).get coords).map .value
  | getAt index x => do
    let coords ← (index.map v).mapM Value.toIndex
    ((v x).get coords).map .value
  | text x => .ok (.text (v x).text)
  | equal x y => .ok (.truth ((v x).equal (v y)))

/-! ### Commands -/

/-- Results of what is made or computed go to a name. -/
inductive Command where
  | make (target : Nat) (c : Construction)
  | compute (target : Nat) (o : Operation)
  | change (target : Nat) (c : Change)
  | look (q : Query)

end Workspace

structure Workspace where
  cell : Nat → InPlace.Cell

namespace Workspace

def values (s : Workspace) : Values := fun i => (s.cell i).value

def put (s : Workspace) (target : Nat) (c : InPlace.Cell) : Workspace where
  cell i := if i = target then c else s.cell i

structure Answer where
  events : List Event
  result : Except InPlace.Stop Reply

def Reply.ofChange : Option Bool → Reply
  | none => .done
  | some b => .truth b

/-- Carries out a command. What was changed in place before a stop stays changed. -/
def step (e : Engine) (s : Workspace) : Command → Answer × Workspace
  | .make target c =>
    match c.make with
    | none => (⟨[], .ok .refused⟩, s)
    | some v => (⟨[], .ok (.value v)⟩, s.put target (.ofValue v))
  | .compute target o =>
    let r := o.eval e s.values
    match r.result with
    | .error f => (⟨r.events, .error (.fault f)⟩, s)
    | .ok v => (⟨r.events, .ok (.value v)⟩, s.put target (.ofValue v))
  | .change target c =>
    match (InPlace.onCell (c.steps s.values)).run (s.cell target) with
    | .error e cell => (⟨[], .error e⟩, s.put target cell)
    | .ok b cell => (⟨[], .ok (.ofChange b)⟩, s.put target cell)
  | .look q => (⟨[], (q.answer s.values).mapError .fault⟩, s)

def run (e : Engine) (s : Workspace) : List Command → List (Command × Answer) × Workspace
  | [] => ([], s)
  | c :: cs =>
    let (r, t) := step e s c
    let (rs, u) := run e t cs
    ((c, r) :: rs, u)

end Workspace
end NumericArrays
