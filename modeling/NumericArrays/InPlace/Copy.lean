import NumericArrays.InPlace.Basic

/-! Copying an array into a larger buffer, one run along the first axis at a time. -/
namespace NumericArrays.InPlace

theorem eq_add_of_addWord {m n k : Nat} (h : addWord m n = .ok k) : k = m + n := by
  unfold addWord at h
  split at h
  · cases h; rfl
  · cases h

/-- Where a run starts in the new buffer. Runs start at the beginning of the first axis. -/
def runStart (coord strides : List Nat) : Except Stop Nat :=
  ((coord.zip strides).drop 1).foldlM (fun n (c, stride) => do addWord n (← mulWord c stride)) 0

/-- Copies a run of elements. It must lie within both buffers. -/
def copyRun (source : Array Float) (start rows first : Nat) (target : Array Float) :
    Except Stop (Array Float) := do
  let finish ← addWord start rows
  let last ← addWord first rows
  if finish ≤ target.size ∧ last ≤ source.size then
    return (List.range rows).foldl
      (fun t i => t.setIfInBounds (start + i) (source.getD (first + i) 0)) target
  else throw .outOfBounds

/-- Counts one up on the axes after the first, with carry. -/
def carry : Shape → List Nat → Except Stop (List Nat)
  | d :: s, c :: cs => do
    let c ← addWord c 1
    if c < d then return c :: cs
    else
      let cs ← carry s cs
      return 0 :: cs
  | _, cs => .ok cs

/-- Next run: the first coordinate stays zero. -/
def advance : Shape → List Nat → Except Stop (List Nat)
  | _ :: s, c :: cs => (c :: ·) <$> carry s cs
  | _, cs => .ok cs

def copyRuns (source : Array Float) (old : Shape) (strides : List Nat) (count : Nat)
    (coord : List Nat) (first : Nat) (target : Array Float) : Except Stop (Array Float) :=
  let rows := old.extent 0
  if first < count then
    if rows = 0 then .error .endless
    else do
      let start ← runStart coord strides
      let target ← copyRun source start rows first target
      match _h : addWord first rows with
      | .error e => .error e
      | .ok next =>
        let coord ← advance old coord
        copyRuns source old strides count coord next target
  else .ok target
termination_by count - first
decreasing_by
  have := eq_add_of_addWord _h
  omega

def copyInto (source : Array Float) (old new : Shape) (target : Array Float) :
    Except Stop (Array Float) :=
  let count := old.count
  if count = 0 then .ok target
  else do
    let rank := Shape.commonRank old new
    let strides ← strides 1 (new.pad rank)
    copyRuns source (old.pad rank) strides count (List.replicate rank 0) 0 target

end NumericArrays.InPlace
