import Renumber.Path

/-!
# Default seeds

The seed of a file that none was given for comes from its name, so that two files seldom share their
codes. The bytes of the name without its extension are summed up, each less 64. The first three digits
of the sum make a number of five digits, filled up with zeros; if that is zero, the seed is
`Seed.fallback`.
-/

namespace Renumber.Seed

/-- The seed of a name that sums up to zero. -/
def fallback : UInt64 := 10000

/-- A file name without one extension, the dot included. A name with another end stays whole. -/
def withoutExtension (name ext : String) : String :=
  let cs := name.toList
  let tail := '.' :: ext.toList
  if tail.isSuffixOf cs then String.ofList (cs.take (cs.length - tail.length)) else name

/-- The sum of some bytes, each less 64. -/
def sumOf : List UInt8 → Int
  | [] => 0
  | b :: bs => ((b.toNat : Int) - 64) + sumOf bs

/-- The sum of the bytes of a name, each less 64. -/
def weight (name : String) : Int := sumOf name.toUTF8.toList

/-- The first three digits of a number, and zeros up to five digits. -/
def lead (n : Nat) : Nat :=
  let digits := (Nat.toDigits 10 n).take 3
  let padded := digits ++ List.replicate (5 - digits.length) '0'
  padded.foldl (fun acc c => 10 * acc + (c.toNat - '0'.toNat)) 0

/-- The seed of a name whose extension is already off. -/
def ofName (name : String) : UInt64 :=
  match lead (weight name).natAbs with
  | 0 => fallback
  | seed => seed.toUInt64

/-- The seed of a path, for files of an extension. -/
def ofPath (path : Path) (ext : String) : UInt64 :=
  ofName (withoutExtension (path.fileName?.getD "") ext)

end Renumber.Seed
