import HybridQuery.Item.Order

/-!
# Digests

The numbers that a hash of an item is computed from. Equal items have equal digests, whatever kinds of
number they are made of, so that a hash of the digest brings equal keys together.

* `Item.digest`: the digest of an item; it starts with a mark of the kind.
* `numberDigest`: the digest of a number is that of the double nearest to it.
* `hashOf`: a hash of a digest in 64 bits.
-/

namespace HybridQuery

/-- Numbers that a hash is computed from. -/
abbrev Digest := List Int

namespace Item

/-- What stands for a double: its bits. All NaNs are alike, and so are the zeros. -/
def doubleDigest (d : Float) : Int :=
  if Double.isNaN d then Double.infiniteBits + Power.two 51
  else if Double.isZero d then 0
  else d.toBits.toNat

/-- What stands for a number: the nearest double. -/
def numberDigest (item : Item) : Int := doubleDigest (item.double?.getD 0.0)

/-- What stands for a text: its length and its characters. -/
def textDigest (s : String) : Digest := s.length :: s.toList.map fun c => (c.toNat : Int)

mutual
/-- The digest of an item. -/
def digest : Item → Digest
  | .null => [0]
  | .boolean b => [1, if b then 1 else 0]
  | .string s => 3 :: textDigest s
  | .date d => [4, d.dayNumber]
  | .dateTime t => [5, t.day, t.clock.second, t.clock.nano]
  | .time t => [6, t.utcSecond, t.clock.nano]
  | .duration d => [7, d.nanos]
  | .binary bytes => 8 :: bytes.length :: bytes.map fun b => (b.toNat : Int)
  | .object pairs => 9 :: pairs.length :: pairDigests pairs
  | .array members => 10 :: members.length :: memberDigests members
  | .function f => [11, (f.handle.map Int.ofNat).getD (-1)]
  | item => [2, item.numberDigest]

/-- The digests of items, one after the other. -/
def memberDigests : List Item → Digest
  | [] => []
  | m :: rest => digest m ++ memberDigests rest

/-- The digests of pairs, key before value. -/
def pairDigests : List (String × Item) → Digest
  | [] => []
  | (key, value) :: rest => textDigest key ++ digest value ++ pairDigests rest
end

end Item

/-- Mixes one more number into a hash. -/
def mixHash (hash : UInt64) (n : Int) : UInt64 := (hash ^^^ (Int64.ofInt n).toUInt64) * 1099511628211

/-- A hash of a digest. -/
def hashOf (digest : Digest) : Nat := (digest.foldl mixHash 14695981039346656037).toNat

end HybridQuery
