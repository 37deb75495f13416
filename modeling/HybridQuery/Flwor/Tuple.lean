import HybridQuery.Context.Chain
import HybridQuery.Item.Digest

/-!
# Tuples

A tuple is one row of a pipeline: the variables that the clauses so far have bound, in the order in
which they were first bound.

* `Tuple.bind`: binds a variable; a variable that is bound keeps its place.
* `GroupingKey.same`: keys of one group; a component is empty or a single atomic.
* `GroupingKey.bucket`: where a shuffle sends a key.
-/

namespace HybridQuery

/-- One row of a pipeline. -/
structure Tuple where
  pairs : List (String × Value Item)
  deriving Inhabited

namespace Tuple

/-- A tuple without variables. -/
def empty : Tuple := ⟨[]⟩

/-- What a variable is bound to. -/
def get? (t : Tuple) (name : String) : Option (Value Item) := t.pairs.lookup name

/-- Sets the value of a name in a list of pairs: in place if it is there, at the end otherwise. -/
def setPair (name : String) (value : Value Item) :
    List (String × Value Item) → List (String × Value Item)
  | [] => [(name, value)]
  | (n, v) :: rest => if n = name then (n, value) :: rest else (n, v) :: setPair name value rest

/-- Binds a variable. -/
def bind (t : Tuple) (name : String) (value : Value Item) : Tuple := ⟨setPair name value t.pairs⟩

/-- The variables in the order in which they were first bound. -/
def names (t : Tuple) : List String := t.pairs.map (·.1)

/-- Number of variables. -/
def size (t : Tuple) : Nat := t.pairs.length

/-- Whether no variable is bound. -/
def isEmpty (t : Tuple) : Bool := t.pairs.isEmpty

/-- The variables as a scope. -/
def bindings (t : Tuple) : Bindings := t.pairs.foldl (fun b p => b.bind p.1 p.2) .empty

/-- Whether two tuples bind the same variables to the same values, in any order. -/
def same (a b : Tuple) : Bool :=
  a.size == b.size && a.pairs.all fun (name, value) =>
    match b.get? name with
    | some other => value.same other
    | none => false

/-- The scope of a tuple inside a context. -/
def scope (t : Tuple) (outer : Context) : Context := outer.child t.bindings

end Tuple

/-! ## Grouping keys -/

/-- The key of a group, a component for each key of the clause; an empty sequence is `none`. -/
abbrev GroupingKey := List (Option Item)

namespace GroupingKey

/-- Equality of components. -/
def sameComponent : Option Item → Option Item → Bool
  | none, none => true
  | some a, some b => a.same b
  | _, _ => false

/-- Equality of keys. -/
def same : GroupingKey → GroupingKey → Bool
  | [], [] => true
  | a :: rest, b :: rest' => sameComponent a b && same rest rest'
  | _, _ => false

/-- The digest of a component; the empty sequence has one of its own. -/
def componentDigest : Option Item → Digest
  | none => [0]
  | some item => 1 :: item.digest

/-- The digest of a key. -/
def digest (key : GroupingKey) : Digest := key.length :: key.flatMap componentDigest

/-- The bucket of a key in a shuffle. Equal keys share it, because they have equal digests. -/
def bucket (key : GroupingKey) : Nat := hashOf key.digest

end GroupingKey
end HybridQuery
