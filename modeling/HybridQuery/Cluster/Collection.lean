/-!
# Distributed collections

A collection is a list of partitions. Its records are read in partition order, and every transform
keeps that order, except for `shuffle` and `groupByKey`, which promise no order of keys.

* `sortRun`: stable insertion sort. Where a comparison fails the two records count as equal, and the
  first failure is the result of the sort.
* `mergeRuns`: merges sorted runs; a tie goes to the earlier run, which keeps the merge stable.
* `Collection.records`: the view as a list. Each transform is its list counterpart on it.
* `Collection.mapM`, `flatMapM`, `filterM`: partitions are processed front to back, and the first
  failure ends the transform.
* `Collection.parallelize`: cuts a list into partitions of equal size.
-/

namespace HybridQuery

/-! ## Sorting by a comparison that may fail -/

section

variable {ε κ α : Type}

/-- Puts a record behind those that are not greater. The sorted records stand from the last to the
first; `failure` is the first failed comparison so far. -/
def insertLast (compare : κ → κ → Except ε Ordering) (x : κ × α) :
    List (κ × α) → Option ε → List (κ × α) × Option ε
  | [], failure => ([x], failure)
  | y :: rest, failure =>
    match compare x.1 y.1 with
    | .ok .lt =>
      let (rest, failure) := insertLast compare x rest failure
      (y :: rest, failure)
    | .ok _ => (x :: y :: rest, failure)
    | .error e => (x :: y :: rest, failure.or (some e))

/-- Sorts keyed records by their keys; equal keys keep their order. -/
def sortRun (compare : κ → κ → Except ε Ordering) (records : List (κ × α)) :
    Except ε (List (κ × α)) :=
  let (sorted, failure) :=
    records.foldl (fun (sorted, failure) x => insertLast compare x sorted failure) ([], none)
  match failure with
  | some e => .error e
  | none => .ok sorted.reverse

/-- Takes the least front record of the runs, of equal ones that of the earliest run. Gives the record
and the runs without it. -/
def takeLeast (compare : κ → κ → Except ε Ordering) :
    List (List (κ × α)) → Except ε (Option ((κ × α) × List (List (κ × α))))
  | [] => .ok none
  | runs =>
    let rec go (best : Option (Nat × (κ × α))) (index : Nat) :
        List (List (κ × α)) → Except ε (Option (Nat × (κ × α)))
      | [] => .ok best
      | [] :: rest => go best (index + 1) rest
      | (x :: _) :: rest =>
        match best with
        | none => go (some (index, x)) (index + 1) rest
        | some (_, y) =>
          match compare x.1 y.1 with
          | .ok .lt => go (some (index, x)) (index + 1) rest
          | .ok _ => go best (index + 1) rest
          | .error e => .error e
    match go none 0 runs with
    | .error e => .error e
    | .ok none => .ok none
    | .ok (some (index, x)) => .ok (some (x, runs.modify index (·.drop 1)))

/-- Merges runs record by record; as many steps as there are records suffice. -/
def mergeRuns (compare : κ → κ → Except ε Ordering) :
    Nat → List (List (κ × α)) → Except ε (List α)
  | 0, _ => .ok []
  | steps + 1, runs =>
    match takeLeast compare runs with
    | .error e => .error e
    | .ok none => .ok []
    | .ok (some (x, runs)) =>
      match mergeRuns compare steps runs with
      | .error e => .error e
      | .ok rest => .ok (x.2 :: rest)

end

/-! ## Collections -/

/-- Partitioned records. -/
structure Collection (α : Type) where
  partitions : List (List α)
  deriving Repr, Inhabited

namespace Collection

variable {α β κ ε : Type} {m : Type → Type}

/-- The records in partition order. -/
def records (c : Collection α) : List α := c.partitions.flatten

/-- No partitions. -/
def empty : Collection α := ⟨[]⟩

/-- Number of partitions. -/
def numPartitions (c : Collection α) : Nat := c.partitions.length

/-- Cuts a list into pieces of a given size; as many steps as there are records suffice. -/
def pieces (size : Nat) : Nat → List α → List (List α)
  | 0, _ => []
  | steps + 1, items =>
    if items.isEmpty then [] else items.take size :: pieces size steps (items.drop size)

/-- Contiguous partitions of equal size, `count` of them at most. -/
def parallelize (items : List α) (count : Nat) : Collection α :=
  let count := max count 1
  let size := max ((items.length + count - 1) / count) 1
  ⟨pieces size items.length items⟩

/-! ## Transforms -/

/-- Applies a function to every record. -/
def mapM [Monad m] (f : α → m β) (c : Collection α) : m (Collection β) := do
  return ⟨← c.partitions.mapM fun partition => partition.mapM f⟩

/-- Applies a pure function to every record. -/
def map (f : α → β) (c : Collection α) : Collection β := ⟨c.partitions.map (·.map f)⟩

/-- Replaces every record by the records that a function gives for it. -/
def flatMapM [Monad m] (f : α → m (List β)) (c : Collection α) : m (Collection β) := do
  return ⟨← c.partitions.mapM fun partition => return (← partition.mapM f).flatten⟩

/-- Keeps the records that a function holds for. -/
def filterM [Monad m] (f : α → m Bool) (c : Collection α) : m (Collection α) :=
  c.flatMapM fun record => return if ← f record then [record] else []

/-- The partitions of both, one after the other. -/
def union (a b : Collection α) : Collection α := ⟨a.partitions ++ b.partitions⟩

/-- The first records. -/
def take (c : Collection α) (n : Nat) : List α := c.records.take n

/-- Number of records. -/
def count (c : Collection α) : Nat :=
  c.partitions.foldl (fun n partition => n + partition.length) 0

/-- Whether there are no records. -/
def isEmpty (c : Collection α) : Bool := c.partitions.all List.isEmpty

/-- Pairs every record of the partitions with its place among all records, from `start` on. -/
def indexPartitions (start : Nat) : List (List α) → List (List (α × Nat))
  | [] => []
  | partition :: rest =>
    partition.zipIdx start :: indexPartitions (start + partition.length) rest

/-- Pairs every record with its place among all records, from zero on. -/
def zipWithIndex (c : Collection α) : Collection (α × Nat) := ⟨indexPartitions 0 c.partitions⟩

/-- Sorts keyed records: each partition by itself, then a merge into as many partitions as before. -/
def sortKeyed (compare : κ → κ → Except ε Ordering) (c : Collection (κ × α)) :
    Except ε (Collection α) := do
  let runs ← c.partitions.mapM (sortRun compare)
  let merged ← mergeRuns compare c.count runs
  return parallelize merged c.numPartitions

/-! ## Grouping -/

/-- Adds a value to the group of an equal key, or to a new group at the end. -/
def addToGroup (same : κ → κ → Bool) (key : κ) (value : β) :
    List (κ × List β) → List (κ × List β)
  | [] => [(key, [value])]
  | (k, values) :: rest =>
    if same k key then (k, values ++ [value]) :: rest
    else (k, values) :: addToGroup same key value rest

/-- Groups pairs by their keys: each key as it is first seen, the values in order. -/
def groupPairs (same : κ → κ → Bool) (pairs : List (κ × β)) : List (κ × List β) :=
  pairs.foldl (fun groups p => addToGroup same p.1 p.2 groups) []

/-- Sends every pair to the partition that its key belongs to, over as many partitions as before, one
at least. -/
def shuffle (bucket : κ → Nat) (c : Collection (κ × β)) : Collection (κ × β) :=
  let count := max c.numPartitions 1
  ⟨(List.range count).map fun place =>
    c.partitions.flatMap fun partition => partition.filter fun p => bucket p.1 % count == place⟩

/-- Gathers the values of equal keys, which must share a bucket. -/
def groupByKey (same : κ → κ → Bool) (bucket : κ → Nat) (c : Collection (κ × β)) :
    Collection (κ × List β) :=
  ⟨(c.shuffle bucket).partitions.map (groupPairs same)⟩

end Collection
end HybridQuery
