import HybridQuery.Item.Columns

/-!
# Contexts

The bindings of one scope, or those a function closed over, bind a name at most once; binding it again
replaces what it was bound to, whatever the representations. A context is a chain of scopes, the innermost
first. Looking a name up walks outwards; a snapshot copies everything visible into one scope.

* `BindingsOf.get?`: the view; `bind` and `merge` are described by it.
* `BindingsOf.names`: the bound names in order.
* `Context.lookup`: the nearest binding of a name.
* `Context.snapshot`: binds every visible name as `lookup` finds it.
-/

namespace HybridQuery

/-! ## Bindings -/

namespace BindingsOf

variable {α : Type}

/-- No bindings. -/
def empty : BindingsOf α := ⟨[]⟩

/-- What a name is bound to. -/
def get? (b : BindingsOf α) (name : String) : Option (Value α) := b.pairs.lookup name

/-- Whether a name is bound. -/
def contains (b : BindingsOf α) (name : String) : Bool := (b.get? name).isSome

/-- Binds a name; an earlier binding of it is dropped. -/
def bind (b : BindingsOf α) (name : String) (value : Value α) : BindingsOf α :=
  ⟨(name, value) :: b.pairs.filter (·.1 != name)⟩

/-- A single binding. -/
def single (name : String) (value : Value α) : BindingsOf α := empty.bind name value

/-- Binds every name of `other` as it is bound there. -/
def merge (b other : BindingsOf α) : BindingsOf α :=
  other.pairs.foldl (fun b p => b.bind p.1 p.2) b

/-- Number of bound names. -/
def size (b : BindingsOf α) : Nat := b.pairs.length

/-- Whether no name is bound. -/
def isEmpty (b : BindingsOf α) : Bool := b.pairs.isEmpty

/-- The bound names in order. -/
def names (b : BindingsOf α) : List String :=
  (b.pairs.map (·.1)).mergeSort fun x y => x ≤ y

end BindingsOf

/-! ## Chains of scopes -/

/-- A chain of scopes. -/
structure Context where
  /-- By this a host's context is recognised when it is used again. A context that an evaluation makes
  has none: it is used once. -/
  handle : Option Nat
  /-- The scopes, the innermost first. -/
  scopes : List Bindings
  deriving Inhabited

namespace Context

/-- A single scope. -/
def detached (bindings : Bindings) : Context := ⟨none, [bindings]⟩

/-- The context in which a module is evaluated. -/
def root : Context := detached .empty

/-- Adds an inner scope. -/
def child (c : Context) (bindings : Bindings) : Context := ⟨none, bindings :: c.scopes⟩

/-- Adds an inner scope with a single binding. -/
def withBinding (c : Context) (name : String) (value : Value Item) : Context :=
  c.child (.single name value)

/-- The nearest binding of a name. -/
def lookup (c : Context) (name : String) : Option (Value Item) := c.scopes.findSome? (·.get? name)

/-- What a name must be bound to. -/
def binding (c : Context) (name : String) : EngineResult (Value Item) :=
  match c.lookup name with
  | some value => .ok value
  | none => .fail (.undefinedVariable name)

/-- Every visible binding in one scope; inner ones win. -/
def snapshot (c : Context) : Bindings :=
  c.scopes.foldr (fun inner outer => outer.merge inner) .empty

/-- Number of scopes. -/
def depth (c : Context) : Nat := c.scopes.length

end Context
end HybridQuery
