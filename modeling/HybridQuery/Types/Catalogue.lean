import HybridQuery.Types.SequenceType

/-!
# Type catalogue

The declared object types. A declaration may only name types that are built in, declared before, or
the type itself.

* `Catalogue.declare`, `Catalogue.declareAll`: adds declarations.
* `Catalogue.check`, `Catalogue.resolve`: whether a sequence type names a known type.
-/

namespace HybridQuery

/-- A field of a declared type. -/
structure FieldType where
  type : SequenceType
  required : Bool
  deriving Repr, DecidableEq, Inhabited

/-- A declared object type; its fields have distinct names. -/
structure ObjectType where
  name : String
  fields : List (String × FieldType)
  deriving Repr, DecidableEq, Inhabited

/-- The declared types, in the order of their declaration. -/
structure Catalogue where
  declarations : List ObjectType
  deriving Repr, DecidableEq, Inhabited

namespace Catalogue

/-- A catalogue without declarations. -/
def empty : Catalogue := ⟨[]⟩

/-- The declaration of a name. -/
def find? (c : Catalogue) (name : String) : Option ObjectType :=
  c.declarations.find? (·.name == name)

/-- Whether a name is declared. -/
def declares (c : Catalogue) (name : String) : Bool := (c.find? name).isSome

/-- The first field whose type is neither known nor the declared type itself. -/
def unknownField? (c : Catalogue) (type : ObjectType) : Option (String × String) :=
  type.fields.findSome? fun (field, definition) =>
    match definition.type.itemType with
    | .declared name =>
      if name ≠ type.name ∧ !c.declares name then some (field, name) else none
    | _ => none

/-- Adds a declaration. -/
def declare (c : Catalogue) (type : ObjectType) : TypeResult Catalogue :=
  if (ItemType.builtin? type.name).isSome then .error (.builtinClash type.name)
  else if c.declares type.name then .error (.duplicateType type.name)
  else
    match c.unknownField? type with
    | some (field, fieldType) => .error (.unknownFieldType type.name field fieldType)
    | none => .ok ⟨c.declarations ++ [type]⟩

/-- Adds declarations up to the first that is refused. Gives the catalogue reached and the reason of
the refusal. -/
def declareEach (c : Catalogue) : List ObjectType → Catalogue × Option TypeFault
  | [] => (c, none)
  | type :: rest =>
    match c.declare type with
    | .ok c => c.declareEach rest
    | .error fault => (c, some fault)

/-- Adds all declarations, or fails with the first that is refused. -/
def declareAll (c : Catalogue) (types : List ObjectType) : TypeResult Catalogue :=
  match c.declareEach types with
  | (c, none) => .ok c
  | (_, some fault) => .error fault

/-- Checks that a sequence type names a known type. -/
def check (c : Catalogue) (type : SequenceType) : TypeResult Unit :=
  match type.itemType with
  | .declared name => if c.declares name then .ok () else .error (.unknownType name)
  | _ => .ok ()

/-- Reads a literal that names a known type. -/
def resolve (c : Catalogue) (literal : String) : TypeResult SequenceType := do
  let type ← SequenceType.parse literal
  c.check type
  return type

end Catalogue
end HybridQuery
