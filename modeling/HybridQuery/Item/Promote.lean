import HybridQuery.Item.Cast
import HybridQuery.Types.Catalogue

/-!
# Promotion

Promotion takes an item to a type that it belongs to or widens to: integers to decimals, numbers to
doubles, objects to a declared type field by field.

* `Catalogue.promote`: an item to an item type.
* `Catalogue.promoteSequence`: a sequence to a sequence type, its length being checked first.
-/

namespace HybridQuery

/-- Whether an item belongs to a built-in type other than `decimal` and `double`, and so is kept as it
is. -/
def ItemType.holds : ItemType → Item → Bool
  | item, _ => true
  | atomic, i => i.isAtomic
  | string, .string _ => true
  | integer, .integer _ => true
  | numeric, i => i.isNumeric
  | boolean, .boolean _ => true
  | null, .null => true
  | date, .date _ => true
  | dateTime, .dateTime _ => true
  | time, .time _ => true
  | duration, .duration _ => true
  | base64Binary, .binary _ => true
  | object, .object _ => true
  | array, .array _ => true
  | function, .function _ => true
  | _, _ => false

namespace TypeFault

/-- The fault of an item that does not belong to a type. -/
def wrongType (item : Item) (type : ItemType) : TypeFault := .promotion item.typeName type.name

/-- The fault of an object that lacks a field. -/
def missingField (field typeName : String) : TypeFault :=
  .promotion s!"object without field {field}" typeName

end TypeFault

/-- The first required field that an object lacks. -/
def ObjectType.missing? (type : ObjectType) (pairs : List (String × Item)) : Option String :=
  type.fields.findSome? fun (field, definition) =>
    if definition.required && !pairs.any (·.1 == field) then some field else none

/-- Takes an item to a type that is built in. -/
def Item.promoteBuiltin (i : Item) (type : ItemType) : TypeResult Item :=
  let promoted :=
    match type with
    | .decimal => i.decimal?.map .decimal
    | .double => i.double?.map .double
    | type => if type.holds i then some i else none
  match promoted with
  | some i => .ok i
  | none => .error (.wrongType i type)

/-- Checks the length of a sequence. -/
def SequenceType.checkCount (type : SequenceType) (count : Nat) : TypeResult Unit :=
  if type.admitsCount count then .ok () else .error (.cardinality type.text count)

namespace Catalogue

mutual
/-- Takes an item to a type. -/
def promote (c : Catalogue) (i : Item) (type : ItemType) : TypeResult Item :=
  match type, i with
  | .declared name, .object pairs =>
    match c.find? name with
    | none => .error (.unknownType name)
    | some definition =>
      match definition.missing? pairs with
      | some field => .error (.missingField field name)
      | none => do return .object (← promotePairs c definition.fields pairs)
  | type, i => i.promoteBuiltin type

/-- Takes every item of a list to a type. -/
def promoteEach (c : Catalogue) (type : ItemType) : List Item → TypeResult (List Item)
  | [] => .ok []
  | i :: rest => do
    let i ← promote c i type
    return i :: (← promoteEach c type rest)

/-- Takes the values of fields to their types. An array stands for a field of many items, null for an
absent one, text for a value that JSON cannot carry. -/
def promotePairs (c : Catalogue) (fields : List (String × FieldType)) :
    List (String × Item) → TypeResult (List (String × Item))
  | [] => .ok []
  | (key, value) :: rest => do
    let promoted ←
      match fields.lookup key with
      | none => pure value
      | some field =>
        match value, field.type.occurrence.max with
        | .array members, none =>
          if field.type.isUnconstrained then pure (.array members)
          else
            field.type.checkCount members.length *>
              (Item.array <$> promoteEach c field.type.itemType members)
        | value, _ =>
          if value.isNull && field.type.occurrence.max == some 1 && field.type.admitsCount 0 then
            pure .null
          else
            match value with
            | .string text =>
              if field.type.itemType.isLexical then Item.cast text field.type.itemType
              else (Item.string text).promoteBuiltin field.type.itemType
            | value => promote c value field.type.itemType
    return (key, promoted) :: (← promotePairs c fields rest)
end

/-- Takes a sequence to a type. -/
def promoteSequence (c : Catalogue) (items : Sequence) (type : SequenceType) :
    TypeResult Sequence :=
  if type.isUnconstrained then .ok items
  else do
    type.checkCount items.length
    promoteEach c type.itemType items

end Catalogue
end HybridQuery
