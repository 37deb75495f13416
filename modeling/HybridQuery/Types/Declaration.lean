import HybridQuery.Json.Fields
import HybridQuery.Types.Catalogue

/-!
# Declarations in JSON

* `ObjectType.ofJson?`: the declaration that a JSON value stands for.
* `ObjectType.toJson`: its JSON form, in which types are written as literals.
-/

namespace HybridQuery

/-- Reads a sequence type from its literal. -/
def SequenceType.ofJson? (json : Json) : Option SequenceType := do
  (SequenceType.parse (← json.string?)).toOption

/-- Reads a field of a declaration; it is not required unless it says so. -/
def FieldType.ofJson? (json : Json) : Option FieldType := do
  match ← json.record? ["type", "required"] with
  | [type, required] =>
    return ⟨← Json.required type SequenceType.ofJson?, ← Json.orDefault required false Json.bool?⟩
  | _ => none

/-- The JSON form of a field. -/
def FieldType.toJson (field : FieldType) : Json :=
  .object [("type", .string field.type.text), ("required", .bool field.required)]

namespace ObjectType

/-- Adds a field; one of that name is replaced in its place. -/
def setField (fields : List (String × FieldType)) (name : String) (field : FieldType) :
    List (String × FieldType) :=
  if fields.any (·.1 == name) then fields.map fun f => if f.1 == name then (name, field) else f
  else fields ++ [(name, field)]

/-- Reads fields by their names. Of fields with one name the last counts, at the place of the
first. -/
def fieldsOfJson? : Json → Option (List (String × FieldType))
  | .object pairs => do
    let fields ← pairs.mapM fun (name, value) => return (name, ← FieldType.ofJson? value)
    return fields.foldl (fun done f => setField done f.1 f.2) []
  | _ => none

/-- Reads a declaration. -/
def ofJson? (json : Json) : Option ObjectType := do
  match ← json.record? ["name", "fields"] with
  | [name, fields] =>
    return ⟨← Json.required name Json.string?, ← Json.orDefault fields [] fieldsOfJson?⟩
  | _ => none

/-- The JSON form of a declaration. -/
def toJson (type : ObjectType) : Json :=
  .object
    [("name", .string type.name),
     ("fields", .object (type.fields.map fun (name, field) => (name, field.toJson)))]

end ObjectType
end HybridQuery
