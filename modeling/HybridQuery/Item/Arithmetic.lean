import HybridQuery.Item.Order
import HybridQuery.Numeric.Decimal
import HybridQuery.Syntax.Tree

/-!
# Arithmetic

An operation is done on integers of 64 bits if both operands are such, on doubles if one is a double,
and on exact decimals otherwise.

* `Item.arithmetic`: the result of an operator on two items.
* `Sequence.sum`: the sum of numbers.
* `ComparisonOp.holds`: what a comparison says of an order.
-/

namespace HybridQuery

/-! ## Faults -/

namespace Fault

/-- An integer result needs more than 64 bits. -/
def integerOverflow : Fault := .invalidArgument "Integer overflow"

/-- A divisor is zero. -/
def divisionByZero : Fault := .invalidArgument "Division by zero"

/-- The integer part of a quotient needs more than 64 bits, or there is none. -/
def quotientRange : Fault := .invalidArgument "Integer division result is out of range"

/-- An operand is no number. -/
def notNumeric (item : Item) : Fault :=
  .typeMismatch s!"Arithmetic is not defined for {item.typeName}"

/-- A sum of integers needs more than 64 bits. -/
def sumOverflow : Fault := .invalidArgument "Integer overflow in sum"

/-- Something summed up is no number. -/
def notSummable (item : Item) : Fault :=
  .typeMismatch s!"sum expects numeric items, found {item.typeName}"

end Fault

namespace Item

/-! ## Integers, decimals and doubles -/

/-- An integer of 64 bits, or the fault of one that does not fit. -/
def integerOf (n : Int) (fault : Fault) : EngineResult Item :=
  match fits64? n with
  | some n => .ok (.integer (Int64.ofInt n))
  | none => .fail fault

/-- Operators on decimals. -/
def decimalArithmetic (op : ArithmeticOp) (a b : Decimal) : EngineResult Item :=
  match op with
  | .add => .ok (.decimal (a.add b))
  | .subtract => .ok (.decimal (a.sub b))
  | .multiply => .ok (.decimal (a.mul b))
  | .divide => if b.isZero then .fail .divisionByZero else .ok (.decimal (a.divide b))
  | .modulo => if b.isZero then .fail .divisionByZero else .ok (.decimal (a.remainder b))
  | .integerDivide =>
    if b.isZero then .fail .divisionByZero
    else integerOf (a.divide b).truncate .quotientRange

/-- Operators on integers. A quotient of integers is a decimal. -/
def integerArithmetic (op : ArithmeticOp) (a b : Int) : EngineResult Item :=
  match op with
  | .add => integerOf (a + b) .integerOverflow
  | .subtract => integerOf (a - b) .integerOverflow
  | .multiply => integerOf (a * b) .integerOverflow
  | .divide => decimalArithmetic .divide (.ofInt a) (.ofInt b)
  | .integerDivide =>
    if b = 0 then .fail .divisionByZero else integerOf (Int.tdiv a b) .integerOverflow
  | .modulo =>
    if b = 0 then .fail .divisionByZero
    else if fits64? (Int.tdiv a b) = none then .fail .integerOverflow
    else integerOf (Int.tmod a b) .integerOverflow

/-- Operators on doubles. -/
def doubleArithmetic (op : ArithmeticOp) (a b : Float) : EngineResult Item :=
  match op with
  | .add => .ok (.double (a + b))
  | .subtract => .ok (.double (a - b))
  | .multiply => .ok (.double (a * b))
  | .divide => .ok (.double (a / b))
  | .modulo => .ok (.double (Double.remainder a b))
  | .integerDivide =>
    match Double.truncate? (a / b) with
    | some n => if n.natAbs < Power.two 63 then integerOf n .quotientRange else .fail .quotientRange
    | none => .fail .quotientRange

/-- The result of an operator. -/
def arithmetic (op : ArithmeticOp) (left right : Item) : EngineResult Item :=
  if !left.isNumeric then .fail (.notNumeric left)
  else if !right.isNumeric then .fail (.notNumeric right)
  else
    match left, right with
    | .integer a, .integer b => integerArithmetic op a.toInt b.toInt
    | left, right =>
      match left.decimal?, right.decimal? with
      | some a, some b => decimalArithmetic op a b
      | _, _ => doubleArithmetic op (left.double?.getD 0.0) (right.double?.getD 0.0)

end Item

/-! ## Sums -/

namespace Sequence

/-- The sum of integers from a start; every partial sum must fit in 64 bits. -/
def sumIntegers (total : Int) : Sequence → EngineResult Item
  | [] => Item.integerOf total .sumOverflow
  | i :: rest =>
    match fits64? (total + (i.integer?.map Int64.toInt).getD 0) with
    | some total => sumIntegers total rest
    | none => .fail .sumOverflow

/-- The sum of numbers: of integers as integers, else of doubles if there is one, else of decimals. -/
def sum (items : Sequence) : EngineResult Item :=
  match items.find? (!·.isNumeric) with
  | some item => .fail (.notSummable item)
  | none =>
    if items.all Item.isInteger then sumIntegers 0 items
    else if items.any Item.isDouble then
      .ok (.double ((items.filterMap Item.double?).foldl (· + ·) (-0.0)))
    else .ok (.decimal ((items.filterMap Item.decimal?).foldl Decimal.add .zero))

end Sequence

/-! ## Comparisons -/

/-- Whether a comparison holds of two items in an order. -/
def ComparisonOp.holds : ComparisonOp → Ordering → Bool
  | eq, o => o == .eq
  | ne, o => o != .eq
  | lt, o => o == .lt
  | le, o => o != .gt
  | gt, o => o == .gt
  | ge, o => o != .lt

end HybridQuery
