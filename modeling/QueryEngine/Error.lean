import QueryEngine.Condition
import QueryEngine.Statistic

/-!
# Errors

Every failure is a cause, and `Error.message` is the one place where causes are put into words.
The end of a stream is no error. Where a kind of error has several causes they are a type of
their own, whose last constructor stands for causes that other layers report in their own words.

* `Error.message`: the text of an error.
* `Error.isNotFound`, `Error.isContractViolation`: the two classes that callers tell apart.
-/

namespace QueryEngine

/-- Why bytes are not a tuple of a schema. -/
inductive Corruption where
  | wordOverrun (offset size : Nat)
  | textOverrun (length offset size : Nat)
  | fieldOverrun (offset size : Nat)
  | trailingBytes (count : Nat)
  | described (reason : String)
  deriving DecidableEq, Repr

/-- Why a condition cannot be bound. -/
inductive InvalidCondition where
  | needsRightAttribute (condition : Condition)
  | notIndexed (condition : Condition) (indexed : String)
  | described (reason : String)
  deriving DecidableEq, Repr

/-- Why a join does not support a condition. -/
inductive UnsupportedCondition where
  | needsEquality (condition : Condition)
  | needsAttribute (condition : Condition)
  | described (reason : String)
  deriving DecidableEq, Repr

/-- Why an attribute or a value cannot be aggregated. -/
inductive InvalidAggregate where
  | notNumericAttribute (statistic : Statistic) (dataType : DataType) (name : String)
  | notNumericValue (value : Value)
  | described (reason : String)
  deriving DecidableEq, Repr

/-- Which argument was refused. -/
inductive InvalidArgument where
  | unknownType (name : String)
  | duplicateAttribute (name table : String)
  | indexExists (table column : String)
  | zeroPageSize
  | zeroTupleSize
  | emptyProjection
  | zeroPages
  | zeroPartitions
  | described (reason : String)
  deriving DecidableEq, Repr

/-- What the store could not do. -/
inductive StorageFailure where
  | rowNotFound (rowId : Int) (table : String)
  | readFailed
  | described (reason : String)
  deriving DecidableEq, Repr

/-- A state that no input should lead to, or a statistic that has no value. -/
inductive InternalFailure where
  | fieldOutOfBounds (field count : Nat)
  | emptyGroup
  | countOverflow
  | shortPartition
  | described (reason : String)
  deriving DecidableEq, Repr

/-- Why a call failed. -/
inductive Error where
  | tableNotFound (table : String)
  | tableAlreadyExists (table : String)
  | columnNotFound (column : String)
  | indexNotFound (table column : String)
  | arityMismatch (expected got : Nat)
  | typeMismatch (expected found : DataType)
  | nonFiniteReal
  | valueTooLong (column : String) (max got : Nat)
  | tupleTooLarge (size max : Nat)
  | corruptTuple (cause : Corruption)
  | invalidCondition (cause : InvalidCondition)
  | unsupportedJoinCondition (cause : UnsupportedCondition)
  | invalidAggregate (cause : InvalidAggregate)
  | invalidArgument (cause : InvalidArgument)
  | notOpen (operator : String)
  | aborted (operator : String)
  | storage (cause : StorageFailure)
  | io (reason : String)
  | internal (cause : InternalFailure)
  deriving DecidableEq, Repr

def Corruption.message : Corruption → String
  | wordOverrun offset size => s!"4-byte read at offset {offset} overruns {size}-byte tuple"
  | textOverrun length offset size =>
    s!"text of {length} bytes at offset {offset} overruns {size}-byte tuple"
  | fieldOverrun offset size => s!"field at offset {offset} overruns {size}-byte tuple"
  | trailingBytes count => s!"{count} trailing bytes after last field"
  | described reason => reason

def InvalidCondition.message : InvalidCondition → String
  | needsRightAttribute condition =>
    s!"join condition '{condition.display}' needs an attribute on the right"
  | notIndexed condition indexed =>
    s!"'{condition.display}' does not compare against the indexed attribute '{indexed}'"
  | described reason => reason

def UnsupportedCondition.message : UnsupportedCondition → String
  | needsEquality condition => s!"hash join needs '=', got '{condition.display}'"
  | needsAttribute condition =>
    s!"hash join needs an attribute on the right, got '{condition.display}'"
  | described reason => reason

def InvalidAggregate.message : InvalidAggregate → String
  | notNumericAttribute statistic dataType name =>
    s!"{statistic.name} over {dataType.name} attribute '{name}'"
  | notNumericValue value => s!"'{value.display}' is not numeric"
  | described reason => reason

def InvalidArgument.message : InvalidArgument → String
  | unknownType name => s!"unknown type '{name}'"
  | duplicateAttribute name table => s!"duplicate attribute '{name}' in table '{table}'"
  | indexExists table column => s!"index on '{table}.{column}' already exists"
  | zeroPageSize => "page_size must be positive"
  | zeroTupleSize => "max_tuple_size must be positive"
  | emptyProjection => "projection needs at least one attribute"
  | zeroPages => "num_pages must be positive"
  | zeroPartitions => "num_partitions must be positive"
  | described reason => reason

def StorageFailure.message : StorageFailure → String
  | rowNotFound rowId table => s!"row {rowId} not found in '{table}'"
  | readFailed => "read failed"
  | described reason => reason

def InternalFailure.message : InternalFailure → String
  | fieldOutOfBounds field count => s!"field {field} out of bounds for {count}-field layout"
  | emptyGroup => "statistic of an empty group"
  | countOverflow => "COUNT does not fit in INTEGER"
  | shortPartition => "partition shorter than its count"
  | described reason => reason

namespace Error

def message : Error → String
  | tableNotFound table => s!"table '{table}' not found"
  | tableAlreadyExists table => s!"table '{table}' already exists"
  | columnNotFound column => s!"column '{column}' not found"
  | indexNotFound table column => s!"no index on '{table}.{column}'"
  | arityMismatch expected got => s!"expected {expected} values, got {got}"
  | typeMismatch expected found =>
    s!"type mismatch: expected {expected.name}, found {found.name}"
  | nonFiniteReal => "non-finite real value cannot be compared"
  | valueTooLong column max got =>
    s!"value for column {column} is too long, max {max}, got {got}"
  | tupleTooLarge size max => s!"tuple of {size} bytes exceeds maximum tuple size {max}"
  | corruptTuple cause => s!"corrupt tuple: {cause.message}"
  | invalidCondition cause => s!"invalid condition: {cause.message}"
  | unsupportedJoinCondition cause => s!"unsupported join condition: {cause.message}"
  | invalidAggregate cause => s!"invalid aggregate: {cause.message}"
  | invalidArgument cause => s!"invalid argument: {cause.message}"
  | notOpen operator => s!"{operator} used before open"
  | aborted operator => s!"{operator} aborted by an earlier failure"
  | storage cause => s!"storage error: {cause.message}"
  | io reason => s!"IO error: {reason}"
  | internal cause => cause.message

/-- Something that was named does not exist. -/
def isNotFound : Error → Bool
  | tableNotFound _ | columnNotFound _ | indexNotFound _ _ => true
  | _ => false

/-- The operator tree or its inputs are at fault, rather than the storage layer. -/
def isContractViolation : Error → Bool
  | columnNotFound _ | typeMismatch _ _ | nonFiniteReal | invalidCondition _
  | unsupportedJoinCondition _ | invalidAggregate _ | notOpen _ => true
  | _ => false

end Error

end QueryEngine
