import ShapeCompiler.Program
import ShapeCompiler.Value.Text

/-!
What can go wrong, as causes.

Errors of compilation are found while types are declared or a signature is specialised; errors of
a run while code executes or is interpreted. Each kind has one function `message` for its wording.
-/

namespace ShapeCompiler

/-- What an operation found where it needs something else. -/
inductive Found where
  | sentinel
  | integer (description : String)
  | record (description : String)
  deriving DecidableEq

namespace Found

def text : Found → String
  | sentinel => "incomplete"
  | integer description => description
  | record description => description

/-- What a value is to an operation that cannot use it. -/
def ofValue : Value → Found
  | .incomplete => sentinel
  | .record type _ => record type
  | v => integer v.typeName

end Found

/-- The operation at which a value of the wrong kind turned up. -/
inductive Place where
  | operator (op : Operator)
  /-- A record under construction on the machine. -/
  | construct
  /-- A field read on the machine. -/
  | readField
  /-- A field access in the interpreter. -/
  | access (field : Ident)
  /-- A constructor argument in the interpreter. -/
  | argument (record field : Ident)
  /-- The condition of a loop. -/
  | condition
  /-- The result of a specialisation that only yields the sentinel. -/
  | result
  /-- The result of a host function that was inferred to yield only the sentinel. -/
  | hostResult (function : Ident)
  deriving DecidableEq

def Place.text : Place → String
  | operator op => op.symbol
  | construct => "construct"
  | readField => "field"
  | access field => "." ++ field
  | argument record field => record ++ "." ++ field
  | condition => "while"
  | result => "return"
  | hostResult function => function

inductive RuntimeError where
  | divisionByZero
  /-- A native function failed, or a host function's result does not fit its type. -/
  | hostFunction (function : Ident) (message : String)
  | typeMismatch (place : Place) (found : List Found)
  /-- The code of a specialisation ended without a return. -/
  | missingReturn (function : Ident)
  | arityMismatch (function : Ident) (expected got : Nat)
  | undefinedVariable (name : Ident)
  | notDefined (function : Ident)
  /-- More interpreter activations than the options allow. -/
  | recursionLimit (limit : Nat)
  deriving DecidableEq

namespace RuntimeError

def message : RuntimeError → String
  | divisionByZero => "Divided by 0"
  | hostFunction function message => s!"Host function \"{function}\" failed: {message}"
  | typeMismatch place found =>
    s!"Invalid types for \"{place.text}\", got " ++ String.intercalate ", " (found.map Found.text)
  | missingReturn function => s!"Invalid types for \"{function}\", got missing return"
  | arityMismatch function expected got =>
    s!"Invalid number of arguments in \"{function}\", expected {expected}, got {got}"
  | undefinedVariable name => s!"Undefined variable \"{name}\""
  | notDefined function => s!"\"{function}\" is not defined"
  | recursionLimit limit => s!"Maximum recursion depth exceeded \"{limit}\""

/-- The kind of an error of a run; a missing return counts as a type mismatch. -/
def code : RuntimeError → String
  | divisionByZero => "RuntimeError::DivisionByZero"
  | hostFunction _ _ => "RuntimeError::HostFunction"
  | typeMismatch _ _ => "RuntimeError::TypeMismatch"
  | missingReturn _ => "RuntimeError::TypeMismatch"
  | arityMismatch _ _ _ => "RuntimeError::ArityMismatch"
  | undefinedVariable _ => "RuntimeError::UndefinedVariable"
  | notDefined _ => "RuntimeError::NotDefined"
  | recursionLimit _ => "RuntimeError::RecursionError"

end RuntimeError

/-- A position that expects a value of a declared type. -/
inductive Position where
  | field (record field : Ident)
  | argument (index : Nat) (function : Ident)
  deriving DecidableEq

def Position.text : Position → String
  | field record name => s!"field \"{record}.{name}\""
  | argument index function => s!"argument {index} of \"{function}\""

/-- A fault in types: of a declaration, of a value against its type, or of a program. -/
inductive TypeError where
  /-- A declared name that already stands for a scalar. -/
  | builtinScalar (name : Ident)
  /-- A name declared before with other fields or variants. -/
  | redeclared (name : Ident)
  | declaredTwice (name : Ident)
  | tooFewVariants (sum : Ident)
  | tooManyVariants (sum : Ident)
  /-- A variant that is no record of the same group. -/
  | foreignVariant (variant sum : Ident)
  | sharedVariant (record : Ident)
  | duplicateField (record field : Ident)
  | unresolvedField (type record field : Ident)
  | notRegistered (name : Ident)
  | widthOutOfRange (bits : Nat)
  | sentinelInRecord (record : Ident)
  /-- A record of a type that neither is the expected type nor one of its variants. -/
  | notValueOf (name : Ident) (type : String)
  | notRecord (name : String)
  | fieldCount (record : Ident) (expected got : Nat)
  | wrongValue (type : String) (got : String)
  | undecodable (kind : String) (type : String)
  /-- A conversion that ended without a value. -/
  | noValue (activity : String)
  | scalarNotRegistered (bits : Nat)
  | cannotUnify (a b : String)
  | scalarOperands (op : Operator) (got : String)
  | unfit (position : Position) (expected got : String)
  | noField (record field : Ident)
  | fieldOfNonRecord (field : Ident) (type : String)
  | sentinelArgument (index : Nat) (function : Ident)
  /-- Return types that still change after the allowed number of passes. -/
  | unsettled (function : Ident) (passes : Nat)
  /-- Variables of a loop whose types still change after the allowed number of rounds. -/
  | unsettledLoop (function : Ident)
  | unresolvedArguments (function : Ident)
  | noReturnType (function : Ident)
  | unknownNativeType (function type : Ident)
  /-- A function named like a type. -/
  | nameIsType (name : Ident)
  | undeclared (type : Ident)
  | sentinelSpecialization (function : Ident)
  deriving DecidableEq

def TypeError.message : TypeError → String
  | builtinScalar name => s!"\"{name}\" is a builtin scalar type"
  | redeclared name => s!"\"{name}\" is already declared with a different shape"
  | declaredTwice name => s!"\"{name}\" is declared twice"
  | tooFewVariants sum => s!"sum \"{sum}\" needs at least two variants"
  | tooManyVariants sum => s!"sum \"{sum}\" has more than 256 variants"
  | foreignVariant variant sum =>
    s!"variant \"{variant}\" of sum \"{sum}\" must be a record declared together with it"
  | sharedVariant record => s!"record \"{record}\" belongs to more than one sum"
  | duplicateField record field => s!"record \"{record}\" declares field \"{field}\" twice"
  | unresolvedField type record field =>
    s!"cannot resolve type \"{type}\" of field \"{record}.{field}\""
  | notRegistered name => s!"\"{name}\" was not registered"
  | widthOutOfRange bits => s!"scalar width {bits} is outside 1..=64"
  | sentinelInRecord record => s!"record \"{record}\" cannot hold the incomplete-match sentinel"
  | notValueOf name type => s!"\"{name}\" is not a value of type \"{type}\""
  | notRecord name => s!"\"{name}\" is not a record type"
  | fieldCount record expected got => s!"record \"{record}\" has {expected} fields, got {got}"
  | wrongValue type got => s!"expected a value of type \"{type}\", got {got}"
  | undecodable kind type => s!"cannot decode {kind} as \"{type}\""
  | noValue activity => s!"{activity} produced no value"
  | scalarNotRegistered bits => s!"scalar type u{bits} is not registered"
  | cannotUnify a b => s!"cannot unify \"{a}\" and \"{b}\""
  | scalarOperands op got => s!"operator {op.symbol} needs scalar operands, got \"{got}\""
  | unfit position expected got => s!"{position.text} expects \"{expected}\", got \"{got}\""
  | noField record field => s!"record \"{record}\" has no field \"{field}\""
  | fieldOfNonRecord field type =>
    s!"field \"{field}\" accessed on \"{type}\", which is not a record; match on it first"
  | sentinelArgument index function =>
    s!"argument {index} of \"{function}\" is always the incomplete-match sentinel"
  | unsettled function passes =>
    s!"return types reachable from \"{function}\" did not settle after {passes} passes"
  | unsettledLoop function => s!"types of the loop variables in \"{function}\" did not settle"
  | unresolvedArguments function =>
    s!"argument types of the call to \"{function}\" are unresolved"
  | noReturnType function => s!"no return type inferred for \"{function}\""
  | unknownNativeType function type => s!"native \"{function}\" names unknown type \"{type}\""
  | nameIsType name =>
    s!"\"{name}\" is already a type; functions and record constructors share one namespace"
  | undeclared type => s!"\"{type}\" is not a declared type"
  | sentinelSpecialization function =>
    s!"cannot specialize \"{function}\" on the incomplete-match sentinel"

inductive MatchFault where
  | mixedPatterns
  /-- The arms alone should name the type, but the first constructor is no record. -/
  | noRecordNamed
  | constructorOnScalar (type : String)
  | notVariant (name : Ident) (type : String)
  | binderCount (pattern : Pattern) (binders : Nat) (name : Ident) (fields : Nat)
  | literalOnRecord (type : String)
  deriving DecidableEq

def MatchFault.message : MatchFault → String
  | mixedPatterns => "constructor and literal patterns cannot be mixed"
  | noRecordNamed => "the first constructor pattern names no record type"
  | constructorOnScalar type => s!"constructor patterns cannot match a value of type \"{type}\""
  | notVariant name type => s!"\"{name}\" is not a variant of \"{type}\""
  | binderCount pattern binders name fields =>
    s!"pattern {pattern.text} binds {binders} fields, \"{name}\" has {fields}"
  | literalOnRecord type => s!"literal patterns cannot match a value of type \"{type}\""

inductive CompileError where
  | type (fault : TypeError)
  | matching (function : Ident) (fault : MatchFault)
  /-- A loop in a function that is to be compiled. -/
  | loop (function : Ident)
  | undefinedFunction (name : Ident)
  | undefinedVariable (function name : Ident)
  | arityMismatch (function : Ident) (expected got : Nat)
  deriving DecidableEq

namespace CompileError

def message : CompileError → String
  | type fault => s!"Type error: {fault.message}"
  | matching function fault => s!"Cannot compile match in \"{function}\": {fault.message}"
  | loop function => s!"Unsupported construct in \"{function}\": while loop"
  | undefinedFunction name => s!"\"{name}\" is not defined"
  | undefinedVariable function name => s!"Undefined variable \"{name}\" in \"{function}\""
  | arityMismatch function expected got =>
    s!"Invalid number of arguments in \"{function}\", expected {expected}, got {got}"

def code : CompileError → String
  | type _ => "CompileError::TypeError"
  | matching _ _ => "CompileError::MatchCompilationError"
  | loop _ => "CompileError::UnsupportedConstruct"
  | undefinedFunction _ => "CompileError::UndefinedFunction"
  | undefinedVariable _ _ => "CompileError::UndefinedVariable"
  | arityMismatch _ _ _ => "CompileError::ArityMismatch"

/-- Advice to the author of the program. -/
def help : CompileError → Option String
  | loop _ =>
    some "Only let, return, match and expressions compile; leave the function undecorated"
  | matching _ _ =>
    some "Constructor patterns name a variant of the sum and bind all fields or none"
  | _ => none

end CompileError

/-- A fault in the options of an engine. -/
inductive OptionsError where
  /-- A default width that is no width. -/
  | width (bits : Nat)
  /-- A limit that allows no activation at all. -/
  | depth
  /-- Settings text that cannot be read. -/
  | unreadable
  deriving DecidableEq

def OptionsError.message : OptionsError → String
  | width bits => s!"default_scalar_bits must be within 1..=64, got {bits}"
  | depth => "max_host_depth must be positive"
  | unreadable => "the settings cannot be read"

/-- What an engine answers when a request fails. -/
inductive Error where
  | compile (error : CompileError)
  | runtime (error : RuntimeError)
  /-- The compiled and the interpreted result of a function differ. -/
  | mismatch (function : Ident) (compiled reference : Value)
  | options (fault : OptionsError)

namespace Error

def message : Error → String
  | compile error => error.message
  | runtime error => error.message
  | mismatch function compiled reference =>
    s!"\"{function}\" differs: compiled {compiled.text}, interpreted {reference.text}"
  | options fault => s!"Invalid options: {fault.message}"

def code : Error → String
  | compile error => error.code
  | runtime error => error.code
  | mismatch _ _ _ => "Error::Mismatch"
  | options _ => "Error::InvalidOptions"

/-- Advice to the author of the program. -/
def help : Error → Option String
  | compile error => error.help
  | _ => none

/-- Whether the request failed before any code ran. -/
def isCompileError : Error → Bool
  | compile _ => true
  | _ => false

end Error

end ShapeCompiler
