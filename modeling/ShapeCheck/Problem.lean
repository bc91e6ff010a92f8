import ShapeCheck.Ty.Alias

/-!
# Problems

What the checker reports. A problem is a cause with the types and names it speaks about; its kind
and its wording are read off the cause.

* `Problem.kind` classifies a problem.
* `Problem.message` words it, with the types printed as the table says.
-/

namespace ShapeCheck

/-- The kinds of problems. -/
inductive ProblemKind where
  | cyclicAlias
  | unassignable
  | typeParameterConstraint
  | noMatchingOverload
  | unresolvedIdentifier
  | arity
  | notCallable
  | unknownProperty
  | readonlyAssignment
  | declarationConflict
  | implicitAny
  | invalidOperator
  | invalidDeclaration
  deriving DecidableEq, Repr, Inhabited

/-- The name of a kind. -/
def ProblemKind.text : ProblemKind → String
  | cyclicAlias => "CyclicAlias"
  | unassignable => "Unassignable"
  | typeParameterConstraint => "TypeParameterConstraint"
  | noMatchingOverload => "NoMatchingOverload"
  | unresolvedIdentifier => "UnresolvedIdentifier"
  | arity => "Arity"
  | notCallable => "NotCallable"
  | unknownProperty => "UnknownProperty"
  | readonlyAssignment => "ReadonlyAssignment"
  | declarationConflict => "DeclarationConflict"
  | implicitAny => "ImplicitAny"
  | invalidOperator => "InvalidOperator"
  | invalidDeclaration => "InvalidDeclaration"

/-- What a declared type name stands for. -/
inductive NameKind where
  | alias
  | interface
  | enumeration
  | classDecl
  | builtin
  deriving DecidableEq, Repr, Inhabited

/-- The kind of a name with its article. -/
def NameKind.text : NameKind → String
  | .alias => "a type alias"
  | .interface => "an interface"
  | .enumeration => "an enum"
  | .classDecl => "a class"
  | .builtin => "a builtin"

/-- What is counted when a number of arguments is wrong. -/
inductive Counted where
  | arguments
  | typeArguments
  deriving DecidableEq, Repr, Inhabited

/-- The name of what is counted. -/
def Counted.text : Counted → String
  | arguments => "arguments"
  | typeArguments => "type arguments"

/-- Why a value of one type had to fit another. -/
inductive FitReason where
  | assignment
  | argument
  | implementing (className : String)
  | overriding (className : String)
  /-- An implementation stands behind an overload signature. -/
  | overload
  | assertion
  deriving DecidableEq, Repr, Inhabited

/-- Something wrong with a program. -/
inductive Problem where
  | cyclicAlias (name : String) (chain : List String)
  | unassignable (source target : Ty) (reason : FitReason)
  | outOfBound (parameter : String) (bound computed : Ty)
  /-- No signature of an overloaded function takes the arguments. -/
  | noOverload (signatures arguments : List Ty)
  | unresolved (name : String)
  /-- A wrong number of arguments; without a greatest number there is no upper limit. -/
  | arity (what : Counted) (least : Nat) (greatest : Option Nat) (got : Nat)
  | notCallable (type : Ty)
  | notConstructable (type : Ty)
  | abstractConstruction
  | unknownProperty (name : String) (type : Ty)
  | possiblyMissing (type : Ty)
  | noSuchPlace (type : Ty) (length : Nat) (key : String)
  | notAnIndex (index type : Ty)
  /-- A look-up by number in an enum without a run-time object. -/
  | constEnumLookup
  | constantAssigned (name : String)
  | readonlyProperty (name : String)
  | readonlyIndex (type : Ty)
  | duplicate (name : String)
  | duplicateKind (name : String) (as : NameKind)
  /-- Declarations of one interface with different numbers of type parameters. -/
  | typeParametersDiffer (name : String)
  /-- Declarations of one interface that disagree about a property. -/
  | propertyTypesDiffer (name : String) (first here : Ty)
  | duplicateIndex (key : IndexKey)
  | duplicateImplementation
  | repeatedProperty
  | redeclared (name : String)
  | aliasRefused (cause : AliasError)
  | implicitAny (name : String)
  | unaryOperand (op : UnaryOp) (type : Ty)
  | binaryOperands (op : BinaryOp) (left right : Ty)
  | badBigint (digits : String)
  /-- An assignment to something that is neither a variable nor a property. -/
  | badTarget
  | constWithoutValue
  | strayReturn
  /-- A function that may end without the value it has to return. -/
  | missingReturn
  | missingImplementation
  | circularBase (name : String)
  | baseNotClass (name : String) (kind : NameKind)
  | abstractWithBody (name : String)
  | abstractInConcrete (name : String)
  /-- An inherited abstract method that is not implemented. -/
  | abstractNotImplemented (className name owner : String)
  /-- An enum member without a value after one with a string. -/
  | enumMemberWithoutValue
  | enumNotConstant (value : String)
  deriving Inhabited

namespace Problem

/-- The kind of a problem. -/
def kind : Problem → ProblemKind
  | cyclicAlias .. => .cyclicAlias
  | unassignable .. => .unassignable
  | outOfBound .. => .typeParameterConstraint
  | noOverload .. => .noMatchingOverload
  | unresolved .. => .unresolvedIdentifier
  | arity .. => .arity
  | notCallable .. | notConstructable .. | abstractConstruction => .notCallable
  | unknownProperty .. | possiblyMissing .. | noSuchPlace .. | notAnIndex .. | constEnumLookup =>
    .unknownProperty
  | constantAssigned .. | readonlyProperty .. | readonlyIndex .. => .readonlyAssignment
  | duplicate .. | duplicateKind .. | typeParametersDiffer .. | propertyTypesDiffer ..
  | duplicateIndex .. | duplicateImplementation | repeatedProperty | redeclared ..
  | aliasRefused .. => .declarationConflict
  | implicitAny .. => .implicitAny
  | unaryOperand .. | binaryOperands .. => .invalidOperator
  | badBigint .. | badTarget | constWithoutValue | strayReturn | missingReturn
  | missingImplementation | circularBase .. | baseNotClass .. | abstractWithBody ..
  | abstractInConcrete .. | abstractNotImplemented .. | enumMemberWithoutValue
  | enumNotConstant .. => .invalidDeclaration

/-- A text between apostrophes. -/
def named (s : String) : String := "'" ++ s ++ "'"

/-- The wording of a type that does not fit. -/
def unassignableMessage (source target : String) : FitReason → String
  | .assignment => "Type " ++ named source ++ " is not assignable to type " ++ named target ++ "."
  | .argument =>
    "Argument of type " ++ named source ++ " is not assignable to parameter of type " ++
      named target ++ "."
  | .implementing name =>
    "Class " ++ named name ++ " incorrectly implements interface " ++ named target ++ "."
  | .overriding name => "Class " ++ named name ++ " incorrectly extends its base class: " ++
      named source ++ " is not assignable to " ++ named target ++ "."
  | .overload =>
    "This overload signature is not compatible with its implementation signature."
  | .assertion => "Conversion of type " ++ named source ++ " to type " ++ named target ++
      " may be a mistake because neither type sufficiently overlaps with the other."

/-- The wording of a wrong number of arguments. -/
def arityMessage (what : Counted) (least : Nat) (greatest : Option Nat) (got : Nat) : String :=
  let expected := match greatest with
    | none => "at least " ++ toString least
    | some most => if least = most then toString least else toString least ++ "-" ++ toString most
  "Expected " ++ expected ++ " " ++ what.text ++ ", but got " ++ toString got ++ "."

/-- The wording of a call that no signature takes, with every signature tried. -/
def noOverloadMessage (signatures arguments : List String) : String :=
  let count := toString signatures.length
  let tried := signatures.zipIdx.map fun (s, i) =>
    "\n  Overload " ++ toString (i + 1) ++ " of " ++ count ++ ", " ++ named s
  "No overload matches this call with arguments (" ++ joinWith ", " arguments ++ ")." ++
    String.join tried

/-- The wording of an index that cannot be used. -/
def notAnIndexMessage (index type : String) : String :=
  "Element implicitly has an 'any' type because expression of type " ++ named index ++
    " can't be used to index type " ++ named type ++ "."

/-- Whether the type is a class value. -/
def isClass (table : Table) (t : Ty) : Bool :=
  match table.shape t with
  | .classValue _ _ _ => true
  | _ => false

/-- The wording of a value that cannot be called. -/
def notCallableMessage (table : Table) (t : Ty) : String :=
  if isClass table t then
    "Value of type " ++ named (table.text t) ++ " is not callable. Did you mean to include 'new'?"
  else
    "This expression is not callable. Type " ++ named (table.text t) ++ " has no call signatures."

/-- A type in a message; a type that is missing leaves the mark of a missing value. -/
def typeText (table : Table) (t : Ty) : String :=
  if table.isNothing t then "%!s(<nil>)" else table.text t

/-- The wording of a problem. -/
def message (table : Table) : Problem → String
  | cyclicAlias name chain => (AliasError.cyclic name chain).message
  | unassignable source target reason =>
    unassignableMessage (table.text source) (typeText table target) reason
  | outOfBound parameter bound computed =>
    "Type " ++ named (typeText table computed) ++ " does not satisfy the constraint " ++
      named (typeText table bound) ++ " of type parameter " ++ named parameter ++ "."
  | noOverload signatures arguments =>
    noOverloadMessage (signatures.map table.text) (arguments.map table.text)
  | unresolved name => "Cannot find name " ++ named name ++ "."
  | arity what least greatest got => arityMessage what least greatest got
  | notCallable t => notCallableMessage table t
  | notConstructable t => "This expression is not constructable. Type " ++ named (table.text t) ++
      " has no construct signatures."
  | abstractConstruction => "Cannot create an instance of an abstract class."
  | unknownProperty name t =>
    "Property " ++ named name ++ " does not exist on type " ++ named (table.text t) ++ "."
  | possiblyMissing t => "Object is possibly " ++ named (table.text t) ++ "."
  | noSuchPlace t length key => "Tuple type " ++ named (table.text t) ++ " of length " ++
      named (toString length) ++ " has no element at index " ++ named key ++ "."
  | notAnIndex index t => notAnIndexMessage (table.text index) (table.text t)
  | constEnumLookup => "A const enum member can only be accessed using a string literal."
  | constantAssigned name => "Cannot assign to " ++ named name ++ " because it is a constant."
  | readonlyProperty name =>
    "Cannot assign to " ++ named name ++ " because it is a read-only property."
  | readonlyIndex t =>
    "Index signature in type " ++ named (table.text t) ++ " only permits reading."
  | duplicate name => "Duplicate identifier " ++ named name ++ "."
  | duplicateKind name as =>
    "Duplicate identifier " ++ named name ++ ". It is already declared as " ++ as.text ++ "."
  | typeParametersDiffer name =>
    "All declarations of " ++ named name ++ " must have identical type parameters."
  | propertyTypesDiffer name first here =>
    "Subsequent property declarations must have the same type. Property " ++ named name ++
      " must be of type " ++ named (table.text first) ++ ", but here has type " ++
      named (table.text here) ++ "."
  | duplicateIndex key => "Duplicate index signature for type " ++ named key.text ++ "."
  | duplicateImplementation => "Duplicate function implementation."
  | repeatedProperty => "An object literal cannot have multiple properties with the same name."
  | redeclared name => "Cannot redeclare block-scoped variable " ++ named name ++ "."
  | aliasRefused cause => cause.message
  | implicitAny name => "Parameter " ++ named name ++ " implicitly has an 'any' type."
  | unaryOperand op t =>
    "Operator " ++ named op.text ++ " cannot be applied to type " ++ named (table.text t) ++ "."
  | binaryOperands op left right =>
    "Operator " ++ named op.text ++ " cannot be applied to types " ++
      named (table.text left) ++ " and " ++ named (table.text right) ++ "."
  | badBigint digits => "Invalid bigint literal " ++ named (digits ++ "n") ++ "."
  | badTarget =>
    "The left-hand side of an assignment expression must be a variable or a property access."
  | constWithoutValue => "'const' declarations must be initialized."
  | strayReturn => "A 'return' statement can only be used within a function body."
  | missingReturn => "Function lacks ending return statement and return type does not include " ++
      "'undefined'."
  | missingImplementation =>
    "Function implementation is missing or not immediately following the declaration."
  | circularBase name =>
    "Class " ++ named name ++ " is referenced directly or indirectly in its own base expression."
  | baseNotClass name kind =>
    "A class can only extend a class; " ++ named name ++ " is " ++ kind.text ++ "."
  | abstractWithBody name =>
    "Method " ++ named name ++ " cannot have an implementation because it is marked abstract."
  | abstractInConcrete name =>
    "Abstract method " ++ named name ++ " can only appear within an abstract class."
  | abstractNotImplemented className name owner =>
    "Non-abstract class " ++ named className ++ " does not implement inherited abstract member " ++
      named name ++ " from class " ++ named owner ++ "."
  | enumMemberWithoutValue => "Enum member must have initializer."
  | enumNotConstant value =>
    "Enum initializer " ++ named value ++ " is not a constant expression."

end Problem

end ShapeCheck
