import ShapeCheck.Source
import ShapeCheck.Number.Binary64
import ShapeCheck.Ty

/-!
# The declaration tree

What a declaration file says: types, expressions, statements and declarations. Every node that can
be reported on has a position. Expressions and variable statements also have a number, their place
in the order of the whole tree, under which the checker records their types.

Mandatory parts are plain fields and parts that may be left out are options, so a tree is complete
by its type.
-/

namespace ShapeCheck

/-- Where a node stands, and its number in the order of the tree. -/
structure Site where
  position : Position := {}
  /-- The place in tree order; zero until the tree is numbered. -/
  number : Nat := 0
  deriving Inhabited, Repr

/-- A literal written as a type. -/
inductive LiteralSpelling where
  | number (value : Binary64)
  | string (value : String)
  | boolean (value : Bool)
  | bigint (digits : String)
  deriving Inhabited, Repr, DecidableEq

/-- Operators in front of their operand. -/
inductive UnaryOp where
  | not
  | negate
  deriving DecidableEq, Repr, Inhabited

/-- Operators between two operands. -/
inductive BinaryOp where
  | coalesce | or | and
  | equal | notEqual | strictEqual | strictNotEqual
  | less | greater | lessEqual | greaterEqual
  | add | subtract | multiply | divide | remainder
  deriving DecidableEq, Repr, Inhabited

/-- The spelling of an operator. -/
def UnaryOp.text : UnaryOp → String
  | .not => "!"
  | .negate => "-"

/-- The spelling of an operator. -/
def BinaryOp.text : BinaryOp → String
  | .coalesce => "??" | .or => "||" | .and => "&&"
  | .equal => "==" | .notEqual => "!=" | .strictEqual => "===" | .strictNotEqual => "!=="
  | .less => "<" | .greater => ">" | .lessEqual => "<=" | .greaterEqual => ">="
  | .add => "+" | .subtract => "-" | .multiply => "*" | .divide => "/" | .remainder => "%"

/-- How a variable is bound. -/
inductive BindingKind where
  | let
  | const
  | var
  deriving DecidableEq, Repr, Inhabited

/-- The spelling of a binding kind. -/
def BindingKind.text : BindingKind → String
  | .let => "let"
  | .const => "const"
  | .var => "var"

mutual

/-- A type as written. -/
inductive TypeExpr where
  | reference (position : Position) (name : String) (arguments : List TypeExpr)
  | literal (position : Position) (value : LiteralSpelling)
  | union (position : Position) (members : List TypeExpr)
  | intersection (position : Position) (members : List TypeExpr)
  | array (position : Position) (element : TypeExpr) (readonly : Bool)
  /-- A tuple; the rest is the element type of its trailing part. -/
  | tuple (position : Position) (slots : List TupleSlot) (rest : Option TypeExpr) (readonly : Bool)
  | object (position : Position) (members : MemberList)
  | function (signature : Signature)

/-- One fixed place of a tuple type. -/
inductive TupleSlot where
  | mk (type : TypeExpr) (optional : Bool)

/-- A property of an object type or an interface. -/
inductive PropertySpec where
  | mk (position : Position) (name : String) (type : TypeExpr) (optional readonly : Bool)

/-- An index signature. -/
inductive IndexSpec where
  | mk (position : Position) (key : IndexKey) (value : TypeExpr)

/-- The members of an object type or an interface. -/
inductive MemberList where
  | mk (properties : List PropertySpec) (index : Option IndexSpec) (calls : List Signature)

/-- A type parameter with an optional bound and an optional default. -/
inductive TypeParam where
  | mk (position : Position) (name : String) (bound default : Option TypeExpr)

/-- A parameter of a function. One with an initializer may be left out by callers. -/
inductive Param where
  | mk (position : Position) (name : String) (type : Option TypeExpr) (optional : Bool)
      (initial : Option Expr)

/-- What is written of a function in front of its body. -/
inductive Signature where
  | mk (position : Position) (typeParams : List TypeParam) (params : List Param)
      (rest : Option Param) (receiver result : Option TypeExpr)

/-- An expression. -/
inductive Expr where
  | identifier (site : Site) (name : String)
  | number (site : Site) (value : Binary64)
  | string (site : Site) (value : String)
  | boolean (site : Site) (value : Bool)
  | bigint (site : Site) (digits : String)
  | null (site : Site)
  | undefined (site : Site)
  | this (site : Site)
  | array (site : Site) (elements : List Expr)
  | object (site : Site) (properties : List Property)
  | call (site : Site) (callee : Expr) (typeArguments : List TypeExpr) (arguments : List Expr)
  | construct (site : Site) (callee : Expr) (typeArguments : List TypeExpr) (arguments : List Expr)
  | member (site : Site) (object : Expr) (property : String) (optional : Bool)
  | index (site : Site) (object key : Expr)
  | typeof (site : Site) (operand : Expr)
  | unary (site : Site) (op : UnaryOp) (operand : Expr)
  | binary (site : Site) (left : Expr) (op : BinaryOp) (right : Expr)
  | assign (site : Site) (target value : Expr)
  | assertion (site : Site) (value : Expr) (type : TypeExpr)
  | function (site : Site) (signature : Signature) (body : Expr)

/-- One entry of an object literal. -/
inductive Property where
  | mk (position : Position) (key : String) (value : Expr)

end

/-- A variable declaration. -/
structure Variable where
  site : Site
  kind : BindingKind
  name : String
  type : Option TypeExpr
  value : Option Expr

mutual

/-- A statement. -/
inductive Stmt where
  | variable (v : Variable)
  | expression (position : Position) (value : Expr)
  | block (b : Block)
  | conditional (position : Position) (condition : Expr) (yes : Block) (no : Option Block)
  | exit (position : Position) (value : Option Expr)
  | raise (position : Position) (value : Expr)

/-- A list of statements. -/
inductive Block where
  | mk (position : Position) (statements : List Stmt)

end

/-- A function declaration, a method or a constructor. Without a body it is an overload signature.
-/
structure FunctionDecl where
  position : Position
  /-- The name; empty when the name is not written as a scalar. -/
  name : String
  isAbstract : Bool := false
  signature : Signature
  body : Option Block

/-- A field of a class. -/
structure ClassField where
  position : Position
  name : String
  type : Option TypeExpr
  optional : Bool
  readonly : Bool
  value : Option Expr

/-- The class named in an extends clause. -/
structure BaseRef where
  position : Position
  name : String
  arguments : List TypeExpr

/-- A class declaration. -/
structure ClassDecl where
  position : Position
  name : String
  isAbstract : Bool
  typeParams : List TypeParam
  base : Option BaseRef
  implementing : List TypeExpr
  fields : List ClassField
  construction : Option FunctionDecl
  methods : List FunctionDecl

/-- A member of an enum; without a value it is numbered. -/
structure EnumMember where
  position : Position
  name : String
  value : Option Expr

/-- A type alias declaration. -/
structure AliasDecl where
  position : Position
  name : String
  typeParams : List TypeParam
  type : TypeExpr

/-- An interface declaration. Those of one name form one shape. -/
structure InterfaceDecl where
  position : Position
  name : String
  typeParams : List TypeParam
  bases : List TypeExpr
  members : MemberList

/-- An enum declaration. -/
structure EnumDecl where
  position : Position
  name : String
  isConst : Bool
  members : List EnumMember

/-- A top-level declaration. -/
inductive Declaration where
  | alias (d : AliasDecl)
  | interface (d : InterfaceDecl)
  | enumeration (d : EnumDecl)
  | function (d : FunctionDecl)
  | classDecl (d : ClassDecl)
  | variable (v : Variable)
  | statement (position : Position) (s : Stmt)

/-- A declaration file as a tree. -/
structure Program where
  source : Source
  declarations : List Declaration

instance : Inhabited TypeExpr := ⟨.reference {} "" []⟩
instance : Inhabited Expr := ⟨.null {}⟩
instance : Inhabited Signature := ⟨.mk {} [] [] none none none⟩
instance : Inhabited MemberList := ⟨.mk [] none []⟩
instance : Inhabited Block := ⟨.mk {} []⟩
instance : Inhabited Stmt := ⟨.block default⟩

namespace TupleSlot

/-- The type at the place. -/
def type : TupleSlot → TypeExpr
  | mk t _ => t

/-- Whether the place may be absent. -/
def optional : TupleSlot → Bool
  | mk _ o => o

end TupleSlot

namespace PropertySpec

/-- Where the property stands. -/
def position : PropertySpec → Position
  | mk p _ _ _ _ => p

/-- The name. -/
def name : PropertySpec → String
  | mk _ n _ _ _ => n

/-- The type. -/
def type : PropertySpec → TypeExpr
  | mk _ _ t _ _ => t

/-- Whether the property may be absent. -/
def optional : PropertySpec → Bool
  | mk _ _ _ o _ => o

/-- Whether the property may not be assigned. -/
def readonly : PropertySpec → Bool
  | mk _ _ _ _ r => r

end PropertySpec

namespace IndexSpec

/-- Where the index signature stands. -/
def position : IndexSpec → Position
  | mk p _ _ => p

/-- The key type. -/
def key : IndexSpec → IndexKey
  | mk _ k _ => k

/-- The value type. -/
def value : IndexSpec → TypeExpr
  | mk _ _ v => v

end IndexSpec

namespace MemberList

/-- The properties. -/
def properties : MemberList → List PropertySpec
  | mk ps _ _ => ps

/-- The index signature. -/
def index : MemberList → Option IndexSpec
  | mk _ i _ => i

/-- The call signatures. -/
def calls : MemberList → List Signature
  | mk _ _ cs => cs

end MemberList

namespace TypeParam

/-- Where the type parameter stands. -/
def position : TypeParam → Position
  | mk p _ _ _ => p

/-- The name. -/
def name : TypeParam → String
  | mk _ n _ _ => n

/-- The bound. -/
def bound : TypeParam → Option TypeExpr
  | mk _ _ b _ => b

/-- The default. -/
def default : TypeParam → Option TypeExpr
  | mk _ _ _ d => d

end TypeParam

namespace Param

/-- Where the parameter stands. -/
def position : Param → Position
  | mk p _ _ _ _ => p

/-- The name. -/
def name : Param → String
  | mk _ n _ _ _ => n

/-- The annotation. -/
def type : Param → Option TypeExpr
  | mk _ _ t _ _ => t

/-- Whether the parameter is marked optional. -/
def optional : Param → Bool
  | mk _ _ _ o _ => o

/-- The initializer. -/
def initial : Param → Option Expr
  | mk _ _ _ _ i => i

end Param

namespace Signature

/-- Where the signature stands. -/
def position : Signature → Position
  | mk p _ _ _ _ _ => p

/-- The type parameters. -/
def typeParams : Signature → List TypeParam
  | mk _ ts _ _ _ _ => ts

/-- The parameters. -/
def params : Signature → List Param
  | mk _ _ ps _ _ _ => ps

/-- The rest parameter. -/
def rest : Signature → Option Param
  | mk _ _ _ r _ _ => r

/-- The declared receiver type. -/
def receiver : Signature → Option TypeExpr
  | mk _ _ _ _ t _ => t

/-- The declared result type. -/
def result : Signature → Option TypeExpr
  | mk _ _ _ _ _ r => r

end Signature

namespace Property

/-- Where the entry stands. -/
def position : Property → Position
  | mk p _ _ => p

/-- The key. -/
def key : Property → String
  | mk _ k _ => k

/-- The value. -/
def value : Property → Expr
  | mk _ _ v => v

end Property

namespace Block

/-- Where the block stands. -/
def position : Block → Position
  | mk p _ => p

/-- The statements. -/
def statements : Block → List Stmt
  | mk _ ss => ss

end Block

/-- The kinds of nodes that have a type. -/
inductive NodeKind where
  | identifier | number | string | boolean | bigint | null | undefined | this
  | array | object | call | construct | member | index | typeof | unary | binary
  | assign | assertion | function | variable
  deriving DecidableEq, Repr, Inhabited

namespace Expr

/-- Where the expression stands. -/
def site : Expr → Site
  | identifier s _ | number s _ | string s _ | boolean s _ | bigint s _
  | null s | undefined s | this s | array s _ | object s _ | call s _ _ _ | construct s _ _ _
  | member s _ _ _ | index s _ _ | typeof s _ | unary s _ _ | binary s _ _ _ | assign s _ _
  | assertion s _ _ | function s _ _ => s

/-- The position of the expression. -/
def position (e : Expr) : Position := e.site.position

/-- The kind of the expression. -/
def kind : Expr → NodeKind
  | identifier .. => .identifier
  | number .. => .number
  | string .. => .string
  | boolean .. => .boolean
  | bigint .. => .bigint
  | null .. => .null
  | undefined .. => .undefined
  | this .. => .this
  | array .. => .array
  | object .. => .object
  | call .. => .call
  | construct .. => .construct
  | member .. => .member
  | index .. => .index
  | typeof .. => .typeof
  | unary .. => .unary
  | binary .. => .binary
  | assign .. => .assign
  | assertion .. => .assertion
  | function .. => .function

end Expr

/-- The position of a written type. -/
def TypeExpr.position : TypeExpr → Position
  | .reference p _ _ | .literal p _ | .union p _ | .intersection p _ | .array p _ _
  | .tuple p _ _ _ | .object p _ => p
  | .function s => s.position

namespace Declaration

/-- The name declared; empty for statements. -/
def name : Declaration → String
  | .alias d => d.name
  | .interface d => d.name
  | .enumeration d => d.name
  | .function d => d.name
  | .classDecl d => d.name
  | .variable v => v.name
  | .statement _ _ => ""

/-- Where the declaration stands. -/
def position : Declaration → Position
  | .alias d => d.position
  | .interface d => d.position
  | .enumeration d => d.position
  | .function d => d.position
  | .classDecl d => d.position
  | .variable v => v.site.position
  | .statement p _ => p

end Declaration

end ShapeCheck
