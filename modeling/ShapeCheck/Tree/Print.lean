import ShapeCheck.Tree
import ShapeCheck.Number.Decimal
import ShapeCheck.Text.Quoted

/-!
# Printing types and expressions

The text of a written type or expression as messages show it. Prefix and infix applications are put
in parentheses; a function literal shows its parameters only.
-/

namespace ShapeCheck

/-- The text of a literal type. -/
def LiteralSpelling.text : LiteralSpelling → String
  | .number v => v.text
  | .string s => Text.quoted s
  | .boolean b => if b then "true" else "false"
  | .bigint digits => digits ++ "n"

/-- Joins texts with a separator between them. -/
def joinWith (separator : String) (parts : List String) : String :=
  separator.intercalate parts

/-- Type arguments as they follow a name: nothing when there are none. -/
def angled (arguments : List String) : String :=
  if arguments.isEmpty then "" else "<" ++ joinWith ", " arguments ++ ">"

/-- Whether the type needs parentheses as the element of an array. -/
def TypeExpr.isComposite : TypeExpr → Bool
  | .union .. | .intersection .. | .function .. => true
  | _ => false

mutual

/-- The text of a written type. -/
def TypeExpr.text : TypeExpr → String
  | .reference _ name arguments => name ++ angled (typeTexts arguments)
  | .literal _ value => value.text
  | .union _ members => joinWith " | " (typeTexts members)
  | .intersection _ members => joinWith " & " (typeTexts members)
  | .array _ element readonly =>
    let body := if element.isComposite then "(" ++ element.text ++ ")" else element.text
    (if readonly then "readonly " else "") ++ body ++ "[]"
  | .tuple _ slots rest _ => "[" ++ joinWith ", " (slotTexts slots ++ restTexts rest) ++ "]"
  | .object _ members => "\x7b " ++ joinWith "; " (memberTexts members) ++ " \x7d"
  | .function signature => signature.text

/-- The texts of several types. -/
def typeTexts : List TypeExpr → List String
  | [] => []
  | t :: ts => t.text :: typeTexts ts

/-- The texts of the fixed places of a tuple. -/
def slotTexts : List TupleSlot → List String
  | [] => []
  | .mk t optional :: ss => (t.text ++ (if optional then "?" else "")) :: slotTexts ss

/-- The text of the trailing part of a tuple. -/
def restTexts : Option TypeExpr → List String
  | none => []
  | some t => ["..." ++ t.text ++ "[]"]

/-- The texts of object members. -/
def memberTexts : MemberList → List String
  | .mk properties index calls =>
    propertySpecTexts properties ++ indexTexts index ++ callTexts calls

/-- The texts of properties. -/
def propertySpecTexts : List PropertySpec → List String
  | [] => []
  | .mk _ name t optional _ :: ps =>
    (name ++ (if optional then "?" else "") ++ ": " ++ t.text) :: propertySpecTexts ps

/-- The text of an index signature. -/
def indexTexts : Option IndexSpec → List String
  | none => []
  | some (.mk _ key value) => ["[key: " ++ key.text ++ "]: " ++ value.text]

/-- The texts of call signatures. -/
def callTexts : List Signature → List String
  | [] => []
  | s :: ss => s.text :: callTexts ss

/-- The text of a signature as a function type. -/
def Signature.text : Signature → String
  | .mk _ _ params rest _ result =>
    "(" ++ joinWith ", " (paramTexts params ++ restParamTexts rest) ++ ") => " ++ resultText result

/-- The texts of parameters. -/
def paramTexts : List Param → List String
  | [] => []
  | .mk _ name type optional _ :: ps =>
    (name ++ (if optional then "?" else "") ++ annotationText type) :: paramTexts ps

/-- The text of an annotation, if there is one. -/
def annotationText : Option TypeExpr → String
  | none => ""
  | some t => ": " ++ t.text

/-- The text of a rest parameter; an unannotated one is not shown. -/
def restParamTexts : Option Param → List String
  | some (.mk _ name (some t) _ _) => ["..." ++ name ++ ": " ++ t.text]
  | _ => []

/-- The text of a result type. -/
def resultText : Option TypeExpr → String
  | none => "void"
  | some t => t.text

end

/-- The names of parameters, a rest parameter after three dots. -/
def paramNames (params : List Param) (rest : Option Param) : List String :=
  params.map Param.name ++ (rest.map fun p => "..." ++ p.name).toList

mutual

/-- The text of an expression. -/
def Expr.text : Expr → String
  | .identifier _ name => name
  | .number _ value => value.text
  | .string _ value => Text.quoted value
  | .boolean _ value => if value then "true" else "false"
  | .bigint _ digits => digits ++ "n"
  | .null _ => "null"
  | .undefined _ => "undefined"
  | .this _ => "this"
  | .array _ elements => "[" ++ joinWith ", " (exprTexts elements) ++ "]"
  | .object _ properties => "\x7b " ++ joinWith ", " (propertyTexts properties) ++ " \x7d"
  | .call _ callee typeArguments arguments =>
    callee.text ++ angled (typeTexts typeArguments) ++ "(" ++ joinWith ", " (exprTexts arguments) ++
      ")"
  | .construct _ callee typeArguments arguments =>
    "new " ++ callee.text ++ angled (typeTexts typeArguments) ++
      "(" ++ joinWith ", " (exprTexts arguments) ++ ")"
  | .member _ object property optional =>
    object.text ++ (if optional then "?." else ".") ++ property
  | .index _ object key => object.text ++ "[" ++ key.text ++ "]"
  | .typeof _ operand => "typeof " ++ operand.text
  | .unary _ op operand => "(" ++ op.text ++ operand.text ++ ")"
  | .binary _ left op right => "(" ++ left.text ++ " " ++ op.text ++ " " ++ right.text ++ ")"
  | .assign _ target value => target.text ++ " = " ++ value.text
  | .assertion _ value type => value.text ++ " as " ++ type.text
  | .function _ (.mk _ _ params rest _ _) _ =>
    "(" ++ joinWith ", " (paramNames params rest) ++ ") => ..."

/-- The texts of several expressions. -/
def exprTexts : List Expr → List String
  | [] => []
  | e :: es => e.text :: exprTexts es

/-- The texts of the entries of an object literal. -/
def propertyTexts : List Property → List String
  | [] => []
  | .mk _ key value :: ps => (key ++ ": " ++ value.text) :: propertyTexts ps

end

end ShapeCheck
