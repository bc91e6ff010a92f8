import ShapeCheck.Source
import ShapeCheck.Token
import ShapeCheck.Text.Quoted

/-!
# Syntax errors

What can be wrong with a snippet or with the document around it. Each error is a cause and a
position; the wording is in `SyntaxProblem.message`.
-/

namespace ShapeCheck

/-- What is wrong with a snippet or a document. -/
inductive SyntaxProblem where
  | expected (wanted : TokenKind) (found : Token)
  | unexpected (found : Token)
  | noOperand (found : Token)
  | noType (found : Token)
  | badNumber (literal : String)
  | inlineBlock
  | noPropertyName (found : Token)
  | noPropertyAfterDot (found : Token)
  /-- A readonly mark in front of a type other than an array or a tuple. -/
  | readonlyModifier
  | restElementNotLast
  | restElementNotArray
  | indexKeyType
  | duplicateIndex
  | initializerInType
  | noParameterList (found : Token)
  | restParameterNotLast
  | noParameterName (found : Token)
  | initializerClash (name : String)
  | noTypeParameterName (found : Token)
  | noEnumMemberName (found : Token)
  | noDeclarations
  | noKind
  | duplicateKey (key : String)
  | notString (key : String)
  | notList (key : String)
  | notFlag (key : String)
  | noName (what : String)
  | missingAliasTarget (name : String)
  | baseNotName
  | constructorNotMapping
  | notMethod (kind : String)
  | notStatements
  | missingBranch
  | unknownKind (kind : String)

/-- A token as messages describe it. -/
def Token.describe (t : Token) : String :=
  if t.kind = .endOfInput then "end of input"
  else t.kind.name ++ " (" ++ Text.quoted t.text ++ ")"

/-- The wording of a syntax error. -/
def SyntaxProblem.message : SyntaxProblem → String
  | .expected wanted found =>
    "expected next token to be " ++ wanted.name ++ ", got " ++ found.describe ++ " instead"
  | .unexpected found => "unexpected " ++ found.describe
  | .noOperand found => "no prefix parse function for " ++ found.describe ++ " found"
  | .noType found => "expected a type, got " ++ found.describe
  | .badNumber literal => "could not parse " ++ Text.quoted literal ++ " as number"
  | .inlineBlock => "block-bodied function literals are declared with a body list, not inline"
  | .noPropertyName found => "expected property name, got " ++ found.describe
  | .noPropertyAfterDot found => "expected property name after '.', got " ++ found.describe
  | .readonlyModifier => "'readonly' type modifier is only permitted on array and tuple types"
  | .restElementNotLast => "a rest element must be last in a tuple type"
  | .restElementNotArray => "a rest element type must be an array type"
  | .indexKeyType => "an index signature parameter type must be 'string' or 'number'"
  | .duplicateIndex => "duplicate index signature"
  | .initializerInType => "a parameter initializer is only allowed in a function implementation"
  | .noParameterList found => "expected '(' to start a parameter list, got " ++ found.describe
  | .restParameterNotLast => "a rest parameter must be last in a parameter list"
  | .noParameterName found => "expected parameter name, got " ++ found.describe
  | .initializerClash name =>
    "parameter '" ++ name ++ "' cannot have both an initializer and '?' or '...'"
  | .noTypeParameterName found => "expected type parameter name, got " ++ found.describe
  | .noEnumMemberName found => "expected enum member name, got " ++ found.describe
  | .noDeclarations => "expected a 'declarations' list"
  | .noKind => "expected a mapping whose first key names the kind"
  | .duplicateKey key => "duplicate key " ++ Text.quoted key
  | .notString key => key ++ ": expected a string"
  | .notList key => key ++ ": expected a list"
  | .notFlag key => key ++ ": expected true or false"
  | .noName what => "expected a " ++ what ++ " name"
  | .missingAliasTarget name => "type " ++ name ++ ": missing 'is'"
  | .baseNotName => "extends: expected a class name"
  | .constructorNotMapping => "constructor: expected a mapping with signature and body"
  | .notMethod kind => "expected 'method', got " ++ Text.quoted kind
  | .notStatements => "expected a list of statements"
  | .missingBranch => "if: missing 'then'"
  | .unknownKind kind => "unknown declaration or statement kind " ++ Text.quoted kind

/-- A problem at a position. -/
structure SyntaxError where
  position : Position
  problem : SyntaxProblem

/-- The error as one line, with the name of its file. -/
def SyntaxError.render (file : String) (e : SyntaxError) : String :=
  e.position.render file ++ ": SyntaxError: " ++ e.problem.message

end ShapeCheck
