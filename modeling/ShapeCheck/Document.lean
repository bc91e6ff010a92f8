import ShapeCheck.Files
import ShapeCheck.Snippet
import ShapeCheck.Text.Category
import ShapeCheck.Yaml.Document

/-!
# Declaration files

A declaration file is a YAML list of declarations. The first key of each names its kind, and types,
signatures and expressions are snippets. Loading a file gives a tree, or every syntax error in the
order in which it was found.

* `Document.load` is the whole way from a source to a tree.
* `Document.snippetBase` says where the text of a scalar starts, which places every token of a
  snippet in the file.
-/

namespace ShapeCheck.Document

open Yaml (Node)

/-- Loading: the source is at hand, errors are collected, newest first. -/
abbrev Load := ReaderT Source (StateM (List SyntaxError))

/-- Records a problem at a node. -/
def complain (node : Node) (p : SyntaxProblem) : Load Unit :=
  modify fun errors => ⟨node.position, p⟩ :: errors

/-- Where the text of a scalar starts: after the quote, or on the first line of a block. A scalar
with a written tag is taken to start where it stands. -/
def snippetBase (source : Source) (node : Node) : Position :=
  match node with
  | .scalar s =>
    if s.tagged then s.position
    else match s.style with
      | .plain => s.position
      | .singleQuoted | .doubleQuoted => { s.position with column := s.position.column + 1 }
      | .literal | .folded =>
        let line := source.line (s.position.line + 1)
        let indent := (line.toList.takeWhile (· = ' ')).length
        { line := s.position.line + 1, column := indent + 1 }
  | _ => node.position

/-- Reads the snippet of a node with one of the snippet readers. -/
def snippet {α : Type} (read : String → Position → Snippet.Reading α) (node : Node) :
    Load (Option α) := do
  let reading := read node.value (snippetBase (← readThe Source) node)
  modify fun errors => reading.errors.reverse ++ errors
  return reading.tree

/-- A mapping whose first key names its kind. -/
structure Entry where
  kind : String
  name : Node
  fields : List (String × Node)

/-- The value of a key. -/
def Entry.get? (e : Entry) (key : String) : Option Node := e.fields.lookup key

/-- The keys after the first; a repeated key is an error and its first value counts. -/
def uniqueFields : List (Node × Node) → List (String × Node) → Load (List (String × Node))
  | [], done => return done.reverse
  | (k, v) :: rest, done => do
    if (done.lookup k.value).isSome then
      complain k (.duplicateKey k.value)
      uniqueFields rest done
    else uniqueFields rest ((k.value, v) :: done)

/-- A node read as an entry; an alias stands for the node it refers to. -/
def entry? (node : Node) : Load (Option Entry) := do
  let node := match node with
    | .alias _ _ (some target) => target
    | other => other
  match node with
  | .mapping _ ((k, v) :: rest) => return some ⟨k.value, v, ← uniqueFields rest []⟩
  | _ =>
    complain node .noKind
    return none

/-- A field that has to be a scalar; a missing one or an empty one is none. -/
def scalar? (e : Entry) (key : String) : Load (Option Node) := do
  match e.get? key with
  | none => return none
  | some node =>
    if node.isNull then return none
    match node with
    | .scalar _ => return some node
    | _ =>
      complain node (.notString key)
      return none

/-- A field that is a list; a lone scalar is a list of one. -/
def items (e : Entry) (key : String) : Load (List Node) := do
  match e.get? key with
  | none => return []
  | some (.sequence _ nodes) => return nodes
  | some (.scalar s) => return if s.tag = .null then [] else [.scalar s]
  | some node =>
    complain node (.notList key)
    return []

/-- A field that is a truth value; a missing one is false. -/
def flag (e : Entry) (key : String) : Load Bool := do
  match e.get? key with
  | none => return false
  | some node =>
    match node.truth? with
    | some b => return b
    | none =>
      complain node (.notFlag key)
      return false

/-- The characters that cannot stand in a declared name. -/
def isReserved (c : Char) : Bool :=
  [' ', '\t', '<', '>', '(', ')', '[', ']', '{', '}', ':', ';', ',', '|', '&'].contains c

/-- The name a node declares. -/
def identifier (node : Node) (what : String) : Load String := do
  let name := Text.trim node.value
  let isScalar := match node with
    | .scalar _ => true
    | _ => false
  if !isScalar || name.isEmpty || name.toList.any isReserved then
    complain node (.noName what)
    return ""
  return name

/-- Snippets of a list, those that fail left out. -/
def snippets {α : Type} (read : String → Position → Snippet.Reading α) (nodes : List Node) :
    Load (List α) := do
  return (← nodes.mapM (snippet read)).filterMap id

/-- A field that is a type. -/
def type? (e : Entry) (key : String) : Load (Option TypeExpr) := do
  match ← scalar? e key with
  | some node => snippet Snippet.readType node
  | none => return none

/-- A field that is an expression. -/
def expression? (e : Entry) (key : String) : Load (Option Expr) := do
  match ← scalar? e key with
  | some node => snippet Snippet.readExpression node
  | none => return none

/-- The type parameters of a declaration. -/
def typeParams (e : Entry) : Load (List TypeParam) := do
  snippets Snippet.readTypeParameter (← items e "params")

/-- The signature of a function; without one it takes nothing. -/
def signature? (e : Entry) : Load (Option Signature) := do
  match ← scalar? e "signature" with
  | some node => snippet Snippet.readSignature node
  | none => return some (.mk e.name.position [] [] none none none)

/-- A variable declaration. -/
def variableOf (kind : BindingKind) (e : Entry) : Load Variable := do
  let name ← identifier e.name "variable"
  let type ← type? e "type"
  let value ← expression? e "value"
  return { site := { position := e.name.position }, kind, name, type, value }

/-- The binding kind that a declaration kind names. -/
def bindingKind? : String → Option BindingKind
  | "let" => some .let
  | "const" => some .const
  | "var" => some .var
  | _ => none

section Statements

-- A block of the level below.
variable (block : Node → Load Block)

/-- A conditional statement. -/
def conditional (e : Entry) : Load (Option Stmt) := do
  match ← snippet Snippet.readExpression e.name with
  | none => return none
  | some condition =>
    match e.get? "then" with
    | none =>
      complain e.name .missingBranch
      return none
    | some yes =>
      let yes ← block yes
      let no ← match e.get? "else" with
        | none => pure none
        | some no => do pure (some (← block no))
      return some (.conditional e.name.position condition yes no)

/-- A statement other than a variable declaration. -/
def statementOf (e : Entry) : Load (Option Stmt) := do
  let position := e.name.position
  match e.kind with
  | "expr" => return (← snippet Snippet.readExpression e.name).map (.expression position)
  | "if" => conditional block e
  | "return" =>
    if e.name.isNull then return some (.exit position none)
    return some (.exit position (← snippet Snippet.readExpression e.name))
  | "throw" => return (← snippet Snippet.readExpression e.name).map (.raise position)
  | "block" => return some (.block (← block e.name))
  | kind =>
    complain e.name (.unknownKind kind)
    return none

/-- A statement. -/
def statement (node : Node) : Load (Option Stmt) := do
  match ← entry? node with
  | none => return none
  | some e =>
    match bindingKind? e.kind with
    | some kind => return some (.variable (← variableOf kind e))
    | none => statementOf block e

/-- A list of statements. -/
def blockOf (node : Node) : Load Block := do
  match node with
  | .sequence p nodes => return .mk p ((← nodes.mapM (statement block)).filterMap id)
  | _ =>
    if !node.isNull then complain node .notStatements
    return .mk node.position []

/-- A function, a method or a constructor. Without a body it is an overload signature. -/
def functionLike (e : Entry) (what : String) : Load (Option FunctionDecl) := do
  let name ← match e.name with
    | .scalar _ => identifier e.name what
    | _ => pure ""
  match ← signature? e with
  | none => return none
  | some signature =>
    let body ← match e.get? "body" with
      | none => pure none
      | some node => do pure (some (← block node))
    return some { position := e.name.position, name, signature, body }

/-- The constructor of a class. A repeated key counts with its last value. -/
def constructor? (e : Entry) : Load (Option FunctionDecl) := do
  match e.get? "constructor" with
  | none => return none
  | some (.mapping p entries) =>
    let fields := (entries.map fun (k, v) => (k.value, v)).reverse
    let made ← functionLike block ⟨"constructor", .mapping p entries, fields⟩ "constructor"
    return made.map fun d => { d with name := "constructor" }
  | some node =>
    complain node .constructorNotMapping
    return none

/-- The methods of a class. -/
def method? (node : Node) : Load (Option FunctionDecl) := do
  match ← entry? node with
  | none => return none
  | some e =>
    if e.kind ≠ "method" then
      complain node (.notMethod e.kind)
      return none
    match ← functionLike block e "method" with
    | none => return none
    | some d => return some { d with isAbstract := ← flag e "abstract" }

/-- The base of a class. -/
def base? (e : Entry) : Load (Option BaseRef) := do
  match ← scalar? e "extends" with
  | none => return none
  | some node =>
    match ← snippet Snippet.readType node with
    | none => return none
    | some (.reference position name arguments) => return some { position, name, arguments }
    | some _ =>
      complain node .baseNotName
      return none

/-- A class declaration. -/
def classDecl (e : Entry) : Load ClassDecl := do
  let name ← identifier e.name "class"
  let isAbstract ← flag e "abstract"
  let typeParams ← typeParams e
  let base ← base? e
  let implementing ← snippets Snippet.readType (← items e "implements")
  let fields ← snippets Snippet.readClassField (← items e "fields")
  let construction ← constructor? block e
  let methods ← (← items e "methods").mapM (method? block)
  return { position := e.name.position, name, isAbstract, typeParams, base, implementing, fields,
           construction, methods := methods.filterMap id }

end Statements

/-- A type alias declaration. -/
def aliasDecl? (e : Entry) : Load (Option AliasDecl) := do
  let name ← identifier e.name "type"
  let typeParams ← typeParams e
  match ← scalar? e "is" with
  | none =>
    complain e.name (.missingAliasTarget name)
    return none
  | some node =>
    return (← snippet Snippet.readType node).map fun type =>
      { position := e.name.position, name, typeParams, type }

/-- The members of an interface, each added to those before it. -/
def members : List Node → MemberList → Load MemberList
  | [], done => return done
  | node :: rest, done => do
    let more ← snippet (Snippet.readMember done) node
    members rest (more.getD done)

/-- An interface declaration. -/
def interfaceDecl (e : Entry) : Load InterfaceDecl := do
  let name ← identifier e.name "interface"
  let typeParams ← typeParams e
  let bases ← snippets Snippet.readType (← items e "extends")
  let members ← members (← items e "members") default
  return { position := e.name.position, name, typeParams, bases, members }

/-- An enum declaration. -/
def enumDecl (e : Entry) : Load EnumDecl := do
  let name ← identifier e.name "enum"
  let isConst ← flag e "const"
  let members ← snippets Snippet.readEnumMember (← items e "members")
  return { position := e.name.position, name, isConst, members }

/-- A top-level declaration. -/
def declaration? (block : Node → Load Block) (node : Node) : Load (Option Declaration) := do
  match ← entry? node with
  | none => return none
  | some e =>
    match e.kind with
    | "type" => return (← aliasDecl? e).map .alias
    | "interface" => return some (.interface (← interfaceDecl e))
    | "enum" => return some (.enumeration (← enumDecl e))
    | "function" => return (← functionLike block e "function").map .function
    | "class" => return some (.classDecl (← classDecl block e))
    | kind =>
      match bindingKind? kind with
      | some binding => return some (.variable (← variableOf binding e))
      | none => return (← statementOf block e).map (.statement node.position)

/-- A block whose statements nest at most so deep. -/
def blockAt : Nat → Node → Load Block
  | 0, node => return .mk node.position []
  | n + 1, node => blockOf (blockAt n) node

mutual

/-- How deep a node nests, aliases followed. -/
def nodeDepth : Node → Nat
  | .scalar _ => 1
  | .sequence _ nodes => listDepth nodes + 1
  | .mapping _ entries => pairsDepth entries + 1
  | .alias _ _ none => 1
  | .alias _ _ (some target) => nodeDepth target + 1

/-- How deep the nodes of a list nest. -/
def listDepth : List Node → Nat
  | [] => 0
  | n :: ns => max (nodeDepth n) (listDepth ns)

/-- How deep the nodes of a mapping nest. -/
def pairsDepth : List (Node × Node) → Nat
  | [] => 0
  | (k, v) :: rest => max (max (nodeDepth k) (nodeDepth v)) (pairsDepth rest)

end

/-- The list of declarations in a document: the document itself, or the last value of the key
`declarations`. -/
def declarationList? : Node → Option (List Node)
  | .sequence _ nodes => some nodes
  | .mapping _ entries =>
    match (entries.reverse.find? fun (k, _) => k.value = "declarations").map Prod.snd with
    | some (.sequence _ nodes) => some nodes
    | _ => none
  | _ => none

/-- The declarations of a document. -/
def declarations (root : Node) : Load (List Declaration) := do
  match declarationList? root with
  | none =>
    complain root .noDeclarations
    return []
  | some nodes =>
    return (← nodes.mapM (declaration? (blockAt (nodeDepth root + 1)))).filterMap id

/-- Why a file cannot be loaded. -/
inductive LoadError where
  | yaml (file : String) (e : Yaml.Error)
  | syntactic (file : String) (errors : List SyntaxError)
  | unreadable (path : String) (e : FileError)

/-- The wording of a load error. -/
def LoadError.message : LoadError → String
  | .yaml file e => "loader: parse " ++ file ++ ": " ++ e.message
  | .syntactic file errors => "\n".intercalate (errors.map (·.render file))
  | .unreadable path e => "loader: read " ++ path ++ ": " ++ e.message path

/-- Loads a declaration file. -/
def load (source : Source) : Except LoadError Program :=
  let file := source.displayPath
  match Yaml.parse source.content with
  | .error e => .error (.yaml file e)
  | .ok none => .ok { source, declarations := [] }
  | .ok (some root) =>
    match ((declarations root).run source).run [] with
    | (declarations, []) => .ok { source, declarations }
    | (_, errors) => .error (.syntactic file errors.reverse)

end ShapeCheck.Document
