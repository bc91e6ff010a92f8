import ShapeCheck.Yaml.Scan

/-!
# The first document of a text

The tokens are read as nested collections. A collection inside another is read by the same rule one
level further down, so the number of tokens bounds the nesting. Reading looks two tokens ahead of
the one it needs, so an error close behind the document still counts.
-/

namespace ShapeCheck.Yaml

/-- The state of reading: the tokens, the place, the anchors seen and the tag prefixes. -/
structure Composer where
  tokens : Tokens
  place : Nat := 0
  /-- The anchors seen, with their nodes once these are complete. -/
  anchors : List (String × Option Node) := []
  handles : List (String × String) := [("!", "!"), ("!!", "tag:yaml.org,2002:")]

/-- A rule of the document grammar. -/
abbrev Compose := ExceptT Error (StateM Composer)

/-- The token that stands for the end of the text. -/
def endOfTokens : Token := ⟨.streamEnd, {}, {}⟩

/-- The current token. When scanning stopped at an error, the token is out of reach if the error
lies within the two tokens after it, or if it could still have become a key. -/
def peek : Compose Token := do
  let c ← get
  match c.tokens.error with
  | some e =>
    if c.tokens.tokens.size ≤ c.place + 2 || c.tokens.undecided.contains c.place then throw e
    else return (c.tokens.tokens[c.place]?).getD endOfTokens
  | none => return (c.tokens.tokens[min c.place (c.tokens.tokens.size - 1)]?).getD endOfTokens

/-- Moves to the next token. -/
def advance : Compose Unit := modify fun c => { c with place := c.place + 1 }

/-- Stops with an error. The message names the line before the one of its context, or of its place.
-/
def reject {α : Type} (context : Option Mark) (place : Mark) (problem : String) : Compose α := do
  let line := match context with
    | some m => if m.line ≠ 0 then m.line else place.line
    | none => place.line
  throw { line, problem }

/-- The scalar that stands for a missing node. -/
def emptyScalar (m : Mark) : Node :=
  .scalar { position := m.position, tag := .null, tagged := false, style := .plain, value := "" }

/-- The properties in front of a node: where they start, the anchor and the tag. -/
structure Properties where
  start : Mark
  anchor : Option String := none
  tag : Option String := none

/-- The full name of a written tag. -/
def tagFullName (context place : Mark) (handle suffix : String) : Compose String := do
  if handle.isEmpty then return suffix
  match (← get).handles.lookup handle with
  | some replacement => return replacement ++ suffix
  | none => reject (some context) place "found undefined tag handle"

/-- Reads the anchor and the tag in front of a node, in either order. -/
def properties : Compose Properties := do
  let t ← peek
  match t.kind with
  | .anchor name =>
    advance
    let u ← peek
    match u.kind with
    | .tag handle suffix =>
      advance
      let tag ← tagFullName t.start u.start handle suffix
      return { start := t.start, anchor := some name, tag }
    | _ => return { start := t.start, anchor := some name }
  | .tag handle suffix =>
    advance
    let u ← peek
    match u.kind with
    | .anchor name =>
      advance
      let tag ← tagFullName t.start t.start handle suffix
      return { start := t.start, anchor := some name, tag }
    | _ => return { start := t.start, tag := ← tagFullName t.start t.start handle suffix }
  | _ => return { start := t.start }

/-- Remembers an anchor. A collection is remembered without its node until it is complete. -/
def remember (anchor : Option String) (node : Option Node) : Compose Unit :=
  match anchor with
  | none => pure ()
  | some name => modify fun c => { c with anchors := (name, node) :: c.anchors }

/-- The node of a scalar token. -/
def scalarNode (p : Properties) (text : String) (style : Style) : Node :=
  let implicitTag := if style = .plain then plainTag text else .string
  let (tag, tagged) := match p.tag with
    | none | some "!" => (implicitTag, false)
    | some name => (tagOfName name, true)
  .scalar { position := p.start.position, tag, tagged, style, value := text }

/-- The items of a list until one step answers that it is over. -/
def collect {α : Type} (item : Compose (Option α)) : Nat → List α → Compose (List α)
  | 0, done => pure done.reverse
  | n + 1, done => do
    match ← item with
    | some a => collect item n (a :: done)
    | none => pure done.reverse

/-- How many items a list may have: one per token. -/
def limit : Compose Nat := return (← get).tokens.tokens.size + 1

/-- A node without content: its properties stand for an empty scalar, without them it is an error.
-/
def missing (p : Properties) (t : Token) : Compose Node := do
  if p.anchor.isSome || p.tag.isSome then
    let n := scalarNode p "" .plain
    remember p.anchor (some n)
    return n
  else reject (some p.start) t.start "did not find expected node content"

section Collections

-- A node of the level below; the flags say whether block collections, and whether a sequence at the
-- indentation of its parent, may stand here.
variable (node : Bool → Bool → Compose Node)

/-- The next item of a block sequence. -/
def blockItem (context : Mark) : Compose (Option Node) := do
  let t ← peek
  match t.kind with
  | .blockEntry =>
    advance
    match (← peek).kind with
    | .blockEntry | .blockEnd => return some (emptyScalar t.stop)
    | _ => return some (← node true false)
  | .blockEnd =>
    advance
    return none
  | _ => reject (some context) t.start "did not find expected '-' indicator"

/-- The next item of a sequence at the indentation of its parent mapping. -/
def indentlessItem : Compose (Option Node) := do
  let t ← peek
  match t.kind with
  | .blockEntry =>
    advance
    match (← peek).kind with
    | .blockEntry | .key | .value | .blockEnd => return some (emptyScalar t.stop)
    | _ => return some (← node true false)
  | _ => return none

/-- The value of a block mapping entry. -/
def blockValue : Compose Node := do
  let t ← peek
  match t.kind with
  | .value =>
    advance
    match (← peek).kind with
    | .key | .value | .blockEnd => return emptyScalar t.stop
    | _ => node true true
  | _ => return emptyScalar t.start

/-- The next entry of a block mapping. -/
def blockPair (context : Mark) : Compose (Option (Node × Node)) := do
  let t ← peek
  match t.kind with
  | .key =>
    advance
    let k ← match (← peek).kind with
      | .key | .value | .blockEnd => pure (emptyScalar t.stop)
      | _ => node true true
    return some (k, ← blockValue node)
  | .blockEnd =>
    advance
    return none
  | _ => reject (some context) t.start "did not find expected key"

/-- A pair written in a flow sequence: a mapping of one entry; starts on the key mark. -/
def flowPair : Compose Node := do
  let start := (← peek).start
  advance
  let t ← peek
  let k ← match t.kind with
    | .value | .flowEntry | .flowSequenceEnd => do
      advance
      pure (emptyScalar t.stop)
    | _ => node false false
  let u ← peek
  let v ← match u.kind with
    | .value => do
      advance
      let w ← peek
      match w.kind with
      | .flowEntry | .flowSequenceEnd => pure (emptyScalar w.start)
      | _ => node false false
    | _ => pure (emptyScalar u.start)
  return .mapping start.position [(k, v)]

/-- Moves past the comma between two items of a flow collection. -/
def flowComma (context : Mark) (first : Bool) (problem : String) : Compose Unit := do
  if !first then
    let t ← peek
    match t.kind with
    | .flowEntry => advance
    | _ => reject (some context) t.start problem

/-- The items of a flow sequence. -/
def flowItems (context : Mark) : Nat → Bool → List Node → Compose (List Node)
  | 0, _, done => pure done.reverse
  | n + 1, first, done => do
    if (← peek).kind = .flowSequenceEnd then
      advance
      return done.reverse
    flowComma context first "did not find expected ',' or ']'"
    match (← peek).kind with
    | .flowSequenceEnd =>
      advance
      return done.reverse
    | .key => flowItems context n false ((← flowPair node) :: done)
    | _ => flowItems context n false ((← node false false) :: done)

/-- The value of a flow mapping entry. -/
def flowValue : Compose Node := do
  let t ← peek
  match t.kind with
  | .value =>
    advance
    let u ← peek
    match u.kind with
    | .flowEntry | .flowMappingEnd => return emptyScalar u.start
    | _ => node false false
  | _ => return emptyScalar t.start

/-- The entries of a flow mapping. -/
def flowPairs (context : Mark) : Nat → Bool → List (Node × Node) → Compose (List (Node × Node))
  | 0, _, done => pure done.reverse
  | n + 1, first, done => do
    if (← peek).kind = .flowMappingEnd then
      advance
      return done.reverse
    flowComma context first "did not find expected ',' or '\x7d'"
    match (← peek).kind with
    | .flowMappingEnd =>
      advance
      return done.reverse
    | .key =>
      advance
      let t ← peek
      let k ← match t.kind with
        | .value | .flowEntry | .flowMappingEnd => pure (emptyScalar t.start)
        | _ => node false false
      flowPairs context n false ((k, ← flowValue node) :: done)
    | _ =>
      let k ← node false false
      let v := emptyScalar (← peek).start
      flowPairs context n false ((k, v) :: done)

/-- Completes the latest anchor of that name whose node was still open. -/
def completeAnchor (name : String) (node : Node) : List (String × Option Node) →
    List (String × Option Node)
  | [] => []
  | (other, none) :: rest =>
    if other = name then (other, some node) :: rest
    else (other, none) :: completeAnchor name node rest
  | entry :: rest => entry :: completeAnchor name node rest

/-- A collection whose first token is the current one, remembered under its anchor from its start
on. -/
def collection (p : Properties) (body : Nat → Compose Node) : Compose Node := do
  remember p.anchor none
  let result ← body (← limit)
  match p.anchor with
  | some name => modify fun c => { c with anchors := completeAnchor name result c.anchors }
  | none => pure ()
  return result

/-- A node after its properties. -/
def nodeBody (p : Properties) (block indentless : Bool) : Compose Node := do
  let t ← peek
  let start := p.start.position
  match t.kind with
  | .scalar text style =>
    advance
    let n := scalarNode p text style
    remember p.anchor (some n)
    return n
  | .flowSequenceStart =>
    collection p fun n => do
      advance
      return .sequence start (← flowItems node t.start n true [])
  | .flowMappingStart =>
    collection p fun n => do
      advance
      return .mapping start (← flowPairs node t.start n true [])
  | .blockEntry =>
    if indentless then
      collection p fun n => return .sequence start (← collect (indentlessItem node) n [])
    else missing p t
  | .blockSequenceStart =>
    if block then
      collection p fun n => do
        advance
        return .sequence start (← collect (blockItem node t.start) n [])
    else missing p t
  | .blockMappingStart =>
    if block then
      collection p fun n => do
        advance
        return .mapping start (← collect (blockPair node t.start) n [])
    else missing p t
  | _ => missing p t

end Collections

/-- A node, nested at most so deep. -/
def nodeAt : Nat → Bool → Bool → Compose Node
  | 0, _, _ => throw { line := 0, problem := "exceeded max depth" }
  | n + 1, block, indentless => do
    let t ← peek
    match t.kind with
    | .alias name =>
      advance
      match (← get).anchors.lookup name with
      | some target => return .alias t.start.position name target
      | none => throw { line := 0, problem := "unknown anchor '" ++ name ++ "' referenced" }
    | _ => nodeBody (nodeAt n) (← properties) block indentless

/-- Reads the directives in front of a document. -/
def directives : Nat → Bool → Compose Unit
  | 0, _ => pure ()
  | n + 1, versioned => do
    let t ← peek
    match t.kind with
    | .version major minor =>
      advance
      if versioned then reject none t.start "found duplicate %YAML directive"
      if major ≠ 1 || minor ≠ 1 then reject none t.start "found incompatible YAML document"
      directives n true
    | .tagDirective handle replacement =>
      advance
      modify fun c => { c with handles := (handle, replacement) :: c.handles }
      directives n versioned
    | _ => pure ()

/-- Whether a token ends a document or starts another. -/
def endsDocument : TokenKind → Bool
  | .version .. | .tagDirective .. | .documentStart | .documentEnd | .streamEnd => true
  | _ => false

/-- The root of the first document, if there is a document. -/
def firstDocument : Compose (Option Node) := do
  let depth ← limit
  let _ ← peek
  advance
  let t ← peek
  match t.kind with
  | .streamEnd => return none
  | .version .. | .tagDirective .. | .documentStart =>
    directives depth false
    let u ← peek
    if u.kind ≠ .documentStart then reject none u.start "did not find expected <document start>"
    advance
    let v ← peek
    let root ← if endsDocument v.kind then pure (emptyScalar v.start) else nodeAt depth true false
    let _ ← peek
    return some root
  | _ =>
    let root ← nodeAt depth true false
    let _ ← peek
    return some root

/-- Reads the first document of a text. -/
def parse (text : String) : Except Error (Option Node) :=
  (firstDocument.run { tokens := tokenize text }).1

end ShapeCheck.Yaml
