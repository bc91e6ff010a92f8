import ShapeCheck.Yaml.Token

/-!
# Scalars, anchors, tags and directives

Reading the words of a YAML text that hold text themselves. A line break inside a plain or quoted
scalar folds into a space, and further breaks are kept; block scalars keep or fold their lines and
chomp the end as their header says.
-/

namespace ShapeCheck.Yaml

/-- The white space between two words of a scalar. -/
structure Gap where
  blanks : List Char := []
  first : List Char := []
  further : List Char := []
  broken : Bool := false

/-- The text a gap stands for: its blanks, or a space for one line break, or the further breaks. -/
def Gap.text (g : Gap) : List Char :=
  if g.broken then
    if g.first = ['\n'] then (if g.further.isEmpty then [' '] else g.further)
    else g.first ++ g.further
  else g.blanks

/-- The gap at the current place. In a plain scalar a tab may not stand in the indentation, so
`indent` is given there. -/
def takeGap (context : Mark) (indent : Option Int) : Nat → Gap → Scan Gap
  | 0, g => pure g
  | n + 1, g => do
    let s ← get
    match s.rest with
    | [] => pure g
    | c :: _ =>
      if isBlank c then
        let abused := match indent with
          | some column => g.broken && decide ((s.mark.column : Int) < column) && c = '\t'
          | none => false
        if abused then fail context "found a tab character that violates indentation"
        set s.skip
        takeGap context indent n (if g.broken then g else { g with blanks := g.blanks ++ [c] })
      else if isBreak c then
        let line ← run Scanner.takeLine
        takeGap context indent n
          (if g.broken then { g with further := g.further ++ line }
           else { g with blanks := [], first := line, broken := true })
      else pure g

/-- The length of the run of characters of a plain scalar up to a gap or an indicator that ends it.
-/
def plainRun (inFlow : Bool) : List Char → Nat
  | [] => 0
  | c :: rest =>
    if isBlank c || isBreak c then 0
    else if c = ':' && startsGap rest then 0
    else if inFlow && [',', '?', '[', ']', '{', '}'].contains c then 0
    else plainRun inFlow rest + 1

/-- The words of a plain scalar and the gaps between them. The result is the text, the end of the
last word, and whether the scalar ends after a line break. -/
def plainWords (context : Mark) (indent : Int) :
    Nat → List Char → Gap → Mark → Scan (List Char × Mark × Bool)
  | 0, text, g, stop => pure (text, stop, g.broken)
  | n + 1, text, g, stop => do
    let s ← get
    if s.atMarker || s.rest.head? = some '#' then return (text, stop, g.broken)
    let size := plainRun (0 < s.flow) s.rest
    let word := s.rest.take size
    set (s.skipMany size)
    let (text, g, stop) :=
      if size = 0 then (text, g, stop)
      else (text ++ g.text ++ word, {}, (s.skipMany size).mark)
    let s ← get
    if !(match s.rest with
      | c :: _ => isBlank c || isBreak c
      | [] => false) then return (text, stop, g.broken)
    let g ← takeGap context (some indent) (s.rest.length + 1) g
    let s ← get
    if s.flow = 0 && decide ((s.mark.column : Int) < indent) then return (text, stop, g.broken)
    plainWords context indent n text g stop

/-- A plain scalar. After a line break a simple key may follow. -/
def plainScalar : Scan Unit := do
  let s ← get
  let (text, stop, broken) ←
    plainWords s.mark (s.indent + 1) (s.rest.length + 1) [] {} s.mark
  emit (.scalar (String.ofList text) .plain) s.mark stop
  if broken then modify fun s => { s with keyAllowed := true }

/-- The value of a hexadecimal digit. -/
def hexValue? (c : Char) : Option Nat :=
  if '0' ≤ c ∧ c ≤ '9' then some (c.toNat - 48)
  else if 'a' ≤ c ∧ c ≤ 'f' then some (c.toNat - 87)
  else if 'A' ≤ c ∧ c ≤ 'F' then some (c.toNat - 55)
  else none

/-- What an escape letter stands for: a character, or a code of so many hexadecimal digits. -/
def escape? (c : Char) : Option (Char ⊕ Nat) :=
  match c with
  | '0' => some (.inl '\x00')
  | 'a' => some (.inl '\x07')
  | 'b' => some (.inl '\x08')
  | 't' | '\t' => some (.inl '\t')
  | 'n' => some (.inl '\n')
  | 'v' => some (.inl '\x0b')
  | 'f' => some (.inl '\x0c')
  | 'r' => some (.inl '\r')
  | 'e' => some (.inl '\x1b')
  | ' ' => some (.inl ' ')
  | '"' => some (.inl '"')
  | '\'' => some (.inl '\'')
  | '\\' => some (.inl '\\')
  | 'N' => some (.inl '\u0085')
  | '_' => some (.inl '\u00a0')
  | 'L' => some (.inl '\u2028')
  | 'P' => some (.inl '\u2029')
  | 'x' => some (.inr 2)
  | 'u' => some (.inr 4)
  | 'U' => some (.inr 8)
  | _ => none

/-- The number written by the next hexadecimal digits. -/
def hexCode (context : Mark) (size : Nat) : Scan Nat := do
  let digits := (← get).rest.take size
  if digits.length < size || digits.any (fun c => (hexValue? c).isNone) then
    fail context "did not find expected hexdecimal number"
  return digits.foldl (fun n c => n * 16 + (hexValue? c).getD 0) 0

/-- An escape in a double-quoted scalar; starts on the backslash. -/
def escaped (context : Mark) : Scan Char := do
  let s ← get
  match s.rest.tail.head?.bind escape? with
  | none => fail context "found unknown escape character"
  | some (.inl c) =>
    set (s.skipMany 2)
    return c
  | some (.inr size) =>
    set (s.skipMany 2)
    let code ← hexCode context size
    if (0xd800 ≤ code ∧ code ≤ 0xdfff) ∨ 0x10ffff < code then
      fail context "found invalid Unicode character escape code"
    skipMany size
    return Char.ofNat code

/-- The characters of a quoted scalar up to a gap or the closing quote, and whether the run ended
with an escaped line break; `done` holds the characters passed, the latest first. -/
def quotedRun (single : Bool) (context : Mark) : Nat → List Char → Scan (List Char × Bool)
  | 0, done => pure (done.reverse, false)
  | n + 1, done => do
    let s ← get
    if startsGap s.rest then return (done.reverse, false)
    match s.rest with
    | [] => return (done.reverse, false)
    | c :: rest =>
      if single then
        if c = '\'' then
          if rest.head? = some '\'' then
            set (s.skipMany 2)
            quotedRun single context n ('\'' :: done)
          else return (done.reverse, false)
        else
          set s.skip
          quotedRun single context n (c :: done)
      else if c = '"' then return (done.reverse, false)
      else if c = '\\' then
        if !rest.isEmpty && startsBreak rest then
          set (s.skip.takeLine).2
          return (done.reverse, true)
        else
          let e ← escaped context
          quotedRun single context n (e :: done)
      else
        set s.skip
        quotedRun single context n (c :: done)

/-- The inside of a quoted scalar up to its closing quote. -/
def quotedWords (single : Bool) (context : Mark) : Nat → List (List Char) → Scan (List (List Char))
  | 0, done => pure done
  | n + 1, done => do
    let s ← get
    if s.atMarker then fail context "found unexpected document indicator"
    if s.rest.isEmpty then fail context "found unexpected end of stream"
    let (word, escapedBreak) ← quotedRun single context (s.rest.length + 1) []
    let s ← get
    if s.rest.head? = some (if single then '\'' else '"') then return word :: done
    let g ← takeGap context none (s.rest.length + 1) { broken := escapedBreak }
    quotedWords single context n (g.text :: word :: done)

/-- A quoted scalar; starts on the opening quote. -/
def quotedScalar (single : Bool) : Scan Unit := do
  let s ← get
  set s.skip
  let words ← quotedWords single s.mark (s.rest.length + 1) []
  modify (·.skip)
  let style := if single then .singleQuoted else .doubleQuoted
  emit (.scalar (String.ofList words.reverse.flatten) style) s.mark (← get).mark

/-- How the line breaks at the end of a block scalar are treated. -/
inductive Chomping where
  | strip
  | clip
  | keep
  deriving DecidableEq

/-- Moves past indentation and empty lines of a block scalar. The result is the indentation, found
out here unless it is known, and the line breaks passed. -/
def blockBreaks (context : Mark) : Nat → Nat → Nat → List Char → Scan (Nat × List Char)
  | 0, indent, _, breaks => pure (indent, breaks)
  | n + 1, indent, widest, breaks => do
    let s ← get
    let room := if indent = 0 then s.rest.length else indent - s.mark.column
    let spaces := ((s.rest.take room).takeWhile (· = ' ')).length
    set (s.skipMany spaces)
    let s ← get
    let widest := max widest s.mark.column
    if (indent = 0 || decide (s.mark.column < indent)) && s.rest.head? = some '\t' then
      fail context "found a tab character where an indentation space is expected"
    if !s.rest.isEmpty && startsBreak s.rest then
      let line ← run Scanner.takeLine
      blockBreaks context n indent widest (breaks ++ line)
    else if indent = 0 then
      let least := (max (s.indent + 1) 1).toNat
      return (max widest least, breaks)
    else return (indent, breaks)

/-- What has been read of a block scalar. -/
structure BlockText where
  pieces : List (List Char) := []
  lineBreak : List Char := []
  empties : List Char := []
  indented : Bool := false

/-- The lines of a block scalar at the given indentation. -/
def blockLines (isLiteral : Bool) (context : Mark) (indent : Nat) : Nat → BlockText → Scan BlockText
  | 0, b => pure b
  | n + 1, b => do
    let s ← get
    if s.mark.column ≠ indent || s.rest.isEmpty then return b
    let blank := match s.rest with
      | c :: _ => isBlank c
      | [] => false
    let folds := !isLiteral && !b.indented && !blank && b.lineBreak = ['\n']
    let between := if folds then (if b.empties.isEmpty then [' '] else []) else b.lineBreak
    let line ← run fun s => s.takeWhile fun c => !isBreak c
    let lineBreak ← run Scanner.takeLine
    let (_, empties) ← blockBreaks context ((← get).rest.length + 1) indent 0 []
    blockLines isLiteral context indent n
      { pieces := line :: b.empties :: between :: b.pieces, lineBreak, empties, indented := blank }

/-- The header of a block scalar after its indicator: chomping and indentation in either order. -/
def blockHeader (context : Mark) : Scan (Chomping × Nat) := do
  let chomping : Scan (Option Chomping) := do
    let s ← get
    match s.rest with
    | '+' :: _ => set s.skip; return some .keep
    | '-' :: _ => set s.skip; return some .strip
    | _ => return none
  let increment : Scan Nat := do
    let s ← get
    match s.rest with
    | c :: _ =>
      if c = '0' then fail context "found an indentation indicator equal to 0"
      else if '1' ≤ c ∧ c ≤ '9' then
        set s.skip
        return c.toNat - 48
      else return 0
    | [] => return 0
  match ← chomping with
  | some c => return (c, ← increment)
  | none =>
    let n ← increment
    if n = 0 then return (.clip, 0)
    return ((← chomping).getD .clip, n)

/-- Moves to the end of a line that may hold a comment, and past its break. -/
def restOfLine (context : Mark) : Scan Unit := do
  modify fun s => (s.takeWhile isBlank).2
  if (← get).rest.head? = some '#' then modify fun s => (s.takeWhile fun c => !isBreak c).2
  if !startsBreak (← get).rest then fail context "did not find expected comment or line break"
  modify fun s => s.takeLine.2

/-- A block scalar; starts on its indicator. -/
def blockScalar (isLiteral : Bool) : Scan Unit := do
  let context := (← get).mark
  modify (·.skip)
  let (chomping, increment) ← blockHeader context
  restOfLine context
  let s ← get
  let given := if increment = 0 then 0 else ((max s.indent 0) + increment).toNat
  let (indent, empties) ← blockBreaks context (s.rest.length + 1) given 0 []
  let b ← blockLines isLiteral context indent (s.rest.length + 1) { empties }
  let tail := match chomping with
    | .strip => []
    | .clip => b.lineBreak
    | .keep => b.lineBreak ++ b.empties
  let text := (tail :: b.pieces).reverse.flatten
  emit (.scalar (String.ofList text) (if isLiteral then .literal else .folded)) context (← get).mark

/-- The characters of anchor names and tag handles. -/
def isWord (c : Char) : Bool := c.isAlphanum || c = '_' || c = '-'

/-- An anchor or an alias; starts on its indicator. -/
def anchorName (isAlias : Bool) : Scan Unit := do
  let context := (← get).mark
  modify (·.skip)
  let name ← run (·.takeWhile isWord)
  let s ← get
  let ended := startsGap s.rest || (match s.rest with
    | c :: _ => ['?', ':', ',', ']', '}', '%', '@', '`'].contains c
    | [] => true)
  if name.isEmpty || !ended then
    fail context "did not find expected alphabetic or numeric character"
  let text := String.ofList name
  emit (if isAlias then .alias text else .anchor text) context s.mark

/-- The characters of tags; a percent sign starts an escaped byte. -/
def isTagChar (c : Char) : Bool :=
  isWord c ||
    [';', '/', '?', ':', '@', '&', '=', '+', '$', ',', '.', '!', '~', '*', '\'', '(', ')', '[', ']',
     '%'].contains c

/-- A tag; starts on the exclamation mark. -/
def tagName : Scan Unit := do
  let context := (← get).mark
  let s ← get
  let (handle, suffix) ←
    match s.rest with
    | '!' :: '<' :: _ => do
      skipMany 2
      let uri ← run (·.takeWhile isTagChar)
      if uri.isEmpty then fail context "did not find expected tag URI"
      if (← get).rest.head? ≠ some '>' then fail context "did not find the expected '>'"
      modify (·.skip)
      pure ("", String.ofList uri)
    | _ => do
      modify (·.skip)
      let word ← run (·.takeWhile isWord)
      if (← get).rest.head? = some '!' then
        modify (·.skip)
        let uri ← run (·.takeWhile isTagChar)
        if uri.isEmpty then fail context "did not find expected tag URI"
        pure ("!" ++ String.ofList word ++ "!", String.ofList uri)
      else
        let more ← run (·.takeWhile isTagChar)
        let suffix := String.ofList (word ++ more)
        if suffix.isEmpty then pure ("", "!") else pure ("!", suffix)
  if !startsGap (← get).rest then fail context "did not find expected whitespace or line break"
  emit (.tag handle suffix) context (← get).mark

/-- A number of a version directive. -/
def versionNumber (context : Mark) : Scan Nat := do
  let digits ← run (·.takeWhile Char.isDigit)
  if digits.isEmpty then fail context "did not find expected version number"
  if 9 < digits.length then fail context "found extremely long version number"
  return digits.foldl (fun n c => n * 10 + (c.toNat - 48)) 0

/-- The value of a version directive. -/
def versionDirective (context : Mark) : Scan TokenKind := do
  modify fun s => (s.takeWhile isBlank).2
  let major ← versionNumber context
  if (← get).rest.head? ≠ some '.' then fail context "did not find expected digit or '.' character"
  modify (·.skip)
  let minor ← versionNumber context
  return .version major minor

/-- The value of a tag directive. -/
def tagDirective (context : Mark) : Scan TokenKind := do
  modify fun s => (s.takeWhile isBlank).2
  if (← get).rest.head? ≠ some '!' then fail context "did not find expected '!'"
  modify (·.skip)
  let word ← run (·.takeWhile isWord)
  let handle ←
    if (← get).rest.head? = some '!' then do
      modify (·.skip)
      pure ("!" ++ String.ofList word ++ "!")
    else if word.isEmpty then pure "!"
    else fail context "did not find expected '!'"
  if !(match (← get).rest with
    | c :: _ => isBlank c
    | [] => false) then fail context "did not find expected whitespace"
  modify fun s => (s.takeWhile isBlank).2
  let uri ← run (·.takeWhile isTagChar)
  if uri.isEmpty then fail context "did not find expected tag URI"
  if !startsGap (← get).rest then fail context "did not find expected whitespace or line break"
  return .tagDirective handle (String.ofList uri)

/-- A directive; starts on the percent sign. -/
def directive : Scan Unit := do
  let context := (← get).mark
  modify (·.skip)
  let name ← run (·.takeWhile isWord)
  if name.isEmpty then fail context "could not find expected directive name"
  if !startsGap (← get).rest then fail context "found unexpected non-alphabetical character"
  let kind ← match String.ofList name with
    | "YAML" => versionDirective context
    | "TAG" => tagDirective context
    | _ => fail context "found unknown directive name"
  let stop := (← get).mark
  restOfLine context
  emit kind context stop

end ShapeCheck.Yaml
