import ShapeCheck.Yaml.Scalars

/-!
# Cutting a text into tokens

One step moves past blanks and comments, closes the block collections that the indentation ends, and
reads one word. A colon turns the token saved as a possible key into one, by inserting a key mark in
front of it and, where a new column starts, the beginning of a block mapping.
-/

namespace ShapeCheck.Yaml

/-- Whether a possible key can still become one: it has to end on its line, within 1024 characters.
-/
def SimpleKey.isFresh (k : SimpleKey) (m : Mark) : Bool :=
  decide (m.line ≤ k.mark.line) && decide (m.index ≤ k.mark.index + 1024)

/-- Gives up the possible key of the current level; a required one is an error. -/
def dropKey : Scan Unit := do
  match (← get).keys with
  | some k :: keys =>
    if k.required then fail k.mark "could not find expected ':'"
    modify fun s => { s with keys := none :: keys }
  | _ => pure ()

/-- Saves the coming token as a possible key. -/
def saveKey : Scan Unit := do
  let s ← get
  if s.keyAllowed then
    let required := s.flow = 0 && s.indent = (s.mark.column : Int)
    dropKey
    modify fun s => { s with keys := some ⟨required, s.count, s.mark⟩ :: s.keys.tail }

/-- The possible key of the current level, if it is still fresh. -/
def freshKey : Scan (Option SimpleKey) := do
  let s ← get
  match s.keys with
  | some k :: keys =>
    if k.isFresh s.mark then return some k
    if k.required then fail k.mark "could not find expected ':'"
    set { s with keys := none :: keys }
    return none
  | _ => return none

/-- Opens a block collection if the column is further right than the current one. With a number, the
opening token goes in front of the token with that number. -/
def rollIndent (column : Nat) (number : Option Nat) (kind : TokenKind) (mark : Mark) :
    Scan Unit := do
  let s ← get
  if s.flow = 0 && decide (s.indent < (column : Int)) then
    set { s with indents := s.indent :: s.indents, indent := (column : Int) }
    match number with
    | some n => insertToken n kind mark
    | none => emit kind mark mark

/-- Closes the block collections that are further right than the column. -/
def unrollIndent (column : Int) : Nat → Scan Unit
  | 0 => pure ()
  | n + 1 => do
    let s ← get
    if s.flow = 0 && decide (column < s.indent) then
      emit .blockEnd s.mark s.mark
      modify fun s => { s with indent := s.indents.headD (-1), indents := s.indents.tail }
      unrollIndent column n

/-- Closes block collections, as many as are open at most. -/
def closeBlocks (column : Int) : Scan Unit := do
  unrollIndent column ((← get).indents.length + 1)

/-- Moves past at most so many blanks and line breaks. -/
def Scanner.skipToWord (s : Scanner) : Nat → Scanner
  | 0 => s
  | n + 1 =>
    match s.rest with
    | [] => s
    | c :: _ =>
      if isBlank c then s.skip.skipToWord n
      else if isBreak c then s.takeLine.2.skipToWord n
      else s

/-- How many blanks and line breaks stand between the end of a comment and the next one, if another
comes within 512 characters. -/
def gapToComment? (rest : List Char) : Option Nat :=
  let size := (rest.takeWhile fun c => isBlank c || c = '\n' || c = '\r').length
  if size < 512 && (rest.drop size).head? = some '#' then some size else none

/-- Moves past a comment, and past the comments on the lines below it. Any blanks may stand in front
of those, tabs too. -/
def skipComments : Nat → Scan Unit
  | 0 => pure ()
  | n + 1 => do
    modify fun s => (s.takeWhile fun c => !isBreak c).2
    match gapToComment? (← get).rest with
    | some size =>
      modify (·.skipToWord size)
      skipComments n
    | none => pure ()

/-- Moves past blanks, comments and line breaks. A tab counts as a blank only where no key can
start. In block context a new line may start a key. -/
def skipGap : Nat → Scan Unit
  | 0 => pure ()
  | n + 1 => do
    modify fun s =>
      let tabs := 0 < s.flow || !s.keyAllowed
      (s.takeWhile fun c => c = ' ' || tabs && c = '\t').2
    if (← get).rest.head? = some '#' then skipComments ((← get).rest.length)
    let s ← get
    if !s.rest.isEmpty && startsBreak s.rest then
      modify fun s =>
        let s := s.takeLine.2
        if s.flow = 0 then { s with keyAllowed := true } else s
      skipGap n

/-- Reads an indicator of the given length. -/
def indicator (kind : TokenKind) (size : Nat) : Scan Unit := do
  let start := (← get).mark
  skipMany size
  emit kind start (← get).mark

/-- Sets whether a key may start next. -/
def allowKey (b : Bool) : Scan Unit := modify fun s => { s with keyAllowed := b }

/-- The beginning of a flow collection. -/
def flowStart (kind : TokenKind) : Scan Unit := do
  saveKey
  modify fun s => { s with flow := s.flow + 1, keys := none :: s.keys, keyAllowed := true }
  indicator kind 1

/-- The end of a flow collection. -/
def flowEnd (kind : TokenKind) : Scan Unit := do
  dropKey
  modify fun s =>
    if 0 < s.flow then { s with flow := s.flow - 1, keys := s.keys.tail, keyAllowed := false }
    else { s with keyAllowed := false }
  indicator kind 1

/-- The mark of a sequence entry. -/
def blockEntry : Scan Unit := do
  let s ← get
  if s.flow = 0 then
    if !s.keyAllowed then fail s.mark "block sequence entries are not allowed in this context"
    rollIndent s.mark.column none .blockSequenceStart s.mark
  dropKey
  allowKey true
  indicator .blockEntry 1

/-- The mark of a key. -/
def keyMark : Scan Unit := do
  let s ← get
  if s.flow = 0 then
    if !s.keyAllowed then fail s.mark "mapping keys are not allowed in this context"
    rollIndent s.mark.column none .blockMappingStart s.mark
  dropKey
  allowKey (s.flow = 0)
  indicator .key 1

/-- The mark of a value, after a simple key or a marked one. -/
def valueMark : Scan Unit := do
  match ← freshKey with
  | some k =>
    insertToken k.token .key k.mark
    rollIndent k.mark.column (some k.token) .blockMappingStart k.mark
    modify fun s => { s with keys := none :: s.keys.tail, keyAllowed := false }
  | none =>
    let s ← get
    if s.flow = 0 then
      if !s.keyAllowed then fail s.mark "mapping values are not allowed in this context"
      rollIndent s.mark.column none .blockMappingStart s.mark
    allowKey (s.flow = 0)
  indicator .value 1

/-- The end of the text: it counts as the start of a new line. -/
def streamEnd : Scan Unit := do
  modify fun s =>
    if s.mark.column = 0 then s
    else { s with mark := { s.mark with column := 0, line := s.mark.line + 1 } }
  closeBlocks (-1)
  dropKey
  allowKey false
  let m := (← get).mark
  emit .streamEnd m m

/-- The start of a directive or of a document marker: no block goes on. -/
def leaveBlocks : Scan Unit := do
  closeBlocks (-1)
  dropKey
  allowKey false

/-- The characters that cannot start a plain scalar, unless followed by a suitable one. -/
def indicators : List Char :=
  ['-', '?', ':', ',', '[', ']', '{', '}', '#', '&', '*', '!', '|', '>', '\'', '"', '%', '@', '`']

/-- Whether a plain scalar starts here. -/
def startsPlain (flow : Nat) : List Char → Bool
  | [] => false
  | c :: rest =>
    !indicators.contains c && !isBlank c ||
    c = '-' && !(match rest with
      | d :: _ => isBlank d
      | [] => false) ||
    flow = 0 && (c = '?' || c = ':') && !startsGap rest

/-- Reads the word at the current place. -/
def word : Scan Unit := do
  let s ← get
  let gapNext := startsGap s.rest.tail
  let inFlow := decide (0 < s.flow)
  match s.rest with
  | [] => streamEnd
  | c :: _ =>
    if s.mark.column = 0 && c = '%' then
      leaveBlocks
      directive
    else if s.mark.column = 0 && startsMarker '-' s.rest then
      leaveBlocks
      indicator .documentStart 3
    else if s.mark.column = 0 && startsMarker '.' s.rest then
      leaveBlocks
      indicator .documentEnd 3
    else if c = '[' then flowStart .flowSequenceStart
    else if c = '{' then flowStart .flowMappingStart
    else if c = ']' then flowEnd .flowSequenceEnd
    else if c = '}' then flowEnd .flowMappingEnd
    else if c = ',' then
      dropKey
      allowKey true
      indicator .flowEntry 1
    else if c = '-' && gapNext then blockEntry
    else if c = '?' && (inFlow || gapNext) then keyMark
    else if c = ':' && (inFlow || gapNext) then valueMark
    else if c = '*' || c = '&' then
      saveKey
      allowKey false
      anchorName (c = '*')
    else if c = '!' then
      saveKey
      allowKey false
      tagName
    else if (c = '|' || c = '>') && !inFlow then
      dropKey
      allowKey true
      blockScalar (c = '|')
    else if c = '\'' || c = '"' then
      saveKey
      allowKey false
      quotedScalar (c = '\'')
    else if startsPlain s.flow s.rest then
      saveKey
      allowKey false
      plainScalar
    else fail s.mark "found character that cannot start any token"

/-- One step of scanning. -/
def step : Scan Unit := do
  skipGap ((← get).rest.length + 1)
  closeBlocks (← get).mark.column
  word

/-- The tokens of a text, up to its end or to an error. -/
structure Tokens where
  tokens : Array Token
  error : Option Error
  /-- The numbers of the tokens that could still have become keys when scanning stopped. -/
  undecided : List Nat

/-- Repeats the step until the end of the text or an error. -/
def steps : Nat → Scan Unit
  | 0 => pure ()
  | n + 1 => do
    step
    match (← get).tokens with
    | ⟨.streamEnd, _, _⟩ :: _ => pure ()
    | _ => steps n

/-- The characters a YAML text may hold; a byte order mark only stands in front. -/
def isAllowed (c : Char) : Bool :=
  let n := c.toNat
  c = '\t' || c = '\n' || c = '\r' || n = 0x85 ||
    decide (0x20 ≤ n ∧ n ≤ 0x7e) || decide (0xa0 ≤ n ∧ n ≤ 0xd7ff) ||
    decide (0xe000 ≤ n ∧ n ≤ 0xfffd ∧ n ≠ 0xfeff) || decide (0x10000 ≤ n)

/-- Cuts a text into tokens. A byte order mark in front is no part of the text. -/
def tokenize (text : String) : Tokens :=
  let chars := match text.toList with
    | '\ufeff' :: rest => rest
    | cs => cs
  if !chars.all isAllowed then
    { tokens := #[], error := some ⟨0, "control characters are not allowed"⟩, undecided := [] }
  else
    let start : Scanner := { rest := chars, tokens := [⟨.streamStart, {}, {}⟩], count := 1 }
    let (result, s) := (steps (chars.length + 2)).run start
    let error := match result with
      | .ok _ => none
      | .error e => some e
    let undecided := s.keys.filterMap fun
      | some k => if k.isFresh s.mark then some k.token else none
      | none => none
    { tokens := s.tokens.reverse.toArray, error, undecided }

end ShapeCheck.Yaml
