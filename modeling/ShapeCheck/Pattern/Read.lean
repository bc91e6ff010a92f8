import ShapeCheck.Pattern.SetRules

/-!
# Reading patterns

Patterns are written as regular expressions with look-around, named groups, conditions, options
that can be set within the pattern, and comments. They are read in two passes: the first finds the
numbers and names of the groups, so that a reference may stand before its group, and the second
builds the pattern with a stack of open groups. Each step of a pass takes at least one character.

* `Pattern.groupsOf` is the first pass.
* `Pattern.read` reads a pattern.
-/

namespace ShapeCheck.Pattern

/-! ### Options and repetitions -/

/-- The options with one of them set by its letter. -/
def Options.set? (o : Options) (on : Bool) : Char → Option Options
  | 'i' | 'I' => some { o with ignoreCase := on }
  | 'm' | 'M' => some { o with everyLine := on }
  | 'n' | 'N' => some { o with namedOnly := on }
  | 's' | 'S' => some { o with dotAll := on }
  | 'x' | 'X' => some { o with spaced := on }
  | 'd' | 'D' | 'u' | 'U' => some o
  | _ => none

/-- Reads the letters of options; after a minus sign they are unset. -/
def optionLetters (on : Bool) (o : Options) : List Char → Options × List Char
  | [] => (o, [])
  | c :: cs =>
    if c = '-' then optionLetters false o cs
    else if c = '+' then optionLetters true o cs
    else
      match o.set? on c with
      | some o => optionLetters on o cs
      | none => (o, c :: cs)

/-- Sets the options whose letters are in front. -/
def setOptions : Reading Unit :=
  modify fun r =>
    let (options, rest) := optionLetters true r.options r.rest
    { r with options, rest }

/-- Whether a count of repetitions in braces is in front, its opening brace left out. -/
def isCount (chars : List Char) : Bool :=
  if (chars.takeWhile Char.isDigit).isEmpty then false
  else
    match chars.dropWhile Char.isDigit with
    | '\x7d' :: _ => true
    | ',' :: more => (more.dropWhile Char.isDigit).head? = some '\x7d'
    | _ => false

/-- Whether a repetition is in front. -/
def isRepetition : List Char → Bool
  | '*' :: _ | '+' :: _ | '?' :: _ => true
  | '\x7b' :: cs => isCount cs
  | _ => false

/-- Reads the counts of a repetition: the least and the most. -/
def counts : Reading (Nat × Option Nat) := do
  match ← rest with
  | '*' :: cs =>
    goTo cs
    return (0, none)
  | '+' :: cs =>
    goTo cs
    return (1, none)
  | '?' :: cs =>
    goTo cs
    return (0, some 1)
  | _ =>
    skip 1
    let least ← number
    let most ←
      match ← rest with
      | ',' :: cs =>
        goTo cs
        if cs.head? = some '\x7d' then pure none else some <$> number
      | _ => pure (some least)
    skip 1
    return (least, most.filter (· < largestNumber))

/-! ### Groups -/

/-- Adds a number to the numbers of groups. -/
def Groups.addNumber (g : Groups) (n : Nat) : Groups :=
  if g.numbers.contains n then g else { g with numbers := n :: g.numbers }

/-- Adds a name to the names of groups. Its number is given later. -/
def Groups.addName (g : Groups) (name : String) : Groups :=
  if g.names.any (·.1 = name) then g else { g with names := g.names ++ [(name, 0)] }

/-- The first number from `n` that no group has; there are so many groups. -/
def freeNumber (numbers : List Nat) : Nat → Nat → Nat
  | 0, n => n
  | fuel + 1, n => if numbers.contains n then freeNumber numbers fuel (n + 1) else n

/-- Gives numbers to the named groups, in order, after those of the others. -/
def Groups.numberNames (numbers : List Nat) (next : Nat) :
    List (String × Nat) → List Nat × List (String × Nat)
  | [] => (numbers, [])
  | (name, _) :: rest =>
    let n := freeNumber numbers (numbers.length + 1) next
    let (numbers, named) := Groups.numberNames (n :: numbers) (n + 1) rest
    (numbers, (name, n) :: named)

/-! ### References and escapes -/

/-- The number of a group by its name. -/
def groupNamed? (word : String) : Reading (Option Nat) :=
  return (← get).groups.names.lookup word

/-- Whether a group has a number. -/
def isGroup (n : Nat) : Reading Bool := return (← get).groups.numbers.contains n

/-- A single escaped character. -/
def escapedChar (place : List Char) : Reading Pattern := do
  goTo place
  let code ← escapedCode
  return .char (← options).ignoreCase code

/-- A reference to a group within marks; text that is no reference is an escaped character, unless
the marks follow the letter of references. -/
def markedReference (lettered : Bool) (place : List Char) (close : Char) : Reading Pattern := do
  let ignoreCase := (← options).ignoreCase
  if ((← rest).head?.map Char.isDigit).getD false then
    let n ← number
    match ← rest with
    | c :: cs =>
      goTo cs
      if c = close then
        if ← isGroup n then return .reference ignoreCase n else throw (.undefinedNumber n)
      else escapedChar place
    | [] => escapedChar place
  else
    let word ← name
    match ← rest with
    | c :: cs =>
      if word.isEmpty then
        if lettered then throw .malformedReference else escapedChar place
      else
        goTo cs
        if c = close then
          match ← groupNamed? word with
          | some n => return .reference ignoreCase n
          | none => throw (.undefinedName word)
        else if lettered then throw .malformedReference
        else escapedChar place
    | [] => if lettered then throw .malformedReference else escapedChar place

/-- The mark that closes a reference, by the mark that opens it. -/
def closingMark (c : Char) : Char := if c = '\'' then '\'' else '>'

/-- A reference to a group, or an escaped character. -/
def referenceOrChar : Reading Pattern := do
  let place ← rest
  match place with
  | 'k' :: mark :: cs =>
    goTo cs
    if (mark = '<' || mark = '\'') && !cs.isEmpty then markedReference true place (closingMark mark)
    else throw .malformedReference
  | ['k'] => throw .malformedReference
  | c :: cs =>
    if (c = '<' || c = '\'') && !cs.isEmpty then
      goTo cs
      markedReference false place (closingMark c)
    else if c.isDigit && c ≠ '0' then
      let n ← number
      if ← isGroup n then return .reference (← options).ignoreCase n
      else if n ≤ 9 then throw (.undefinedNumber n)
      else escapedChar place
    else escapedChar place
  | [] => throw .lastBackslash

/-- The condition of a letter after a backslash. -/
def letterAnchor? : Char → Option Anchor
  | 'b' => some .wordEdge
  | 'B' => some .noWordEdge
  | 'A' | 'G' => some .textStart
  | 'Z' => some .lastLineEnd
  | 'z' => some .textEnd
  | _ => none

/-- What stands after a backslash. -/
def escaped : Reading Pattern := do
  let ignoreCase := (← options).ignoreCase
  match ← rest with
  | [] => throw .lastBackslash
  | c :: cs =>
    match letterAnchor? c, letterClass? c with
    | some a, _ =>
      goTo cs
      return .anchor a
    | none, some (negated, k) =>
      goTo cs
      return .set ignoreCase (.ofClass negated k)
    | none, none =>
      if c = 'p' || c = 'P' then
        goTo cs
        let k ← className
        let classes := if ignoreCase then k.ignoringCase else [k]
        return .set ignoreCase (.items false [] (classes.map fun k => (c = 'P', k)))
      else referenceOrChar

/-! ### The first pass -/

/-- Work whose failure does not matter. -/
def ignoring (work : Reading α) : Reading Unit := do
  try discard work catch _ => return ()

/-- Opens a group of the first pass, which only keeps the options outside. -/
def noteOpen : Reading Unit :=
  modify fun r => { r with stack := r.frame :: r.stack, frame := { outside := r.options } }

/-- Closes a group of the first pass without going back to the options outside. -/
def noteDrop : Reading Unit :=
  modify fun r => { r with frame := (r.stack.head?).getD {}, stack := r.stack.drop 1 }

/-- Closes a group of the first pass. -/
def noteClose : Reading Unit := do
  unless (← get).stack.isEmpty do
    modify fun r => { r with options := r.frame.outside }
    noteDrop

/-- Says whether the next plain parenthesis does not catch. -/
def setQuiet (quiet : Bool) : Reading Unit := modify fun r => { r with quietParen := quiet }

/-- Notes options, which are dropped again when they hold for the rest of the group around. -/
def noteOptions : Reading Unit := do
  setOptions
  match ← rest with
  | ')' :: cs =>
    goTo cs
    noteDrop
    setQuiet false
  | '(' :: _ => setQuiet true
  | _ => setQuiet false

/-- Notes the group that a parenthesis opens, the parenthesis left out. -/
def noteGroup : Reading Unit := do
  let chars ← rest
  match chars with
  | '?' :: '#' :: _ =>
    goTo ('(' :: chars)
    ignoring blanks
    setQuiet false
  | '?' :: cs =>
    noteOpen
    goTo cs
    match cs with
    | mark :: c :: more =>
      if mark = '<' || mark = '\'' then
        goTo (c :: more)
        if c ≠ '0' && Text.isWord c then
          if c.isDigit then
            let n ← number
            modify fun r => { r with groups := r.groups.addNumber n }
          else
            let word ← name
            modify fun r => { r with groups := r.groups.addName word }
        setQuiet false
      else noteOptions
    | _ => noteOptions
  | _ =>
    noteOpen
    let r ← get
    if !r.options.namedOnly && !r.quietParen then
      modify fun r => { r with
        groups := r.groups.addNumber r.nextNumber, nextNumber := r.nextNumber + 1 }
    setQuiet false

/-- One step of the first pass. -/
def noteStep (c : Char) : Reading Unit := do
  match c with
  | '\\' => ignoring escaped
  | '#' =>
    if (← options).spaced then
      goTo ('#' :: (← rest))
      ignoring blanks
  | '[' => ignoring charSet
  | ')' => noteClose
  | '(' => noteGroup
  | _ => return ()

/-- The first pass, of so many steps at most. -/
def noteAll : Nat → Reading Unit
  | 0 => return ()
  | fuel + 1 => do
    match ← rest with
    | [] => return ()
    | c :: cs =>
      goTo cs
      noteStep c
      noteAll fuel

/-- The groups of a written pattern. -/
def groupsOf (chars : List Char) : Except PatternError Groups :=
  match (noteAll (chars.length + 1)).run.run { rest := chars } with
  | (.error e, _) => .error e
  | (.ok (), r) =>
    let (numbers, names) := Groups.numberNames r.groups.numbers r.nextNumber r.groups.names
    .ok { numbers, names }

/-! ### The second pass -/

/-- The error that a group opens in an unknown way, with what has been read of it. -/
def unknownOpening (start : List Char) : Reading α := do
  throw (.unknownGroup (String.ofList (start.take (start.length - (← rest).length))))

/-- Makes sure that the name of a group ends with one of the characters. -/
def expectNameEnd (ends : List Char) : Reading Unit := do
  match ← rest with
  | c :: _ => unless ends.contains c do throw .badGroupName
  | [] => return ()

/-- The number of the group to catch in, before the mark or a hyphen. The outer option is missing
when there is only a hyphen. -/
def caughtGroup (close c : Char) : Reading (Option (Option Nat)) := do
  if c.isDigit then
    let n ← number
    let known ← isGroup n
    expectNameEnd [close, '-']
    if known && n = 0 then throw .groupZero
    return some (if known then some n else none)
  else if Text.isWord c then
    let word ← name
    let group ← groupNamed? word
    expectNameEnd [close, '-']
    return some group
  else if c = '-' then return none
  else throw .badGroupName

/-- The number of the group to release, after a hyphen. -/
def releasedGroup (close : Char) : Reading Nat := do
  match ← rest with
  | [] => throw .badGroupName
  | c :: _ =>
    if c.isDigit then
      let n ← number
      unless ← isGroup n do throw (.undefinedNumber n)
      expectNameEnd [close]
      return n
    else if Text.isWord c then
      let word ← name
      match ← groupNamed? word with
      | none => throw (.undefinedName word)
      | some n =>
        expectNameEnd [close]
        return n
    else throw .badGroupName

/-- A group with a name or a number, after its mark. -/
def namedGroup (start : List Char) (close c : Char) : Reading Opening := do
  let caught ← caughtGroup close c
  let mayRelease := match caught with
    | some (some _) | none => true
    | some none => false
  let release ←
    if mayRelease && (← rest).head? = some '-' then
      skip 1
      some <$> releasedGroup close
    else pure none
  let group := caught.join
  if group.isNone && release.isNone then unknownOpening start
  match ← rest with
  | c :: cs =>
    goTo cs
    if c = close then return .capture group release else unknownOpening start
  | [] => unknownOpening start

/-- A condition behind the place, or a named group, after the mark. -/
def marked (start : List Char) (mark : Char) : Reading Opening := do
  let close := closingMark mark
  match ← rest with
  | [] => unknownOpening start
  | c :: cs =>
    if c = '=' || c = '!' then
      goTo cs
      if close = '\'' then unknownOpening start else return .look true (c = '!')
    else namedGroup start close c

/-- A choice by a condition that is a pattern, from the parenthesis of the condition on. -/
def conditionalOpening (paren : List Char) : Reading Opening := do
  goTo paren
  setQuiet true
  match paren.drop 1 with
  | '?' :: '#' :: _ => throw .commentCondition
  | '?' :: '\'' :: _ => throw .namedCondition
  | '?' :: '<' :: c :: _ =>
    if c = '!' || c = '=' then return .ifMatches none else throw .namedCondition
  | _ => return .ifMatches none

/-- A choice by a condition, after the parenthesis of the condition. -/
def conditional : Reading Opening := do
  let place ← rest
  let paren := '(' :: place
  match place with
  | [] => conditionalOpening paren
  | c :: _ =>
    if c.isDigit then
      let n ← number
      match ← rest with
      | ')' :: cs =>
        goTo cs
        if ← isGroup n then return .ifCaught n else throw (.undefinedCondition n)
      | _ => throw (.malformedCondition n)
    else if Text.isWord c then
      let word ← name
      match ← groupNamed? word, ← rest with
      | some n, ')' :: cs =>
        goTo cs
        return .ifCaught n
      | _, _ => conditionalOpening paren
    else conditionalOpening paren

/-- Whether the innermost open group is a choice by a pattern. -/
def inConditional : Reading Bool := do
  match (← get).frame.opening with
  | .ifMatches _ => return true
  | _ => return false

/-- Options, which hold for the rest of the group or for a group of their own. -/
def optionsOpening (start : List Char) : Reading (Option Opening) := do
  unless ← inConditional do setOptions
  match ← rest with
  | [] => unknownOpening start
  | c :: cs =>
    goTo cs
    if c = ')' then return none
    else if c = ':' then return some .plain
    else unknownOpening start

/-- A group that has no question mark. -/
def plainOpening : Reading Opening := do
  let r ← get
  if r.options.namedOnly || r.quietParen then
    setQuiet false
    return .plain
  else
    modify fun r => { r with nextNumber := r.nextNumber + 1 }
    return .capture (some r.nextNumber) none

/-- How the group opens whose parenthesis has been read; nothing for options that hold for the rest
of the group around. -/
def opening : Reading (Option Opening) := do
  let start ← rest
  match start with
  | '?' :: ')' :: _ => some <$> plainOpening
  | '?' :: [] =>
    skip 1
    unknownOpening start
  | '?' :: c :: cs =>
    goTo cs
    match c with
    | ':' => return some .plain
    | '=' => return some (.look false false)
    | '!' => return some (.look false true)
    | '>' => return some .once
    | '<' | '\'' => some <$> marked start c
    | '(' => some <$> conditional
    | _ =>
      goTo (c :: cs)
      optionsOpening start
  | _ => some <$> plainOpening

/-- The ways of an open group. -/
def Frame.allWays (f : Frame) : List Pattern :=
  (sequenceOf f.items.reverse :: f.ways).reverse

/-- The pattern of a group that is closed. -/
def Frame.close (f : Frame) : Reading Pattern := do
  match f.opening, f.allWays with
  | .whole, ways | .plain, ways => return eitherOf ways
  | .capture group release, ways => return .capture group release (eitherOf ways)
  | .look behind negated, ways => return .look behind negated (eitherOf ways)
  | .once, ways => return .once (eitherOf ways)
  | .ifCaught group, [yes] => return .ifCaught group yes .empty
  | .ifCaught group, [yes, no] => return .ifCaught group yes no
  | .ifCaught _, _ => throw .tooManyWays
  | .ifMatches none, _ => throw .badCondition
  | .ifMatches (some condition), [yes] => return .ifMatches condition yes .empty
  | .ifMatches (some condition), [yes, no] => return .ifMatches condition yes no
  | .ifMatches (some _), _ => throw .tooManyWays

/-- Adds an item to the innermost open group. -/
def addItem (p : Pattern) : Reading Unit :=
  modify fun r => { r with frame := { r.frame with items := p :: r.frame.items } }

/-- Adds an item with the repetition that follows it. -/
def addRepeated (p : Pattern) : Reading Unit := do
  if isRepetition (← rest) then
    let (least, most) ← counts
    blanks
    let rarely := (← rest).head? = some '?'
    if rarely then skip 1
    if (most.map fun m => decide (m < least)).getD false then throw .reversedCounts
    addItem (.repeated p least most rarely)
    modify fun r => { r with afterRepetition := true }
  else addItem p

/-- Closes the innermost group. A group that is the condition of a choice becomes part of it. -/
def closeGroup : Reading Unit := do
  let r ← get
  match r.stack with
  | [] => throw .unexpectedClose
  | outer :: stack =>
    let p ← r.frame.close
    modify fun r => { r with frame := outer, stack, options := r.frame.outside }
    match outer.opening with
    | .ifMatches none =>
      modify fun r => { r with frame := { r.frame with opening := .ifMatches (some p) } }
    | _ =>
      blanks
      addRepeated p

/-- Opens a group. -/
def openGroup : Reading Unit := do
  let outside ← options
  match ← opening with
  | none => return ()
  | some o =>
    modify fun r => { r with stack := r.frame :: r.stack, frame := { opening := o, outside } }

/-- Starts the next way of the innermost open group. -/
def nextWay : Reading Unit :=
  modify fun r =>
    let way := sequenceOf r.frame.items.reverse
    { r with frame := { r.frame with ways := way :: r.frame.ways, items := [] } }

/-- A single character, set or condition that starts with a character of its own meaning. -/
def single (c : Char) : Reading Pattern := do
  let o ← options
  match c with
  | '[' => return .set o.ignoreCase (← charSet)
  | '\\' => escaped
  | '^' => return .anchor (if o.everyLine then .lineStart else .textStart)
  | '$' => return .anchor (if o.everyLine then .lineEnd else .lastLineEnd)
  | _ => return .set o.ignoreCase (if o.dotAll then .all else .inLine)

/-- One step of the second pass: the character read, and those to come. -/
def step (c : Char) (cs : List Char) : Reading Unit := do
  let nested := (← get).afterRepetition
  modify fun r => { r with afterRepetition := false }
  if isRepetition (c :: cs) then throw (if nested then .nestedRepetition else .nothingToRepeat)
  goTo cs
  if c = '(' then openGroup
  else if c = ')' then closeGroup
  else if c = '|' then nextWay
  else if ['[', '\\', '^', '$', '.'].contains c then
    let p ← single c
    blanks
    addRepeated p
  else
    ignoring blanks
    addRepeated (.char (← options).ignoreCase c.toNat)

/-- The second pass, of so many steps at most. -/
def readAll : Nat → Reading Unit
  | 0 => return ()
  | fuel + 1 => do
    blanks
    match ← rest with
    | [] => return ()
    | c :: cs =>
      step c cs
      readAll fuel

/-- Reads a whole pattern. -/
def whole (fuel : Nat) : Reading Pattern := do
  readAll fuel
  let r ← get
  unless r.stack.isEmpty do throw .missingClose
  r.frame.close

/-- Reads a written pattern. -/
def read (text : String) : Except PatternError Pattern := do
  let chars := text.toList
  let groups ← groupsOf chars
  ((whole (chars.length + 1)).run.run { rest := chars, groups }).1

end ShapeCheck.Pattern
