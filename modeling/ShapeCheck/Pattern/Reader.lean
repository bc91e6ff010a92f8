import ShapeCheck.Pattern
import ShapeCheck.Pattern.Error

/-!
# Patterns half read

The state of reading a written pattern, and the small pieces of patterns: numbers, names, escaped
characters, class names and comments.
-/

namespace ShapeCheck.Pattern

/-- The options in force at a place of a pattern. -/
structure Options where
  ignoreCase : Bool := false
  everyLine : Bool := false
  namedOnly : Bool := false
  dotAll : Bool := false
  /-- Blanks in the pattern do not count, and a number sign starts a comment. -/
  spaced : Bool := false
  deriving Inhabited

/-- How an open group will be closed. -/
inductive Opening where
  | whole
  | plain
  | capture (group release : Option Nat)
  | look (behind negated : Bool)
  | once
  | ifCaught (group : Nat)
  /-- A choice by whether a pattern matches, once that pattern is read. -/
  | ifMatches (condition : Option Pattern)
  deriving Inhabited

/-- An open group. -/
structure Frame where
  opening : Opening := .whole
  ways : List Pattern := []
  items : List Pattern := []
  outside : Options := {}
  deriving Inhabited

/-- The groups of a pattern that catch: their numbers, and the numbers of the named ones. -/
structure Groups where
  numbers : List Nat := [0]
  names : List (String × Nat) := []
  deriving Inhabited

/-- A pattern half read. -/
structure Reader where
  rest : List Char
  options : Options := {}
  nextNumber : Nat := 1
  quietParen : Bool := false
  afterRepetition : Bool := false
  groups : Groups := {}
  frame : Frame := {}
  stack : List Frame := []
  deriving Inhabited

/-- Work on a pattern half read. What has been read stays read when the work fails. -/
abbrev Reading := ExceptT PatternError (StateM Reader)

/-- The characters to come. -/
def rest : Reading (List Char) := return (← get).rest

/-- Goes to a place in the pattern. -/
def goTo (chars : List Char) : Reading Unit := modify fun r => { r with rest := chars }

/-- Goes over so many characters. -/
def skip (n : Nat) : Reading Unit := modify fun r => { r with rest := r.rest.drop n }

/-- The options in force. -/
def options : Reading Options := return (← get).options

/-- Takes the characters in front that pass a test. -/
def takeWhile (test : Char → Bool) : Reading (List Char) := do
  let chars ← rest
  goTo (chars.dropWhile test)
  return chars.takeWhile test

/-! ### Small pieces -/

/-- The largest number in a pattern. -/
def largestNumber : Nat := 2147483647

/-- A decimal number, zero without digits. -/
def number : Reading Nat := do
  let digits ← takeWhile Char.isDigit
  let n := digits.foldl (fun n d => 10 * n + (d.toNat - '0'.toNat)) 0
  if largestNumber < n then throw .numberTooLarge
  return n

/-- A name, empty when there is none. -/
def name : Reading String := return String.ofList (← takeWhile Text.isWord)

/-- The value of a hexadecimal digit. -/
def hexValue? (c : Char) : Option Nat :=
  if c.isDigit then some (c.toNat - '0'.toNat)
  else if 'a' ≤ c ∧ c ≤ 'f' then some (c.toNat - 'a'.toNat + 10)
  else if 'A' ≤ c ∧ c ≤ 'F' then some (c.toNat - 'A'.toNat + 10)
  else none

/-- A code point of exactly so many hexadecimal digits. -/
def hexCode (digits : Nat) : Reading Nat := do
  let chars := (← rest).take digits
  let values := (chars.takeWhile fun c => (hexValue? c).isSome).filterMap hexValue?
  if chars.length < digits then throw .tooFewDigits
  if values.length < digits then
    skip (values.length + 1)
    throw .tooFewDigits
  skip digits
  return values.foldl (fun n d => 16 * n + d) 0

/-- A code point of hexadecimal digits before a closing brace. -/
def hexCodeInBraces (n : Nat) (any : Bool) : List Char → Reading Nat
  | [] => do
    goTo []
    throw .missingBrace
  | c :: cs =>
    if c = '\x7d' then do
      goTo cs
      if any then return n else throw .tooFewDigits
    else
      match hexValue? c with
      | none => do
        goTo cs
        throw .missingBrace
      | some d =>
        if 0x10ffff < 16 * n + d then do
          goTo cs
          throw .codeTooLarge
        else hexCodeInBraces (16 * n + d) true cs

/-- Whether a character is an octal digit. -/
def isOctal (c : Char) : Bool := '0' ≤ c && c ≤ '7'

/-- A code point of at most three octal digits, taken modulo 256. -/
def octalCode : Reading Nat := do
  let digits := ((← rest).take 3).takeWhile isOctal
  skip digits.length
  return digits.foldl (fun n d => 8 * n + (d.toNat - '0'.toNat)) 0 % 256

/-- The control character of a letter. -/
def controlCode : Reading Nat := do
  match ← rest with
  | [] => throw .missingControl
  | c :: _ =>
    skip 1
    let code := if 'a' ≤ c ∧ c ≤ 'z' then c.toNat - 32 else c.toNat
    if 0x40 ≤ code ∧ code < 0x60 then return code - 0x40 else throw .unknownControl

/-- The code point written after a backslash. -/
def escapedCode : Reading Nat := do
  match ← rest with
  | [] => throw .lastBackslash
  | c :: cs =>
    if isOctal c then octalCode
    else
      skip 1
      match c with
      | 'x' =>
        match cs with
        | '\x7b' :: cs => hexCodeInBraces 0 false cs
        | _ => hexCode 2
      | 'u' => hexCode 4
      | 'a' => return 0x07
      | 'b' => return 0x08
      | 'e' => return 0x1b
      | 'f' => return 0x0c
      | 'n' => return 0x0a
      | 'r' => return 0x0d
      | 't' => return 0x09
      | 'v' => return 0x0b
      | 'c' => controlCode
      | _ => if Text.isWord c then throw (.unknownEscape c) else return c.toNat

/-- The class with a name, or the error that there is none. -/
def classNamed (name : String) : Reading CharClass :=
  match CharClass.ofName? name with
  | some k => return k
  | none => throw (.unknownClass name)

/-- The name of a class after its letter: one character, or a name in braces. -/
def className : Reading CharClass := do
  let chars ← rest
  match chars with
  | '\x7b' :: cs =>
    if chars.length < 3 then throw .incompleteClass
    goTo cs
    let word ← takeWhile fun c => Text.isWord c || c = '-'
    match ← rest with
    | '\x7d' :: cs =>
      goTo cs
      classNamed (String.ofList word)
    | _ =>
      skip 1
      throw .incompleteClass
  | c :: cs =>
    goTo cs
    classNamed (String.singleton c)
  | [] => throw .incompleteClass

/-- The blanks of a spaced pattern. -/
def isBlank (c : Char) : Bool := ('\t' ≤ c && c ≤ '\r') || c = ' '

/-- Goes over comments, and in a spaced pattern over blanks; so many times at most. -/
def skipBlanks : Nat → Reading Unit
  | 0 => return ()
  | fuel + 1 => do
    let spaced := (← options).spaced
    if spaced then discard (takeWhile isBlank)
    match ← rest with
    | '(' :: '?' :: '#' :: _ =>
      discard (takeWhile (· ≠ ')'))
      if (← rest).isEmpty then throw .openComment
      skip 1
      skipBlanks fuel
    | '#' :: _ =>
      if spaced then
        discard (takeWhile (· ≠ '\n'))
        skipBlanks fuel
      else return ()
    | _ => return ()

/-- Goes over all comments, and in a spaced pattern over blanks. -/
def blanks : Reading Unit := do skipBlanks ((← rest).length + 1)

end ShapeCheck.Pattern
