import ShapeCheck.Pattern.Reader

/-!
# Sets in patterns

A set of characters is written in brackets: characters, ranges of characters and classes, negated by
a first `^`. A set within it after a hyphen is taken away.
-/

namespace ShapeCheck.Pattern

/-- A set half read. -/
structure SetReader where
  negated : Bool
  ranges : List (Nat × Nat) := []
  classes : List (Bool × CharClass) := []
  removed : List CharSet := []
  low : Option Nat := none
  first : Bool := true

/-- The set that has been read. -/
def SetReader.finish (s : SetReader) : CharSet :=
  s.removed.foldl .without (.items s.negated s.ranges.reverse s.classes.reverse)

/-- Adds a range to a set. -/
def SetReader.addRange (s : SetReader) (low high : Nat) : SetReader :=
  { s with ranges := (low, high) :: s.ranges, low := none }

/-- Takes a set away from a set. -/
def SetReader.remove (s : SetReader) (inner : CharSet) : SetReader :=
  { s with removed := s.removed ++ [inner] }

/-- Adds a class to a set. -/
def SetReader.addClass (s : SetReader) (negated : Bool) (k : CharClass) : SetReader :=
  if s.classes.contains (negated, k) then s
  else { s with classes := (negated, k) :: s.classes }

/-- A class of characters by its letter; a capital letter negates. -/
def letterClass? : Char → Option (Bool × CharClass)
  | 'd' => some (false, .digit)
  | 'D' => some (true, .digit)
  | 's' => some (false, .space)
  | 'S' => some (true, .space)
  | 'w' => some (false, .word)
  | 'W' => some (true, .word)
  | _ => none

/-- An element of a set. -/
inductive Element where
  | named (letter : Char) (negated : Bool) (classes : List CharClass)
  | hyphen
  /-- A character, given by its code point; `plain` when it is not escaped. -/
  | code (n : Nat) (plain : Bool)

/-- Reads an element that starts with a backslash. -/
def escapedElement (ignoreCase : Bool) : Reading Element := do
  match ← rest with
  | '-' :: cs =>
    goTo cs
    return .hyphen
  | c :: cs =>
    match letterClass? c with
    | some (negated, k) =>
      goTo cs
      return .named c negated [k]
    | none =>
      if c = 'p' || c = 'P' then
        goTo cs
        let k ← className
        return .named c (c = 'P') (if ignoreCase then k.ignoringCase else [k])
      else return .code (← escapedCode) false
  | [] => throw .lastBackslash

/-- Goes over a name between colons and a closing bracket after an opening bracket. Such a name
means nothing: only the bracket before it counts. -/
def skipColonName : Reading Unit := do
  match ← rest with
  | ':' :: cs =>
    goTo (if cs.head? = some '^' && 1 < cs.length then cs.drop 1 else cs)
    discard name
    match ← rest with
    | ':' :: ']' :: more => goTo more
    | _ => goTo (':' :: cs)
  | _ => return ()

/-- Reads an element of a set. -/
def element (ignoreCase inRange : Bool) (c : Char) (cs : List Char) : Reading Element := do
  goTo cs
  if c = '\\' && !cs.isEmpty then escapedElement ignoreCase
  else
    if c = '[' && !inRange then skipColonName
    return .code c.toNat true

/-- Reads the sign that negates a set, if it is there. -/
def negation : Reading Bool := do
  match ← rest with
  | '^' :: cs =>
    goTo cs
    return true
  | _ => return false

/-- Makes sure that a set that is taken away is the last element. -/
def expectLast : Reading Unit := do
  match ← rest with
  | ']' :: _ | [] => return ()
  | _ => throw .notLast

/-- Reads a set up to its closing bracket. A set within it after a hyphen is taken away from it. -/
def setItems (ignoreCase : Bool) : Nat → SetReader → Reading CharSet
  | 0, _ => throw .openSet
  | fuel + 1, s => do
    match ← rest with
    | [] => throw .openSet
    | c :: cs =>
      if c = ']' && !s.first then
        goTo cs
        return s.finish
      let after := { s with first := false }
      match ← element ignoreCase s.low.isSome c cs with
      | .named letter negated classes =>
        if s.low.isSome then throw (.classInRange letter)
        setItems ignoreCase fuel (classes.foldl (·.addClass negated ·) after)
      | .hyphen => setItems ignoreCase fuel { after with ranges := (0x2d, 0x2d) :: after.ranges }
      | .code n plain =>
        match s.low, ← rest with
        | some low, _ =>
          if c = '[' && plain then
            let inner ← setItems ignoreCase fuel { negated := ← negation }
            expectLast
            setItems ignoreCase fuel ((after.addRange low low).remove inner)
          else if n < low then throw (.reversedRange low n)
          else setItems ignoreCase fuel (after.addRange low n)
        | none, '-' :: d :: more =>
          if d ≠ ']' then
            goTo (d :: more)
            setItems ignoreCase fuel { after with low := some n }
          else setItems ignoreCase fuel (after.addRange n n)
        | none, '[' :: more =>
          if c = '-' && plain && !s.first then
            goTo more
            let inner ← setItems ignoreCase fuel { negated := ← negation }
            expectLast
            setItems ignoreCase fuel (after.remove inner)
          else setItems ignoreCase fuel (after.addRange n n)
        | none, _ => setItems ignoreCase fuel (after.addRange n n)

/-- Reads a set after its opening bracket. -/
def charSet : Reading CharSet := do
  let ignoreCase := (← options).ignoreCase
  let negated ← negation
  setItems ignoreCase ((← rest).length + 1) { negated }

end ShapeCheck.Pattern
