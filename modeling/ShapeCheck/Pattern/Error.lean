/-!
# Pattern errors

What can be wrong with a written pattern, with the wording of each error.
-/

namespace ShapeCheck

/-- Why a written pattern cannot be read. -/
inductive PatternError where
  | openComment
  | reversedCounts
  | numberTooLarge
  | unexpectedClose
  | missingClose
  | missingBrace
  | nestedRepetition
  | nothingToRepeat
  | badCondition
  | tooManyWays
  | unknownGroup (opening : String)
  | badGroupName
  | groupZero
  | undefinedNumber (group : Nat)
  | undefinedName (name : String)
  | namedCondition
  | commentCondition
  | malformedCondition (group : Nat)
  /-- The group number of a condition is not in the pattern. -/
  | undefinedCondition (group : Nat)
  | lastBackslash
  | incompleteClass
  | unknownClass (name : String)
  | unknownEscape (letter : Char)
  | missingControl
  | unknownControl
  | tooFewDigits
  | codeTooLarge
  | malformedReference
  | classInRange (letter : Char)
  | openSet
  | notLast
  | reversedRange (low high : Nat)
  deriving DecidableEq, Repr

namespace PatternError

/-- What is wrong. -/
def cause : PatternError → String
  | .openComment => "unterminated comment"
  | .reversedCounts => "invalid repeat count"
  | .numberTooLarge => "capture group number out of range"
  | .unexpectedClose => "unexpected )"
  | .missingClose => "missing closing )"
  | .missingBrace => "missing closing \x7d"
  | .nestedRepetition => "invalid nested repetition operator"
  | .nothingToRepeat => "missing argument to repetition operator"
  | .badCondition => "illegal conditional (?(...)) expression"
  | .tooManyWays => "too many | in (?()|)"
  | .unknownGroup opening => "unrecognized grouping construct: (" ++ opening
  | .badGroupName =>
    "invalid group name: group names must begin with a word character and have a " ++
      "matching terminator"
  | .groupZero => "capture number cannot be zero"
  | .undefinedNumber group => "reference to undefined group number " ++ toString group
  | .undefinedName name => "reference to undefined group name " ++ name
  | .namedCondition => "alternation conditions do not capture and cannot be named"
  | .commentCondition => "alternation conditions cannot be comments"
  | .malformedCondition group => "(?(" ++ toString group ++ ") ) malformed"
  | .undefinedCondition group => "(?(" ++ toString group ++ ") ) reference to undefined group"
  | .lastBackslash => "illegal \\ at end of pattern"
  | .incompleteClass => "incomplete \\p\x7bX\x7d character escape"
  | .unknownClass name => "unknown unicode category, script, or property '" ++ name ++ "'"
  | .unknownEscape letter => "unrecognized escape sequence \\" ++ String.singleton letter
  | .missingControl => "missing control character"
  | .unknownControl => "unrecognized control character"
  | .tooFewDigits => "insufficient hexadecimal digits"
  | .codeTooLarge => "hex values may not be larger than 0x10FFFF"
  | .malformedReference => "malformed \\k<...> named back reference"
  | .classInRange letter => "cannot include class \\" ++ toString letter.toNat ++
      " in character range"
  | .openSet => "unterminated [] set"
  | .notLast => "a subtraction must be the last element in a character class"
  | .reversedRange low high => "[" ++ String.singleton (Char.ofNat low) ++ "-" ++
      String.singleton (Char.ofNat high) ++ "] range in reverse order"

/-- The wording of an error in a pattern. -/
def message (pattern : String) (e : PatternError) : String :=
  "error parsing regexp: " ++ e.cause ++ " in `" ++ pattern ++ "`"

end PatternError

end ShapeCheck
