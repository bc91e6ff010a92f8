import ShapeCheck.Text.Category
import ShapeCheck.Text.Script
import ShapeCheck.Text.SmallLetter

/-!
# Patterns

Patterns describe texts: characters and sets of characters, sequences, choices and repetitions, and
conditions on what stands around a place. They are trees; how they are written is the matter of
`ShapeCheck.Pattern.Read`, and what they match that of `ShapeCheck.Pattern.Match`.

* `CharSet.contains` says which characters a set has.
* `Pattern` is a pattern.
-/

namespace ShapeCheck

/-- A class of characters that a set can name. -/
inductive CharClass where
  | word
  | space
  | group (letter : Char)
  | category (k : Text.Category)
  | cased
  | script (name : String)
  deriving DecidableEq, Repr

namespace CharClass

/-- The decimal digits. -/
def digit : CharClass := .category ⟨'N', 'd'⟩

/-- Whether a character is in a class. -/
def contains (c : Char) : CharClass → Bool
  | .word => Text.isWord c
  | .space => Text.isSpace c
  | .group letter => (Text.Category.ofChar c).group = letter
  | .category k => Text.Category.ofChar c = k
  | .cased => [⟨'L', 'u'⟩, ⟨'L', 'l'⟩, ⟨'L', 't'⟩].contains (Text.Category.ofChar c)
  | .script name => ((Text.scriptRanges? name).map (Text.inRanges · c.toNat)).getD false

/-- The general categories by their groups. -/
def kindsOf : Char → String
  | 'C' => "cfnos"
  | 'L' => "lmotu"
  | 'M' => "cen"
  | 'N' => "dlo"
  | 'P' => "cdefios"
  | 'S' => "ckmo"
  | 'Z' => "lps"
  | _ => ""

/-- The class with a name: a group, a category, a property or a script. -/
def ofName? (name : String) : Option CharClass :=
  match name.toList with
  | [g] => if (kindsOf g).isEmpty then none else some (.group g)
  | ['L', 'C'] => some .cased
  | [g, k] => if (kindsOf g).toList.contains k then some (.category ⟨g, k⟩) else none
  | _ =>
    if name = "White_Space" then some .space
    else if (Text.scriptRanges? name).isSome then some (.script name)
    else none

/-- The classes that stand for a class when case does not matter: small, capital and title letters
stand for each other. -/
def ignoringCase (k : CharClass) : List CharClass :=
  let letters : List CharClass :=
    [.category ⟨'L', 'l'⟩, .category ⟨'L', 'u'⟩, .category ⟨'L', 't'⟩]
  if letters.contains k then letters else [k]

end CharClass

/-- A set of characters. -/
inductive CharSet where
  /-- Ranges of code points and classes, each class as it is or negated; `negated` takes the
  characters that are in none of them. -/
  | items (negated : Bool) (ranges : List (Nat × Nat)) (classes : List (Bool × CharClass))
  | without (a b : CharSet)
  deriving Repr

namespace CharSet

/-- Whether the classes have a character. They are asked in order: the first that has it decides,
and so does a negated class in any case. -/
def inClasses (c : Char) : List (Bool × CharClass) → Bool
  | [] => false
  | (negated, k) :: rest =>
    if k.contains c then !negated else if negated then true else inClasses c rest

/-- Whether a class and its negation are among the classes. -/
def coversAll (classes : List (Bool × CharClass)) : Bool :=
  classes.any fun (negated, k) => classes.contains (!negated, k)

/-- Whether a code point is in one of the ranges. -/
def inRanges (ranges : List (Nat × Nat)) (n : Nat) : Bool :=
  ranges.any fun (low, high) => decide (low ≤ n) && decide (n ≤ high)

/-- Whether a character is in a set. When case does not matter, the character is a small letter, and
a capital letter in a range stands for its small letter too. -/
def contains (ignoreCase : Bool) (c : Char) : CharSet → Bool
  | .items negated ranges classes =>
    let listed := inRanges ranges c.toNat ||
      (ignoreCase && (Text.capitalsOf c.toNat).any (inRanges ranges)) ||
      coversAll classes || inClasses c classes
    listed ≠ negated
  | .without a b => contains ignoreCase c a && !contains ignoreCase c b

/-- The set of a class or of what is not in it. -/
def ofClass (negated : Bool) (k : CharClass) : CharSet := .items negated [] [(false, k)]

/-- All characters. -/
def all : CharSet := .items true [] []

/-- All characters but the end of a line. -/
def inLine : CharSet := .items true [(0x0a, 0x0a)] []

end CharSet

/-- A condition on a place in a text. -/
inductive Anchor where
  | lineStart
  | lineEnd
  /-- The start of the text, which is also where the search starts. -/
  | textStart
  | textEnd
  /-- The end of the text, or the place before a line end that ends it. -/
  | lastLineEnd
  | wordEdge
  | noWordEdge
  deriving DecidableEq, Repr

/-- A pattern. Characters are given by code points; a flag says whether their case matters. -/
inductive Pattern where
  | empty
  | char (ignoreCase : Bool) (code : Nat)
  | set (ignoreCase : Bool) (s : CharSet)
  | anchor (a : Anchor)
  | reference (ignoreCase : Bool) (group : Nat)
  | sequence (a b : Pattern)
  | either (a b : Pattern)
  | repeated (p : Pattern) (least : Nat) (most : Option Nat) (rarely : Bool)
  /-- Catches what is matched in a group; a group may be released of what it has caught last. -/
  | capture (group : Option Nat) (release : Option Nat) (p : Pattern)
  /-- Matches, or does not, ahead of the place or behind it. -/
  | look (behind negated : Bool) (p : Pattern)
  | once (p : Pattern)
  /-- One or the other by whether a group has caught something. -/
  | ifCaught (group : Nat) (yes no : Pattern)
  /-- One or the other by whether a pattern matches at the place. -/
  | ifMatches (condition yes no : Pattern)
  deriving Inhabited, Repr

namespace Pattern

/-- The patterns one after the other. -/
def sequenceOf : List Pattern → Pattern
  | [] => .empty
  | [p] => p
  | p :: ps => .sequence p (sequenceOf ps)

/-- The first of the patterns that matches. -/
def eitherOf : List Pattern → Pattern
  | [] => .empty
  | [p] => p
  | p :: ps => .either p (eitherOf ps)

end Pattern

end ShapeCheck
