import ShapeCheck.Number.Whole
import ShapeCheck.Settings.Layer
import ShapeCheck.Text.Csv
import ShapeCheck.Text.Quoted

/-!
# Flags

Flags on a command line have a long name after two hyphens, and some a letter after one. A flag that
is a truth value needs no value; the value of any other follows an equals sign or is the next
argument. Flags and other arguments may be mixed; two hyphens alone end the flags.

* `Flag.parse` tells flags from other arguments.
* `Flag.layer` gives the flags as a layer of settings.
-/

namespace ShapeCheck

/-- What a flag takes. -/
inductive FlagKind where
  | whole
  | text
  | truth
  /-- Texts with commas between them; given again, the flag adds to them. -/
  | texts
  deriving DecidableEq, Repr

/-- A flag. -/
structure Flag where
  name : String
  letter : Option Char := none
  kind : FlagKind
  purpose : String := ""
  deriving Repr

/-- The value of a flag. -/
inductive FlagValue where
  | whole (n : Int)
  | text (s : String)
  | truth (b : Bool)
  | texts (ss : List String)
  deriving DecidableEq, Repr

/-- Why arguments cannot be parsed. -/
inductive FlagError where
  | badSyntax (argument : String)
  | unknownName (name : String)
  /-- A letter that is not known, by its first byte, with the letters it stands before. -/
  | unknownLetter (byte : Char) (letters : String)
  | missingValue (name : String)
  | missingLetterValue (letter : Char) (letters : String)
  | badValue (flag : Flag) (value cause : String)
  | helpAsked

/-- A character between single quotes. -/
def Text.quotedChar (c : Char) : String :=
  if c = '\'' then "'\\''"
  else if c = '"' then "'\"'"
  else String.ofList ('\'' :: Text.quoteChar c ++ ['\''])

/-- The name of a flag in messages. -/
def Flag.shownName (f : Flag) : String :=
  match f.letter with
  | some l => "-" ++ String.singleton l ++ ", --" ++ f.name
  | none => "--" ++ f.name

/-- The wording of the error. -/
def FlagError.message : FlagError → String
  | .badSyntax argument => "bad flag syntax: " ++ argument
  | .unknownName name => "unknown flag: --" ++ name
  | .unknownLetter byte letters =>
    "unknown shorthand flag: " ++ Text.quotedChar byte ++ " in -" ++ letters
  | .missingValue name => "flag needs an argument: --" ++ name
  | .missingLetterValue letter letters =>
    "flag needs an argument: " ++ Text.quotedChar letter ++ " in -" ++ letters
  | .badValue flag value cause =>
    "invalid argument " ++ Text.quoted value ++ " for " ++ Text.quoted flag.shownName ++
      " flag: " ++ cause
  | .helpAsked => "pflag: help requested"

/-- Arguments parsed: the flags that are set, the latest first, and the other arguments, the latest
first. -/
structure ParsedArguments where
  flags : List (String × FlagValue) := []
  others : List String := []
  deriving Inhabited

namespace Flag

/-- The wording of why a text is no number. -/
def numberCause (reader value : String) (e : Decimal.ReadError) : String :=
  "strconv." ++ reader ++ ": parsing " ++ Text.quoted value ++ ": " ++
    match e with
    | .malformed => "invalid syntax"
    | .outOfRange => "value out of range"

/-- The value of a flag, given the value it had before. -/
def read (f : Flag) (before : Option FlagValue) (value : String) : Except FlagError FlagValue :=
  match f.kind with
  | .whole =>
    match Whole.read value with
    | .ok n => .ok (.whole n)
    | .error e => .error (.badValue f value (numberCause "ParseInt" value e))
  | .text => .ok (.text value)
  | .truth =>
    match Settings.truthWord? value with
    | some b => .ok (.truth b)
    | none => .error (.badValue f value (numberCause "ParseBool" value .malformed))
  | .texts =>
    match if value.isEmpty then .ok [] else Csv.firstRecord value with
    | .error e => .error (.badValue f value e.message)
    | .ok texts =>
      match before with
      | some (.texts earlier) => .ok (.texts (earlier ++ texts))
      | _ => .ok (.texts texts)

/-- Sets a flag. -/
def set (p : ParsedArguments) (f : Flag) (value : String) : Except FlagError ParsedArguments := do
  let v ← f.read (p.flags.lookup f.name) value
  return { p with flags := (f.name, v) :: p.flags.filter (·.1 ≠ f.name) }

/-- The first byte of a character. -/
def firstByte (c : Char) : Char :=
  match (String.singleton c).toUTF8.toList with
  | b :: _ => Char.ofNat b.toNat
  | [] => c

/-- Parses the letters after a hyphen, with the arguments that follow; the rest of the arguments is
what remains of them. -/
def parseLetters (known : List Flag) (following : List String) (p : ParsedArguments) :
    List Char → Except FlagError (ParsedArguments × List String)
  | [] => .ok (p, following)
  | c :: cs => do
    match known.find? (·.letter = some c) with
    | none =>
      if c = 'h' then throw .helpAsked
      else throw (.unknownLetter (firstByte c) (String.ofList (c :: cs)))
    | some f =>
      match cs with
      | '=' :: d :: value => return (← set p f (String.ofList (d :: value)), following)
      | _ =>
        if f.kind = .truth then parseLetters known following (← set p f "true") cs
        else if !cs.isEmpty then return (← set p f (String.ofList cs), following)
        else
          match following with
          | value :: rest => return (← set p f value, rest)
          | [] => throw (.missingLetterValue c (String.ofList (c :: cs)))

/-- A name and the value after an equals sign, if there is one. -/
def splitValue (text : List Char) : String × Option String :=
  let name := String.ofList (text.takeWhile (· ≠ '='))
  match text.dropWhile (· ≠ '=') with
  | _ :: value => (name, some (String.ofList value))
  | [] => (name, none)

/-- Parses a long name after two hyphens, with the arguments that follow. -/
def parseName (known : List Flag) (following : List String) (p : ParsedArguments)
    (text : List Char) : Except FlagError (ParsedArguments × List String) := do
  if text.head? = some '-' || text.head? = some '=' then
    throw (.badSyntax (String.ofList ('-' :: '-' :: text)))
  let (name, value?) := splitValue text
  match known.find? (·.name = name) with
  | none => if name = "help" then throw .helpAsked else throw (.unknownName name)
  | some f =>
    match value? with
    | some value => return (← set p f value, following)
    | none =>
      if f.kind = .truth then return (← set p f "true", following)
      else
        match following with
        | value :: rest => return (← set p f value, rest)
        | [] => throw (.missingValue name)

/-- Parses arguments, of which so many are left at most. -/
def parseAll (known : List Flag) : Nat → List String → ParsedArguments →
    Except FlagError ParsedArguments
  | 0, _, p => .ok p
  | _ + 1, [], p => .ok p
  | fuel + 1, a :: rest, p => do
    match a.toList with
    | ['-', '-'] => return { p with others := rest.reverse ++ p.others }
    | '-' :: '-' :: text =>
      let (p, rest) ← parseName known rest p text
      parseAll known fuel rest p
    | '-' :: c :: cs =>
      let (p, rest) ← parseLetters known rest p (c :: cs)
      parseAll known fuel rest p
    | _ => parseAll known fuel rest { p with others := a :: p.others }

/-- Parses arguments: the flags that are set, and the other arguments in order. -/
def parse (known : List Flag) (arguments : List String) : Except FlagError ParsedArguments := do
  let p ← parseAll known (arguments.length + 1) arguments {}
  return { p with others := p.others.reverse }

/-- A value as a setting. A list of one empty text is an empty list. -/
def toValue : FlagValue → Yaml.Value
  | .whole n => .whole n
  | .text s => .text s
  | .truth b => .truth b
  | .texts [""] => .list []
  | .texts ss => .list (ss.map .text)

/-- The flags that are set as a layer of settings; hyphens in names become underscores. -/
def layer (p : ParsedArguments) : Settings.Layer :=
  p.flags.map fun (name, v) => (name.replace "-" "_", toValue v)

end Flag

end ShapeCheck
