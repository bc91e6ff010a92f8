import ShapeCheck.Ty

/-!
# Keys

What a type is looked up by in a table. A key is a text built from the numbers of the parts, so it
is the same for two spellings of one type: it sorts the members of unions and intersections and the
fields of objects, leaves out the names of parameters, and knows a literal by its printed form. All
kinds of types share one map, so each kind starts its keys in its own way.

* `Shape.key` is the key of a shape.
-/

namespace ShapeCheck

namespace Key

/-- The number of a type. -/
def number (t : Ty) : List Char := Nat.toDigits 10 t.serial

/-- Some texts with commas between them. -/
def commas (texts : List (List Char)) : List Char := [','].intercalate texts

/-- The numbers of some types in order. -/
def ids (ts : List Ty) : List Char := commas (ts.map number)

/-- Whether a text does not come after another one. -/
def notAfter (a b : List Char) : Bool := !decide (b < a)

/-- The numbers of some types as a set, sorted as texts. -/
def idSet (ts : List Ty) : List Char := commas ((ts.map number).mergeSort notAfter)

/-- A mark that stands only when the condition holds. -/
def mark (condition : Bool) (c : Char) : List Char := if condition then [c] else []

/-- The trailing part of a tuple, or the rest parameter of a function. -/
def rest : Option Ty → List Char
  | none => []
  | some t => '.' :: '.' :: '.' :: number t

/-- One place of a tuple. -/
def slot (s : Slot) : List Char := number s.type ++ mark s.optional '?' ++ [',']

/-- One parameter of a function; its name does not count. -/
def parameter (p : Parameter) : List Char := number p.type ++ mark p.optional '?' ++ [',']

/-- One type parameter that a function declares. -/
def typeParam (v : TypeVar) : List Char := Nat.toDigits 10 (v.number + 1) ++ [',']

/-- The type of the receiver of a function. -/
def receiver : Option Ty → List Char
  | none => []
  | some t => 't' :: 'h' :: 'i' :: 's' :: ':' :: number t

/-- A function. -/
def callable (c : Callable) : List Char :=
  'F' :: '<' :: c.typeParams.flatMap typeParam ++ '>' :: '(' :: c.params.flatMap parameter ++
    rest (c.rest.map Parameter.type) ++ ')' :: receiver c.receiver ++ '=' :: '>' :: number c.result

/-- One field of an object. -/
def field (f : Field) : List Char :=
  (Text.quoted f.name).toList ++ mark f.optional '?' ++ mark f.readonly '!' ++
    ':' :: number f.type ++ [';']

/-- Sorts fields by name. -/
def sortFields (fs : List Field) : List Field := fs.mergeSort fun a b => decide (a.name ≤ b.name)

/-- The index signature of an object. -/
def index : Option Index → List Char
  | none => []
  | some i => '[' :: i.key.text.toList ++ ':' :: number i.value ++ [']']

/-- One call signature of an object. -/
def call (t : Ty) : List Char := '(' :: ')' :: number t

/-- An object. -/
def members (m : Members) : List Char :=
  'O' :: '\x7b' :: (sortFields m.fields).flatMap field ++ index m.index ++ m.calls.flatMap call ++
    ['\x7d']

/-- A tuple. -/
def tuple (t : Tuple) : List Char :=
  mark t.readonly 'R' ++ 'T' :: '[' :: t.slots.flatMap slot ++ rest t.rest ++ [']']

end Key

namespace Shape

/-- The characters of a key. Primitives have no entries, and members of enums are never looked
up. -/
def spelling : Shape → List Char
  | primitive p => p.text.toList
  | literal l => 'L' :: ':' :: l.base.text.toList ++ ':' :: l.text.toList
  | union ms => 'U' :: ':' :: Key.idSet ms
  | intersection ms => 'I' :: ':' :: Key.idSet ms
  | object m => Key.members m
  | array element readonly => Key.mark readonly 'R' ++ 'A' :: ':' :: Key.number element
  | tuple t => Key.tuple t
  | function c => Key.callable c
  | parameter v => 'P' :: ':' :: Nat.toDigits 10 (v.number + 1)
  | reference name arguments =>
    'R' :: ':' :: name.toList ++ '<' :: Key.ids arguments ++ ['>']
  | enumeration e => 'E' :: ':' :: e.name.toList
  | enumMember enum name _ => 'E' :: 'M' :: ':' :: Key.number enum ++ '.' :: name.toList
  | classValue name instanceType constructor =>
    'C' :: ':' :: name.toList ++ ':' :: Key.number instanceType ++ ':' :: Key.number constructor

/-- What a shape is looked up by. -/
def key (s : Shape) : String := String.ofList s.spelling

end Shape

end ShapeCheck
