import ShapeCheck.Pattern

/-!
# Matching patterns

A pattern is matched at a place of a text by trying its ways one after the other, with a
continuation for what follows it. Behind a place a pattern is matched from right to left. A
repetition ends when it makes no way, so it is repeated at most as often as the text has
characters.

* `Pattern.run` matches a pattern at a place.
* `Pattern.occursIn` says whether a pattern matches anywhere in a text.
-/

namespace ShapeCheck.Pattern

/-- A match under way: the place reached, and what the groups have caught, the latest first: the
group and the places where the caught text starts and ends. -/
structure Trial where
  place : Nat
  caught : List (Nat × Nat × Nat) := []
  deriving Inhabited

/-- What follows in a match. -/
abbrev Rest := Trial → Option Trial

/-- The character that comes next in a direction, and the place after it. -/
def next? (text : Array Char) (backward : Bool) (place : Nat) : Option (Char × Nat) :=
  if backward then
    if place = 0 then none else text[place - 1]?.map fun c => (c, place - 1)
  else text[place]?.map fun c => (c, place + 1)

/-- Whether there is a character of a word at a place. -/
def wordAt (text : Array Char) (place : Nat) : Bool := (text[place]?.map Text.isWord).getD false

/-- Whether a place is the edge of a word. -/
def isWordEdge (text : Array Char) (place : Nat) : Bool :=
  (decide (0 < place) && wordAt text (place - 1)) != wordAt text place

/-- Whether a condition holds at a place. -/
def anchorHolds (text : Array Char) (place : Nat) : Anchor → Bool
  | .lineStart => place = 0 || text[place - 1]? = some '\n'
  | .lineEnd => place = text.size || text[place]? = some '\n'
  | .textStart => place = 0
  | .textEnd => place = text.size
  | .lastLineEnd => place = text.size || (place + 1 = text.size && text[place]? = some '\n')
  | .wordEdge => isWordEdge text place
  | .noWordEdge => !isWordEdge text place

/-- A character as it is compared. -/
def fold (ignoreCase : Bool) (c : Char) : Char := if ignoreCase then Text.lower c else c

/-- Goes over given characters in a direction. -/
def passOver (text : Array Char) (backward ignoreCase : Bool) (place : Nat) : List Char → Option Nat
  | [] => some place
  | c :: cs =>
    match next? text backward place with
    | some (d, place) =>
      if fold ignoreCase d = fold ignoreCase c then passOver text backward ignoreCase place cs
      else none
    | none => none

/-- Catches what lies between two places; catching and releasing at once takes the part between the
released text and the new one. -/
def Trial.catches (t : Trial) (start : Nat) (group release : Option Nat) : Option Trial :=
  let low := min start t.place
  let high := max start t.place
  match release with
  | none =>
    match group with
    | some g => some { t with caught := (g, low, high) :: t.caught }
    | none => some t
  | some r =>
    match t.caught.find? (·.1 = r) with
    | none => none
    | some (_, low', high') =>
      let (low, high) :=
        if high' ≤ low then (high', low)
        else if high ≤ low' then (low', high)
        else (max low low', min high high')
      let remaining := t.caught.eraseP (·.1 = r)
      match group with
      | some g => some { t with caught := (g, low, high) :: remaining }
      | none => some { t with caught := remaining }

/-- Repeats up to so many times where possible. A repetition that makes no way is the last. -/
def repeatOptionally (body : Trial → Rest → Option Trial) (rarely : Bool) :
    Nat → Option Nat → Trial → Rest → Option Trial
  | 0, _, t, k => k t
  | _ + 1, some 0, t, k => k t
  | fuel + 1, most, t, k =>
    let again := fun () => body t fun t' =>
      if t'.place = t.place then k t'
      else repeatOptionally body rarely fuel (most.map (· - 1)) t' k
    if rarely then
      match k t with
      | some r => some r
      | none => again ()
    else
      match again () with
      | some r => some r
      | none => k t

/-- Repeats so many times. -/
def repeatExactly (body : Trial → Rest → Option Trial) : Nat → Trial → Rest → Option Trial
  | 0, t, k => k t
  | n + 1, t, k => body t fun t' => repeatExactly body n t' k

/-- Matches a pattern from a place in a direction, and then what follows it. -/
def run (text : Array Char) : Pattern → Bool → Trial → Rest → Option Trial
  | .empty, _, t, k => k t
  | .char ignoreCase code, backward, t, k =>
    match next? text backward t.place with
    | some (c, place) =>
      if (fold ignoreCase c).toNat = (if ignoreCase then Text.lowerCode code else code) then
        k { t with place }
      else none
    | none => none
  | .set ignoreCase s, backward, t, k =>
    match next? text backward t.place with
    | some (c, place) =>
      if s.contains ignoreCase (fold ignoreCase c) then k { t with place } else none
    | none => none
  | .anchor a, _, t, k => if anchorHolds text t.place a then k t else none
  | .reference ignoreCase group, backward, t, k =>
    match t.caught.find? (·.1 = group) with
    | none => none
    | some (_, low, high) =>
      let chars := (text.extract low high).toList
      let chars := if backward then chars.reverse else chars
      match passOver text backward ignoreCase t.place chars with
      | some place => k { t with place }
      | none => none
  | .sequence a b, backward, t, k =>
    if backward then b.run text backward t fun t' => a.run text backward t' k
    else a.run text backward t fun t' => b.run text backward t' k
  | .either a b, backward, t, k =>
    match a.run text backward t k with
    | some r => some r
    | none => b.run text backward t k
  | .repeated p least most rarely, backward, t, k =>
    repeatExactly (fun t k => p.run text backward t k) least t fun t' =>
      repeatOptionally (fun t k => p.run text backward t k) rarely (text.size + 1)
        (most.map (· - least)) t' k
  | .capture group release p, backward, t, k =>
    p.run text backward t fun t' =>
      match t'.catches t.place group release with
      | some t'' => k t''
      | none => none
  | .look behind negated p, _, t, k =>
    match p.run text behind t some with
    | some t' => if negated then none else k { t' with place := t.place }
    | none => if negated then k t else none
  | .once p, backward, t, k =>
    match p.run text backward t some with
    | some t' => k t'
    | none => none
  | .ifCaught group yes no, backward, t, k =>
    if t.caught.any (·.1 = group) then yes.run text backward t k else no.run text backward t k
  | .ifMatches condition yes no, backward, t, k =>
    match condition.run text backward t some with
    | some t' => yes.run text backward { t' with place := t.place } k
    | none => no.run text backward t k

/-- Whether a pattern matches at a place of a text. -/
def matchesAt (p : Pattern) (text : Array Char) (place : Nat) : Bool :=
  (p.run text false { place } some).isSome

/-- Whether a pattern matches anywhere in a text. -/
def occursIn (p : Pattern) (text : String) : Bool :=
  let chars := text.toList.toArray
  (List.range (chars.size + 1)).any (p.matchesAt chars)

end ShapeCheck.Pattern
