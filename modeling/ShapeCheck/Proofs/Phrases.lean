import ShapeCheck.Snippet

/-!
# Which words spell a tree

A phrase is a node of a tree or a list of nodes, and `Spelled p ws` says that the words `ws`, in
order and without a gap, spell the phrase `p` with all its parts. It is the grammar of snippets,
given by rules that do not know of the reader. A tree is complete when the words of the text spell
it: each word belongs to one of its nodes or is punctuation that the grammar asks for, so no part
that was written is missing. How tightly operators bind is left aside here.

Positions and numbers of nodes are not spelled and may be any.
-/

namespace ShapeCheck

/-- One member of an object type. -/
inductive Member where
  | property (p : PropertySpec)
  | index (i : IndexSpec)
  | call (s : Signature)

/-- The members with one more. -/
def MemberList.add : MemberList → Member → MemberList
  | .mk properties index calls, .property p => .mk (properties ++ [p]) index calls
  | .mk properties _ calls, .index i => .mk properties (some i) calls
  | .mk properties index calls, .call s => .mk properties index (calls ++ [s])

namespace Snippet

/-- The first parameter, if it is named `this`, is the receiver: its annotation, and the parameters
that are left. -/
def splitReceiver : List Param → Option TypeExpr × List Param
  | p :: ps => if p.name = "this" then (p.type, ps) else (none, p :: ps)
  | [] => (none, [])

/-- The parts of a tree that the grammar has a rule for. -/
inductive Phrase where
  | expression (e : Expr)
  | type (t : TypeExpr)
  | entry (p : Property)
  | slot (s : TupleSlot)
  | restSlot (element : TypeExpr)
  | typeParameter (p : TypeParam)
  | parameter (p : Param)
  | restParameter (p : Param)
  | signature (separator : Symbol) (s : Signature)
  | head (h : PropertyHead)
  | member (m : Member)
  | field (f : ClassField)
  | enumMember (m : EnumMember)
  | name (s : String)
  /-- Phrases with a symbol between any two of them; there is at least one. -/
  | separated (s : Symbol) (ps : List Phrase)
  /-- Phrases that are each followed by one of the symbols; behind the last it may be missing, and
  then no further phrase may follow. -/
  | ended (ss : List Symbol) (more : Bool) (ps : List Phrase)
  /-- Phrases between angle brackets, or nothing if there are none. -/
  | angled (ps : List Phrase)
  | upTo (close : Symbol) (es : List Expr)
  /-- Expressions in parentheses, or nothing if there are none. -/
  | arguments (es : List Expr)
  /-- A phrase introduced by a word of the kind, or nothing. -/
  | clause (k : TokenKind) (p : Option Phrase)
  | mark (s : Symbol) (given : Bool)

/-- The words spell the phrase. -/
inductive Spelled : Phrase → List Token → Prop
  -- Lists and optional parts
  | separated_one {s : Symbol} {p : Phrase} {u : List Token} (hp : Spelled p u) :
    Spelled (.separated s [p]) u
  | separated_more {s : Symbol} {ps : List Phrase} {p : Phrase} {u v : List Token} {c : Token}
    (hps : Spelled (.separated s ps) u) (hc : c.kind = .symbol s) (hp : Spelled p v) :
    Spelled (.separated s (ps ++ [p])) (u ++ c :: v)
  | ended_nil {ss : List Symbol} : Spelled (.ended ss true []) []
  | ended_more {ss : List Symbol} {ps : List Phrase} {p : Phrase} {u v : List Token}
    (hps : Spelled (.ended ss true ps) u) (hp : Spelled p v) :
    Spelled (.ended ss false (ps ++ [p])) (u ++ v)
  | ended_symbol {ss : List Symbol} {s : Symbol} {ps : List Phrase} {u : List Token} {c : Token}
    (hps : Spelled (.ended ss false ps) u) (hs : s ∈ ss) (hc : c.kind = .symbol s) :
    Spelled (.ended ss true ps) (u ++ [c])
  | angled_none : Spelled (.angled []) []
  | angled_some {ps : List Phrase} {u : List Token} {o c : Token} (ho : o.kind = .symbol .less)
    (hps : Spelled (.separated .comma ps) u) (hc : c.kind = .symbol .greater) :
    Spelled (.angled ps) (o :: u ++ [c])
  | clause_none {k : TokenKind} : Spelled (.clause k none) []
  | clause_some {k : TokenKind} {p : Phrase} {c : Token} {u : List Token} (hc : c.kind = k)
    (hp : Spelled p u) : Spelled (.clause k (some p)) (c :: u)
  | mark_none {s : Symbol} : Spelled (.mark s false) []
  | mark_some {s : Symbol} {c : Token} (hc : c.kind = .symbol s) : Spelled (.mark s true) [c]
  -- Names and literals in types
  | name_one {t : Token} (ht : t.kind = .identifier) : Spelled (.name t.text) [t]
  | name_more {s : String} {u : List Token} {d t : Token} (hs : Spelled (.name s) u)
    (hd : d.kind = .symbol .dot) (ht : t.kind = .identifier) :
    Spelled (.name (s ++ "." ++ t.text)) (u ++ [d, t])
  | reference {s : String} {ts : List TypeExpr} {u v : List Token} {q : Position}
    (hs : Spelled (.name s) u) (hts : Spelled (.angled (ts.map .type)) v) :
    Spelled (.type (.reference q s ts)) (u ++ v)
  | type_keyword {t : Token} {q : Position}
    (ht : t.kind = .keyword .null ∨ t.kind = .keyword .undefined) :
    Spelled (.type (.reference q t.text [])) [t]
  | type_string {t : Token} {q : Position} (ht : t.kind = .string) :
    Spelled (.type (.literal q (.string t.text))) [t]
  | type_true {t : Token} {q : Position} (ht : t.kind = .keyword .true) :
    Spelled (.type (.literal q (.boolean true))) [t]
  | type_false {t : Token} {q : Position} (ht : t.kind = .keyword .false) :
    Spelled (.type (.literal q (.boolean false))) [t]
  | type_bigint {t : Token} {q : Position} (ht : t.kind = .bigint) :
    Spelled (.type (.literal q (.bigint t.text))) [t]
  | type_number {t : Token} {q : Position} {v : Binary64} (ht : t.kind = .number)
    (hv : Decimal.read? t.text = .ok v) : Spelled (.type (.literal q (.number v))) [t]
  | type_negative {m t : Token} {q : Position} {v : Binary64} (hm : m.kind = .symbol .minus)
    (ht : t.kind = .number) (hv : Decimal.read? t.text = .ok v) :
    Spelled (.type (.literal q (.number v.neg))) [m, t]
  -- Composed types
  | type_object {o c : Token} {ms : List Member} {more : Bool} {u : List Token} {q : Position}
    (ho : o.kind = .symbol .leftBrace)
    (hms : Spelled (.ended [.semicolon, .comma] more (ms.map .member)) u)
    (hc : c.kind = .symbol .rightBrace) :
    Spelled (.type (.object q (ms.foldl MemberList.add default))) (o :: u ++ [c])
  | tuple {o c : Token} {slots : List TupleSlot} {rest : Option TypeExpr} {more : Bool}
    {u : List Token} {q : Position} (ho : o.kind = .symbol .leftBracket)
    (hslots : Spelled (.ended [.comma] more (slots.map .slot ++ rest.toList.map .restSlot)) u)
    (hc : c.kind = .symbol .rightBracket) :
    Spelled (.type (.tuple q slots rest false)) (o :: u ++ [c])
  | type_grouped {o c : Token} {t : TypeExpr} {u : List Token} (ho : o.kind = .symbol .leftParen)
    (ht : Spelled (.type t) u) (hc : c.kind = .symbol .rightParen) :
    Spelled (.type t) (o :: u ++ [c])
  | type_array {o c : Token} {t : TypeExpr} {u : List Token} {q : Position}
    (ht : Spelled (.type t) u) (ho : o.kind = .symbol .leftBracket)
    (hc : c.kind = .symbol .rightBracket) : Spelled (.type (.array q t false)) (u ++ [o, c])
  | readonly_array {k : Token} {t : TypeExpr} {b : Bool} {u : List Token} {q : Position}
    (hk : k.kind = .keyword .readonly) (ht : Spelled (.type (.array q t b)) u) :
    Spelled (.type (.array q t true)) (k :: u)
  | readonly_tuple {k : Token} {slots : List TupleSlot} {rest : Option TypeExpr} {b : Bool}
    {u : List Token} {q : Position} (hk : k.kind = .keyword .readonly)
    (ht : Spelled (.type (.tuple q slots rest b)) u) :
    Spelled (.type (.tuple q slots rest true)) (k :: u)
  | intersection {ts : List TypeExpr} {u : List Token} {q : Position} (hlen : 2 ≤ ts.length)
    (hts : Spelled (.separated .ampersand (ts.map .type)) u) :
    Spelled (.type (.intersection q ts)) u
  | union {ts : List TypeExpr} {u : List Token} {q : Position} (hlen : 2 ≤ ts.length)
    (hts : Spelled (.separated .pipe (ts.map .type)) u) : Spelled (.type (.union q ts)) u
  | type_barred {b : Token} {t : TypeExpr} {u : List Token} (hb : b.kind = .symbol .pipe)
    (ht : Spelled (.type t) u) : Spelled (.type t) (b :: u)
  | type_function {s : Signature} {u : List Token} (hs : Spelled (.signature .arrow s) u) :
    Spelled (.type (.function s)) u
  | slot {t : TypeExpr} {b : Bool} {u v : List Token} (ht : Spelled (.type t) u)
    (hb : Spelled (.mark .question b) v) : Spelled (.slot (.mk t b)) (u ++ v)
  | restSlot {d : Token} {t : TypeExpr} {b : Bool} {u : List Token} {q : Position}
    (hd : d.kind = .symbol .spread) (ht : Spelled (.type (.array q t b)) u) :
    Spelled (.restSlot t) (d :: u)
  -- Signatures
  | typeParameter {t : Token} {bound default : Option TypeExpr} {u v : List Token} {q : Position}
    (ht : t.kind = .identifier)
    (hb : Spelled (.clause (.keyword .extends) (bound.map .type)) u)
    (hd : Spelled (.clause (.symbol .assign) (default.map .type)) v) :
    Spelled (.typeParameter (.mk q t.text bound default)) (t :: u ++ v)
  | parameter {t : Token} {b : Bool} {type : Option TypeExpr} {initial : Option Expr}
    {u v w : List Token} {q : Position}
    (ht : t.kind = .identifier ∨ t.kind = .keyword .this)
    (hb : Spelled (.mark .question b) u)
    (htype : Spelled (.clause (.symbol .colon) (type.map .type)) v)
    (hi : Spelled (.clause (.symbol .assign) (initial.map .expression)) w) :
    Spelled (.parameter (.mk q t.text type b initial)) (t :: u ++ v ++ w)
  | restParameter {d : Token} {p : Param} {u : List Token} (hd : d.kind = .symbol .spread)
    (hp : Spelled (.parameter p) u) : Spelled (.restParameter p) (d :: u)
  | signature {s : Symbol} {ts : List TypeParam} {ps : List Param} {rest : Option Param}
    {result : Option TypeExpr} {o c : Token} {more : Bool} {t u v : List Token} {q : Position}
    (hts : Spelled (.angled (ts.map .typeParameter)) t)
    (ho : o.kind = .symbol .leftParen)
    (hps : Spelled (.ended [.comma] more (ps.map .parameter ++ rest.toList.map .restParameter)) u)
    (hc : c.kind = .symbol .rightParen)
    (hresult : Spelled (.clause (.symbol s) (result.map .type)) v)
    (harrow : s = .arrow → result ≠ none) :
    Spelled (.signature s (.mk q ts (splitReceiver ps).2 rest (splitReceiver ps).1 result))
      (t ++ o :: u ++ c :: v)
  -- Members
  | head {t : Token} {b : Bool} {u : List Token} {q : Position} (ht : isPropertyName t = true)
    (hb : Spelled (.mark .question b) u) : Spelled (.head ⟨q, t.text, b, false⟩) (t :: u)
  | head_readonly {k t : Token} {b : Bool} {u : List Token} {q : Position}
    (hk : k.kind = .keyword .readonly) (ht : isPropertyName t = true)
    (hb : Spelled (.mark .question b) u) : Spelled (.head ⟨q, t.text, b, true⟩) (k :: t :: u)
  | member_call {s : Signature} {u : List Token} (hs : Spelled (.signature .colon s) u) :
    Spelled (.member (.call s)) u
  | member_index {o n d k c e : Token} {key : IndexKey} {t : TypeExpr} {u : List Token}
    {q : Position} (ho : o.kind = .symbol .leftBracket) (hn : n.kind = .identifier)
    (hd : d.kind = .symbol .colon) (hk : k.kind = .identifier)
    (hkey : k.text = "string" ∧ key = .string ∨ k.text = "number" ∧ key = .number)
    (hc : c.kind = .symbol .rightBracket) (he : e.kind = .symbol .colon)
    (ht : Spelled (.type t) u) :
    Spelled (.member (.index (.mk q key t))) (o :: n :: d :: k :: c :: e :: u)
  | member_property {h : PropertyHead} {t : TypeExpr} {d : Token} {u v : List Token}
    (hh : Spelled (.head h) u) (hd : d.kind = .symbol .colon) (ht : Spelled (.type t) v) :
    Spelled (.member (.property (.mk h.position h.name t h.optional h.readonly))) (u ++ d :: v)
  | member_method {h : PropertyHead} {s : Signature} {u v : List Token}
    (hh : Spelled (.head h) u) (hs : Spelled (.signature .colon s) v) :
    Spelled (.member (.property (.mk h.position h.name (.function s) h.optional h.readonly)))
      (u ++ v)
  | field {h : PropertyHead} {type : Option TypeExpr} {value : Option Expr} {u v w : List Token}
    (hh : Spelled (.head h) u)
    (ht : Spelled (.clause (.symbol .colon) (type.map .type)) v)
    (hv : Spelled (.clause (.symbol .assign) (value.map .expression)) w) :
    Spelled (.field ⟨h.position, h.name, type, h.optional, h.readonly, value⟩) (u ++ v ++ w)
  | enumMember {t : Token} {value : Option Expr} {u : List Token} {q : Position}
    (ht : isPropertyName t = true)
    (hv : Spelled (.clause (.symbol .assign) (value.map .expression)) u) :
    Spelled (.enumMember ⟨q, t.text, value⟩) (t :: u)
  -- Operands
  | identifier {t : Token} {s : Site} (ht : t.kind = .identifier) :
    Spelled (.expression (.identifier s t.text)) [t]
  | number {t : Token} {s : Site} {v : Binary64} (ht : t.kind = .number)
    (hv : Decimal.read? t.text = .ok v) : Spelled (.expression (.number s v)) [t]
  | bigint {t : Token} {s : Site} (ht : t.kind = .bigint) :
    Spelled (.expression (.bigint s t.text)) [t]
  | string {t : Token} {s : Site} (ht : t.kind = .string) :
    Spelled (.expression (.string s t.text)) [t]
  | true {t : Token} {s : Site} (ht : t.kind = .keyword .true) :
    Spelled (.expression (.boolean s true)) [t]
  | false {t : Token} {s : Site} (ht : t.kind = .keyword .false) :
    Spelled (.expression (.boolean s false)) [t]
  | null {t : Token} {s : Site} (ht : t.kind = .keyword .null) : Spelled (.expression (.null s)) [t]
  | undefined {t : Token} {s : Site} (ht : t.kind = .keyword .undefined) :
    Spelled (.expression (.undefined s)) [t]
  | this {t : Token} {s : Site} (ht : t.kind = .keyword .this) : Spelled (.expression (.this s)) [t]
  | not {t : Token} {e : Expr} {u : List Token} {s : Site} (ht : t.kind = .symbol .bang)
    (he : Spelled (.expression e) u) : Spelled (.expression (.unary s .not e)) (t :: u)
  | negate {t : Token} {e : Expr} {u : List Token} {s : Site} (ht : t.kind = .symbol .minus)
    (he : Spelled (.expression e) u) : Spelled (.expression (.unary s .negate e)) (t :: u)
  | typeof {t : Token} {e : Expr} {u : List Token} {s : Site} (ht : t.kind = .keyword .typeof)
    (he : Spelled (.expression e) u) : Spelled (.expression (.typeof s e)) (t :: u)
  | grouped {o c : Token} {e : Expr} {u : List Token} (ho : o.kind = .symbol .leftParen)
    (he : Spelled (.expression e) u) (hc : c.kind = .symbol .rightParen) :
    Spelled (.expression e) (o :: u ++ [c])
  | upTo_none {close : Symbol} {c : Token} (hc : c.kind = .symbol close) :
    Spelled (.upTo close []) [c]
  | upTo {close : Symbol} {c : Token} {es : List Expr} {u : List Token}
    (hes : Spelled (.separated .comma (es.map .expression)) u) (hc : c.kind = .symbol close) :
    Spelled (.upTo close es) (u ++ [c])
  | upTo_trailing {close : Symbol} {m c : Token} {es : List Expr} {u : List Token}
    (hes : Spelled (.separated .comma (es.map .expression)) u) (hm : m.kind = .symbol .comma)
    (hc : c.kind = .symbol close) : Spelled (.upTo close es) (u ++ [m, c])
  | arguments_none : Spelled (.arguments []) []
  | arguments_some {o : Token} {es : List Expr} {u : List Token} (ho : o.kind = .symbol .leftParen)
    (hes : Spelled (.upTo .rightParen es) u) : Spelled (.arguments es) (o :: u)
  | array {o : Token} {es : List Expr} {u : List Token} {s : Site}
    (ho : o.kind = .symbol .leftBracket) (hes : Spelled (.upTo .rightBracket es) u) :
    Spelled (.expression (.array s es)) (o :: u)
  | entry {t d : Token} {e : Expr} {u : List Token} {q : Position} (ht : isPropertyName t = true)
    (hd : d.kind = .symbol .colon) (he : Spelled (.expression e) u) :
    Spelled (.entry (.mk q t.text e)) (t :: d :: u)
  | entry_short {t : Token} {q : Position} {s : Site} (ht : t.kind = .identifier) :
    Spelled (.entry (.mk q t.text (.identifier s t.text))) [t]
  | object {o c : Token} {ps : List Property} {more : Bool} {u : List Token} {s : Site}
    (ho : o.kind = .symbol .leftBrace) (hps : Spelled (.ended [.comma] more (ps.map .entry)) u)
    (hc : c.kind = .symbol .rightBrace) : Spelled (.expression (.object s ps)) (o :: u ++ [c])
  | construct {n : Token} {e : Expr} {ts : List TypeExpr} {es : List Expr} {t u v : List Token}
    {s : Site} (hn : n.kind = .keyword .new) (he : Spelled (.expression e) t)
    (hts : Spelled (.angled (ts.map .type)) u)
    (hes : Spelled (.arguments es) v) :
    Spelled (.expression (.construct s e ts es)) (n :: t ++ u ++ v)
  -- Arrow functions
  | arrow {ts : List TypeParam} {ps : List Param} {rest : Option Param} {result : Option TypeExpr}
    {body : Expr} {o c a : Token} {more : Bool} {t u v w : List Token} {s : Site} {q : Position}
    (hts : Spelled (.angled (ts.map .typeParameter)) t)
    (ho : o.kind = .symbol .leftParen)
    (hps : Spelled (.ended [.comma] more (ps.map .parameter ++ rest.toList.map .restParameter)) u)
    (hc : c.kind = .symbol .rightParen)
    (hresult : Spelled (.clause (.symbol .colon) (result.map .type)) v)
    (ha : a.kind = .symbol .arrow) (hbody : Spelled (.expression body) w) :
    Spelled (.expression (.function s (.mk q ts ps rest none result) body))
      (t ++ o :: u ++ c :: v ++ a :: w)
  | arrow_bare {n a : Token} {body : Expr} {w : List Token} {s : Site} {q q' : Position}
    (hn : n.kind = .identifier) (ha : a.kind = .symbol .arrow)
    (hbody : Spelled (.expression body) w) :
    Spelled (.expression (.function s (.mk q []
      [.mk q' n.text none false none] none none none) body))
      (n :: a :: w)
  -- Infix forms
  | binary {l r : Expr} {x : Symbol} {op : BinaryOp} {c : Token} {u v : List Token} {s : Site}
    (hl : Spelled (.expression l) u) (hc : c.kind = .symbol x) (hop : binaryOp? x = some op)
    (hr : Spelled (.expression r) v) : Spelled (.expression (.binary s l op r)) (u ++ c :: v)
  | assign {l r : Expr} {c : Token} {u v : List Token} {s : Site}
    (hl : Spelled (.expression l) u) (hc : c.kind = .symbol .assign)
    (hr : Spelled (.expression r) v) : Spelled (.expression (.assign s l r)) (u ++ c :: v)
  | assertion {e : Expr} {t : TypeExpr} {c : Token} {u v : List Token} {s : Site}
    (he : Spelled (.expression e) u) (hc : c.kind = .keyword .as) (ht : Spelled (.type t) v) :
    Spelled (.expression (.assertion s e t)) (u ++ c :: v)
  | call {e : Expr} {ts : List TypeExpr} {es : List Expr} {o : Token} {t u v : List Token}
    {s : Site} (he : Spelled (.expression e) t)
    (hts : Spelled (.angled (ts.map .type)) u)
    (ho : o.kind = .symbol .leftParen) (hes : Spelled (.upTo .rightParen es) v) :
    Spelled (.expression (.call s e ts es)) (t ++ u ++ o :: v)
  | access {e : Expr} {d n : Token} {b : Bool} {u : List Token} {s : Site}
    (he : Spelled (.expression e) u)
    (hd : d.kind = .symbol (if b then .optionalChain else .dot))
    (hn : n.kind = .identifier ∨ ∃ k, n.kind = .keyword k) :
    Spelled (.expression (.member s e n.text b)) (u ++ [d, n])
  | index {e k : Expr} {o c : Token} {u v : List Token} {s : Site}
    (he : Spelled (.expression e) u) (ho : o.kind = .symbol .leftBracket)
    (hk : Spelled (.expression k) v) (hc : c.kind = .symbol .rightBracket) :
    Spelled (.expression (.index s e k)) (u ++ o :: v ++ [c])

end Snippet

end ShapeCheck
