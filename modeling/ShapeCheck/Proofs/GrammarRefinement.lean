import Mathlib.Tactic.GCongr
import ShapeCheck.Proofs.Readers

/-!
# Grammars with more steps

A rule that is given a grammar which runs out of steps less often reads the same. It gives whatever
it gave before, because it uses the grammar only by running its two rules.

* `Refines` compares two rules: the second gives what the first one gives. Its lemmas follow the way
  in which rules are put together, and are tagged `gcongr`, as is the lemma `refines_…` of each rule
  of the grammar.
* `Grammar.Refines` compares two grammars in the same way.
-/

namespace ShapeCheck.Snippet

variable {α β σ : Type}

/-- The second rule gives what the first one gives, and may go on where the first one runs out of
steps. -/
def Refines (p q : Parse α) : Prop :=
  ∀ r out, p.run r = some out → q.run r = some out

/-- The rules of the second grammar refine those of the first. -/
structure Grammar.Refines (g g' : Grammar) : Prop where
  expression : ∀ least, Snippet.Refines (g.expression least) (g'.expression least)
  type : Snippet.Refines g.type g'.type

section Steps

variable {p q : Parse α}

@[refl]
theorem Refines.refl (p : Parse α) : Refines p p := fun _ _ h => h

theorem Refines.trans {q' : Parse α} (h : Refines p q) (h' : Refines q q') : Refines p q' :=
  fun r out hr => h' r out (h r out hr)

theorem refines_outOfSteps : Refines outOfSteps p := fun _ _ h => nomatch h

/-- A failure of the first rule is kept, and a value of it is handed on. -/
@[gcongr]
theorem Refines.bind {f f' : α → Parse β} (h : Refines p q) (hf : ∀ a, Refines (f a) (f' a)) :
    Refines (p >>= f) (q >>= f') := by
  intro r out hr
  rw [run_bind] at hr ⊢
  split at hr
  case h_1 a r' hp =>
    rw [h _ _ hp]
    exact hf a r' out hr
  case h_2 r' hp =>
    rw [h _ _ hp]
    exact hr
  case h_3 => exact nomatch hr

/-- An attempt changes only what a rule gives back. -/
@[gcongr]
theorem Refines.attempt (h : Refines p q) : Refines (attempt p) (attempt q) := by
  intro r out hr
  rw [run_attempt] at hr ⊢
  obtain ⟨out', hp, rfl⟩ := Option.map_eq_some_iff.mp hr
  rw [h _ _ hp]
  rfl

/-- By induction on the rounds that are left. -/
theorem Refines.rounds {step step' : σ → Parse (σ ⊕ α)} (h : ∀ s, Refines (step s) (step' s)) :
    ∀ n s, Refines (rounds step n s) (rounds step' n s) := by
  intro n
  induction n with
  | zero => exact fun s => .refl _
  | succ n ih =>
    intro s
    refine (h s).bind fun x => ?_
    cases x with
    | inl s' => exact ih s'
    | inr a => exact .refl _

/-- How many rounds a loop may take depends on the tokens only. -/
@[gcongr]
theorem Refines.loop {step step' : σ → Parse (σ ⊕ α)} (start : σ)
    (h : ∀ s, Refines (step s) (step' s)) : Refines (loop start step) (loop start step') :=
  (Refines.refl _).bind fun r => .rounds h (r.tokens.size + 1) start

@[gcongr]
theorem Refines.ite {c : Prop} [Decidable c] {p' q' : Parse α} (h : Refines p q)
    (h' : Refines p' q') : Refines (if c then p else p') (if c then q else q') := by
  split
  · exact h
  · exact h'

end Steps

attribute [gcongr] Grammar.Refines.type Grammar.Refines.expression

variable {g g' : Grammar}

section

variable (h : g.Refines g')
include h

theorem Grammar.Refines.trans {g1 : Grammar} (h' : g'.Refines g1) : g.Refines g1 :=
  ⟨fun least => (h.expression least).trans (h'.expression least), h.type.trans h'.type⟩

/-! ## Rules for types -/

@[gcongr]
theorem refines_typeArguments : Refines (typeArguments g) (typeArguments g') := by
  unfold typeArguments
  dsimp only
  gcongr

@[gcongr]
theorem refines_restElement : Refines (restElement g) (restElement g') := by
  unfold restElement
  gcongr

@[gcongr]
theorem refines_tupleSlot : Refines (tupleSlot g) (tupleSlot g') := by
  unfold tupleSlot
  gcongr

@[gcongr]
theorem refines_tupleType : Refines (tupleType g) (tupleType g') := by
  unfold tupleType
  dsimp only
  gcongr

@[gcongr]
theorem refines_typeParameter : Refines (typeParameter g) (typeParameter g') := by
  unfold typeParameter
  dsimp only
  gcongr

@[gcongr]
theorem refines_typeParameters : Refines (typeParameters g) (typeParameters g') := by
  unfold typeParameters
  dsimp only
  gcongr

@[gcongr]
theorem refines_parameter (spread : Bool) : Refines (parameter g spread) (parameter g' spread) := by
  unfold parameter
  dsimp only
  gcongr

@[gcongr]
theorem refines_parameterList : Refines (parameterList g) (parameterList g') := by
  unfold parameterList
  dsimp only
  gcongr

@[gcongr]
theorem refines_signature (separator : Symbol) :
    Refines (signature g separator) (signature g' separator) := by
  unfold signature
  dsimp only
  gcongr

@[gcongr]
theorem refines_functionType : Refines (functionType g) (functionType g') := by
  unfold functionType
  dsimp only
  gcongr

@[gcongr]
theorem refines_indexSignature (taken : Bool) :
    Refines (indexSignature g taken) (indexSignature g' taken) := by
  unfold indexSignature
  dsimp only
  gcongr
  split <;> gcongr

@[gcongr]
theorem refines_objectMember (members : MemberList) :
    Refines (objectMember g members) (objectMember g' members) := by
  unfold objectMember
  cases members
  dsimp only
  gcongr

@[gcongr]
theorem refines_objectType : Refines (objectType g) (objectType g') := by
  unfold objectType
  dsimp only
  gcongr

/-- One case for each way in which a type starts. -/
@[gcongr]
theorem refines_primaryType : Refines (primaryType g) (primaryType g') := by
  unfold primaryType
  gcongr
  split <;> gcongr

@[gcongr]
theorem refines_arraySuffix : Refines (arraySuffix g) (arraySuffix g') := by
  unfold arraySuffix
  gcongr

/-- By induction on the times that `readonly` may still stand in front. -/
@[gcongr]
theorem refines_postfixType (n : Nat) : Refines (postfixType g n) (postfixType g' n) := by
  induction n with
  | zero => rfl
  | succ n ih =>
    unfold postfixType
    gcongr

end

@[gcongr]
theorem Refines.separated {p q : Parse TypeExpr} (h : Refines p q) (s : Symbol) :
    Refines (separated s p) (separated s q) := by
  unfold Snippet.separated
  gcongr

section

variable (h : g.Refines g')
include h

@[gcongr]
theorem refines_intersectionType : Refines (intersectionType g) (intersectionType g') := by
  unfold intersectionType
  dsimp only
  gcongr

/-- So a grammar may read types with its own rule, one step deeper. -/
@[gcongr]
theorem refines_typeRule : Refines (typeRule g) (typeRule g') := by
  unfold typeRule
  dsimp only
  gcongr

/-! ## Rules for expressions -/

@[gcongr]
theorem refines_arrowBody (site : Site) (ts : List TypeParam) (ps : List Param)
    (rest : Option Param) (result : Option TypeExpr) :
    Refines (arrowBody g site ts ps rest result) (arrowBody g' site ts ps rest result) := by
  unfold arrowBody
  dsimp only
  gcongr

@[gcongr]
theorem refines_arrowTail (site : Site) (ts : List TypeParam) (ps : List Param)
    (rest : Option Param) :
    Refines (arrowTail g site ts ps rest) (arrowTail g' site ts ps rest) := by
  unfold arrowTail
  dsimp only
  gcongr

@[gcongr]
theorem refines_arrowFunction (site : Site) (ts : List TypeParam) :
    Refines (arrowFunction g site ts) (arrowFunction g' site ts) := by
  unfold arrowFunction
  gcongr
  dsimp only
  gcongr

@[gcongr]
theorem refines_expressionList (close : Symbol) :
    Refines (expressionList g close) (expressionList g' close) := by
  unfold expressionList
  gcongr

@[gcongr]
theorem refines_property : Refines (property g) (property g') := by
  unfold property
  dsimp only
  gcongr

@[gcongr]
theorem refines_objectLiteral : Refines (objectLiteral g) (objectLiteral g') := by
  unfold objectLiteral
  dsimp only
  gcongr

@[gcongr]
theorem refines_construction : Refines (construction g) (construction g') := by
  unfold construction
  dsimp only
  gcongr

@[gcongr]
theorem refines_grouped : Refines (grouped g) (grouped g') := by
  unfold grouped
  gcongr

@[gcongr]
theorem refines_genericArrow : Refines (genericArrow g) (genericArrow g') := by
  unfold genericArrow
  dsimp only
  gcongr

@[gcongr]
theorem refines_nameOrArrow : Refines (nameOrArrow g) (nameOrArrow g') := by
  unfold nameOrArrow
  gcongr

/-- One case for each way in which an operand starts. -/
@[gcongr]
theorem refines_operand : Refines (operand g) (operand g') := by
  unfold operand
  gcongr
  split <;> gcongr

/-- Both take type arguments and a call, or go back to the symbol before them. -/
@[gcongr]
theorem refines_genericCall (left : Expr) :
    Refines (genericCall? g left) (genericCall? g' left) := by
  unfold genericCall?
  dsimp only
  gcongr
  split <;> gcongr

@[gcongr]
theorem refines_binaryRight (left : Expr) (t : Token) (op : BinaryOp) :
    Refines (binaryRight g left t op) (binaryRight g' left t op) := by
  unfold binaryRight
  gcongr

/-- One link behind an expression: an access, a call or an operator. -/
@[gcongr]
theorem refines_infixStep (left : Expr) : Refines (infixStep g left) (infixStep g' left) := by
  unfold infixStep
  gcongr
  split
  case h_7 =>
    split
    · rfl
    · gcongr
      split <;> gcongr
  all_goals gcongr

/-- The loop over the links behind an operand. -/
@[gcongr]
theorem refines_expressionRule (least : Nat) :
    Refines (expressionRule g least) (expressionRule g' least) := by
  unfold expressionRule
  gcongr

/-! ## Whole snippets -/

@[gcongr]
theorem refines_classField : Refines (classField g) (classField g') := by
  unfold classField
  dsimp only
  gcongr

@[gcongr]
theorem refines_enumMember : Refines (enumMember g) (enumMember g') := by
  unfold enumMember
  dsimp only
  gcongr

end

@[gcongr]
theorem Refines.toEnd {p q : Parse α} (h : Refines p q) : Refines (toEnd p) (toEnd q) := by
  unfold Snippet.toEnd
  gcongr

@[gcongr]
theorem Refines.thenEnd {p q : Parse α} (h : Refines p q) : Refines (thenEnd p) (thenEnd q) := by
  unfold Snippet.thenEnd
  gcongr

end ShapeCheck.Snippet
