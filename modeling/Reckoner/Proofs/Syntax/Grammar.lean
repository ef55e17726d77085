/-
  Reckoner.Proofs.Syntax.Grammar

  The grammar of expressions, as a relation between tokens and trees, and the value of a tree.

  A sum is a product, or a sum, an additive operator and a product; a product is a factor, or a
  product, a multiplicative operator and a factor.  So products bind tighter than sums and both
  associate to the left.  A sign and a function take exactly one factor.

  The grammar says nothing about how tokens are read.  `Reckoner.Proofs.Syntax.Programs` relates it
  to the programs that expressions are turned into.
-/
import Reckoner.Program

namespace Reckoner

/-- The operator of a product that a token of the kind stands for. -/
def TokenKind.multiplicative? : TokenKind → Option Operator
  | .star => some .multiply
  | .slash => some .divide
  | _ => none

/-- The operator of a sum that a token of the kind stands for. -/
def TokenKind.additive? : TokenKind → Option Operator
  | .plus => some .add
  | .minus => some .subtract
  | _ => none

/-! ## Trees -/

/-- The tree of an expression.  Parentheses stay in it, since they count as open factors. -/
inductive Tree
  | number (text : String)
  | variableName (name : String)
  | parenthesis (inner : Tree)
  | application (function : String) (argument : Tree)
  | negation (operand : Tree)
  | operation (operator : Operator) (left right : Tree)
  deriving DecidableEq, Repr

/-- What the leaves and the functions of a tree stand for. -/
structure Interpretation where
  number : String → Float
  variableName : String → Float
  function : String → Float → Float

namespace Tree

/-- The value of a tree. -/
def value (meaning : Interpretation) : Tree → Float
  | .number text => meaning.number text
  | .variableName name => meaning.variableName name
  | .parenthesis inner => inner.value meaning
  | .application function argument => meaning.function function (argument.value meaning)
  | .negation operand => -operand.value meaning
  | .operation operator left right =>
    operator.apply (left.value meaning) (right.value meaning)

/-- How many factors are open at once at most: at a leaf, the leaf itself and each parenthesis,
sign and function around it. -/
def openFactors : Tree → Nat
  | .number _ => 1
  | .variableName _ => 1
  | .parenthesis inner => inner.openFactors + 1
  | .application _ argument => argument.openFactors + 1
  | .negation operand => operand.openFactors + 1
  | .operation _ left right => max left.openFactors right.openFactors

end Tree

/-! ## The grammar -/

/-- The phrases of the grammar. -/
inductive Phrase
  | sum
  | product
  | factor
  deriving DecidableEq, Repr

/-- The tokens are a phrase, and this is its tree. -/
inductive Derives : Phrase → List Token → Tree → Prop
  | number {token : Token} (hkind : token.kind = .number) :
      Derives .factor [token] (.number token.text)
  | variableName {token : Token} (hkind : token.kind = .variableName) :
      Derives .factor [token] (.variableName token.text)
  | parenthesis {opening closing : Token} {tokens : List Token} {inner : Tree}
      (hopening : opening.kind = .leftParen) (hinner : Derives .sum tokens inner)
      (hclosing : closing.kind = .rightParen) :
      Derives .factor (opening :: (tokens ++ [closing])) (.parenthesis inner)
  | application {function : Token} {tokens : List Token} {argument : Tree}
      (hfunction : function.kind = .functionName) (hargument : Derives .factor tokens argument) :
      Derives .factor (function :: tokens) (.application function.text argument)
  | negation {sign : Token} {tokens : List Token} {operand : Tree}
      (hsign : sign.kind = .minus) (hoperand : Derives .factor tokens operand) :
      Derives .factor (sign :: tokens) (.negation operand)
  | productOfFactor {tokens : List Token} {tree : Tree} (hfactor : Derives .factor tokens tree) :
      Derives .product tokens tree
  | product {operator : Operator} {token : Token} {tokens tokens' : List Token}
      {left right : Tree} (hleft : Derives .product tokens left)
      (hoperator : token.kind.multiplicative? = some operator)
      (hright : Derives .factor tokens' right) :
      Derives .product (tokens ++ token :: tokens') (.operation operator left right)
  | sumOfProduct {tokens : List Token} {tree : Tree} (hproduct : Derives .product tokens tree) :
      Derives .sum tokens tree
  | sum {operator : Operator} {token : Token} {tokens tokens' : List Token} {left right : Tree}
      (hleft : Derives .sum tokens left) (hoperator : token.kind.additive? = some operator)
      (hright : Derives .product tokens' right) :
      Derives .sum (tokens ++ token :: tokens') (.operation operator left right)

/-- The tokens are an expression: a sum, or nothing at all, which has no tree. -/
inductive Sentence : List Token → Option Tree → Prop
  | empty : Sentence [] none
  | sum {tokens : List Token} {tree : Tree} (hsum : Derives .sum tokens tree) :
      Sentence tokens (some tree)

namespace Sentence

/-- The value of an expression.  That of the empty one is zero. -/
def value (meaning : Interpretation) : Option Tree → Float
  | none => 0
  | some tree => tree.value meaning

/-- How many factors are open at once at most. -/
def openFactors : Option Tree → Nat
  | none => 0
  | some tree => tree.openFactors

end Sentence

/-! ## Phrases and sequences of factors -/

/-- No phrase is empty. -/
theorem Derives.ne_nil {phrase : Phrase} {tokens : List Token} {tree : Tree}
    (h : Derives phrase tokens tree) : tokens ≠ [] := by
  induction h with
  | number | variableName | parenthesis | application | negation => simp
  | product | sum => simp
  | productOfFactor _ ih => exact ih
  | sumOfProduct _ ih => exact ih

/-- What may follow a factor within a sum: operators of either kind, each with a factor. -/
inductive SumTail : List Token → Prop
  | nil : SumTail []
  | cons {token : Token} {tokens more : List Token} {tree : Tree}
      (hoperator : token.kind.multiplicative?.isSome ∨ token.kind.additive?.isSome)
      (hfactor : Derives .factor tokens tree) (hmore : SumTail more) :
      SumTail (token :: (tokens ++ more))

/-- A product goes on with a tail to make a sum, alone or at the right side of another sum. -/
theorem SumTail.derives_sum {more : List Token} (h : SumTail more) :
    (∀ tokens tree, Derives .product tokens tree → ∃ tree', Derives .sum (tokens ++ more) tree') ∧
    (∀ tokens left token operator tokens' right, Derives .sum tokens left →
      token.kind.additive? = some operator → Derives .product tokens' right →
      ∃ tree', Derives .sum (tokens ++ token :: (tokens' ++ more)) tree') := by
  induction h with
  | nil =>
      refine ⟨?_, ?_⟩
      · intro tokens tree hproduct
        rw [List.append_nil]
        exact ⟨_, .sumOfProduct hproduct⟩
      · intro tokens left token operator tokens' right hleft hoperator hright
        rw [List.append_nil]
        exact ⟨_, .sum hleft hoperator hright⟩
  | @cons next factor more _ hnext hfactor _ ih =>
      obtain ⟨ihProduct, ihSum⟩ := ih
      refine ⟨?_, ?_⟩
      · intro tokens tree hproduct
        rcases hnext with hnext | hnext
        · -- The product goes on.
          obtain ⟨operator, hnext⟩ := Option.isSome_iff_exists.1 hnext
          have hlonger := Derives.product hproduct hnext hfactor
          simpa using ihProduct _ _ hlonger
        · -- The product is complete and becomes the left side of a sum.
          obtain ⟨operator, hnext⟩ := Option.isSome_iff_exists.1 hnext
          exact ihSum _ _ _ _ _ _ (.sumOfProduct hproduct) hnext (.productOfFactor hfactor)
      · intro tokens left token operator tokens' right hleft hoperator hright
        rcases hnext with hnext | hnext
        · obtain ⟨operator', hnext⟩ := Option.isSome_iff_exists.1 hnext
          have hlonger := Derives.product hright hnext hfactor
          simpa using ihSum _ _ _ _ _ _ hleft hoperator hlonger
        · -- The right side is complete and so is the sum, which the operator goes on from.
          obtain ⟨operator', hnext⟩ := Option.isSome_iff_exists.1 hnext
          have hlonger := Derives.sum hleft hoperator hright
          simpa using ihSum _ _ _ _ _ _ hlonger hnext (.productOfFactor hfactor)

end Reckoner
