/-
  Reckoner.Proofs.Syntax.Unambiguity

  An expression has one tree (`Sentence.unique`).

  The tokens of a phrase are determined by where it begins and by what may follow it: a product is
  not followed by a multiplicative operator, nor a sum by any operator.  For the proof a product is
  taken as its first factor and the operators and factors after it, a sum likewise (`Chain`), so
  that two phrases are compared from left to right.
-/
import Reckoner.Proofs.Syntax.Grammar

namespace Reckoner

/-! ## Chains of operators and operands -/

/-- What goes on after a first operand: operators of one kind, each with an operand.  The trees are
that of what stands before and that of the whole. -/
inductive Chain (operator? : TokenKind → Option Operator) (operand : Phrase) :
    Tree → List Token → Tree → Prop
  | nil {tree : Tree} : Chain operator? operand tree [] tree
  | cons {left right tree : Tree} {token : Token} {operator : Operator} {tokens more : List Token}
      (hoperator : operator? token.kind = some operator) (hright : Derives operand tokens right)
      (hmore : Chain operator? operand (.operation operator left right) more tree) :
      Chain operator? operand left (token :: (tokens ++ more)) tree

variable {operator? : TokenKind → Option Operator} {operand : Phrase}

/-- A chain goes on with another operator and operand. -/
theorem Chain.snoc {left tree right : Tree} {token : Token} {operator : Operator}
    {tokens more : List Token} (h : Chain operator? operand left more tree)
    (hoperator : operator? token.kind = some operator) (hright : Derives operand tokens right) :
    Chain operator? operand left (more ++ token :: tokens) (.operation operator tree right) := by
  induction h with
  | nil => simpa using Chain.cons hoperator hright .nil
  | cons hfirst hoperand _ ih => simpa using Chain.cons hfirst hoperand ih

/-- A product is a factor and a chain of factors. -/
theorem Derives.product_chain {tokens : List Token} {tree : Tree}
    (h : Derives .product tokens tree) :
    ∃ factor first more, tokens = factor ++ more ∧ Derives .factor factor first ∧
      Chain TokenKind.multiplicative? .factor first more tree := by
  generalize hphrase : Phrase.product = phrase at h
  induction h with
  | productOfFactor hfactor => exact ⟨_, _, [], (List.append_nil _).symm, hfactor, .nil⟩
  | product _ hoperator hright ih _ =>
      obtain ⟨factor, first, more, rfl, hfactor, hchain⟩ := ih hphrase
      exact ⟨factor, first, _, List.append_assoc .., hfactor, hchain.snoc hoperator hright⟩
  | number | variableName | parenthesis | application | negation => cases hphrase
  | sumOfProduct | sum => cases hphrase

/-- A sum is a product and a chain of products. -/
theorem Derives.sum_chain {tokens : List Token} {tree : Tree} (h : Derives .sum tokens tree) :
    ∃ product first more, tokens = product ++ more ∧ Derives .product product first ∧
      Chain TokenKind.additive? .product first more tree := by
  generalize hphrase : Phrase.sum = phrase at h
  induction h with
  | sumOfProduct hproduct => exact ⟨_, _, [], (List.append_nil _).symm, hproduct, .nil⟩
  | sum _ hoperator hright ih _ =>
      obtain ⟨product, first, more, rfl, hproduct, hchain⟩ := ih hphrase
      exact ⟨product, first, _, List.append_assoc .., hproduct, hchain.snoc hoperator hright⟩
  | number | variableName | parenthesis | application | negation => cases hphrase
  | productOfFactor | product => cases hphrase

/-! ## What may follow a phrase -/

/-- The tokens do not begin with an operator of the kind. -/
def Stops (operator? : TokenKind → Option Operator) (tokens : List Token) : Prop :=
  ∀ token ∈ tokens.head?, operator? token.kind = none

theorem stops_cons {token : Token} {rest : List Token} (h : operator? token.kind = none) :
    Stops operator? (token :: rest) := by
  intro token' htoken'
  obtain rfl : token = token' := by simpa using htoken'
  exact h

/-- The tokens may stand after a phrase without belonging to it. -/
def Follows : Phrase → List Token → Prop
  | .factor, _ => True
  | .product, tokens => Stops TokenKind.multiplicative? tokens
  | .sum, tokens => Stops TokenKind.multiplicative? tokens ∧ Stops TokenKind.additive? tokens

theorem follows_sum_of_rightParen {token : Token} {rest : List Token}
    (h : token.kind = .rightParen) : Follows .sum (token :: rest) :=
  ⟨stops_cons (by rw [h]; rfl), stops_cons (by rw [h]; rfl)⟩

/-- No phrase but this one begins the same way, if what comes after may follow. -/
def Determined (phrase : Phrase) (tokens : List Token) (tree : Tree) : Prop :=
  ∀ tokens' tree' rest rest', Derives phrase tokens' tree' → tokens ++ rest = tokens' ++ rest' →
    Follows phrase rest → Follows phrase rest' → tokens = tokens' ∧ tree = tree'

/-- Two chains that go on from the same tree are the same where their operands are determined. -/
theorem Chain.determined {follows : List Token → Prop} {bound : Nat}
    (hoperand : ∀ tokens tree, tokens.length ≤ bound → Derives operand tokens tree →
      Determined operand tokens tree)
    (hstops : ∀ rest, follows rest → Stops operator? rest)
    (hfollows : ∀ left more tree rest, Chain operator? operand left more tree → follows rest →
      Follows operand (more ++ rest))
    {left tree : Tree} {more : List Token} (h : Chain operator? operand left more tree)
    (hbound : more.length ≤ bound) :
    ∀ more' tree' rest rest', Chain operator? operand left more' tree' →
      more ++ rest = more' ++ rest' → follows rest → follows rest' →
      more = more' ∧ tree = tree' := by
  induction h with
  | nil =>
      intro more' tree' rest rest' h' heq hrest hrest'
      cases h' with
      | nil => exact ⟨rfl, rfl⟩
      | @cons _ right _ token operator tokens more hoperator hright hmore =>
          -- The operator comes after the first chain, where none may follow.
          rw [List.nil_append] at heq
          have hnone := hstops rest hrest token (by rw [heq]; rfl)
          rw [hnone] at hoperator
          cases hoperator
  | @cons left right tree token operator tokens more hoperator hright hmore ih =>
      intro more' tree' rest rest' h' heq hrest hrest'
      cases h' with
      | nil =>
          rw [List.nil_append] at heq
          have hnone := hstops rest' hrest' token (by rw [← heq]; rfl)
          rw [hnone] at hoperator
          cases hoperator
      | @cons _ right' _ token' operator' tokens' more' hoperator' hright' hmore' =>
          -- The operators are one token; then the operands are the same, and so is the rest.
          simp only [List.cons_append, List.append_assoc, List.cons.injEq] at heq
          obtain ⟨rfl, heq⟩ := heq
          rw [hoperator] at hoperator'
          obtain rfl := Option.some.inj hoperator'
          rw [List.length_cons, List.length_append] at hbound
          obtain ⟨rfl, rfl⟩ := hoperand tokens right (by omega) hright _ _ _ _ hright' heq
            (hfollows _ _ _ _ hmore hrest) (hfollows _ _ _ _ hmore' hrest')
          have heq' := List.append_cancel_left heq
          obtain ⟨rfl, rfl⟩ := ih (by omega) _ _ _ _ hmore' heq' hrest hrest'
          exact ⟨rfl, rfl⟩

/-- A product followed by an additive operator has ended. -/
theorem Chain.follows_product {left tree : Tree} {more rest : List Token}
    (h : Chain TokenKind.additive? .product left more tree) (hrest : Follows .sum rest) :
    Follows .product (more ++ rest) := by
  cases h with
  | nil => exact hrest.1
  | @cons _ _ _ token operator tokens more hoperator =>
      refine stops_cons ?_
      cases hkind : token.kind <;> simp [hkind, TokenKind.additive?] at hoperator <;> rfl

/-! ## Phrases are determined -/

/-- A factor is determined if the shorter sums are. -/
theorem Derives.factor_determined {tokens : List Token} {tree : Tree}
    (h : Derives .factor tokens tree)
    (hsum : ∀ tokens' tree', tokens'.length < tokens.length → Derives .sum tokens' tree' →
      Determined .sum tokens' tree') : Determined .factor tokens tree := by
  generalize hphrase : Phrase.factor = phrase at h
  induction h with
  | number hkind | variableName hkind =>
      intro tokens' tree' rest rest' h' heq _ _
      cases h' <;> simp_all
  | @parenthesis opening closing tokens inner hopening hinner hclosing _ =>
      intro tokens' tree' rest rest' h' heq _ _
      cases h' with
      | @parenthesis opening' closing' tokens' inner' _ hinner' hclosing' =>
          simp only [List.cons_append, List.append_assoc, List.cons.injEq, List.nil_append] at heq
          obtain ⟨rfl, heq⟩ := heq
          -- Both sums are followed by a closing parenthesis.
          have hshorter : tokens.length < (opening :: (tokens ++ [closing])).length := by
            rw [List.length_cons, List.length_append]
            omega
          obtain ⟨rfl, rfl⟩ := hsum tokens inner hshorter hinner _ _ _ _ hinner' heq
            (follows_sum_of_rightParen hclosing) (follows_sum_of_rightParen hclosing')
          obtain ⟨rfl, -⟩ := List.cons.inj (List.append_cancel_left heq)
          exact ⟨rfl, rfl⟩
      | number | variableName | application | negation => simp_all
  | @application function tokens argument hfunction hargument ih =>
      intro tokens' tree' rest rest' h' heq _ _
      cases h' with
      | @application function' tokens' argument' _ hargument' =>
          simp only [List.cons_append, List.cons.injEq] at heq
          obtain ⟨rfl, heq⟩ := heq
          obtain ⟨rfl, rfl⟩ := ih (fun tokens' tree' hlt => hsum tokens' tree'
            (Nat.lt_succ_of_lt hlt)) rfl _ _ _ _ hargument' heq trivial trivial
          exact ⟨rfl, rfl⟩
      | number | variableName | parenthesis | negation => simp_all
  | @negation sign tokens operand hsign hoperand ih =>
      intro tokens' tree' rest rest' h' heq _ _
      cases h' with
      | @negation sign' tokens' operand' _ hoperand' =>
          simp only [List.cons_append, List.cons.injEq] at heq
          obtain ⟨rfl, heq⟩ := heq
          obtain ⟨rfl, rfl⟩ := ih (fun tokens' tree' hlt => hsum tokens' tree'
            (Nat.lt_succ_of_lt hlt)) rfl _ _ _ _ hoperand' heq trivial trivial
          exact ⟨rfl, rfl⟩
      | number | variableName | parenthesis | application => simp_all
  | productOfFactor | product => cases hphrase
  | sumOfProduct | sum => cases hphrase

/-- A product is determined if the factors that are no longer are. -/
theorem Derives.product_determined {tokens : List Token} {tree : Tree}
    (h : Derives .product tokens tree)
    (hfactor : ∀ tokens' tree', tokens'.length ≤ tokens.length → Derives .factor tokens' tree' →
      Determined .factor tokens' tree') : Determined .product tokens tree := by
  intro tokens' tree' rest rest' h' heq hrest hrest'
  obtain ⟨factor, first, more, rfl, hfirst, hmore⟩ := h.product_chain
  obtain ⟨factor', first', more', rfl, hfirst', hmore'⟩ := h'.product_chain
  rw [List.length_append] at hfactor
  rw [List.append_assoc, List.append_assoc] at heq
  obtain ⟨rfl, rfl⟩ := hfactor factor first (by omega) hfirst _ _ _ _ hfirst' heq trivial trivial
  obtain ⟨rfl, rfl⟩ := Chain.determined hfactor (fun _ h => h) (fun _ _ _ _ _ _ => trivial) hmore
    (by omega) _ _ _ _ hmore' (List.append_cancel_left heq) hrest hrest'
  exact ⟨rfl, rfl⟩

/-- A sum is determined if the products that are no longer are. -/
theorem Derives.sum_determined {tokens : List Token} {tree : Tree}
    (h : Derives .sum tokens tree)
    (hproduct : ∀ tokens' tree', tokens'.length ≤ tokens.length → Derives .product tokens' tree' →
      Determined .product tokens' tree') : Determined .sum tokens tree := by
  intro tokens' tree' rest rest' h' heq hrest hrest'
  obtain ⟨product, first, more, rfl, hfirst, hmore⟩ := h.sum_chain
  obtain ⟨product', first', more', rfl, hfirst', hmore'⟩ := h'.sum_chain
  rw [List.length_append] at hproduct
  rw [List.append_assoc, List.append_assoc] at heq
  obtain ⟨rfl, rfl⟩ := hproduct product first (by omega) hfirst _ _ _ _ hfirst' heq
    (hmore.follows_product hrest) (hmore'.follows_product hrest')
  obtain ⟨rfl, rfl⟩ := Chain.determined hproduct (fun _ h => h.2)
    (fun _ _ _ _ hchain hrest => hchain.follows_product hrest) hmore (by omega) _ _ _ _ hmore'
    (List.append_cancel_left heq) hrest hrest'
  exact ⟨rfl, rfl⟩

/-- Every sum is determined. -/
theorem Derives.determined {tokens : List Token} {tree : Tree} (h : Derives .sum tokens tree) :
    Determined .sum tokens tree := by
  induction hlength : tokens.length using Nat.strongRecOn generalizing tokens tree with
  | ind length ih =>
      -- Products and factors are no longer than the sum, and sums in parentheses are shorter.
      refine h.sum_determined fun product productTree hproduct hderives => ?_
      refine hderives.product_determined fun factor factorTree hfactor hderives' => ?_
      refine hderives'.factor_determined fun sum sumTree hsum hderives'' => ?_
      exact ih sum.length (by omega) hderives'' rfl

/-- An expression has one tree. -/
theorem Sentence.unique {tokens : List Token} {tree tree' : Option Tree}
    (h : Sentence tokens tree) (h' : Sentence tokens tree') : tree = tree' := by
  have hend : Follows .sum [] := ⟨fun _ h => (by cases h), fun _ h => (by cases h)⟩
  cases h with
  | empty =>
      cases h' with
      | empty => rfl
      | sum hsum' => exact absurd rfl hsum'.ne_nil
  | sum hsum =>
      cases h' with
      | empty => exact absurd rfl hsum.ne_nil
      | sum hsum' =>
          obtain ⟨-, rfl⟩ := hsum.determined _ _ [] [] hsum' rfl hend hend
          rfl

end Reckoner
