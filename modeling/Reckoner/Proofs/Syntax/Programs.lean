/-
  Reckoner.Proofs.Syntax.Programs

  The programs of token sequences against the grammar.

  Completeness: the program of a sentence takes the steps of its tree, operands from left to right
  and each operator after them, and no token offends (`ofTokens_of_sentence`).

  Soundness: a sequence whose program has no offending token is a sentence
  (`exists_sentence_of_offending_eq_none`).  Its proof follows the reading of the tokens.  What is
  open when a factor has just ended says what the tokens after it must be (`Closes`): the innermost
  parenthesis demands a tail of its sum and its other half, and so on outwards.
-/
import Reckoner.Proofs.Syntax.Reading
import Reckoner.Proofs.Token.Lexed

namespace Reckoner

/-! ## The steps of a tree -/

namespace Numeral

/-- The number that a text denotes, and zero if it denotes none. -/
def valueOf (text : String) : Float :=
  match read text with
  | .ok value => value
  | .error _ => 0

theorem valueOf_of_read {text : String} {value : Float} (h : read text = .ok value) :
    valueOf text = value := by
  rw [valueOf, h]

end Numeral

namespace Tree

/-- The steps that evaluate a tree inside `opened` open factors. -/
def steps (opened : Nat) : Tree → List Step
  | .number text => [.enter opened, .literal (Numeral.valueOf text)]
  | .variableName name => [.enter opened, .load name]
  | .parenthesis inner => .enter opened :: inner.steps (opened + 1)
  | .application function argument =>
    .enter opened :: (argument.steps (opened + 1) ++ [.apply function opened])
  | .negation operand => .enter opened :: (operand.steps (opened + 1) ++ [.negate])
  | .operation operator left right =>
    left.steps opened ++ right.steps opened ++ [.combine operator]

end Tree

namespace Sentence

/-- The steps that evaluate an expression. -/
def steps : Option Tree → List Step
  | none => [.literal 0]
  | some tree => tree.steps 0

end Sentence

namespace Program

open Reckoner.Frame

theorem prepend_prepend (steps steps' : List Step) (program : Program) :
    (program.prepend steps').prepend steps = program.prepend (steps ++ steps') := by
  simp [prepend]

theorem opened_cons_of_isFactor {frame : Frame} (outer : List Frame) (h : frame.isFactor) :
    opened (frame :: outer) = opened outer + 1 :=
  List.countP_cons_of_pos h

theorem opened_cons_of_isFactor_eq_false {frame : Frame} (outer : List Frame)
    (h : frame.isFactor = false) : opened (frame :: outer) = opened outer :=
  List.countP_cons_of_neg (by simp [h])

/-! ## Sentences have programs -/

/-- What reading the tokens of a phrase comes to, whatever is open and whatever follows.

A factor closes what waits for it.  A product is read where none waits for a factor; it leaves what
is open as it was.  A sum is read where nothing waits for a product either; its last operator, if
it has one, is still to be taken when its tokens are read. -/
def ReadsAs (stop : Token) : Phrase → List Token → Tree → Prop
  | .factor, tokens, tree => ∀ frames rest,
      ofOperand stop frames (tokens ++ rest)
        = prepend (tree.steps (opened frames) ++ (closeFactor frames).1)
            (ofOperator stop (closeFactor frames).2 rest)
  | .product, tokens, tree => ∀ frames rest, closeFactor frames = ([], frames) →
      ofOperand stop frames (tokens ++ rest)
        = prepend (tree.steps (opened frames)) (ofOperator stop frames rest)
  | .sum, tokens, tree => ∀ frames rest, closeFactor frames = ([], frames) →
      closeProduct frames = ([], frames) →
      ∃ before pending inner,
        tree.steps (opened frames) = before ++ pending ∧ closeProduct inner = (pending, frames) ∧
        ofOperand stop frames (tokens ++ rest) = prepend before (ofOperator stop inner rest)

/-- A token that is a factor by itself. -/
theorem readsAs_leaf {stop token : Token} {step : Step} {tree : Tree}
    (hleaf : token.leaf? = some step)
    (hsteps : ∀ opened, tree.steps opened = [.enter opened, step]) :
    ReadsAs stop .factor [token] tree := by
  intro frames rest
  rw [List.singleton_append, ofOperand_of_leaf? hleaf, hsteps]
  rfl

/-- A token that waits for a factor, and the factor. -/
theorem readsAs_waiting {stop token : Token} {frame : Frame} {last : Nat → Step}
    {tokens : List Token} {operand tree : Tree} (hopens : token.opens? = some frame)
    (hclose : ∀ outer, closeFactor (frame :: outer)
      = (last (opened outer) :: (closeFactor outer).1, (closeFactor outer).2))
    (hsteps : ∀ opened, tree.steps opened
      = .enter opened :: (operand.steps (opened + 1) ++ [last opened]))
    (ih : ReadsAs stop .factor tokens operand) :
    ReadsAs stop .factor (token :: tokens) tree := by
  intro frames rest
  -- The factor that is waited for lies inside one more open factor.
  have hopened := opened_cons_of_isFactor frames (Token.isFactor_of_opens? hopens)
  rw [List.cons_append, ofOperand_of_opens? hopens, ih, prepend_prepend, hopened, hclose, hsteps]
  simp

theorem readsAs_parenthesis {stop opening closing : Token} {tokens : List Token} {inner : Tree}
    (hopening : opening.kind = .leftParen) (hclosing : closing.kind = .rightParen)
    (ih : ReadsAs stop .sum tokens inner) :
    ReadsAs stop .factor (opening :: (tokens ++ [closing])) (.parenthesis inner) := by
  intro frames rest
  obtain ⟨before, pending, last, hsteps, hlast, hread⟩ :=
    ih (.parenthesis :: frames) (closing :: rest) rfl rfl
  have hopens : opening.opens? = some .parenthesis := by rw [Token.opens?, hopening]
  have hopened : opened (.parenthesis :: frames) = opened frames + 1 :=
    opened_cons_of_isFactor frames rfl
  have hcloses : (closeProduct last).2 = .parenthesis :: frames := by rw [hlast]
  rw [List.cons_append, List.append_assoc, List.singleton_append, ofOperand_of_opens? hopens, hread,
    ofOperator_of_closes hclosing hcloses, hlast, Tree.steps, ← hopened, hsteps]
  simp [prepend_prepend]

theorem readsAs_product {stop token : Token} {operator : Operator} {tokens tokens' : List Token}
    {left right : Tree} (hoperator : token.kind.multiplicative? = some operator)
    (ihLeft : ReadsAs stop .product tokens left) (ihRight : ReadsAs stop .factor tokens' right) :
    ReadsAs stop .product (tokens ++ token :: tokens') (.operation operator left right) := by
  intro frames rest hframes
  have hopened : opened (.product operator :: frames) = opened frames :=
    opened_cons_of_isFactor_eq_false frames rfl
  rw [List.append_assoc, List.cons_append, ihLeft _ _ hframes,
    ofOperator_of_multiplicative? hoperator, ihRight, hopened, closeFactor, hframes,
    prepend_prepend, Tree.steps]
  simp

theorem readsAs_sum {stop token : Token} {operator : Operator} {tokens tokens' : List Token}
    {left right : Tree} (hoperator : token.kind.additive? = some operator)
    (ihLeft : ReadsAs stop .sum tokens left) (ihRight : ReadsAs stop .product tokens' right) :
    ReadsAs stop .sum (tokens ++ token :: tokens') (.operation operator left right) := by
  intro frames rest hframes hframes'
  obtain ⟨before, pending, inner, hsteps, hinner, hread⟩ :=
    ihLeft frames (token :: (tokens' ++ rest)) hframes hframes'
  have hopened : opened (.sum operator :: frames) = opened frames :=
    opened_cons_of_isFactor_eq_false frames rfl
  -- The left side is complete now; the operator waits for what follows the product on its right.
  refine ⟨before ++ pending ++ right.steps (opened frames), [.combine operator],
    .sum operator :: frames, ?_, rfl, ?_⟩
  · rw [Tree.steps, hsteps]
  · rw [List.append_assoc, List.cons_append, hread, ofOperator_of_additive? hoperator, hinner,
      ihRight _ _ rfl, hopened, prepend_prepend, prepend_prepend]

/-- Every phrase is read as its tree. -/
theorem readsAs_of_derives {stop : Token} {phrase : Phrase} {tokens : List Token} {tree : Tree}
    (h : Derives phrase tokens tree) (hreadable : ∀ token ∈ tokens, token.Readable) :
    ReadsAs stop phrase tokens tree := by
  induction h with
  | @number token hkind =>
      obtain ⟨value, hvalue⟩ := hreadable token (by simp) hkind
      have hleaf : token.leaf? = some (.literal (Numeral.valueOf token.text)) := by
        simp only [Token.leaf?, hkind, hvalue, Numeral.valueOf_of_read hvalue]
      exact readsAs_leaf hleaf fun _ => rfl
  | @variableName token hkind =>
      have hleaf : token.leaf? = some (.load token.text) := by simp only [Token.leaf?, hkind]
      exact readsAs_leaf hleaf fun _ => rfl
  | parenthesis hopening _ hclosing ih =>
      exact readsAs_parenthesis hopening hclosing
        (ih fun token htoken => hreadable token (by simp [htoken]))
  | @application function _ _ hfunction _ ih =>
      have hopens : function.opens? = some (.function function.text) := by
        rw [Token.opens?, hfunction]
      exact readsAs_waiting hopens (fun _ => rfl) (fun _ => rfl)
        (ih fun token htoken => hreadable token (by simp [htoken]))
  | @negation sign _ _ hsign _ ih =>
      have hopens : sign.opens? = some .sign := by rw [Token.opens?, hsign]
      exact readsAs_waiting hopens (fun _ => rfl) (fun _ => rfl)
        (ih fun token htoken => hreadable token (by simp [htoken]))
  | productOfFactor _ ih =>
      intro frames rest hframes
      rw [ih hreadable, hframes, List.append_nil]
  | product _ hoperator _ ihLeft ihRight =>
      exact readsAs_product hoperator
        (ihLeft fun token htoken => hreadable token (by simp [htoken]))
        (ihRight fun token htoken => hreadable token (by simp [htoken]))
  | sumOfProduct _ ih =>
      intro frames rest hframes hframes'
      -- A product alone has no operator to wait for.
      exact ⟨_, [], frames, (List.append_nil _).symm, hframes', ih hreadable _ _ hframes⟩
  | sum _ hoperator _ ihLeft ihRight =>
      exact readsAs_sum hoperator
        (ihLeft fun token htoken => hreadable token (by simp [htoken]))
        (ihRight fun token htoken => hreadable token (by simp [htoken]))

/-- The program of a sentence takes the steps of its tree. -/
theorem ofTokens_of_sentence {tokens : TokenSequence} {tree : Option Tree}
    (h : Sentence tokens.body tree) (hreadable : ∀ token ∈ tokens.body, token.Readable) :
    ofTokens tokens = { steps := Sentence.steps tree } := by
  rcases hbody : tokens.body with _ | ⟨first, rest⟩
  · rw [hbody] at h
    cases h with
    | empty => rw [ofTokens, hbody, Sentence.steps]
    | sum hsum => exact absurd rfl hsum.ne_nil
  · rw [hbody] at h hreadable
    cases h with
    | sum hsum =>
      obtain ⟨before, pending, inner, hsteps, hinner, hread⟩ :=
        @readsAs_of_derives (Token.atEnd tokens.endPosition) _ _ _ hsum hreadable [] [] rfl rfl
      have hopened : opened [] = 0 := rfl
      rw [List.append_nil] at hread
      rw [hopened] at hsteps
      rw [ofTokens, hbody]
      show ofOperand _ [] (first :: rest) = _
      rw [hread, ofOperator, hinner, Sentence.steps, hsteps]
      simp [prepend]

/-! ## Programs without an offending token have sentences -/

/-- What the frames left open demand of the tokens that follow a factor. -/
def Closes : List Frame → List Token → Prop
  | [], tokens => SumTail tokens
  | .parenthesis :: outer, tokens =>
      ∃ more closing rest, tokens = more ++ closing :: rest ∧ SumTail more ∧
        closing.kind = .rightParen ∧ Closes outer rest
  | .sign :: outer, tokens => Closes outer tokens
  | .function _ :: outer, tokens => Closes outer tokens
  | .product _ :: outer, tokens => Closes outer tokens
  | .sum _ :: outer, tokens => Closes outer tokens

theorem closes_closeFactor (frames : List Frame) (tokens : List Token) :
    Closes (closeFactor frames).2 tokens ↔ Closes frames tokens := by
  induction frames with
  | nil => rfl
  | cons frame outer ih =>
      cases frame with
      | sign => exact ih
      | function name => exact ih
      | product operator => exact ih
      | parenthesis => rfl
      | sum operator => rfl

theorem closes_closeProduct (frames : List Frame) (tokens : List Token) :
    Closes (closeProduct frames).2 tokens ↔ Closes frames tokens := by
  cases frames with
  | nil => rfl
  | cons frame outer => cases frame <;> rfl

/-- An operator and a factor may stand before what closes the frames. -/
theorem closes_cons {frames : List Frame} {token : Token} {tokens rest : List Token} {tree : Tree}
    (hoperator : token.kind.multiplicative?.isSome ∨ token.kind.additive?.isSome)
    (hfactor : Derives .factor tokens tree) (h : Closes frames rest) :
    Closes frames (token :: (tokens ++ rest)) := by
  induction frames with
  | nil => exact .cons hoperator hfactor h
  | cons frame outer ih =>
      cases frame with
      | parenthesis =>
          obtain ⟨more, closing, rest', hrest, hmore, hclosing, houter⟩ := h
          refine ⟨token :: (tokens ++ more), closing, rest', ?_, ?_, hclosing, houter⟩
          · rw [hrest]
            simp
          · exact .cons hoperator hfactor hmore
      | sign => exact ih h
      | function name => exact ih h
      | product operator => exact ih h
      | sum operator => exact ih h

/-- The tokens begin with a factor, and those after it close the frames. -/
def FactorCloses (frames : List Frame) (tokens : List Token) : Prop :=
  ∃ factor tree rest, tokens = factor ++ rest ∧ Derives .factor factor tree ∧ Closes frames rest

/-- An operator before a factor makes a tail of what the factor begins. -/
theorem FactorCloses.closes {frames : List Frame} {token : Token} {tokens : List Token}
    (hoperator : token.kind.multiplicative?.isSome ∨ token.kind.additive?.isSome)
    (h : FactorCloses frames tokens) : Closes frames (token :: tokens) := by
  obtain ⟨factor, tree, rest, htokens, hfactor, hrest⟩ := h
  rw [htokens]
  exact closes_cons hoperator hfactor hrest

/-- A factor stands where one has to begin, if the token that opens it is followed by what the new
frame and those around it demand. -/
theorem FactorCloses.of_opens? {frames : List Frame} {frame : Frame} {token : Token}
    {tokens : List Token} (hopens : token.opens? = some frame)
    (h : FactorCloses (frame :: frames) tokens) : FactorCloses frames (token :: tokens) := by
  obtain ⟨factor, tree, rest, rfl, hfactor, hrest⟩ := h
  -- A parenthesis takes the sum that its factor begins; the others take the factor itself.
  rcases Token.opens?_cases hopens with ⟨hkind, rfl⟩ | ⟨hkind, rfl⟩ | ⟨hkind, rfl⟩
  · obtain ⟨more, closing, rest, rfl, hmore, hclosing, houter⟩ := hrest
    obtain ⟨inner, hinner⟩ := hmore.derives_sum.1 _ _ (.productOfFactor hfactor)
    refine ⟨_, _, rest, ?_, .parenthesis hkind hinner hclosing, houter⟩
    simp
  · exact ⟨_, _, rest, rfl, .application hkind hfactor, hrest⟩
  · exact ⟨_, _, rest, rfl, .negation hkind hfactor, hrest⟩

/-- The tokens on which a program ends without an offending one are what the open frames demand. -/
theorem reading_closes (stop : Token) :
    Reading stop
      (fun frames tokens program => program.offending = none → FactorCloses frames tokens)
      (fun frames tokens program => program.offending = none → Closes frames tokens) where
  operandEnd := nofun
  leaf := by
    intro frames token rest step program hleaf hrest hnone
    have hcloses := (closes_closeFactor frames rest).1 (hrest hnone)
    rcases Token.leaf?_cases hleaf with ⟨hkind, -⟩ | ⟨hkind, -⟩
    · exact ⟨[token], _, rest, rfl, .number hkind, hcloses⟩
    · exact ⟨[token], _, rest, rfl, .variableName hkind, hcloses⟩
  opening := fun _ _ _ _ _ hopens hrest hnone => (hrest hnone).of_opens? hopens
  operandOffends := nofun
  closed := fun frames hclose _ => (closes_closeProduct frames []).1 (by rw [hclose]; exact .nil)
  unclosed := nofun
  multiplicative := by
    intro frames token rest operator program hoperator hrest hnone
    have hfactor : FactorCloses frames rest := hrest hnone
    exact hfactor.closes (.inl (by rw [hoperator]; rfl))
  additive := by
    intro frames token rest operator program hoperator hrest hnone
    have hfactor : FactorCloses (closeProduct frames).2 rest := hrest hnone
    rw [← closes_closeProduct]
    exact hfactor.closes (.inr (by rw [hoperator]; rfl))
  closing := by
    intro frames outer token rest program hkind hclose hrest hnone
    have houter := (closes_closeFactor outer rest).1 (hrest hnone)
    rw [← closes_closeProduct, hclose]
    exact ⟨[], token, rest, rfl, .nil, hkind, houter⟩
  operatorOffends := nofun

/-- A token sequence whose program has no offending token is a sentence. -/
theorem exists_sentence_of_offending_eq_none {tokens : TokenSequence}
    (h : (ofTokens tokens).offending = none) : ∃ tree, Sentence tokens.body tree := by
  rcases hbody : tokens.body with _ | ⟨first, rest⟩
  · exact ⟨none, .empty⟩
  · rw [ofTokens, hbody] at h
    obtain ⟨factor, tree, more, htokens, hfactor, hmore⟩ :=
      ((reading_closes _).program (first :: rest)).1 [] h
    obtain ⟨tree', hsum⟩ := SumTail.derives_sum hmore |>.1 _ _ (.productOfFactor hfactor)
    rw [htokens]
    exact ⟨some tree', .sum hsum⟩

end Program

end Reckoner
