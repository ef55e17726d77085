/-
  Reckoner.Proofs.Syntax.Places

  The places inside an expression, in terms of the grammar alone.

  At a place a phrase has to begin, with certain frames open (`Awaits`), or a factor has just ended
  (`Ended`).  Each can be taken further to a whole expression (`Awaits.exists_sentence`), and one
  more token leads from the one to the other just as a reading of the tokens does.  So the reading
  of what comes before a place ends there, with the frames that are open, whatever comes after
  (`Awaits.ofOperand_append`).
-/
import Reckoner.Proofs.Syntax.Programs

namespace Reckoner

open Reckoner.Frame Program

/-! ## Places -/

/-- Right after the tokens a phrase has to begin, and these frames are open there. -/
inductive Awaits : Phrase → List Token → List Frame → Prop
  | start : Awaits .sum [] []
  | productOfSum {before : List Token} {frames : List Frame} (h : Awaits .sum before frames) :
      Awaits .product before frames
  | factorOfProduct {before : List Token} {frames : List Frame} (h : Awaits .product before frames) :
      Awaits .factor before frames
  | parenthesis {before : List Token} {frames : List Frame} {opening : Token}
      (h : Awaits .factor before frames) (hopening : opening.kind = .leftParen) :
      Awaits .sum (before ++ [opening]) (.parenthesis :: frames)
  | application {before : List Token} {frames : List Frame} {function : Token}
      (h : Awaits .factor before frames) (hfunction : function.kind = .functionName) :
      Awaits .factor (before ++ [function]) (.function function.text :: frames)
  | negation {before : List Token} {frames : List Frame} {sign : Token}
      (h : Awaits .factor before frames) (hsign : sign.kind = .minus) :
      Awaits .factor (before ++ [sign]) (.sign :: frames)
  | product {before tokens : List Token} {frames : List Frame} {left : Tree} {token : Token}
      {operator : Operator} (h : Awaits .product before frames)
      (hleft : Derives .product tokens left)
      (hoperator : token.kind.multiplicative? = some operator) :
      Awaits .factor (before ++ tokens ++ [token]) (.product operator :: frames)
  | sum {before tokens : List Token} {frames : List Frame} {left : Tree} {token : Token}
      {operator : Operator} (h : Awaits .sum before frames) (hleft : Derives .sum tokens left)
      (hoperator : token.kind.additive? = some operator) :
      Awaits .product (before ++ tokens ++ [token]) (.sum operator :: frames)

/-- A factor has just ended right after the tokens, and with it a product that may go on. -/
inductive Ended : List Token → List Frame → Prop
  | intro {before tokens : List Token} {frames : List Frame} {tree : Tree}
      (h : Awaits .product before frames) (hproduct : Derives .product tokens tree) :
      Ended (before ++ tokens) frames

/-! ## What is open -/

namespace Awaits

variable {before tokens : List Token} {frames : List Frame}

theorem closeProduct_eq (h : Awaits .sum before frames) : closeProduct frames = ([], frames) := by
  cases h with
  | start => rfl
  | parenthesis => rfl

theorem closeFactor_eq (h : Awaits .product before frames) : closeFactor frames = ([], frames) := by
  cases h with
  | productOfSum h =>
      cases h with
      | start => rfl
      | parenthesis => rfl
  | sum => rfl

/-- A factor ends what waits for it. -/
theorem ended {tree : Tree} (h : Awaits .factor before frames) (htree : Derives .factor tokens tree) :
    Ended (before ++ tokens) (closeFactor frames).2 := by
  -- The induction goes outwards over the functions and signs that end together with the factor.
  generalize hphrase : Phrase.factor = phrase at h
  induction h generalizing tokens tree with
  | factorOfProduct h =>
      rw [h.closeFactor_eq]
      exact .intro h (.productOfFactor htree)
  | application _ hfunction ih =>
      have hended := ih (.application hfunction htree) hphrase
      rwa [← List.singleton_append, ← List.append_assoc] at hended
  | negation _ hsign ih =>
      have hended := ih (.negation hsign htree) hphrase
      rwa [← List.singleton_append, ← List.append_assoc] at hended
  | @product before left frames _ token operator h hleft hoperator =>
      have hended := Ended.intro h (.product hleft hoperator htree)
      rw [← List.singleton_append, ← List.append_assoc, ← List.append_assoc] at hended
      show Ended _ (closeFactor frames).2
      rwa [h.closeFactor_eq]
  | start | productOfSum | parenthesis | sum => cases hphrase

/-- Every phrase that has to begin can be taken further to a whole expression. -/
theorem exists_sentence {phrase : Phrase} {tree : Tree} (h : Awaits phrase before frames)
    (htree : Derives phrase tokens tree) :
    ∃ rest tree', Sentence (before ++ tokens ++ rest) tree' := by
  induction h generalizing tokens tree with
  | start => exact ⟨[], _, by rw [List.append_nil]; exact .sum htree⟩
  | productOfSum _ ih => exact ih (.sumOfProduct htree)
  | factorOfProduct _ ih => exact ih (.productOfFactor htree)
  | parenthesis _ hopening ih =>
      obtain ⟨rest, tree', hsentence⟩ := ih (.parenthesis hopening htree
        (rfl : (Token.mk .rightParen ")" 0).kind = .rightParen))
      exact ⟨⟨.rightParen, ")", 0⟩ :: rest, tree', by simpa using hsentence⟩
  | application _ hfunction ih =>
      obtain ⟨rest, tree', hsentence⟩ := ih (.application hfunction htree)
      exact ⟨rest, tree', by simpa using hsentence⟩
  | negation _ hsign ih =>
      obtain ⟨rest, tree', hsentence⟩ := ih (.negation hsign htree)
      exact ⟨rest, tree', by simpa using hsentence⟩
  | product _ hleft hoperator ih =>
      obtain ⟨rest, tree', hsentence⟩ := ih (.product hleft hoperator htree)
      exact ⟨rest, tree', by simpa using hsentence⟩
  | sum _ hleft hoperator ih =>
      obtain ⟨rest, tree', hsentence⟩ := ih (.sum hleft hoperator htree)
      exact ⟨rest, tree', by simpa using hsentence⟩

end Awaits

/-! ## From one token to the next -/

namespace Ended

variable {before : List Token} {frames outer : List Frame} {token : Token}

/-- With a product the sum that it belongs to has come to an end, or may go on. -/
theorem exists_sum (h : Ended before frames) :
    ∃ before' tokens tree, before = before' ++ tokens ∧ Derives .sum tokens tree ∧
      Awaits .sum before' (closeProduct frames).2 := by
  cases h with
  | @intro before tokens frames tree h hproduct =>
      cases h with
      | productOfSum h =>
          refine ⟨before, tokens, tree, rfl, .sumOfProduct hproduct, ?_⟩
          rwa [h.closeProduct_eq]
      | @sum before left frames _ token operator h hleft hoperator =>
          exact ⟨before, left ++ token :: tokens, _, by simp, .sum hleft hoperator hproduct, h⟩

theorem multiplicative {operator : Operator} (h : Ended before frames)
    (hoperator : token.kind.multiplicative? = some operator) :
    Awaits .factor (before ++ [token]) (.product operator :: frames) := by
  cases h with
  | intro h hproduct => exact .product h hproduct hoperator

theorem additive {operator : Operator} (h : Ended before frames)
    (hoperator : token.kind.additive? = some operator) :
    Awaits .factor (before ++ [token]) (.sum operator :: (closeProduct frames).2) := by
  obtain ⟨before', tokens, tree, rfl, hsum, h⟩ := h.exists_sum
  exact .factorOfProduct (.sum h hsum hoperator)

/-- A parenthesis that is closed is a factor. -/
theorem closing (h : Ended before frames) (hkind : token.kind = .rightParen)
    (hclose : (closeProduct frames).2 = .parenthesis :: outer) :
    Ended (before ++ [token]) (closeFactor outer).2 := by
  obtain ⟨before', tokens, tree, rfl, hsum, h⟩ := h.exists_sum
  rw [hclose] at h
  cases h with
  | parenthesis h hopening =>
      have hended := h.ended (.parenthesis hopening hsum hkind)
      simpa using hended

end Ended

namespace Awaits

variable {before : List Token} {frames : List Frame} {token : Token}

theorem leaf {step : Step} (h : Awaits .factor before frames) (hleaf : token.leaf? = some step) :
    Ended (before ++ [token]) (closeFactor frames).2 := by
  rcases Token.leaf?_cases hleaf with ⟨hkind, -⟩ | ⟨hkind, -⟩
  · exact h.ended (.number hkind)
  · exact h.ended (.variableName hkind)

theorem opening {frame : Frame} (h : Awaits .factor before frames)
    (hopens : token.opens? = some frame) :
    Awaits .factor (before ++ [token]) (frame :: frames) := by
  rcases Token.opens?_cases hopens with ⟨hkind, rfl⟩ | ⟨hkind, rfl⟩ | ⟨hkind, rfl⟩
  · exact .factorOfProduct (.productOfSum (.parenthesis h hkind))
  · exact .application h hkind
  · exact .negation h hkind

/-- What is true inside a factor that has just been opened, and of the places before it. -/
theorem exists_opened_eq_of_cons {frame : Frame} {number : Nat} (h : Awaits .factor before frames)
    (hframe : frame.isFactor)
    (ih : number < opened frames → ∃ before' frames', before' <+: before ∧
      Awaits .factor before' frames' ∧ opened frames' = number)
    (hnumber : number < opened (frame :: frames)) :
    ∃ before' frames', before' <+: before ++ [token] ∧ Awaits .factor before' frames' ∧
      opened frames' = number := by
  rw [opened_cons_of_isFactor frames hframe] at hnumber
  by_cases heq : opened frames = number
  · exact ⟨before, frames, List.prefix_append _ _, h, heq⟩
  · obtain ⟨before', frames', hbefore, h', hopened⟩ := ih (by omega)
    exact ⟨before', frames', hbefore.trans (List.prefix_append _ _), h', hopened⟩

/-- Where many factors are open, each smaller number of them was open where one had to begin. -/
theorem exists_opened_eq {phrase : Phrase} {number : Nat} (h : Awaits phrase before frames)
    (hnumber : number < opened frames) :
    ∃ before' frames', before' <+: before ∧ Awaits .factor before' frames' ∧
      opened frames' = number := by
  induction h with
  | start => cases hnumber
  | productOfSum _ ih => exact ih hnumber
  | factorOfProduct _ ih => exact ih hnumber
  | parenthesis h _ ih => exact h.exists_opened_eq_of_cons rfl ih hnumber
  | application h _ ih => exact h.exists_opened_eq_of_cons rfl ih hnumber
  | negation h _ ih => exact h.exists_opened_eq_of_cons rfl ih hnumber
  | product _ _ _ ih | sum _ _ _ ih =>
      obtain ⟨before', frames', hbefore, h', hopened⟩ := ih hnumber
      refine ⟨before', frames', hbefore.trans ?_, h', hopened⟩
      rw [List.append_assoc]
      exact List.prefix_append _ _

/-- Every open factor has begun with a token of its own. -/
theorem opened_le_length {phrase : Phrase} (h : Awaits phrase before frames) :
    opened frames ≤ before.length := by
  induction h with
  | start => exact Nat.le_refl 0
  | productOfSum _ ih => exact ih
  | factorOfProduct _ ih => exact ih
  | parenthesis _ _ ih | application _ _ ih | negation _ _ ih =>
      rw [opened_cons_of_isFactor _ rfl, List.length_append, List.length_singleton]
      omega
  | product _ _ _ ih | sum _ _ _ ih =>
      rw [opened_cons_of_isFactor_eq_false _ rfl, List.length_append, List.length_append]
      omega

/-! ## Reading up to a place -/

/-- Reading a token that opens a factor. -/
theorem ofOperand_append_of_opens? {frame : Frame} {steps : List Step}
    (hopens : token.opens? = some frame)
    (ih : ∀ stop rest, ofOperand stop [] (before ++ rest)
      = prepend steps (ofOperand stop frames rest)) (stop : Token) (rest : List Token) :
    ofOperand stop [] (before ++ [token] ++ rest)
      = prepend (steps ++ [.enter (opened frames)]) (ofOperand stop (frame :: frames) rest) := by
  rw [List.append_assoc, List.singleton_append, ih, ofOperand_of_opens? hopens, prepend_prepend]

/-- Reading the tokens leads to the place, with the frames that are open there, whatever follows
and whatever marks the end. -/
theorem ofOperand_append {phrase : Phrase} (h : Awaits phrase before frames)
    (hreadable : ∀ token ∈ before, token.Readable) :
    ∃ steps, ∀ stop rest, ofOperand stop [] (before ++ rest)
      = prepend steps (ofOperand stop frames rest) := by
  induction h with
  | start => exact ⟨[], fun _ _ => rfl⟩
  | productOfSum _ ih => exact ih hreadable
  | factorOfProduct _ ih => exact ih hreadable
  | @parenthesis before frames opening h hopening ih =>
      obtain ⟨steps, hsteps⟩ := ih fun token htoken => hreadable token (by simp [htoken])
      have hopens : opening.opens? = some .parenthesis := by rw [Token.opens?, hopening]
      exact ⟨_, ofOperand_append_of_opens? hopens hsteps⟩
  | @application before frames function h hfunction ih =>
      obtain ⟨steps, hsteps⟩ := ih fun token htoken => hreadable token (by simp [htoken])
      have hopens : function.opens? = some (.function function.text) := by
        rw [Token.opens?, hfunction]
      exact ⟨_, ofOperand_append_of_opens? hopens hsteps⟩
  | @negation before frames sign h hsign ih =>
      obtain ⟨steps, hsteps⟩ := ih fun token htoken => hreadable token (by simp [htoken])
      have hopens : sign.opens? = some .sign := by rw [Token.opens?, hsign]
      exact ⟨_, ofOperand_append_of_opens? hopens hsteps⟩
  | @product before tokens frames left token operator h hleft hoperator ih =>
      obtain ⟨steps, hsteps⟩ := ih fun token htoken => hreadable token (by simp [htoken])
      refine ⟨steps ++ left.steps (opened frames), fun stop rest => ?_⟩
      have hread := @readsAs_of_derives stop _ _ _ hleft
        fun token htoken => hreadable token (by simp [htoken])
      rw [List.append_assoc, List.append_assoc, List.singleton_append, hsteps,
        hread _ _ h.closeFactor_eq, ofOperator_of_multiplicative? hoperator, prepend_prepend]
  | @sum before tokens frames left token operator h hleft hoperator ih =>
      obtain ⟨steps, hsteps⟩ := ih fun token htoken => hreadable token (by simp [htoken])
      refine ⟨steps ++ left.steps (opened frames), fun stop rest => ?_⟩
      have hread := @readsAs_of_derives stop _ _ _ hleft
        fun token htoken => hreadable token (by simp [htoken])
      -- The operator takes what is pending of the sum before it.
      obtain ⟨first, pending, inner, hfirst, hinner, hread⟩ :=
        hread frames (token :: rest) (Awaits.productOfSum h).closeFactor_eq h.closeProduct_eq
      rw [List.append_assoc, List.append_assoc, List.singleton_append, hsteps, hread,
        ofOperator_of_additive? hoperator, hinner, prepend_prepend, prepend_prepend, hfirst,
        List.append_assoc]

end Awaits

/-- Reading the tokens leads to the end of the factor. -/
theorem Ended.ofOperand_append {before : List Token} {frames : List Frame}
    (h : Ended before frames) (hreadable : ∀ token ∈ before, token.Readable) :
    ∃ steps, ∀ stop rest, ofOperand stop [] (before ++ rest)
      = prepend steps (ofOperator stop frames rest) := by
  cases h with
  | @intro before tokens frames tree h hproduct =>
      obtain ⟨steps, hsteps⟩ :=
        h.ofOperand_append fun token htoken => hreadable token (by simp [htoken])
      refine ⟨steps ++ tree.steps (opened frames), fun stop rest => ?_⟩
      have hread := @readsAs_of_derives stop _ _ _ hproduct
        fun token htoken => hreadable token (by simp [htoken])
      rw [List.append_assoc, hsteps, hread _ _ h.closeFactor_eq, prepend_prepend]

end Reckoner
