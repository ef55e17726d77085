/-
  Reckoner.Proofs.Syntax.Prefixes

  How far tokens can be read as the beginning of an expression.

  A token that offends where it stands ends all expressions: none begins with the tokens up to it
  (`Awaits.not_viable`, `Ended.not_viable`), since reading them would meet the same frames and
  offend.  So a program ends with the first token with which its tokens are no beginning of an
  expression (`firstFault_of_offending`), and it enters factors just at the places where one has to
  begin (`exists_awaits_of_enter`, `exists_steps_of_awaits`).
-/
import Reckoner.Proofs.Syntax.Places
import Reckoner.Proofs.Syntax.Stacks

namespace Reckoner

open Reckoner.Frame Program

/-! ## Beginnings of expressions -/

/-- The tokens begin an expression, perhaps with its end after it. -/
def Viable (tokens : List Token) : Prop :=
  ∃ sentence tree position, Sentence sentence tree ∧ tokens <+: sentence ++ [Token.atEnd position]

/-- The place of the first token with which the tokens are no beginning of an expression. -/
structure FirstFault (tokens : List Token) (place : Nat) : Prop where
  lt : place < tokens.length
  fault : ¬ Viable (tokens.take (place + 1))
  first : ∀ earlier < place, Viable (tokens.take (earlier + 1))

theorem Viable.of_prefix {tokens more : List Token} (h : Viable more) (hbegins : tokens <+: more) :
    Viable tokens := by
  obtain ⟨sentence, tree, position, hsentence, hmore⟩ := h
  exact ⟨sentence, tree, position, hsentence, hbegins.trans hmore⟩

theorem Sentence.viable {tokens rest : List Token} {tree : Option Tree}
    (h : Sentence (tokens ++ rest) tree) : Viable tokens := by
  refine ⟨_, tree, 0, h, ?_⟩
  rw [List.append_assoc]
  exact List.prefix_append _ _

theorem Ended.viable {before : List Token} {frames : List Frame} (h : Ended before frames) :
    Viable before := by
  cases h with
  | intro h hproduct =>
      obtain ⟨rest, tree, hsentence⟩ := h.exists_sentence hproduct
      exact hsentence.viable

theorem Awaits.viable {before : List Token} {frames : List Frame}
    (h : Awaits .factor before frames) : Viable before := by
  have hzero : Derives .factor [⟨.number, "0", 0⟩] _ := .number rfl
  obtain ⟨rest, tree, hsentence⟩ := h.exists_sentence hzero
  rw [List.append_assoc] at hsentence
  exact hsentence.viable

/-! ## Tokens that no expression begins with -/

/-- The token, or a readable number in its place if it is a number that denotes none. -/
def Token.mended (token : Token) : Token :=
  match token.kind, Numeral.read token.text with
  | .number, .error _ => { token with text := "0" }
  | _, _ => token

namespace Token

theorem kind_mended (token : Token) : token.mended.kind = token.kind := by
  unfold mended
  split <;> rfl

theorem readable_mended (token : Token) : token.mended.Readable := by
  unfold mended
  split
  · intro _
    have hzero : String.ofList ['0'] = "0" := by decide
    have hread : ∃ value, Numeral.read (String.ofList ['0']) = .ok value :=
      Numeral.exists_read_literal (by decide) (List.forall_mem_nil _) (by decide)
    rwa [hzero] at hread
  · next hread =>
      intro hkind
      cases hvalue : Numeral.read token.text with
      | ok value => exact ⟨value, rfl⟩
      | error error => exact absurd hvalue (hread error hkind)

theorem mended_of_readable {token : Token} (h : token.Readable) : token.mended = token := by
  unfold mended
  split
  · next hkind hread =>
      obtain ⟨value, hvalue⟩ := h hkind
      rw [hvalue] at hread
      cases hread
  · rfl

end Token

/-- The grammar looks at the kinds of tokens only. -/
theorem Derives.map_of_kind {f : Token → Token} (hf : ∀ token, (f token).kind = token.kind)
    {phrase : Phrase} {tokens : List Token} {tree : Tree} (h : Derives phrase tokens tree) :
    ∃ tree', Derives phrase (tokens.map f) tree' := by
  induction h with
  | number hkind => exact ⟨_, .number ((hf _).trans hkind)⟩
  | variableName hkind => exact ⟨_, .variableName ((hf _).trans hkind)⟩
  | parenthesis hopening _ hclosing ih =>
      obtain ⟨inner, hinner⟩ := ih
      rw [List.map_cons, List.map_append]
      exact ⟨_, .parenthesis ((hf _).trans hopening) hinner ((hf _).trans hclosing)⟩
  | application hfunction _ ih =>
      obtain ⟨argument, hargument⟩ := ih
      exact ⟨_, .application ((hf _).trans hfunction) hargument⟩
  | negation hsign _ ih =>
      obtain ⟨operand, hoperand⟩ := ih
      exact ⟨_, .negation ((hf _).trans hsign) hoperand⟩
  | productOfFactor _ ih =>
      obtain ⟨tree, htree⟩ := ih
      exact ⟨_, .productOfFactor htree⟩
  | sumOfProduct _ ih =>
      obtain ⟨tree, htree⟩ := ih
      exact ⟨_, .sumOfProduct htree⟩
  | product _ hoperator _ ihLeft ihRight =>
      obtain ⟨left, hleft⟩ := ihLeft
      obtain ⟨right, hright⟩ := ihRight
      rw [List.map_append, List.map_cons]
      exact ⟨_, .product hleft (by rwa [hf]) hright⟩
  | sum _ hoperator _ ihLeft ihRight =>
      obtain ⟨left, hleft⟩ := ihLeft
      obtain ⟨right, hright⟩ := ihRight
      rw [List.map_append, List.map_cons]
      exact ⟨_, .sum hleft (by rwa [hf]) hright⟩

/-- The end is no part of a phrase. -/
theorem Derives.kind_ne_endOfInput {phrase : Phrase} {tokens : List Token} {tree : Tree}
    (h : Derives phrase tokens tree) : ∀ token ∈ tokens, token.kind ≠ .endOfInput := by
  induction h with
  | number hkind | variableName hkind => simp [hkind]
  | parenthesis hopening _ hclosing ih => simpa [hopening, hclosing, or_imp, forall_and] using ih
  | application hkind _ ih | negation hkind _ ih => simpa [hkind] using ih
  | productOfFactor _ ih => exact ih
  | sumOfProduct _ ih => exact ih
  | @product operator token _ _ _ _ _ hoperator _ ihLeft ihRight =>
      have hkind : token.kind ≠ .endOfInput := by
        intro hkind
        rw [hkind] at hoperator
        cases hoperator
      simpa [hkind, or_imp, forall_and] using ⟨ihLeft, ihRight⟩
  | @sum operator token _ _ _ _ _ hoperator _ ihLeft ihRight =>
      have hkind : token.kind ≠ .endOfInput := by
        intro hkind
        rw [hkind] at hoperator
        cases hoperator
      simpa [hkind, or_imp, forall_and] using ⟨ihLeft, ihRight⟩

theorem Sentence.kind_ne_endOfInput {tokens : List Token} {tree : Option Tree}
    (h : Sentence tokens tree) : ∀ token ∈ tokens, token.kind ≠ .endOfInput := by
  cases h with
  | empty => exact List.forall_mem_nil _
  | sum hsum => exact hsum.kind_ne_endOfInput

/-- A sentence with its numbers mended is the body of a token sequence without an offending
token. -/
theorem Sentence.exists_mended {sentence : List Token} {tree : Option Tree}
    (h : Sentence sentence tree) (position : Nat) :
    ∃ sequence : TokenSequence, sequence.toList
        = (sentence ++ [Token.atEnd position]).map Token.mended ∧
      (ofTokens sequence).offending = none := by
  obtain ⟨tree', hmended⟩ : ∃ tree', Sentence (sentence.map Token.mended) tree' := by
    cases h with
    | empty => exact ⟨_, .empty⟩
    | sum hsum =>
        obtain ⟨tree', hsum'⟩ := hsum.map_of_kind Token.kind_mended
        exact ⟨_, .sum hsum'⟩
  have hkind := hmended.kind_ne_endOfInput
  have hreadable : ∀ token ∈ sentence.map Token.mended, token.Readable := by
    intro token htoken
    obtain ⟨original, -, rfl⟩ := List.mem_map.1 htoken
    exact original.readable_mended
  let sequence : TokenSequence := ⟨sentence.map Token.mended, position, hkind⟩
  refine ⟨sequence, by rw [List.map_append]; rfl, ?_⟩
  rw [@ofTokens_of_sentence sequence _ hmended hreadable]

/-- If all sequences that begin with the tokens have an offending one, no expression does. -/
theorem not_viable_of_offending {tokens : List Token}
    (hreadable : ∀ token ∈ tokens, token.Readable)
    (h : ∀ sequence : TokenSequence, tokens <+: sequence.toList →
      (ofTokens sequence).offending ≠ none) : ¬ Viable tokens := by
  rintro ⟨sentence, tree, position, hsentence, hbegins⟩
  obtain ⟨sequence, hsequence, hnone⟩ := hsentence.exists_mended position
  have hsame : tokens.map Token.mended = tokens := by
    refine (List.map_congr_left fun token htoken => ?_).trans (List.map_id _)
    exact Token.mended_of_readable (hreadable token htoken)
  refine h sequence ?_ hnone
  rw [hsequence, ← hsame]
  exact hbegins.map _

theorem body_of_prefix {sequence : TokenSequence} {tokens : List Token} {token : Token}
    (h : tokens ++ [token] <+: sequence.toList) :
    (∃ rest, sequence.body = tokens ++ token :: rest) ∨
      (sequence.body = tokens ∧ token.kind = .endOfInput) := by
  rw [TokenSequence.toList, List.prefix_concat_iff] at h
  rcases h with h | ⟨rest, h⟩
  · obtain ⟨hbody, hend⟩ := List.append_inj' h rfl
    refine .inr ⟨hbody.symm, ?_⟩
    rw [List.singleton_inj.1 hend]
    rfl
  · refine .inl ⟨rest, ?_⟩
    rw [← h, List.append_assoc, List.singleton_append]

theorem Program.ofTokens_of_body {sequence : TokenSequence} {tokens : List Token}
    (hbody : sequence.body = tokens) (hne : tokens ≠ []) :
    ofTokens sequence = ofOperand (Token.atEnd sequence.endPosition) [] tokens := by
  rcases tokens with _ | ⟨first, rest⟩
  · exact absurd rfl hne
  · rw [ofTokens, hbody]

/-- Where a factor has to begin, what begins none ends all expressions. -/
theorem Awaits.not_viable {before : List Token} {frames : List Frame} {token : Token}
    (h : Awaits .factor before frames) (hreadable : ∀ read ∈ before ++ [token], read.Readable)
    (hleaf : token.leaf? = none) (hopens : token.opens? = none)
    (hend : token.kind = .endOfInput → before ≠ []) : ¬ Viable (before ++ [token]) := by
  refine not_viable_of_offending hreadable fun sequence hsequence => ?_
  obtain ⟨steps, hsteps⟩ :=
    h.ofOperand_append fun token htoken => hreadable token (List.mem_append_left _ htoken)
  rcases body_of_prefix hsequence with ⟨rest, hbody⟩ | ⟨hbody, hkind⟩
  · rw [ofTokens_of_body hbody (by simp), hsteps, ofOperand_of_offends hleaf hopens]
    exact Option.some_ne_none _
  · have hread := hsteps (Token.atEnd sequence.endPosition) []
    rw [List.append_nil] at hread
    rw [ofTokens_of_body hbody (hend hkind), hread, ofOperand]
    exact Option.some_ne_none _

theorem Ended.ne_nil {before : List Token} {frames : List Frame} (h : Ended before frames) :
    before ≠ [] := by
  cases h with
  | intro _ hproduct => exact List.append_ne_nil_of_right_ne_nil _ hproduct.ne_nil

/-- Where a factor has ended, what neither goes on nor closes a parenthesis ends all expressions,
and so does the end inside a parenthesis. -/
theorem Ended.not_viable {before : List Token} {frames : List Frame} {token : Token}
    (h : Ended before frames) (hreadable : ∀ read ∈ before ++ [token], read.Readable)
    (hoffends : Offends frames token)
    (hend : token.kind = .endOfInput → (closeProduct frames).2 ≠ []) :
    ¬ Viable (before ++ [token]) := by
  refine not_viable_of_offending hreadable fun sequence hsequence => ?_
  obtain ⟨steps, hsteps⟩ :=
    h.ofOperand_append fun token htoken => hreadable token (List.mem_append_left _ htoken)
  rcases body_of_prefix hsequence with ⟨rest, hbody⟩ | ⟨hbody, hkind⟩
  · rw [ofTokens_of_body hbody (by simp), hsteps, ofOperator_of_offends hoffends]
    exact Option.some_ne_none _
  · have hread := hsteps (Token.atEnd sequence.endPosition) []
    rw [List.append_nil] at hread
    rw [ofTokens_of_body hbody h.ne_nil, hread, ofOperator_nil_of_unclosed (hend hkind)]
    exact Option.some_ne_none _

/-! ## What a program has read -/

/-- The tokens before a program's own, those it reads, and what becomes of them: it enters a factor
only where one has to begin, and ends early only with the first token that no expression goes on
with. -/
structure Account (stop : Token) (before tokens : List Token) (program : Program) : Prop where
  enters : ∀ number, .enter number ∈ program.steps →
    ∃ more frames, more <+: tokens ∧ Awaits .factor (before ++ more) frames ∧
      opened frames = number
  offends : ∀ token, program.offending = some token →
    ∃ more rest, tokens ++ [stop] = more ++ token :: rest ∧ Viable (before ++ more) ∧
      ¬ Viable (before ++ more ++ [token])

namespace Account

variable {stop token : Token} {before tokens rest : List Token} {frames : List Frame}
  {steps : List Step}

/-- The steps of a token are taken where a factor has to begin, if they enter any. -/
def EntersAt (before : List Token) (steps : List Step) : Prop :=
  ∀ number, .enter number ∈ steps → ∃ frames, Awaits .factor before frames ∧ opened frames = number

theorem entersAt_of_awaits (h : Awaits .factor before frames)
    (hsteps : ∀ number, .enter number ∉ steps) :
    EntersAt before (.enter (opened frames) :: steps) := by
  intro number hnumber
  rcases List.mem_cons.1 hnumber with hnumber | hnumber
  · exact ⟨frames, h, (Step.enter.inj hnumber).symm⟩
  · exact absurd hnumber (hsteps number)

theorem entersAt_of_forall_notMem (hsteps : ∀ number, .enter number ∉ steps) :
    EntersAt before steps :=
  fun number hnumber => absurd hnumber (hsteps number)

theorem cons {program : Program} (h : Account stop (before ++ [token]) rest program)
    (hsteps : EntersAt before steps) :
    Account stop before (token :: rest) (program.prepend steps) where
  enters := by
    intro number hnumber
    rcases List.mem_append.1 hnumber with hnumber | hnumber
    · obtain ⟨frames, hawaits, hopened⟩ := hsteps number hnumber
      exact ⟨[], frames, List.nil_prefix, by rwa [List.append_nil], hopened⟩
    · obtain ⟨more, frames, hmore, hawaits, hopened⟩ := h.enters number hnumber
      rw [List.append_assoc] at hawaits
      exact ⟨token :: more, frames, List.prefix_cons_inj _ |>.2 hmore, hawaits, hopened⟩
  offends := by
    intro offending hoffending
    obtain ⟨more, after, hsplit, hviable, hnot⟩ := h.offends offending hoffending
    rw [List.append_assoc before, List.singleton_append] at hviable hnot
    exact ⟨token :: more, after, by rw [List.cons_append, hsplit]; rfl, hviable, hnot⟩

theorem halted (hsplit : tokens ++ [stop] = token :: rest) (hviable : Viable before)
    (hnot : ¬ Viable (before ++ [token])) (hsteps : EntersAt before steps) :
    Account stop before tokens ((Program.halted token).prepend steps) where
  enters := by
    intro number hnumber
    rcases List.mem_append.1 hnumber with hnumber | hnumber
    · obtain ⟨frames, hawaits, hopened⟩ := hsteps number hnumber
      exact ⟨[], frames, List.nil_prefix, by rwa [List.append_nil], hopened⟩
    · cases hnumber
  offends := by
    intro offending hoffending
    obtain rfl : token = offending := Option.some.inj hoffending
    exact ⟨[], rest, hsplit, by rwa [List.append_nil], by rwa [List.append_nil]⟩

end Account

theorem enter_notMem_of_leaf? {token : Token} {step : Step} (hleaf : token.leaf? = some step)
    (frames : List Frame) (number : Nat) : .enter number ∉ step :: (closeFactor frames).1 := by
  rcases Token.leaf?_cases hleaf with ⟨-, value, -, rfl⟩ | ⟨-, rfl⟩
  · simpa using enter_notMem_closeFactor frames number
  · simpa using enter_notMem_closeFactor frames number

/-- The token can be a part of a sequence. -/
def Token.Inner (token : Token) : Prop :=
  token.Readable ∧ token.kind ≠ .endOfInput

theorem Token.readable_of_endOfInput {token : Token} (h : token.kind = .endOfInput) :
    token.Readable := by
  intro hkind
  rw [h] at hkind
  cases hkind

theorem forall_readable_concat {before : List Token} {token : Token}
    (hbefore : ∀ read ∈ before, read.Readable) (htoken : token.Readable) :
    ∀ read ∈ before ++ [token], read.Readable :=
  List.forall_mem_append.2 ⟨hbefore, List.forall_mem_singleton.2 htoken⟩

/-- Programs account for what they have read.  The cases follow the reading of one token. -/
theorem reading_account {stop : Token} (hstop : stop.kind = .endOfInput) :
    Reading stop
      (fun frames tokens program => (∀ token ∈ tokens, token.Inner) →
        ∀ before, (∀ token ∈ before, token.Readable) → before ++ tokens ≠ [] →
          Awaits .factor before frames → Account stop before tokens program)
      (fun frames tokens program => (∀ token ∈ tokens, token.Inner) →
        ∀ before, (∀ token ∈ before, token.Readable) → Ended before frames →
          Account stop before tokens program) where
  operandEnd := by
    intro frames _ before hbefore hne h
    have hleaf : stop.leaf? = none := by rw [Token.leaf?, hstop]
    have hopens : stop.opens? = none := by rw [Token.opens?, hstop]
    have hreadable := forall_readable_concat hbefore (Token.readable_of_endOfInput hstop)
    rw [List.append_nil] at hne
    exact .halted rfl h.viable (h.not_viable hreadable hleaf hopens fun _ => hne)
      (Account.entersAt_of_awaits h fun _ => List.not_mem_nil)
  leaf := by
    intro frames token rest step program hleaf hrest htokens before hbefore _ h
    rw [List.forall_mem_cons] at htokens
    have hreadable := forall_readable_concat hbefore htokens.1.1
    exact (hrest htokens.2 _ hreadable (h.leaf hleaf)).cons
      (Account.entersAt_of_awaits h (enter_notMem_of_leaf? hleaf frames))
  opening := by
    intro frames token rest frame program hopens hrest htokens before hbefore _ h
    rw [List.forall_mem_cons] at htokens
    have hreadable := forall_readable_concat hbefore htokens.1.1
    exact (hrest htokens.2 _ hreadable (by simp) (h.opening hopens)).cons
      (Account.entersAt_of_awaits h fun _ => List.not_mem_nil)
  operandOffends := by
    intro frames token rest hleaf hopens htokens before hbefore _ h
    rw [List.forall_mem_cons] at htokens
    have hreadable := forall_readable_concat hbefore htokens.1.1
    exact .halted rfl h.viable (h.not_viable hreadable hleaf hopens (absurd · htokens.1.2))
      (Account.entersAt_of_awaits h fun _ => List.not_mem_nil)
  closed := by
    intro frames _ _ before _ _
    refine ⟨fun number hnumber => absurd hnumber (enter_notMem_closeProduct frames number), ?_⟩
    intro token hoffending
    cases hoffending
  unclosed := by
    intro frames hclose _ before hbefore h
    have hoffends : Offends frames stop :=
      ⟨by rw [hstop]; rfl, by rw [hstop]; rfl, by simp [hstop]⟩
    have hreadable := forall_readable_concat hbefore (Token.readable_of_endOfInput hstop)
    show Account stop before [] ((halted stop).prepend [])
    exact .halted rfl h.viable (h.not_viable hreadable hoffends fun _ => hclose)
      (Account.entersAt_of_forall_notMem fun _ => List.not_mem_nil)
  multiplicative := by
    intro frames token rest operator program hoperator hrest htokens before hbefore h
    rw [List.forall_mem_cons] at htokens
    have hreadable := forall_readable_concat hbefore htokens.1.1
    show Account stop before (token :: rest) (program.prepend [])
    exact (hrest htokens.2 _ hreadable (by simp) (h.multiplicative hoperator)).cons
      (Account.entersAt_of_forall_notMem fun _ => List.not_mem_nil)
  additive := by
    intro frames token rest operator program hoperator hrest htokens before hbefore h
    rw [List.forall_mem_cons] at htokens
    have hreadable := forall_readable_concat hbefore htokens.1.1
    exact (hrest htokens.2 _ hreadable (by simp) (h.additive hoperator)).cons
      (Account.entersAt_of_forall_notMem (enter_notMem_closeProduct frames))
  closing := by
    intro frames outer token rest program hkind hclose hrest htokens before hbefore h
    rw [List.forall_mem_cons] at htokens
    have hreadable := forall_readable_concat hbefore htokens.1.1
    refine (hrest htokens.2 _ hreadable (h.closing hkind hclose)).cons
      (Account.entersAt_of_forall_notMem fun number hnumber => ?_)
    rcases List.mem_append.1 hnumber with hnumber | hnumber
    · exact enter_notMem_closeProduct frames number hnumber
    · exact enter_notMem_closeFactor outer number hnumber
  operatorOffends := by
    intro frames token rest hoffends htokens before hbefore h
    rw [List.forall_mem_cons] at htokens
    have hreadable := forall_readable_concat hbefore htokens.1.1
    show Account stop before (token :: rest) ((halted token).prepend [])
    exact .halted rfl h.viable (h.not_viable hreadable hoffends (absurd · htokens.1.2))
      (Account.entersAt_of_forall_notMem fun _ => List.not_mem_nil)

/-! ## The program of a sequence -/

namespace Program

variable {tokens : TokenSequence}

/-- The program of a sequence accounts for all its tokens. -/
theorem account_ofTokens (hreadable : ∀ token ∈ tokens.body, token.Readable)
    (hne : tokens.body ≠ []) :
    Account (Token.atEnd tokens.endPosition) [] tokens.body (ofTokens tokens) := by
  rw [ofTokens_of_body rfl hne]
  have hstart : Awaits .factor [] [] := .factorOfProduct (.productOfSum .start)
  exact ((reading_account rfl).program tokens.body).1 []
    (fun token htoken => ⟨hreadable token htoken, tokens.body_kind token htoken⟩) []
    (List.forall_mem_nil _) hne hstart

/-- An offending token is the first one with which the tokens are no beginning of an
expression. -/
theorem firstFault_of_offending {token : Token}
    (hreadable : ∀ token ∈ tokens.body, token.Readable)
    (h : (ofTokens tokens).offending = some token) :
    ∃ place, FirstFault tokens.toList place ∧ tokens.toList[place]? = some token := by
  have hne : tokens.body ≠ [] := by
    intro hnil
    rw [ofTokens, hnil] at h
    cases h
  obtain ⟨more, rest, hsplit, hviable, hnot⟩ :=
    (account_ofTokens hreadable hne).offends token h
  -- What is before the offending token begins an expression, so no earlier token is at fault.
  have hlist : tokens.toList = more ++ token :: rest := hsplit
  refine ⟨more.length, ⟨?_, ?_, fun earlier hearlier => ?_⟩, ?_⟩
  · rw [hlist, List.length_append, List.length_cons]
    omega
  · have htake : tokens.toList.take (more.length + 1) = more ++ [token] := by
      rw [hlist, List.take_length_add_append]
      rfl
    rw [htake]
    exact hnot
  · refine hviable.of_prefix ?_
    rw [hlist, List.nil_append, List.take_append_of_le_length (by omega)]
    exact List.take_prefix _ _
  · rw [hlist, List.getElem?_append_right (Nat.le_refl _), Nat.sub_self]
    rfl

/-- A step that enters a factor stands for a place where one has to begin. -/
theorem exists_awaits_of_enter {number : Nat} (hreadable : ∀ token ∈ tokens.body, token.Readable)
    (h : .enter number ∈ (ofTokens tokens).steps) :
    ∃ place frames, place ≤ tokens.body.length ∧
      Awaits .factor (tokens.body.take place) frames ∧ opened frames = number := by
  have hne : tokens.body ≠ [] := by
    intro hnil
    rw [ofTokens, hnil] at h
    simp at h
  obtain ⟨more, frames, hmore, hawaits, hopened⟩ :=
    (account_ofTokens hreadable hne).enters number h
  rw [List.prefix_iff_eq_take] at hmore
  rw [hmore] at hawaits
  have hle : more.length ≤ tokens.body.length := by
    rw [hmore, List.length_take]
    omega
  exact ⟨more.length, frames, hle, hawaits, hopened⟩

theorem exists_ofOperand_eq_prepend (stop : Token) (frames : List Frame) (tokens : List Token) :
    ∃ program, ofOperand stop frames tokens = prepend [.enter (opened frames)] program := by
  cases tokens with
  | nil => exact ⟨_, ofOperand.eq_1 ..⟩
  | cons token rest => exact ⟨_, ofOperand.eq_2 ..⟩

/-- Where a factor has to begin, the program enters one, after steps that are the same whatever
comes from there on. -/
theorem exists_steps_of_awaits {place : Nat} {frames : List Frame}
    (hreadable : ∀ token ∈ tokens.body, token.Readable)
    (h : Awaits .factor (tokens.body.take place) frames) :
    ∃ steps, ∀ others : TokenSequence, others.body ≠ [] →
      others.body.take place = tokens.body.take place →
      ∃ program, ofTokens others = prepend (steps ++ [.enter (opened frames)]) program := by
  obtain ⟨steps, hsteps⟩ :=
    h.ofOperand_append fun token htoken => hreadable token (List.mem_of_mem_take htoken)
  refine ⟨steps, fun others hothers hsame => ?_⟩
  obtain ⟨program, hprogram⟩ :=
    exists_ofOperand_eq_prepend (Token.atEnd others.endPosition) frames (others.body.drop place)
  have hsplit : others.body = tokens.body.take place ++ others.body.drop place := by
    rw [← hsame, List.take_append_drop]
  refine ⟨program, ?_⟩
  rw [ofTokens_of_body hsplit (hsplit ▸ hothers), hsteps, hprogram, prepend_prepend]

end Program

end Reckoner
