/-
  Reckoner.Proofs.Evaluation.Messages

  Results are shown on single lines.

  A number is written without line feeds.  What the message of an error quotes is part of a text
  that has been read, or comes from an answer.  So where the expression and all answers are single
  lines, the message is one too (`worded_evaluateText`).
-/
import Reckoner.Evaluation.Lemmas
import Reckoner.Proofs.Decimal.RoundTrip
import Reckoner.Proofs.Syntax.Prefixes

namespace Reckoner

/-! ## Single lines -/

/-- The text has no line feed. -/
def SingleLine (text : String) : Prop :=
  '\n' ∉ text.toList

instance : DecidablePred SingleLine :=
  fun text => inferInstanceAs (Decidable ('\n' ∉ text.toList))

theorem singleLine_append_iff {first second : String} :
    SingleLine (first ++ second) ↔ SingleLine first ∧ SingleLine second := by
  simp [SingleLine]

theorem SingleLine.append {first second : String} (h : SingleLine first)
    (h' : SingleLine second) : SingleLine (first ++ second) :=
  singleLine_append_iff.2 ⟨h, h'⟩

/-- What is taken from a single line is a single line. -/
theorem SingleLine.of_subset {text part : String} (h : SingleLine text)
    (hpart : part.toList ⊆ text.toList) : SingleLine part :=
  fun hmem => h (hpart hmem)

theorem singleLine_ofList_of_isDigit {digits : List Char} (h : ∀ c ∈ digits, c.isDigit) :
    SingleLine (String.ofList digits) := by
  rw [SingleLine, String.toList_ofList]
  exact fun hmem => absurd (h _ hmem) (by decide)

theorem singleLine_toString (n : Nat) : SingleLine (toString n) :=
  singleLine_ofList_of_isDigit Numeral.isDigit_of_mem_toDigits

/-- A number is written on a single line. -/
theorem singleLine_ofFloat (x : Float) : SingleLine (Numeral.ofFloat x) := by
  have hdigit : ∀ c : Char, c.isDigit → decide (c ≠ '\n') := by
    intro c hc
    refine decide_eq_true ?_
    rintro rfl
    exact absurd hc (by decide)
  have hall := Numeral.all_ofFloat hdigit (by decide) (by decide) (by decide) (by decide) x
  exact fun hmem => of_decide_eq_true (List.all_eq_true.1 hall _ hmem) rfl

/-! ## What messages quote -/

/-- The part of a text that the message of an error quotes. -/
def LexError.quoted : LexError → String
  | .malformedNumber literal _ => literal
  | .unrecognizedIdentifier name _ => name
  | .unexpectedCharacter char _ => String.singleton char

/-- The texts that the message of an error quotes. -/
def EvalError.quoted : EvalError → List String
  | .lexical error => [error.quoted]
  | .unexpectedToken found _ => [found]
  | .unknownIdentifier name => [name]
  | .invalidIdentifier name => [name]
  | .unanswered name reason => [name, reason]
  | .nestingLimit _ => []

theorem LexError.singleLine_message {error : LexError} (h : SingleLine error.quoted) :
    SingleLine error.message := by
  cases error with
  | malformedNumber _ position | unrecognizedIdentifier _ position
  | unexpectedCharacter _ position =>
      exact ((SingleLine.append (by decide) h).append (by decide)).append
        (singleLine_toString position)

/-- Nothing but what a message quotes could end its line. -/
theorem EvalError.singleLine_message {error : EvalError}
    (h : ∀ text ∈ error.quoted, SingleLine text) : SingleLine error.message := by
  cases error with
  | lexical error => exact LexError.singleLine_message (h _ List.mem_cons_self)
  | unexpectedToken found position =>
      exact ((SingleLine.append (by decide) (h _ List.mem_cons_self)).append (by decide)).append
        (singleLine_toString position)
  | unknownIdentifier name | invalidIdentifier name =>
      exact (SingleLine.append (by decide) (h _ List.mem_cons_self)).append (by decide)
  | unanswered name reason =>
      have hname : SingleLine name := h _ List.mem_cons_self
      have hreason : SingleLine reason := h _ (List.mem_cons_of_mem _ List.mem_cons_self)
      exact ((SingleLine.append (by decide) hname).append (by decide)).append hreason
  | nestingLimit limit => exact SingleLine.append (by decide) (singleLine_toString limit)

/-! ## What is read of a text -/

/-- The tokens and the fault are made of characters of the text. -/
structure Scan.Within (scan : Scan) (text : List Char) : Prop where
  tokens : ∀ token ∈ scan.tokens, token.text.toList ⊆ text
  fault : ∀ fault ∈ scan.fault, fault.quoted.toList ⊆ text

namespace Scan.Within

variable {scan : Scan} {text : List Char}

theorem empty (text : List Char) : Within {} text where
  tokens := nofun
  fault := nofun

theorem cons (h : Within scan text) {token : Token} (htoken : token.text.toList ⊆ text) :
    Within (scan.cons token) text where
  tokens := List.forall_mem_cons.2 ⟨htoken, h.tokens⟩
  fault := h.fault

theorem stopped {fault : LexError} (h : fault.quoted.toList ⊆ text) :
    Within (.stopped fault) text where
  tokens := nofun
  fault := by
    rintro _ ⟨⟩
    exact h

theorem mono (h : Within scan text) {more : List Char} (hmore : text ⊆ more) :
    Within scan more where
  tokens := fun token htoken => List.Subset.trans (h.tokens token htoken) hmore
  fault := fun fault hfault => List.Subset.trans (h.fault fault hfault) hmore

theorem append {second : Scan} (h : Within scan text) (h' : Within second text) :
    Within (scan.append second) text := by
  obtain ⟨tokens, fault⟩ := scan
  cases fault with
  | some fault => exact h
  | none => exact ⟨List.forall_mem_append.2 ⟨h.tokens, h'.tokens⟩, h'.fault⟩

end Scan.Within

namespace Lexer

open Scan

theorem within_splitWord (names : KnownNames) (position : Nat) (word : List Char) :
    (splitWord names position word).Within word := by
  fun_induction splitWord names position word with
  | case1 => exact .empty _
  | case2 position first rest word window extent _ ih =>
      refine (ih.mono ?_).cons ?_
      · exact List.Subset.trans (List.drop_subset _ _) (List.subset_cons_self _ _)
      · rw [String.toList_ofList]
        exact List.take_subset _ _
  | case3 =>
      refine .stopped ?_
      rw [LexError.quoted, String.toList_ofList]
      exact List.Subset.refl _

/-- What is read of a text is made of its characters. -/
theorem within_scan (names : KnownNames) (position : Nat) (text : List Char) :
    (scan names position text).Within text := by
  have hrun (p : Char → Bool) (first : Char) (rest : List Char) :
      first :: rest.takeWhile p ⊆ first :: rest :=
    List.cons_subset_cons _ (List.takeWhile_prefix p).subset
  have hafter (p : Char → Bool) (first : Char) (rest : List Char) :
      rest.dropWhile p ⊆ first :: rest :=
    List.Subset.trans (List.dropWhile_suffix p).subset (List.subset_cons_self _ _)
  fun_induction scan names position text with
  | case1 => exact .empty _
  | case2 position first rest _ ih => exact ih.mono (List.subset_cons_self _ _)
  | case3 position first rest _ kind _ ih =>
      exact (ih.mono (List.subset_cons_self _ _)).cons (by simp)
  | case4 position first rest _ _ _ literal _ =>
      refine .stopped ?_
      rw [LexError.quoted, String.toList_ofList]
      exact hrun _ first rest
  | case5 position first rest _ _ _ literal _ ih =>
      refine (ih.mono (hafter _ first rest)).cons ?_
      rw [String.toList_ofList]
      exact hrun _ first rest
  | case6 position first rest _ _ _ _ word after _ ih =>
      refine (ih.mono (hafter _ first rest)).cons ?_
      rw [String.toList_ofList]
      exact hrun _ first rest
  | case7 position first rest _ _ _ _ word after _ ih =>
      exact ((within_splitWord names position word).mono (hrun _ first rest)).append
        (ih.mono (hafter _ first rest))
  | case8 position first rest => exact .stopped (by simp [LexError.quoted])

end Lexer

namespace Token

/-- The token's text is a single line, and denotes a number if the token is one. -/
structure Plain (token : Token) : Prop where
  singleLine : SingleLine token.text
  readable : token.Readable

/-- A number in place of a variable is written on a single line. -/
theorem Plain.substitute {token : Token} (h : token.Plain) (name : String) (value : Float) :
    (token.substitute name value).Plain := by
  rw [Token.substitute]
  split
  · exact ⟨singleLine_ofFloat value, fun _ => ⟨value, Numeral.read_ofFloat value⟩⟩
  · exact h

theorem singleLine_describe {token : Token} (h : SingleLine token.text) :
    SingleLine token.describe := by
  rw [describe]
  split
  · decide
  · exact h

end Token

/-- The tokens of a single line are plain. -/
theorem plain_of_tokenize {names : KnownNames} {text : String} {tokens : TokenSequence}
    (h : tokenize names text = .ok tokens) (htext : SingleLine text) :
    ∀ token ∈ tokens.body, token.Plain := by
  intro token htoken
  refine ⟨?_, readable_of_tokenize h token htoken⟩
  rw [body_of_tokenize h] at htoken
  exact htext.of_subset ((Lexer.within_scan names 0 text.toList).tokens token htoken)

/-- A fault in a single line is quoted as one. -/
theorem singleLine_of_tokenize {names : KnownNames} {text : String} {error : LexError}
    (h : tokenize names text = .error error) (htext : SingleLine text) :
    SingleLine error.quoted := by
  refine htext.of_subset ((Lexer.within_scan names 0 text.toList).fault error ?_)
  unfold tokenize at h
  simp only at h
  split at h
  · next hfault => rw [hfault, ← Except.error.inj h]; exact rfl
  · cases h

/-! ## Single lines in a program -/

namespace Step

/-- What the step names is a single line. -/
def Plain : Step → Prop
  | .load name => SingleLine name
  | .apply name _ => SingleLine name
  | .enter _ | .literal _ | .negate | .combine _ => True

end Step

namespace Program

variable {tokens : TokenSequence}

theorem plain_of_mem_steps (h : ∀ token ∈ tokens.body, token.Plain) {step : Step}
    (hstep : step ∈ (ofTokens tokens).steps) : step.Plain := by
  cases step with
  | load name =>
      obtain ⟨token, htoken, -, rfl⟩ := exists_of_load_mem_steps hstep
      exact (h token htoken).singleLine
  | apply name number =>
      obtain ⟨⟨token, htoken, -, rfl⟩, -⟩ := exists_of_apply_mem_steps hstep
      exact (h token htoken).singleLine
  | enter | literal | negate | combine => trivial

theorem singleLine_of_offending (h : ∀ token ∈ tokens.body, token.Plain) {token : Token}
    (hoffending : (ofTokens tokens).offending = some token) : SingleLine token.describe := by
  obtain ⟨place, -, hplace⟩ :=
    firstFault_of_offending (fun token htoken => (h token htoken).readable) hoffending
  rcases List.mem_append.1 (List.mem_of_getElem? hplace) with hbody | hend
  · exact Token.singleLine_describe (h token hbody).singleLine
  · rw [List.mem_singleton.1 hend]
    exact Token.singleLine_describe (show SingleLine "" by decide)

end Program

/-! ## The wording of an evaluation -/

/-- A resolver that is in some of its states gives single lines for single lines, and is in one of
them afterwards. -/
structure AnswersInLines {ρ : Type} [Resolver ρ] (invariant : ρ → Prop) : Prop where
  value : ∀ resolver name, invariant resolver → SingleLine name →
    invariant (Resolver.value resolver name).2 ∧
      ∀ reason, (Resolver.value resolver name).1 = .error reason → SingleLine reason
  function : ∀ resolver name, invariant resolver → SingleLine name →
    invariant (Resolver.function resolver name).2 ∧
      match (Resolver.function resolver name).1 with
      | .ok function => SingleLine function.placeholder ∧ SingleLine function.body
      | .error reason => SingleLine reason

namespace Evaluation

variable {ρ α β : Type} {invariant : ρ → Prop}

/-- The computation keeps the resolver's invariant.  A value has the property, and an error is
worded on a single line. -/
def Worded (invariant : ρ → Prop) (computation : Evaluation ρ α) (property : α → Prop) : Prop :=
  ∀ state, invariant state.resolver →
    invariant (computation state).2.resolver ∧
      match (computation state).1 with
      | .ok value => property value
      | .error error => SingleLine error.message

variable {property : α → Prop} {property' : β → Prop}

theorem worded_pure {value : α} (h : property value) :
    Worded invariant (pure value : Evaluation ρ α) property :=
  fun _ hstate => ⟨hstate, h⟩

theorem worded_throw {error : EvalError} (h : ∀ text ∈ error.quoted, SingleLine text) :
    Worded invariant (throw error : Evaluation ρ α) property :=
  fun _ hstate => ⟨hstate, EvalError.singleLine_message h⟩

theorem Worded.bind {first : Evaluation ρ α} {next : α → Evaluation ρ β}
    (h : Worded invariant first property)
    (hnext : ∀ value, property value → Worded invariant (next value) property') :
    Worded invariant (first >>= next) property' :=
  Yields.bind h hnext

theorem worded_foldlM {step : β → α → Evaluation ρ β} {items : List α}
    (hstep : ∀ item ∈ items, ∀ value, Worded invariant (step value item) fun _ => True)
    (value : β) : Worded invariant (items.foldlM step value) fun _ => True :=
  yields_foldlM hstep value

theorem worded_readText {text : String} (htext : SingleLine text)
    (extend : KnownNames → KnownNames) :
    Worded invariant (readText text extend : Evaluation ρ TokenSequence)
      fun tokens => ∀ token ∈ tokens.body, token.Plain := by
  intro state hstate
  rw [readText_apply]
  cases hlexed : tokenize (extend state.environment.knownNames) text with
  | ok tokens => exact ⟨hstate, plain_of_tokenize hlexed htext⟩
  | error error =>
      exact ⟨hstate, LexError.singleLine_message (singleLine_of_tokenize hlexed htext)⟩

variable [Resolver ρ]

theorem worded_resolve (h : AnswersInLines invariant) {name : String} (hname : SingleLine name) :
    Worded invariant (resolve name : Evaluation ρ Float) fun _ => True := by
  intro state hstate
  rw [resolve]
  rcases state.environment.entries.find? name with _ | _ | value
  · exact ⟨hstate, EvalError.singleLine_message (by simpa [EvalError.quoted] using hname)⟩
  · obtain ⟨hafter, hreason⟩ := h.value state.resolver name hstate hname
    simp only [askValue]
    generalize Resolver.value state.resolver name = answer at hafter hreason ⊢
    rcases answer with ⟨reason | value, resolver⟩
    · refine ⟨hafter, EvalError.singleLine_message ?_⟩
      simpa [EvalError.quoted] using ⟨hname, hreason reason rfl⟩
    · exact ⟨hafter, trivial⟩
  · exact ⟨hstate, trivial⟩

theorem worded_askFunction (h : AnswersInLines invariant) {name : String}
    (hname : SingleLine name) :
    Worded invariant (askFunction name : Evaluation ρ UserFunction) fun function =>
      SingleLine function.placeholder ∧ SingleLine function.body := by
  intro state hstate
  obtain ⟨hafter, hanswer⟩ := h.function state.resolver name hstate hname
  rw [askFunction]
  generalize Resolver.function state.resolver name = answer at hafter hanswer ⊢
  rcases answer with ⟨reason | function, resolver⟩
  · refine ⟨hafter, EvalError.singleLine_message ?_⟩
    simpa [EvalError.quoted] using ⟨hname, hanswer⟩
  · exact ⟨hafter, hanswer⟩

theorem worded_bindVariables (h : AnswersInLines invariant) {tokens : List Token}
    (htokens : ∀ token ∈ tokens, token.Plain) :
    Worded invariant (bindVariables tokens : Evaluation ρ Unit) fun _ => True :=
  yields_forM fun token htoken =>
    Yields.discard (worded_resolve h (htokens token (List.mem_filter.1 htoken).1).singleLine)

theorem worded_applyFunction (h : AnswersInLines invariant)
    {evaluate : TokenSequence → Evaluation ρ Float}
    (hevaluate : ∀ tokens : TokenSequence, (∀ token ∈ tokens.body, token.Plain) →
      Worded invariant (evaluate tokens) fun _ => True)
    {name : String} (hname : SingleLine name) (argument : Float) :
    Worded invariant (applyFunction evaluate name argument) fun _ => True := by
  rw [applyFunction]
  cases BuiltIn.ofName? name with
  | some function => exact worded_pure trivial
  | none =>
      refine (worded_askFunction h hname).bind fun function hfunction => ?_
      split
      · refine (worded_readText hfunction.2 _).bind fun tokens htokens => ?_
        refine hevaluate _ fun token htoken => ?_
        obtain ⟨before, hbefore, rfl⟩ := List.mem_map.1 htoken
        exact (htokens before hbefore).substitute function.placeholder argument
      · exact worded_throw (by simpa [EvalError.quoted] using hfunction.1)

theorem worded_takeStep (h : AnswersInLines invariant)
    {apply : Nat → String → Float → Evaluation ρ Float}
    (happly : ∀ opened name argument, SingleLine name →
      Worded invariant (apply opened name argument) fun _ => True)
    (room : Nat) (stack : List Float) {step : Step} (hstep : step.Plain) :
    Worded invariant (takeStep room apply stack step) fun _ => True := by
  refine yields_takeStep stack (EvalError.singleLine_message (List.forall_mem_nil _)) ?_ ?_
  · rintro name rfl
    exact worded_resolve h hstep
  · rintro name opened argument rfl
    exact happly opened name argument hstep

theorem worded_evaluateTokens (h : AnswersInLines invariant) (room : Nat)
    {tokens : TokenSequence} (htokens : ∀ token ∈ tokens.body, token.Plain) :
    Worded invariant (evaluateTokens room tokens : Evaluation ρ Float) fun _ => True := by
  -- A body has less room than the application it belongs to.
  induction room using Nat.strongRecOn generalizing tokens with
  | ind room ih =>
      rw [evaluateTokens]
      refine (worded_bindVariables h htokens).bind fun _ _ => ?_
      rw [runProgram]
      refine (worded_foldlM (fun step hstep stack => worded_takeStep h ?_ room stack
        (Program.plain_of_mem_steps htokens hstep)) []).bind fun stack _ => ?_
      · intro opened name argument hname
        split
        · next hroom =>
            exact worded_applyFunction h
              (fun tokens htokens => ih _ (by omega) htokens) hname argument
        · exact worded_throw (List.forall_mem_nil _)
      · cases hoffending : (Program.ofTokens tokens).offending with
        | some token =>
            exact worded_throw (by
              simpa [EvalError.quoted] using Program.singleLine_of_offending htokens hoffending)
        | none => exact worded_pure trivial

/-- Where an expression and all answers are single lines, messages are single lines. -/
theorem worded_evaluateText (h : AnswersInLines invariant) {text : String}
    (htext : SingleLine text) :
    Worded invariant (evaluateText text : Evaluation ρ Float) fun _ => True :=
  (worded_readText htext id).bind fun _ htokens => worded_evaluateTokens h nestingLimit htokens

end Evaluation

end Reckoner
