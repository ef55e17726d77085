/-
  Reckoner.Proofs.Evaluation.CallDepth

  How deep the calls of an expression go if it has a value (`Evaluator.bounded_of_evaluate`).

  The bodies that tables give are known beforehand, and so is which functions they call.  An
  evaluation that comes to a value has carried out all calls of all texts it has read, each of them
  with room for the two factors of its argument.  A body has less room than the text that calls it.
  So the calls go no deeper than there is room, and none leads back to where it came from.
-/
import Mathlib.Logic.Relation
import Reckoner.Proofs.Evaluation.Requests
import Reckoner.Proofs.Syntax.Applications

namespace Reckoner

open Relation

/-! ## Functions that reach others -/

namespace Tables

variable {tables : Tables} {depth : Nat} {name : String}

/-- The function is not built in, and its body calls the other one. -/
def Reaches (tables : Tables) (name called : String) : Prop :=
  BuiltIn.ofName? name = none ∧
    ∃ function, tables.functions.find? name = some function ∧ Calls function.body called

/-- The function is built in, or it has a body with a placeholder and all calls of the body are
bounded by one less. -/
def Bounded (tables : Tables) : Nat → String → Prop
  | 0, name => (BuiltIn.ofName? name).isSome
  | depth + 1, name => (BuiltIn.ofName? name).isSome ∨
      ∃ function, tables.functions.find? name = some function ∧
        isIdentifier function.placeholder ∧
        ∀ called, Calls function.body called → tables.Bounded depth called

namespace Bounded

theorem succ (h : tables.Bounded depth name) : tables.Bounded (depth + 1) name := by
  induction depth generalizing name with
  | zero => exact .inl h
  | succ depth ih =>
      obtain hbuiltIn | ⟨function, hfunction, hplaceholder, hcalls⟩ := h
      · exact .inl hbuiltIn
      · exact .inr ⟨function, hfunction, hplaceholder, fun called hcalled => ih (hcalls called hcalled)⟩

theorem mono {depth' : Nat} (h : tables.Bounded depth name) (hle : depth ≤ depth') :
    tables.Bounded depth' name :=
  Nat.le_induction h (fun _ _ => succ) depth' hle

/-- What is not built in has a body, and the calls of the body are bounded by less. -/
theorem exists_function (h : tables.Bounded depth name) (hname : BuiltIn.ofName? name = none) :
    ∃ less function, depth = less + 1 ∧ tables.functions.find? name = some function ∧
      isIdentifier function.placeholder ∧
      ∀ called, Calls function.body called → tables.Bounded less called := by
  cases depth with
  | zero =>
      rw [Bounded, hname] at h
      cases h
  | succ depth =>
      rw [Bounded, hname] at h
      obtain ⟨function, hfunction, hplaceholder, hcalls⟩ := h.resolve_left nofun
      exact ⟨depth, function, rfl, hfunction, hplaceholder, hcalls⟩

/-- A call goes one deeper. -/
theorem exists_of_reaches {called : String} (h : tables.Bounded depth name)
    (hreaches : tables.Reaches name called) :
    ∃ less, depth = less + 1 ∧ tables.Bounded less called := by
  obtain ⟨hname, function, hfunction, hcalls⟩ := hreaches
  obtain ⟨less, function', hdepth, hfunction', -, hbounded⟩ := h.exists_function hname
  obtain rfl : function = function' := Option.some.inj (hfunction.symm.trans hfunction')
  exact ⟨less, hdepth, hbounded called hcalls⟩

theorem of_reflTransGen {reached : String} (h : tables.Bounded depth name)
    (hreached : ReflTransGen tables.Reaches name reached) : tables.Bounded depth reached := by
  induction hreached with
  | refl => exact h
  | tail _ hreaches ih =>
      obtain ⟨less, rfl, hless⟩ := ih.exists_of_reaches hreaches
      exact hless.succ

/-- Nothing is reached from itself. -/
theorem not_transGen_self (h : tables.Bounded depth name) :
    ¬ TransGen tables.Reaches name name := by
  induction depth generalizing name with
  | zero =>
      intro hcycle
      obtain ⟨next, hreaches, -⟩ := TransGen.head'_iff.1 hcycle
      obtain ⟨less, hdepth, -⟩ := h.exists_of_reaches hreaches
      cases hdepth
  | succ depth ih =>
      intro hcycle
      -- The next function on the cycle is on it as well, and is bounded by less.
      obtain ⟨next, hreaches, hback⟩ := TransGen.head'_iff.1 hcycle
      obtain ⟨less, hdepth, hless⟩ := h.exists_of_reaches hreaches
      obtain rfl := Nat.succ.inj hdepth
      exact ih hless (TransGen.tail' hback hreaches)

/-- There are no more functions in a chain than the bound says. -/
theorem length_le {rest : List String} (h : tables.Bounded depth name)
    (hchain : (name :: rest).IsChain tables.Reaches)
    (hnames : ∀ member ∈ name :: rest, BuiltIn.ofName? member = none) :
    (name :: rest).length ≤ depth := by
  induction rest generalizing depth name with
  | nil =>
      obtain ⟨less, -, rfl, -⟩ := h.exists_function (hnames name List.mem_cons_self)
      exact Nat.succ_le_succ (Nat.zero_le less)
  | cons next rest ih =>
      obtain ⟨hreaches, hrest⟩ := List.isChain_cons_cons.1 hchain
      obtain ⟨less, rfl, hless⟩ := h.exists_of_reaches hreaches
      exact Nat.succ_le_succ (ih hless hrest fun member hmember =>
        hnames member (List.mem_cons_of_mem _ hmember))

end Bounded

end Tables

/-! ## Courses that stop at nothing -/

namespace Course

variable {tables : Tables} {fact fact' : Prop} {inquiry : Inquiry Tables}

/-- If the course does not stop the fact holds, and the resolver is the tables as before. -/
def Grants (tables : Tables) (fact : Prop) (course : Course Tables) : Prop :=
  ∀ inquiry, course.reached = some inquiry → inquiry.resolver = tables ∧ fact

theorem grants_stopped : Grants tables fact .stopped :=
  nofun

theorem grants_proceed (hresolver : inquiry.resolver = tables) (h : fact) :
    inquiry.proceed.Grants tables fact := by
  rintro _ ⟨⟩
  exact ⟨hresolver, h⟩

theorem Grants.andThen {first : Course Tables} {next : Inquiry Tables → Course Tables}
    (hfirst : first.Grants tables fact)
    (hnext : ∀ inquiry, inquiry.resolver = tables → fact → (next inquiry).Grants tables fact') :
    (first.andThen next).Grants tables fact' := by
  intro inquiry hreached
  rw [Course.andThen] at hreached
  split at hreached
  · next middle hmiddle =>
      obtain ⟨hresolver, h⟩ := hfirst middle hmiddle
      exact hnext middle hresolver h inquiry hreached
  · next hnone =>
      rw [hnone] at hreached
      cases hreached

end Course

namespace Inquiry

open Course

variable {tables : Tables} {inquiry : Inquiry Tables}

theorem grants_askValues (asked : List String) (hresolver : inquiry.resolver = tables) :
    (inquiry.askValues asked).Grants tables True := by
  induction asked generalizing inquiry with
  | nil => exact grants_proceed hresolver trivial
  | cons name rest ih =>
      have hfirst : (inquiry.askValue name).Grants tables True := by
        rw [askValue, hresolver]
        cases hvalue : tables.«variables».find? name with
        | some value =>
            rw [Tables.value_of_some hvalue]
            rintro _ ⟨⟩
            exact ⟨rfl, trivial⟩
        | none =>
            rw [Tables.value_of_none hvalue]
            rintro _ ⟨⟩
      exact hfirst.andThen fun inquiry hresolver _ => ih hresolver

/-- Every factor that is entered is within the room, and all applications do not stop. -/
theorem grants_follow {room : Nat} {apply : Nat → String → Inquiry Tables → Course Tables}
    {applied : Nat → String → Prop}
    (happly : ∀ opened name inquiry, inquiry.resolver = tables →
      (apply opened name inquiry).Grants tables (applied opened name))
    (steps : List Step) (hresolver : inquiry.resolver = tables) :
    (inquiry.follow room apply steps).Grants tables
      ((∀ number, .enter number ∈ steps → number < room) ∧
        ∀ name opened, .apply name opened ∈ steps → applied opened name) := by
  induction steps generalizing inquiry with
  | nil => exact grants_proceed hresolver ⟨nofun, nofun⟩
  | cons step rest ih =>
      cases step with
      | enter opened =>
          rw [follow]
          by_cases hroom : opened < room
          · rw [if_pos hroom]
            intro reached hreached
            obtain ⟨hresolver', henter, happlied⟩ := ih hresolver reached hreached
            refine ⟨hresolver', fun number hnumber => ?_, fun name number hname => ?_⟩
            · rcases List.mem_cons.1 hnumber with hnumber | hnumber
              · rwa [Step.enter.inj hnumber]
              · exact henter number hnumber
            · exact happlied name number (by simpa using hname)
          · rw [if_neg hroom]
            exact grants_stopped
      | apply function opened =>
          rw [follow]
          refine (happly opened function inquiry hresolver).andThen
            fun middle hmiddle hfirst reached hreached => ?_
          obtain ⟨hresolver', henter, happlied⟩ := ih hmiddle reached hreached
          refine ⟨hresolver', fun number hnumber => ?_, fun name number hname => ?_⟩
          · exact henter number (by simpa using hnumber)
          · rcases List.mem_cons.1 hname with hname | hname
            · obtain ⟨rfl, rfl⟩ := Step.apply.inj hname
              exact hfirst
            · exact happlied name number hname
      | literal | load | negate | combine => simpa [follow] using ih hresolver

/-- A function that is not built in has a body, which is evaluated without a stop. -/
theorem grants_applyFunction {names : KnownNames}
    {evaluate : Option String → TokenSequence → Inquiry Tables → Course Tables}
    {evaluated : UserFunction → Prop}
    (hevaluate : ∀ function tokens inquiry, inquiry.resolver = tables →
      tokenize (names.adding function.placeholder) function.body = .ok tokens →
      (evaluate (some function.placeholder) tokens inquiry).Grants tables (evaluated function))
    (name : String) (hresolver : inquiry.resolver = tables) :
    (inquiry.applyFunction names evaluate name).Grants tables
      ((BuiltIn.ofName? name).isSome ∨
        ∃ function, tables.functions.find? name = some function ∧
          isIdentifier function.placeholder ∧ evaluated function) := by
  rw [applyFunction]
  cases hname : BuiltIn.ofName? name with
  | some function => exact grants_proceed hresolver (.inl rfl)
  | none =>
      simp only [hresolver]
      cases hfunction : tables.functions.find? name with
      | none =>
          rw [Tables.function_of_none hfunction]
          rintro _ ⟨⟩
      | some function =>
          rw [Tables.function_of_some hfunction]
          have hasked : (⟨[.function name], some ⟨inquiry.isBound, tables⟩⟩ : Course Tables).Grants
              tables True := by
            rintro _ ⟨⟩
            exact ⟨rfl, trivial⟩
          refine hasked.andThen fun inquiry hresolver _ => ?_
          by_cases hplaceholder : isIdentifier function.placeholder
          · rw [if_pos hplaceholder]
            cases hlexed : tokenize (names.adding function.placeholder) function.body with
            | error error => exact grants_stopped
            | ok tokens =>
                intro reached hreached
                obtain ⟨hresolver', hevaluated⟩ :=
                  hevaluate function tokens inquiry hresolver hlexed reached hreached
                exact ⟨hresolver', .inr ⟨function, rfl, hplaceholder, hevaluated⟩⟩
          · rw [if_neg hplaceholder]
            exact grants_stopped

/-- Where a text is evaluated without a stop, its calls are bounded by the room, less that for an
argument. -/
theorem grants_ofTokens {names lexed : KnownNames} (room : Nat) (hidden : Option String)
    {text : String} {tokens : TokenSequence} (hlexed : tokenize lexed text = .ok tokens)
    (hresolver : inquiry.resolver = tables) :
    (inquiry.ofTokens names room hidden tokens).Grants tables
      (∀ called, Calls text called → tables.Bounded (room - 2) called) := by
  induction room using Nat.strongRecOn generalizing hidden lexed text tokens inquiry with
  | ind room ih =>
      have happly (opened : Nat) (name : String) (inquiry : Inquiry Tables)
          (hresolver : inquiry.resolver = tables) :
          (if opened < room then inquiry.applyFunction names
                (ofTokens names (room - (opened + 1))) name
            else .stopped).Grants tables (tables.Bounded (room - (opened + 1) - 2 + 1) name) := by
        by_cases hroom : opened < room
        · rw [if_pos hroom]
          exact grants_applyFunction (fun function tokens inquiry hresolver hlexed =>
            ih _ (by omega) _ hlexed hresolver) name hresolver
        · rw [if_neg hroom]
          exact grants_stopped
      rw [ofTokens]
      refine (grants_askValues _ hresolver).andThen fun inquiry hresolver _ => ?_
      refine (grants_follow happly _ hresolver).andThen fun inquiry hresolver hgranted => ?_
      obtain ⟨henters, happlies⟩ := hgranted
      cases hoffending : (Program.ofTokens tokens).offending with
      | some token => exact grants_stopped
      | none =>
          refine grants_proceed hresolver fun called hcalls => ?_
          obtain ⟨number, happly, henter⟩ :=
            Program.exists_apply_of_calls hlexed hoffending hcalls
          have hroom := henters _ henter
          exact (happlies called number happly).mono (by omega)

end Inquiry

/-- If an expression has a value, its calls are bounded by the nesting limit, less two. -/
theorem Evaluator.bounded_of_evaluate {evaluator : Evaluator Tables} {value : Float}
    (h : evaluator.evaluate.result = .ok value) {called : String}
    (hcalls : Calls evaluator.expression called) :
    evaluator.resolver.Bounded (nestingLimit - 2) called := by
  let start : EvalState Tables :=
    { environment := evaluator.environment, resolver := evaluator.resolver }
  have hreached := (Takes.evaluateText evaluator.expression start).reached
  have hresult : (Evaluation.evaluateText evaluator.expression start).1 = .ok value := h
  rw [hresult, Inquiry.ofText] at hreached
  cases hlexed : Reckoner.tokenize start.environment.knownNames evaluator.expression with
  | error error =>
      rw [hlexed] at hreached
      cases hreached
  | ok tokens =>
      rw [hlexed] at hreached
      exact (Inquiry.grants_ofTokens nestingLimit none hlexed rfl _ hreached).2 called hcalls

end Reckoner
