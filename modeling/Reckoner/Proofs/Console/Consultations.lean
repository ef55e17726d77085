/-
  Reckoner.Proofs.Console.Consultations

  What an evaluation asks the user.

  Every prompt is followed by one read, so an evaluation adds a list of consultations to the
  dialogue, and takes from the input just what they have read (`Consults`).  It ends with the first
  in which no line is read, because the read fails or the input has ended.  It asks for a value only
  while the name is open, and for a function in two consultations, one right after the other.

  An evaluation does not look at what has happened before (`unaware_evaluateText`), and as all that
  the user types are single lines, its result is shown on one (`isLine_shown`).
-/
import Reckoner.Proofs.Console.Lines
import Reckoner.Proofs.Evaluation.Entries

namespace Reckoner.Console

/-! ## What has happened before -/

namespace Dialogue

/-- The dialogue with events put before its own. -/
def precede (past : List Event) (dialogue : Dialogue) : Dialogue :=
  { dialogue with events := past ++ dialogue.events }

theorem ask_precede (past : List Event) (dialogue : Dialogue) (prompt : Prompt) :
    (dialogue.precede past).ask prompt = (dialogue.ask prompt).map id (precede past) := by
  simp [ask, precede]

theorem value_precede (past : List Event) (dialogue : Dialogue) (name : String) :
    Resolver.value (dialogue.precede past) name
      = (Resolver.value dialogue name).map id (precede past) := by
  simp only [Resolver.value, ask_precede]
  rcases dialogue.ask (.value name) with ⟨reason | line, after⟩
  · rfl
  · rfl

theorem function_precede (past : List Event) (dialogue : Dialogue) (name : String) :
    Resolver.function (dialogue.precede past) name
      = (Resolver.function dialogue name).map id (precede past) := by
  simp only [Resolver.function, ask_precede]
  rcases dialogue.ask (.placeholder name) with ⟨reason | placeholder, after⟩
  · rfl
  · simp only [Prod.map, id, ask_precede]
    rcases after.ask (.body name placeholder) with ⟨reason | body, after⟩ <;> rfl

end Dialogue

/-- The state with events put before those of its dialogue. -/
def precede (past : List Event) (state : EvalState Dialogue) : EvalState Dialogue :=
  { state with resolver := state.resolver.precede past }

/-- The computation comes to the same whatever has happened before, and leaves that as it was. -/
def Unaware (past : List Event) {α : Type} (computation : Evaluation Dialogue α) : Prop :=
  ∀ state, computation (precede past state) = (computation state).map id (precede past)

theorem closed_unaware (past : List Event) : Evaluation.Closed (Unaware past) where
  pure := fun _ _ => rfl
  throw := fun _ _ _ => rfl
  bind := by
    intro α β first next hfirst hnext state
    rw [Evaluation.bind_apply, Evaluation.bind_apply, hfirst state]
    rcases first state with ⟨error | value, after⟩
    · rfl
    · exact hnext value after
  resolve := by
    intro name state
    simp only [Evaluation.resolve, precede]
    rcases state.environment.entries.find? name with _ | _ | value
    · rfl
    · simp only [Evaluation.askValue, Dialogue.value_precede]
      rcases Resolver.value state.resolver name with ⟨reason | value, after⟩ <;> rfl
    · rfl
  askFunction := by
    intro name state
    simp only [Evaluation.askFunction, precede, Dialogue.function_precede]
    rfl
  readText := by
    intro text extend state
    rw [Evaluation.readText_apply, Evaluation.readText_apply, precede]
    cases tokenize (extend state.environment.knownNames) text <;> rfl

/-- The evaluation of a text comes to the same whatever has happened before. -/
theorem unaware_evaluateText (past : List Event) (text : String) :
    Unaware past (Evaluation.evaluateText text) :=
  (closed_unaware past).evaluateText text

/-! ## Consultations -/

/-- A prompt, and what is read after it. -/
structure Consultation where
  prompt : Prompt
  answer : Option Reading
  deriving DecidableEq

namespace Consultation

/-- What happens in a consultation. -/
def events (consultation : Consultation) : List Event :=
  [.prompted consultation.prompt, .read consultation.answer]

/-- The variable that is asked for, if it is one. -/
def value? (consultation : Consultation) : Option String :=
  match consultation.prompt with
  | .value name => some name
  | _ => none

/-- A line is read in the consultation. -/
def Answered (consultation : Consultation) : Prop :=
  ∃ line, consultation.answer = some (.ok line)

/-- What is read in consultations. -/
def readings (consultations : List Consultation) : List Reading :=
  consultations.filterMap answer

/-- The variables that are asked for. -/
def values (consultations : List Consultation) : List String :=
  consultations.filterMap value?

/-- Whoever has named the argument of a function is asked for its body next. -/
def Paired (consultations : List Consultation) : Prop :=
  ∀ i name line, consultations[i]? = some ⟨.placeholder name, some (.ok line)⟩ →
    ∃ answer, consultations[i + 1]? = some ⟨.body name (Unicode.trim line), answer⟩

theorem paired_of_values {consultations : List Consultation}
    (h : ∀ consultation ∈ consultations, consultation.value?.isSome) : Paired consultations := by
  intro i name line hline
  have hvalue := h _ (List.mem_of_getElem? hline)
  cases hvalue

theorem Paired.append {first second : List Consultation} (h : Paired first) (h' : Paired second) :
    Paired (first ++ second) := by
  intro i name line hline
  by_cases hi : i < first.length
  · rw [List.getElem?_append_left hi] at hline
    obtain ⟨answer, hbody⟩ := h i name line hline
    have hnext : i + 1 < first.length := (List.getElem?_eq_some_iff.1 hbody).1
    exact ⟨answer, by rw [List.getElem?_append_left hnext, hbody]⟩
  · rw [List.getElem?_append_right (by omega)] at hline
    obtain ⟨answer, hbody⟩ := h' _ name line hline
    refine ⟨answer, ?_⟩
    rw [List.getElem?_append_right (by omega), ← hbody]
    congr 1
    omega

end Consultation

open Consultation

/-- The consultations lead from the one state to the other.  Values are asked for while their names
are open, each once, and only open names have changed. -/
structure Consults (consultations : List Consultation) (before after : EvalState Dialogue) :
    Prop where
  events : after.resolver.events
    = before.resolver.events ++ consultations.flatMap Consultation.events
  unread : before.resolver.unread = readings consultations ++ after.resolver.unread
  ended : (∃ consultation ∈ consultations, consultation.answer = none) →
    after.resolver.unread = []
  prompts : ∀ consultation ∈ consultations, consultation.prompt ≠ .expression
  entries : KeepsEntries before after
  isOpen : ∀ name ∈ values consultations, before.environment.entries.find? name = some none
  once : (values consultations).Nodup
  paired : Paired consultations

/-- The consultations have all been answered, and have closed the names that were asked for. -/
structure ConsultsDone (consultations : List Consultation) (before after : EvalState Dialogue) :
    Prop extends Consults consultations before after where
  answered : ∀ consultation ∈ consultations, consultation.Answered
  closed : ∀ name ∈ values consultations, after.environment.entries.find? name ≠ some none

/-- The consultations have been answered but for the last one, which may have failed. -/
structure ConsultsFailed (consultations : List Consultation) (before after : EvalState Dialogue) :
    Prop extends Consults consultations before after where
  answered : ∀ consultation ∈ consultations.dropLast, consultation.Answered

namespace Consults

theorem refl (state : EvalState Dialogue) : Consults [] state state where
  events := (List.append_nil _).symm
  unread := rfl
  ended := nofun
  prompts := nofun
  entries := fun _ _ => rfl
  isOpen := nofun
  once := List.nodup_nil
  paired := paired_of_values nofun

/-- Consultations after others.  A name that the first have closed is not asked for again. -/
theorem trans {consultations consultations' : List Consultation}
    {first second third : EvalState Dialogue} (h : ConsultsDone consultations first second)
    (h' : Consults consultations' second third) :
    Consults (consultations ++ consultations') first third where
  events := by rw [h'.events, h.events, List.flatMap_append, List.append_assoc]
  unread := by rw [h.unread, h'.unread, readings, readings, readings, List.filterMap_append,
    List.append_assoc]
  ended := by
    rintro ⟨consultation, hmem, hnone⟩
    rcases List.mem_append.1 hmem with hmem | hmem
    · obtain ⟨line, hline⟩ := h.answered consultation hmem
      rw [hnone] at hline
      cases hline
    · exact h'.ended ⟨consultation, hmem, hnone⟩
  prompts := List.forall_mem_append.2 ⟨h.prompts, h'.prompts⟩
  entries := stable_keepsEntries.trans _ _ _ h.entries h'.entries
  isOpen := by
    intro name hname
    rw [values, List.filterMap_append] at hname
    rcases List.mem_append.1 hname with hname | hname
    · exact h.isOpen name hname
    · -- What was not open at first is not open later either.
      refine Classical.byContradiction fun hne => ?_
      exact hne ((h.entries name hne).symm.trans (h'.isOpen name hname))
  once := by
    rw [values, List.filterMap_append]
    refine List.nodup_append.2 ⟨h.once, h'.once, ?_⟩
    rintro name hname _ hname' rfl
    exact h.closed name hname (h'.isOpen name hname')
  paired := h.paired.append h'.paired

end Consults

namespace ConsultsDone

theorem refl (state : EvalState Dialogue) : ConsultsDone [] state state where
  toConsults := .refl state
  answered := nofun
  closed := nofun

theorem trans {consultations consultations' : List Consultation}
    {first second third : EvalState Dialogue} (h : ConsultsDone consultations first second)
    (h' : ConsultsDone consultations' second third) :
    ConsultsDone (consultations ++ consultations') first third where
  toConsults := .trans h h'.toConsults
  answered := List.forall_mem_append.2 ⟨h.answered, h'.answered⟩
  closed := by
    intro name hname
    rw [values, List.filterMap_append] at hname
    rcases List.mem_append.1 hname with hname | hname
    · have hclosed := h.closed name hname
      rwa [h'.entries name hclosed]
    · exact h'.closed name hname

theorem failed {consultations consultations' : List Consultation}
    {first second third : EvalState Dialogue} (h : ConsultsDone consultations first second)
    (h' : ConsultsFailed consultations' second third) :
    ConsultsFailed (consultations ++ consultations') first third where
  toConsults := .trans h h'.toConsults
  answered := by
    intro consultation hmem
    rcases consultations' with _ | ⟨last, rest⟩
    · rw [List.append_nil] at hmem
      exact h.answered consultation (List.dropLast_subset _ hmem)
    · rw [List.dropLast_append_cons] at hmem
      rcases List.mem_append.1 hmem with hmem | hmem
      · exact h.answered consultation hmem
      · exact h'.answered consultation hmem

end ConsultsDone

/-! ## One request -/

/-- An answer is a line that has been read. -/
theorem answerOf_eq_ok {reading : Option Reading} {text : String} (h : answerOf reading = .ok text) :
    ∃ line, reading = some (.ok line) ∧ text = Unicode.trim line := by
  rcases reading with _ | failure | line
  · cases h
  · cases h
  · exact ⟨line, rfl, (Except.ok.inj h).symm⟩

/-- The reading after a prompt. -/
theorem Dialogue.exists_ask (dialogue : Dialogue) (prompt : Prompt) : ∃ reading rest,
    dialogue.unread = reading.toList ++ rest ∧ (reading = none → rest = []) ∧
    dialogue.ask prompt = (answerOf reading,
      { unread := rest, events := dialogue.events ++ Consultation.events ⟨prompt, reading⟩ }) := by
  obtain ⟨_ | ⟨reading, rest⟩, events⟩ := dialogue
  · exact ⟨none, [], rfl, fun _ => rfl, rfl⟩
  · exact ⟨some reading, rest, rfl, nofun, rfl⟩

/-- A consultation about an open name. -/
theorem Consults.value {before after : EvalState Dialogue} {name : String}
    {answer : Option Reading} (hopen : before.environment.entries.find? name = some none)
    (hevents : after.resolver.events
      = before.resolver.events ++ Consultation.events ⟨.value name, answer⟩)
    (hunread : before.resolver.unread = answer.toList ++ after.resolver.unread)
    (hended : answer = none → after.resolver.unread = []) (hentries : KeepsEntries before after) :
    Consults [⟨.value name, answer⟩] before after where
  events := by rw [hevents, List.flatMap_singleton]
  unread := by rw [hunread]; cases answer <;> rfl
  ended := by simpa using hended
  prompts := by simp
  entries := hentries
  isOpen := by simpa [values, value?] using hopen
  once := by simp [values, value?]
  paired := paired_of_values (by simp [value?])

/-- Consultations about a function. -/
theorem Consults.function {consultations : List Consultation} {before after : EvalState Dialogue}
    (hfunction : ∀ consultation ∈ consultations, consultation.value? = none)
    (hprompts : ∀ consultation ∈ consultations, consultation.prompt ≠ .expression)
    (hpaired : Paired consultations)
    (hevents : after.resolver.events
      = before.resolver.events ++ consultations.flatMap Consultation.events)
    (hunread : before.resolver.unread = readings consultations ++ after.resolver.unread)
    (hended : (∃ consultation ∈ consultations, consultation.answer = none) →
      after.resolver.unread = [])
    (henvironment : after.environment = before.environment) :
    Consults consultations before after where
  events := hevents
  unread := hunread
  ended := hended
  prompts := hprompts
  entries := fun _ _ => by rw [henvironment]
  isOpen := by simp +contextual [values, List.filterMap_eq_nil_iff.2 hfunction]
  once := by simp [values, List.filterMap_eq_nil_iff.2 hfunction]
  paired := hpaired

/-- A function whose body is asked for. -/
theorem Consults.body {before after : EvalState Dialogue} {name placeholder : String}
    {answer : Option Reading}
    (hevents : after.resolver.events
      = before.resolver.events ++ Consultation.events ⟨.placeholder name, some (.ok placeholder)⟩
        ++ Consultation.events ⟨.body name (Unicode.trim placeholder), answer⟩)
    (hunread : before.resolver.unread
      = .ok placeholder :: (answer.toList ++ after.resolver.unread))
    (hended : answer = none → after.resolver.unread = [])
    (henvironment : after.environment = before.environment) :
    Consults [⟨.placeholder name, some (.ok placeholder)⟩,
      ⟨.body name (Unicode.trim placeholder), answer⟩] before after := by
  refine .function ?_ ?_ ?_ ?_ ?_ ?_ henvironment
  · simp [value?]
  · simp
  · rintro (_ | _ | i) _ _ hline <;> simp_all
  · simp [hevents]
  · rw [hunread]
    cases answer <;> rfl
  · simpa using hended

/-! ## Lines -/

theorem singleLine_trim {line : String} (h : SingleLine line) : SingleLine (Unicode.trim line) := by
  refine h.of_subset fun c hc => ?_
  rw [Unicode.trim, String.toList_ofList, List.mem_reverse] at hc
  have hleft := (List.dropWhile_suffix Unicode.isWhiteSpace).subset hc
  rw [List.mem_reverse] at hleft
  exact (List.dropWhile_suffix Unicode.isWhiteSpace).subset hleft

/-- An answer is a single line, and so is the reason why there is none. -/
theorem inLines_ask {dialogue : Dialogue} (h : InLines dialogue.unread) (prompt : Prompt) :
    InLines (dialogue.ask prompt).2.unread ∧
      match (dialogue.ask prompt).1 with
      | .ok text => SingleLine text
      | .error reason => SingleLine reason := by
  obtain ⟨reading, rest, hunread, -, hask⟩ := dialogue.exists_ask prompt
  rw [hunread] at h
  rw [hask]
  refine ⟨h.mono (List.subset_append_right _ _), ?_⟩
  rcases reading with _ | failure | line
  · exact show SingleLine inputClosed by decide
  · exact failure.singleLine
  · exact singleLine_trim (h line List.mem_cons_self)

/-- The user answers in lines. -/
theorem answersInLines_dialogue :
    AnswersInLines fun dialogue : Dialogue => InLines dialogue.unread where
  value := by
    intro dialogue name h _
    have hask := inLines_ask h (.value name)
    simp only [Resolver.value]
    generalize dialogue.ask (.value name) = asked at hask ⊢
    rcases asked with ⟨reason | line, after⟩
    · refine ⟨hask.1, ?_⟩
      rintro _ ⟨⟩
      exact hask.2
    · refine ⟨hask.1, ?_⟩
      dsimp only
      rcases Numeral.read line with error | value
      · have hmessage : SingleLine error.message := by cases error <;> decide
        rintro _ ⟨⟩
        exact ((SingleLine.append (by decide) hask.2).append (by decide)).append hmessage
      · rintro _ ⟨⟩
  function := by
    intro dialogue name h _
    have hask := inLines_ask h (.placeholder name)
    simp only [Resolver.function]
    generalize dialogue.ask (.placeholder name) = asked at hask ⊢
    rcases asked with ⟨reason | placeholder, after⟩
    · exact hask
    · have hbody := inLines_ask hask.1 (.body name placeholder)
      dsimp only at hbody ⊢
      generalize after.ask (.body name placeholder) = asked at hbody ⊢
      rcases asked with ⟨reason | body, after⟩
      · exact hbody
      · exact ⟨hbody.1, hask.2, hbody.2⟩

/-- What is printed is one line, and it is ended. -/
def Event.IsLine (event : Event) : Prop :=
  ∃ text, event.text = text ++ "\n" ∧ SingleLine text

/-- The result of an evaluation is shown on a line. -/
theorem isLine_shown {text : String} (htext : SingleLine text) {state : EvalState Dialogue}
    (hunread : InLines state.resolver.unread) :
    Event.IsLine (.shown (Evaluation.evaluateText text state).1) := by
  have hresult := (Evaluation.worded_evaluateText answersInLines_dialogue htext state hunread).2
  generalize (Evaluation.evaluateText text state).1 = result at hresult ⊢
  rcases result with error | value
  · exact ⟨"Error: " ++ error.message, rfl, SingleLine.append (by decide) hresult⟩
  · exact ⟨Numeral.ofFloat value, rfl, singleLine_ofFloat value⟩

/-! ## Evaluations -/

/-- What is led along by evaluations that reach a value. -/
def SomeConsultsDone (before after : EvalState Dialogue) : Prop :=
  ∃ consultations, ConsultsDone consultations before after

/-- What is led along by evaluations that fail. -/
def SomeConsultsFailed (before after : EvalState Dialogue) : Prop :=
  ∃ consultations, ConsultsFailed consultations before after

theorem leads_resolve (name : String) :
    Evaluation.Leads SomeConsultsDone SomeConsultsFailed
      (Evaluation.resolve name : Evaluation Dialogue Float) := by
  intro state
  simp only [Evaluation.resolve]
  rcases hentry : state.environment.entries.find? name with _ | _ | value
  · exact ⟨[], .refl state, by simp⟩
  · -- The name is open, so the user is asked.
    simp only [Evaluation.askValue, Resolver.value]
    obtain ⟨reading, rest, hunread, hended, hask⟩ := state.resolver.exists_ask (.value name)
    simp only [hask]
    rcases hanswer : answerOf reading with reason | text
    · exact ⟨[⟨.value name, reading⟩],
        .value hentry rfl hunread hended fun _ _ => rfl, by simp⟩
    · dsimp only
      rcases Numeral.read text with error | value
      · exact ⟨[⟨.value name, reading⟩],
          .value hentry rfl hunread hended fun _ _ => rfl, by simp⟩
      · obtain ⟨line, hline, -⟩ := answerOf_eq_ok hanswer
        refine ⟨[⟨.value name, reading⟩], .value hentry rfl hunread hended ?_, ?_, ?_⟩
        · -- The answer fills the entry, and no other.
          intro other hother
          refine NameMap.find?_insert_of_ne _ ?_ _
          rintro rfl
          exact hother hentry
        · simpa using ⟨line, hline⟩
        · simp [values, value?, Environment.set]
  · exact ⟨[], .refl state⟩

theorem leads_askFunction (name : String) :
    Evaluation.Leads SomeConsultsDone SomeConsultsFailed
      (Evaluation.askFunction name : Evaluation Dialogue UserFunction) := by
  intro state
  simp only [Evaluation.askFunction, Resolver.function]
  obtain ⟨reading, rest, hunread, hended, hask⟩ := state.resolver.exists_ask (.placeholder name)
  simp only [hask]
  rcases hanswer : answerOf reading with reason | placeholder
  · refine ⟨[⟨.placeholder name, reading⟩],
      .function (by simp [value?]) (by simp) ?_ ?_ ?_ ?_ rfl, by simp⟩
    · -- No line has been read, so nothing has to follow.
      rintro (_ | i) _ line hline
      · obtain ⟨-, rfl⟩ : _ ∧ reading = some (.ok line) := by simpa using hline
        cases hanswer
      · simp at hline
    · simp
    · rw [hunread]
      cases reading <;> rfl
    · simpa using hended
  · obtain ⟨line, rfl, rfl⟩ := answerOf_eq_ok hanswer
    obtain ⟨reading', rest', hrest, hended', hask'⟩ := Dialogue.exists_ask
      ⟨rest, state.resolver.events ++ Consultation.events ⟨.placeholder name, some (.ok line)⟩⟩
      (.body name (Unicode.trim line))
    obtain rfl : rest = reading'.toList ++ rest' := hrest
    simp only [hask']
    rcases hanswer' : answerOf reading' with reason | body
    · exact ⟨_, .body rfl hunread hended' rfl, by simp [Answered]⟩
    · obtain ⟨line', rfl, -⟩ := answerOf_eq_ok hanswer'
      exact ⟨_, .body rfl hunread hended' rfl, by simp [Answered], by simp [values, value?]⟩

/-- An evaluation is a list of consultations, of which at most the last has failed. -/
theorem lasting_consults : Evaluation.Lasting SomeConsultsDone SomeConsultsFailed where
  refl := fun state => ⟨[], .refl state⟩
  trans := fun _ _ _ ⟨_, h⟩ ⟨_, h'⟩ => ⟨_, h.trans h'⟩
  stops := fun state => ⟨[], .refl state, nofun⟩
  fails := fun _ _ _ ⟨_, h⟩ ⟨_, h'⟩ => ⟨_, h.failed h'⟩
  resolve := leads_resolve
  askFunction := leads_askFunction

end Reckoner.Console
