/-
  Reckoner.Proofs.Console.Sessions

  Whole sessions at the console.

  The evaluator lives as long as the session, but a new expression finds it as a new one would be:
  all that evaluations can leave behind is the values of the conventional names, and these are
  forgotten.  So what is printed after a line has been dealt with is what a new session prints
  with the input that is left (`output_of_not_isFarewell`).

  It follows, by induction on the input, that a session is a list of turns and ends where an
  expression is prompted for (`exists_session`).  A read that fails there ends it too, whatever
  input is left.
-/
import Reckoner.Proofs.Console.Consultations

namespace Reckoner.Console

open Consultation

/-! ## One turn of the loop -/

section Loop

variable (evaluator : Evaluator Dialogue) {line : String} {further : List Reading}

/-- Without an answer to the prompt for an expression the session is over. -/
theorem converse_of_answerOf_eq_error {reason : String}
    (h : answerOf evaluator.resolver.unread.head? = .error reason) :
    converse evaluator
      = { unread := evaluator.resolver.unread.tail
          events := evaluator.resolver.events
            ++ Consultation.events ⟨.expression, evaluator.resolver.unread.head?⟩ } := by
  have hask : evaluator.resolver.ask .expression = (.error reason, _) := Prod.ext h rfl
  rw [converse]
  split
  · next heq =>
      rw [hask] at heq
      exact (Prod.mk.inj heq).2.symm
  · next heq =>
      rw [hask] at heq
      cases heq

/-- The evaluator once it has evaluated a line and the result has been shown. -/
def afterLine (evaluator : Evaluator Dialogue) (line : String) (further : List Reading) :
    Evaluator Dialogue :=
  let dialogue : Dialogue :=
    { unread := further
      events := evaluator.resolver.events ++ Consultation.events ⟨.expression, some (.ok line)⟩ }
  let outcome := (Evaluator.setExpression { evaluator with resolver := dialogue }
    (Unicode.trim line)).evaluate
  { outcome.evaluator with resolver := outcome.evaluator.resolver.tell outcome.result }

theorem converse_of_line (h : evaluator.resolver.unread = .ok line :: further) :
    converse evaluator =
      if isFarewell (Unicode.trim line) then
        { unread := further
          events := evaluator.resolver.events ++ Consultation.events ⟨.expression, some (.ok line)⟩ }
      else converse (afterLine evaluator line further) := by
  have hask : evaluator.resolver.ask .expression = (.ok (Unicode.trim line),
      { unread := further
        events := evaluator.resolver.events
          ++ Consultation.events ⟨.expression, some (.ok line)⟩ }) := by
    rw [Dialogue.ask, h]
    rfl
  rw [converse]
  split
  · next heq =>
      rw [hask] at heq
      cases heq
  · next heq =>
      rw [hask] at heq
      obtain ⟨hline, hdialogue⟩ := Prod.mk.inj heq
      rw [← Except.ok.inj hline, ← hdialogue]
      rfl

end Loop

/-! ## Expressions one by one -/

/-- The evaluation of an expression by a new evaluator, with further lines still to be read. -/
def evaluateLine (expression : String) (further : List Reading) :
    Evaluator.Outcome Dialogue Float :=
  (Evaluator.setExpression { resolver := { unread := further } } expression).evaluate

/-- What the evaluation of an expression consults the user about. -/
theorem exists_consults_evaluateLine (expression : String) (further : List Reading) :
    ∃ consultations,
      (evaluateLine expression further).evaluator.resolver.events
        = consultations.flatMap Consultation.events ∧
      further = readings consultations
        ++ (evaluateLine expression further).evaluator.resolver.unread ∧
      ((∃ consultation ∈ consultations, consultation.answer = none) →
        (evaluateLine expression further).evaluator.resolver.unread = []) ∧
      (∀ consultation ∈ consultations, consultation.prompt ≠ .expression) ∧
      (∀ name ∈ values consultations, name ∈ Environment.conventional) ∧
      (values consultations).Nodup ∧ Paired consultations ∧
      ∀ consultation ∈ consultations.dropLast, consultation.Answered := by
  let start : EvalState Dialogue :=
    { environment := Environment.initial.resetConventional, resolver := { unread := further } }
  have hleads := lasting_consults.closed.evaluateText expression start
  unfold evaluateLine Evaluator.evaluate Evaluator.run
  obtain ⟨consultations, hconsults, hanswered⟩ : ∃ consultations,
      Consults consultations start (Evaluation.evaluateText expression start).2 ∧
      ∀ consultation ∈ consultations.dropLast, consultation.Answered := by
    generalize Evaluation.evaluateText expression start = outcome at hleads ⊢
    rcases outcome with ⟨error | value, after⟩
    · obtain ⟨consultations, h⟩ := hleads
      exact ⟨consultations, h.toConsults, h.answered⟩
    · obtain ⟨consultations, h⟩ := hleads
      exact ⟨consultations, h.toConsults,
        fun consultation hmem => h.answered consultation (List.dropLast_subset _ hmem)⟩
  refine ⟨consultations, hconsults.events, hconsults.unread, hconsults.ended, hconsults.prompts,
    fun name hname => ?_, hconsults.once, hconsults.paired, hanswered⟩
  -- Of the names that are known at first only the conventional ones are open.
  have hopen := hconsults.isOpen name hname
  refine Classical.byContradiction fun hne => ?_
  rw [Environment.find?_resetConventional hne] at hopen
  exact Environment.find?_initial_ne name hopen

theorem isLine_evaluateLine {line : String} {further : List Reading}
    (h : InLines (.ok line :: further)) :
    Event.IsLine (.shown (evaluateLine (Unicode.trim line) further).result) :=
  isLine_shown (singleLine_trim (h line List.mem_cons_self)) (h.mono (List.subset_cons_self _ _))

/-- What is read and shown in the turn of a line. -/
def turnEvents (line : String) (further : List Reading) : List Event :=
  Consultation.events ⟨.expression, some (.ok line)⟩
    ++ (evaluateLine (Unicode.trim line) further).evaluator.resolver.events
    ++ [.shown (evaluateLine (Unicode.trim line) further).result]

/-- The lines that are left after the turn of a line. -/
def leftUnread (line : String) (further : List Reading) : List Reading :=
  (evaluateLine (Unicode.trim line) further).evaluator.resolver.unread

theorem leftUnread_suffix (line : String) (further : List Reading) :
    leftUnread line further <:+ further := by
  obtain ⟨consultations, -, hfurther, -⟩ :=
    exists_consults_evaluateLine (Unicode.trim line) further
  exact ⟨readings consultations, hfurther.symm⟩

theorem length_leftUnread (line : String) (further : List Reading) :
    (leftUnread line further).length ≤ further.length :=
  (leftUnread_suffix line further).length_le

/-- An evaluator without a past evaluates a line as a new one, whatever has been printed, and is
left without a past. -/
theorem afterLine_of_pristine (evaluator : Evaluator Dialogue)
    (h : evaluator.environment.Pristine) (line : String) (further : List Reading) :
    (afterLine evaluator line further).resolver
      = { unread := leftUnread line further
          events := evaluator.resolver.events ++ turnEvents line further } ∧
    (afterLine evaluator line further).environment.Pristine := by
  let start : EvalState Dialogue :=
    { environment := Environment.initial.resetConventional, resolver := { unread := further } }
  have hpast := unaware_evaluateText
    (evaluator.resolver.events ++ Consultation.events ⟨.expression, some (.ok line)⟩)
    (Unicode.trim line) start
  refine ⟨?_, .evaluate h.resetConventional⟩
  simp only [precede, Dialogue.precede, List.append_nil, start] at hpast
  simp only [afterLine, turnEvents, leftUnread, evaluateLine, Evaluator.setExpression,
    Evaluator.evaluate, Evaluator.run, h.resetConventional_eq, hpast]
  rcases Evaluation.evaluateText (Unicode.trim line) start with ⟨result, after⟩
  simp [Dialogue.tell, precede, Dialogue.precede]

/-! ## What is left of the past -/

/-- A session that goes on without a past goes on as a new one. -/
theorem events_converse {evaluator : Evaluator Dialogue}
    (h : evaluator.environment.Pristine) :
    (converse evaluator).events
      = evaluator.resolver.events ++ events evaluator.resolver.unread := by
  induction hlength : evaluator.resolver.unread.length using Nat.strongRecOn
    generalizing evaluator with
  | ind length ih =>
      let fresh : Evaluator Dialogue := { resolver := { unread := evaluator.resolver.unread } }
      rw [events]
      rcases hanswer : answerOf evaluator.resolver.unread.head? with reason | text
      · rw [converse_of_answerOf_eq_error evaluator hanswer,
          converse_of_answerOf_eq_error fresh hanswer]
        rfl
      · obtain ⟨line, hhead, -⟩ := answerOf_eq_ok hanswer
        obtain ⟨further, hunread⟩ := List.head?_eq_some_iff.1 hhead
        rw [converse_of_line evaluator hunread, converse_of_line fresh hunread]
        split
        · rfl
        · -- Both sessions have the same turn and are left with the same input, which is shorter.
          have hshorter : (leftUnread line further).length < length := by
            rw [← hlength, hunread, List.length_cons, Nat.lt_succ_iff]
            exact length_leftUnread line further
          obtain ⟨hresolver, hpristine⟩ := afterLine_of_pristine evaluator h line further
          obtain ⟨hresolver', hpristine'⟩ := afterLine_of_pristine fresh .initial line further
          rw [ih _ hshorter hpristine (by rw [hresolver]),
            ih _ hshorter hpristine' (by rw [hresolver']), hresolver, hresolver']
          exact List.append_assoc _ _ _

theorem events_of_answerOf_eq_error {readings : List Reading} {reason : String}
    (h : answerOf readings.head? = .error reason) :
    events readings = Consultation.events ⟨.expression, readings.head?⟩ := by
  rw [events, converse_of_answerOf_eq_error _ h]
  rfl

section Line

variable {line : String} (further : List Reading)

theorem events_of_isFarewell (h : isFarewell (Unicode.trim line)) :
    events (.ok line :: further) = Consultation.events ⟨.expression, some (.ok line)⟩ := by
  rw [events, converse_of_line _ rfl, if_pos h]
  rfl

theorem events_of_not_isFarewell (h : ¬ isFarewell (Unicode.trim line)) :
    events (.ok line :: further)
      = turnEvents line further ++ events (leftUnread line further) := by
  let fresh : Evaluator Dialogue := { resolver := { unread := .ok line :: further } }
  obtain ⟨hresolver, hpristine⟩ := afterLine_of_pristine fresh .initial line further
  rw [events, converse_of_line fresh rfl, if_neg h, events_converse hpristine, hresolver]
  rfl

end Line

/-! ## The text of a session -/

/-- What a list of consultations prints. -/
theorem join_events (consultations : List Consultation) :
    String.join ((consultations.flatMap Consultation.events).map Event.text)
      = String.join (consultations.map (·.prompt.text)) := by
  induction consultations with
  | nil => rfl
  | cons consultation rest ih =>
      simp [Consultation.events, Event.text, ih]

/-- What becomes of a line that is no farewell: the consultations of its evaluation, and the result
that is shown. -/
structure Turn where
  line : String
  consultations : List Consultation
  result : Except EvalError Float

namespace Turn

/-- What happens in a turn. -/
def events (turn : Turn) : List Event :=
  Consultation.events ⟨.expression, some (.ok turn.line)⟩
    ++ turn.consultations.flatMap Consultation.events ++ [.shown turn.result]

/-- What is read in a turn. -/
def readings (turn : Turn) : List Reading :=
  .ok turn.line :: Consultation.readings turn.consultations

end Turn

/-- How a turn goes.  No other expression is prompted for before its result is shown, and of the
variables only those that every expression may name are asked for, each once.  Nothing is asked for
after a consultation in which no line is read. -/
structure Turn.WellFormed (turn : Turn) : Prop where
  goesOn : ¬ isFarewell (Unicode.trim turn.line)
  shown : Event.IsLine (.shown turn.result)
  prompts : ∀ consultation ∈ turn.consultations, consultation.prompt ≠ .expression
  conventional : ∀ name ∈ values turn.consultations, name ∈ Environment.conventional
  once : (values turn.consultations).Nodup
  paired : Paired turn.consultations
  answered : ∀ consultation ∈ turn.consultations.dropLast, consultation.Answered

/-- A session with the given lines: turn after turn, until what is read for an expression is a
farewell or no line. -/
structure Session (lines : List Reading) (turns : List Turn) (last : Option Reading)
    (left : List Reading) : Prop where
  happens : events lines = turns.flatMap Turn.events ++ Consultation.events ⟨.expression, last⟩
  reads : lines = turns.flatMap Turn.readings ++ last.toList ++ left
  wellFormed : ∀ turn ∈ turns, turn.WellFormed
  farewell : ∀ line, last = some (.ok line) → isFarewell (Unicode.trim line)
  ended : last = none → left = []
  /-- Only the last consultation of all may come to the end of the input. -/
  answered : ∀ consultation ∈ (turns.flatMap Turn.consultations).dropLast,
    consultation.answer.isSome
  /-- Then there is nothing to read for the next expression either. -/
  unanswered : (∃ consultation ∈ turns.flatMap Turn.consultations, consultation.answer = none) →
    last = none

namespace Session

variable {line : String} {further left : List Reading} {turns : List Turn} {last : Option Reading}

theorem of_answerOf_eq_error {readings : List Reading} {reason : String}
    (h : answerOf readings.head? = .error reason) :
    Session readings [] readings.head? readings.tail where
  happens := events_of_answerOf_eq_error h
  reads := by cases readings <;> rfl
  wellFormed := nofun
  farewell := by
    intro line hline
    rw [hline] at h
    cases h
  ended := by cases readings <;> simp
  answered := nofun
  unanswered := nofun

theorem of_isFarewell (h : isFarewell (Unicode.trim line)) :
    Session (.ok line :: further) [] (some (.ok line)) further where
  happens := events_of_isFarewell further h
  reads := rfl
  wellFormed := nofun
  farewell := by simpa using h
  ended := nofun
  answered := nofun
  unanswered := nofun

/-- A session that has no input has no turns. -/
theorem eq_nil (h : Session [] turns last left) : turns = [] ∧ last = none := by
  have hreads := h.reads
  rw [eq_comm, List.append_eq_nil_iff, List.append_eq_nil_iff] at hreads
  refine ⟨List.eq_nil_iff_forall_not_mem.2 fun turn hturn => ?_, ?_⟩
  · exact absurd (List.flatMap_eq_nil_iff.1 hreads.1.1 turn hturn) (List.cons_ne_nil _ _)
  · exact Option.toList_eq_nil_iff.1 hreads.1.2

/-- A turn before the others of a session. -/
theorem of_not_isFarewell (hline : ¬ isFarewell (Unicode.trim line))
    (hsingle : InLines (.ok line :: further))
    (h : Session (leftUnread line further) turns last left) :
    ∃ turn, Session (.ok line :: further) (turn :: turns) last left := by
  obtain ⟨consultations, hevents, hfurther, hended, hprompts, hvalues, honce, hpaired, hanswered⟩ :=
    exists_consults_evaluateLine (Unicode.trim line) further
  -- If the input had ended then there are no further turns.
  have hlast : (∃ consultation ∈ consultations, consultation.answer = none) →
      turns = [] ∧ last = none := by
    intro hnone
    have hleft : leftUnread line further = [] := hended hnone
    rw [hleft] at h
    exact h.eq_nil
  refine ⟨⟨line, consultations, (evaluateLine (Unicode.trim line) further).result⟩, ?_⟩
  refine ⟨?_, ?_, ?_, h.farewell, h.ended, ?_, ?_⟩
  · rw [events_of_not_isFarewell further hline, h.happens, turnEvents, hevents]
    simp [Turn.events]
  · have hreads : further = readings consultations ++ leftUnread line further := hfurther
    rw [hreads, h.reads]
    simp [Turn.readings]
  · rintro turn (_ | ⟨_, hturn⟩)
    · exact ⟨hline, isLine_evaluateLine hsingle, hprompts, hvalues, honce, hpaired, hanswered⟩
    · exact h.wellFormed turn hturn
  · intro consultation hmem
    rw [List.flatMap_cons] at hmem
    by_cases hrest : turns.flatMap Turn.consultations = []
    · rw [hrest, List.append_nil] at hmem
      obtain ⟨line', hline'⟩ := hanswered consultation hmem
      rw [hline']
      rfl
    · rw [List.dropLast_append_of_ne_nil hrest] at hmem
      rcases List.mem_append.1 hmem with hmem | hmem
      · refine Option.isSome_iff_ne_none.2 fun hnone => hrest ?_
        rw [(hlast ⟨consultation, hmem, hnone⟩).1]
        rfl
      · exact h.answered consultation hmem
  · rintro ⟨consultation, hmem, hnone⟩
    rcases List.mem_append.1 hmem with hmem | hmem
    · exact (hlast ⟨consultation, hmem, hnone⟩).2
    · exact h.unanswered ⟨consultation, hmem, hnone⟩

/-- Lines that are read one after the other make a session. -/
theorem exists_of_inLines {lines : List Reading} (h : InLines lines) :
    ∃ turns last left, Session lines turns last left := by
  induction hlength : lines.length using Nat.strongRecOn generalizing lines with
  | ind length ih =>
      rcases hanswer : answerOf lines.head? with reason | text
      · exact ⟨[], lines.head?, lines.tail, .of_answerOf_eq_error hanswer⟩
      · obtain ⟨line, hhead, -⟩ := answerOf_eq_ok hanswer
        obtain ⟨further, rfl⟩ := List.head?_eq_some_iff.1 hhead
        by_cases hline : isFarewell (Unicode.trim line)
        · exact ⟨[], some (.ok line), further, .of_isFarewell hline⟩
        · have hshorter : (leftUnread line further).length < length := by
            rw [← hlength, List.length_cons, Nat.lt_succ_iff]
            exact length_leftUnread line further
          have hleft : InLines (leftUnread line further) := h.mono fun _ hreading =>
            List.mem_cons_of_mem _ ((leftUnread_suffix line further).subset hreading)
          obtain ⟨turns, last, left, hrest⟩ := ih _ hshorter hleft rfl
          obtain ⟨turn, hsession⟩ := hrest.of_not_isFarewell hline h
          exact ⟨turn :: turns, last, left, hsession⟩

end Session

/-- Whatever the input, a session is a list of turns and a last prompt for an expression, and reads
the lines of the input one after the other.  If the input is a text then no read fails. -/
theorem exists_session (input : Input) :
    ∃ turns last left, Session (linesOf input) turns last left ∧
      ∀ text, input = .ofText text → ∀ failure, last ≠ some (.error failure) := by
  obtain ⟨turns, last, left, hsession⟩ := Session.exists_of_inLines (inLines_linesOf input)
  refine ⟨turns, last, left, hsession, ?_⟩
  rintro text rfl failure rfl
  have hmem : .error failure ∈ linesOf (.ofText text) := by
    rw [hsession.reads]
    simp
  rw [linesOf_ofText] at hmem
  obtain ⟨line, -, hline⟩ := List.mem_map.1 hmem
  cases hline

/-- It need not take a farewell or the end of the input to end a session.  Here the first line is no
text, and the second is never read. -/
theorem ends_with_input_left :
    linesOf (.ofBytes [0xFF, 10, 49, 10]) = [.error .notText, .ok "1"] ∧
    output (.ofBytes [0xFF, 10, 49, 10]) = "> " ∧
    ¬ ∃ turns last left, Session (linesOf (.ofBytes [0xFF, 10, 49, 10])) turns last left ∧
      (last = none ∨ ∃ line, last = some (.ok line) ∧ isFarewell (Unicode.trim line)) := by
  have hinput : linesOf (.ofBytes [0xFF, 10, 49, 10]) = [.error .notText, .ok "1"] := by
    decide +kernel
  refine ⟨hinput, by decide +kernel, ?_⟩
  rintro ⟨turns, last, left, hsession, hlast⟩
  have hhappens := hsession.happens
  rw [hinput, events_of_answerOf_eq_error rfl] at hhappens
  -- What is read last is what is read first.
  have hread := congrArg List.getLast? hhappens
  simp [Consultation.events] at hread
  subst hread
  simp at hlast

end Reckoner.Console
