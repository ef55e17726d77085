/-
  Reckoner.Proofs.Descent.Termination

  Why a descent ends.

  A call is below another if it is at a greater depth, which the limit bounds, or if at the same
  depth it belongs to a later stage of a factor, reads the same tokens from a later place, or reads
  them from the same place as a smaller phrase (`Call.Below`).  Every procedure calls only what is
  below its own call, whatever a resolver answers, and nothing can go down this order for ever.  So
  every task is performed, puts the counter back to where it was, and leaves the cursor where it was
  or further on (`perform_returns`).
-/
import Mathlib.Data.List.Chain
import Reckoner.Proofs.Descent.Recursion

namespace Reckoner.Descent

variable {ρ α β : Type}

/-! ## The order of calls -/

/-- The stages of a factor: it is opened, then its function is applied, then the function's body is
begun.  All phrases are in the last stage. -/
@[simp]
def Procedure.stage : Procedure → Nat
  | .operand => 3
  | .application => 2
  | .sequence => 1
  | .expression | .sum | .sumRest | .product | .productRest | .factor => 0

/-- The size of a phrase among those that may begin at the same place. -/
@[simp]
def Procedure.size : Procedure → Nat
  | .expression => 5
  | .sum => 4
  | .sumRest => 3
  | .product => 2
  | .productRest => 1
  | .factor | .sequence | .operand | .application => 0

/-- How many tokens the cursor has not passed. -/
def remaining (cursor : Cursor) : Nat :=
  cursor.tokens.length - cursor.position

/-- The cursor is on the same tokens, and not before where it was. -/
structure Ahead (before after : Cursor) : Prop where
  tokens : after.tokens = before.tokens
  position : before.position ≤ after.position

theorem Ahead.refl (cursor : Cursor) : Ahead cursor cursor :=
  ⟨rfl, Nat.le_refl _⟩

theorem Ahead.trans {first second third : Cursor} (h : Ahead first second)
    (h' : Ahead second third) : Ahead first third :=
  ⟨h'.tokens.trans h.tokens, Nat.le_trans h.position h'.position⟩

theorem Ahead.of_next (cursor : Cursor) :
    Ahead cursor { cursor with position := cursor.position + 1 } :=
  ⟨rfl, Nat.le_succ _⟩

/-- The one call may be made while the other is open. -/
inductive Call.Below (inner outer : Call) : Prop
  | deeper (hdepth : outer.depth < inner.depth) (hlimit : inner.depth ≤ nestingLimit)
  | later (hdepth : inner.depth = outer.depth)
      (hstage : inner.procedure.stage < outer.procedure.stage)
  | forward (hdepth : inner.depth = outer.depth)
      (hstage : inner.procedure.stage = outer.procedure.stage)
      (htokens : inner.cursor.tokens = outer.cursor.tokens)
      (hremaining : remaining inner.cursor < remaining outer.cursor)
  | smaller (hdepth : inner.depth = outer.depth)
      (hstage : inner.procedure.stage = outer.procedure.stage)
      (htokens : inner.cursor.tokens = outer.cursor.tokens)
      (hremaining : remaining inner.cursor = remaining outer.cursor)
      (hsize : inner.procedure.size < outer.procedure.size)

/-- If both are calls of one procedure, the inner call is at a greater depth, or at the same depth
with the cursor further on in the same tokens. -/
def Call.Progress (inner outer : Call) : Prop :=
  inner.procedure = outer.procedure →
    outer.depth < inner.depth ∨
      (inner.depth = outer.depth ∧ inner.cursor.tokens = outer.cursor.tokens ∧
        outer.cursor.position < inner.cursor.position)

namespace Call

namespace Below

variable {inner middle outer : Call}

theorem trans (h : Below inner middle) (h' : Below middle outer) : Below inner outer := by
  rcases h with ⟨hdepth, hlimit⟩ | ⟨hdepth, hstage⟩ | ⟨hdepth, hstage, htokens, hremaining⟩ |
    ⟨hdepth, hstage, htokens, hremaining, hsize⟩ <;>
  rcases h' with ⟨hdepth', hlimit'⟩ | ⟨hdepth', hstage'⟩ |
    ⟨hdepth', hstage', htokens', hremaining'⟩ |
    ⟨hdepth', hstage', htokens', hremaining', hsize'⟩
  case deeper.deeper | deeper.later | deeper.forward | deeper.smaller =>
    exact .deeper (by omega) hlimit
  case later.deeper | forward.deeper | smaller.deeper => exact .deeper (by omega) (by omega)
  case later.later | later.forward | later.smaller | forward.later | smaller.later =>
    exact .later (by omega) (by omega)
  case forward.forward | forward.smaller | smaller.forward =>
    exact .forward (by omega) (by omega) (htokens.trans htokens') (by omega)
  case smaller.smaller =>
    exact .smaller (by omega) (by omega) (htokens.trans htokens') (by omega) (by omega)

section Phrases

variable {procedure procedure' : Procedure} {cursor cursor' : Cursor} {depth : Nat}

/-- What begins after a token is below what began with it. -/
theorem of_next (hnext : cursor.position < cursor.tokens.length)
    (h : Ahead { cursor with position := cursor.position + 1 } cursor')
    (hstage : procedure'.stage = procedure.stage) :
    Below ⟨procedure', cursor', depth⟩ ⟨procedure, cursor, depth⟩ := by
  have hposition : cursor.position + 1 ≤ cursor'.position := h.position
  refine .forward rfl hstage h.tokens ?_
  show cursor'.tokens.length - cursor'.position < cursor.tokens.length - cursor.position
  rw [h.tokens]
  show cursor.tokens.length - cursor'.position < cursor.tokens.length - cursor.position
  omega

/-- A smaller phrase is below a larger one, unless it begins before it. -/
theorem of_size (h : Ahead cursor cursor') (hstage : procedure'.stage = procedure.stage)
    (hsize : procedure'.size < procedure.size) :
    Below ⟨procedure', cursor', depth⟩ ⟨procedure, cursor, depth⟩ := by
  have hle : remaining cursor' ≤ remaining cursor := by
    rw [remaining, remaining, h.tokens]
    exact Nat.sub_le_sub_left h.position _
  rcases Nat.lt_or_eq_of_le hle with hlt | heq
  · exact .forward rfl hstage h.tokens hlt
  · exact .smaller rfl hstage h.tokens heq hsize

end Phrases

/-- A procedure that is entered again gets on. -/
theorem progress (h : Below inner outer) : Progress inner outer := by
  intro hprocedure
  cases h with
  | deeper hdepth => exact .inl hdepth
  | later _ hstage =>
      rw [hprocedure] at hstage
      exact absurd hstage (Nat.lt_irrefl _)
  | forward hdepth _ htokens hremaining =>
      rw [remaining, remaining, htokens] at hremaining
      exact .inr ⟨hdepth, htokens, by omega⟩
  | smaller _ _ _ _ hsize =>
      rw [hprocedure] at hsize
      exact absurd hsize (Nat.lt_irrefl _)

end Below

/-- What gets smaller from a call to those below it, the first first. -/
def rank (call : Call) : Nat × Nat × Nat × Nat :=
  (nestingLimit - call.depth, call.procedure.stage, remaining call.cursor, call.procedure.size)

theorem below_wellFounded : WellFounded Below := by
  refine Subrelation.wf (r := (invImage rank inferInstance).rel) ?_ (invImage rank inferInstance).wf
  intro inner outer h
  show Prod.Lex _ _ (rank inner) (rank outer)
  cases h with
  | deeper hdepth hlimit =>
      exact .left _ _ (show nestingLimit - inner.depth < nestingLimit - outer.depth by omega)
  | later hdepth hstage =>
      rw [rank, hdepth]
      exact .right _ (.left _ _ hstage)
  | forward hdepth hstage _ hremaining =>
      rw [rank, hdepth, hstage]
      exact .right _ (.right _ (.left _ _ hremaining))
  | smaller hdepth hstage _ hremaining hsize =>
      rw [rank, hdepth, hstage, hremaining]
      exact .right _ (.right _ (.right _ hsize))

/-! ## Calls within calls -/

/-- The one call is made by the other.  Only where a factor is opened the counter is one higher. -/
structure Enters (inner outer : Call) : Prop where
  below : Below inner outer
  depth : inner.depth = outer.depth + if inner.procedure = .operand then 1 else 0

end Call

/-- How many factors are open. -/
def openFactors (calls : List Call) : Nat :=
  calls.countP (·.procedure = .operand)

section Chains

variable {calls : List Call} {outermost : Call}

/-- Along a chain of calls every call is below all those around it. -/
theorem pairwise_below (h : calls.IsChain Call.Enters) : calls.Pairwise Call.Below := by
  have hbelow : calls.IsChain Call.Below := h.imp fun _ _ henters => henters.below
  have htrans : Trans Call.Below Call.Below Call.Below := ⟨Call.Below.trans⟩
  exact List.isChain_iff_pairwise.1 hbelow

/-- Along a chain of calls the counter goes up with the open factors. -/
theorem depth_eq_of_isChain {innermost : Call}
    (h : (innermost :: (calls ++ [outermost])).IsChain Call.Enters) :
    innermost.depth = outermost.depth + openFactors (innermost :: calls) := by
  induction calls generalizing innermost with
  | nil =>
      have henters : Call.Enters innermost outermost := h.rel
      rw [henters.depth]
      simp [openFactors, List.countP_cons]
  | cons call rest ih =>
      have henters : Call.Enters innermost call := h.rel
      rw [henters.depth, ih h.tail]
      simp [openFactors, List.countP_cons, Nat.add_assoc]

end Chains

/-! ## What a computation does as a part of a call -/

/-- Calls that are made inside an open one, itself included, with others around it. -/
def Nests (call : Call) (callers : List Call) (calls : List Call) : Prop :=
  ∃ inner, calls = inner ++ call :: callers ∧ (inner ++ [call]).IsChain Call.Enters

theorem Nests.of_enters {inner outer : Call} {callers calls : List Call}
    (h : Nests inner (outer :: callers) calls) (henters : inner.Enters outer) :
    Nests outer callers calls := by
  obtain ⟨between, rfl, hchain⟩ := h
  refine ⟨between ++ [inner], by simp, ?_⟩
  rw [List.append_assoc]
  exact List.isChain_append_cons_cons.2 ⟨hchain, henters, .singleton _⟩

/-- The computation ends when it is a part of the call.  Then the counter is where it was, all that
has been recorded are calls made inside the open one, and a value has the property. -/
def Returns (call : Call) (callers : List Call) (computation : Descent ρ α)
    (property : α → Prop) : Prop :=
  ∀ state, state.depth = call.depth →
    ∃ result after, computation state = some (result, after) ∧ after.depth = state.depth ∧
      (∃ made, after.entered = state.entered ++ made ∧ ∀ calls ∈ made, Nests call callers calls) ∧
      ∀ value, result = .ok value → property value

section Parts

variable {call outer : Call} {callers : List Call} {property : α → Prop} {property' : β → Prop}

theorem returns_pure {value : α} (h : property value) :
    Returns call callers (pure value : Descent ρ α) property := by
  intro state _
  refine ⟨.ok value, state, rfl, rfl, ⟨[], by simp, nofun⟩, ?_⟩
  rintro _ ⟨⟩
  exact h

theorem returns_throw (error : EvalError) :
    Returns call callers (throw error : Descent ρ α) property :=
  fun state _ => ⟨.error error, state, rfl, rfl, ⟨[], by simp, nofun⟩, nofun⟩

theorem returns_unexpected (token : Token) :
    Returns call callers (unexpected token : Descent ρ α) property :=
  returns_throw _

theorem Returns.bind {first : Descent ρ α} {next : α → Descent ρ β}
    (h : Returns call callers first property)
    (hnext : ∀ value, property value → Returns call callers (next value) property') :
    Returns call callers (first >>= next) property' := by
  intro state hdepth
  obtain ⟨result, middle, hfirst, hmiddle, ⟨made, hmade, hnests⟩, hvalue⟩ := h state hdepth
  rcases result with error | value
  · refine ⟨.error error, middle, ?_, hmiddle, ⟨made, hmade, hnests⟩, nofun⟩
    rw [bind_apply, hfirst]
  · obtain ⟨result, after, hsecond, hafter, ⟨made', hmade', hnests'⟩, hvalue'⟩ :=
      hnext value (hvalue value rfl) middle (hmiddle.trans hdepth)
    refine ⟨result, after, ?_, hafter.trans hmiddle, ⟨made ++ made', ?_, ?_⟩, hvalue'⟩
    · rw [bind_apply, hfirst]
      exact hsecond
    · rw [hmade', hmade, List.append_assoc]
    · exact List.forall_mem_append.2 ⟨hnests, hnests'⟩

theorem returns_ofEvaluation (computation : Evaluation ρ α) :
    Returns call callers (ofEvaluation computation) fun _ => True :=
  fun state _ => ⟨_, _, rfl, rfl, ⟨[], by simp, nofun⟩, fun _ _ => trivial⟩

/-- The call itself is recorded first. -/
theorem returns_enter :
    Returns call callers (enter callers call.procedure call.cursor : Descent ρ (List Call))
      (· = call :: callers) := by
  intro state hdepth
  refine ⟨_, _, rfl, rfl, ⟨[call :: callers], ?_, ?_⟩, ?_⟩
  · rw [hdepth]
  · rintro calls (_ | ⟨_, hnil⟩)
    · exact ⟨[], rfl, .singleton _⟩
    · cases hnil
  · rintro _ ⟨⟩
    rw [hdepth]

/-- A token is read only while there is one, and the cursor can go back before it. -/
theorem returns_next (cursor : Cursor) :
    Returns call callers (next cursor : Descent ρ (Token × Cursor)) fun outcome =>
      outcome.2 = { cursor with position := cursor.position + 1 } ∧
        cursor.position < cursor.tokens.length := by
  rw [next, Cursor.next]
  rcases htoken : cursor.tokens[cursor.position]? with _ | token
  · exact returns_throw _
  · exact returns_pure ⟨rfl, (List.getElem?_eq_some_iff.1 htoken).1⟩

/-- What a call inside returns, it returns as a part of the call that has made it. -/
theorem Returns.of_enters {inner : Call} {computation : Descent ρ α}
    (h : Returns inner (outer :: callers) computation property) (henters : inner.Enters outer)
    (hdepth : inner.depth = outer.depth) : Returns outer callers computation property := by
  intro state hstate
  obtain ⟨result, after, hresult, hafter, ⟨made, hmade, hnests⟩, hvalue⟩ :=
    h state (hstate.trans hdepth.symm)
  refine ⟨result, after, hresult, hafter, ⟨made, hmade, fun calls hcalls => ?_⟩, hvalue⟩
  exact (hnests calls hcalls).of_enters henters

theorem Returns.imp {computation : Descent ρ α} {further : α → Prop}
    (h : Returns call callers computation property)
    (himp : ∀ value, property value → further value) :
    Returns call callers computation further := by
  intro state hdepth
  obtain ⟨result, after, hresult, hafter, hmade, hvalue⟩ := h state hdepth
  exact ⟨result, after, hresult, hafter, hmade, fun value heq => himp value (hvalue value heq)⟩

/-- A factor that is opened while the limit allows is closed again. -/
theorem Returns.counted {computation : Descent ρ α} {inner : Call}
    (h : outer.depth < nestingLimit → Returns inner (outer :: callers) computation property)
    (henters : outer.depth < nestingLimit → inner.Enters outer)
    (hdepth : inner.depth = outer.depth + 1) :
    Returns outer callers (counted computation) property := by
  intro state hstate
  by_cases hlimit : nestingLimit ≤ state.depth
  · refine ⟨_, _, counted_of_le hlimit, rfl, ⟨[], by simp, nofun⟩, nofun⟩
  · have hroom : outer.depth < nestingLimit := by omega
    obtain ⟨result, after, hresult, hafter, ⟨made, hmade, hnests⟩, hvalue⟩ :=
      h hroom { state with depth := state.depth + 1 } (by rw [hdepth, ← hstate])
    refine ⟨result, { after with depth := after.depth - 1 },
      counted_of_lt (Nat.lt_of_not_le hlimit) hresult, ?_,
      ⟨made, hmade, fun calls hcalls => (hnests calls hcalls).of_enters (henters hroom)⟩, hvalue⟩
    show after.depth - 1 = state.depth
    rw [hafter]
    rfl

end Parts

/-! ## Every procedure ends -/

variable [Resolver ρ]

/-- What a call may call at its own depth is performed, and does not move the cursor back. -/
def InnerReturns (ρ : Type) [Resolver ρ] (call : Call) (callers : List Call) : Prop :=
  ∀ (task : Task) (cursor : Cursor), Call.Below ⟨task.procedure, cursor, call.depth⟩ call →
    task.procedure ≠ .operand →
    Returns call callers (perform (call :: callers) task cursor : Descent ρ (Float × Cursor))
      fun outcome => Ahead cursor outcome.2

section Procedures

variable {cursor : Cursor} {depth : Nat} {callers : List Call}

theorem returns_sequence (hinner : InnerReturns ρ ⟨.sequence, cursor, depth⟩ callers) :
    Returns ⟨.sequence, cursor, depth⟩ callers
      (perform callers .sequence cursor : Descent ρ (Float × Cursor))
      fun outcome => Ahead cursor outcome.2 := by
  rw [perform_eq, procedures]
  refine returns_enter.bind ?_
  rintro _ rfl
  refine (returns_ofEvaluation _).bind fun _ _ => ?_
  refine (hinner .expression _ (.later rfl (by simp)) (by simp)).bind ?_
  exact fun _ _ => returns_pure (.refl cursor)

theorem returns_expression (hinner : InnerReturns ρ ⟨.expression, cursor, depth⟩ callers) :
    Returns ⟨.expression, cursor, depth⟩ callers
      (perform callers .expression cursor : Descent ρ (Float × Cursor))
      fun outcome => Ahead cursor outcome.2 := by
  rw [perform_eq, procedures]
  refine returns_enter.bind ?_
  rintro _ rfl
  refine (returns_next cursor).bind ?_
  rintro ⟨first, _⟩ ⟨rfl, -⟩
  dsimp only
  split
  · exact returns_pure (.of_next cursor)
  · refine (hinner .sum cursor (.of_size (.refl cursor) rfl (by simp)) (by simp)).bind ?_
    rintro ⟨value, between⟩ hsum
    refine (returns_next between).bind ?_
    rintro ⟨last, _⟩ ⟨rfl, -⟩
    dsimp only
    split
    · exact returns_pure (hsum.trans (.of_next between))
    · exact returns_unexpected _

theorem returns_sum (hinner : InnerReturns ρ ⟨.sum, cursor, depth⟩ callers) :
    Returns ⟨.sum, cursor, depth⟩ callers
      (perform callers .sum cursor : Descent ρ (Float × Cursor))
      fun outcome => Ahead cursor outcome.2 := by
  rw [perform_eq, procedures]
  refine returns_enter.bind ?_
  rintro _ rfl
  refine (hinner .product cursor (.of_size (.refl cursor) rfl (by simp)) (by simp)).bind ?_
  rintro ⟨value, between⟩ hproduct
  refine (hinner (.sumRest value) between (.of_size hproduct rfl (by simp)) (by simp)).imp ?_
  exact fun _ => hproduct.trans

theorem returns_sumRest (left : Float)
    (hinner : InnerReturns ρ ⟨.sumRest, cursor, depth⟩ callers) :
    Returns ⟨.sumRest, cursor, depth⟩ callers
      (perform callers (.sumRest left) cursor : Descent ρ (Float × Cursor))
      fun outcome => Ahead cursor outcome.2 := by
  rw [perform_eq, procedures]
  refine returns_enter.bind ?_
  rintro _ rfl
  refine (returns_next cursor).bind ?_
  rintro ⟨token, _⟩ ⟨rfl, hnext⟩
  dsimp only
  cases token.kind.additive? with
  | some operator =>
      -- A right side begins after its operator, so the cursor has moved on.
      refine (hinner .product _ (.of_next hnext (.refl _) rfl) (by simp)).bind ?_
      rintro ⟨right, between⟩ hproduct
      refine (hinner (.sumRest (operator.apply left right)) between
        (.of_next hnext hproduct rfl) (by simp)).imp ?_
      exact fun _ hrest => (Ahead.of_next cursor).trans (hproduct.trans hrest)
  | none =>
      dsimp only
      split
      · exact returns_pure (.refl cursor)
      · exact returns_unexpected _

theorem returns_product (hinner : InnerReturns ρ ⟨.product, cursor, depth⟩ callers) :
    Returns ⟨.product, cursor, depth⟩ callers
      (perform callers .product cursor : Descent ρ (Float × Cursor))
      fun outcome => Ahead cursor outcome.2 := by
  rw [perform_eq, procedures]
  refine returns_enter.bind ?_
  rintro _ rfl
  refine (hinner .factor cursor (.of_size (.refl cursor) rfl (by simp)) (by simp)).bind ?_
  rintro ⟨value, between⟩ hfactor
  refine (hinner (.productRest value) between (.of_size hfactor rfl (by simp)) (by simp)).imp ?_
  exact fun _ => hfactor.trans

theorem returns_productRest (left : Float)
    (hinner : InnerReturns ρ ⟨.productRest, cursor, depth⟩ callers) :
    Returns ⟨.productRest, cursor, depth⟩ callers
      (perform callers (.productRest left) cursor : Descent ρ (Float × Cursor))
      fun outcome => Ahead cursor outcome.2 := by
  rw [perform_eq, procedures]
  refine returns_enter.bind ?_
  rintro _ rfl
  refine (returns_next cursor).bind ?_
  rintro ⟨token, _⟩ ⟨rfl, hnext⟩
  dsimp only
  cases token.kind.multiplicative? with
  | some operator =>
      refine (hinner .factor _ (.of_next hnext (.refl _) rfl) (by simp)).bind ?_
      rintro ⟨right, between⟩ hfactor
      refine (hinner (.productRest (operator.apply left right)) between
        (.of_next hnext hfactor rfl) (by simp)).imp ?_
      exact fun _ hrest => (Ahead.of_next cursor).trans (hfactor.trans hrest)
  | none =>
      dsimp only
      split
      · exact returns_pure (.refl cursor)
      · exact returns_unexpected _

/-- The counter goes up here and nowhere else, as far as the limit allows. -/
theorem returns_factor
    (hoperand : ∀ callers, Call.Below ⟨.operand, cursor, depth + 1⟩ ⟨.factor, cursor, depth⟩ →
      Returns ⟨.operand, cursor, depth + 1⟩ callers
        (perform callers .operand cursor : Descent ρ (Float × Cursor))
        fun outcome => Ahead cursor outcome.2) :
    Returns ⟨.factor, cursor, depth⟩ callers
      (perform callers .factor cursor : Descent ρ (Float × Cursor))
      fun outcome => Ahead cursor outcome.2 := by
  rw [perform_eq, procedures]
  refine returns_enter.bind ?_
  rintro _ rfl
  have hbelow : depth < nestingLimit →
      Call.Below ⟨.operand, cursor, depth + 1⟩ ⟨.factor, cursor, depth⟩ :=
    fun hlimit => .deeper (Nat.lt_succ_self depth) hlimit
  exact .counted (fun hlimit => hoperand _ (hbelow hlimit))
    (fun hlimit => ⟨hbelow hlimit, rfl⟩) rfl

theorem returns_operand (hinner : InnerReturns ρ ⟨.operand, cursor, depth⟩ callers) :
    Returns ⟨.operand, cursor, depth⟩ callers
      (perform callers .operand cursor : Descent ρ (Float × Cursor))
      fun outcome => Ahead cursor outcome.2 := by
  rw [perform_eq, procedures]
  refine returns_enter.bind ?_
  rintro _ rfl
  refine (returns_next cursor).bind ?_
  rintro ⟨token, _⟩ ⟨rfl, -⟩
  dsimp only
  have hnext := Ahead.of_next cursor
  have hfactor := hinner .factor { cursor with position := cursor.position + 1 }
    (.later rfl (by simp)) (by simp)
  cases token.kind with
  | number =>
      cases Numeral.read token.text with
      | ok value => exact returns_pure hnext
      | error error => exact returns_unexpected _
  | variableName =>
      refine (returns_ofEvaluation _).bind fun value _ => ?_
      exact returns_pure hnext
  | leftParen =>
      refine (hinner .sum _ (.later rfl (by simp)) (by simp)).bind ?_
      rintro ⟨value, between⟩ hsum
      refine (returns_next between).bind ?_
      rintro ⟨closing, _⟩ ⟨rfl, -⟩
      dsimp only
      split
      · exact returns_pure (hnext.trans (hsum.trans (.of_next between)))
      · exact returns_unexpected _
  | functionName =>
      refine hfactor.bind ?_
      rintro ⟨argument, between⟩ hargument
      refine (hinner (.application token.text argument) between (.later rfl (by simp))
        (by simp)).imp ?_
      exact fun _ happlied => hnext.trans (hargument.trans happlied)
  | minus =>
      refine hfactor.bind ?_
      exact fun _ hoperand => returns_pure (hnext.trans hoperand)
  | rightParen | plus | star | slash | endOfInput => exact returns_unexpected _

theorem returns_application (name : String) (argument : Float)
    (hinner : InnerReturns ρ ⟨.application, cursor, depth⟩ callers) :
    Returns ⟨.application, cursor, depth⟩ callers
      (perform callers (.application name argument) cursor : Descent ρ (Float × Cursor))
      fun outcome => Ahead cursor outcome.2 := by
  rw [perform_eq, procedures]
  refine returns_enter.bind ?_
  rintro _ rfl
  dsimp only
  cases BuiltIn.ofName? name with
  | some function => exact returns_pure (.refl cursor)
  | none =>
      refine (returns_ofEvaluation _).bind fun function _ => ?_
      split
      · refine (returns_ofEvaluation _).bind fun tokens _ => ?_
        -- The body's tokens are others, and there may be any number of them.
        refine (hinner .sequence _ (.later rfl (by simp)) (by simp)).bind ?_
        exact fun _ _ => returns_pure (.refl cursor)
      · exact returns_throw _

end Procedures

/-- Whatever a resolver answers, every task is performed, with a value or with an error.  The
counter is the same after it as before. -/
theorem perform_returns (task : Task) (cursor : Cursor) (depth : Nat) (callers : List Call) :
    Returns ⟨task.procedure, cursor, depth⟩ callers
      (perform callers task cursor : Descent ρ (Float × Cursor)) fun outcome =>
        Ahead cursor outcome.2 := by
  -- The induction is on the order of calls.
  induction hcall : (⟨task.procedure, cursor, depth⟩ : Call) using
    Call.below_wellFounded.induction generalizing task cursor depth callers with
  | _ call ih =>
  subst hcall
  have hinner : InnerReturns ρ ⟨task.procedure, cursor, depth⟩ callers := by
    intro task' cursor' hbelow hne
    exact (ih _ hbelow _ _ _ _ rfl).of_enters ⟨hbelow, by rw [if_neg hne]; rfl⟩ rfl
  cases task with
  | sequence => exact returns_sequence hinner
  | expression => exact returns_expression hinner
  | sum => exact returns_sum hinner
  | sumRest left => exact returns_sumRest left hinner
  | product => exact returns_product hinner
  | productRest left => exact returns_productRest left hinner
  | factor =>
      refine returns_factor fun callers' hbelow => ?_
      exact ih _ hbelow .operand cursor (depth + 1) callers' rfl
  | operand => exact returns_operand hinner
  | application name argument => exact returns_application name argument hinner

/-! ## From the outermost call on -/

/-- Calls that are open at the same time, the innermost first.  A procedure that is entered again
gets on; the counter is the number of open factors, and both keep to the limit. -/
structure Orderly (calls : List Call) : Prop where
  progress : calls.Pairwise Call.Progress
  counted : ∀ innermost ∈ calls.head?, innermost.depth = openFactors calls
  depth_le : ∀ call ∈ calls, call.depth ≤ nestingLimit
  openFactors_le : openFactors calls ≤ nestingLimit

omit [Resolver ρ] in
theorem Nests.orderly {call : Call} {calls : List Call} (h : Nests call [] calls)
    (hdepth : call.depth = 0) (hprocedure : call.procedure ≠ .operand) : Orderly calls := by
  obtain ⟨inner, rfl, hchain⟩ := h
  have hbelow := pairwise_below hchain
  have hopen : openFactors (inner ++ [call]) = openFactors inner := by
    simp [openFactors, hprocedure]
  have hdepths : ∀ call' ∈ inner ++ [call], call'.depth ≤ nestingLimit := by
    intro call' hcall'
    rcases List.mem_append.1 hcall' with hcall' | hcall'
    · have hlast := (List.pairwise_append.1 hbelow).2.2 call' hcall' call List.mem_cons_self
      cases hlast with
      | deeper _ hlimit => exact hlimit
      | later heq | forward heq | smaller heq => omega
    · rw [List.mem_singleton.1 hcall', hdepth]
      exact Nat.zero_le _
  have hcounted : ∀ innermost ∈ (inner ++ [call]).head?,
      innermost.depth = openFactors (inner ++ [call]) := by
    rw [hopen]
    rcases inner with _ | ⟨first, rest⟩
    · rintro _ ⟨⟩
      exact hdepth
    · rintro _ ⟨⟩
      rw [depth_eq_of_isChain hchain, hdepth, Nat.zero_add]
  refine ⟨hbelow.imp Call.Below.progress, hcounted, hdepths, ?_⟩
  obtain ⟨first, hfirst⟩ : ∃ first, first ∈ (inner ++ [call]).head? := by
    rcases inner with _ | ⟨first, rest⟩ <;> exact ⟨_, rfl⟩
  rw [← hcounted first hfirst]
  exact hdepths first (List.mem_of_mem_head? hfirst)

/-- The evaluation of a text by descent ends. -/
theorem evaluateText_returns (text : String) (state : EvalState ρ) :
    ∃ result after, evaluateText text { toEvalState := state } = some (result, after) ∧
      after.depth = 0 ∧ ∀ calls ∈ after.entered, Orderly calls := by
  rw [evaluateText, bind_apply]
  rcases hread : Evaluation.readText text id state with ⟨error | tokens, after⟩
  · refine ⟨.error error, { toEvalState := after }, ?_, rfl, nofun⟩
    simp only [ofEvaluation, hread]
  · obtain ⟨result, after', hrun, hdepth, ⟨made, hmade, hnests⟩, -⟩ :=
      perform_returns .sequence { tokens := tokens.toList } 0 [] { toEvalState := after } rfl
    have hentered : ∀ calls ∈ after'.entered, Orderly calls := by
      intro calls hcalls
      rw [hmade] at hcalls
      exact (hnests calls hcalls).orderly rfl (by simp)
    simp only [ofEvaluation, hread]
    rw [bind_apply, hrun]
    rcases result with error | ⟨value, cursor⟩
    · exact ⟨.error error, after', rfl, hdepth, hentered⟩
    · exact ⟨.ok value, after', rfl, hdepth, hentered⟩

end Reckoner.Descent
