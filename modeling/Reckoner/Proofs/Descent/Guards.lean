/-
  Reckoner.Proofs.Descent.Guards

  Computations that do the same when their moves are checked.

  A cursor that is on a token of a sequence can be read from, and after any token but the last it is
  on a token again (`On`).  So what a computation does with its cursor can be followed: which tokens
  it passes, and that the parentheses among them are balanced (`Passes`).  A computation is guarded
  if checks make no difference to it and what it rejects is there (`Guards`); there is a rule for
  each way in which a procedure is put together.
-/
import Mathlib.Data.List.Basic
import Reckoner.Proofs.Descent.Checks
import Reckoner.Proofs.Evaluation.Resolve

namespace Reckoner

/-! ## Parentheses -/

/-- How many parentheses are open after the tokens, where some are open before them. There is no
such number if one is closed that is not open. -/
def unclosed (opened : Nat) : List Token → Option Nat
  | [] => some opened
  | token :: rest =>
    match token.kind with
    | .leftParen => unclosed (opened + 1) rest
    | .rightParen => if opened = 0 then none else unclosed (opened - 1) rest
    | _ => unclosed opened rest

/-- Every parenthesis among the tokens is closed after it has been opened. -/
def Balanced (tokens : List Token) : Prop :=
  unclosed 0 tokens = some 0

instance (tokens : List Token) : Decidable (Balanced tokens) :=
  inferInstanceAs (Decidable (unclosed 0 tokens = some 0))

/-- The kind is a parenthesis, a left or a right one. -/
def TokenKind.isParen (kind : TokenKind) : Bool :=
  kind = .leftParen || kind = .rightParen

theorem TokenKind.not_of_additive? {kind : TokenKind} {operator : Operator}
    (h : kind.additive? = some operator) : kind ≠ .endOfInput ∧ ¬ kind.isParen := by
  cases kind <;> cases h <;> decide

theorem TokenKind.not_of_multiplicative? {kind : TokenKind} {operator : Operator}
    (h : kind.multiplicative? = some operator) : kind ≠ .endOfInput ∧ ¬ kind.isParen := by
  cases kind <;> cases h <;> decide

theorem unclosed_append (opened : Nat) (tokens more : List Token) :
    unclosed opened (tokens ++ more)
      = (unclosed opened tokens).bind fun opened => unclosed opened more := by
  induction tokens generalizing opened with
  | nil => rfl
  | cons token rest ih =>
      rw [List.cons_append]
      cases hkind : token.kind <;> simp only [unclosed, hkind, ih]
      split <;> rfl

/-- More open parentheses around the tokens stay open. -/
theorem unclosed_add {opened left : Nat} {tokens : List Token}
    (h : unclosed opened tokens = some left) (more : Nat) :
    unclosed (opened + more) tokens = some (left + more) := by
  induction tokens generalizing opened with
  | nil =>
      obtain rfl : opened = left := Option.some.inj h
      rfl
  | cons token rest ih =>
      cases hkind : token.kind <;> simp only [unclosed, hkind] at h ⊢
      case leftParen =>
        rw [Nat.add_right_comm]
        exact ih h
      case rightParen =>
        obtain ⟨hopened, h⟩ := Option.ite_none_left_eq_some.1 h
        have hmore := ih h
        rw [if_neg (by omega)]
        rwa [show opened - 1 + more = opened + more - 1 by omega] at hmore
      all_goals exact ih h

namespace Balanced

variable {tokens more : List Token}

theorem nil : Balanced [] := rfl

theorem append (h : Balanced tokens) (hmore : Balanced more) : Balanced (tokens ++ more) := by
  rw [Balanced, unclosed_append, h]
  exact hmore

theorem singleton {token : Token} (h : ¬ token.kind.isParen) : Balanced [token] := by
  cases hkind : token.kind <;> simp_all [Balanced, unclosed, TokenKind.isParen]

/-- Tokens in parentheses. -/
theorem parenthesized {opening closing : Token} (hopening : opening.kind = .leftParen)
    (hclosing : closing.kind = .rightParen) (h : Balanced tokens) :
    Balanced (opening :: (tokens ++ [closing])) := by
  have hinside : unclosed 1 tokens = some 1 := unclosed_add h 1
  rw [Balanced, unclosed, hopening]
  simp only
  rw [unclosed_append, hinside]
  simp [unclosed, hclosing]

end Balanced

/-! ## Errors that reject no token -/

/-- The error rejects no token. -/
def EvalError.RejectsNone (error : EvalError) : Prop :=
  ∀ found position, error ≠ .unexpectedToken found position

namespace Evaluation

variable {ρ : Type}

/-- The computation rejects no token. -/
abbrev RejectsNone {α : Type} (computation : Evaluation ρ α) : Prop :=
  Yields (fun _ => True) EvalError.RejectsNone computation fun _ => True

theorem rejectsNone_readText (text : String) (extend : KnownNames → KnownNames) :
    RejectsNone (readText text extend : Evaluation ρ TokenSequence) := by
  intro state _
  rw [readText_apply]
  cases tokenize (extend state.environment.knownNames) text with
  | ok tokens => exact ⟨trivial, trivial⟩
  | error error => exact ⟨trivial, nofun⟩

variable [Resolver ρ]

theorem rejectsNone_resolve (name : String) : RejectsNone (resolve name : Evaluation ρ Float) := by
  intro state _
  rcases resolve_cases name state with ⟨value, -, hresolve⟩ | ⟨-, hresolve⟩ |
    ⟨reason | value, resolver, -, -, -, hresolve⟩
  all_goals rw [hresolve]
  · exact ⟨trivial, trivial⟩
  · exact ⟨trivial, nofun⟩
  · exact ⟨trivial, nofun⟩
  · exact ⟨trivial, trivial⟩

theorem rejectsNone_bindVariables (tokens : List Token) :
    RejectsNone (bindVariables tokens : Evaluation ρ Unit) :=
  yields_forM fun token _ => (rejectsNone_resolve token.text).discard

theorem rejectsNone_askFunction (name : String) :
    RejectsNone (askFunction name : Evaluation ρ UserFunction) := by
  intro state _
  rcases hanswer : Resolver.function state.resolver name with ⟨reason | function, resolver⟩
  · rw [askFunction_of_error hanswer]
    exact ⟨trivial, nofun⟩
  · rw [askFunction_of_ok hanswer]
    exact ⟨trivial, trivial⟩

end Evaluation

namespace Descent

variable {ρ α β : Type}

/-! ## Cursors on a sequence -/

/-- The cursor is on a token of the sequence, on the last one at most. -/
structure On (tokens : TokenSequence) (cursor : Cursor) : Prop where
  tokens_eq : cursor.tokens = tokens.toList
  position_le : cursor.position ≤ tokens.body.length

theorem On.start (tokens : TokenSequence) : On tokens { tokens := tokens.toList } :=
  ⟨rfl, Nat.zero_le _⟩

section Cursors

variable {tokens : TokenSequence} {cursor between after : Cursor} {token : Token}

theorem length_toList (tokens : TokenSequence) : tokens.toList.length = tokens.body.length + 1 :=
  List.length_append

theorem On.position_lt (h : On tokens cursor) : cursor.position < cursor.tokens.length := by
  rw [h.tokens_eq, length_toList]
  exact Nat.lt_succ_of_le h.position_le

/-- After a token that is not the end there is another. -/
theorem On.next (h : On tokens cursor) (htoken : tokens.toList[cursor.position]? = some token)
    (hkind : token.kind ≠ .endOfInput) :
    On tokens { cursor with position := cursor.position + 1 } := by
  refine ⟨h.tokens_eq, Nat.lt_of_le_of_ne h.position_le fun heq => hkind ?_⟩
  rw [heq, TokenSequence.toList, List.getElem?_concat_length] at htoken
  obtain rfl := Option.some.inj htoken
  rfl

/-- The cursor has passed tokens whose parentheses are balanced, and is on a token again. -/
structure Passes (tokens : TokenSequence) (cursor after : Cursor) : Prop where
  on : On tokens after
  position_le : cursor.position ≤ after.position
  balanced : Balanced (tokens.toList.extract cursor.position after.position)

theorem extract_append_extract {l : List α} {first second third : Nat} (h : first ≤ second)
    (h' : second ≤ third) : l.extract first second ++ l.extract second third
      = l.extract first third := by
  have hsum : third - first = (second - first) + (third - second) := by omega
  have hsecond : first + (second - first) = second := by omega
  rw [List.extract_eq_take_drop, List.extract_eq_take_drop, List.extract_eq_take_drop, hsum,
    List.take_add, List.drop_drop, hsecond]

theorem extract_succ {l : List α} {position : Nat} {value : α} (h : l[position]? = some value) :
    l.extract position (position + 1) = [value] := by
  obtain ⟨hlt, rfl⟩ := List.getElem?_eq_some_iff.1 h
  rw [List.extract_eq_take_drop, Nat.add_sub_cancel_left, List.drop_eq_getElem_cons hlt]
  rfl

theorem Passes.refl (h : On tokens cursor) : Passes tokens cursor cursor :=
  ⟨h, Nat.le_refl _, by simp [Balanced, unclosed]⟩

theorem Passes.trans (h : Passes tokens cursor between) (h' : Passes tokens between after) :
    Passes tokens cursor after where
  on := h'.on
  position_le := Nat.le_trans h.position_le h'.position_le
  balanced := by
    rw [← extract_append_extract h.position_le h'.position_le]
    exact h.balanced.append h'.balanced

/-- A token that is no parenthesis is passed. -/
theorem On.passes (h : On tokens cursor) (htoken : tokens.toList[cursor.position]? = some token)
    (hkind : token.kind ≠ .endOfInput) (hparen : ¬ token.kind.isParen) :
    Passes tokens cursor { cursor with position := cursor.position + 1 } := by
  refine ⟨h.next htoken hkind, Nat.le_succ _, ?_⟩
  rw [extract_succ htoken]
  exact .singleton hparen

/-- Tokens in parentheses are passed. -/
theorem Passes.parenthesized {opening closing : Token}
    (hopening : tokens.toList[cursor.position]? = some opening)
    (hopeningKind : opening.kind = .leftParen)
    (hinside : Passes tokens { cursor with position := cursor.position + 1 } between)
    (hclosing : tokens.toList[between.position]? = some closing)
    (hclosingKind : closing.kind = .rightParen) :
    Passes tokens cursor { between with position := between.position + 1 } := by
  have hle : cursor.position + 1 ≤ between.position := hinside.position_le
  refine ⟨hinside.on.next hclosing (by rw [hclosingKind]; decide), by dsimp only; omega, ?_⟩
  dsimp only
  rw [← extract_append_extract (Nat.le_succ cursor.position) (by omega), extract_succ hopening,
    ← extract_append_extract hle (Nat.le_succ between.position), extract_succ hclosing]
  exact .parenthesized hopeningKind hclosingKind hinside.balanced

end Cursors

/-! ## Computations whose moves may be checked -/

/-- Calls are made where the cursor is on a token of a sequence. -/
def Placed (made : List (List Call)) : Prop :=
  ∀ calls ∈ made, ∀ call ∈ calls.head?, ∃ tokens, On tokens call.cursor

/-- If the error rejects a token, it is one of these, or one on which a call has been made. -/
def Rejects (own : List Token) (made : List (List Call)) (error : EvalError) : Prop :=
  ∀ found position, error = .unexpectedToken found position → ∃ token : Token,
    (token ∈ own ∨ ∃ calls ∈ made, ∃ call ∈ calls.head?, token ∈ call.cursor.tokens) ∧
      found = token.describe ∧ position = token.position

/-- The computation does the same when its moves are checked.  It makes calls only on tokens,
rejects only tokens that are there, and a value has the property. -/
def Guards (own : List Token) (checked plain : Descent ρ α) (property : α → Prop) : Prop :=
  ∀ state, checked state = plain state ∧
    ∀ result after, plain state = some (result, after) →
      ∃ made, after.entered = state.entered ++ made ∧ Placed made ∧
        match result with
        | .ok value => property value
        | .error error => Rejects own made error

section Guards

variable {own : List Token} {checked plain : Descent ρ α} {property : α → Prop}
  {tokens : TokenSequence} {cursor after : Cursor}

theorem placed_nil : Placed [] := nofun

theorem Placed.append {made more : List (List Call)} (h : Placed made) (hmore : Placed more) :
    Placed (made ++ more) :=
  List.forall_mem_append.2 ⟨h, hmore⟩

theorem Rejects.mono {own' : List Token} {made made' : List (List Call)} {error : EvalError}
    (h : Rejects own made error) (hown : own ⊆ own') (hmade : made ⊆ made') :
    Rejects own' made' error := by
  intro found position heq
  obtain ⟨token, htoken | ⟨calls, hcalls, hcall⟩, hfound⟩ := h found position heq
  · exact ⟨token, .inl (hown htoken), hfound⟩
  · exact ⟨token, .inr ⟨calls, hmade hcalls, hcall⟩, hfound⟩

theorem guards_pure {value : α} (h : property value) :
    Guards own (pure value : Descent ρ α) (pure value) property := by
  refine fun state => ⟨rfl, ?_⟩
  rintro _ _ ⟨⟩
  exact ⟨[], (List.append_nil _).symm, placed_nil, h⟩

theorem guards_throw {error : EvalError} (h : Rejects own [] error) :
    Guards own (throw error : Descent ρ α) (throw error) property := by
  refine fun state => ⟨rfl, ?_⟩
  rintro _ _ ⟨⟩
  exact ⟨[], (List.append_nil _).symm, placed_nil, h⟩

theorem Guards.bind {next next' : α → Descent ρ β} {further : β → Prop}
    (h : Guards own checked plain property)
    (hnext : ∀ value, property value → Guards own (next value) (next' value) further) :
    Guards own (checked >>= next) (plain >>= next') further := by
  intro state
  obtain ⟨heq, hafter⟩ := h state
  rw [bind_apply, bind_apply, heq]
  rcases hplain : plain state with _ | ⟨error | value, middle⟩
  · exact ⟨rfl, nofun⟩
  · refine ⟨rfl, ?_⟩
    rintro _ _ ⟨⟩
    exact hafter _ _ hplain
  · obtain ⟨made, hmade, hplaced, hvalue⟩ := hafter _ _ hplain
    obtain ⟨heq', hafter'⟩ := hnext value hvalue middle
    refine ⟨heq', fun result after hresult => ?_⟩
    obtain ⟨made', hmade', hplaced', hresult'⟩ := hafter' result after hresult
    refine ⟨made ++ made', by rw [hmade', hmade, List.append_assoc], hplaced.append hplaced', ?_⟩
    cases result with
    | ok value => exact hresult'
    | error error => exact hresult'.mono (List.Subset.refl _) (List.subset_append_right _ _)

theorem Guards.imp {further : α → Prop} (h : Guards own checked plain property)
    (himp : ∀ value, property value → further value) : Guards own checked plain further := by
  intro state
  obtain ⟨heq, hafter⟩ := h state
  refine ⟨heq, fun result after hresult => ?_⟩
  obtain ⟨made, hmade, hplaced, hproperty⟩ := hafter result after hresult
  refine ⟨made, hmade, hplaced, ?_⟩
  cases result with
  | ok value => exact himp value hproperty
  | error error => exact hproperty

/-- A call is recorded on the tokens that its procedure may reject. -/
theorem guards_enter {body body' : List Call → Descent ρ α} (hon : On tokens cursor)
    (callers : List Call) (procedure : Procedure)
    (h : ∀ calls, Guards tokens.toList (body calls) (body' calls) property) :
    Guards own (enter callers procedure cursor >>= body) (enter callers procedure cursor >>= body')
      property := by
  intro state
  let call : Call := ⟨procedure, cursor, state.depth⟩
  obtain ⟨heq, hafter⟩ := h (call :: callers)
    { state with entered := state.entered ++ [call :: callers] }
  refine ⟨heq, fun result after hresult => ?_⟩
  obtain ⟨made, hmade, hplaced, hproperty⟩ := hafter result after hresult
  refine ⟨(call :: callers) :: made, by rw [hmade, List.append_assoc]; rfl, ?_, ?_⟩
  · rintro calls (_ | ⟨_, hcalls⟩)
    · rintro _ ⟨⟩
      exact ⟨tokens, hon⟩
    · exact hplaced calls hcalls
  · cases result with
    | ok value => exact hproperty
    | error error =>
        intro found position heq
        obtain ⟨token, htoken, hfound⟩ := hproperty found position heq
        refine ⟨token, .inr ?_, hfound⟩
        rcases htoken with htoken | ⟨calls, hcalls, hcall⟩
        · exact ⟨_, List.mem_cons_self, call, rfl, hon.tokens_eq ▸ htoken⟩
        · exact ⟨calls, List.mem_cons_of_mem _ hcalls, hcall⟩

theorem guards_ofEvaluation {computation : Evaluation ρ α}
    (h : Evaluation.RejectsNone computation) :
    Guards own (ofEvaluation computation) (ofEvaluation computation) fun _ => True := by
  intro state
  obtain ⟨-, herror⟩ := h state.toEvalState trivial
  refine ⟨rfl, ?_⟩
  rintro _ _ ⟨⟩
  refine ⟨[], (List.append_nil _).symm, placed_nil, ?_⟩
  rcases hrun : (computation state.toEvalState).1 with error | value
  · rw [hrun] at herror
    exact fun found position heq => absurd heq (herror found position)
  · trivial

theorem Guards.counted (h : Guards own checked plain property) :
    Guards own (counted checked) (counted plain) property := by
  intro state
  obtain ⟨heq, hafter⟩ := h { state with depth := state.depth + 1 }
  refine ⟨by rw [Descent.counted, Descent.counted, heq], fun result after hresult => ?_⟩
  rcases counted_eq_some_iff.1 hresult with ⟨-, houtcome⟩ | ⟨-, _, _, hinside, houtcome⟩
  all_goals cases houtcome
  · refine ⟨[], (List.append_nil _).symm, placed_nil, ?_⟩
    rintro _ _ ⟨⟩
  · have hplaced := hafter _ _ hinside
    exact hplaced

/-- A token is read where there is one. -/
theorem guards_next (hon : On tokens cursor) :
    Guards own (Moves.checked.next cursor : Descent ρ (Token × Cursor)) (next cursor) fun outcome =>
      tokens.toList[cursor.position]? = some outcome.1 ∧
        outcome.2 = { cursor with position := cursor.position + 1 } := by
  obtain ⟨token, htoken⟩ : ∃ token, cursor.tokens[cursor.position]? = some token :=
    ⟨_, List.getElem?_eq_getElem hon.position_lt⟩
  have hnext : (next cursor : Descent ρ (Token × Cursor))
      = pure (token, { cursor with position := cursor.position + 1 }) := by
    rw [next, Cursor.next, htoken]
  rw [Moves.checked]
  dsimp only
  rw [if_pos hon.position_lt, hnext]
  rw [hon.tokens_eq] at htoken
  exact guards_pure ⟨htoken, rfl⟩

/-- The cursor goes back after it has read. -/
theorem guards_back {next : Cursor → Descent ρ α} {next' : Descent ρ α}
    (h : Guards own (next cursor) next' property) :
    Guards own (Moves.checked.back { cursor with position := cursor.position + 1 } >>= next) next'
      property := by
  rw [Moves.checked]
  dsimp only
  rw [if_pos (Nat.succ_pos _), pure_bind]
  exact h

/-- A token that has been read is rejected. -/
theorem guards_reject {token : Token} {position : Nat} (hcursor : cursor.tokens = tokens.toList)
    (htoken : tokens.toList[position]? = some token)
    {property : Float × Cursor → Prop} :
    Guards tokens.toList (Moves.checked.reject cursor token : Descent ρ (Float × Cursor))
      (unexpected token) property := by
  have hmem : token ∈ tokens.toList := List.mem_of_getElem? htoken
  rw [Moves.checked]
  dsimp only
  rw [if_pos (hcursor ▸ hmem)]
  refine guards_throw fun found position heq => ⟨token, .inl hmem, ?_⟩
  cases heq
  exact ⟨rfl, rfl⟩

/-- What a call guards on its own, it guards as a part of another. -/
theorem Guards.weaken (h : Guards [] checked plain property) :
    Guards own checked plain property := by
  intro state
  obtain ⟨heq, hafter⟩ := h state
  refine ⟨heq, fun result after hresult => ?_⟩
  obtain ⟨made, hmade, hplaced, hproperty⟩ := hafter result after hresult
  refine ⟨made, hmade, hplaced, ?_⟩
  cases result with
  | ok value => exact hproperty
  | error error => exact hproperty.mono (List.nil_subset _) (List.Subset.refl _)

end Guards

end Descent

end Reckoner
