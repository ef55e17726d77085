/-
  Reckoner.Proofs.Descent.Recursion

  The recursion of a descent.

  A task is performed as its procedure says, the calls in it included (`perform_eq`).  This is all
  that has to be known of `perform`; the levels of calls that it goes by do not matter after that.

  A procedure makes only a few calls, and needs nothing of them but their outcomes.  So what it
  comes to with more and more levels is what it comes to with all of them
  (`approaches_procedures`).
-/
import Mathlib.Tactic.SplitIfs
import Reckoner.Proofs.Descent.Basic

namespace Reckoner.Descent

variable {ρ α β : Type}

/-! ## Computations that end in more and more states -/

theorem bind_eq_some_iff {first : Descent ρ α} {next : α → Descent ρ β} {state : State ρ}
    {outcome : Except EvalError β × State ρ} :
    (first >>= next) state = some outcome ↔
      (∃ value middle, first state = some (.ok value, middle) ∧ next value middle = some outcome) ∨
        ∃ error middle, first state = some (.error error, middle) ∧
          outcome = (.error error, middle) := by
  rw [bind_apply]
  rcases first state with _ | ⟨error | value, middle⟩ <;> simp [and_assoc, eq_comm]

theorem counted_eq_some_iff {computation : Descent ρ α} {state : State ρ}
    {outcome : Except EvalError α × State ρ} :
    counted computation state = some outcome ↔
      (nestingLimit ≤ state.depth ∧ outcome = (.error (.nestingLimit nestingLimit), state)) ∨
        state.depth < nestingLimit ∧ ∃ result after,
          computation { state with depth := state.depth + 1 } = some (result, after) ∧
            outcome = (result, { after with depth := after.depth - 1 }) := by
  rcases Nat.lt_or_ge state.depth nestingLimit with hlt | hle
  · rcases hrun : computation { state with depth := state.depth + 1 } with _ | ⟨result, after⟩
    · simp [counted, Nat.not_le_of_lt hlt, hrun]
    · simp [counted_of_lt hlt hrun, Nat.not_le_of_lt hlt, hlt, and_assoc, eq_comm]
  · simp [counted_of_le hle, hle, Nat.not_lt_of_le hle, eq_comm]

/-- The second computation ends wherever the first does, and in the same way. -/
def Extends (first second : Descent ρ α) : Prop :=
  ∀ state outcome, first state = some outcome → second state = some outcome

namespace Extends

theorem refl (computation : Descent ρ α) : Extends computation computation :=
  fun _ _ h => h

theorem bind {first second : Descent ρ α} {next next' : α → Descent ρ β} (h : Extends first second)
    (hnext : ∀ value, Extends (next value) (next' value)) :
    Extends (first >>= next) (second >>= next') := by
  intro state outcome hsome
  rw [bind_eq_some_iff] at hsome ⊢
  rcases hsome with ⟨value, middle, hfirst, hvalue⟩ | ⟨error, middle, hfirst, heq⟩
  · exact .inl ⟨value, middle, h _ _ hfirst, hnext value _ _ hvalue⟩
  · exact .inr ⟨error, middle, h _ _ hfirst, heq⟩

theorem counted {first second : Descent ρ α} (h : Extends first second) :
    Extends (counted first) (counted second) := by
  intro state outcome hsome
  rw [counted_eq_some_iff] at hsome ⊢
  rcases hsome with hlimit | ⟨hlimit, result, after, hinside, heq⟩
  · exact .inl hlimit
  · exact .inr ⟨hlimit, result, after, h _ _ hinside, heq⟩

end Extends

/-- Every stage extends those before it, and the limit ends where one of them does. -/
structure Approaches (stages : Nat → Descent ρ α) (limit : Descent ρ α) : Prop where
  extends_of_le : ∀ {m n}, m ≤ n → Extends (stages m) (stages n)
  extends_limit : ∀ n, Extends (stages n) limit
  exists_stage : ∀ {state outcome}, limit state = some outcome → ∃ n, stages n state = some outcome

namespace Approaches

variable {stages : Nat → Descent ρ α} {limit : Descent ρ α}

theorem const (computation : Descent ρ α) : Approaches (fun _ => computation) computation where
  extends_of_le := fun _ => .refl computation
  extends_limit := fun _ => .refl computation
  exists_stage := fun h => ⟨0, h⟩

theorem bind {nextStages : Nat → α → Descent ρ β} {nextLimit : α → Descent ρ β}
    (h : Approaches stages limit)
    (hnext : ∀ value, Approaches (fun n => nextStages n value) (nextLimit value)) :
    Approaches (fun n => stages n >>= nextStages n) (limit >>= nextLimit) where
  extends_of_le := fun hle =>
    (h.extends_of_le hle).bind fun value => (hnext value).extends_of_le hle
  extends_limit := fun n => (h.extends_limit n).bind fun value => (hnext value).extends_limit n
  exists_stage := by
    intro state outcome hsome
    rcases bind_eq_some_iff.1 hsome with
      ⟨value, middle, hfirst, hvalue⟩ | ⟨error, middle, hfirst, heq⟩
    · -- The later one of the two stages is late enough for both.
      obtain ⟨m, hm⟩ := h.exists_stage hfirst
      obtain ⟨n, hn⟩ := (hnext value).exists_stage hvalue
      exact ⟨max m n, bind_eq_some_iff.2 (.inl ⟨value, middle,
        h.extends_of_le (Nat.le_max_left m n) _ _ hm,
        (hnext value).extends_of_le (Nat.le_max_right m n) _ _ hn⟩)⟩
    · obtain ⟨n, hn⟩ := h.exists_stage hfirst
      exact ⟨n, bind_eq_some_iff.2 (.inr ⟨error, middle, hn, heq⟩)⟩

theorem counted (h : Approaches stages limit) :
    Approaches (fun n => counted (stages n)) (counted limit) where
  extends_of_le := fun hle => (h.extends_of_le hle).counted
  extends_limit := fun n => (h.extends_limit n).counted
  exists_stage := by
    intro state outcome hsome
    rcases counted_eq_some_iff.1 hsome with hlimit | ⟨hlimit, result, after, hinside, heq⟩
    · exact ⟨0, counted_eq_some_iff.2 (.inl hlimit)⟩
    · obtain ⟨n, hn⟩ := h.exists_stage hinside
      exact ⟨n, counted_eq_some_iff.2 (.inr ⟨hlimit, result, after, hn, heq⟩)⟩

/-- Two computations are stages of the second. -/
theorem of_extends {first second : Descent ρ α} (h : Extends first second) :
    Approaches (fun n => if n = 0 then first else second) second where
  extends_of_le := by
    intro m n hle
    split_ifs with hm hn
    · exact .refl first
    · exact h
    · omega
    · exact .refl second
  extends_limit := by
    intro n
    split_ifs
    · exact h
    · exact .refl second
  exists_stage := fun hsome => ⟨1, hsome⟩

end Approaches

/-! ## Levels of calls -/

variable [Resolver ρ]

/-- If ways to perform the calls approach a limit, the procedures approach what they do with it. -/
theorem approaches_procedures {stages : Nat → Performer ρ} {limit : Performer ρ}
    (h : ∀ callers task cursor,
      Approaches (fun n => stages n callers task cursor) (limit callers task cursor))
    (callers : List Call) (task : Task) (cursor : Cursor) :
    Approaches (fun n => procedures (stages n) callers task cursor)
      (procedures limit callers task cursor) := by
  refine .bind (.const _) fun calls => ?_
  cases task with
  | sequence =>
      refine .bind (.const _) fun _ => ?_
      exact .bind (h _ _ _) fun _ => .const _
  | expression =>
      refine .bind (.const _) fun (first, after) => ?_
      dsimp only
      split_ifs
      · exact .const _
      · exact .bind (h _ _ _) fun _ => .const _
  | sum => exact .bind (h _ _ _) fun _ => h _ _ _
  | sumRest left =>
      refine .bind (.const _) fun (token, after) => ?_
      dsimp only
      cases token.kind.additive? with
      | some operator => exact .bind (h _ _ _) fun _ => h _ _ _
      | none => exact .const _
  | product => exact .bind (h _ _ _) fun _ => h _ _ _
  | productRest left =>
      refine .bind (.const _) fun (token, after) => ?_
      dsimp only
      cases token.kind.multiplicative? with
      | some operator => exact .bind (h _ _ _) fun _ => h _ _ _
      | none => exact .const _
  | factor => exact .counted (h _ _ _)
  | operand =>
      refine .bind (.const _) fun (token, after) => ?_
      dsimp only
      cases token.kind with
      | leftParen | minus => exact .bind (h _ _ _) fun _ => .const _
      | functionName => exact .bind (h _ _ _) fun _ => h _ _ _
      | number | variableName | rightParen | plus | star | slash | endOfInput => exact .const _
  | application name argument =>
      dsimp only
      cases BuiltIn.ofName? name with
      | some function => exact .const _
      | none =>
          refine .bind (.const _) fun function => ?_
          split_ifs
          · refine .bind (.const _) fun _ => ?_
            exact .bind (h _ _ _) fun _ => .const _
          · exact .const _

/-- What approaches limits is monotone, as the greater of two computations is their limit. -/
theorem extends_procedures {first second : Performer ρ}
    (h : ∀ callers task cursor, Extends (first callers task cursor) (second callers task cursor))
    (callers : List Call) (task : Task) (cursor : Cursor) :
    Extends (procedures first callers task cursor) (procedures second callers task cursor) := by
  have hstages : ∀ callers task cursor,
      Approaches (fun n => (if n = 0 then first else second) callers task cursor)
        (second callers task cursor) := by
    intro callers task cursor
    simp only [ite_apply]
    exact .of_extends (h callers task cursor)
  exact (approaches_procedures hstages callers task cursor).extends_limit 0

/-- More levels change nothing where some are enough. -/
theorem extends_performWithin {m n : Nat} (hle : m ≤ n) (callers : List Call) (task : Task)
    (cursor : Cursor) :
    Extends (performWithin m callers task cursor : Descent ρ (Float × Cursor))
      (performWithin n callers task cursor) := by
  induction m generalizing n callers task cursor with
  | zero => rintro _ _ ⟨⟩
  | succ m ih =>
      obtain ⟨n, rfl⟩ : ∃ n', n = n' + 1 := ⟨n - 1, by omega⟩
      exact extends_procedures (ih (Nat.le_of_succ_le_succ hle)) callers task cursor

theorem approaches_perform (callers : List Call) (task : Task) (cursor : Cursor) :
    Approaches (fun levels => performWithin levels callers task cursor)
      (perform callers task cursor : Descent ρ (Float × Cursor)) where
  extends_of_le := fun hle => extends_performWithin hle callers task cursor
  extends_limit := by
    intro levels state outcome hsome
    have h : ∃ levels, (performWithin levels callers task cursor state).isSome :=
      ⟨levels, by rw [hsome, Option.isSome_some]⟩
    have hle : Nat.find h ≤ levels := Nat.find_min' h (by rw [hsome, Option.isSome_some])
    obtain ⟨found, hfound⟩ := Option.isSome_iff_exists.1 (Nat.find_spec h)
    rw [perform, dif_pos h, hfound, ← hsome]
    exact (extends_performWithin hle _ _ _ _ _ hfound).symm
  exists_stage := by
    intro state outcome hsome
    rw [perform] at hsome
    split at hsome
    · exact ⟨_, hsome⟩
    · cases hsome

/-- A task is performed as its procedure says. -/
theorem perform_eq (callers : List Call) (task : Task) (cursor : Cursor) :
    (perform callers task cursor : Descent ρ (Float × Cursor))
      = procedures perform callers task cursor := by
  have hperform := @approaches_perform ρ _ callers task cursor
  have hprocedures := approaches_procedures (@approaches_perform ρ _) callers task cursor
  funext state
  refine Option.ext fun outcome => ⟨fun hsome => ?_, fun hsome => ?_⟩
  · obtain ⟨levels, hlevels⟩ := hperform.exists_stage hsome
    have hmore := hperform.extends_of_le (Nat.le_succ levels) _ _ hlevels
    exact hprocedures.extends_limit levels _ _ hmore
  · obtain ⟨levels, hlevels⟩ := hprocedures.exists_stage hsome
    exact hperform.extends_limit (levels + 1) _ _ hlevels

end Reckoner.Descent
