/-
  Reckoner.Proofs.Syntax.Stacks

  The programs of token sequences fit the stack they are run on.

  Every step finds its operands (`fits_ofTokens`).  The height of the stack is known from the frames
  alone: where a factor has to begin it holds the left sides of the operators that wait, and where
  a factor has just ended it holds that factor too.  A program loads no names but those of the
  variables among its tokens (`exists_of_load_mem_steps`), and applies no functions but those among
  its tokens, each around a factor that it has entered (`exists_of_apply_mem_steps`).
-/
import Reckoner.Proofs.Syntax.Programs

namespace Reckoner

/-! ## Heights -/

namespace Step

/-- How many numbers the step takes off the stack. -/
def operands : Step → Nat
  | .negate | .apply _ _ => 1
  | .combine _ => 2
  | .enter _ | .literal _ | .load _ => 0

/-- How many numbers the step puts on the stack. -/
def results : Step → Nat
  | .enter _ => 0
  | .literal _ | .load _ | .negate | .combine _ | .apply _ _ => 1

end Step

/-- Each of the steps finds its operands on a stack that has the height at first. -/
def Fits : Nat → List Step → Prop
  | _, [] => True
  | height, step :: rest =>
    step.operands ≤ height ∧ Fits (height - step.operands + step.results) rest

namespace Frame

/-- How many operators wait for their right side. -/
def pending (frames : List Frame) : Nat :=
  frames.countP fun frame => !frame.isFactor

theorem pending_cons_of_isFactor {frame : Frame} {outer : List Frame} (h : frame.isFactor) :
    pending (frame :: outer) = pending outer :=
  List.countP_cons_of_neg (by simpa using h)

theorem pending_cons_of_isFactor_eq_false {frame : Frame} {outer : List Frame}
    (h : frame.isFactor = false) : pending (frame :: outer) = pending outer + 1 :=
  List.countP_cons_of_pos (by simpa using h)

theorem fits_closeFactor {frames : List Frame} {rest : List Step}
    (h : Fits (pending (closeFactor frames).2 + 1) rest) :
    Fits (pending frames + 1) ((closeFactor frames).1 ++ rest) := by
  induction frames with
  | nil => exact h
  | cons frame outer ih =>
      cases frame with
      | parenthesis => exact h
      | sum operator => exact h
      -- Signs and functions replace the top of the stack, operators the two numbers there.
      | sign =>
          rw [pending_cons_of_isFactor rfl]
          exact ⟨Nat.le_add_left .., ih h⟩
      | function name =>
          rw [pending_cons_of_isFactor rfl]
          exact ⟨Nat.le_add_left .., ih h⟩
      | product operator =>
          rw [pending_cons_of_isFactor_eq_false rfl]
          exact ⟨Nat.le_add_left .., ih h⟩

theorem fits_closeProduct {frames : List Frame} {rest : List Step}
    (h : Fits (pending (closeProduct frames).2 + 1) rest) :
    Fits (pending frames + 1) ((closeProduct frames).1 ++ rest) := by
  cases frames with
  | nil => exact h
  | cons frame outer =>
      cases frame with
      | sum operator =>
          rw [pending_cons_of_isFactor_eq_false rfl]
          exact ⟨Nat.le_add_left .., h⟩
      | parenthesis | sign | function name | product operator => exact h

/-- What is taken when a factor ends.  A function that is applied then was open around it. -/
theorem mem_closeFactor_cases {frames : List Frame} {step : Step}
    (h : step ∈ (closeFactor frames).1) :
    step = .negate ∨ (∃ operator, step = .combine operator) ∨
      ∃ name number, step = .apply name number ∧ .function name ∈ frames ∧
        number < opened frames := by
  induction frames with
  | nil => cases h
  | cons frame outer ih =>
      -- What was open around the frame is open around the factor.
      have houter (h : step ∈ (closeFactor outer).1) (hle : opened outer ≤ opened (frame :: outer)) :
          step = .negate ∨ (∃ operator, step = .combine operator) ∨
            ∃ name number, step = .apply name number ∧ .function name ∈ frame :: outer ∧
              number < opened (frame :: outer) := by
        refine (ih h).imp_right (Or.imp_right ?_)
        rintro ⟨name, number, rfl, hopen, hlt⟩
        exact ⟨name, number, rfl, List.mem_cons_of_mem _ hopen, Nat.lt_of_lt_of_le hlt hle⟩
      cases frame with
      | parenthesis | sum => cases h
      | sign =>
          rcases List.mem_cons.1 h with rfl | h
          · exact .inl rfl
          · exact houter h (by rw [Program.opened_cons_of_isFactor outer rfl]; omega)
      | product operator =>
          rcases List.mem_cons.1 h with rfl | h
          · exact .inr (.inl ⟨operator, rfl⟩)
          · exact houter h (by rw [Program.opened_cons_of_isFactor_eq_false outer rfl])
      | function name =>
          rcases List.mem_cons.1 h with rfl | h
          · refine .inr (.inr ⟨name, opened outer, rfl, List.mem_cons_self, ?_⟩)
            rw [Program.opened_cons_of_isFactor outer rfl]
            omega
          · exact houter h (by rw [Program.opened_cons_of_isFactor outer rfl]; omega)

/-- What is taken when a product ends. -/
theorem mem_closeProduct_cases {frames : List Frame} {step : Step}
    (h : step ∈ (closeProduct frames).1) : ∃ operator, step = .combine operator := by
  cases frames with
  | nil => cases h
  | cons frame outer =>
      cases frame with
      | sum operator => exact ⟨operator, List.mem_singleton.1 h⟩
      | parenthesis | sign | function | product => cases h

theorem load_notMem_closeFactor (frames : List Frame) (name : String) :
    .load name ∉ (closeFactor frames).1 := by
  intro h
  rcases mem_closeFactor_cases h with h | ⟨_, h⟩ | ⟨_, _, h, -⟩ <;> cases h

theorem load_notMem_closeProduct (frames : List Frame) (name : String) :
    .load name ∉ (closeProduct frames).1 := by
  intro h
  obtain ⟨_, h⟩ := mem_closeProduct_cases h
  cases h

theorem enter_notMem_closeFactor (frames : List Frame) (number : Nat) :
    .enter number ∉ (closeFactor frames).1 := by
  intro h
  rcases mem_closeFactor_cases h with h | ⟨_, h⟩ | ⟨_, _, h, -⟩ <;> cases h

theorem enter_notMem_closeProduct (frames : List Frame) (number : Nat) :
    .enter number ∉ (closeProduct frames).1 := by
  intro h
  obtain ⟨_, h⟩ := mem_closeProduct_cases h
  cases h

theorem apply_notMem_closeProduct (frames : List Frame) (name : String) (number : Nat) :
    .apply name number ∉ (closeProduct frames).1 := by
  intro h
  obtain ⟨_, h⟩ := mem_closeProduct_cases h
  cases h

theorem apply_mem_closeFactor {frames : List Frame} {name : String} {number : Nat}
    (h : .apply name number ∈ (closeFactor frames).1) :
    .function name ∈ frames ∧ number < opened frames := by
  rcases mem_closeFactor_cases h with h | ⟨_, h⟩ | ⟨_, _, h, hopen⟩
  · cases h
  · cases h
  · obtain ⟨rfl, rfl⟩ := Step.apply.inj h
    exact hopen

end Frame

/-! ## Programs -/

namespace Program

open Reckoner.Frame

/-- The height of the stack where a token is read. -/
theorem reading_fits (stop : Token) :
    Reading stop (fun frames _ program => Fits (pending frames) program.steps)
      (fun frames _ program => Fits (pending frames + 1) program.steps) where
  operandEnd := fun _ => ⟨Nat.zero_le _, trivial⟩
  leaf := by
    intro frames token rest step program hleaf hrest
    rcases Token.leaf?_cases hleaf with ⟨-, value, -, rfl⟩ | ⟨-, rfl⟩
    · exact ⟨Nat.zero_le _, Nat.zero_le _, fits_closeFactor hrest⟩
    · exact ⟨Nat.zero_le _, Nat.zero_le _, fits_closeFactor hrest⟩
  opening := by
    intro frames token rest frame program hopens hrest
    rw [pending_cons_of_isFactor (Token.isFactor_of_opens? hopens)] at hrest
    exact ⟨Nat.zero_le _, hrest⟩
  operandOffends := fun _ _ _ _ _ => ⟨Nat.zero_le _, trivial⟩
  closed := by
    intro frames _
    have hclosed : Fits (pending frames + 1) ((closeProduct frames).1 ++ []) :=
      fits_closeProduct trivial
    rwa [List.append_nil] at hclosed
  unclosed := fun _ _ => trivial
  multiplicative := by
    intro frames token rest operator program _ hrest
    rwa [pending_cons_of_isFactor_eq_false rfl] at hrest
  additive := by
    intro frames token rest operator program _ hrest
    rw [pending_cons_of_isFactor_eq_false rfl] at hrest
    exact fits_closeProduct hrest
  closing := by
    intro frames outer token rest program _ hclose hrest
    have hinner : Fits (pending (closeProduct frames).2 + 1)
        ((closeFactor outer).1 ++ program.steps) := by
      rw [hclose, pending_cons_of_isFactor rfl]
      exact fits_closeFactor hrest
    have hboth := fits_closeProduct hinner
    rwa [← List.append_assoc] at hboth
  operatorOffends := fun _ _ _ _ => trivial

/-- The steps of a token sequence find their operands. -/
theorem fits_ofTokens (tokens : TokenSequence) : Fits 0 (ofTokens tokens).steps := by
  rw [ofTokens]
  rcases tokens.body with _ | ⟨first, rest⟩
  · exact ⟨Nat.le_refl 0, trivial⟩
  · exact ((reading_fits _).program (first :: rest)).1 []

/-- Every name that the program loads is that of a variable among the tokens. -/
def LoadsVariables (tokens : List Token) (program : Program) : Prop :=
  ∀ name, .load name ∈ program.steps →
    ∃ token ∈ tokens, token.kind = .variableName ∧ token.text = name

theorem LoadsVariables.cons {tokens : List Token} {program : Program}
    (h : LoadsVariables tokens program) (token : Token) {steps : List Step}
    (hsteps : ∀ name, .load name ∈ steps → token.kind = .variableName ∧ token.text = name) :
    LoadsVariables (token :: tokens) (program.prepend steps) := by
  intro name hname
  rcases List.mem_append.1 hname with hname | hname
  · exact ⟨token, List.mem_cons_self, hsteps name hname⟩
  · obtain ⟨token', hmem, htoken'⟩ := h name hname
    exact ⟨token', List.mem_cons_of_mem _ hmem, htoken'⟩

theorem loadsVariables_of_steps_eq_nil {tokens : List Token} {program : Program}
    (h : program.steps = []) : LoadsVariables tokens program := by
  intro name hname
  rw [h] at hname
  cases hname

/-- What the tokens read load. -/
theorem reading_loadsVariables (stop : Token) :
    Reading stop (fun _ => LoadsVariables) (fun _ => LoadsVariables) where
  operandEnd := by
    intro frames name hname
    simp [prepend, halted] at hname
  leaf := by
    intro frames token rest step program hleaf hrest
    refine hrest.cons token fun name hname => ?_
    simp only [List.mem_cons, reduceCtorEq, load_notMem_closeFactor, false_or, or_false] at hname
    rcases Token.leaf?_cases hleaf with ⟨-, value, -, rfl⟩ | ⟨hkind, rfl⟩
    · cases hname
    · exact ⟨hkind, (Step.load.inj hname).symm⟩
  opening := fun _ token _ _ _ _ hrest => hrest.cons token (by simp)
  operandOffends := fun _ token _ _ _ =>
    (loadsVariables_of_steps_eq_nil rfl : LoadsVariables _ (halted token)).cons token (by simp)
  closed := fun frames _ name hname => absurd hname (load_notMem_closeProduct frames name)
  unclosed := fun _ _ => loadsVariables_of_steps_eq_nil rfl
  multiplicative := fun _ token _ _ program _ hrest =>
    (hrest.cons token nofun : LoadsVariables _ (program.prepend []))
  additive := fun frames token _ _ _ _ hrest =>
    hrest.cons token fun name hname => absurd hname (load_notMem_closeProduct frames name)
  closing := by
    intro frames outer token rest program _ _ hrest
    refine hrest.cons token fun name hname => ?_
    rcases List.mem_append.1 hname with hname | hname
    · exact absurd hname (load_notMem_closeProduct frames name)
    · exact absurd hname (load_notMem_closeFactor outer name)
  operatorOffends := fun _ _ _ _ => loadsVariables_of_steps_eq_nil rfl

/-- The names that a program loads are those of variables among the tokens. -/
theorem exists_of_load_mem_steps {tokens : TokenSequence} {name : String}
    (h : .load name ∈ (ofTokens tokens).steps) :
    ∃ token ∈ tokens.body, token.kind = .variableName ∧ token.text = name := by
  rw [ofTokens] at h
  rcases hbody : tokens.body with _ | ⟨first, rest⟩
  · simp [hbody] at h
  · rw [hbody] at h
    exact ((reading_loadsVariables _).program (first :: rest)).1 [] name h

/-! ## Applications -/

theorem closeFactor_suffix (frames : List Frame) : (closeFactor frames).2 <:+ frames := by
  induction frames with
  | nil => exact List.suffix_rfl
  | cons frame outer ih =>
      cases frame with
      | parenthesis | sum => exact List.suffix_rfl
      | sign | function | product => exact ih.trans (List.suffix_cons _ _)

theorem closeProduct_suffix (frames : List Frame) : (closeProduct frames).2 <:+ frames := by
  cases frames with
  | nil => exact List.suffix_rfl
  | cons frame outer =>
      cases frame with
      | sum => exact List.suffix_cons _ _
      | parenthesis | sign | function | product => exact List.suffix_rfl

theorem opened_le_of_suffix {frames outer : List Frame} (h : outer <:+ frames) :
    opened outer ≤ opened frames :=
  h.sublist.countP_le

/-- Every application is that of a function that is open or among the tokens, and it is around a
factor that is open or entered by the program. -/
def AppliesWithin (frames : List Frame) (tokens : List Token) (program : Program) : Prop :=
  ∀ name number, .apply name number ∈ program.steps →
    (.function name ∈ frames ∨ ∃ token ∈ tokens, token.kind = .functionName ∧ token.text = name) ∧
    (number < opened frames ∨ ∃ inner, number < inner ∧ .enter inner ∈ program.steps)

/-- A token is read, and with it functions that were open are applied.  What is open after it was
open before it, or is the function just read. -/
theorem AppliesWithin.cons {frames inner : List Frame} {tokens : List Token} {program : Program}
    (h : AppliesWithin inner tokens program) (token : Token) {steps : List Step}
    (hfunctions : ∀ name, .function name ∈ inner →
      .function name ∈ frames ∨ (token.kind = .functionName ∧ token.text = name))
    (hopened : ∀ number, number < opened inner →
      number < opened frames ∨ ∃ entered, number < entered ∧ .enter entered ∈ program.steps)
    (hsteps : ∀ name number, .apply name number ∈ steps →
      .function name ∈ frames ∧ number < opened frames) :
    AppliesWithin frames (token :: tokens) (program.prepend steps) := by
  intro name number hmem
  rcases List.mem_append.1 hmem with hmem | hmem
  · obtain ⟨hopen, hlt⟩ := hsteps name number hmem
    exact ⟨.inl hopen, .inl hlt⟩
  · obtain ⟨hfunction, hinside⟩ := h name number hmem
    refine ⟨?_, ?_⟩
    · rcases hfunction with hfunction | ⟨other, hother, hname⟩
      · rcases hfunctions name hfunction with hfunction | hname
        · exact .inl hfunction
        · exact .inr ⟨token, List.mem_cons_self, hname⟩
      · exact .inr ⟨other, List.mem_cons_of_mem _ hother, hname⟩
    · have hentered : number < opened frames ∨
          ∃ entered, number < entered ∧ .enter entered ∈ program.steps :=
        hinside.elim (hopened number) .inr
      refine hentered.imp_right ?_
      rintro ⟨entered, hlt, hmem⟩
      exact ⟨entered, hlt, List.mem_append_right _ hmem⟩

/-- A token that opens nothing. -/
theorem AppliesWithin.cons_of_suffix {frames inner : List Frame} {tokens : List Token}
    {program : Program} (h : AppliesWithin inner tokens program) (token : Token)
    {steps : List Step} (hsuffix : inner <:+ frames)
    (hsteps : ∀ name number, .apply name number ∈ steps →
      .function name ∈ frames ∧ number < opened frames) :
    AppliesWithin frames (token :: tokens) (program.prepend steps) :=
  h.cons token (fun _ hmem => .inl (hsuffix.mem hmem))
    (fun _ hlt => .inl (Nat.lt_of_lt_of_le hlt (opened_le_of_suffix hsuffix))) hsteps

theorem appliesWithin_of_steps {frames : List Frame} {tokens : List Token} {program : Program}
    (h : ∀ name number, .apply name number ∉ program.steps) :
    AppliesWithin frames tokens program :=
  fun name number hmem => absurd hmem (h name number)

/-- What the tokens read apply.  Where a factor has to begin, it is entered at once. -/
theorem reading_appliesWithin (stop : Token) :
    Reading stop
      (fun frames tokens program =>
        .enter (opened frames) ∈ program.steps ∧ AppliesWithin frames tokens program)
      AppliesWithin where
  operandEnd := fun _ => ⟨List.mem_cons_self, appliesWithin_of_steps (by simp [prepend, halted])⟩
  leaf := by
    intro frames token rest step program hleaf hrest
    refine ⟨List.mem_cons_self, hrest.cons_of_suffix token (closeFactor_suffix frames) ?_⟩
    intro name number hmem
    have hclose : .apply name number ∈ (closeFactor frames).1 := by
      rcases Token.leaf?_cases hleaf with ⟨-, value, -, rfl⟩ | ⟨-, rfl⟩
      · simpa using hmem
      · simpa using hmem
    exact apply_mem_closeFactor hclose
  opening := by
    rintro frames token rest frame program hopens ⟨hentered, hwithin⟩
    refine ⟨List.mem_cons_self, hwithin.cons token ?_ ?_ (by simp)⟩
    · intro name hmem
      rcases List.mem_cons.1 hmem with rfl | hmem
      · -- The function has just been read.
        rcases Token.opens?_cases hopens with ⟨-, hframe⟩ | ⟨hkind, hframe⟩ | ⟨-, hframe⟩
        · cases hframe
        · exact .inr ⟨hkind, (Frame.function.inj hframe).symm⟩
        · cases hframe
      · exact .inl hmem
    · exact fun number hlt => .inr ⟨_, hlt, hentered⟩
  operandOffends := fun _ _ _ _ _ =>
    ⟨List.mem_cons_self, appliesWithin_of_steps (by simp [prepend, halted])⟩
  closed := fun frames _ => appliesWithin_of_steps (apply_notMem_closeProduct frames)
  unclosed := fun _ _ => appliesWithin_of_steps fun _ _ => List.not_mem_nil
  multiplicative := by
    rintro frames token rest operator program - ⟨hentered, hwithin⟩
    show AppliesWithin frames (token :: rest) (program.prepend [])
    exact hwithin.cons token (fun name hmem => .inl (by simpa using hmem))
      (fun number hlt => .inr ⟨_, hlt, hentered⟩) (by simp)
  additive := by
    rintro frames token rest operator program - ⟨hentered, hwithin⟩
    refine hwithin.cons token (fun name hmem => .inl ?_)
      (fun number hlt => .inr ⟨_, hlt, hentered⟩)
      fun name number hmem => absurd hmem (apply_notMem_closeProduct frames name number)
    exact (closeProduct_suffix frames).mem (by simpa using hmem)
  closing := by
    intro frames outer token rest program _ hclose hwithin
    have houter : outer <:+ frames := by
      have hsuffix := closeProduct_suffix frames
      rw [hclose] at hsuffix
      exact (List.suffix_cons _ _).trans hsuffix
    refine hwithin.cons_of_suffix token ((closeFactor_suffix outer).trans houter) ?_
    intro name number hmem
    rcases List.mem_append.1 hmem with hmem | hmem
    · exact absurd hmem (apply_notMem_closeProduct frames name number)
    · obtain ⟨hopen, hlt⟩ := apply_mem_closeFactor hmem
      exact ⟨houter.mem hopen, Nat.lt_of_lt_of_le hlt (opened_le_of_suffix houter)⟩
  operatorOffends := fun _ _ _ _ => appliesWithin_of_steps fun _ _ => List.not_mem_nil

/-- A program applies functions among its tokens only, each around a factor that it enters. -/
theorem exists_of_apply_mem_steps {tokens : TokenSequence} {name : String} {number : Nat}
    (h : .apply name number ∈ (ofTokens tokens).steps) :
    (∃ token ∈ tokens.body, token.kind = .functionName ∧ token.text = name) ∧
    ∃ inner, number < inner ∧ .enter inner ∈ (ofTokens tokens).steps := by
  rw [ofTokens] at h ⊢
  rcases hbody : tokens.body with _ | ⟨first, rest⟩
  · simp [hbody] at h
  · rw [hbody] at h
    obtain ⟨hfunction, hinside⟩ :=
      (((reading_appliesWithin _).program (first :: rest)).1 []).2 name number h
    exact ⟨hfunction.resolve_left List.not_mem_nil, hinside.resolve_left (Nat.not_lt_zero _)⟩

end Program

end Reckoner
