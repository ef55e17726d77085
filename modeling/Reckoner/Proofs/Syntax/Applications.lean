/-
  Reckoner.Proofs.Syntax.Applications

  The steps by which the calls of a text are carried out (`Program.exists_apply_of_calls`).

  In the grammar a function takes any factor.  In a text a parenthesis follows its name, so what it
  takes is a parenthesis and there is a factor inside: wherever a function is applied, two factors
  more are open for a while.
-/
import Reckoner.Proofs.Syntax.Stacks
import Reckoner.Proofs.Token.Calls

namespace Reckoner

theorem Tree.enter_mem_steps (tree : Tree) (opened : Nat) : .enter opened ∈ tree.steps opened := by
  induction tree with
  | number | variableName | parenthesis | application | negation => exact List.mem_cons_self
  | operation operator left right ihLeft _ =>
      exact List.mem_append_left _ (List.mem_append_left _ ihLeft)

namespace Derives

/-- A factor that begins with a parenthesis is one. -/
theorem exists_parenthesis {tokens : List Token} {tree : Tree} (h : Derives .factor tokens tree)
    (hhead : ∀ token ∈ tokens.head?, token.kind = .leftParen) :
    ∃ inner, tree = .parenthesis inner := by
  cases h with
  | parenthesis => exact ⟨_, rfl⟩
  | number hkind | variableName hkind | application hkind | negation hkind =>
      rw [hhead _ rfl] at hkind
      cases hkind

/-- Every function of a phrase is applied, and two factors more are entered around it. -/
theorem exists_apply {phrase : Phrase} {tokens : List Token} {tree : Tree} {token : Token}
    (h : Derives phrase tokens tree) (hcalled : tokens.IsChain Called) (htoken : token ∈ tokens)
    (hkind : token.kind = .functionName) (opened : Nat) :
    ∃ number, .apply token.text number ∈ tree.steps opened ∧
      .enter (number + 2) ∈ tree.steps opened := by
  have hother {other : Token} (hne : other.kind ≠ .functionName) : token ≠ other :=
    fun heq => hne (heq ▸ hkind)
  induction h generalizing opened with
  | number hleaf | variableName hleaf =>
      exact absurd (List.mem_singleton.1 htoken) (hother (by rw [hleaf]; decide))
  | @parenthesis opening closing tokens inner hopening _ hclosing ih =>
      have hinner : token ∈ tokens := by
        rcases List.mem_append.1 ((List.mem_cons.1 htoken).resolve_left
          (hother (by rw [hopening]; decide))) with htoken | htoken
        · exact htoken
        · exact absurd (List.mem_singleton.1 htoken) (hother (by rw [hclosing]; decide))
      obtain ⟨number, happly, henter⟩ := ih hcalled.tail.left_of_append hinner (opened + 1)
      exact ⟨number, List.mem_cons_of_mem _ happly, List.mem_cons_of_mem _ henter⟩
  | @application function tokens argument hfunction hargument ih =>
      rcases List.mem_cons.1 htoken with rfl | htoken
      · -- The argument is a parenthesis, so a factor begins two factors further in.
        have hhead : ∀ next ∈ tokens.head?, next.kind = .leftParen :=
          fun next hnext => hcalled.rel_head? hnext hfunction
        obtain ⟨inner, rfl⟩ := hargument.exists_parenthesis hhead
        refine ⟨opened, ?_, ?_⟩
        · simp [Tree.steps]
        · simp [Tree.steps, Tree.enter_mem_steps]
      · obtain ⟨number, happly, henter⟩ := ih hcalled.tail htoken (opened + 1)
        exact ⟨number, List.mem_cons_of_mem _ (List.mem_append_left _ happly),
          List.mem_cons_of_mem _ (List.mem_append_left _ henter)⟩
  | @negation sign tokens operand hsign _ ih =>
      have hoperand := (List.mem_cons.1 htoken).resolve_left (hother (by rw [hsign]; decide))
      obtain ⟨number, happly, henter⟩ := ih hcalled.tail hoperand (opened + 1)
      exact ⟨number, List.mem_cons_of_mem _ (List.mem_append_left _ happly),
        List.mem_cons_of_mem _ (List.mem_append_left _ henter)⟩
  | productOfFactor _ ih | sumOfProduct _ ih => exact ih hcalled htoken opened
  | product _ hoperator _ ihLeft ihRight | sum _ hoperator _ ihLeft ihRight =>
      rcases List.mem_append.1 htoken with hleft | hright
      · obtain ⟨number, happly, henter⟩ := ihLeft hcalled.left_of_append hleft opened
        exact ⟨number, by simp [Tree.steps, happly], by simp [Tree.steps, henter]⟩
      · have hright := (List.mem_cons.1 hright).resolve_left (hother fun hfunction => by
          rw [hfunction] at hoperator
          cases hoperator)
        obtain ⟨number, happly, henter⟩ := ihRight hcalled.right_of_append.tail hright opened
        exact ⟨number, by simp [Tree.steps, happly], by simp [Tree.steps, henter]⟩

end Derives

/-- Every call of a text is carried out by its program if no token offends. -/
theorem Program.exists_apply_of_calls {names : KnownNames} {text name : String}
    {tokens : TokenSequence} (hlexed : tokenize names text = .ok tokens)
    (hoffending : (ofTokens tokens).offending = none) (hcalls : Calls text name) :
    ∃ number, .apply name number ∈ (ofTokens tokens).steps ∧
      .enter (number + 2) ∈ (ofTokens tokens).steps := by
  obtain ⟨token, htoken, hkind, rfl⟩ := (calls_iff_of_tokenize hlexed).1 hcalls
  obtain ⟨tree, hsentence⟩ := exists_sentence_of_offending_eq_none hoffending
  have hcalled := (tokenize_eq_ok_iff.1 hlexed).1.isChain
  rw [ofTokens_of_sentence hsentence (readable_of_tokenize hlexed)]
  generalize tokens.body = body at hsentence htoken hcalled
  cases hsentence with
  | empty => cases htoken
  | sum hsum => exact hsum.exists_apply hcalled htoken hkind 0

end Reckoner
