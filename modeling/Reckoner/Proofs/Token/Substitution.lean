/-
  Reckoner.Proofs.Token.Substitution

  Several substitutions, one after the other and all at once
  (`TokenSequence.substituteAll_at_once`).

  A number that has been written in place of a variable may be spelled like a name: `inf` and `NaN`
  are names as well.  But its token is that of a number, and numbers are not substituted.  So a
  substitution never reaches what an earlier one has written, and of the values that are listed for
  a name the first one holds, whatever the entries for other names before and after it.
-/
import Reckoner.Token.Basic
import Mathlib.Data.List.Forall2

namespace Reckoner

/-! ## Tokens -/

namespace Token

/-- The token with a number in place of a variable, the first one that is listed for its name. -/
def substituteAtOnce (values : List (String × Float)) (token : Token) : Token :=
  match token.kind, values.lookup token.text with
  | .variableName, some value => ⟨.number, Numeral.ofFloat value, token.position⟩
  | _, _ => token

/-- What a token is replaced by where values are listed for names: a variable by a number in the
same place, if its name is listed, and any other token by itself. -/
inductive Replaced (values : List (String × Float)) (token : Token) : Token → Prop
  | number {before after : List (String × Float)} {value : Float}
      (kind : token.kind = .variableName)
      (first : values = before ++ (token.text, value) :: after)
      (unlisted : ∀ entry ∈ before, entry.1 ≠ token.text) :
      Replaced values token ⟨.number, Numeral.ofFloat value, token.position⟩
  | kept (unlisted : token.kind = .variableName → ∀ entry ∈ values, entry.1 ≠ token.text) :
      Replaced values token token

variable {values : List (String × Float)} {token : Token}

theorem substituteAtOnce_of_lookup {value : Float} (hkind : token.kind = .variableName)
    (hlookup : values.lookup token.text = some value) :
    token.substituteAtOnce values = ⟨.number, Numeral.ofFloat value, token.position⟩ := by
  rw [substituteAtOnce, hkind, hlookup]

theorem substituteAtOnce_of_unlisted
    (h : token.kind = .variableName → values.lookup token.text = none) :
    token.substituteAtOnce values = token := by
  rw [substituteAtOnce]
  split
  · next hkind hlookup => exact absurd (hlookup.symm.trans (h hkind)) nofun
  · rfl

/-- A number that has just been written is left as it is, even if its spelling is listed. -/
theorem substituteAtOnce_substitute (name : String) (value : Float) :
    (token.substitute name value).substituteAtOnce values
      = token.substituteAtOnce ((name, value) :: values) := by
  by_cases hkind : token.kind = .variableName
  · by_cases hname : token.text = name
    · have hlookup : ((name, value) :: values).lookup token.text = some value := by
        rw [hname, List.lookup_cons_self]
      rw [substitute_eq hkind hname, substituteAtOnce_of_lookup hkind hlookup]
      -- What has been written is a number, and for a number nothing is looked up.
      exact substituteAtOnce_of_unlisted nofun
    · have hlookup : ((name, value) :: values).lookup token.text = values.lookup token.text := by
        rw [List.lookup_cons, beq_false_of_ne hname]
      rw [substitute_of_ne fun _ => hname, substituteAtOnce, substituteAtOnce, hlookup]
  · rw [substitute_of_ne fun h => absurd h hkind,
      substituteAtOnce_of_unlisted fun h => absurd h hkind,
      substituteAtOnce_of_unlisted fun h => absurd h hkind]

theorem replaced_substituteAtOnce (values : List (String × Float)) (token : Token) :
    token.Replaced values (token.substituteAtOnce values) := by
  by_cases hkind : token.kind = .variableName
  · cases hlookup : values.lookup token.text with
    | none =>
        have hne := List.lookup_eq_none_iff.1 hlookup
        rw [substituteAtOnce_of_unlisted fun _ => hlookup]
        exact .kept fun _ entry hentry => (bne_iff_ne.1 (hne entry hentry)).symm
    | some value =>
        obtain ⟨before, after, hfirst, hne⟩ := List.lookup_eq_some_iff.1 hlookup
        rw [substituteAtOnce_of_lookup hkind hlookup]
        exact .number hkind hfirst fun entry hentry => (bne_iff_ne.1 (hne entry hentry)).symm
  · rw [substituteAtOnce_of_unlisted fun h => absurd h hkind]
    exact .kept fun h => absurd h hkind

theorem Replaced.position_eq {token' : Token} (h : token.Replaced values token') :
    token'.position = token.position := by
  cases h <;> rfl

theorem Replaced.kind_ne_endOfInput {token' : Token} (h : token.Replaced values token')
    (hkind : token.kind ≠ .endOfInput) : token'.kind ≠ .endOfInput := by
  cases h with
  | number => exact nofun
  | kept => exact hkind

end Token

/-! ## Token sequences -/

namespace TokenSequence

/-- The sequence with a number in place of each variable that has a value in the list. -/
def substituteAtOnce (tokens : TokenSequence) (values : List (String × Float)) : TokenSequence :=
  { body := tokens.body.map (Token.substituteAtOnce values)
    endPosition := tokens.endPosition
    body_kind := fun token member => by
      obtain ⟨old, isOld, rfl⟩ := List.mem_map.1 member
      exact (old.replaced_substituteAtOnce values).kind_ne_endOfInput (tokens.body_kind old isOld) }

theorem substituteAtOnce_nil (tokens : TokenSequence) : tokens.substituteAtOnce [] = tokens := by
  have hbody : tokens.body.map (Token.substituteAtOnce []) = tokens.body :=
    List.map_id'' (fun _ => Token.substituteAtOnce_of_unlisted fun _ => rfl) _
  simp only [substituteAtOnce, hbody]

theorem substituteAtOnce_substitute (tokens : TokenSequence) (name : String) (value : Float)
    (values : List (String × Float)) :
    (tokens.substitute name value).substituteAtOnce values
      = tokens.substituteAtOnce ((name, value) :: values) := by
  simp only [substituteAtOnce, substitute, List.map_map, Function.comp_def,
    Token.substituteAtOnce_substitute]

/-- Substitutions one after the other are the same as all at once. -/
theorem substituteAll_eq (tokens : TokenSequence) (values : List (String × Float)) :
    tokens.substituteAll values = tokens.substituteAtOnce values := by
  induction values generalizing tokens with
  | nil => exact tokens.substituteAtOnce_nil.symm
  | cons entry values ih =>
      calc tokens.substituteAll (entry :: values)
          = (tokens.substitute entry.1 entry.2).substituteAll values := rfl
        _ = (tokens.substitute entry.1 entry.2).substituteAtOnce values := ih _
        _ = tokens.substituteAtOnce (entry :: values) :=
            tokens.substituteAtOnce_substitute entry.1 entry.2 values

theorem toList_substituteAtOnce (tokens : TokenSequence) (values : List (String × Float)) :
    (tokens.substituteAtOnce values).toList
      = tokens.toList.map (Token.substituteAtOnce values) := by
  have hend : (Token.atEnd tokens.endPosition).substituteAtOnce values
      = Token.atEnd tokens.endPosition := Token.substituteAtOnce_of_unlisted nofun
  rw [toList, toList, List.map_append, List.map_singleton, hend]
  rfl

end TokenSequence

/-! ## The order of the entries -/

/-- What is found for a name is in the first of the entries for it. -/
theorem lookup_eq_head?_filter (values : List (String × Float)) (name : String) :
    values.lookup name = (values.filter (·.1 = name)).head?.map Prod.snd := by
  induction values with
  | nil => rfl
  | cons entry values ih =>
      obtain ⟨other, value⟩ := entry
      by_cases hname : name = other
      · subst hname
        simp
      · rw [List.lookup_cons, beq_false_of_ne hname, ih, List.filter_cons_of_neg]
        simpa using Ne.symm hname

theorem TokenSequence.substituteAtOnce_congr (tokens : TokenSequence)
    {values others : List (String × Float)}
    (h : ∀ name, values.lookup name = others.lookup name) :
    tokens.substituteAtOnce values = tokens.substituteAtOnce others := by
  have htoken : Token.substituteAtOnce values = Token.substituteAtOnce others := by
    funext token
    rw [Token.substituteAtOnce, Token.substituteAtOnce, h]
  simp only [substituteAtOnce, htoken]

/-- Substitutions one after the other replace every variable by the first value that is listed for
its name, in the same place, and leave all other tokens as they are.  There are as many tokens as
before, at the same positions, and only the last one is the end.  Lists that have the same entries
for each name in the same order, whatever the order of entries for different names, make the same
sequence. -/
theorem TokenSequence.substituteAll_at_once :
    (∀ (tokens : TokenSequence) (values : List (String × Float)),
      tokens.substituteAll values = tokens.substituteAtOnce values ∧
      List.Forall₂ (Token.Replaced values) tokens.toList (tokens.substituteAll values).toList ∧
      (tokens.substituteAll values).toList.length = tokens.toList.length ∧
      (tokens.substituteAll values).toList.map Token.position
        = tokens.toList.map Token.position ∧
      ∃ before, (tokens.substituteAll values).toList
          = before ++ [Token.atEnd tokens.endPosition] ∧
        ∀ token ∈ before, token.kind ≠ .endOfInput) ∧
    ∀ {values others : List (String × Float)},
      (∀ name, values.filter (·.1 = name) = others.filter (·.1 = name)) →
      ∀ tokens : TokenSequence, tokens.substituteAll values = tokens.substituteAll others := by
  constructor
  · intro tokens values
    have hlist := tokens.toList_substituteAtOnce values
    rw [substituteAll_eq]
    refine ⟨rfl, ?_, ?_, ?_, _, rfl, (tokens.substituteAtOnce values).body_kind⟩
    · rw [hlist, List.forall₂_map_right_iff, List.forall₂_same]
      exact fun token _ => token.replaced_substituteAtOnce values
    · rw [hlist, List.length_map]
    · rw [hlist, List.map_map]
      exact List.map_congr_left fun token _ => (token.replaced_substituteAtOnce values).position_eq
  · intro values others hsame tokens
    rw [substituteAll_eq, substituteAll_eq]
    -- A look-up finds the first of the entries for the name, and these are the same.
    refine tokens.substituteAtOnce_congr fun name => ?_
    rw [lookup_eq_head?_filter, lookup_eq_head?_filter, hsame]

/-- The infinity in place of `t` is not taken for the name `inf`, whichever of the two is
substituted first, and neither are the number and the function that are spelled like the names. -/
theorem TokenSequence.substituteAll_at_once_of_infinity :
    ∃ tokens : TokenSequence,
      tokens.toList = [⟨.variableName, "t", 0⟩, ⟨.star, "*", 1⟩, ⟨.number, "inf", 2⟩,
        ⟨.plus, "+", 5⟩, ⟨.functionName, "t", 6⟩, ⟨.leftParen, "(", 7⟩, ⟨.variableName, "inf", 8⟩,
        ⟨.rightParen, ")", 11⟩, ⟨.endOfInput, "", 12⟩] ∧
      tokens.substituteAll [("t", Float.ofBits 0x7FF0000000000000), ("inf", 2), ("t", 3)]
        = tokens.substituteAll [("inf", 2), ("t", Float.ofBits 0x7FF0000000000000), ("t", 3)] ∧
      (tokens.substituteAll [("t", Float.ofBits 0x7FF0000000000000), ("inf", 2), ("t", 3)]).toList
        = [⟨.number, "inf", 0⟩, ⟨.star, "*", 1⟩, ⟨.number, "inf", 2⟩, ⟨.plus, "+", 5⟩,
            ⟨.functionName, "t", 6⟩, ⟨.leftParen, "(", 7⟩, ⟨.number, "2", 8⟩,
            ⟨.rightParen, ")", 11⟩, ⟨.endOfInput, "", 12⟩] := by
  let tokens : TokenSequence :=
    { body := [⟨.variableName, "t", 0⟩, ⟨.star, "*", 1⟩, ⟨.number, "inf", 2⟩, ⟨.plus, "+", 5⟩,
        ⟨.functionName, "t", 6⟩, ⟨.leftParen, "(", 7⟩, ⟨.variableName, "inf", 8⟩,
        ⟨.rightParen, ")", 11⟩]
      endPosition := 12
      body_kind := by decide }
  obtain ⟨hatOnce, hreordered⟩ := substituteAll_at_once
  refine ⟨tokens, rfl, hreordered (fun name => ?_) tokens, ?_⟩
  · by_cases hname : "t" = name
    · subst hname
      rfl
    · -- The entries for `t` are out of the way, and those for `inf` are never exchanged.
      simp [List.filter_cons, hname]
  · obtain ⟨hsame, -⟩ := hatOnce tokens
      [("t", Float.ofBits 0x7FF0000000000000), ("inf", 2), ("t", 3)]
    rw [hsame]
    decide +kernel

end Reckoner
