/-
  Reckoner.Proofs.Token.Calls

  Which functions a text calls can be told without its tokens (`calls_iff_of_tokenize`).

  A call is a word right before a parenthesis.  The known names decide how the other words are
  split, and whether the text has tokens at all, but they have no say in its calls.
-/
import Mathlib.Data.List.Chain
import Reckoner.Proofs.Token.Cover

namespace Reckoner

open Unicode Lexer

/-- The name is a word of the text, and a parenthesis follows it. -/
def Calls (text name : String) : Prop :=
  ∃ start stop, IsWord text.toList start stop ∧
    text.toList.extract start stop = name.toList ∧ text.toList[stop]? = some '('

/-! ## Words -/

theorem mem_extract {source : List Char} {start stop k : Nat} {c : Char} (hlow : start ≤ k)
    (hhigh : k < stop) (hc : source[k]? = some c) : c ∈ source.extract start stop := by
  have hwithin : (source.extract start stop)[k - start]? = some c := by
    rw [List.extract_eq_take_drop, List.getElem?_take_of_lt (by omega), List.getElem?_drop,
      Nat.add_sub_cancel' hlow, hc]
  exact List.mem_of_getElem? hwithin

namespace IsWord

variable {source : List Char} {start stop start' stop' k : Nat}

theorem exists_isAlphabetic (h : IsWord source start stop) (hlow : start ≤ k) (hhigh : k < stop) :
    ∃ c, source[k]? = some c ∧ isAlphabetic c := by
  have hlength : k < source.length := Nat.lt_of_lt_of_le hhigh h.stop_le_length
  have hc : source[k]? = some source[k] := List.getElem?_eq_getElem hlength
  exact ⟨source[k], hc, h.alphabetic _ (mem_extract hlow hhigh hc)⟩

/-- A word does not begin within another. -/
theorem start_le (h : IsWord source start stop) (h' : IsWord source start' stop')
    (hhigh' : start < stop') : start ≤ start' := by
  by_contra hlt
  obtain ⟨c, hc, halphabetic⟩ := h'.exists_isAlphabetic (k := start - 1) (by omega) (by omega)
  exact h.before (start - 1) (by omega) c hc halphabetic

/-- A word does not end within another. -/
theorem stop_le (h : IsWord source start stop) (h' : IsWord source start' stop')
    (hlow' : start' ≤ stop) : stop' ≤ stop := by
  by_contra hlt
  obtain ⟨c, hc, halphabetic⟩ := h'.exists_isAlphabetic hlow' (by omega)
  exact h.after c hc halphabetic

/-- Words that have a position in common are the same. -/
theorem eq_of_contains (h : IsWord source start stop) (h' : IsWord source start' stop')
    (hk : start ≤ k ∧ k < stop) (hk' : start' ≤ k ∧ k < stop') : start = start' ∧ stop = stop' :=
  ⟨Nat.le_antisymm (h.start_le h' (by omega)) (h'.start_le h (by omega)),
    Nat.le_antisymm (h'.stop_le h (by omega)) (h.stop_le h' (by omega))⟩

end IsWord

/-! ## The tokens of calls -/

/-- The calls of a text are the names of functions among its tokens. -/
theorem calls_iff_of_tokenize {names : KnownNames} {text name : String} {tokens : TokenSequence}
    (h : tokenize names text = .ok tokens) :
    Calls text name ↔ ∃ token ∈ tokens.body, token.kind = .functionName ∧ token.text = name := by
  obtain ⟨hpieces, -⟩ := tokenize_eq_ok_iff.1 h
  have hstart : Pieces names ([] : List Char).length text.toList tokens.body := hpieces
  constructor
  · rintro ⟨start, stop, hword, hname, hcall⟩
    -- The first character of the word lies in a token; it is the kind of the token that is open.
    obtain ⟨c, hc, halphabetic⟩ := hword.exists_isAlphabetic (Nat.le_refl _) hword.start_lt_stop
    obtain ⟨token, htoken, hcontains⟩ := (hstart.exists_contains_iff (Nat.zero_le start) hc).2
      fun hwhite => not_isAlphabetic_of_isWhiteSpace hwhite halphabetic
    have hstands : text.toList.extract token.position token.stop = token.text.toList :=
      hstart.stands token htoken
    have hmem : c ∈ token.text.toList := hstands ▸ mem_extract hcontains.1 hcontains.2 hc
    have hin : start ≤ start ∧ start < stop := ⟨Nat.le_refl _, hword.start_lt_stop⟩
    rcases hpieces.mem_cases htoken with ⟨symbol, hsymbol, htext⟩ | ⟨-, hliteral, -⟩ |
      ⟨hkind, hword', -⟩ | ⟨-, first, last, own, hown, hmemOwn, -⟩
    · rw [htext, String.toList_singleton] at hmem
      obtain rfl := List.mem_singleton.1 hmem
      exact absurd halphabetic (TokenKind.not_of_ofSymbol? hsymbol).2.2
    · exact absurd halphabetic (not_of_isNumeralChar (hliteral.numeral c hmem)).2
    · obtain ⟨rfl, rfl⟩ := hword.eq_of_contains hword' hin hcontains
      exact ⟨token, htoken, hkind, String.toList_inj.1 (hstands.symm.trans hname)⟩
    · -- Variables are in words that no parenthesis follows.
      have hbounds := hown.tile.bounds token hmemOwn
      obtain ⟨-, rfl⟩ := hword.eq_of_contains hown.word hin
        ⟨Nat.le_trans hbounds.1 hcontains.1, Nat.lt_of_lt_of_le hcontains.2 hbounds.2.2⟩
      exact absurd hcall hown.not_called
  · rintro ⟨token, htoken, hkind, rfl⟩
    obtain ⟨hword, hparen⟩ := (covers_of_tokenize h).function token htoken hkind
    have hmem : ⟨.leftParen, "(", token.stop⟩ ∈ tokens.body :=
      hparen.subset (List.mem_cons_of_mem _ List.mem_cons_self)
    refine ⟨token.position, token.stop, hword, hstart.stands token htoken, ?_⟩
    have hstands : text.toList.extract token.stop (token.stop + 1) = ['('] := by
      simpa [Token.stop, show "(".length = 1 from rfl] using hstart.stands _ hmem
    rw [List.extract_eq_take_drop, Nat.add_sub_cancel_left, List.take_one] at hstands
    rw [← List.head?_drop]
    exact Option.toList_eq_singleton_iff.1 hstands

/-! ## What follows the name of a function -/

/-- A parenthesis follows the name of a function. -/
def Called (first second : Token) : Prop :=
  first.kind = .functionName → second.kind = .leftParen

namespace Lexer

variable {names : KnownNames} {position : Nat} {chunk rest : List Char} {tokens : List Token}

theorem Splits.kind_ne_functionName (h : Splits names position chunk tokens) :
    ∀ token ∈ tokens, token.kind ≠ .functionName := by
  intro token htoken hkind
  have hscan : (splitWord names position chunk).tokens = tokens :=
    congrArg Scan.tokens (splitWord_of_splits h)
  rw [← hscan] at htoken
  rw [kind_of_mem_splitWord htoken] at hkind
  cases hkind

theorem Piece.isChain (h : Piece names position chunk rest tokens) : tokens.IsChain Called := by
  cases h with
  | symbol | literal | function => exact .singleton _
  | word _ _ _ _ hsplits =>
      exact hsplits.tile.pairwise.isChain.imp_of_mem_imp fun first _ hfirst _ _ hkind =>
        absurd hkind (hsplits.kind_ne_functionName first hfirst)

/-- Only the name of a function ends in one, and a parenthesis is ahead of it. -/
theorem Piece.head?_of_getLast? (h : Piece names position chunk rest tokens) :
    ∀ token ∈ tokens.getLast?, token.kind = .functionName → rest.head? = some '(' := by
  cases h with
  | @symbol c kind _ hsymbol =>
      rintro _ ⟨⟩ hkind
      obtain rfl : kind = .functionName := hkind
      exact absurd hsymbol (TokenKind.ofSymbol?_ne_some rfl c)
  | literal => rintro _ ⟨⟩ ⟨⟩
  | function _ _ hrest => exact fun _ _ _ => hrest
  | word _ _ _ _ hsplits =>
      intro token htoken hkind
      exact absurd hkind (hsplits.kind_ne_functionName token (List.mem_of_getLast? htoken))

/-- In a text a parenthesis follows the name of a function. -/
theorem Pieces.isChain {text : List Char} (h : Pieces names position text tokens) :
    tokens.IsChain Called := by
  induction h with
  | nil => exact .nil
  | whiteSpace _ _ ih => exact ih
  | piece hpiece hrest ih =>
      refine List.isChain_append.2
        ⟨hpiece.isChain, ih, fun first hfirst second hsecond hkind => ?_⟩
      have hhead := hrest.head?_of_leftParen (hpiece.head?_of_getLast? first hfirst hkind)
      rw [Option.mem_def.1 hsecond] at hhead
      rw [Option.some.inj hhead]

end Lexer

end Reckoner
