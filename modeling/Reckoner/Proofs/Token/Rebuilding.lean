/-
  Reckoner.Proofs.Token.Rebuilding

  What is left of a token sequence in the list of its tokens (`TokenSequence.ofList_of_tokenize`).

  The end of a sequence is made out in two ways.  Where a text is read it is the length of the text;
  where a sequence is built of tokens it is where the last of them stops.  The tokens of a text
  cover all of it but the white space, so the two differ just by the white space that the text ends
  with.
-/
import Reckoner.Proofs.Token.Cover

namespace Reckoner

open Unicode Lexer

/-! ## Where a text stops -/

/-- The place just after the last character that is no white space, or the start if there is
none. -/
structure StopsAt (text : List Char) (stop : Nat) : Prop where
  le_length : stop ≤ text.length
  after : ∀ k c, stop ≤ k → text[k]? = some c → isWhiteSpace c
  before : ∀ k c, k + 1 = stop → text[k]? = some c → ¬ isWhiteSpace c

/-- A text stops at its end unless it ends with white space. -/
theorem StopsAt.eq_length_iff {text : List Char} {stop : Nat} (h : StopsAt text stop) :
    stop = text.length ↔ text = [] ∨ ∃ c, text.getLast? = some c ∧ ¬ isWhiteSpace c := by
  rw [List.getLast?_eq_getElem?]
  constructor
  · rintro rfl
    rcases text with _ | ⟨first, rest⟩
    · exact .inl rfl
    · have hlast : (first :: rest).length - 1 < (first :: rest).length := by simp
      have hget := List.getElem?_eq_getElem hlast
      exact .inr ⟨_, hget, h.before _ _ (by simp) hget⟩
  · rintro (rfl | ⟨c, hc, hwhite⟩)
    · exact Nat.eq_zero_of_le_zero h.le_length
    · -- The last character is not among those after the stop.
      have hstop : ¬ stop ≤ text.length - 1 := fun hle => hwhite (h.after _ _ hle hc)
      have hle := h.le_length
      omega

/-- Of tokens that do not overlap the last one stops last. -/
theorem stop_le_of_getLast? {tokens : List Token} {last : Token}
    (h : tokens.Pairwise fun first second => first.stop ≤ second.position)
    (hlast : tokens.getLast? = some last) : ∀ token ∈ tokens, token.stop ≤ last.stop := by
  obtain ⟨before, rfl⟩ := List.getLast?_eq_some_iff.1 hlast
  intro token htoken
  rcases List.mem_append.1 htoken with htoken | htoken
  · have hle := (List.pairwise_append.1 h).2.2 token htoken last List.mem_cons_self
    exact Nat.le_trans hle (Nat.le_add_right _ _)
  · rw [List.mem_singleton.1 htoken]

/-- The tokens of a text stop where the text does. -/
theorem Lexer.Pieces.stopsAt {names : KnownNames} {text : List Char} {tokens : List Token}
    (h : Pieces names 0 text tokens) :
    StopsAt text ((tokens.getLast?.map Token.stop).getD 0) := by
  have hcontains {k : Nat} {c : Char} (hc : text[k]? = some c) :
      (∃ token ∈ tokens, token.Contains k) ↔ ¬ isWhiteSpace c := by
    have hstart : Pieces names ([] : List Char).length text tokens := h
    exact hstart.exists_contains_iff (Nat.zero_le k) hc
  cases hlast : tokens.getLast? with
  | none =>
      obtain rfl := List.getLast?_eq_none_iff.1 hlast
      refine ⟨Nat.zero_le _, fun k c _ hc => ?_, nofun⟩
      by_contra hwhite
      obtain ⟨token, htoken, -⟩ := (hcontains hc).2 hwhite
      cases htoken
  | some last =>
      have hmem := List.mem_of_getLast? hlast
      have hbounds := h.bounds last hmem
      show StopsAt text last.stop
      refine ⟨by omega, fun k c hk hc => ?_, fun k c hk hc => ?_⟩
      · by_contra hwhite
        obtain ⟨token, htoken, -, hlt⟩ := (hcontains hc).2 hwhite
        have hle := stop_le_of_getLast? h.pairwise hlast token htoken
        omega
      · exact (hcontains hc).1 ⟨last, hmem, by omega, by omega⟩

/-! ## Sequences from lists -/

namespace TokenSequence

theorem body_ofList_body (tokens : TokenSequence) : (ofList tokens.body).body = tokens.body :=
  List.filter_eq_self.2 fun token htoken => decide_eq_true (tokens.body_kind token htoken)

/-- The token at the end is left out, as a new one takes its place. -/
theorem ofList_toList (tokens : TokenSequence) : ofList tokens.toList = ofList tokens.body := by
  have hfilter : tokens.toList.filter (·.kind ≠ .endOfInput)
      = tokens.body.filter (·.kind ≠ .endOfInput) := by
    rw [toList, List.filter_append, Token.atEnd]
    simp
  simp only [ofList, hfilter]

theorem endPosition_ofList_body (tokens : TokenSequence) :
    (ofList tokens.body).endPosition = (tokens.body.getLast?.map Token.stop).getD 0 := by
  show ((ofList tokens.body).body.getLast?.map Token.stop).getD 0 = _
  rw [body_ofList_body]

theorem ofList_body_eq_iff (tokens : TokenSequence) :
    ofList tokens.body = tokens ↔ (ofList tokens.body).endPosition = tokens.endPosition := by
  refine ⟨congrArg endPosition, fun hend => ?_⟩
  obtain ⟨body, endPosition, hkind⟩ := tokens
  exact (mk.injEq ..).mpr ⟨body_ofList_body _, hend⟩

/-- Building a sequence of the tokens of one that has been built so changes nothing. -/
theorem ofList_toList_ofList (tokens : List Token) :
    ofList (ofList tokens).toList = ofList tokens := by
  rw [ofList_toList, ofList_body_eq_iff, endPosition_ofList_body]
  rfl

end TokenSequence

/-- A sequence that is built of the tokens of a text, with or without the one at the end, has the
same tokens and ends where the text stops.  So it is the sequence of the text if and only if the
text is empty or its last character is no white space.  A sequence that is built of any list of
tokens is the same when it is built of its own tokens again. -/
theorem TokenSequence.ofList_of_tokenize :
    (∀ {names : KnownNames} {text : String} {tokens : TokenSequence},
      tokenize names text = .ok tokens →
      ∀ listed, listed = tokens.toList ∨ listed = tokens.body →
        (ofList listed = tokens ↔
          text = "" ∨ ∃ c, text.toList.getLast? = some c ∧ ¬ isWhiteSpace c) ∧
        ∃ stop, StopsAt text.toList stop ∧
          (ofList listed).toList = tokens.body ++ [Token.atEnd stop]) ∧
    ∀ tokens : List Token, ofList (ofList tokens).toList = ofList tokens := by
  refine ⟨?_, ofList_toList_ofList⟩
  intro names text tokens h listed hlisted
  obtain ⟨hpieces, hend⟩ := tokenize_eq_ok_iff.1 h
  have hstops := hpieces.stopsAt
  rw [← endPosition_ofList_body] at hstops
  have hbody : ofList listed = ofList tokens.body := by
    rcases hlisted with rfl | rfl
    · exact ofList_toList tokens
    · rfl
  rw [hbody]
  constructor
  · rw [ofList_body_eq_iff, hend, ← String.length_toList, hstops.eq_length_iff,
      String.toList_eq_nil_iff]
  · exact ⟨_, hstops, by rw [toList, body_ofList_body]⟩

/-- The white space within the text is kept, and that at its end is not. -/
theorem TokenSequence.ofList_of_trailing_whiteSpace :
    ∃ tokens, tokenize (.ofList ["x"] 1) "2 * x \n" = .ok tokens ∧
      tokens.toList = [⟨.number, "2", 0⟩, ⟨.star, "*", 2⟩, ⟨.variableName, "x", 4⟩,
        ⟨.endOfInput, "", 7⟩] ∧
      ofList tokens.toList ≠ tokens ∧
      (ofList tokens.toList).toList = [⟨.number, "2", 0⟩, ⟨.star, "*", 2⟩, ⟨.variableName, "x", 4⟩,
        ⟨.endOfInput, "", 5⟩] := by
  let tokens : TokenSequence :=
    { body := [⟨.number, "2", 0⟩, ⟨.star, "*", 2⟩, ⟨.variableName, "x", 4⟩]
      endPosition := 7
      body_kind := by decide }
  have hread : tokenize (.ofList ["x"] 1) "2 * x \n" = .ok tokens := by decide +kernel
  obtain ⟨hsame, -⟩ := ofList_of_tokenize.1 hread tokens.toList (.inl rfl)
  refine ⟨tokens, hread, rfl, ?_, by decide +kernel⟩
  rw [Ne, hsame]
  rintro (hempty | ⟨c, hlast, hwhite⟩)
  · exact absurd hempty (by decide)
  · obtain rfl : '\n' = c := Option.some.inj hlast
    exact hwhite (by decide +kernel)

end Reckoner
