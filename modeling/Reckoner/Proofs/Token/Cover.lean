/-
  Reckoner.Proofs.Token.Cover

  The tokens of a text are a faithful cover of it (`covers_of_tokenize`).

  No character is lost, read twice or moved: every token stands in the text at its position, tokens
  do not overlap, and what lies between them is just the white space.  Literals go on as far as they
  can; a word right before a parenthesis is one token, and every other word is tiled by variables,
  each the longest known name at its place.
-/
import Reckoner.Proofs.Token.Pieces

namespace Reckoner

open Unicode Lexer

/-! ## Covers -/

/-- The position of a character of the token. -/
def Token.Contains (token : Token) (k : Nat) : Prop :=
  token.position ≤ k ∧ k < token.stop

/-- The tokens stand one right after the other from `start` to `stop`, and none is empty. -/
def Tile : Nat → Nat → List Token → Prop
  | start, stop, [] => start = stop
  | start, stop, token :: rest =>
    token.position = start ∧ start < token.stop ∧ Tile token.stop stop rest

/-- The characters from `start` to before `stop` are a word: alphabetic, and as many as there are
in a row. -/
structure IsWord (source : List Char) (start stop : Nat) : Prop where
  start_lt_stop : start < stop
  stop_le_length : stop ≤ source.length
  alphabetic : ∀ c ∈ source.extract start stop, isAlphabetic c
  before : ∀ k, k + 1 = start → ∀ c ∈ source[k]?, ¬ isAlphabetic c
  after : ∀ c ∈ source[stop]?, ¬ isAlphabetic c

/-- The tokens are the variables of a word that no parenthesis follows: they tile it, and each is the
longest known name that the rest of the word begins with. -/
structure VariablesOf (names : KnownNames) (source : List Char) (start stop : Nat)
    (tokens : List Token) : Prop where
  word : IsWord source start stop
  not_called : source[stop]? ≠ some '('
  kind : ∀ token ∈ tokens, token.kind = .variableName
  tile : Tile start stop tokens
  longest : ∀ token ∈ tokens,
    LongestName names (source.extract token.position stop) token.text.toList

/-- The tokens are those of the text. -/
structure Covers (names : KnownNames) (text : String) (tokens : TokenSequence) : Prop where
  /-- Every token stands in the text at its position. -/
  stands : ∀ token ∈ tokens.toList,
    text.toList.extract token.position token.stop = token.text.toList
  /-- The tokens are in order and do not overlap. -/
  ordered : tokens.toList.Pairwise fun first second => first.stop ≤ second.position
  /-- A character lies outside of all tokens if and only if it is white space. -/
  outside_iff : ∀ k c, text.toList[k]? = some c →
    ((∀ token ∈ tokens.toList, ¬ token.Contains k) ↔ isWhiteSpace c)
  /-- The last token, and no other, marks the end. -/
  atEnd : tokens.toList = tokens.body ++ [⟨.endOfInput, "", text.length⟩] ∧
    ∀ token ∈ tokens.body, token.kind ≠ .endOfInput
  /-- Operators and parentheses are the one character. -/
  symbol : ∀ token ∈ tokens.body, token.kind ≠ .number → token.kind ≠ .functionName →
    token.kind ≠ .variableName →
    ∃ c, TokenKind.ofSymbol? c = some token.kind ∧ token.text = String.singleton c
  /-- Numbers begin with a digit, have one point at most, and go on as far as they can. -/
  number : ∀ token ∈ tokens.body, token.kind = .number →
    IsLiteral token.text.toList ∧ ∀ c ∈ text.toList[token.stop]?, ¬ isNumeralChar c
  /-- Names of functions are words, and the next token is the parenthesis right after the word. -/
  function : ∀ token ∈ tokens.body, token.kind = .functionName →
    IsWord text.toList token.position token.stop ∧
    [token, ⟨.leftParen, "(", token.stop⟩] <:+: tokens.body
  /-- Variables lie in words, together with all other tokens there. -/
  «variables» : ∀ token ∈ tokens.body, token.kind = .variableName →
    ∃ start stop own, VariablesOf names text.toList start stop own ∧ token ∈ own ∧
      own <:+: tokens.body ∧
      ∀ other ∈ tokens.body, start ≤ other.position → other.position < stop → other ∈ own

/-! ## Tiles -/

namespace Tile

variable {start stop : Nat} {tokens : List Token}

theorem le (h : Tile start stop tokens) : start ≤ stop := by
  induction tokens generalizing start with
  | nil => exact Nat.le_of_eq h
  | cons token rest ih =>
      obtain ⟨-, hlt, hrest⟩ := h
      exact Nat.le_trans hlt.le (ih hrest)

theorem bounds (h : Tile start stop tokens) : ∀ token ∈ tokens,
    start ≤ token.position ∧ token.position < token.stop ∧ token.stop ≤ stop := by
  induction tokens generalizing start with
  | nil => nofun
  | cons first rest ih =>
      obtain ⟨hposition, hlt, hrest⟩ := h
      intro token htoken
      rcases List.mem_cons.1 htoken with rfl | htoken
      · have hle := le hrest
        omega
      · have hbounds := ih hrest token htoken
        omega

theorem pairwise (h : Tile start stop tokens) :
    tokens.Pairwise fun first second => first.stop ≤ second.position := by
  induction tokens generalizing start with
  | nil => exact .nil
  | cons first rest ih =>
      obtain ⟨-, -, hrest⟩ := h
      exact List.pairwise_cons.2 ⟨fun token htoken => (hrest.bounds token htoken).1, ih hrest⟩

/-- No position between the two is left out. -/
theorem exists_contains (h : Tile start stop tokens) {k : Nat} (hstart : start ≤ k)
    (hstop : k < stop) : ∃ token ∈ tokens, token.Contains k := by
  induction tokens generalizing start with
  | nil =>
      obtain rfl : start = stop := h
      omega
  | cons first rest ih =>
      obtain ⟨hposition, -, hrest⟩ := h
      by_cases hk : k < first.stop
      · exact ⟨first, List.mem_cons_self, by omega, hk⟩
      · obtain ⟨token, htoken, hcontains⟩ := ih hrest (by omega)
        exact ⟨token, List.mem_cons_of_mem _ htoken, hcontains⟩

end Tile

/-- Tokens that do not overlap are the same if they have a position in common. -/
theorem eq_of_contains {tokens : List Token} {first second : Token} {k : Nat}
    (h : tokens.Pairwise fun first second => first.stop ≤ second.position)
    (hfirst : first ∈ tokens) (hsecond : second ∈ tokens) (hk : first.Contains k)
    (hk' : second.Contains k) : first = second := by
  obtain ⟨hlow, hhigh⟩ := hk
  obtain ⟨hlow', hhigh'⟩ := hk'
  induction tokens with
  | nil => cases hfirst
  | cons token rest ih =>
      obtain ⟨hbefore, hrest⟩ := List.pairwise_cons.1 h
      rcases List.mem_cons.1 hfirst with rfl | hfirst'
      · rcases List.mem_cons.1 hsecond with rfl | hsecond'
        · rfl
        · have hapart := hbefore second hsecond'
          omega
      · rcases List.mem_cons.1 hsecond with rfl | hsecond'
        · have hapart := hbefore first hfirst'
          omega
        · exact ih hrest hfirst' hsecond'

/-! ## Variables of a word -/

theorem Token.stop_ofList (kind : TokenKind) (text : List Char) (position : Nat) :
    Token.stop ⟨kind, String.ofList text, position⟩ = position + text.length := by
  simp [Token.stop]

theorem Token.stop_singleton (kind : TokenKind) (c : Char) (position : Nat) :
    Token.stop ⟨kind, String.singleton c, position⟩ = position + 1 := by
  simp [Token.stop]

theorem extract_append (before chunk rest : List Char) :
    (before ++ (chunk ++ rest)).extract before.length (before.length + chunk.length) = chunk := by
  simp

namespace Lexer

variable {names : KnownNames} {position : Nat}

theorem Splits.tile {word : List Char} {tokens : List Token}
    (h : Splits names position word tokens) : Tile position (position + word.length) tokens := by
  induction h with
  | nil => rfl
  | @cons position name rest tokens hname _ ih =>
      have hpos := List.length_pos_iff.2 hname.nonempty
      rw [List.length_append, ← Nat.add_assoc]
      refine ⟨rfl, ?_, ?_⟩
      · rw [Token.stop_ofList]
        omega
      · rw [Token.stop_ofList]
        exact ih

/-- Each variable is a name that the rest of the word begins with, and stands there. -/
theorem Splits.longest {before word : List Char} {tokens : List Token}
    (h : Splits names before.length word tokens) (rest : List Char) : ∀ token ∈ tokens,
      token.kind = .variableName ∧
      (before ++ (word ++ rest)).extract token.position token.stop = token.text.toList ∧
      LongestName names
        ((before ++ (word ++ rest)).extract token.position (before.length + word.length))
        token.text.toList := by
  generalize hposition : before.length = position at h
  induction h generalizing before with
  | nil => nofun
  | @cons position name more tokens hname _ ih =>
      subst hposition
      intro token htoken
      rcases List.mem_cons.1 htoken with rfl | htoken
      · rw [Token.stop_ofList, extract_append, List.append_assoc, extract_append,
          String.toList_ofList]
        exact ⟨rfl, rfl, hname⟩
      · have hbefore : (before ++ name).length = before.length + name.length :=
          List.length_append
        have hlater := ih hbefore token htoken
        rw [List.length_append, ← Nat.add_assoc, List.append_assoc name]
        rwa [List.append_assoc before] at hlater

/-! ## Pieces -/

theorem Piece.ne_nil {chunk rest : List Char} {tokens : List Token}
    (h : Piece names position chunk rest tokens) : chunk ≠ [] := by
  cases h with
  | symbol => exact List.cons_ne_nil _ _
  | literal hliteral =>
      obtain ⟨first, more, -, rfl⟩ := hliteral.exists_cons
      exact List.cons_ne_nil _ _
  | function hne | word hne => exact hne

/-- There is no white space in a piece. -/
theorem Piece.not_isWhiteSpace {chunk rest : List Char} {tokens : List Token}
    (h : Piece names position chunk rest tokens) : ∀ c ∈ chunk, ¬ isWhiteSpace c := by
  cases h with
  | symbol hsymbol =>
      intro c hc
      obtain rfl := List.mem_singleton.1 hc
      exact (TokenKind.not_of_ofSymbol? hsymbol).1
  | literal hliteral => exact fun c hc => (not_of_isNumeralChar (hliteral.numeral c hc)).1
  | function _ hword | word _ hword =>
      exact fun c hc hwhite => not_isAlphabetic_of_isWhiteSpace hwhite (hword c hc)

/-- A word does not go on after its piece. -/
theorem Piece.apart {chunk rest : List Char} {tokens : List Token}
    (h : Piece names position chunk rest tokens) :
    ∀ c ∈ chunk, ∀ d ∈ rest.head?, ¬ (isAlphabetic c ∧ isAlphabetic d) := by
  rintro c hc d hd ⟨halphabetic, halphabetic'⟩
  cases h with
  | symbol hsymbol =>
      obtain rfl := List.mem_singleton.1 hc
      exact (TokenKind.not_of_ofSymbol? hsymbol).2.2 halphabetic
  | literal hliteral => exact (not_of_isNumeralChar (hliteral.numeral c hc)).2 halphabetic
  | function _ _ hrest =>
      rw [hrest] at hd
      obtain rfl : '(' = d := Option.some.inj hd
      exact absurd halphabetic' (by decide +kernel)
  | word _ _ hrest => exact hrest d hd halphabetic'

theorem Piece.tile {chunk rest : List Char} {tokens : List Token}
    (h : Piece names position chunk rest tokens) :
    Tile position (position + chunk.length) tokens := by
  have hpos := List.length_pos_iff.2 h.ne_nil
  cases h with
  | symbol => exact ⟨rfl, by rw [Token.stop_singleton]; omega, Token.stop_singleton ..⟩
  | literal => exact ⟨rfl, by rw [Token.stop_ofList]; omega, Token.stop_ofList ..⟩
  | function => exact ⟨rfl, by rw [Token.stop_ofList]; omega, Token.stop_ofList ..⟩
  | word _ _ _ _ hsplits => exact hsplits.tile

theorem Piece.stands {before chunk rest : List Char} {tokens : List Token}
    (h : Piece names before.length chunk rest tokens) : ∀ token ∈ tokens,
      (before ++ (chunk ++ rest)).extract token.position token.stop = token.text.toList := by
  intro token htoken
  cases h with
  | @symbol c kind rest hsymbol =>
      obtain rfl := List.mem_singleton.1 htoken
      rw [Token.stop_singleton, String.toList_singleton]
      exact extract_append before [c] rest
  | literal | function =>
      obtain rfl := List.mem_singleton.1 htoken
      rw [Token.stop_ofList, extract_append, String.toList_ofList]
  | word _ _ _ _ hsplits => exact (hsplits.longest rest token htoken).2.1

/-! ## Texts -/

theorem Pieces.bounds {text : List Char} {tokens : List Token}
    (h : Pieces names position text tokens) : ∀ token ∈ tokens,
      position ≤ token.position ∧ token.position < token.stop ∧
        token.stop ≤ position + text.length := by
  induction h with
  | nil => nofun
  | whiteSpace _ _ ih =>
      intro token htoken
      have hbounds := ih token htoken
      rw [List.length_cons]
      omega
  | piece hpiece _ ih =>
      intro token htoken
      rw [List.length_append]
      rcases List.mem_append.1 htoken with htoken | htoken
      · have hbounds := hpiece.tile.bounds token htoken
        omega
      · have hbounds := ih token htoken
        omega

theorem Pieces.pairwise {text : List Char} {tokens : List Token}
    (h : Pieces names position text tokens) :
    tokens.Pairwise fun first second => first.stop ≤ second.position := by
  induction h with
  | nil => exact .nil
  | whiteSpace _ _ ih => exact ih
  | piece hpiece hrest ih =>
      refine List.pairwise_append.2 ⟨hpiece.tile.pairwise, ih, fun first hfirst second hsecond => ?_⟩
      exact Nat.le_trans (hpiece.tile.bounds first hfirst).2.2 (hrest.bounds second hsecond).1

theorem Pieces.stands {before text : List Char} {tokens : List Token}
    (h : Pieces names before.length text tokens) : ∀ token ∈ tokens,
      (before ++ text).extract token.position token.stop = token.text.toList := by
  generalize hposition : before.length = position at h
  induction h generalizing before with
  | nil => nofun
  | @whiteSpace position c rest tokens _ _ ih =>
      subst hposition
      have hlength : (before ++ [c]).length = before.length + 1 := List.length_append
      have hlater := ih hlength
      rwa [List.append_assoc, List.singleton_append] at hlater
  | @piece position chunk rest tokens more hpiece _ ih =>
      subst hposition
      intro token htoken
      rcases List.mem_append.1 htoken with htoken | htoken
      · exact hpiece.stands token htoken
      · have hlength : (before ++ chunk).length = before.length + chunk.length :=
          List.length_append
        have hlater := ih hlength token htoken
        rwa [List.append_assoc] at hlater

/-- A character of the text belongs to a token if and only if it is not white space. -/
theorem Pieces.exists_contains_iff {before text : List Char} {tokens : List Token}
    (h : Pieces names before.length text tokens) {k : Nat} {c : Char} (hk : before.length ≤ k)
    (hc : (before ++ text)[k]? = some c) :
    (∃ token ∈ tokens, token.Contains k) ↔ ¬ isWhiteSpace c := by
  generalize hposition : before.length = position at h hk
  induction h generalizing before with
  | nil =>
      rw [List.append_nil, List.getElem?_eq_none (by omega)] at hc
      cases hc
  | @whiteSpace position first rest tokens hfirst hrest ih =>
      subst hposition
      rcases Nat.eq_or_lt_of_le hk with rfl | hlt
      · -- All tokens come after the white space.
        rw [List.getElem?_append_right (Nat.le_refl _), Nat.sub_self] at hc
        obtain rfl : first = c := Option.some.inj hc
        refine iff_of_false ?_ (not_not.2 hfirst)
        rintro ⟨token, htoken, hlow, -⟩
        have hbounds := hrest.bounds token htoken
        omega
      · have hlength : (before ++ [first]).length = before.length + 1 := List.length_append
        exact ih (by rwa [List.append_assoc]) hlength hlt
  | @piece position chunk rest tokens more hpiece hrest ih =>
      subst hposition
      by_cases hwithin : k < before.length + chunk.length
      · -- The tokens of a piece tile it, and no piece has white space in it.
        have hmem : c ∈ chunk := by
          rw [List.getElem?_append_right hk, List.getElem?_append_left (by omega)] at hc
          exact List.mem_of_getElem? hc
        obtain ⟨token, htoken, hcontains⟩ := hpiece.tile.exists_contains hk hwithin
        exact iff_of_true ⟨token, List.mem_append_left _ htoken, hcontains⟩
          (hpiece.not_isWhiteSpace c hmem)
      · have hlength : (before ++ chunk).length = before.length + chunk.length :=
          List.length_append
        rw [← ih (by rwa [List.append_assoc]) hlength (by omega)]
        constructor
        · rintro ⟨token, htoken, hlow, hhigh⟩
          rcases List.mem_append.1 htoken with htoken | htoken
          · have hbounds := hpiece.tile.bounds token htoken
            omega
          · exact ⟨token, htoken, hlow, hhigh⟩
        · rintro ⟨token, htoken, hcontains⟩
          exact ⟨token, List.mem_append_right _ htoken, hcontains⟩

/-- Every token is one of a piece, before which no word ends and after which the text goes on. -/
theorem Pieces.exists_piece {before text : List Char} {tokens : List Token} {token : Token}
    (h : Pieces names before.length text tokens)
    (hbefore : ∀ c ∈ before.getLast?, ∀ d ∈ text.head?, ¬ (isAlphabetic c ∧ isAlphabetic d))
    (htoken : token ∈ tokens) :
    ∃ front chunk rest own later, before ++ text = front ++ (chunk ++ rest) ∧
      Piece names front.length chunk rest own ∧ token ∈ own ∧
      Pieces names (front.length + chunk.length) rest later ∧ own ++ later <:+ tokens ∧
      ∀ c ∈ front.getLast?, ∀ d ∈ chunk.head?, ¬ (isAlphabetic c ∧ isAlphabetic d) := by
  generalize hposition : before.length = position at h
  induction h generalizing before with
  | nil => cases htoken
  | @whiteSpace position first rest tokens hfirst hrest ih =>
      subst hposition
      -- White space is not alphabetic, so no word ends right before the rest.
      have hlast : ∀ c ∈ (before ++ [first]).getLast?, ∀ d ∈ rest.head?,
          ¬ (isAlphabetic c ∧ isAlphabetic d) := by
        rintro c hc d - ⟨halphabetic, -⟩
        rw [List.getLast?_concat] at hc
        obtain rfl : first = c := Option.some.inj hc
        exact not_isAlphabetic_of_isWhiteSpace hfirst halphabetic
      have hlater := ih hlast htoken (by simp)
      rwa [List.append_assoc, List.singleton_append] at hlater
  | @piece position chunk rest own more hpiece hrest ih =>
      subst hposition
      rcases List.mem_append.1 htoken with htoken | htoken
      · refine ⟨before, chunk, rest, own, more, rfl, hpiece, htoken, hrest, List.suffix_refl _, ?_⟩
        intro c hc d hd
        refine hbefore c hc d ?_
        rw [Option.mem_def, List.head?_append, Option.mem_def.1 hd, Option.some_or]
      · -- The last character of the piece and what comes next are not of one word.
        have hlast : ∀ c ∈ (before ++ chunk).getLast?, ∀ d ∈ rest.head?,
            ¬ (isAlphabetic c ∧ isAlphabetic d) := by
          intro c hc
          rw [List.getLast?_append, List.getLast?_eq_some_getLast hpiece.ne_nil, Option.some_or] at hc
          obtain rfl := Option.some.inj hc
          exact hpiece.apart _ (List.getLast_mem hpiece.ne_nil)
        obtain ⟨front, chunk', rest', own', later, hsource, hpiece', hmem, hlater, hsuffix, hapart⟩ :=
          ih hlast htoken List.length_append
        refine ⟨front, chunk', rest', own', later, ?_, hpiece', hmem, hlater, ?_, hapart⟩
        · rwa [List.append_assoc] at hsource
        · exact hsuffix.trans (List.suffix_append _ _)

theorem getElem?_append_length (front chunk rest : List Char) :
    (front ++ (chunk ++ rest))[front.length + chunk.length]? = rest.head? := by
  rw [List.getElem?_append_right (by omega), List.getElem?_append_right (by omega),
    List.head?_eq_getElem?]
  congr 1
  omega

/-- A piece that is alphabetic is a word of the text. -/
theorem isWord_of_apart {front chunk rest : List Char} (hne : chunk ≠ [])
    (hchunk : ∀ c ∈ chunk, isAlphabetic c) (hrest : NotAhead isAlphabetic rest)
    (hfront : ∀ c ∈ front.getLast?, ∀ d ∈ chunk.head?, ¬ (isAlphabetic c ∧ isAlphabetic d)) :
    IsWord (front ++ (chunk ++ rest)) front.length (front.length + chunk.length) where
  start_lt_stop := by
    have hpos := List.length_pos_iff.2 hne
    omega
  stop_le_length := by
    rw [List.length_append, List.length_append]
    omega
  alphabetic := by rwa [extract_append]
  before := by
    intro k hk c hc halphabetic
    obtain ⟨first, more, rfl⟩ := List.exists_cons_of_ne_nil hne
    refine hfront c ?_ first rfl ⟨halphabetic, hchunk first List.mem_cons_self⟩
    rw [List.getElem?_append_left (by omega)] at hc
    rwa [List.getLast?_eq_getElem?, ← hk, Nat.add_sub_cancel]
  after := by
    intro c hc
    refine hrest c ?_
    rwa [getElem?_append_length] at hc

/-- Where a parenthesis is ahead, it is the next token. -/
theorem Pieces.head?_of_leftParen {text : List Char} {tokens : List Token}
    (h : Pieces names position text tokens) (htext : text.head? = some '(') :
    tokens.head? = some ⟨.leftParen, "(", position⟩ := by
  obtain ⟨rest, rfl⟩ : ∃ rest, text = '(' :: rest := by
    cases text with
    | nil => cases htext
    | cons first rest => exact ⟨rest, by rw [Option.some.inj htext]⟩
  have hscan := scan_of_pieces h
  have hparen : TokenKind.ofSymbol? '(' = some .leftParen := rfl
  rw [scan_symbol hparen] at hscan
  obtain rfl := congrArg Scan.tokens hscan
  rfl

/-! ## Tokens of each kind -/

/-- A token is one of a piece of the whole text. -/
theorem Pieces.exists_piece_of_text {source : List Char} {tokens : List Token} {token : Token}
    (h : Pieces names 0 source tokens) (htoken : token ∈ tokens) :
    ∃ front chunk rest own later, source = front ++ (chunk ++ rest) ∧
      Piece names front.length chunk rest own ∧ token ∈ own ∧
      Pieces names (front.length + chunk.length) rest later ∧ own ++ later <:+ tokens ∧
      ∀ c ∈ front.getLast?, ∀ d ∈ chunk.head?, ¬ (isAlphabetic c ∧ isAlphabetic d) := by
  have hstart : Pieces names ([] : List Char).length source tokens := h
  exact hstart.exists_piece nofun htoken

variable {source : List Char} {tokens : List Token} {token : Token}

/-- Symbols, literals, names of functions, and the variables of a word. -/
theorem Pieces.mem_cases (h : Pieces names 0 source tokens) (htoken : token ∈ tokens) :
    (∃ c, TokenKind.ofSymbol? c = some token.kind ∧ token.text = String.singleton c) ∨
    (token.kind = .number ∧ IsLiteral token.text.toList ∧
      ∀ c ∈ source[token.stop]?, ¬ isNumeralChar c) ∨
    (token.kind = .functionName ∧ IsWord source token.position token.stop ∧
      [token, ⟨.leftParen, "(", token.stop⟩] <:+: tokens) ∨
    (token.kind = .variableName ∧ ∃ start stop own, VariablesOf names source start stop own ∧
      token ∈ own ∧ own <:+: tokens) := by
  obtain ⟨front, chunk, rest, own, later, rfl, hpiece, hmem, hlater, hsuffix, hapart⟩ :=
    h.exists_piece_of_text htoken
  cases hpiece with
  | symbol hsymbol =>
      obtain rfl := List.mem_singleton.1 hmem
      exact .inl ⟨_, hsymbol, rfl⟩
  | literal hliteral hrest =>
      obtain rfl := List.mem_singleton.1 hmem
      refine .inr (.inl ⟨rfl, ?_, ?_⟩)
      · rwa [String.toList_ofList]
      · rwa [Token.stop_ofList, getElem?_append_length]
  | function hne hword hrest =>
      obtain rfl := List.mem_singleton.1 hmem
      refine .inr (.inr (.inl ⟨rfl, ?_, ?_⟩))
      · rw [Token.stop_ofList]
        exact isWord_of_apart hne hword (notAhead_of_leftParen hrest) hapart
      · obtain ⟨more, rfl⟩ := List.head?_eq_some_iff.1 (hlater.head?_of_leftParen hrest)
        rw [Token.stop_ofList]
        exact (List.prefix_append [_, _] more).isInfix.trans hsuffix.isInfix
  | word hne hword hrest hcall hsplits =>
      have hlongest := hsplits.longest rest
      refine .inr (.inr (.inr ⟨(hlongest token hmem).1, front.length, front.length + chunk.length,
        own, ?_, hmem, (List.prefix_append own later).isInfix.trans hsuffix.isInfix⟩))
      exact {
        word := isWord_of_apart hne hword hrest hapart
        not_called := by rwa [getElem?_append_length]
        kind := fun token htoken => (hlongest token htoken).1
        tile := hsplits.tile
        longest := fun token htoken => (hlongest token htoken).2.2 }

end Lexer

theorem TokenKind.ofSymbol?_ne_some {kind : TokenKind} (h : kind.isWord) (c : Char) :
    ofSymbol? c ≠ some kind := by
  intro hsymbol
  rw [isWord_of_ofSymbol? hsymbol] at h
  cases h

namespace Lexer.Pieces

variable {names : KnownNames} {source : List Char} {tokens : List Token} {token : Token}

/-- What lies outside of all tokens is the white space.  The token at the end is empty. -/
theorem outside_iff (h : Pieces names 0 source tokens) {k stop : Nat} {c : Char}
    (hc : source[k]? = some c) :
    (∀ token ∈ tokens ++ [⟨.endOfInput, "", stop⟩], ¬ token.Contains k) ↔ isWhiteSpace c := by
  have hstart : Pieces names ([] : List Char).length source tokens := h
  have hcontains := hstart.exists_contains_iff (Nat.zero_le k) hc
  rw [List.forall_mem_append, List.forall_mem_singleton]
  constructor
  · rintro ⟨hall, -⟩
    by_contra hwhite
    obtain ⟨token, htoken, hk⟩ := hcontains.2 hwhite
    exact hall token htoken hk
  · intro hwhite
    refine ⟨fun token htoken hk => hcontains.1 ⟨token, htoken, hk⟩ hwhite, ?_⟩
    rintro ⟨hlow, hhigh⟩
    exact absurd hhigh (Nat.not_lt.2 hlow)

/-- A variable lies in a word, and so do the other tokens there. -/
theorem exists_variablesOf (h : Pieces names 0 source tokens) (htoken : token ∈ tokens)
    (hvariable : token.kind = .variableName) :
    ∃ start stop own, VariablesOf names source start stop own ∧ token ∈ own ∧ own <:+: tokens ∧
      ∀ other ∈ tokens, start ≤ other.position → other.position < stop → other ∈ own := by
  have hcases := h.mem_cases htoken
  have hsymbol := @TokenKind.ofSymbol?_ne_some .variableName rfl
  rw [hvariable] at hcases
  obtain ⟨start, stop, own, hown, hmem, hwithin⟩ :
      ∃ start stop own, VariablesOf names source start stop own ∧ token ∈ own ∧
        own <:+: tokens := by
    simpa [hsymbol] using hcases
  refine ⟨start, stop, own, hown, hmem, hwithin, fun other hother hlow hhigh => ?_⟩
  -- Two tokens that contain one position are the same.
  obtain ⟨member, hmember, hcontains⟩ := hown.tile.exists_contains hlow hhigh
  have hself : other.Contains other.position :=
    ⟨Nat.le_refl _, (h.bounds other hother).2.1⟩
  have hsame := eq_of_contains h.pairwise hother (hwithin.subset hmember) hself hcontains
  rwa [hsame]

end Lexer.Pieces

/-- The tokens of a text cover it. -/
theorem covers_of_tokenize {names : KnownNames} {text : String} {tokens : TokenSequence}
    (h : tokenize names text = .ok tokens) : Covers names text tokens := by
  obtain ⟨hpieces, hend⟩ := tokenize_eq_ok_iff.1 h
  have hlist : tokens.toList = tokens.body ++ [⟨.endOfInput, "", text.length⟩] := by
    rw [TokenSequence.toList, hend]
    rfl
  have hlength : text.toList.length = text.length := String.length_toList
  exact {
    stands := by
      intro token htoken
      rw [hlist] at htoken
      rcases List.mem_append.1 htoken with htoken | htoken
      · have hstart : Pieces names ([] : List Char).length text.toList tokens.body := hpieces
        exact hstart.stands token htoken
      · obtain rfl := List.mem_singleton.1 htoken
        simp [Token.stop]
    ordered := by
      rw [hlist]
      refine List.pairwise_append.2 ⟨hpieces.pairwise, List.pairwise_singleton _ _, ?_⟩
      intro token htoken last hlast
      obtain rfl := List.mem_singleton.1 hlast
      have hbounds := hpieces.bounds token htoken
      show token.stop ≤ text.length
      omega
    outside_iff := by
      intro k c hc
      rw [hlist]
      exact hpieces.outside_iff hc
    atEnd := ⟨hlist, tokens.body_kind⟩
    symbol := by
      intro token htoken hnumber hfunction hvariable
      rcases hpieces.mem_cases htoken with hsymbol | ⟨hkind, -⟩ | ⟨hkind, -⟩ | ⟨hkind, -⟩
      · exact hsymbol
      · exact absurd hkind hnumber
      · exact absurd hkind hfunction
      · exact absurd hkind hvariable
    number := by
      intro token htoken hnumber
      have hcases := hpieces.mem_cases htoken
      have hsymbol := @TokenKind.ofSymbol?_ne_some .number rfl
      rw [hnumber] at hcases
      simpa [hsymbol] using hcases
    function := by
      intro token htoken hfunction
      have hcases := hpieces.mem_cases htoken
      have hsymbol := @TokenKind.ofSymbol?_ne_some .functionName rfl
      rw [hfunction] at hcases
      simpa [hsymbol] using hcases
    «variables» := fun token htoken hvariable => hpieces.exists_variablesOf htoken hvariable }

/-- One word names a function, and the other is two variables, although it begins with a third. -/
theorem covers_function_of_variables :
    ∃ tokens, tokenize (.ofList ["p", "pi", "e"] 2) "f(pie) +1.5" = .ok tokens ∧
      tokens.body = [⟨.functionName, "f", 0⟩, ⟨.leftParen, "(", 1⟩, ⟨.variableName, "pi", 2⟩,
        ⟨.variableName, "e", 4⟩, ⟨.rightParen, ")", 5⟩, ⟨.plus, "+", 7⟩, ⟨.number, "1.5", 8⟩] ∧
      Covers (.ofList ["p", "pi", "e"] 2) "f(pie) +1.5" tokens := by
  let tokens : TokenSequence :=
    { body := [⟨.functionName, "f", 0⟩, ⟨.leftParen, "(", 1⟩, ⟨.variableName, "pi", 2⟩,
        ⟨.variableName, "e", 4⟩, ⟨.rightParen, ")", 5⟩, ⟨.plus, "+", 7⟩, ⟨.number, "1.5", 8⟩]
      endPosition := 11
      body_kind := by decide }
  have hlexed : tokenize (.ofList ["p", "pi", "e"] 2) "f(pie) +1.5" = .ok tokens := by
    decide +kernel
  exact ⟨tokens, hlexed, rfl, covers_of_tokenize hlexed⟩

end Reckoner
