/-
  Reckoner.Proofs.Token.Pieces

  The texts that can be split into tokens, and their tokens, without the reading.

  Such a text is white space and pieces: symbols, literals, names of functions, and words that are
  variables one right after the other.  What a piece is depends on what follows it, since a literal
  and a word go on as far as they can, and a word before a parenthesis is the name of a function.
  Reading a text succeeds exactly if it has pieces, with their tokens (`tokenize_eq_ok_iff`).
-/
import Mathlib.Data.List.TakeWhile
import Reckoner.Token.Lexer

namespace Reckoner

open Unicode

/-! ## Characters -/

namespace Unicode

/-- Ranges that lie apart have no character in common. -/
theorem not_inRanges_of_disjoint {ranges others : List (Nat × Nat)}
    (h : ∀ range ∈ ranges, ∀ other ∈ others, range.2 < other.1 ∨ other.2 < range.1) {c : Char}
    (hc : inRanges ranges c) : ¬ inRanges others c := by
  simp only [inRanges, List.any_eq_true, Bool.and_eq_true, decide_eq_true_eq] at hc ⊢
  obtain ⟨range, hrange, hlow, hhigh⟩ := hc
  rintro ⟨other, hother, hlow', hhigh'⟩
  have hapart := h range hrange other hother
  omega

/-- White space is not alphabetic. -/
theorem not_isAlphabetic_of_isWhiteSpace {c : Char} (h : isWhiteSpace c) : ¬ isAlphabetic c :=
  not_inRanges_of_disjoint (by decide +kernel) h

/-- Digits are neither white space nor alphabetic. -/
theorem not_of_isDigit {c : Char} (h : c.isDigit) : ¬ isWhiteSpace c ∧ ¬ isAlphabetic c := by
  have hdigit : inRanges [(48, 57)] c := by
    simpa [inRanges, Char.isDigit, UInt32.le_iff_toNat_le] using h
  exact ⟨not_inRanges_of_disjoint (by decide +kernel) hdigit,
    not_inRanges_of_disjoint (by decide +kernel) hdigit⟩

end Unicode

/-- Symbols are not white space, no digits and not alphabetic. -/
theorem TokenKind.not_of_ofSymbol? {c : Char} {kind : TokenKind} (h : ofSymbol? c = some kind) :
    ¬ isWhiteSpace c ∧ ¬ Lexer.isNumeralChar c ∧ ¬ isAlphabetic c := by
  unfold ofSymbol? at h
  split at h
  · decide +kernel
  · decide +kernel
  · decide +kernel
  · decide +kernel
  · decide +kernel
  · decide +kernel
  · cases h

/-- Whether the tokens of the kind have letters or digits for their text. -/
def TokenKind.isWord : TokenKind → Bool
  | .number | .variableName | .functionName => true
  | _ => false

theorem TokenKind.isWord_of_ofSymbol? {c : Char} {kind : TokenKind} (h : ofSymbol? c = some kind) :
    kind.isWord = false := by
  unfold ofSymbol? at h
  split at h <;> cases h <;> rfl

namespace Scan

theorem fault_append_eq_none {first second : Scan} (h : (first.append second).fault = none) :
    first.fault = none ∧ second.fault = none := by
  obtain ⟨tokens, fault⟩ := first
  cases fault with
  | some fault => cases h
  | none => exact ⟨rfl, h⟩

theorem append_of_fault_eq_none {first : Scan} (h : first.fault = none) (second : Scan) :
    first.append second = { tokens := first.tokens ++ second.tokens, fault := second.fault } := by
  rw [append, h]

end Scan

namespace Lexer

theorem isNumeralChar_of_isDigit {c : Char} (h : c.isDigit) : isNumeralChar c := by
  rw [isNumeralChar, h, Bool.true_or]

/-- A character that continues a numeral is neither white space nor alphabetic. -/
theorem not_of_isNumeralChar {c : Char} (h : isNumeralChar c) :
    ¬ isWhiteSpace c ∧ ¬ isAlphabetic c := by
  rw [isNumeralChar, Bool.or_eq_true, decide_eq_true_eq] at h
  rcases h with h | rfl
  · exact not_of_isDigit h
  · decide +kernel

/-! ## What lies ahead -/

/-- The text does not begin with a character of the class. -/
def NotAhead (p : Char → Bool) (text : List Char) : Prop :=
  ∀ c ∈ text.head?, ¬ p c

theorem notAhead_nil (p : Char → Bool) : NotAhead p [] := by
  intro c hc
  cases hc

theorem notAhead_dropWhile (p : Char → Bool) (text : List Char) :
    NotAhead p (text.dropWhile p) := by
  intro c hc
  have hhead := List.head?_dropWhile_not p text
  rw [Option.mem_def.1 hc] at hhead
  simpa using hhead

variable {p : Char → Bool} {run rest : List Char}

/-- A run ends where no character of its class is ahead. -/
theorem takeWhile_append_of_notAhead (hrun : ∀ c ∈ run, p c) (hrest : NotAhead p rest) :
    (run ++ rest).takeWhile p = run := by
  have hnone : rest.takeWhile p = [] := by
    cases rest with
    | nil => rfl
    | cons c rest => exact List.takeWhile_cons_of_neg (hrest c rfl)
  rw [List.takeWhile_append_of_pos hrun, hnone, List.append_nil]

theorem dropWhile_append_of_notAhead (hrun : ∀ c ∈ run, p c) (hrest : NotAhead p rest) :
    (run ++ rest).dropWhile p = rest := by
  rw [List.dropWhile_append_of_pos hrun]
  cases rest with
  | nil => rfl
  | cons c rest => exact List.dropWhile_cons_of_neg (hrest c rfl)

/-! ## Variables of a word -/

/-- The name is the longest known one that the word begins with, of those within the bound. -/
structure LongestName (names : KnownNames) (word name : List Char) : Prop where
  nonempty : name ≠ []
  begins : name <+: word
  known : names.isKnown (String.ofList name)
  length_le : name.length ≤ names.longest
  longest : ∀ other, other <+: word → names.isKnown (String.ofList other) →
    other.length ≤ names.longest → other.length ≤ name.length

/-- The variables of a word at a position: each the longest name that the rest of the word begins
with. -/
inductive Splits (names : KnownNames) : Nat → List Char → List Token → Prop
  | nil {position : Nat} : Splits names position [] []
  | cons {position : Nat} {name rest : List Char} {tokens : List Token}
      (hname : LongestName names (name ++ rest) name)
      (hrest : Splits names (position + name.length) rest tokens) :
      Splits names position (name ++ rest)
        (⟨.variableName, String.ofList name, position⟩ :: tokens)

variable {names : KnownNames} {position : Nat}

theorem knownExtent?_eq_some_iff {window : List Char} {bound extent : Nat} :
    knownExtent? names window bound = some extent ↔
      extent < bound ∧ names.isKnown (String.ofList (window.take (extent + 1))) ∧
        ∀ k, extent < k → k < bound → ¬ names.isKnown (String.ofList (window.take (k + 1))) := by
  induction bound with
  | zero => simp [knownExtent?]
  | succ bound ih =>
      rw [knownExtent?]
      by_cases hknown : names.isKnown (String.ofList (window.take (bound + 1)))
      · -- The search goes down from the longest extent, so the first one found is the answer.
        rw [if_pos hknown, Option.some.injEq]
        constructor
        · rintro rfl
          exact ⟨Nat.lt_succ_self _, hknown, fun k hlow hhigh => by omega⟩
        · rintro ⟨hlt, -, hlonger⟩
          by_contra hne
          exact hlonger bound (by omega) (Nat.lt_succ_self _) hknown
      · rw [if_neg hknown, ih]
        constructor
        · rintro ⟨hlt, hextent, hlonger⟩
          refine ⟨Nat.lt_succ_of_lt hlt, hextent, fun k hlow hhigh => ?_⟩
          by_cases hk : k = bound
          · rw [hk]
            exact hknown
          · exact hlonger k hlow (by omega)
        · rintro ⟨hlt, hextent, hlonger⟩
          have hne : extent ≠ bound := by
            rintro rfl
            exact hknown hextent
          exact ⟨by omega, hextent, fun k hlow hhigh => hlonger k hlow (by omega)⟩

/-- What is found in the window is the longest name that the word begins with. -/
theorem knownExtent?_take_eq_some_iff {word : List Char} {extent : Nat} :
    knownExtent? names (word.take names.longest) (word.take names.longest).length = some extent ↔
      extent < word.length ∧ LongestName names word (word.take (extent + 1)) := by
  -- Within the window the prefixes of the window are those of the word.
  have hwindow {k : Nat} (hk : k < min names.longest word.length) :
      (word.take names.longest).take (k + 1) = word.take (k + 1) := by
    rw [List.take_take, Nat.min_eq_left (by omega)]
  rw [knownExtent?_eq_some_iff, List.length_take]
  constructor
  · rintro ⟨hlt, hknown, hlonger⟩
    rw [hwindow hlt] at hknown
    have hlength : (word.take (extent + 1)).length = extent + 1 := by
      rw [List.length_take]
      omega
    refine ⟨by omega, ?_, List.take_prefix _ _, hknown, by omega, fun other hother hknown' hle => ?_⟩
    · intro hnil
      rw [hnil] at hlength
      cases hlength
    · by_contra hlong
      have hother' := List.prefix_iff_eq_take.1 hother
      have hle' := hother.length_le
      refine hlonger (other.length - 1) (by omega) (by omega) ?_
      rw [hwindow (by omega), Nat.sub_add_cancel (by omega), ← hother']
      exact hknown'
  · rintro ⟨hlt, hname⟩
    have hlength : (word.take (extent + 1)).length = extent + 1 := by
      rw [List.length_take]
      omega
    have hbound : extent < min names.longest word.length := by
      have hle := hname.length_le
      omega
    refine ⟨hbound, ?_, fun k hlow hhigh hknown => ?_⟩
    · rw [hwindow hbound]
      exact hname.known
    · rw [hwindow hhigh] at hknown
      have hlength' : (word.take (k + 1)).length = k + 1 := by
        rw [List.length_take]
        omega
      have hle := hname.longest _ (List.take_prefix _ _) hknown (by omega)
      omega

/-- A word that begins with a known name is split after the longest one. -/
theorem splitWord_append {name rest : List Char} (h : LongestName names (name ++ rest) name) :
    splitWord names position (name ++ rest)
      = (splitWord names (position + name.length) rest).cons
          ⟨.variableName, String.ofList name, position⟩ := by
  rcases name with _ | ⟨first, more⟩
  · exact absurd rfl h.nonempty
  · have htake : (first :: more ++ rest).take (more.length + 1) = first :: more := by
      simp
    have hextent : knownExtent? names ((first :: more ++ rest).take names.longest)
        ((first :: more ++ rest).take names.longest).length = some more.length := by
      rw [knownExtent?_take_eq_some_iff, htake]
      refine ⟨?_, h⟩
      rw [List.length_append, List.length_cons]
      omega
    rw [List.cons_append] at htake hextent ⊢
    rw [splitWord]
    simp only [hextent, htake, List.drop_left, List.length_cons]

/-- A word that begins with no known name is a fault. -/
theorem splitWord_of_forall_not {word : List Char} (hne : word ≠ [])
    (h : ∀ name, ¬ LongestName names word name) :
    splitWord names position word
      = .stopped (.unrecognizedIdentifier (String.ofList word) position) := by
  rcases word with _ | ⟨first, rest⟩
  · exact absurd rfl hne
  · have hnone : knownExtent? names ((first :: rest).take names.longest)
        ((first :: rest).take names.longest).length = none := by
      rw [Option.eq_none_iff_forall_ne_some]
      exact fun extent hextent => h _ (knownExtent?_take_eq_some_iff.1 hextent).2
    rw [splitWord]
    simp only [hnone]

/-- A word is split into the variables that it consists of. -/
theorem splitWord_of_splits {word : List Char} {tokens : List Token}
    (h : Splits names position word tokens) : splitWord names position word = { tokens } := by
  induction h with
  | nil => rw [splitWord]
  | cons hname _ ih => rw [splitWord_append hname, ih, Scan.cons]

theorem splits_splitWord {word : List Char} (h : (splitWord names position word).fault = none) :
    Splits names position word (splitWord names position word).tokens := by
  -- What is left after the first name is shorter.
  induction hlength : word.length using Nat.strongRecOn generalizing position word with
  | ind length ih =>
      by_cases hname : ∃ name, LongestName names word name
      · obtain ⟨name, hname⟩ := hname
        obtain ⟨rest, rfl⟩ := hname.begins
        have hpos := List.length_pos_iff.2 hname.nonempty
        rw [List.length_append] at hlength
        rw [splitWord_append hname] at h ⊢
        exact .cons hname (ih rest.length (by omega) h rfl)
      · by_cases hnil : word = []
        · rw [hnil, splitWord]
          exact .nil
        · rw [splitWord_of_forall_not hnil (not_exists.1 hname)] at h
          cases h

/-! ## Pieces of a text -/

/-- The characters are a literal: digits with one point at most, and a digit first. -/
structure IsLiteral (literal : List Char) : Prop where
  first : ∃ c ∈ literal.head?, c.isDigit
  numeral : ∀ c ∈ literal, isNumeralChar c
  points : literal.count '.' ≤ 1

theorem IsLiteral.exists_cons {literal : List Char} (h : IsLiteral literal) :
    ∃ first more, first.isDigit ∧ literal = first :: more := by
  obtain ⟨first, hhead, hfirst⟩ := h.first
  cases literal with
  | nil => cases hhead
  | cons first' more =>
      obtain rfl := Option.some.inj hhead
      exact ⟨first', more, hfirst, rfl⟩

/-- A digit, and what continues a numeral after it. -/
theorem isLiteral_cons_takeWhile {first : Char} {rest : List Char} (hfirst : first.isDigit)
    (hpoints : (first :: rest.takeWhile isNumeralChar).count '.' ≤ 1) :
    IsLiteral (first :: rest.takeWhile isNumeralChar) where
  first := ⟨first, rfl, hfirst⟩
  numeral := by
    intro c hc
    rcases List.mem_cons.1 hc with rfl | hc
    · exact isNumeralChar_of_isDigit hfirst
    · exact List.mem_takeWhile_imp hc
  points := hpoints

/-- A piece of a text at a position, what follows it, and its tokens. -/
inductive Piece (names : KnownNames) (position : Nat) :
    List Char → List Char → List Token → Prop
  | symbol {c : Char} {kind : TokenKind} {rest : List Char}
      (hsymbol : TokenKind.ofSymbol? c = some kind) :
      Piece names position [c] rest [⟨kind, String.singleton c, position⟩]
  | literal {literal rest : List Char} (hliteral : IsLiteral literal)
      (hrest : NotAhead isNumeralChar rest) :
      Piece names position literal rest [⟨.number, String.ofList literal, position⟩]
  | function {word rest : List Char} (hne : word ≠ []) (hword : ∀ c ∈ word, isAlphabetic c)
      (hrest : rest.head? = some '(') :
      Piece names position word rest [⟨.functionName, String.ofList word, position⟩]
  | word {word rest : List Char} {tokens : List Token} (hne : word ≠ [])
      (hword : ∀ c ∈ word, isAlphabetic c) (hrest : NotAhead isAlphabetic rest)
      (hcall : rest.head? ≠ some '(') (hsplits : Splits names position word tokens) :
      Piece names position word rest tokens

/-- A text at a position and its tokens: pieces, and white space around them. -/
inductive Pieces (names : KnownNames) : Nat → List Char → List Token → Prop
  | nil {position : Nat} : Pieces names position [] []
  | whiteSpace {position : Nat} {c : Char} {rest : List Char} {tokens : List Token}
      (hc : isWhiteSpace c) (hrest : Pieces names (position + 1) rest tokens) :
      Pieces names position (c :: rest) tokens
  | piece {position : Nat} {chunk rest : List Char} {tokens more : List Token}
      (hpiece : Piece names position chunk rest tokens)
      (hrest : Pieces names (position + chunk.length) rest more) :
      Pieces names position (chunk ++ rest) (tokens ++ more)

/-! ## Reading a piece -/

theorem scan_whiteSpace {c : Char} (h : isWhiteSpace c) (rest : List Char) :
    scan names position (c :: rest) = scan names (position + 1) rest := by
  rw [scan, if_pos h]

theorem scan_symbol {c : Char} {kind : TokenKind} (h : TokenKind.ofSymbol? c = some kind)
    (rest : List Char) :
    scan names position (c :: rest)
      = (scan names (position + 1) rest).cons ⟨kind, String.singleton c, position⟩ := by
  rw [scan, if_neg (TokenKind.not_of_ofSymbol? h).1, h]

theorem ofSymbol?_eq_none {c : Char} (h : isNumeralChar c ∨ isAlphabetic c) :
    TokenKind.ofSymbol? c = none := by
  rw [Option.eq_none_iff_forall_ne_some]
  intro kind hkind
  obtain ⟨-, hnumeral, halphabetic⟩ := TokenKind.not_of_ofSymbol? hkind
  exact h.elim hnumeral halphabetic

theorem scan_digit {first : Char} (hfirst : first.isDigit) (text : List Char) :
    scan names position (first :: text)
      = if 1 < (first :: text.takeWhile isNumeralChar).count '.' then
          .stopped (.malformedNumber (String.ofList (first :: text.takeWhile isNumeralChar)) position)
        else
          (scan names (position + (first :: text.takeWhile isNumeralChar).length)
            (text.dropWhile isNumeralChar)).cons
              ⟨.number, String.ofList (first :: text.takeWhile isNumeralChar), position⟩ := by
  rw [scan, if_neg (not_of_isDigit hfirst).1,
    ofSymbol?_eq_none (.inl (isNumeralChar_of_isDigit hfirst))]
  simp only [hfirst, if_true]

theorem scan_alphabetic {first : Char} (hfirst : isAlphabetic first) (text : List Char) :
    scan names position (first :: text)
      = if (text.dropWhile isAlphabetic).head? = some '(' then
          (scan names (position + (first :: text.takeWhile isAlphabetic).length)
            (text.dropWhile isAlphabetic)).cons
              ⟨.functionName, String.ofList (first :: text.takeWhile isAlphabetic), position⟩
        else
          (splitWord names position (first :: text.takeWhile isAlphabetic)).append
            (scan names (position + (first :: text.takeWhile isAlphabetic).length)
              (text.dropWhile isAlphabetic)) := by
  have hwhite : ¬ isWhiteSpace first := fun h => not_isAlphabetic_of_isWhiteSpace h hfirst
  have hdigit : ¬ first.isDigit := fun h => (not_of_isDigit h).2 hfirst
  rw [scan, if_neg hwhite, ofSymbol?_eq_none (.inr hfirst)]
  simp only [hdigit, hfirst, if_true]
  rfl

/-- A parenthesis ends a word. -/
theorem notAhead_of_leftParen {rest : List Char} (h : rest.head? = some '(') :
    NotAhead isAlphabetic rest := by
  intro c hc
  rw [h] at hc
  obtain rfl : '(' = c := Option.some.inj hc
  decide +kernel

/-- What is read of a piece is its tokens, whatever follows it. -/
theorem Piece.scan_append {chunk rest : List Char} {tokens : List Token}
    (h : Piece names position chunk rest tokens) :
    scan names position (chunk ++ rest)
      = Scan.append { tokens } (scan names (position + chunk.length) rest) := by
  cases h with
  | symbol hsymbol => exact scan_symbol hsymbol rest
  | literal hliteral hrest =>
      obtain ⟨first, more, hfirst, rfl⟩ := hliteral.exists_cons
      have hmore : ∀ c ∈ more, isNumeralChar c :=
        fun c hc => hliteral.numeral c (List.mem_cons_of_mem _ hc)
      rw [List.cons_append, scan_digit hfirst, takeWhile_append_of_notAhead hmore hrest,
        dropWhile_append_of_notAhead hmore hrest, if_neg (Nat.not_lt.2 hliteral.points)]
      rfl
  | function hne hword hrest =>
      rcases chunk with _ | ⟨first, more⟩
      · exact absurd rfl hne
      · have hmore : ∀ c ∈ more, isAlphabetic c := fun c hc => hword c (List.mem_cons_of_mem _ hc)
        have hahead := notAhead_of_leftParen hrest
        rw [List.cons_append, scan_alphabetic (hword first List.mem_cons_self),
          takeWhile_append_of_notAhead hmore hahead, dropWhile_append_of_notAhead hmore hahead,
          if_pos hrest]
        rfl
  | word hne hword hrest hcall hsplits =>
      rcases chunk with _ | ⟨first, more⟩
      · exact absurd rfl hne
      · have hmore : ∀ c ∈ more, isAlphabetic c := fun c hc => hword c (List.mem_cons_of_mem _ hc)
        rw [List.cons_append, scan_alphabetic (hword first List.mem_cons_self),
          takeWhile_append_of_notAhead hmore hrest, dropWhile_append_of_notAhead hmore hrest,
          if_neg hcall, splitWord_of_splits hsplits]

/-- What is read of a text that has pieces. -/
theorem scan_of_pieces {text : List Char} {tokens : List Token}
    (h : Pieces names position text tokens) : scan names position text = { tokens } := by
  induction h with
  | nil => rw [scan]
  | whiteSpace hc _ ih => rw [scan_whiteSpace hc, ih]
  | piece hpiece _ ih => rw [hpiece.scan_append, ih, Scan.append]

theorem forall_isAlphabetic_cons_takeWhile {first : Char} (hfirst : isAlphabetic first)
    (rest : List Char) : ∀ c ∈ first :: rest.takeWhile isAlphabetic, isAlphabetic c := by
  intro c hc
  rcases List.mem_cons.1 hc with rfl | hc
  · exact hfirst
  · exact List.mem_takeWhile_imp hc

/-- A text that is read without a fault has pieces. -/
theorem pieces_scan {text : List Char} (h : (scan names position text).fault = none) :
    Pieces names position text (scan names position text).tokens := by
  -- The cases are the branches of the scan; two of them are faults.
  fun_induction scan names position text with
  | case1 => exact .nil
  | case2 position first rest hwhite ih => exact .whiteSpace hwhite (ih h)
  | case3 position first rest _ kind hkind ih => exact .piece (.symbol hkind) (ih h)
  | case4 => cases h
  | case5 position first rest _ _ hdigit literal hpoints ih =>
      have hpiece : Piece names position literal (rest.dropWhile isNumeralChar) _ :=
        .literal (isLiteral_cons_takeWhile hdigit (Nat.not_lt.1 hpoints))
          (notAhead_dropWhile isNumeralChar rest)
      have hpieces := Pieces.piece hpiece (ih h)
      rwa [List.cons_append, List.takeWhile_append_dropWhile] at hpieces
  | case6 position first rest _ _ _ halphabetic word after hcall ih =>
      have hpiece : Piece names position word after _ :=
        .function (List.cons_ne_nil _ _) (forall_isAlphabetic_cons_takeWhile halphabetic rest) hcall
      have hpieces := Pieces.piece hpiece (ih h)
      rwa [List.cons_append, List.takeWhile_append_dropWhile] at hpieces
  | case7 position first rest _ _ _ halphabetic word after hcall ih =>
      obtain ⟨hsplit, hafter⟩ := Scan.fault_append_eq_none h
      have hpiece : Piece names position word after _ :=
        .word (List.cons_ne_nil _ _) (forall_isAlphabetic_cons_takeWhile halphabetic rest)
          (notAhead_dropWhile isAlphabetic rest) hcall (splits_splitWord hsplit)
      have hpieces := Pieces.piece hpiece (ih hafter)
      rw [List.cons_append, List.takeWhile_append_dropWhile] at hpieces
      rwa [Scan.append_of_fault_eq_none hsplit]
  | case8 => cases h

end Lexer

/-- A text is split into tokens exactly if it has pieces with these tokens. -/
theorem tokenize_eq_ok_iff {names : KnownNames} {text : String} {tokens : TokenSequence} :
    tokenize names text = .ok tokens ↔
      Lexer.Pieces names 0 text.toList tokens.body ∧ tokens.endPosition = text.length := by
  obtain ⟨body, endPosition, hkind⟩ := tokens
  constructor
  · intro h
    unfold tokenize at h
    simp only at h
    split at h
    · cases h
    · next hfault =>
        obtain ⟨rfl, rfl⟩ := TokenSequence.mk.inj (Except.ok.inj h)
        exact ⟨Lexer.pieces_scan hfault, rfl⟩
  · rintro ⟨hpieces, rfl⟩
    have hscan := Lexer.scan_of_pieces hpieces
    unfold tokenize
    simp only [hscan]

theorem tokenize_eq_error_iff {names : KnownNames} {text : String} {error : LexError} :
    tokenize names text = .error error ↔ (Lexer.scan names 0 text.toList).fault = some error := by
  unfold tokenize
  simp only
  split
  · next hfault => simp [hfault]
  · next hfault => simp [hfault]

theorem scan_of_tokenize {names : KnownNames} {text : String} {tokens : TokenSequence}
    (h : tokenize names text = .ok tokens) :
    Lexer.scan names 0 text.toList = { tokens := tokens.body } :=
  Lexer.scan_of_pieces (tokenize_eq_ok_iff.1 h).1

/-- A text that has pieces is split into their tokens. -/
theorem exists_tokenize_of_pieces {names : KnownNames} {text : String} {tokens : List Token}
    (h : Lexer.Pieces names 0 text.toList tokens) :
    ∃ sequence, tokenize names text = .ok sequence ∧ sequence.body = tokens ∧
      sequence.endPosition = text.length := by
  have hkind : ∀ token ∈ tokens, token.kind ≠ .endOfInput := by
    intro token htoken
    have hscan := Lexer.scan_of_pieces h
    exact Lexer.kind_of_mem_scan (by rw [hscan]; exact htoken)
  exact ⟨⟨tokens, text.length, hkind⟩, tokenize_eq_ok_iff.2 ⟨h, rfl⟩, rfl, rfl⟩

end Reckoner
