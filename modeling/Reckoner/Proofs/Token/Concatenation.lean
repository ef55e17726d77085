/-
  Reckoner.Proofs.Token.Concatenation

  White space divides a text into texts that can be read by themselves
  (`tokenize_append_whiteSpace`).

  The reading looks ahead: a literal and a word go on as far as they can, and a parenthesis right
  after a word makes it the name of a function.  White space continues nothing and is no
  parenthesis, so what stands before it is read as if the text ended there (`scan_append`), and
  what stands after it as if it began there, but for its position (`scan_add`).

  The position matters in one way.  Where positions are 64-bit words, the end of a window may be no
  word any more when the window stands behind another text (`unjoined_of_long_window`).
-/
import Reckoner.Proofs.Token.Windows

namespace Reckoner

open Unicode

/-! ## Moving what has been read -/

/-- The token, `count` characters later. -/
def Token.shift (count : Nat) (token : Token) : Token :=
  { token with position := token.position + count }

/-- The error, `count` characters later. -/
def LexError.shift (count : Nat) : LexError → LexError
  | .malformedNumber literal position => .malformedNumber literal (position + count)
  | .unrecognizedIdentifier name position => .unrecognizedIdentifier name (position + count)
  | .unexpectedCharacter char position => .unexpectedCharacter char (position + count)

namespace Scan

/-- The scan, `count` characters later. -/
def shift (count : Nat) (scan : Scan) : Scan where
  tokens := scan.tokens.map (Token.shift count)
  fault := scan.fault.map (LexError.shift count)

theorem shift_append (count : Nat) (first second : Scan) :
    (first.append second).shift count = (first.shift count).append (second.shift count) := by
  obtain ⟨tokens, fault⟩ := first
  cases fault with
  | some fault => rfl
  | none => simp [append, shift]

theorem append_assoc (first second third : Scan) :
    (first.append second).append third = first.append (second.append third) := by
  obtain ⟨tokens, fault⟩ := first
  cases fault with
  | some fault => rfl
  | none =>
      obtain ⟨tokens', fault'⟩ := second
      cases fault' <;> simp [append]

theorem cons_append (token : Token) (first second : Scan) :
    (first.cons token).append second = (first.append second).cons token := by
  obtain ⟨tokens, fault⟩ := first
  cases fault <;> rfl

end Scan

namespace Lexer

variable {names : KnownNames} {position : Nat}

theorem scan_of_forall_not {first : Char} (hwhite : ¬ isWhiteSpace first)
    (hsymbol : TokenKind.ofSymbol? first = none) (hdigit : ¬ first.isDigit)
    (halphabetic : ¬ isAlphabetic first) (rest : List Char) :
    scan names position (first :: rest) = .stopped (.unexpectedCharacter first position) := by
  rw [scan, if_neg hwhite, hsymbol]
  simp only [if_neg hdigit, if_neg halphabetic]

/-! ## Reading from another position -/

theorem splitWord_add (position count : Nat) (word : List Char) :
    splitWord names (position + count) word = (splitWord names position word).shift count := by
  fun_induction splitWord names position word with
  | case1 => rw [splitWord]; rfl
  | case2 position first rest word window extent hextent ih =>
      rw [splitWord]
      simp only [word, window] at hextent
      simp only [hextent]
      rw [Nat.add_right_comm, ih]
      rfl
  | case3 position first rest word window hextent =>
      rw [splitWord]
      simp only [word, window] at hextent
      simp only [hextent]
      rfl

/-- Where a text starts has no say in what is read, but for the positions. -/
theorem scan_add (position count : Nat) (text : List Char) :
    scan names (position + count) text = (scan names position text).shift count := by
  fun_induction scan names position text with
  | case1 => rw [scan]; rfl
  | case2 position first rest hwhite ih => rw [scan_whiteSpace hwhite, Nat.add_right_comm, ih]
  | case3 position first rest _ kind hkind ih =>
      rw [scan_symbol hkind, Nat.add_right_comm, ih]
      rfl
  | case4 position first rest _ _ hdigit literal hpoints =>
      rw [scan_digit hdigit, if_pos hpoints]
      rfl
  | case5 position first rest _ _ hdigit literal hpoints ih =>
      rw [scan_digit hdigit, if_neg hpoints, Nat.add_right_comm, ih]
      rfl
  | case6 position first rest _ _ _ halphabetic word after hcall ih =>
      rw [scan_alphabetic halphabetic, if_pos hcall, Nat.add_right_comm, ih]
      rfl
  | case7 position first rest _ _ _ halphabetic word after hcall ih =>
      rw [scan_alphabetic halphabetic, if_neg hcall, Nat.add_right_comm, ih, splitWord_add,
        Scan.shift_append]
  | case8 position first rest hwhite hsymbol hdigit halphabetic =>
      rw [scan_of_forall_not hwhite hsymbol hdigit halphabetic]
      rfl

/-! ## Reading on -/

/-- The text has no say in what is read before it: it continues no literal and no word, and makes
no word the name of a function. -/
structure StandsApart (text : List Char) : Prop where
  numeral : NotAhead isNumeralChar text
  alphabetic : NotAhead isAlphabetic text
  not_called : text.head? ≠ some '('

theorem standsApart_of_isWhiteSpace {text : List Char} (h : ∀ c ∈ text.head?, isWhiteSpace c) :
    StandsApart text where
  numeral := fun c hc hnumeral => (not_of_isNumeralChar hnumeral).1 (h c hc)
  alphabetic := fun c hc => not_isAlphabetic_of_isWhiteSpace (h c hc)
  not_called := fun hcall => absurd (h '(' hcall) (by decide +kernel)

theorem NotAhead.append {p : Char → Bool} {text rest : List Char} (h : NotAhead p text)
    (hrest : NotAhead p rest) : NotAhead p (text ++ rest) := by
  cases text with
  | nil => exact hrest
  | cons first more => exact h

/-- A run that ends in the text ends there whatever comes after the text. -/
theorem takeWhile_append_right {p : Char → Bool} {rest : List Char} (hrest : NotAhead p rest)
    (text : List Char) : (text ++ rest).takeWhile p = text.takeWhile p := by
  have hrun : ∀ c ∈ text.takeWhile p, p c := fun _ hc => List.mem_takeWhile_imp hc
  have hahead := (notAhead_dropWhile p text).append hrest
  have htake := takeWhile_append_of_notAhead hrun hahead
  rwa [← List.append_assoc, List.takeWhile_append_dropWhile] at htake

theorem dropWhile_append_right {p : Char → Bool} {rest : List Char} (hrest : NotAhead p rest)
    (text : List Char) : (text ++ rest).dropWhile p = text.dropWhile p ++ rest := by
  have hrun : ∀ c ∈ text.takeWhile p, p c := fun _ hc => List.mem_takeWhile_imp hc
  have hahead := (notAhead_dropWhile p text).append hrest
  have hdrop := dropWhile_append_of_notAhead hrun hahead
  rwa [← List.append_assoc, List.takeWhile_append_dropWhile] at hdrop

/-- A parenthesis right after a word stands in the same text. -/
theorem StandsApart.called_iff {rest : List Char} (h : StandsApart rest) (after : List Char) :
    (after ++ rest).head? = some '(' ↔ after.head? = some '(' := by
  cases after with
  | nil => exact iff_of_false h.not_called (Option.some_ne_none _).symm
  | cons first more => exact Iff.rfl

/-- Where a run ends and the rest of a text begins. -/
theorem add_length_cons_takeWhile (p : Char → Bool) (position : Nat) (first : Char)
    (text : List Char) :
    position + (first :: text.takeWhile p).length + (text.dropWhile p).length
      = position + (first :: text).length := by
  rw [Nat.add_assoc, ← List.length_append, List.cons_append, List.takeWhile_append_dropWhile]

/-- A text that stands apart is read after what comes before it. -/
theorem scan_append {rest : List Char} (hrest : StandsApart rest) (position : Nat)
    (text : List Char) :
    scan names position (text ++ rest)
      = (scan names position text).append (scan names (position + text.length) rest) := by
  -- The cases are the branches of the scan of the first text; a fault ends both scans.
  fun_induction scan names position text with
  | case1 => rfl
  | case2 position first text hwhite ih =>
      rw [List.cons_append, scan_whiteSpace hwhite, ih, List.length_cons, Nat.add_right_comm,
        Nat.add_assoc]
  | case3 position first text _ kind hkind ih =>
      rw [List.cons_append, scan_symbol hkind, ih, Scan.cons_append, List.length_cons,
        Nat.add_right_comm, Nat.add_assoc]
  | case4 position first text _ _ hdigit literal hpoints =>
      rw [List.cons_append, scan_digit hdigit, takeWhile_append_right hrest.numeral,
        if_pos hpoints]
      rfl
  | case5 position first text _ _ hdigit literal hpoints ih =>
      rw [List.cons_append, scan_digit hdigit, takeWhile_append_right hrest.numeral,
        dropWhile_append_right hrest.numeral, if_neg hpoints, ih, Scan.cons_append,
        add_length_cons_takeWhile]
  | case6 position first text _ _ _ halphabetic word after hcall ih =>
      rw [List.cons_append, scan_alphabetic halphabetic, takeWhile_append_right hrest.alphabetic,
        dropWhile_append_right hrest.alphabetic, if_pos ((hrest.called_iff _).2 hcall), ih,
        Scan.cons_append, add_length_cons_takeWhile]
  | case7 position first text _ _ _ halphabetic word after hcall ih =>
      have hcall' : ¬ (after ++ rest).head? = some '(' := fun h => hcall ((hrest.called_iff _).1 h)
      rw [List.cons_append, scan_alphabetic halphabetic, takeWhile_append_right hrest.alphabetic,
        dropWhile_append_right hrest.alphabetic, if_neg hcall', ih, ← Scan.append_assoc,
        add_length_cons_takeWhile]
  | case8 position first text hwhite hsymbol hdigit halphabetic =>
      rw [List.cons_append, scan_of_forall_not hwhite hsymbol hdigit halphabetic]
      rfl

/-- White space has no tokens. -/
theorem scan_whiteSpace_append {space : List Char} (hspace : ∀ c ∈ space, isWhiteSpace c)
    (position : Nat) (text : List Char) :
    scan names position (space ++ text) = scan names (position + space.length) text := by
  induction space generalizing position with
  | nil => rfl
  | cons first more ih =>
      rw [List.cons_append, scan_whiteSpace (hspace first List.mem_cons_self),
        ih fun c hc => hspace c (List.mem_cons_of_mem _ hc), List.length_cons, Nat.add_right_comm,
        Nat.add_assoc]

/-- Two texts with white space between them are read one after the other. -/
theorem scan_append_whiteSpace {space : List Char} (hne : space ≠ [])
    (hspace : ∀ c ∈ space, isWhiteSpace c) (first second : List Char) :
    scan names 0 (first ++ space ++ second)
      = (scan names 0 first).append
          ((scan names 0 second).shift (first ++ space).length) := by
  have hapart : StandsApart (space ++ second) := by
    obtain ⟨c, more, rfl⟩ := List.exists_cons_of_ne_nil hne
    refine standsApart_of_isWhiteSpace fun c' hc' => ?_
    obtain rfl : c = c' := Option.some.inj hc'
    exact hspace c List.mem_cons_self
  rw [List.append_assoc, scan_append hapart, scan_whiteSpace_append hspace, Nat.add_assoc,
    ← List.length_append, scan_add]

end Lexer

/-! ## Texts with white space between them -/

/-- What is read of a whole text, from what is read of its first part and of its second part, which
begins `count` characters later. -/
structure Joins (count : Nat) (first second whole : Except LexError TokenSequence) : Prop where
  of_error : ∀ error, first = .error error → whole = .error error
  of_ok_of_error : ∀ tokens error, first = .ok tokens → second = .error error →
    whole = .error (error.shift count)
  of_ok : ∀ tokens more, first = .ok tokens → second = .ok more → ∃ joined, whole = .ok joined ∧
    joined.toList = tokens.body ++ more.toList.map (Token.shift count)

section Joining

variable {names : KnownNames} {space : String}

theorem scan_toList_append (names : KnownNames) (hne : space ≠ "")
    (hspace : ∀ c ∈ space.toList, isWhiteSpace c) (first second : String) :
    Lexer.scan names 0 (first ++ space ++ second).toList
      = (Lexer.scan names 0 first.toList).append
          ((Lexer.scan names 0 second.toList).shift (first ++ space).length) := by
  rw [String.toList_append, String.toList_append,
    Lexer.scan_append_whiteSpace (mt String.toList_eq_nil_iff.1 hne) hspace,
    ← String.toList_append, String.length_toList]

theorem joins_tokenize (hne : space ≠ "") (hspace : ∀ c ∈ space.toList, isWhiteSpace c)
    (first second : String) :
    Joins (first ++ space).length (tokenize names first) (tokenize names second)
      (tokenize names (first ++ space ++ second)) := by
  have hscan := scan_toList_append names hne hspace first second
  refine ⟨fun error hfirst => ?_, fun tokens error hfirst hsecond => ?_,
    fun tokens more hfirst hsecond => ?_⟩
  · have hfault := tokenize_eq_error_iff.1 hfirst
    rw [tokenize_eq_error_iff, hscan, Scan.append_of_fault_eq_some hfault, hfault]
  · have hfault := tokenize_eq_error_iff.1 hsecond
    rw [tokenize_eq_error_iff, hscan, scan_of_tokenize hfirst, Scan.append_of_fault_eq_none rfl,
      Scan.shift, hfault]
    rfl
  · rw [scan_of_tokenize hfirst, scan_of_tokenize hsecond,
      Scan.append_of_fault_eq_none rfl] at hscan
    have hpieces := Lexer.pieces_scan (congrArg Scan.fault hscan)
    obtain ⟨joined, hjoined, hbody, hend⟩ := exists_tokenize_of_pieces hpieces
    have hatEnd : Token.atEnd joined.endPosition
        = (Token.atEnd more.endPosition).shift (first ++ space).length := by
      rw [hend, (tokenize_eq_ok_iff.1 hsecond).2, String.length_append, Nat.add_comm]
      rfl
    refine ⟨joined, hjoined, ?_⟩
    rw [TokenSequence.toList, TokenSequence.toList, hbody, hscan, hatEnd, List.map_append,
      ← List.append_assoc]
    rfl

/-- A fault in the first part is found before a window of the second part can be too long. -/
theorem tokenizeInWords?_append_of_error (hne : space ≠ "")
    (hspace : ∀ c ∈ space.toList, isWhiteSpace c) {first : String} {error : LexError}
    (h : tokenizeInWords? names first = some (.error error)) (second : String) :
    tokenizeInWords? names (first ++ space ++ second) = some (.error error) := by
  obtain ⟨hwindows, herror⟩ := tokenizeInWords?_eq_some_iff.1 h
  have hfault := tokenize_eq_error_iff.1 herror.symm
  refine tokenizeInWords?_eq_some_iff.2 ⟨?_, ?_⟩
  · rwa [scan_toList_append names hne hspace, Scan.append_of_fault_eq_some hfault]
  · exact ((joins_tokenize hne hspace first second).of_error error herror.symm).symm

end Joining

/-- What is read of a text with white space in it is joined from what is read before and after the
white space.  In 64-bit words it is so wherever the whole can be read, which it can up to a fault in
the first part, and where the ends of its windows are words. -/
theorem tokenize_append_whiteSpace {names : KnownNames} {space : String} (hne : space ≠ "")
    (hspace : ∀ c ∈ space.toList, isWhiteSpace c) (first second : String) :
    Joins (first ++ space).length (tokenize names first) (tokenize names second)
      (tokenize names (first ++ space ++ second)) ∧
    (∀ firstRead secondRead read, tokenizeInWords? names first = some firstRead →
      tokenizeInWords? names second = some secondRead →
      tokenizeInWords? names (first ++ space ++ second) = some read →
      Joins (first ++ space).length firstRead secondRead read) ∧
    (∀ error, tokenizeInWords? names first = some (.error error) →
      tokenizeInWords? names (first ++ space ++ second) = some (.error error)) ∧
    (names.InWords (first ++ space ++ second) →
      (tokenizeInWords? names first).isSome ∧ (tokenizeInWords? names second).isSome ∧
      (tokenizeInWords? names (first ++ space ++ second)).isSome) := by
  refine ⟨joins_tokenize hne hspace first second, ?_,
    fun error h => tokenizeInWords?_append_of_error hne hspace h second, fun hwords => ?_⟩
  · intro firstRead secondRead read hfirst hsecond hread
    rw [(tokenizeInWords?_eq_some_iff.1 hfirst).2, (tokenizeInWords?_eq_some_iff.1 hsecond).2,
      (tokenizeInWords?_eq_some_iff.1 hread).2]
    exact joins_tokenize hne hspace first second
  · have hlength : (first ++ space ++ second).length
        = first.length + space.length + second.length := by
      rw [String.length_append, String.length_append]
    have hpart {part : String} (hpart : part.length ≤ (first ++ space ++ second).length) :
        (tokenizeInWords? names part).isSome := by
      rw [tokenizeInWords?_of_inWords fun position hposition => hwords position (by omega)]
      rfl
    exact ⟨hpart (by omega), hpart (by omega), hpart (Nat.le_refl _)⟩

/-- The second part is no literal; and a parenthesis after white space makes no function. -/
theorem tokenize_append_whiteSpace_of_constant :
    tokenizeInWords? (.ofList ["pi"] 2) ("pi" ++ " \t" ++ "1.5.2")
      = some (.error (.malformedNumber "1.5.2" 4)) ∧
    ∃ joined, tokenize (.ofList ["pi"] 2) ("pi" ++ " \t" ++ "(") = .ok joined ∧
      joined.toList = [⟨.variableName, "pi", 0⟩, ⟨.leftParen, "(", 4⟩, ⟨.endOfInput, "", 5⟩] := by
  have hne : " \t" ≠ "" := by decide
  have hspace : ∀ c ∈ " \t".toList, isWhiteSpace c := List.all_eq_true.1 (by decide +kernel)
  have hwords : (KnownNames.ofList ["pi"] 2).InWords ("pi" ++ " \t" ++ "1.5.2") := by
    unfold KnownNames.InWords
    decide
  obtain ⟨first, hfirst⟩ : ∃ first, tokenizeInWords? (.ofList ["pi"] 2) "pi" = some (.ok first) :=
    ⟨⟨[⟨.variableName, "pi", 0⟩], 2, by decide⟩, by decide +kernel⟩
  have hsecond : tokenizeInWords? (.ofList ["pi"] 2) "1.5.2"
      = some (.error (.malformedNumber "1.5.2" 0)) := by decide +kernel
  have hfirst' : tokenize (.ofList ["pi"] 2) "pi"
      = .ok ⟨[⟨.variableName, "pi", 0⟩], 2, by decide⟩ := by decide +kernel
  have hsecond' : tokenize (.ofList ["pi"] 2) "("
      = .ok ⟨[⟨.leftParen, "(", 0⟩], 1, by decide⟩ := by decide +kernel
  obtain ⟨-, hjoins, -, hread⟩ := tokenize_append_whiteSpace hne hspace "pi" "1.5.2"
  obtain ⟨read, hread⟩ := Option.isSome_iff_exists.1 (hread hwords).2.2
  refine ⟨?_, ?_⟩
  · rw [hread, (hjoins _ _ _ hfirst hsecond hread).of_ok_of_error _ _ rfl rfl]
    rfl
  · exact (tokenize_append_whiteSpace hne hspace "pi" "(").1.of_ok _ _ hfirst' hsecond'

/-- Both parts can be read, but in the whole the end of the second window is no word. -/
theorem unjoined_of_long_window :
    (tokenizeInWords? (.ofList ["x"] (wordBound - 1)) "x").map (·.map TokenSequence.toList)
      = some (.ok [⟨.variableName, "x", 0⟩, ⟨.endOfInput, "", 1⟩]) ∧
    tokenizeInWords? (.ofList ["x"] (wordBound - 1)) ("x" ++ " " ++ "x") = none := by
  decide +kernel

end Reckoner
