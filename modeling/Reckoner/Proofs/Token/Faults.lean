/-
  Reckoner.Proofs.Token.Faults

  Where the reading of a text stops, and why (`fault_of_tokenize`).

  What comes before a fault has pieces of its own, although the fault may lie within a word: the
  variables already found in the word were the longest names before it was cut, and a shorter word
  has no longer ones (`LongestName.of_prefix`).  So the text can be read up to its fault.
-/
import Reckoner.Proofs.Token.Pieces

namespace Reckoner

open Unicode

theorem Scan.append_of_fault_eq_some {first : Scan} {fault : LexError}
    (h : first.fault = some fault) (second : Scan) : first.append second = first := by
  obtain ⟨tokens, _⟩ := first
  cases h
  rfl

/-- What has been looked for before the fault has been looked for. -/
theorem Scan.windowStarts_subset (scan : Scan) :
    ({ tokens := scan.tokens } : Scan).windowStarts ⊆ scan.windowStarts := by
  rw [windowStarts, windowStarts]
  exact List.append_subset.2 ⟨List.subset_append_left _ _, List.nil_subset _⟩

namespace Lexer

/-- The text begins with the fault that the error names. -/
inductive Fault (names : KnownNames) : List Char → LexError → Prop
  /-- A digit, with two points at least as far as digits and points go on. -/
  | malformedNumber {first : Char} {rest : List Char} (position : Nat) (hfirst : first.isDigit)
      (hpoints : 2 ≤ ((first :: rest).takeWhile isNumeralChar).count '.') :
      Fault names (first :: rest)
        (.malformedNumber (String.ofList ((first :: rest).takeWhile isNumeralChar)) position)
  /-- The rest of a word that no parenthesis follows.  It begins with no name that is looked for. -/
  | unrecognizedIdentifier {first : Char} {rest : List Char} (position : Nat)
      (hfirst : isAlphabetic first)
      (hcall : ((first :: rest).dropWhile isAlphabetic).head? ≠ some '(')
      (hunknown : ∀ name, name ≠ [] → name <+: (first :: rest).takeWhile isAlphabetic →
        name.length ≤ names.longest → ¬ names.isKnown (String.ofList name)) :
      Fault names (first :: rest)
        (.unrecognizedIdentifier (String.ofList ((first :: rest).takeWhile isAlphabetic)) position)
  /-- A character that no token begins with, and that is no white space either. -/
  | unexpectedCharacter {first : Char} {rest : List Char} (position : Nat)
      (hwhite : ¬ isWhiteSpace first) (hsymbol : TokenKind.ofSymbol? first = none)
      (hdigit : ¬ first.isDigit) (halphabetic : ¬ isAlphabetic first) :
      Fault names (first :: rest) (.unexpectedCharacter first position)

variable {names : KnownNames} {position : Nat}

namespace Fault

variable {text : List Char} {error : LexError}

theorem ne_nil (h : Fault names text error) : text ≠ [] := by
  cases h <;> exact List.cons_ne_nil _ _

theorem head?_ne_leftParen (h : Fault names text error) : text.head? ≠ some '(' := by
  intro hhead
  cases h with
  | malformedNumber _ hfirst =>
      rw [Option.some.inj hhead] at hfirst
      exact absurd hfirst (by decide)
  | unrecognizedIdentifier _ hfirst =>
      rw [Option.some.inj hhead] at hfirst
      exact absurd hfirst (by decide +kernel)
  | unexpectedCharacter _ _ hsymbol =>
      rw [Option.some.inj hhead] at hsymbol
      cases hsymbol

end Fault

/-! ## Cutting a text -/

theorem NotAhead.of_append {p : Char → Bool} {front rest : List Char}
    (h : NotAhead p (front ++ rest)) : NotAhead p front := by
  intro c hc
  refine h c ?_
  rw [Option.mem_def, List.head?_append, Option.mem_def.1 hc, Option.some_or]

/-- The longest name of a word is the longest one of the word cut somewhere after it. -/
theorem LongestName.of_prefix {word shorter name : List Char} (h : LongestName names word name)
    (hbegins : name <+: shorter) (hshorter : shorter <+: word) :
    LongestName names shorter name where
  nonempty := h.nonempty
  begins := hbegins
  known := h.known
  length_le := h.length_le
  longest := fun other hother => h.longest other (hother.trans hshorter)

/-! ## Words with a fault -/

theorem knownExtent?_eq_none_iff {window : List Char} {bound : Nat} :
    knownExtent? names window bound = none ↔
      ∀ k < bound, ¬ names.isKnown (String.ofList (window.take (k + 1))) := by
  induction bound with
  | zero => simp [knownExtent?]
  | succ bound ih =>
      rw [knownExtent?, Nat.forall_lt_succ_right]
      by_cases hknown : names.isKnown (String.ofList (window.take (bound + 1)))
      · rw [if_pos hknown]
        exact iff_of_false (Option.some_ne_none bound) fun h => h.2 hknown
      · rw [if_neg hknown, ih]
        exact (and_iff_left hknown).symm

/-- Of the names that are looked for, the word begins with none if it begins with no longest one. -/
theorem not_isKnown_of_forall_not {word name : List Char}
    (h : ∀ other, ¬ LongestName names word other) (hne : name ≠ []) (hbegins : name <+: word)
    (hlength : name.length ≤ names.longest) : ¬ names.isKnown (String.ofList name) := by
  have hnone : knownExtent? names (word.take names.longest) (word.take names.longest).length
      = none := by
    rw [Option.eq_none_iff_forall_ne_some]
    exact fun extent hextent => h _ (knownExtent?_take_eq_some_iff.1 hextent).2
  have hpos := List.length_pos_iff.2 hne
  have hle := hbegins.length_le
  have hunknown := knownExtent?_eq_none_iff.1 hnone (name.length - 1)
    (by rw [List.length_take]; omega)
  -- The name lies within the window, so it is a prefix of the window too.
  rwa [List.take_take, Nat.sub_add_cancel hpos, Nat.min_eq_left hlength,
    ← List.prefix_iff_eq_take.1 hbegins] at hunknown

/-- A word with a fault is split up to what is left of it when no name is found. -/
theorem exists_splits_of_fault {word : List Char} {error : LexError}
    (h : (splitWord names position word).fault = some error) :
    ∃ found left, word = found ++ left ∧ left ≠ [] ∧ (∀ name, ¬ LongestName names left name) ∧
      Splits names position found (splitWord names position word).tokens ∧
      error = .unrecognizedIdentifier (String.ofList left) (position + found.length) := by
  -- What is left after the first name is shorter.
  induction hlength : word.length using Nat.strongRecOn generalizing position word with
  | ind length ih =>
      by_cases hname : ∃ name, LongestName names word name
      · obtain ⟨name, hname⟩ := hname
        obtain ⟨rest, rfl⟩ := hname.begins
        have hpos := List.length_pos_iff.2 hname.nonempty
        rw [List.length_append] at hlength
        rw [splitWord_append hname] at h ⊢
        obtain ⟨found, left, rfl, hne, hunknown, hsplits, herror⟩ := ih rest.length (by omega) h rfl
        have hcut : LongestName names (name ++ found) name :=
          hname.of_prefix (List.prefix_append _ _) (by simp)
        refine ⟨name ++ found, left, (List.append_assoc ..).symm, hne, hunknown,
          .cons hcut hsplits, ?_⟩
        rw [herror, List.length_append, Nat.add_assoc]
      · have hunknown := not_exists.1 hname
        by_cases hnil : word = []
        · rw [hnil, splitWord] at h
          cases h
        · rw [splitWord_of_forall_not hnil hunknown] at h ⊢
          exact ⟨[], word, rfl, hnil, hunknown, .nil, (Option.some.inj h).symm⟩

/-! ## Texts with a fault -/

/-- A word that ends the text is a piece of it, unless it is empty. -/
theorem Splits.pieces {word : List Char} {tokens : List Token}
    (h : Splits names position word tokens) (hword : ∀ c ∈ word, isAlphabetic c) :
    Pieces names position word tokens := by
  cases word with
  | nil =>
      have hsplit := splitWord_of_splits h
      rw [splitWord] at hsplit
      obtain rfl : [] = tokens := congrArg Scan.tokens hsplit
      exact .nil
  | cons first more =>
      have hpiece : Piece names position (first :: more) [] tokens :=
        .word (List.cons_ne_nil _ _) hword (notAhead_nil _) (Option.some_ne_none _).symm h
      have hpieces := Pieces.piece hpiece .nil
      rwa [List.append_nil, List.append_nil] at hpieces

/-- What is left of a word begins with a fault. -/
theorem fault_of_left {left after : List Char} (hne : left ≠ [])
    (hleft : ∀ c ∈ left, isAlphabetic c) (hafter : NotAhead isAlphabetic after)
    (hcall : after.head? ≠ some '(') (hunknown : ∀ name, ¬ LongestName names left name)
    (position : Nat) :
    Fault names (left ++ after) (.unrecognizedIdentifier (String.ofList left) position) := by
  obtain ⟨first, more, rfl⟩ := List.exists_cons_of_ne_nil hne
  have htake := takeWhile_append_of_notAhead hleft hafter
  have hdrop := dropWhile_append_of_notAhead hleft hafter
  rw [List.cons_append] at htake hdrop ⊢
  rw [← htake]
  refine .unrecognizedIdentifier position (hleft first List.mem_cons_self) (by rwa [hdrop]) ?_
  rw [htake]
  exact fun name => not_isKnown_of_forall_not hunknown

/-- Before the fault of a word there are the variables found in it, which are pieces. -/
theorem exists_pieces_of_splitWord {word after : List Char} {error : LexError}
    (hword : ∀ c ∈ word, isAlphabetic c) (hafter : NotAhead isAlphabetic after)
    (hcall : after.head? ≠ some '(') (h : (splitWord names position word).fault = some error) :
    ∃ front rest, word ++ after = front ++ rest ∧ error.position = position + front.length ∧
      Pieces names position front (splitWord names position word).tokens ∧
      Fault names rest error := by
  obtain ⟨found, left, hfound, hne, hunknown, hsplits, rfl⟩ := exists_splits_of_fault h
  rw [hfound] at hword
  refine ⟨found, left ++ after, ?_, rfl, ?_, ?_⟩
  · rw [hfound, List.append_assoc]
  · exact hsplits.pieces fun c hc => hword c (List.mem_append_left _ hc)
  · exact fault_of_left hne (fun c hc => hword c (List.mem_append_right _ hc)) hafter hcall
      hunknown _

/-- Before the fault of a text there are pieces, with the tokens that have been read. -/
theorem exists_pieces_of_fault {text : List Char} {error : LexError}
    (h : (scan names position text).fault = some error) :
    ∃ front rest, text = front ++ rest ∧ error.position = position + front.length ∧
      Pieces names position front (scan names position text).tokens ∧ Fault names rest error := by
  -- The cases are the branches of the scan; where it goes on, the fault is in what follows.
  fun_induction scan names position text with
  | case1 => cases h
  | case2 position first rest hwhite ih =>
      obtain ⟨front, rest, rfl, hposition, hpieces, hfault⟩ := ih h
      refine ⟨first :: front, rest, rfl, ?_, .whiteSpace hwhite hpieces, hfault⟩
      rw [hposition, List.length_cons]
      omega
  | case3 position first rest _ kind hkind ih =>
      obtain ⟨front, rest, rfl, hposition, hpieces, hfault⟩ := ih h
      refine ⟨[first] ++ front, rest, rfl, ?_, .piece (.symbol hkind) hpieces, hfault⟩
      rw [hposition, List.length_append, List.length_singleton]
      omega
  | case4 position first rest _ _ hdigit literal hpoints =>
      obtain rfl := Option.some.inj h
      have htake : (first :: rest).takeWhile isNumeralChar = literal :=
        List.takeWhile_cons_of_pos (isNumeralChar_of_isDigit hdigit)
      refine ⟨[], first :: rest, rfl, rfl, .nil, ?_⟩
      rw [← htake] at hpoints ⊢
      exact .malformedNumber position hdigit hpoints
  | case5 position first rest _ _ hdigit literal hpoints ih =>
      obtain ⟨front, left, hafter, hposition, hpieces, hfault⟩ := ih h
      have hpiece : Piece names position literal front _ :=
        .literal (isLiteral_cons_takeWhile hdigit (Nat.not_lt.1 hpoints))
          (hafter ▸ notAhead_dropWhile isNumeralChar rest).of_append
      refine ⟨literal ++ front, left, ?_, ?_, .piece hpiece hpieces, hfault⟩
      · rw [List.append_assoc, ← hafter, List.cons_append, List.takeWhile_append_dropWhile]
      · rw [hposition, List.length_append, Nat.add_assoc]
  | case6 position first rest _ _ _ halphabetic word after hcall ih =>
      obtain ⟨front, left, hafter, hposition, hpieces, hfault⟩ := ih h
      -- The parenthesis is no fault, so it is not what is left.
      have hcall' : front.head? = some '(' := by
        rw [hafter, List.head?_append] at hcall
        exact (Option.or_eq_some_iff.1 hcall).resolve_right
          fun hleft => hfault.head?_ne_leftParen hleft.2
      have hpiece : Piece names position word front _ :=
        .function (List.cons_ne_nil _ _) (forall_isAlphabetic_cons_takeWhile halphabetic rest) hcall'
      refine ⟨word ++ front, left, ?_, ?_, .piece hpiece hpieces, hfault⟩
      · rw [List.append_assoc, ← hafter, List.cons_append, List.takeWhile_append_dropWhile]
      · rw [hposition, List.length_append, Nat.add_assoc]
  | case7 position first rest _ _ _ halphabetic word after hcall ih =>
      have hword : ∀ c ∈ word, isAlphabetic c := forall_isAlphabetic_cons_takeWhile halphabetic rest
      have hahead : NotAhead isAlphabetic after := notAhead_dropWhile isAlphabetic rest
      have htext : first :: rest = word ++ after := by
        rw [List.cons_append, List.takeWhile_append_dropWhile]
      cases hsplit : (splitWord names position word).fault with
      | some fault =>
          rw [Scan.append_of_fault_eq_some hsplit] at h ⊢
          rw [htext]
          exact exists_pieces_of_splitWord hword hahead hcall h
      | none =>
          rw [Scan.append_of_fault_eq_none hsplit] at h ⊢
          obtain ⟨front, left, hafter, hposition, hpieces, hfault⟩ := ih h
          have hcall' : front.head? ≠ some '(' := by
            intro hhead
            rw [hafter, List.head?_append, hhead] at hcall
            exact hcall rfl
          have hpiece : Piece names position word front _ :=
            .word (List.cons_ne_nil _ _) hword (hafter ▸ hahead).of_append hcall'
              (splits_splitWord hsplit)
          refine ⟨word ++ front, left, ?_, ?_, .piece hpiece hpieces, hfault⟩
          · rw [htext, hafter, List.append_assoc]
          · rw [hposition, List.length_append, Nat.add_assoc]
  | case8 position first rest hwhite hsymbol hdigit halphabetic =>
      obtain rfl := Option.some.inj h
      exact ⟨[], first :: rest, rfl, rfl, .nil,
        .unexpectedCharacter position hwhite hsymbol hdigit halphabetic⟩

end Lexer

/-! ## Reading up to the fault -/

/-- A text with a fault can be read up to it, and the fault is one that the error names.  So it is
where positions are 64-bit words. -/
theorem fault_of_tokenize {names : KnownNames} {text : String} {error : LexError}
    (h : tokenize names text = .error error) :
    error.position < text.length ∧
    (∃ tokens, tokenize names (String.ofList (text.toList.take error.position)) = .ok tokens ∧
      ((tokenizeInWords? names text).isSome →
        tokenizeInWords? names (String.ofList (text.toList.take error.position))
          = some (.ok tokens))) ∧
    Lexer.Fault names (text.toList.drop error.position) error := by
  obtain ⟨front, rest, htext, hposition, hpieces, hfault⟩ :=
    Lexer.exists_pieces_of_fault (tokenize_eq_error_iff.1 h)
  rw [Nat.zero_add] at hposition
  have hfront : text.toList.take error.position = front := by
    rw [htext, hposition, List.take_left]
  have hrest : text.toList.drop error.position = rest := by
    rw [htext, hposition, List.drop_left]
  rw [hfront, hrest]
  refine ⟨?_, ?_, hfault⟩
  · have hpos := List.length_pos_iff.2 hfault.ne_nil
    rw [← String.length_toList, htext, List.length_append]
    omega
  · rw [← String.toList_ofList (l := front)] at hpieces
    obtain ⟨tokens, htokens, -, -⟩ := exists_tokenize_of_pieces hpieces
    rw [String.toList_ofList] at hpieces
    refine ⟨tokens, htokens, fun hwords => ?_⟩
    -- Up to the fault the windows are the same.
    rw [tokenizeInWords?, Option.isSome_ite, List.all_eq_true] at hwords
    rw [tokenizeInWords?, String.toList_ofList, Lexer.scan_of_pieces hpieces, htokens, if_pos]
    exact List.all_eq_true.2 fun start hstart => hwords start (Scan.windowStarts_subset _ hstart)

/-- The fault is within a word, of which the first two letters have been found to be a variable. -/
theorem fault_of_word_partly_split :
    tokenize (.ofList ["p", "pi", "e"] 2) "2*pixe" = .error (.unrecognizedIdentifier "xe" 4) ∧
    4 < "2*pixe".length ∧
    (∃ tokens, tokenize (.ofList ["p", "pi", "e"] 2) "2*pi" = .ok tokens) ∧
    Lexer.Fault (.ofList ["p", "pi", "e"] 2) ['x', 'e'] (.unrecognizedIdentifier "xe" 4) := by
  have h : tokenize (.ofList ["p", "pi", "e"] 2) "2*pixe" = .error (.unrecognizedIdentifier "xe" 4) :=
    by decide +kernel
  obtain ⟨hposition, ⟨tokens, htokens, -⟩, hfault⟩ := fault_of_tokenize h
  exact ⟨h, hposition, ⟨tokens, htokens⟩, hfault⟩

end Reckoner
