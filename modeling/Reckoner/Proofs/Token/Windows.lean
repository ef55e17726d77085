/-
  Reckoner.Proofs.Token.Windows

  The window in which names are looked for is only there for speed.

  Here is a reading without it, which tries every prefix of what is left of a word, the longest
  first.  It knows which names are known but has no bound on their length.  Where the bound that
  comes with the names is no less than the length of any of them, both readings give the same
  tokens or the same error (`tokenize_without_window`).  The names of an environment come with such
  a bound, and a placeholder beside them is like one more name declared.
-/
import Reckoner.Proofs.Evaluation.Operations
import Reckoner.Proofs.Token.Cover
import Reckoner.Proofs.Token.Faults

namespace Reckoner

open Unicode

namespace KnownNames

/-- No known name is longer than the bound. -/
def Bounded (names : KnownNames) : Prop :=
  ∀ name, names.isKnown name → name.length ≤ names.longest

/-- Wherever a window begins in the text, the end of it is a 64-bit word. -/
def InWords (names : KnownNames) (text : String) : Prop :=
  ∀ position < text.length, position + names.longest < wordBound

end KnownNames

/-- The text is one that a memory with 64-bit addresses may hold, half of them at most. -/
def Addressable (text : String) : Prop :=
  text.length < wordBound / 2

namespace Lexer

/-! ## Reading without a window -/

/-- The prefixes of a word that are not empty, the longest first. -/
def prefixes (word : List Char) : List (List Char) :=
  (List.range' 1 word.length).reverse.map word.take

/-- The first prefix of the word that is a known name, of all of them. -/
def longestPrefix? (isKnown : String → Bool) (word : List Char) : Option (List Char) :=
  (prefixes word).find? fun name => isKnown (String.ofList name)

theorem mem_prefixes_iff {word name : List Char} :
    name ∈ prefixes word ↔ name ≠ [] ∧ name <+: word := by
  simp only [prefixes, List.mem_map, List.mem_reverse, List.mem_range'_1]
  constructor
  · rintro ⟨k, hk, rfl⟩
    refine ⟨List.ne_nil_of_length_pos ?_, List.take_prefix _ _⟩
    rw [List.length_take]
    omega
  · rintro ⟨hne, hbegins⟩
    have hpos := List.length_pos_iff.2 hne
    have hle := hbegins.length_le
    exact ⟨name.length, by omega, (List.prefix_iff_eq_take.1 hbegins).symm⟩

theorem pairwise_prefixes (word : List Char) :
    (prefixes word).Pairwise fun first second => second.length < first.length := by
  rw [prefixes, List.pairwise_map, List.pairwise_reverse]
  refine (List.pairwise_lt_range' ..).imp_of_mem fun {k m} hk hm hlt => ?_
  rw [List.mem_range'_1] at hk hm
  rw [List.length_take, List.length_take]
  omega

theorem mem_of_longestPrefix?_eq_some {isKnown : String → Bool} {word name : List Char}
    (h : longestPrefix? isKnown word = some name) : name ≠ [] ∧ name <+: word :=
  mem_prefixes_iff.1 (List.mem_of_find?_eq_some h)

/-- The variables of a word that starts at `position`, found among all its prefixes. -/
def splitFully (isKnown : String → Bool) (position : Nat) (word : List Char) : Scan :=
  if word = [] then {}
  else
    match _h : longestPrefix? isKnown word with
    | some name =>
      (splitFully isKnown (position + name.length) (word.drop name.length)).cons
        ⟨.variableName, String.ofList name, position⟩
    | none => .stopped (.unrecognizedIdentifier (String.ofList word) position)
  termination_by word.length
  decreasing_by
    obtain ⟨hne, hbegins⟩ := mem_of_longestPrefix?_eq_some _h
    have hpos := List.length_pos_iff.2 hne
    have hle := hbegins.length_le
    rw [List.length_drop]
    omega

/-- The tokens of the text that starts at `position`, read without a window. -/
def scanFully (isKnown : String → Bool) (position : Nat) : List Char → Scan
  | [] => {}
  | first :: rest =>
    if isWhiteSpace first then
      scanFully isKnown (position + 1) rest
    else
      match TokenKind.ofSymbol? first with
      | some kind =>
        (scanFully isKnown (position + 1) rest).cons ⟨kind, String.singleton first, position⟩
      | none =>
        if first.isDigit then
          let literal := first :: rest.takeWhile isNumeralChar
          if 1 < literal.count '.' then
            .stopped (.malformedNumber (String.ofList literal) position)
          else
            (scanFully isKnown (position + literal.length) (rest.dropWhile isNumeralChar)).cons
              ⟨.number, String.ofList literal, position⟩
        else if isAlphabetic first then
          let word := first :: rest.takeWhile isAlphabetic
          let after := rest.dropWhile isAlphabetic
          if after.head? = some '(' then
            (scanFully isKnown (position + word.length) after).cons
              ⟨.functionName, String.ofList word, position⟩
          else
            (splitFully isKnown position word).append
              (scanFully isKnown (position + word.length) after)
        else
          .stopped (.unexpectedCharacter first position)
  termination_by text => text.length
  decreasing_by
    all_goals
      have hnumeral := (List.dropWhile_sublist isNumeralChar (l := rest)).length_le
      have hword := (List.dropWhile_sublist isAlphabetic (l := rest)).length_le
      simp only [List.length_cons]
      omega

end Lexer

/-- The tokens of a text, the one at the end included, or the first fault in it, read without a
window. -/
def readFully (isKnown : String → Bool) (text : String) : Except LexError (List Token) :=
  let scan := Lexer.scanFully isKnown 0 text.toList
  match scan.fault with
  | some fault => .error fault
  | none => .ok (scan.tokens ++ [Token.atEnd text.length])

namespace Lexer

variable {names : KnownNames} {position : Nat}

/-! ## The two readings agree -/

/-- The first known prefix is the longest known name. -/
theorem longestName_of_longestPrefix? (hbounded : names.Bounded) {word name : List Char}
    (h : longestPrefix? names.isKnown word = some name) : LongestName names word name := by
  obtain ⟨hne, hbegins⟩ := mem_of_longestPrefix?_eq_some h
  obtain ⟨hknown, before, after, hsplit, hbefore⟩ := List.find?_eq_some_iff_append.1 h
  refine ⟨hne, hbegins, hknown, ?_, fun other hother hknown' _ => ?_⟩
  · simpa using hbounded _ hknown
  · by_cases hnil : other = []
    · rw [hnil]
      exact Nat.zero_le _
    -- What stands before the name is unknown, and what stands after it is shorter.
    have hmem := mem_prefixes_iff.2 ⟨hnil, hother⟩
    have hpairwise := pairwise_prefixes word
    rw [hsplit] at hmem hpairwise
    rcases List.mem_append.1 hmem with hmem | hmem
    · have hunknown := hbefore other hmem
      rw [hknown'] at hunknown
      cases hunknown
    · rcases List.mem_cons.1 hmem with rfl | hmem
      · exact Nat.le_refl _
      · exact (List.rel_of_pairwise_cons (List.pairwise_append.1 hpairwise).2.1 hmem).le

theorem not_longestName_of_longestPrefix?_eq_none {word : List Char}
    (h : longestPrefix? names.isKnown word = none) (name : List Char) :
    ¬ LongestName names word name := by
  intro hname
  have hunknown := List.find?_eq_none.1 h name (mem_prefixes_iff.2 ⟨hname.nonempty, hname.begins⟩)
  exact hunknown hname.known

theorem splitWord_eq_splitFully (hbounded : names.Bounded) (position : Nat) (word : List Char) :
    splitWord names position word = splitFully names.isKnown position word := by
  fun_induction splitFully names.isKnown position word with
  | case1 => rw [splitWord]
  | case2 position word _ name hfound ih =>
      have hname := longestName_of_longestPrefix? hbounded hfound
      obtain ⟨rest, rfl⟩ := hname.begins
      rw [List.drop_left] at ih ⊢
      rw [splitWord_append hname, ih]
  | case3 position word hne hnone =>
      exact splitWord_of_forall_not hne (not_longestName_of_longestPrefix?_eq_none hnone)

theorem scan_eq_scanFully (hbounded : names.Bounded) (position : Nat) (text : List Char) :
    scan names position text = scanFully names.isKnown position text := by
  fun_induction scan names position text with
  | case1 => rw [scanFully]
  | case2 position first rest hwhite ih => rw [scanFully, if_pos hwhite, ih]
  | case3 position first rest hwhite kind hkind ih =>
      rw [scanFully, if_neg hwhite, hkind, ih]
  | case4 position first rest hwhite hsymbol hdigit literal hpoints =>
      rw [scanFully, if_neg hwhite, hsymbol]
      simp only [if_pos hdigit]
      rw [if_pos hpoints]
  | case5 position first rest hwhite hsymbol hdigit literal hpoints ih =>
      rw [scanFully, if_neg hwhite, hsymbol]
      simp only [if_pos hdigit]
      rw [if_neg hpoints, ih]
  | case6 position first rest hwhite hsymbol hdigit halphabetic word after hcall ih =>
      rw [scanFully, if_neg hwhite, hsymbol]
      simp only [if_neg hdigit, if_pos halphabetic]
      rw [if_pos hcall, ih]
  | case7 position first rest hwhite hsymbol hdigit halphabetic word after hcall ih =>
      rw [scanFully, if_neg hwhite, hsymbol]
      simp only [if_neg hdigit, if_pos halphabetic]
      rw [if_neg hcall, ih, splitWord_eq_splitFully hbounded]
  | case8 position first rest hwhite hsymbol hdigit halphabetic =>
      rw [scanFully, if_neg hwhite, hsymbol]
      simp only [if_neg hdigit, if_neg halphabetic]

/-! ## Windows in 64-bit words -/

/-- Names are looked for within the text. -/
theorem lt_length_of_mem_windowStarts {text : List Char} {start : Nat}
    (h : start ∈ (scan names 0 text).windowStarts) : start < text.length := by
  rw [Scan.windowStarts, List.mem_append] at h
  cases hfault : (scan names 0 text).fault with
  | none =>
      rw [hfault] at h
      obtain ⟨token, htoken, rfl⟩ := List.mem_map.1 (h.resolve_right List.not_mem_nil)
      have hbounds := (pieces_scan hfault).bounds token (List.mem_filter.1 htoken).1
      omega
  | some error =>
      obtain ⟨front, rest, rfl, hposition, hpieces, hrest⟩ := exists_pieces_of_fault hfault
      have hpos := List.length_pos_iff.2 hrest.ne_nil
      rw [List.length_append]
      rcases h with h | h
      · obtain ⟨token, htoken, rfl⟩ := List.mem_map.1 h
        have hbounds := hpieces.bounds token (List.mem_filter.1 htoken).1
        omega
      · rw [hfault] at h
        cases error with
        | unrecognizedIdentifier name position =>
            obtain rfl : start = position := List.mem_singleton.1 h
            have hstart : start = 0 + front.length := hposition
            omega
        | malformedNumber | unexpectedCharacter => cases h

end Lexer

theorem tokenizeInWords?_eq_some_iff {names : KnownNames} {text : String}
    {read : Except LexError TokenSequence} :
    tokenizeInWords? names text = some read ↔
      (Lexer.scan names 0 text.toList).windowStarts.all (· + names.longest < wordBound) ∧
        read = tokenize names text := by
  rw [tokenizeInWords?, Option.ite_none_right_eq_some, Option.some.injEq, eq_comm (a := read)]

/-- In 64-bit words a text is read as it is in numbers, if the end of every window is a word. -/
theorem tokenizeInWords?_of_inWords {names : KnownNames} {text : String} (h : names.InWords text) :
    tokenizeInWords? names text = some (tokenize names text) := by
  rw [tokenizeInWords?, if_pos]
  refine List.all_eq_true.2 fun start hstart => decide_eq_true (h start ?_)
  rw [← String.length_toList]
  exact Lexer.lt_length_of_mem_windowStarts hstart

/-- Without a window, what is read of a text is the same. -/
theorem map_toList_tokenize {names : KnownNames} (hbounded : names.Bounded) (text : String) :
    (tokenize names text).map TokenSequence.toList = readFully names.isKnown text := by
  have hscan := Lexer.scan_eq_scanFully hbounded 0 text.toList
  cases hread : tokenize names text with
  | error error =>
      simp only [readFully, ← hscan, tokenize_eq_error_iff.1 hread]
      rfl
  | ok tokens =>
      simp only [readFully, ← hscan, scan_of_tokenize hread]
      rw [← (tokenize_eq_ok_iff.1 hread).2]
      rfl

/-! ## The names of an environment -/

namespace KnownNames

theorem Bounded.adding {names : KnownNames} (h : names.Bounded) (name : String) :
    (names.adding name).Bounded := by
  intro other hother
  rw [KnownNames.adding, Bool.or_eq_true, decide_eq_true_eq] at hother
  rcases hother with rfl | hother
  · exact Nat.le_max_left _ _
  · exact Nat.le_trans (h other hother) (Nat.le_max_right _ _)

theorem InWords.adding {names : KnownNames} {text name : String} (h : names.InWords text)
    (htext : Addressable text) (hname : Addressable name) : (names.adding name).InWords text := by
  intro position hposition
  have hlongest := h position hposition
  unfold Addressable at htext hname
  show position + max name.length names.longest < wordBound
  omega

end KnownNames

namespace Environment

variable {environment : Environment}

theorem longestName_le_iff {bound : Nat} :
    environment.longestName ≤ bound ↔
      ∀ name, environment.isKnown name → name.length ≤ bound := by
  constructor
  · exact fun hle name hknown => Nat.le_trans (length_le_longestName hknown) hle
  · intro hall
    rw [longestName]
    cases hmax : (environment.names.map String.length).max? with
    | none => exact Nat.zero_le _
    | some longest =>
        obtain ⟨name, hname, rfl⟩ := List.mem_map.1 (List.max?_mem hmax)
        rw [names, NameMap.mem_names_iff] at hname
        exact hall name hname

theorem bounded_knownNames (environment : Environment) : environment.knownNames.Bounded :=
  fun _ hknown => length_le_longestName hknown

/-- Where names and texts are in memory, the ends of windows are words. -/
theorem inWords_knownNames {text : String}
    (hnames : ∀ name, environment.isKnown name → Addressable name) (htext : Addressable text) :
    environment.knownNames.InWords text := by
  have hlongest : environment.longestName ≤ wordBound / 2 - 1 :=
    longestName_le_iff.2 fun name hknown => Nat.le_sub_one_of_lt (hnames name hknown)
  intro position hposition
  unfold Addressable at htext
  show position + environment.longestName < wordBound
  rw [wordBound] at *
  omega

/-- Declaring a name adds it to the names that the lexer is told of. -/
theorem knownNames_of_declare {declared : Environment} {name : String}
    (hconstant : isConstant name → environment.isKnown name)
    (h : environment.declare name = .ok declared) :
    declared.knownNames = environment.knownNames.adding name := by
  have hknown (other : String) :
      declared.isKnown other = (other = name || environment.isKnown other) := by
    rw [declare] at h
    split at h
    · rw [← Except.ok.inj h]
      split
      · next hname =>
        by_cases hother : other = name
        · rw [hother, hconstant hname, Bool.or_true]
        · rw [decide_eq_false hother, Bool.false_or]
      · exact isKnown_set environment name other none
    · cases h
  have hlongest : declared.longestName = max name.length environment.longestName := by
    refine Nat.le_antisymm (longestName_le_iff.2 fun other hother => ?_) (Nat.max_le.2 ⟨?_, ?_⟩)
    · rw [hknown, Bool.or_eq_true, decide_eq_true_eq] at hother
      rcases hother with rfl | hother
      · exact Nat.le_max_left _ _
      · exact Nat.le_trans (length_le_longestName hother) (Nat.le_max_right _ _)
    · exact length_le_longestName (by rw [hknown, decide_eq_true rfl, Bool.true_or])
    · exact longestName_le_iff.2 fun other hother =>
        length_le_longestName (by rw [hknown, hother, Bool.or_true])
  show KnownNames.mk declared.isKnown declared.longestName = KnownNames.mk _ _
  rw [hlongest, funext hknown]
  rfl

end Environment

/-! ## Reading with and without the window -/

/-- If no known name is longer than the bound, what is read with the window is what is read without
it, and so it is in 64-bit words, if the ends of windows are words.  The names of an environment are
so, and with a placeholder beside them they are so still; reading a text with the placeholder is
reading it where the placeholder has been declared. -/
theorem tokenize_without_window :
    (∀ names text, names.Bounded →
      (tokenize names text).map TokenSequence.toList = readFully names.isKnown text ∧
      (names.InWords text →
        (tokenizeInWords? names text).map (·.map TokenSequence.toList)
          = some (readFully names.isKnown text))) ∧
    (∀ environment : Environment, environment.knownNames.Bounded ∧
      ∀ text, (∀ name, environment.isKnown name → Addressable name) → Addressable text →
        environment.knownNames.InWords text) ∧
    (∀ (names : KnownNames) (placeholder : String),
      (names.Bounded → (names.adding placeholder).Bounded) ∧
      ∀ text, names.InWords text → Addressable text → Addressable placeholder →
        (names.adding placeholder).InWords text) ∧
    ∀ (environment : Environment) (placeholder : String), environment.Reachable →
      isIdentifier placeholder → ∃ declared, environment.declare placeholder = .ok declared ∧
        ∀ body, tokenize (environment.knownNames.adding placeholder) body
            = tokenize declared.knownNames body ∧
          tokenizeInWords? (environment.knownNames.adding placeholder) body
            = tokenizeInWords? declared.knownNames body := by
  refine ⟨fun names text hbounded => ?_, fun environment => ?_, fun names placeholder => ?_,
    fun environment placeholder hreachable hidentifier => ?_⟩
  · have hread := map_toList_tokenize hbounded text
    refine ⟨hread, fun hwords => ?_⟩
    rw [tokenizeInWords?_of_inWords hwords, Option.map_some, hread]
  · exact ⟨environment.bounded_knownNames, fun _ => Environment.inWords_knownNames⟩
  · exact ⟨fun hbounded => hbounded.adding placeholder, fun _ => KnownNames.InWords.adding⟩
  · have hdeclared : environment.declare placeholder
        = .ok (if Environment.isConstant placeholder then environment
            else environment.set placeholder none) := by
      rw [Environment.declare, if_pos hidentifier]
    have hnames := Environment.knownNames_of_declare
      (fun hconstant => hreachable.isKnown_of_isConstant hconstant) hdeclared
    exact ⟨_, hdeclared, fun body => by rw [hnames]; exact ⟨rfl, rfl⟩⟩

/-- The longest name fills the window, and is longer in bytes.  The placeholder is a constant. -/
theorem tokenize_without_window_of_two_letters :
    (tokenizeInWords? (.ofList ["é", "éa"] 2) "éaé").map (·.map TokenSequence.toList)
      = some (.ok [⟨.variableName, "éa", 0⟩, ⟨.variableName, "é", 2⟩, ⟨.endOfInput, "", 3⟩]) ∧
    Environment.initial.knownNames.InWords "pie" ∧
    (Environment.initial.knownNames.adding "pi").Bounded ∧
    ∃ declared, Environment.initial.declare "pi" = .ok declared ∧
      tokenize (Environment.initial.knownNames.adding "pi") "pie"
        = tokenize declared.knownNames "pie" := by
  obtain ⟨hread, henvironment, hadding, hdeclare⟩ := tokenize_without_window
  have hbounded : (KnownNames.ofList ["é", "éa"] 2).Bounded := by
    intro name hknown
    have hlengths : ∀ member ∈ ["é", "éa"], member.length ≤ 2 := by decide
    exact hlengths name (List.contains_iff_mem.1 hknown)
  have hwords : (KnownNames.ofList ["é", "éa"] 2).InWords "éaé" := by
    unfold KnownNames.InWords
    decide
  have hnames : ∀ name, Environment.initial.isKnown name → Addressable name := by
    have haddressable : ∀ name ∈ ["e", "pi"], Addressable name := by
      unfold Addressable
      decide
    exact fun name hknown => haddressable name (Environment.isKnown_initial_iff.1 hknown)
  have hfully : readFully (KnownNames.ofList ["é", "éa"] 2).isKnown "éaé"
      = .ok [⟨.variableName, "éa", 0⟩, ⟨.variableName, "é", 2⟩, ⟨.endOfInput, "", 3⟩] := by
    decide +kernel
  refine ⟨?_, ?_, ?_, ?_⟩
  · rw [(hread _ _ hbounded).2 hwords, hfully]
  · exact (henvironment .initial).2 "pie" hnames (by unfold Addressable; decide)
  · exact (hadding _ "pi").1 (henvironment .initial).1
  · obtain ⟨declared, hdeclared, hsame⟩ := hdeclare .initial "pi" .initial (by decide +kernel)
    exact ⟨declared, hdeclared, (hsame "pie").1⟩

end Reckoner
