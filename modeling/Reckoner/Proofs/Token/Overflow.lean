/-
  Reckoner.Proofs.Token.Overflow

  A machine can read any text, but for windows that end beyond its words (`read_ends`).

  A reading keeps to its buffer because what it passes at one time are the characters that belong
  together: the buffer is what has been passed, what is being passed and the rest, and every slice
  is one of the parts.  This does not depend on what is known, so it holds of suppliers that answer
  as they like.  Where the answers are those of known names, the tokens and the faults are those of
  the scan, and the reading breaks down just where `tokenizeInWords?` has no result.
-/
import Mathlib.Data.String.Basic
import Reckoner.Proofs.Decimal.RoundTrip
import Reckoner.Proofs.Token.Runs
import Reckoner.Proofs.Token.Concatenation
import Reckoner.Proofs.Token.Lexed

namespace Reckoner

open Unicode Lexer

/-! ## Literals with more than one point -/

namespace Numeral

/-- Among digits and points the first that is no digit is a point. -/
theorem exists_dropWhile_isDigit {chars : List Char} (hchars : ∀ c ∈ chars, isNumeralChar c)
    (hpoint : '.' ∈ chars) : ∃ more, chars.dropWhile Char.isDigit = '.' :: more ∧
      (∀ c ∈ more, isNumeralChar c) ∧ chars.count '.' = more.count '.' + 1 := by
  induction chars with
  | nil => cases hpoint
  | cons c rest ih =>
      rw [List.forall_mem_cons] at hchars
      by_cases hdigit : c.isDigit
      · have hne : c ≠ '.' := by
          rintro rfl
          exact absurd hdigit (by decide)
        rw [List.dropWhile_cons_of_pos hdigit, List.count_cons_of_ne hne]
        exact ih hchars.2 ((List.mem_cons.1 hpoint).resolve_left hne.symm)
      · obtain rfl : c = '.' := by simpa [isNumeralChar, hdigit] using hchars.1
        rw [List.dropWhile_cons_of_neg hdigit, List.count_cons_self]
        exact ⟨rest, rfl, hchars.2, rfl⟩

/-- Digits with more than one point among them are no numeral. -/
theorem read_of_points {first : Char} {rest : List Char} (hfirst : first.isDigit)
    (hrest : ∀ c ∈ rest, isNumeralChar c) (hpoints : 1 < (first :: rest).count '.') :
    read (String.ofList (first :: rest)) = .error .invalid := by
  have hnumeral : ∀ c ∈ first :: rest, isNumeralChar c :=
    List.forall_mem_cons.2 ⟨isNumeralChar_of_isDigit hfirst, hrest⟩
  obtain ⟨more, hmore, hmoreNumeral, hcount⟩ :=
    exists_dropWhile_isDigit hnumeral (List.count_pos_iff.1 (by omega))
  obtain ⟨last, hlast, -, -⟩ :=
    exists_dropWhile_isDigit hmoreNumeral (List.count_pos_iff.1 (by omega))
  have hdecimal : readDecimal (first :: rest) = none := by
    rw [readDecimal, hmore]
    simp only [hlast]
    simp [List.takeWhile_cons_of_pos hfirst]
  rw [read_ofList_of_isDigit hfirst, readUnsigned, readWord_eq_none hfirst, hdecimal]

end Numeral

/-! ## Names that are found in a word -/

namespace Lexer

variable {names : KnownNames} {position : Nat} {word : List Char}

/-- A name is looked for at the start of a word. -/
theorem mem_windowStarts_splitWord (hne : word ≠ []) :
    position ∈ (splitWord names position word).windowStarts := by
  obtain ⟨first, rest, rfl⟩ := List.exists_cons_of_ne_nil hne
  rw [splitWord, Scan.windowStarts]
  split <;> simp [Scan.cons, Scan.stopped]

theorem splitWord_of_knownExtent?_eq_none (hne : word ≠ [])
    (h : knownExtent? names (word.take names.longest) (word.take names.longest).length = none) :
    splitWord names position word
      = .stopped (.unrecognizedIdentifier (String.ofList word) position) := by
  obtain ⟨first, rest, rfl⟩ := List.exists_cons_of_ne_nil hne
  rw [splitWord]
  simp only [h]

theorem splitWord_of_knownExtent?_eq_some {extent : Nat}
    (h : knownExtent? names (word.take names.longest) (word.take names.longest).length
      = some extent) :
    splitWord names position word
      = (splitWord names (position + (word.take (extent + 1)).length) (word.drop (extent + 1))).cons
          ⟨.variableName, String.ofList (word.take (extent + 1)), position⟩ := by
  have hname : LongestName names (word.take (extent + 1) ++ word.drop (extent + 1))
      (word.take (extent + 1)) := by
    rw [List.take_append_drop]
    exact (knownExtent?_take_eq_some_iff.1 h).2
  conv_lhs => rw [← List.take_append_drop (extent + 1) word]
  exact splitWord_append hname

end Lexer

namespace Buffer

open Source

variable {σ α : Type}

/-! ## Operations that do not break down -/

theorem add_of_lt {arithmetic : Arithmetic} {first second : Nat} (h : first + second < wordBound) :
    add arithmetic first second = pure (first + second) :=
  if_pos h

theorem add_checked_of_le {first second : Nat} (h : wordBound ≤ first + second) :
    add .checked first second = throw (.breakdown (.sum first second)) :=
  if_neg (Nat.not_lt.2 h)

theorem add_wrapping_of_le {first second : Nat} (h : wordBound ≤ first + second)
    (hfirst : first < wordBound) (hsecond : second < wordBound) :
    add .wrapping first second = pure (first + second - wordBound) := by
  have hmod : (first + second) % wordBound = first + second - wordBound := by
    rw [Nat.mod_eq_sub_mod h, Nat.mod_eq_of_lt (by omega)]
  rw [← hmod]
  exact if_neg (Nat.not_lt.2 h)

/-- A part of the buffer is a slice of it. -/
theorem slice_append (before chunk after : List Char) :
    slice (before ++ (chunk ++ after)) before.length (before.length + chunk.length)
      = pure chunk := by
  rw [slice, if_pos, extract_append]
  simp only [List.length_append]
  omega

theorem length_le_utf8Len (chars : List Char) : chars.length ≤ String.utf8Len chars := by
  induction chars with
  | nil => exact Nat.zero_le _
  | cons c rest ih =>
      have hpos := c.utf8Size_pos
      rw [List.length_cons, String.utf8Len_cons]
      omega

/-- The bytes of some characters at the front are not cut. -/
theorem bytesFront?_append (front rest : List Char) :
    bytesFront? (String.utf8Len front) (front ++ rest) = some front := by
  induction front with
  | nil => rw [String.utf8Len_nil, bytesFront?]
  | cons c front ih =>
      have hpos := c.utf8Size_pos
      obtain ⟨bytes, hbytes⟩ : ∃ bytes, String.utf8Len (c :: front) = bytes + 1 :=
        Nat.exists_eq_add_one.2 (by rw [String.utf8Len_cons]; omega)
      have hrest : bytes + 1 - c.utf8Size = String.utf8Len front := by
        rw [← hbytes, String.utf8Len_cons]
        omega
      have hle : c.utf8Size ≤ bytes + 1 := by
        rw [← hbytes, String.utf8Len_cons]
        omega
      rw [hbytes, List.cons_append, bytesFront?, if_pos hle, hrest, ih]
      rfl

theorem charOffsets_append (offset : Nat) (front : List Char) (c : Char) :
    charOffsets offset (front ++ [c])
      = charOffsets offset front ++ [(offset + String.utf8Len front, c)] := by
  induction front generalizing offset with
  | nil => rfl
  | cons first front ih =>
      rw [List.cons_append, charOffsets, ih, charOffsets, String.utf8Len_cons, List.cons_append,
        Nat.add_assoc, Nat.add_comm first.utf8Size]

theorem increment_ofNat {arithmetic : Arithmetic} {n : Nat}
    (hn : arithmetic = .checked → n < pointBound) :
    increment arithmetic (Int32.ofNat n)
      = if arithmetic = .checked ∧ pointBound ≤ n + 1 then throw (.breakdown .count)
        else pure (Int32.ofNat (n + 1)) := by
  have hmax : arithmetic = .checked →
      (Int32.ofNat n = Int32.maxValue ↔ pointBound ≤ n + 1) := by
    intro hchecked
    have hlt : n < 2 ^ 31 := hn hchecked
    rw [← Int32.toInt_inj, Int32.toInt_ofNat_of_lt hlt, Int32.toInt_maxValue, pointBound]
    omega
  have hiff : (arithmetic = .checked ∧ Int32.ofNat n = Int32.maxValue)
      ↔ (arithmetic = .checked ∧ pointBound ≤ n + 1) :=
    and_congr_right hmax
  rw [increment, if_congr hiff rfl rfl, Int32.ofNat_add]
  rfl

/-! ## Numerals -/

variable {source : Source σ} {before rest : List Char}

theorem getElem?_chars {c : Char} (hchars : source.chars = before ++ c :: rest) :
    source.chars[before.length]? = some c := by
  rw [hchars, List.getElem?_append_right (Nat.le_refl _), Nat.sub_self]
  rfl

theorem passNumeral_eq (hchars : source.chars = before ++ rest)
    (hsize : source.chars.length < wordBound) {n : Nat}
    (hn : source.arithmetic = .checked → n < pointBound) :
    passNumeral source before.length (Int32.ofNat n)
      = if source.arithmetic = .checked ∧
            pointBound ≤ n + (rest.takeWhile isNumeralChar).count '.' then
          throw (.breakdown .count)
        else
          pure (before.length + (rest.takeWhile isNumeralChar).length,
            Int32.ofNat (n + (rest.takeWhile isNumeralChar).count '.')) := by
  induction rest generalizing before n with
  | nil =>
      have hfew : ¬ (source.arithmetic = .checked ∧ pointBound ≤ n) :=
        fun h => absurd (hn h.1) (Nat.not_lt.2 h.2)
      rw [passNumeral, hchars, List.append_nil, List.getElem?_eq_none (Nat.le_refl _)]
      exact (if_neg hfew).symm
  | cons c rest ih =>
      have hlength : before.length + 1 < wordBound := by
        rw [hchars, List.length_append, List.length_cons] at hsize
        omega
      have hmore : source.chars = (before ++ [c]) ++ rest := by
        rw [hchars, List.append_assoc]
        rfl
      have hpassed : (before ++ [c]).length = before.length + 1 := List.length_append
      rw [passNumeral, getElem?_chars hchars]
      dsimp only
      by_cases hdigit : c.isDigit
      · have hne : c ≠ '.' := by
          rintro rfl
          exact absurd hdigit (by decide)
        rw [if_pos hdigit, add_of_lt hlength, pure_bind, ← hpassed, ih hmore hn, hpassed,
          List.takeWhile_cons_of_pos (isNumeralChar_of_isDigit hdigit),
          List.count_cons_of_ne hne, List.length_cons, Nat.add_right_comm, Nat.add_assoc]
      · rw [if_neg hdigit]
        by_cases hpoint : c = '.'
        · subst hpoint
          have hcount : ('.' :: rest.takeWhile isNumeralChar).count '.'
              = (rest.takeWhile isNumeralChar).count '.' + 1 := List.count_cons_self
          rw [if_pos rfl, increment_ofNat hn, List.takeWhile_cons_of_pos (by decide), hcount]
          by_cases hmany : source.arithmetic = .checked ∧ pointBound ≤ n + 1
          · rw [if_pos hmany, if_pos ⟨hmany.1, by omega⟩]
            rfl
          · have hfew (hchecked : source.arithmetic = .checked) : n + 1 < pointBound :=
              Nat.lt_of_not_le fun hle => hmany ⟨hchecked, hle⟩
            rw [if_neg hmany, pure_bind, add_of_lt hlength, pure_bind, ← hpassed,
              ih hmore hfew, hpassed, List.length_cons, Nat.add_right_comm n 1, Nat.add_assoc n,
              Nat.add_right_comm _ 1, Nat.add_assoc _ _ 1]
        · rw [if_neg hpoint, List.takeWhile_cons_of_neg (by simp [isNumeralChar, hdigit, hpoint]),
            if_neg fun h => absurd (hn h.1) (Nat.not_lt.2 h.2)]
          rfl

/-- A literal is read, or is one with too many points. -/
theorem readLiteral_eq {first : Char} (hfirst : first.isDigit)
    (hchars : source.chars = before ++ first :: rest) (hsize : source.chars.length < wordBound)
    {literal : List Char} (hliteral : literal = first :: rest.takeWhile isNumeralChar)
    (tokens : List Token) (state : σ) :
    readLiteral source ⟨before.length, tokens, state⟩
      = if source.arithmetic = .checked ∧ pointBound ≤ literal.count '.' then
          throw (.breakdown .count)
        else if 1 < literal.count '.' then
          throw (.fault (.malformedNumber (String.ofList literal) before.length))
        else
          pure ⟨before.length + literal.length,
            tokens ++ [⟨.number, String.ofList literal, before.length⟩], state⟩ := by
  have htake : (first :: rest).takeWhile isNumeralChar = literal := by
    rw [hliteral, List.takeWhile_cons_of_pos (isNumeralChar_of_isDigit hfirst)]
  have hrest : ∀ c ∈ rest.takeWhile isNumeralChar, isNumeralChar c :=
    fun c hc => List.mem_takeWhile_imp hc
  have hpass := passNumeral_eq hchars hsize (n := 0) fun _ => by decide
  have hslice : slice source.chars before.length (before.length + literal.length)
      = pure literal := by
    rw [hchars, ← List.takeWhile_append_dropWhile (p := isNumeralChar) (l := first :: rest), htake,
      slice_append]
  rw [htake, Nat.zero_add] at hpass
  change passNumeral source before.length 0 = _ at hpass
  rw [readLiteral]
  dsimp only
  rw [hpass]
  by_cases hmany : source.arithmetic = .checked ∧ pointBound ≤ literal.count '.'
  · rw [if_pos hmany, if_pos hmany]
    rfl
  · rw [if_neg hmany, if_neg hmany, pure_bind, hslice, pure_bind]
    by_cases hpoints : 1 < literal.count '.'
    · have hread : ¬ (Numeral.read (String.ofList literal)).isOk := by
        rw [hliteral, Numeral.read_of_points hfirst hrest (hliteral ▸ hpoints)]
        exact Bool.false_ne_true
      rw [if_pos hpoints, if_pos (.inr hread)]
    · obtain ⟨value, hvalue⟩ :=
        Numeral.exists_read_literal hfirst hrest (hliteral ▸ Nat.not_lt.1 hpoints)
      have hfew : ¬ (1 : Int32) < Int32.ofNat (literal.count '.') := by
        obtain hcount | hcount : literal.count '.' = 0 ∨ literal.count '.' = 1 := by omega
        all_goals
          rw [hcount]
          decide
      rw [if_neg hpoints, if_neg]
      rintro (hlt | hread)
      · exact hfew hlt
      · rw [hliteral, hvalue] at hread
        exact hread rfl

/-! ## Words -/

/-- Whatever the answers are, what is found in a window is one of its prefixes. Of known names it is
the longest. -/
theorem exists_findName {window : List Char} (hsize : String.utf8Len window < wordBound) (state : σ)
    {bound : Nat} (hbound : bound ≤ window.length) :
    ∃ extent? state', findName source window (charOffsets 0 (window.take bound)).reverse state
        = pure (extent?.map fun extent => window.take (extent + 1), state') ∧
      (∀ extent ∈ extent?, extent < bound) ∧
      ∀ names, source.supplier.Knows names → knownExtent? names window bound = extent? := by
  induction bound generalizing state with
  | zero => exact ⟨none, state, rfl, fun _ h => (nomatch h), fun _ _ => rfl⟩
  | succ bound ih =>
      have htake : window.take (bound + 1) = window.take bound ++ [window[bound]] :=
        List.take_succ_eq_append_getElem hbound
      have hle : String.utf8Len (window.take (bound + 1)) ≤ String.utf8Len window :=
        String.utf8Len_le_of_prefix (List.take_prefix _ _)
      have hstop : add source.arithmetic (String.utf8Len (window.take bound))
          window[bound].utf8Size = pure (String.utf8Len (window.take (bound + 1))) := by
        rw [htake, String.utf8Len_append, String.utf8Len_cons, String.utf8Len_nil, Nat.zero_add]
          at hle ⊢
        exact add_of_lt (Nat.lt_of_le_of_lt hle hsize)
      have hname : sliceBytes window (String.utf8Len (window.take (bound + 1)))
          = pure (window.take (bound + 1)) := by
        have hfront := bytesFront?_append (window.take (bound + 1)) (window.drop (bound + 1))
        rw [List.take_append_drop] at hfront
        rw [sliceBytes, hfront]
      have hoffsets : (charOffsets 0 (window.take (bound + 1))).reverse
          = (String.utf8Len (window.take bound), window[bound])
              :: (charOffsets 0 (window.take bound)).reverse := by
        rw [htake, charOffsets_append, List.reverse_append, Nat.zero_add]
        rfl
      rw [hoffsets, findName, hstop, pure_bind, hname, pure_bind]
      -- The answer is that of the names, if the supplier knows them.
      have hanswer {names : KnownNames} (hnames : source.supplier.Knows names) :=
        hnames.isKnown state (String.ofList (window.take (bound + 1)))
      rcases hcall : source.supplier.isKnown state (String.ofList (window.take (bound + 1)))
        with ⟨answer, after⟩
      rw [hcall] at hanswer
      cases answer with
      | true =>
          refine ⟨some bound, after, rfl, fun extent hextent => ?_, fun names hnames => ?_⟩
          · obtain rfl : bound = extent := Option.some.inj hextent
            exact Nat.lt_succ_self _
          · rw [knownExtent?, if_pos (hanswer hnames).symm]
      | false =>
          obtain ⟨extent?, state', hfind, hlt, hextent⟩ := ih after (Nat.le_of_succ_le hbound)
          refine ⟨extent?, state', hfind, fun extent h => Nat.lt_succ_of_lt (hlt extent h),
            fun names hnames => ?_⟩
          rw [knownExtent?, if_neg (by rw [← hanswer hnames]; exact Bool.false_ne_true)]
          exact hextent names hnames

/-- The window of a word, if it ends at a word of the machine. -/
theorem slice_window {word after : List Char} (hchars : source.chars = before ++ (word ++ after))
    (longest : Nat) :
    slice source.chars before.length (min (before.length + word.length) (before.length + longest))
      = pure (word.take longest) := by
  have hstop : min (before.length + word.length) (before.length + longest)
      = before.length + (word.take longest).length := by
    rw [List.length_take]
    omega
  rw [hstop, hchars]
  conv_lhs => rw [← List.take_append_drop longest word, List.append_assoc]
  rw [List.take_append_drop]
  exact slice_append _ _ _

/-- A window that ends at no word of the machine. -/
theorem reads_window_of_le {word after : List Char} {expected : KnownNames → Scan}
    {result : α → List Token → Prop} {tokens : List Token}
    (hchars : source.chars = before ++ (word ++ after)) (hsize : source.chars.length < wordBound)
    (hne : word ≠ [])
    (hbound : wordBound ≤ before.length + source.supplier.longest.toNat)
    (hexpected : ∀ names, before.length ∈ (expected names).windowStarts)
    (next : List Char → Run α) :
    Reads source expected tokens result (do
      let bound ← add source.arithmetic before.length source.supplier.longest.toNat
      let window ← slice source.chars before.length (min (before.length + word.length) bound)
      next window) := by
  have hposition : before.length < source.chars.length := by
    have hpos := List.length_pos_iff.2 hne
    rw [hchars, List.length_append, List.length_append]
    omega
  have hfits (names : KnownNames) (hfits : (expected names).Fits source.supplier.longest.toNat) :
      False :=
    Nat.not_lt.2 hbound (hfits _ (hexpected names))
  have hlongest : source.supplier.longest.toNat < wordBound := source.supplier.longest.toNat_lt
  cases harithmetic : source.arithmetic with
  | checked =>
      rw [add_checked_of_le hbound]
      exact ends_throw ⟨.sum harithmetic hposition hbound, fun _ names _ => hfits names⟩
  | wrapping =>
      have hstop : min (before.length + word.length)
          (before.length + source.supplier.longest.toNat - wordBound)
            = before.length + source.supplier.longest.toNat - wordBound := by
        rw [hchars, List.length_append, List.length_append] at hsize
        omega
      -- The end of the window has begun anew, so it comes before the start of it.
      rw [add_wrapping_of_le hbound (Nat.lt_trans hposition hsize) hlongest, pure_bind, hstop,
        slice, if_neg fun h => absurd h.1 (by omega)]
      exact ends_throw ⟨.slice harithmetic hposition hbound, fun _ names _ => hfits names⟩

/-- What is found at the start of a word: no name, or one that is not empty.  Of known names it is
the one after which the word is split. -/
theorem findName_window {word : List Char} (hne : word ≠ []) {window : List Char}
    (hwindow : window = word.take source.supplier.longest.toNat)
    (hsize : String.utf8Len word < wordBound) (state : σ) (position : Nat) :
    (∃ state', findName source window (charOffsets 0 window).reverse state = pure (none, state') ∧
      ∀ names, source.supplier.Knows names → splitWord names position word
        = .stopped (.unrecognizedIdentifier (String.ofList word) position)) ∨
    ∃ name rest state', word = name ++ rest ∧ name ≠ [] ∧
      findName source window (charOffsets 0 window).reverse state = pure (some name, state') ∧
      ∀ names, source.supplier.Knows names → splitWord names position word
        = (splitWord names (position + name.length) rest).cons
            ⟨.variableName, String.ofList name, position⟩ := by
  have hprefix : window <+: word := hwindow ▸ List.take_prefix _ _
  have hbytes := Nat.lt_of_le_of_lt (String.utf8Len_le_of_prefix hprefix) hsize
  obtain ⟨extent?, after, hfind, hlt, hknown⟩ :=
    exists_findName hbytes state (Nat.le_refl window.length)
  rw [List.take_length] at hfind
  have hextent {names : KnownNames} (hnames : source.supplier.Knows names) :
      knownExtent? names (word.take names.longest) (word.take names.longest).length = extent? := by
    rw [← hnames.longest, ← hwindow]
    exact hknown names hnames
  cases extent? with
  | none =>
      exact .inl ⟨after, hfind, fun names hnames =>
        splitWord_of_knownExtent?_eq_none hne (hextent hnames)⟩
  | some extent =>
      have hlt : extent < window.length := hlt extent rfl
      have hname : window.take (extent + 1) = word.take (extent + 1) := by
        rw [hwindow, List.length_take] at hlt
        rw [hwindow, List.take_take, Nat.min_eq_left (by omega)]
      rw [Option.map_some, hname] at hfind
      refine .inr ⟨_, _, after, (List.take_append_drop (extent + 1) word).symm, ?_, hfind,
        fun names hnames => splitWord_of_knownExtent?_eq_some (hextent hnames)⟩
      rw [Ne, List.take_eq_nil_iff]
      exact fun h => h.elim (Nat.succ_ne_zero _) hne

/-- The names in a word are read as the word is split. -/
theorem reads_readNames {word after : List Char} (hchars : source.chars = before ++ (word ++ after))
    (hsize : String.utf8Len source.chars < wordBound) (tokens : List Token) (state : σ) :
    Reads source (fun names => splitWord names before.length word) tokens
      (At (before.length + word.length))
      (readNames source (before.length + word.length) false ⟨before.length, tokens, state⟩) := by
  -- By induction on what is left of the word: a name that is found is not empty.
  induction hlength : word.length using Nat.strong_induction_on
    generalizing before word tokens state with
  | _ length ih =>
  subst hlength
  have hinfix : word <:+: source.chars := ⟨before, after, by rw [hchars, List.append_assoc]⟩
  have hword := Nat.lt_of_le_of_lt (String.utf8Len_le_of_infix hinfix) hsize
  have hchars_lt := Nat.lt_of_le_of_lt (length_le_utf8Len source.chars) hsize
  rw [readNames]
  dsimp only
  by_cases hne : word = []
  · subst hne
    rw [List.length_nil, Nat.add_zero, if_neg (Nat.lt_irrefl _)]
    simp only [splitWord]
    exact reads_nothing state
  · have hpos := List.length_pos_iff.2 hne
    rw [if_pos (Nat.lt_add_of_pos_right hpos), if_neg Bool.false_ne_true]
    by_cases hbound : before.length + source.supplier.longest.toNat < wordBound
    · rw [add_of_lt hbound, pure_bind, slice_window hchars, pure_bind]
      rcases findName_window hne rfl hword state before.length with
        ⟨state', hfind, hsplit⟩ | ⟨name, rest, state', rfl, hname, hfind, hsplit⟩
      · rw [hfind, pure_bind]
        dsimp only
        rw [hchars, slice_append, pure_bind]
        refine reads_fault hsplit fun _ _ heq => ?_
        cases heq
        exact hbound
      · have hmore : source.chars = (before ++ name) ++ (rest ++ after) := by
          rw [hchars, List.append_assoc, List.append_assoc]
        have hlt : rest.length < (name ++ rest).length := by
          rw [List.length_append]
          exact Nat.lt_add_of_pos_left (List.length_pos_iff.2 hname)
        have hpassed : (before ++ name).length = before.length + name.length := List.length_append
        have hstop :
            (before ++ name).length + rest.length = before.length + (name ++ rest).length := by
          rw [hpassed, List.length_append, Nat.add_assoc]
        have hadd : before.length + name.length < wordBound := by
          rw [hmore, List.length_append, hpassed] at hchars_lt
          omega
        have hrest := ih _ hlt hmore
          (tokens ++ [⟨.variableName, String.ofList name, before.length⟩]) state' rfl
        rw [hstop, hpassed] at hrest
        rw [hfind, pure_bind]
        dsimp only
        rw [add_of_lt hadd, pure_bind]
        exact (hrest.cons fun _ => hbound).congr fun names hnames => (hsplit names hnames).symm
    · exact reads_window_of_le hchars hchars_lt hne (Nat.not_lt.1 hbound)
        (fun names => mem_windowStarts_splitWord hne) _

/-- A word before a parenthesis is the name of a function. -/
theorem readNames_called {word after : List Char}
    (hchars : source.chars = before ++ (word ++ after)) (hne : word ≠ []) (tokens : List Token)
    (state : σ) :
    readNames source (before.length + word.length) true ⟨before.length, tokens, state⟩
      = pure ⟨before.length + word.length,
          tokens ++ [⟨.functionName, String.ofList word, before.length⟩], state⟩ := by
  rw [readNames]
  dsimp only
  rw [if_pos (Nat.lt_add_of_pos_right (List.length_pos_iff.2 hne)), if_pos rfl, hchars,
    slice_append, pure_bind]

/-- A word ends where no alphabetic character is ahead. -/
theorem findStop_eq (hchars : source.chars = before ++ rest)
    (hsize : source.chars.length < wordBound) :
    findStop source before.length
      = pure (before.length + (rest.takeWhile isAlphabetic).length) := by
  have hslice : slice source.chars before.length source.chars.length = pure rest := by
    have hrest := slice_append before rest []
    rwa [List.append_nil, ← List.length_append, ← hchars] at hrest
  have hlength : (rest.takeWhile isAlphabetic).length
      = (rest.findIdx? (! isAlphabetic ·)).getD rest.length := by
    rw [List.takeWhile_eq_take_findIdx_not, List.length_take,
      Nat.min_eq_left List.findIdx_le_length, List.findIdx_eq_getD_findIdx?]
  have hle : (rest.takeWhile isAlphabetic).length ≤ rest.length :=
    (List.takeWhile_sublist _).length_le
  rw [hchars, List.length_append] at hsize
  rw [findStop, hslice, pure_bind]
  rw [hlength] at hle ⊢
  cases hfind : rest.findIdx? (! isAlphabetic ·) with
  | none =>
      rw [hchars, List.length_append]
      rfl
  | some offset =>
      rw [hfind, Option.getD_some] at hle
      exact add_of_lt (by omega)

/-- What no token begins with is a fault. -/
theorem readWord_of_not_isAlphabetic {c : Char} (hchars : source.chars = before ++ c :: rest)
    (hsize : source.chars.length < wordBound) (halphabetic : ¬ isAlphabetic c) (tokens : List Token)
    (state : σ) :
    readWord source ⟨before.length, tokens, state⟩
      = throw (.fault (.unexpectedCharacter c before.length)) := by
  rw [readWord]
  dsimp only
  rw [findStop_eq hchars hsize, List.takeWhile_cons_of_neg halphabetic, pure_bind,
    getElem?_chars hchars]
  exact if_pos rfl

theorem readWord_of_isAlphabetic {c : Char} (hchars : source.chars = before ++ c :: rest)
    (hsize : source.chars.length < wordBound) (halphabetic : isAlphabetic c) (tokens : List Token)
    (state : σ) :
    readWord source ⟨before.length, tokens, state⟩
      = readNames source (before.length + (c :: rest.takeWhile isAlphabetic).length)
          ((rest.dropWhile isAlphabetic).head? = some '(') ⟨before.length, tokens, state⟩ := by
  have hafter := getElem?_append_length before (c :: rest.takeWhile isAlphabetic)
    (rest.dropWhile isAlphabetic)
  rw [List.cons_append, List.takeWhile_append_dropWhile, ← hchars] at hafter
  rw [readWord]
  dsimp only
  rw [findStop_eq hchars hsize, List.takeWhile_cons_of_pos halphabetic, pure_bind, hafter,
    if_neg (by rw [List.length_cons]; omega)]

/-! ## Texts -/

section Parts

variable {c : Char} {tokens : List Token} {state : σ} {result : α → List Token → Prop}
  {next : Reader σ → Run α}

/-- A literal is read, and then what comes after it. -/
theorem reads_literal (hchars : source.chars = before ++ c :: rest)
    (hsize : source.chars.length < wordBound) (hdigit : c.isDigit)
    (hnext : ∀ tokens, Reads source
      (fun names => scan names (before.length + (c :: rest.takeWhile isNumeralChar).length)
        (rest.dropWhile isNumeralChar)) tokens result
      (next ⟨before.length + (c :: rest.takeWhile isNumeralChar).length, tokens, state⟩)) :
    Reads source (fun names => scan names before.length (c :: rest)) tokens result
      (readLiteral source ⟨before.length, tokens, state⟩ >>= next) := by
  simp only [scan_digit hdigit]
  rw [readLiteral_eq hdigit hchars hsize rfl]
  have hliteral : (c :: rest.takeWhile isNumeralChar).Sublist source.chars := by
    rw [hchars]
    exact ((List.takeWhile_sublist _).cons_cons c).trans (List.sublist_append_right _ _)
  by_cases hmany : source.arithmetic = .checked
      ∧ pointBound ≤ (c :: rest.takeWhile isNumeralChar).count '.'
  · rw [if_pos hmany]
    exact reads_count hmany.1 (Nat.le_trans hmany.2 (hliteral.count_le _))
  · rw [if_neg hmany]
    split_ifs with hpoints
    · exact reads_fault (fun _ _ => rfl) nofun
    · rw [pure_bind]
      exact (hnext _).cons nofun

/-- A word is read, and then what comes after it. -/
theorem reads_word (hchars : source.chars = before ++ c :: rest)
    (hsize : String.utf8Len source.chars < wordBound) (halphabetic : isAlphabetic c)
    (hnext : ∀ tokens state, Reads source
      (fun names => scan names (before.length + (c :: rest.takeWhile isAlphabetic).length)
        (rest.dropWhile isAlphabetic)) tokens result
      (next ⟨before.length + (c :: rest.takeWhile isAlphabetic).length, tokens, state⟩)) :
    Reads source (fun names => scan names before.length (c :: rest)) tokens result
      (readWord source ⟨before.length, tokens, state⟩ >>= next) := by
  have hlength : source.chars.length < wordBound := Nat.lt_of_le_of_lt (length_le_utf8Len _) hsize
  have hword : source.chars
      = before ++ ((c :: rest.takeWhile isAlphabetic) ++ rest.dropWhile isAlphabetic) := by
    rw [hchars, List.cons_append, List.takeWhile_append_dropWhile]
  simp only [scan_alphabetic halphabetic]
  rw [readWord_of_isAlphabetic hchars hlength halphabetic]
  split_ifs with hcall
  · rw [decide_eq_true hcall, readNames_called hword (List.cons_ne_nil _ _), pure_bind]
    exact (hnext _ state).cons nofun
  · rw [decide_eq_false hcall]
    exact (reads_readNames hword hsize tokens state).bind hnext

end Parts

/-- What is read of a text: the tokens of its scan, and the end. -/
theorem reads_readOn (hchars : source.chars = before ++ rest)
    (hsize : String.utf8Len source.chars < wordBound) (tokens : List Token) (state : σ) :
    Reads source (fun names => scan names before.length rest) tokens
      (fun read after => read = after ++ [Token.atEnd source.chars.length])
      (readOn source ⟨before.length, tokens, state⟩) := by
  -- By induction on what is left of the text: no part that is read is empty.
  induction hlength : rest.length using Nat.strong_induction_on
    generalizing before rest tokens state with
  | _ length ih =>
  subst hlength
  have hchars_lt : source.chars.length < wordBound :=
    Nat.lt_of_le_of_lt (length_le_utf8Len _) hsize
  rw [readOn]
  dsimp only
  cases rest with
  | nil =>
      rw [hchars, List.append_nil, List.getElem?_eq_none (Nat.le_refl _)]
      simp only [scan]
      exact ends_pure ⟨tokens, rfl, fun _ _ =>
        ⟨rfl, List.forall_mem_nil _, (List.append_nil _).symm⟩⟩
  | cons c rest =>
      have hlater (chunk after : List Char) (hsplit : c :: rest = (c :: chunk) ++ after)
          (tokens : List Token) (state : σ) :
          Reads source (fun names => scan names (before.length + (c :: chunk).length) after) tokens
            (fun read after => read = after ++ [Token.atEnd source.chars.length])
            (readOn source ⟨before.length + (c :: chunk).length, tokens, state⟩) := by
        have hmore : source.chars = (before ++ c :: chunk) ++ after := by
          rw [hchars, hsplit, List.append_assoc]
        have hlt : after.length < (c :: rest).length := by
          rw [hsplit, List.length_append, List.length_cons]
          omega
        have hafter := ih _ hlt hmore tokens state rfl
        rwa [List.length_append] at hafter
      have hrun (p : Char → Bool) : c :: rest = (c :: rest.takeWhile p) ++ rest.dropWhile p := by
        rw [List.cons_append, List.takeWhile_append_dropWhile]
      have hnext : before.length + 1 < wordBound := by
        rw [hchars, List.length_append, List.length_cons] at hchars_lt
        omega
      rw [getElem?_chars hchars]
      dsimp only
      by_cases hwhite : isWhiteSpace c
      · rw [if_pos hwhite, add_of_lt hnext, pure_bind]
        simp only [scan_whiteSpace hwhite]
        exact hlater [] rest rfl tokens state
      · rw [if_neg hwhite]
        cases hsymbol : TokenKind.ofSymbol? c with
        | some kind =>
            dsimp only
            rw [add_of_lt hnext, pure_bind]
            simp only [scan_symbol hsymbol]
            exact (hlater [] rest rfl _ state).cons fun hkind =>
              absurd hkind (TokenKind.ne_of_ofSymbol? hsymbol).2
        | none =>
            dsimp only
            by_cases hdigit : c.isDigit
            · rw [if_pos hdigit]
              exact reads_literal hchars hchars_lt hdigit fun tokens =>
                hlater _ _ (hrun isNumeralChar) tokens state
            · rw [if_neg hdigit]
              by_cases halphabetic : isAlphabetic c
              · exact reads_word hchars hsize halphabetic (hlater _ _ (hrun isAlphabetic))
              · rw [readWord_of_not_isAlphabetic hchars hchars_lt halphabetic]
                refine reads_fault (fun names _ =>
                  scan_of_forall_not hwhite hsymbol hdigit halphabetic rest) ?_
                rintro _ _ ⟨⟩

/-! ## Whole texts -/

section Whole

variable {arithmetic : Arithmetic} {supplier : Supplier σ} {state : σ} {text : String}

theorem reads_read (hsize : text.utf8ByteSize < wordBound) :
    Reads ⟨arithmetic, text.toList, supplier⟩ (fun names => scan names 0 text.toList) []
      (fun read after => read = after ++ [Token.atEnd text.length])
      (read arithmetic supplier state text) := by
  have hbytes : String.utf8Len text.toList < wordBound := by rwa [String.utf8Len_toList]
  have hreads := @reads_readOn σ ⟨arithmetic, text.toList, supplier⟩ [] text.toList rfl hbytes []
    state
  rwa [String.length_toList] at hreads

/-- Nothing but a window or the number of points makes a reading break down. -/
theorem exists_read (hsize : text.utf8ByteSize < wordBound) :
    ∃ outcome, read arithmetic supplier state text = some outcome ∧
      ∀ cause, outcome = .error (.breakdown cause) →
        Excess ⟨arithmetic, text.toList, supplier⟩ cause := by
  obtain ⟨outcome, hread, houtcome⟩ := reads_read hsize
  refine ⟨outcome, hread, ?_⟩
  rintro cause rfl
  exact houtcome.1

theorem not_excess {source : Source σ}
    (hwindows : ∀ position < source.chars.length,
      position + source.supplier.longest.toNat < wordBound)
    (hpoints : source.arithmetic = .checked → source.chars.count '.' < pointBound)
    (cause : Breakdown) : ¬ Excess source cause := by
  rintro (⟨-, hposition, hwindow⟩ | ⟨-, hposition, hwindow⟩ | ⟨hchecked, hmany⟩)
  · exact Nat.not_lt.2 hwindow (hwindows _ hposition)
  · exact Nat.not_lt.2 hwindow (hwindows _ hposition)
  · exact Nat.not_lt.2 hmany (hpoints hchecked)

/-- Of known names the tokens and the faults are those of the scan, and a reading breaks down if
that has none in words. -/
theorem read_of_knows (hsize : text.utf8ByteSize < wordBound) {names : KnownNames}
    (hnames : supplier.Knows names)
    (hpoints : arithmetic = .checked → text.toList.count '.' < pointBound) :
    match tokenizeInWords? names text with
    | some (.ok tokens) => read arithmetic supplier state text = some (.ok tokens.toList)
    | some (.error error) => read arithmetic supplier state text = some (.error (.fault error))
    | none => ∃ cause, read arithmetic supplier state text = some (.error (.breakdown cause)) := by
  have hwords : (scan names 0 text.toList).Fits supplier.longest.toNat ↔
      (scan names 0 text.toList).windowStarts.all (· + names.longest < wordBound) := by
    rw [hnames.longest, List.all_eq_true]
    simp only [decide_eq_true_eq]
    rfl
  obtain ⟨outcome, hread, houtcome⟩ := reads_read hsize
  rw [hread]
  rcases outcome with (error | cause) | read
  · obtain ⟨hfault, hfits⟩ := houtcome names hnames
    rw [tokenizeInWords?_eq_some_iff.2 ⟨hwords.1 hfits, (tokenize_eq_error_iff.2 hfault).symm⟩]
  · have hcount : cause ≠ .count := by
      rintro rfl
      cases houtcome.1 with
      | count hchecked hmany => exact Nat.not_lt.2 hmany (hpoints hchecked)
    rw [tokenizeInWords?, if_neg (mt hwords.2 (houtcome.2 hcount names hnames))]
    exact ⟨cause, rfl⟩
  · obtain ⟨after, rfl, hadds⟩ := houtcome
    obtain ⟨hfault, hfits, rfl⟩ := hadds names hnames
    obtain ⟨tokens, htokens, hbody, hend⟩ := exists_tokenize_of_pieces (pieces_scan hfault)
    rw [tokenizeInWords?_eq_some_iff.2 ⟨hwords.1 hfits, htokens.symm⟩]
    dsimp only
    rw [TokenSequence.toList, hbody, hend]
    rfl

end Whole

/-- Whatever a supplier answers and whatever bound it gives, a text that a memory can hold is read
to the end or to a fault, if the windows in it end at words and its points can be counted: no sum is
too large, every slice lies in the buffer, and the loops end.  A window that does not end at a word
and the points are all that a reading can break down at.  Of known names, what is read is what the
scan reads, and a reading breaks down just where the scan has looked into such a window. -/
theorem read_ends (arithmetic : Arithmetic) (supplier : Supplier σ) (state : σ) {text : String}
    (hsize : text.utf8ByteSize < wordBound) :
    (∃ outcome, read arithmetic supplier state text = some outcome ∧
      ∀ cause, outcome = .error (.breakdown cause) →
        Excess ⟨arithmetic, text.toList, supplier⟩ cause) ∧
    ((arithmetic = .checked → text.toList.count '.' < pointBound) →
      ((∀ position < text.length, position + supplier.longest.toNat < wordBound) →
        (∃ tokens, read arithmetic supplier state text = some (.ok tokens)) ∨
        ∃ error, read arithmetic supplier state text = some (.error (.fault error))) ∧
      ∀ names, supplier.Knows names →
        match tokenizeInWords? names text with
        | some (.ok tokens) => read arithmetic supplier state text = some (.ok tokens.toList)
        | some (.error error) => read arithmetic supplier state text = some (.error (.fault error))
        | none =>
          ∃ cause, read arithmetic supplier state text = some (.error (.breakdown cause))) := by
  obtain ⟨outcome, hread, hcause⟩ := exists_read hsize
  refine ⟨⟨outcome, hread, hcause⟩, fun hpoints => ⟨fun hwindows => ?_, fun names hnames =>
    read_of_knows hsize hnames hpoints⟩⟩
  rcases outcome with (error | cause) | tokens
  · exact .inr ⟨error, hread⟩
  · refine absurd (hcause cause rfl) (not_excess (fun position hposition => ?_) hpoints cause)
    rw [String.length_toList] at hposition
    exact hwindows position hposition
  · exact .inl ⟨tokens, hread⟩

/-- Answers that change with every question are no obstacle, and neither is the largest bound at the
start of a text. -/
theorem read_ends_of_changing_answers :
    ((∃ tokens, read .checked (⟨fun answer _ => (answer, ! answer), 5⟩ : Supplier Bool) false "aé 1.5"
        = some (.ok tokens)) ∨
      ∃ error, read .checked (⟨fun answer _ => (answer, ! answer), 5⟩ : Supplier Bool) false "aé 1.5"
        = some (.error (.fault error))) ∧
    read .wrapping (.ofList ["x"] (.ofNat (wordBound - 1))) () "x"
      = some (.ok [⟨.variableName, "x", 0⟩, ⟨.endOfInput, "", 1⟩]) := by
  obtain ⟨-, hchanging⟩ := read_ends .checked
    (⟨fun answer _ => (answer, ! answer), 5⟩ : Supplier Bool) false
    (show "aé 1.5".utf8ByteSize < wordBound by decide +kernel)
  obtain ⟨-, hlargest⟩ := read_ends .wrapping (.ofList ["x"] (.ofNat (wordBound - 1))) ()
    (show "x".utf8ByteSize < wordBound by decide +kernel)
  have hread : tokenizeInWords? (.ofList ["x"] (UInt64.ofNat (wordBound - 1)).toNat) "x"
      = some (.ok ⟨[⟨.variableName, "x", 0⟩], 1, by decide⟩) := by decide +kernel
  have hexact := (hlargest nofun).2 _ (Supplier.knows_ofList _ _)
  rw [hread] at hexact
  exact ⟨(hchanging fun _ => by decide +kernel).1 (by decide +kernel), hexact⟩

/-- The largest bound, at a position other than the first: the sum that is the end of the window
makes the program break down, or the window ends before it starts. -/
theorem read_breaks_down_of_long_window :
    read .checked (.ofList ["x"] (.ofNat (wordBound - 1))) () "xx"
      = some (.error (.breakdown (.sum 1 (wordBound - 1)))) ∧
    read .wrapping (.ofList ["x"] (.ofNat (wordBound - 1))) () "xx"
      = some (.error (.breakdown (.slice 1 0))) := by
  have hlongest : (UInt64.ofNat (wordBound - 1)).toNat = wordBound - 1 := by decide +kernel
  have hsize : "xx".utf8ByteSize < wordBound := by decide +kernel
  have hnone : tokenizeInWords? (.ofList ["x"] (UInt64.ofNat (wordBound - 1)).toNat) "xx"
      = none := by decide +kernel
  -- The only position at which the window does not end at a word is the second.
  have hbreaks (arithmetic : Arithmetic) : ∃ cause,
      read arithmetic (.ofList ["x"] (.ofNat (wordBound - 1))) () "xx"
        = some (.error (.breakdown cause)) ∧
      Excess ⟨arithmetic, ['x', 'x'], .ofList ["x"] (.ofNat (wordBound - 1))⟩ cause := by
    have hexact := @read_of_knows _ arithmetic _ () _ hsize _
      (Supplier.knows_ofList ["x"] (.ofNat (wordBound - 1))) fun _ => by decide +kernel
    rw [hnone] at hexact
    obtain ⟨cause, hcause⟩ := hexact
    obtain ⟨outcome, hread, hexcess⟩ :=
      @exists_read _ arithmetic (.ofList ["x"] (.ofNat (wordBound - 1))) () _ hsize
    rw [hcause] at hread
    obtain rfl := Option.some.inj hread
    exact ⟨cause, hcause, hexcess cause rfl⟩
  have hlast {position : Nat} (hposition : position < 2)
      (hwindow : wordBound ≤ position + (UInt64.ofNat (wordBound - 1)).toNat) : position = 1 := by
    rw [hlongest] at hwindow
    omega
  constructor
  · obtain ⟨cause, hcause, hexcess⟩ := hbreaks .checked
    rw [hcause]
    cases hexcess with
    | sum hchecked hposition hwindow =>
        rw [hlast hposition hwindow]
        dsimp only [Supplier.ofList]
        rw [hlongest]
    | slice hwrapping => cases hwrapping
    | count hchecked hmany => exact absurd hmany (by decide +kernel)
  · obtain ⟨cause, hcause, hexcess⟩ := hbreaks .wrapping
    rw [hcause]
    cases hexcess with
    | sum hchecked => cases hchecked
    | slice hwrapping hposition hwindow =>
        rw [hlast hposition hwindow]
        dsimp only [Supplier.ofList]
        rw [hlongest]
        rfl
    | count hchecked => cases hchecked

end Buffer

end Reckoner
