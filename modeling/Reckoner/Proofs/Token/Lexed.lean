/-
  Reckoner.Proofs.Token.Lexed

  What the tokens of a text are good for: every number denotes a number, and every variable is a
  known name.
-/
import Reckoner.Proofs.Decimal.Digits
import Reckoner.Token.Lexer

namespace Reckoner

open Unicode

namespace Token

/-- The token is no number, or its text denotes one. -/
def Readable (token : Token) : Prop :=
  token.kind = .number → ∃ value, Numeral.read token.text = .ok value

/-- The token is no variable, or its text is a known name. -/
def KnownIn (names : KnownNames) (token : Token) : Prop :=
  token.kind = .variableName → names.isKnown token.text

end Token

/-- Symbols are neither numbers nor variables. -/
theorem TokenKind.ne_of_ofSymbol? {c : Char} {kind : TokenKind}
    (h : TokenKind.ofSymbol? c = some kind) : kind ≠ .number ∧ kind ≠ .variableName := by
  unfold TokenKind.ofSymbol? at h
  split at h <;> cases h <;> decide

/-! ## Literals are numerals -/

namespace Numeral

/-- Digits with at most one point among them are a decimal, if a digit comes first. -/
theorem exists_readDecimal {first : Char} {rest : List Char} (hfirst : first.isDigit)
    (hrest : ∀ c ∈ rest, Lexer.isNumeralChar c) (hdots : rest.count '.' ≤ 1) :
    ∃ d, readDecimal (first :: rest) = some d := by
  have hwhole : ∀ c ∈ first :: rest.takeWhile Char.isDigit, c.isDigit := by
    intro c hc
    rcases List.mem_cons.1 hc with rfl | hc
    · exact hfirst
    · exact List.mem_takeWhile_imp hc
  have hsplit : rest.takeWhile Char.isDigit ++ rest.dropWhile Char.isDigit = rest :=
    List.takeWhile_append_dropWhile
  rcases hdrop : rest.dropWhile Char.isDigit with _ | ⟨mark, fraction⟩
  · rw [hdrop, List.append_nil] at hsplit
    rw [hsplit] at hwhole
    exact ⟨_, readDecimal_of_isDigit (List.cons_ne_nil _ _) hwhole⟩
  · rw [hdrop] at hsplit
    have hmark : ¬ mark.isDigit := by
      have hhead := List.head?_dropWhile_not Char.isDigit rest
      rw [hdrop] at hhead
      simpa using hhead
    have hpoint : mark = '.' := by
      have hnumeral := hrest mark (by rw [← hsplit]; simp)
      simpa [Lexer.isNumeralChar, hmark] using hnumeral
    subst hpoint
    -- The point is the only one, so all after it are digits.
    have hfraction : ∀ c ∈ fraction, c.isDigit := by
      intro c hc
      have hnumeral := hrest c (by rw [← hsplit]; simp [hc])
      have hno : '.' ∉ fraction := by
        rw [← hsplit, List.count_append, List.count_cons_self] at hdots
        exact List.count_eq_zero.1 (by omega)
      have hne : c ≠ '.' := fun heq => hno (heq ▸ hc)
      simpa [Lexer.isNumeralChar, hne] using hnumeral
    rw [← hsplit]
    exact ⟨_, readDecimal_append_point (List.cons_ne_nil _ _) hwhole hfraction⟩

/-- A literal denotes a number. -/
theorem exists_read_literal {first : Char} {rest : List Char} (hfirst : first.isDigit)
    (hrest : ∀ c ∈ rest, Lexer.isNumeralChar c) (hdots : (first :: rest).count '.' ≤ 1) :
    ∃ value, read (String.ofList (first :: rest)) = .ok value := by
  have hfewer := List.count_le_count_cons (a := '.') (b := first) (l := rest)
  obtain ⟨d, hd⟩ := exists_readDecimal hfirst hrest (Nat.le_trans hfewer hdots)
  rw [read_ofList_of_isDigit hfirst, readUnsigned]
  cases readWord (first :: rest) with
  | some value => exact ⟨value, rfl⟩
  | none =>
      rw [hd]
      exact ⟨_, rfl⟩

end Numeral

/-! ## The tokens of a text -/

namespace Lexer

/-- What `knownExtent?` finds is the length of a known name, less one. -/
theorem isKnown_of_knownExtent? {names : KnownNames} {window : List Char} {bound extent : Nat}
    (h : knownExtent? names window bound = some extent) :
    extent < bound ∧ names.isKnown (String.ofList (window.take (extent + 1))) := by
  induction bound with
  | zero => simp [knownExtent?] at h
  | succ bound ih =>
      rw [knownExtent?] at h
      split at h
      · next hknown =>
          obtain rfl : bound = extent := Option.some.inj h
          exact ⟨Nat.lt_succ_self _, hknown⟩
      · obtain ⟨hlt, hknown⟩ := ih h
        exact ⟨Nat.lt_succ_of_lt hlt, hknown⟩

/-- The variables of a word are known. -/
theorem isKnown_of_mem_splitWord {names : KnownNames} {position : Nat} {word : List Char}
    {token : Token} (h : token ∈ (splitWord names position word).tokens) :
    names.isKnown token.text := by
  fun_induction splitWord names position word with
  | case1 => simp at h
  | case2 position first rest word window extent hextent ih =>
      rcases List.mem_cons.1 h with rfl | h
      · obtain ⟨hlt, hknown⟩ := isKnown_of_knownExtent? hextent
        -- The window is a prefix of the word, so what is known of it is known of the word.
        have hwindow : window.length ≤ names.longest := List.length_take_le _ _
        have htake : window.take (extent + 1) = word.take (extent + 1) := by
          rw [List.take_take, Nat.min_eq_left (by omega)]
        rwa [htake] at hknown
      · exact ih h
  | case3 => simp [Scan.stopped] at h

/-- The tokens of a text are symbols, literals, names of functions and known names. -/
theorem mem_scan_cases {names : KnownNames} {motive : Token → Prop}
    (hsymbol : ∀ kind c position, TokenKind.ofSymbol? c = some kind →
      motive ⟨kind, String.singleton c, position⟩)
    (hliteral : ∀ first rest position, first.isDigit → (∀ c ∈ rest, isNumeralChar c) →
      (first :: rest).count '.' ≤ 1 → motive ⟨.number, String.ofList (first :: rest), position⟩)
    (hfunction : ∀ word position, motive ⟨.functionName, word, position⟩)
    (hvariable : ∀ token, token.kind = .variableName → names.isKnown token.text → motive token)
    {position : Nat} {text : List Char} {token : Token}
    (h : token ∈ (scan names position text).tokens) : motive token := by
  fun_induction scan names position text with
  | case1 => simp at h
  | case2 position first rest _ ih => exact ih h
  | case3 position first rest _ kind hkind ih =>
      rcases List.mem_cons.1 h with rfl | h
      · exact hsymbol _ _ _ hkind
      · exact ih h
  | case4 => simp [Scan.stopped] at h
  | case5 position first rest _ _ hdigit literal hdots ih =>
      rcases List.mem_cons.1 h with rfl | h
      · exact hliteral _ _ _ hdigit (fun c hc => List.mem_takeWhile_imp hc) (Nat.not_lt.1 hdots)
      · exact ih h
  | case6 position first rest _ _ _ _ word after _ ih =>
      rcases List.mem_cons.1 h with rfl | h
      · exact hfunction _ _
      · exact ih h
  | case7 position first rest _ _ _ _ word after _ ih =>
      -- A name that no parenthesis follows is split, and the rest is scanned if that succeeds.
      unfold Scan.append at h
      split at h
      · exact hvariable _ (kind_of_mem_splitWord h) (isKnown_of_mem_splitWord h)
      · rcases List.mem_append.1 h with h | h
        · exact hvariable _ (kind_of_mem_splitWord h) (isKnown_of_mem_splitWord h)
        · exact ih h
  | case8 => simp [Scan.stopped] at h

theorem readable_of_mem_scan {names : KnownNames} {position : Nat} {text : List Char}
    {token : Token} (h : token ∈ (scan names position text).tokens) : token.Readable := by
  refine mem_scan_cases ?_ ?_ ?_ ?_ h
  · intro kind c position hkind hnumber
    exact absurd hnumber (TokenKind.ne_of_ofSymbol? hkind).1
  · intro first rest position hfirst hrest hdots _
    exact Numeral.exists_read_literal hfirst hrest hdots
  · intro word position hnumber
    cases hnumber
  · intro token hvariable _ hnumber
    rw [hvariable] at hnumber
    cases hnumber

theorem knownIn_of_mem_scan {names : KnownNames} {position : Nat} {text : List Char}
    {token : Token} (h : token ∈ (scan names position text).tokens) : token.KnownIn names := by
  refine mem_scan_cases ?_ ?_ ?_ ?_ h
  · intro kind c position hkind hvariable
    exact absurd hvariable (TokenKind.ne_of_ofSymbol? hkind).2
  · intro first rest position _ _ _ hvariable
    cases hvariable
  · intro word position hvariable
    cases hvariable
  · exact fun token _ hknown _ => hknown

end Lexer

theorem body_of_tokenize {names : KnownNames} {text : String} {tokens : TokenSequence}
    (h : tokenize names text = .ok tokens) :
    tokens.body = (Lexer.scan names 0 text.toList).tokens := by
  unfold tokenize at h
  simp only at h
  split at h
  · cases h
  · cases h
    rfl

/-- Every number of a text denotes a number. -/
theorem readable_of_tokenize {names : KnownNames} {text : String} {tokens : TokenSequence}
    (h : tokenize names text = .ok tokens) : ∀ token ∈ tokens.body, token.Readable := by
  rw [body_of_tokenize h]
  exact fun token htoken => Lexer.readable_of_mem_scan htoken

/-- Every variable of a text is a known name. -/
theorem knownIn_of_tokenize {names : KnownNames} {text : String} {tokens : TokenSequence}
    (h : tokenize names text = .ok tokens) : ∀ token ∈ tokens.body, token.KnownIn names := by
  rw [body_of_tokenize h]
  exact fun token htoken => Lexer.knownIn_of_mem_scan htoken

end Reckoner
