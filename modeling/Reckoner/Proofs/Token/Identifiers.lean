/-
  Reckoner.Proofs.Token.Identifiers

  What may be declared is just what an expression can mention (`isIdentifier_iff_mentionable`).

  Whether a text is an identifier is decided by its characters alone, and the reading of a text
  does not ask.  But a word is alphabetic wherever the reading finds one, so its names of functions
  and its variables are identifiers.  The other way round, an identifier right before a parenthesis
  is one word; and by itself it is one variable if it is known, since no name that it begins with
  is longer.
-/
import Reckoner.Proofs.Syntax.Layout
import Reckoner.Proofs.Token.Windows

namespace Reckoner

open Unicode Lexer

namespace TokenSequence

/-- The tokens of a name right before a parenthesis. -/
def call (name : String) : TokenSequence where
  body := [⟨.functionName, name, 0⟩, ⟨.leftParen, "(", name.length⟩]
  endPosition := name.length + 1
  body_kind := by simp

/-- The name as the one token of a text. -/
def mention (name : String) : TokenSequence where
  body := [⟨.variableName, name, 0⟩]
  endPosition := name.length
  body_kind := by simp

end TokenSequence

/-! ## Names in a text are identifiers -/

namespace Lexer

variable {names : KnownNames} {position : Nat} {tokens : List Token}

theorem Splits.isIdentifier {word : List Char} (h : Splits names position word tokens)
    (hword : ∀ c ∈ word, isAlphabetic c) : ∀ token ∈ tokens, isIdentifier token.text := by
  induction h with
  | nil => nofun
  | @cons position name rest tokens hname _ ih =>
      rw [List.forall_mem_append] at hword
      refine List.forall_mem_cons.2 ⟨?_, ih hword.2⟩
      rw [isIdentifier_iff, String.toList_ofList]
      exact ⟨hname.nonempty, hword.1⟩

theorem Piece.isIdentifier {chunk rest : List Char} (h : Piece names position chunk rest tokens) :
    ∀ token ∈ tokens, token.kind = .functionName ∨ token.kind = .variableName →
      isIdentifier token.text := by
  cases h with
  | @symbol c kind rest hsymbol =>
      -- Neither of the two is the kind of a symbol.
      refine List.forall_mem_singleton.2 fun hkind => ?_
      have hword := TokenKind.isWord_of_ofSymbol? hsymbol
      rcases hkind with rfl | rfl <;> cases hword
  | literal => exact List.forall_mem_singleton.2 nofun
  | function hne hword _ =>
      refine List.forall_mem_singleton.2 fun _ => ?_
      rw [isIdentifier_iff, String.toList_ofList]
      exact ⟨hne, hword⟩
  | word _ hword _ _ hsplits => exact fun token htoken _ => hsplits.isIdentifier hword token htoken

/-- The names of functions and the variables of a text are identifiers. -/
theorem Pieces.isIdentifier {text : List Char} (h : Pieces names position text tokens) :
    ∀ token ∈ tokens, token.kind = .functionName ∨ token.kind = .variableName →
      isIdentifier token.text := by
  induction h with
  | nil => nofun
  | whiteSpace _ _ ih => exact ih
  | piece hpiece _ ih => exact List.forall_mem_append.2 ⟨hpiece.isIdentifier, ih⟩

end Lexer

/-! ## Identifiers in a text -/

section Readings

variable {names : KnownNames} {name : String}

/-- An identifier right before a parenthesis is the name of a function, and nothing else is. -/
theorem isIdentifier_iff_tokenize_call :
    isIdentifier name ↔ tokenize names (name ++ "(") = .ok (.call name) := by
  rw [tokenize_eq_ok_iff]
  constructor
  · intro hname
    have hfunction : Piece names 0 name.toList ['('] _ :=
      (Lexeme.Legible.function hname).piece ⟨by simp, fun _ => rfl⟩ 0
    have hparen : Piece names (0 + name.toList.length) ['('] [] _ := .symbol rfl
    have hpieces := Pieces.piece hfunction (.piece hparen .nil)
    rw [Nat.zero_add, String.length_toList] at hpieces
    rw [String.toList_append]
    exact ⟨hpieces, by rw [String.length_append]; rfl⟩
  · rintro ⟨hpieces, -⟩
    exact hpieces.isIdentifier _ List.mem_cons_self (.inl rfl)

/-- No window is looked through for the name of a function. -/
theorem tokenizeInWords?_call_iff :
    tokenizeInWords? names (name ++ "(") = some (.ok (.call name)) ↔
      tokenize names (name ++ "(") = .ok (.call name) := by
  rw [tokenizeInWords?_eq_some_iff, eq_comm (a := Except.ok _), and_iff_right_iff_imp]
  intro hread
  rw [scan_of_tokenize hread]
  exact List.all_eq_true.2 (by simp [Scan.windowStarts, TokenSequence.call])

/-- A known name is one variable by itself, if it is an identifier. -/
theorem tokenize_mention (hname : isIdentifier name) (hknown : names.isKnown name)
    (hlength : name.length ≤ names.longest) : tokenize names name = .ok (.mention name) := by
  have hpiece : Piece names 0 name.toList [] _ :=
    (Lexeme.Legible.variableName hname hknown hlength).piece ⟨by simp, by simp⟩ 0
  have hpieces := Pieces.piece hpiece .nil
  rw [List.append_nil, List.append_nil] at hpieces
  exact tokenize_eq_ok_iff.2 ⟨hpieces, rfl⟩

theorem isIdentifier_of_tokenize_mention (h : tokenize names name = .ok (.mention name)) :
    isIdentifier name :=
  (tokenize_eq_ok_iff.1 h).1.isIdentifier _ List.mem_cons_self (.inr rfl)

end Readings

/-! ## Declared names -/

namespace Environment

variable {environment : Environment} {name : String}

/-- Whatever is known, a declaration succeeds if the name is an identifier, and then adds it to the
known names. -/
theorem declare_cases (h : environment.Reachable) (name : String) :
    (isIdentifier name ∧ ∃ declared,
      (Operation.declare name).perform environment = (.declared (.ok ()), declared) ∧
        declared.knownNames = environment.knownNames.adding name) ∨
    (¬ isIdentifier name ∧ (Operation.declare name).perform environment
      = (.declared (.error (.invalidIdentifier name)), environment)) := by
  by_cases hname : isIdentifier name
  · obtain ⟨declared, hdeclared⟩ : ∃ declared, environment.declare name = .ok declared :=
      ⟨_, by rw [declare, if_pos hname]⟩
    exact .inl ⟨hname, declared, Operation.perform_declare_of_ok hdeclared,
      knownNames_of_declare h.isKnown_of_isConstant hdeclared⟩
  · have hrefused : environment.declare name = .error (.invalidIdentifier name) := by
      rw [declare, if_neg hname]
    exact .inr ⟨hname, Operation.perform_declare_of_error hrefused⟩

/-- After its declaration a name is one variable, and it is not if it cannot be declared. -/
theorem tokenize_mention_iff_declared (h : environment.Reachable) (name : String) :
    tokenize ((Operation.declare name).perform environment).2.knownNames name
        = .ok (.mention name) ↔
      ((Operation.declare name).perform environment).1 = .declared (.ok ()) := by
  rcases declare_cases h name with ⟨hname, declared, hperform, hnames⟩ | ⟨hname, hperform⟩
  · rw [hperform]
    refine iff_of_true ?_ rfl
    show tokenize declared.knownNames name = _
    rw [hnames]
    have hknown : (environment.knownNames.adding name).isKnown name := by
      simp only [KnownNames.adding, decide_true, Bool.true_or]
    exact tokenize_mention hname hknown (Nat.le_max_left _ _)
  · rw [hperform]
    refine iff_of_false (fun hread => hname (isIdentifier_of_tokenize_mention hread)) ?_
    rintro ⟨⟩

/-- The names that a declaration leaves can be in memory if they could before, with the new one. -/
theorem inWords_knownNames_declare (h : environment.Reachable) (haddressable : Addressable name)
    (hnames : ∀ other, environment.isKnown other → Addressable other) :
    ((Operation.declare name).perform environment).2.knownNames.InWords name := by
  have hwords := inWords_knownNames hnames haddressable
  rcases declare_cases h name with ⟨-, declared, hperform, hdeclared⟩ | ⟨-, hperform⟩
  · rw [hperform]
    show declared.knownNames.InWords name
    rw [hdeclared]
    exact hwords.adding haddressable haddressable
  · rw [hperform]
    exact hwords

end Environment

/-- A text is an identifier if and only if it is read as the name of a function where a parenthesis
follows it, whatever names are known.  In an environment that can come about it is read as one
variable, once its declaration has been tried, if and only if that has succeeded.  Both hold where
positions are 64-bit words; there the names are to be such that a memory may hold. -/
theorem isIdentifier_iff_mentionable :
    (∀ (names : KnownNames) (name : String),
      (isIdentifier name ↔ tokenize names (name ++ "(") = .ok (.call name)) ∧
      (isIdentifier name ↔ tokenizeInWords? names (name ++ "(") = some (.ok (.call name)))) ∧
    ∀ (environment after : Environment) (name : String) (reply : Environment.Reply),
      environment.Reachable →
      (Environment.Operation.declare name).perform environment = (reply, after) →
      (tokenize after.knownNames name = .ok (.mention name) ↔ reply = .declared (.ok ())) ∧
      (Addressable name → (∀ other, environment.isKnown other → Addressable other) →
        (tokenizeInWords? after.knownNames name = some (.ok (.mention name)) ↔
          reply = .declared (.ok ()))) := by
  refine ⟨fun names name => ⟨isIdentifier_iff_tokenize_call, ?_⟩, ?_⟩
  · rw [tokenizeInWords?_call_iff]
    exact isIdentifier_iff_tokenize_call
  · intro environment after name reply h hperform
    have hread := Environment.tokenize_mention_iff_declared h name
    rw [hperform] at hread
    refine ⟨hread, fun haddressable hnames => ?_⟩
    have hwords := Environment.inWords_knownNames_declare h haddressable hnames
    rw [hperform] at hwords
    rw [tokenizeInWords?_of_inWords hwords, Option.some_inj]
    exact hread

/-- The longest name is found although others begin it, and a digit makes it none. -/
theorem isIdentifier_iff_mentionable_of_longer :
    (∃ environment declared : Environment, environment.Reachable ∧ environment.isKnown "pi" ∧
      environment.declare "piéx" = .ok declared ∧
      tokenize declared.knownNames "piéx" = .ok (.mention "piéx")) ∧
    tokenize Environment.initial.knownNames "pi2" ≠ .ok (.mention "pi2") := by
  have hvalid : isIdentifier "piéx" := by decide +kernel
  have hinvalid : ¬ isIdentifier "pi2" := by decide +kernel
  have hknown : Environment.initial.isKnown "pi" := Environment.isKnown_initial_iff.2 (by decide)
  have hdeclared : Environment.initial.declare "piéx" = .ok _ := if_pos hvalid
  have hrefused : Environment.initial.declare "pi2" = .error _ := if_neg hinvalid
  obtain ⟨hlonger, -⟩ := isIdentifier_iff_mentionable.2 .initial _ "piéx" _ .initial
    (Environment.Operation.perform_declare_of_ok hdeclared)
  obtain ⟨hdigit, -⟩ := isIdentifier_iff_mentionable.2 .initial _ "pi2" _ .initial
    (Environment.Operation.perform_declare_of_error hrefused)
  exact ⟨⟨.initial, _, .initial, hknown, hdeclared, hlonger.2 rfl⟩, mt hdigit.1 nofun⟩

end Reckoner
