/-
  Reckoner.Proofs.Token.Runs

  How the reading of a buffer ends.

  What is read of a text is what is read of its parts, one after the other.  So a run has one rule:
  it reads what certain scans read (`Reads`).  It is halted by the fault of these scans, or breaks
  down in one of the ways in which it may, or adds their tokens to those before; and the rule is
  kept where one part is read after the other (`Reads.bind`).  The scans depend on what is known, so
  the rule says nothing of them for a supplier that knows no names, but a run has an outcome all the
  same.
-/
import Reckoner.Proofs.Token.Buffer
import Reckoner.Proofs.Token.Faults

namespace Reckoner

/-! ## Windows that end at words -/

namespace Scan

/-- Every window in which a name was looked for ends at a word. -/
def Fits (longest : Nat) (scan : Scan) : Prop :=
  ∀ start ∈ scan.windowStarts, start + longest < wordBound

variable {longest : Nat} {first second : Scan} {token : Token}

theorem fits_append_iff (h : first.fault = none) :
    (first.append second).Fits longest ↔ first.Fits longest ∧ second.Fits longest := by
  have hstarts : (first.append second).windowStarts
      = first.windowStarts ++ second.windowStarts := by
    rw [append_of_fault_eq_none h, windowStarts, windowStarts, windowStarts, h, List.filter_append,
      List.map_append, List.append_nil, List.append_assoc]
  rw [Fits, hstarts]
  exact List.forall_mem_append

theorem Fits.of_append (h : (first.append second).Fits longest) : first.Fits longest := by
  cases hfault : first.fault with
  | none => exact ((fits_append_iff hfault).1 h).1
  | some fault => rwa [append_of_fault_eq_some hfault] at h

/-- A token by itself. -/
def single (token : Token) : Scan :=
  { tokens := [token] }

theorem fits_single_iff :
    (single token).Fits longest ↔
      (token.kind = .variableName → token.position + longest < wordBound) := by
  by_cases h : token.kind = .variableName
  · simp [Fits, windowStarts, single, h]
  · simp [Fits, windowStarts, single, h]

theorem fits_stopped_iff {fault : LexError} :
    (stopped fault).Fits longest ↔
      ∀ name position, fault = .unrecognizedIdentifier name position →
        position + longest < wordBound := by
  cases fault <;> simp [Fits, windowStarts, stopped]

end Scan

namespace Buffer

variable {σ α β : Type} {source : Source σ}

/-! ## How runs end -/

/-- The run has an outcome: a value with the property, or a halt that may come about. -/
def Ends (run : Run α) (halts : Halt → Prop) (property : α → Prop) : Prop :=
  ∃ outcome, run = some outcome ∧
    match outcome with
    | .ok value => property value
    | .error halt => halts halt

section Ends

variable {halts halts' : Halt → Prop} {property property' : α → Prop} {further : β → Prop}

theorem ends_pure {value : α} (h : property value) : Ends (pure value) halts property :=
  ⟨.ok value, rfl, h⟩

theorem ends_throw {halt : Halt} (h : halts halt) : Ends (throw halt : Run α) halts property :=
  ⟨.error halt, rfl, h⟩

theorem Ends.bind {first : Run α} {next : α → Run β} (h : Ends first halts property)
    (hnext : ∀ value, property value → Ends (next value) halts further) :
    Ends (first >>= next) halts further := by
  obtain ⟨outcome, rfl, houtcome⟩ := h
  cases outcome with
  | ok value => exact hnext value houtcome
  | error halt => exact ⟨.error halt, rfl, houtcome⟩

theorem Ends.imp {run : Run α} (h : Ends run halts property)
    (hhalts : ∀ halt, halts halt → halts' halt)
    (hproperty : ∀ value, property value → property' value) : Ends run halts' property' := by
  obtain ⟨outcome, hrun, houtcome⟩ := h
  refine ⟨outcome, hrun, ?_⟩
  cases outcome with
  | ok value => exact hproperty value houtcome
  | error halt => exact hhalts halt houtcome

end Ends

/-! ## Parts of a text -/

/-- The breakdowns that may come about in a text: that of a window which ends at no word, and that
of more points than can be counted. -/
inductive Excess (source : Source σ) : Breakdown → Prop
  | sum {position : Nat} (hchecked : source.arithmetic = .checked)
      (hposition : position < source.chars.length)
      (hwindow : wordBound ≤ position + source.supplier.longest.toNat) :
      Excess source (.sum position source.supplier.longest.toNat)
  | slice {position : Nat} (hwrapping : source.arithmetic = .wrapping)
      (hposition : position < source.chars.length)
      (hwindow : wordBound ≤ position + source.supplier.longest.toNat) :
      Excess source (.slice position (position + source.supplier.longest.toNat - wordBound))
  | count (hchecked : source.arithmetic = .checked)
      (hpoints : pointBound ≤ source.chars.count '.') : Excess source .count

/-- A halt may come about where these scans are expected. -/
def Halts (source : Source σ) (expected : KnownNames → Scan) : Halt → Prop
  | .fault error => ∀ names, source.supplier.Knows names →
      (expected names).fault = some error ∧ (expected names).Fits source.supplier.longest.toNat
  | .breakdown cause => Excess source cause ∧ (cause ≠ .count → ∀ names,
      source.supplier.Knows names → ¬ (expected names).Fits source.supplier.longest.toNat)

/-- The tokens of these scans have been added to the others. -/
def Adds (source : Source σ) (expected : KnownNames → Scan) (before after : List Token) : Prop :=
  ∀ names, source.supplier.Knows names → (expected names).fault = none ∧
    (expected names).Fits source.supplier.longest.toNat ∧
    after = before ++ (expected names).tokens

/-- The run reads what these scans read. -/
def Reads (source : Source σ) (expected : KnownNames → Scan) (before : List Token)
    (result : α → List Token → Prop) (run : Run α) : Prop :=
  Ends run (Halts source expected) fun value =>
    ∃ after, result value after ∧ Adds source expected before after

/-- The reader has reached the position with these tokens. -/
def At (position : Nat) (reader : Reader σ) (tokens : List Token) : Prop :=
  reader.position = position ∧ reader.tokens = tokens

section Reads

variable {first second : KnownNames → Scan} {tokens : List Token} {result : α → List Token → Prop}
  {position : Nat}

theorem Halts.append_left {halt : Halt} (h : Halts source first halt) :
    Halts source (fun names => (first names).append (second names)) halt := by
  cases halt with
  | fault error =>
      intro names hnames
      obtain ⟨hfault, hfits⟩ := h names hnames
      dsimp only
      rw [Scan.append_of_fault_eq_some hfault]
      exact ⟨hfault, hfits⟩
  | breakdown cause =>
      exact ⟨h.1, fun hcause names hnames hfits => h.2 hcause names hnames hfits.of_append⟩

theorem Adds.halts_append {after : List Token} (h : Adds source first tokens after) {halt : Halt}
    (hhalt : Halts source second halt) :
    Halts source (fun names => (first names).append (second names)) halt := by
  cases halt with
  | fault error =>
      intro names hnames
      obtain ⟨hnone, hfits, -⟩ := h names hnames
      obtain ⟨hfault, hfits'⟩ := hhalt names hnames
      dsimp only
      rw [Scan.fits_append_iff hnone, Scan.append_of_fault_eq_none hnone]
      exact ⟨hfault, hfits, hfits'⟩
  | breakdown cause =>
      refine ⟨hhalt.1, fun hcause names hnames hfits => hhalt.2 hcause names hnames ?_⟩
      exact ((Scan.fits_append_iff (h names hnames).1).1 hfits).2

theorem Adds.append {middle after : List Token} (h : Adds source first tokens middle)
    (hmore : Adds source second middle after) :
    Adds source (fun names => (first names).append (second names)) tokens after := by
  intro names hnames
  obtain ⟨hnone, hfits, rfl⟩ := h names hnames
  obtain ⟨hnone', hfits', rfl⟩ := hmore names hnames
  dsimp only
  rw [Scan.fits_append_iff hnone, Scan.append_of_fault_eq_none hnone]
  exact ⟨hnone', ⟨hfits, hfits'⟩, List.append_assoc _ _ _⟩

/-- After the tokens that have been added a run reads on. -/
theorem Adds.reads {middle : List Token} {run : Run α} (h : Adds source first tokens middle)
    (hmore : Reads source second middle result run) :
    Reads source (fun names => (first names).append (second names)) tokens result run := by
  refine hmore.imp (fun _ => h.halts_append) fun value hvalue => ?_
  obtain ⟨after, hafter, hadds⟩ := hvalue
  exact ⟨after, hafter, h.append hadds⟩

/-- One part of a text is read after the other. -/
theorem Reads.bind {run : Run (Reader σ)} {next : Reader σ → Run α}
    (h : Reads source first tokens (At position) run)
    (hnext : ∀ tokens state, Reads source second tokens result (next ⟨position, tokens, state⟩)) :
    Reads source (fun names => (first names).append (second names)) tokens result
      (run >>= next) := by
  refine (h.imp (fun _ => Halts.append_left) fun _ => id).bind fun reader hreader => ?_
  obtain ⟨middle, ⟨rfl, rfl⟩, hmiddle⟩ := hreader
  exact hmiddle.reads (hnext reader.tokens reader.state)

/-- A token is read first. -/
theorem Reads.cons {run : Run α} {token : Token}
    (hfits : token.kind = .variableName →
      token.position + source.supplier.longest.toNat < wordBound)
    (h : Reads source second (tokens ++ [token]) result run) :
    Reads source (fun names => (second names).cons token) tokens result run := by
  have hadds : Adds source (fun _ => .single token) tokens (tokens ++ [token]) :=
    fun _ _ => ⟨rfl, Scan.fits_single_iff.2 hfits, rfl⟩
  exact hadds.reads h

/-- What is read depends on what the supplier knows, if it does know names. -/
theorem Reads.congr {run : Run α} (h : Reads source first tokens result run)
    (heq : ∀ names, source.supplier.Knows names → first names = second names) :
    Reads source second tokens result run := by
  refine h.imp (fun halt hhalt => ?_) fun value hvalue => ?_
  · cases halt with
    | fault error => exact fun names hnames => heq names hnames ▸ hhalt names hnames
    | breakdown cause =>
        exact ⟨hhalt.1, fun hcause names hnames => heq names hnames ▸ hhalt.2 hcause names hnames⟩
  · obtain ⟨after, hafter, hadds⟩ := hvalue
    exact ⟨after, hafter, fun names hnames => heq names hnames ▸ hadds names hnames⟩

/-- Nothing is read. -/
theorem reads_nothing (state : σ) :
    Reads source (fun _ => {}) tokens (At position) (pure ⟨position, tokens, state⟩) :=
  ends_pure ⟨tokens, ⟨rfl, rfl⟩, fun _ _ => ⟨rfl, List.forall_mem_nil _, (List.append_nil _).symm⟩⟩

/-- A fault is found. -/
theorem reads_fault {error : LexError}
    (h : ∀ names, source.supplier.Knows names → first names = .stopped error)
    (hfits : ∀ name position, error = .unrecognizedIdentifier name position →
      position + source.supplier.longest.toNat < wordBound) :
    Reads source first tokens result (throw (.fault error)) := by
  refine ends_throw fun names hnames => ?_
  rw [h names hnames]
  exact ⟨rfl, Scan.fits_stopped_iff.2 hfits⟩

theorem reads_count (hchecked : source.arithmetic = .checked)
    (hpoints : pointBound ≤ source.chars.count '.') :
    Reads source first tokens result (throw (.breakdown .count)) :=
  ends_throw ⟨.count hchecked hpoints, fun hne => absurd rfl hne⟩

end Reads

end Buffer

end Reckoner
