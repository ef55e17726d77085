/-
  Reckoner.Proofs.Console.Lines

  The lines of an input.

  A line feed is encoded as itself and occurs in the encoding of no other character.  So a line that
  can be read has none (`inLines_linesOf`), and a text is read line by line without failures, just
  as it is split at its line feeds (`linesOf_ofText`).

  What is left of an input after some of its lines is an input, with the lines that are left
  (`linesOf_dropLines`).
-/
import Reckoner.Console
import Reckoner.Proofs.Evaluation.Messages

namespace Reckoner.Console

/-! ## Bytes and characters -/

theorem lineFeed_mem_utf8EncodeChar_iff {c : Char} :
    lineFeed ∈ String.utf8EncodeChar c ↔ c = '\n' := by
  constructor
  · intro hmem
    have hcode : c.toNat = 10 := by
      simp only [String.utf8EncodeChar, lineFeed, Char.toNat_val] at hmem
      split at hmem
      · simp [← UInt8.toNat_inj] at hmem
        omega
      · -- Where a character has several bytes they are all beyond a line feed.
        exfalso
        split at hmem
        · simp [← UInt8.toNat_inj] at hmem
          omega
        · split at hmem <;> simp [← UInt8.toNat_inj] at hmem <;> omega
    exact Char.toNat_inj.1 hcode
  · rintro rfl
    decide

/-- The bytes of a text. -/
theorem toList_toUTF8 (text : String) :
    text.toUTF8.data.toList = text.toList.flatMap String.utf8EncodeChar := by
  rw [String.toUTF8_eq_toByteArray, ← String.utf8Encode_toList, List.utf8Encode,
    List.data_toByteArray]

/-- A line that can be read is the text of its bytes. -/
theorem decodeLine_eq_ok_iff {bytes : List UInt8} {line : String} :
    decodeLine bytes = .ok line ↔ bytes = line.toList.flatMap String.utf8EncodeChar := by
  rw [← toList_toUTF8, String.toUTF8_eq_toByteArray, decodeLine, String.fromUTF8?]
  constructor
  · intro h
    by_cases hvalid : bytes.toByteArray.IsValidUTF8
    · rw [dif_pos hvalid] at h
      rw [← Except.ok.inj h, String.fromUTF8, List.data_toByteArray]
    · rw [dif_neg hvalid] at h
      cases h
  · intro h
    have hbytes : bytes.toByteArray = line.toByteArray := by
      rw [h]
      exact ByteArray.ext (by rw [List.data_toByteArray, Array.toArray_toList])
    rw [hbytes, dif_pos line.isValidUTF8]
    rfl

/-! ## Single lines -/

/-- What is read are single lines. -/
def InLines (readings : List Reading) : Prop :=
  ∀ line, .ok line ∈ readings → SingleLine line

theorem InLines.mono {readings more : List Reading} (h : InLines more)
    (hsubset : readings ⊆ more) : InLines readings :=
  fun line hline => h line (hsubset hline)

theorem lineFeed_not_mem_of_mem_go (input : Input) :
    ∀ bytes, .ok bytes ∈ linesOf.go input → lineFeed ∉ bytes := by
  fun_induction linesOf.go input with
  | case1 => nofun
  | case2 failure rest ih => simpa using ih
  | case3 rest ih => simpa using ih
  | case4 byte rest hbyte hrest ih => simpa [eq_comm] using hbyte
  | case5 byte rest hbyte line lines hrest ih =>
      rw [hrest] at ih
      intro bytes hbytes
      rcases List.mem_cons.1 hbytes with heq | hbytes
      · rcases line with failure | line
        · cases heq
        · obtain rfl := Except.ok.inj heq
          rw [List.mem_cons, not_or]
          exact ⟨fun heq => hbyte heq.symm, ih line List.mem_cons_self⟩
      · exact ih bytes (List.mem_cons_of_mem _ hbytes)

/-- The lines of an input are single lines. -/
theorem inLines_linesOf (input : Input) : InLines (linesOf input) := by
  intro line hline hmem
  obtain ⟨reading, hreading, hdecode⟩ := List.mem_map.1 hline
  rcases reading with failure | bytes
  · cases hdecode
  · -- A line feed in the line would be among its bytes.
    refine lineFeed_not_mem_of_mem_go input bytes hreading ?_
    rw [decodeLine_eq_ok_iff.1 hdecode]
    exact List.mem_flatMap.2 ⟨'\n', hmem, lineFeed_mem_utf8EncodeChar_iff.2 rfl⟩

/-! ## The lines of a text -/

/-- The characters of the lines of a text. -/
def splitLines : List Char → List (List Char)
  | [] => []
  | c :: rest =>
    if c = '\n' then [] :: splitLines rest
    else
      match splitLines rest with
      | [] => [[c]]
      | line :: lines => (c :: line) :: lines

/-- Bytes without a line feed belong to the first of the lines that follow. -/
theorem linesOf_go_append {bytes : List UInt8} (hne : bytes ≠ []) (hbytes : lineFeed ∉ bytes)
    (rest : Input) :
    linesOf.go (.ofBytes bytes ++ rest) =
      match linesOf.go rest with
      | [] => [.ok bytes]
      | line :: lines => line.map (bytes ++ ·) :: lines := by
  induction bytes with
  | nil => exact absurd rfl hne
  | cons byte bytes ih =>
      obtain ⟨hbyte, hbytes⟩ : byte ≠ lineFeed ∧ lineFeed ∉ bytes := by
        simpa [eq_comm] using hbytes
      rw [Input.ofBytes, List.map_cons, List.cons_append, linesOf.go, if_neg hbyte]
      -- The last byte comes before what follows, the others before the line that it has begun.
      rcases bytes with _ | ⟨second, bytes⟩
      · rw [List.map_nil, List.nil_append]
        rcases linesOf.go rest with _ | ⟨line, lines⟩ <;> rfl
      · rw [← Input.ofBytes, ih (List.cons_ne_nil _ _) hbytes]
        rcases linesOf.go rest with _ | ⟨failure | line, lines⟩ <;> rfl

theorem linesOf_go_ofBytes (characters : List Char) :
    linesOf.go (.ofBytes (characters.flatMap String.utf8EncodeChar))
      = (splitLines characters).map fun line => .ok (line.flatMap String.utf8EncodeChar) := by
  induction characters with
  | nil => rfl
  | cons c rest ih =>
      rw [List.flatMap_cons, Input.ofBytes, List.map_append, ← Input.ofBytes, ← Input.ofBytes,
        splitLines]
      split
      · next hc =>
          -- A line feed is one byte, and ends an empty line here.
          subst hc
          exact congrArg (List.cons (.ok [])) ih
      · next hc =>
          rw [linesOf_go_append String.utf8EncodeChar_ne_nil
            (mt lineFeed_mem_utf8EncodeChar_iff.1 hc), ih]
          rcases splitLines rest with _ | ⟨line, lines⟩ <;> simp [Except.map]

/-- A text is read without failures, and its lines are what is between its line feeds. -/
theorem linesOf_ofText (text : String) :
    linesOf (.ofText text)
      = (splitLines text.toList).map fun line => .ok (String.ofList line) := by
  rw [Input.ofText, toList_toUTF8, linesOf, linesOf_go_ofBytes, List.map_map]
  refine List.map_congr_left fun line _ => decodeLine_eq_ok_iff.2 ?_
  rw [String.toList_ofList]

/-! ## What is left of an input -/

/-- The input after its first lines. -/
def dropLines : Nat → Input → Input
  | 0, input => input
  | count + 1, input => dropLines count ((input.dropWhile isWithinLine).drop 1)

theorem linesOf_go_drop (input : Input) :
    linesOf.go ((input.dropWhile isWithinLine).drop 1) = (linesOf.go input).drop 1 := by
  induction input with
  | nil => rfl
  | cons item rest ih =>
      rcases item with failure | byte
      · rfl
      · by_cases hbyte : byte = lineFeed
        · subst hbyte
          rfl
        · rw [List.dropWhile_cons_of_pos (by simpa [isWithinLine] using hbyte), ih, linesOf.go,
            if_neg hbyte]
          rcases linesOf.go rest with _ | ⟨line, lines⟩ <;> rfl

theorem linesOf_dropLines (count : Nat) (input : Input) :
    linesOf (dropLines count input) = (linesOf input).drop count := by
  induction count generalizing input with
  | zero => rfl
  | succ count ih =>
      rw [dropLines, ih, linesOf, linesOf_go_drop, List.map_drop, List.drop_drop, Nat.add_comm]
      rfl

end Reckoner.Console
