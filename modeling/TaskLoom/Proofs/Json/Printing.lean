import TaskLoom.Proofs.Json.Grammar

/-!
# Printed values

What `print` writes is a text of the grammar, so it is read back as the value it was printed
from.  The only condition is on numerals that are no plain numbers: they keep the text they were
read from, and that must be a numeral.

## Main results

* `quoted_quoteOrLone` — every text can be quoted, whatever its characters.
* `Proper.value_print` — a printed value is a text of that value.
* `Proper.parse_print` — reading inverts printing.
-/

namespace TaskLoom.Json

/-! ## Strings -/

theorem hexValue_hexDigit {n : Nat} (hn : n < 16) : hexValue (hexDigit n) = some n := by
  have hall : ∀ n < 16, hexValue (hexDigit n) = some n := by decide
  exact hall n hn

/-- An escape outside the surrogate range stands for its code point, whatever follows. -/
theorem decode_unit {code : Nat} (hcode : code < 0xD800) (rest : List Piece) :
    decode (.unit code :: rest) = (decode rest).map (Char.ofNat code :: ·) := by
  have hhigh : ¬ (0xD800 ≤ code ∧ code < 0xDC00) := by omega
  have hlow : ¬ (0xDC00 ≤ code ∧ code < 0xE000) := by omega
  have hany : ¬ (0xD800 ≤ code ∧ code < 0xE000) := by omega
  rcases rest with - | ⟨- | -, rest⟩
  · simp only [decode, if_neg hany]
  · simp only [decode, if_neg hany]
  · simp only [decode, if_neg hhigh, if_neg hlow]

/-- A character in a printed string is one piece, which stands for that character. -/
theorem written_escape (c : Char) :
    ∃ piece : Piece, piece.Written (escape c) ∧
      ∀ rest, decode (piece :: rest) = (decode rest).map (c :: ·) := by
  unfold escape
  split
  · next h =>
    subst h
    exact ⟨.plain '"', .short rfl, fun _ => rfl⟩
  split
  · next h =>
    subst h
    exact ⟨.plain '\\', .short rfl, fun _ => rfl⟩
  split
  · next hcontrol =>
    have hunit := Piece.Written.unit (a := '0') (b := '0') (i := 0) (j := 0) rfl rfl
      (hexValue_hexDigit (n := c.toNat / 16) (by omega))
      (hexValue_hexDigit (n := c.toNat % 16) (by omega))
    have hcode : ((0 * 16 + 0) * 16 + c.toNat / 16) * 16 + c.toNat % 16 = c.toNat := by omega
    rw [hcode] at hunit
    refine ⟨_, hunit, fun rest => ?_⟩
    rw [decode_unit (by omega), Char.ofNat_toNat]
  · next hquote hslash hcontrol =>
    exact ⟨.plain c, .plain hquote hslash (Nat.le_of_not_lt hcontrol), fun _ => rfl⟩

/-- The characters of a printed string are pieces that stand for its text. -/
theorem written_flatMap_escape (chars : List Char) :
    ∃ pieces, WrittenPieces pieces (chars.flatMap escape) ∧ decode pieces = some chars := by
  induction chars with
  | nil => exact ⟨[], .nil, rfl⟩
  | cons c chars ih =>
    obtain ⟨pieces, hpieces, hdecode⟩ := ih
    obtain ⟨piece, hpiece, hfirst⟩ := written_escape c
    refine ⟨piece :: pieces, ?_, by rw [hfirst, hdecode]; rfl⟩
    rw [List.flatMap_cons]
    exact .cons hpiece hpieces

/-- What is printed for a string is that string in quotes. -/
theorem quoted_quoteOrLone (content : Option String) : Quoted content (quoteOrLone content) := by
  cases content with
  | none =>
    have hlone : Piece.Written (.unit 0xD800) ['\\', 'u', 'd', '8', '0', '0'] :=
      .unit (i := 13) (j := 8) (k := 0) (l := 0) rfl rfl rfl rfl
    exact Quoted.mk (.cons hlone .nil)
  | some text =>
    obtain ⟨pieces, hpieces, hdecode⟩ := written_flatMap_escape text.toList
    have htext : Builder.textOf pieces = some text := by
      unfold Builder.textOf
      rw [hdecode, Option.map_some, String.ofList_toList]
    have hquoted := Quoted.mk hpieces
    rw [htext] at hquoted
    exact hquoted

/-! ## Values -/

/-- Values whose numerals are numerals of the grammar. -/
inductive Proper : Json → Prop where
  | null : Proper .null
  | bool (b : Bool) : Proper (.bool b)
  | numeral {n : Numeral} (h : n.Written n.print) : Proper (.numeral n)
  | string (content : Option String) : Proper (.string content)
  | array {items : List Json} (h : ∀ item ∈ items, Proper item) : Proper (.array items)
  | object {fields : List (Option String × Json)} (h : ∀ field ∈ fields, Proper field.2) :
      Proper (.object fields)

theorem Value.element {json : Json} {text : List Char} (h : Value json text) :
    Element json text := by
  have helement := Element.mk blank_nil h blank_nil
  rwa [List.append_nil] at helement

/-- What is printed between the brackets of an array. -/
theorem elements_print {item : Json} {items : List Json} (hitem : Value item item.print)
    (hitems : ∀ item ∈ items, Value item item.print) :
    ∃ text, Elements (item :: items) text ∧ item.print ++ printItems items = text ++ [']'] := by
  induction items generalizing item with
  | nil => exact ⟨item.print, .last hitem.element, by rw [printItems]⟩
  | cons next items ih =>
    obtain ⟨hnext, hitems⟩ := List.forall_mem_cons.1 hitems
    obtain ⟨text, helements, htext⟩ := ih hnext hitems
    refine ⟨_, .more hitem.element helements, ?_⟩
    rw [printItems, htext, List.append_assoc, List.cons_append]

theorem member_print {key : Option String} {json : Json} (h : Value json json.print) :
    Member key json (quoteOrLone key ++ ':' :: json.print) := by
  have hmember := Member.mk blank_nil (quoted_quoteOrLone key) blank_nil h.element
  rwa [List.append_nil] at hmember

/-- What is printed between the braces of an object. -/
theorem members_print (key : Option String) {json : Json} {fields : List (Option String × Json)}
    (hjson : Value json json.print) (hfields : ∀ field ∈ fields, Value field.2 field.2.print) :
    ∃ text, Members ((key, json) :: fields) text ∧
      quoteOrLone key ++ ':' :: (json.print ++ printFields fields) = text ++ ['\x7d'] := by
  induction fields generalizing key json with
  | nil => exact ⟨_, .last (member_print hjson), by rw [printFields]; simp⟩
  | cons field fields ih =>
    obtain ⟨name, next⟩ := field
    obtain ⟨hnext, hfields⟩ := List.forall_mem_cons.1 hfields
    obtain ⟨text, hmembers, htext⟩ := ih name hnext hfields
    refine ⟨_, .more (member_print hjson) hmembers, ?_⟩
    rw [printFields, htext]
    simp

/-- A printed value is a text of that value. -/
theorem Proper.value_print {json : Json} (h : Proper json) : Value json json.print := by
  induction h with
  | null => exact .null
  | bool b =>
    cases b with
    | false => exact .false
    | true => exact .true
  | numeral h => exact .numeral h
  | string content => exact .string (quoted_quoteOrLone content)
  | @array items _ ih =>
    cases items with
    | nil => exact .emptyArray blank_nil
    | cons item items =>
      obtain ⟨hitem, hitems⟩ := List.forall_mem_cons.1 ih
      obtain ⟨text, helements, htext⟩ := elements_print hitem hitems
      rw [print, htext]
      exact .array helements
  | @object fields _ ih =>
    cases fields with
    | nil => exact .emptyObject blank_nil
    | cons field fields =>
      obtain ⟨key, json⟩ := field
      obtain ⟨hjson, hfields⟩ := List.forall_mem_cons.1 ih
      obtain ⟨text, hmembers, htext⟩ := members_print key hjson hfields
      rw [print, htext]
      exact .object hmembers

/-- Reading inverts printing. -/
theorem Proper.parse_print {json : Json} (h : Proper json) :
    parse (String.ofList json.print) = some json := by
  apply Element.parse_eq
  rw [String.toList_ofList]
  exact h.value_print.element

end TaskLoom.Json
