import TaskLoom.Json.Value
import TaskLoom.Proofs.Json.Tokens

/-!
# The grammar of JSON text

`Value json text` says that a text is one way to write a value, and `Element json text` the same
with blanks around it.  A text is read in two passes, so a derivation gives tokens in between:
the reader of characters produces them (`Lexes`), and the builder makes the value of them
(`Builds`).  Both are stated for a text in the middle of another one, since that is where the
induction over a derivation needs them.

## Main results

* `Value.spec` — every text of the grammar has tokens that stand for the value it writes.
* `Element.parse_eq` — hence it is read as that value, whatever its blanks, escapes and depth.
-/

namespace TaskLoom.Json

/-! ## Texts of a value -/

/-- A string in quotes, and the text that it stands for, if it is one. -/
inductive Quoted : Option String → List Char → Prop where
  | mk {pieces : List Piece} {chars : List Char} (h : WrittenPieces pieces chars) :
      Quoted (Builder.textOf pieces) ('"' :: (chars ++ ['"']))

mutual

/-- How a value can be written. -/
inductive Value : Json → List Char → Prop where
  | null : Value .null ['n', 'u', 'l', 'l']
  | true : Value (.bool true) ['t', 'r', 'u', 'e']
  | false : Value (.bool false) ['f', 'a', 'l', 's', 'e']
  | numeral {n : Numeral} {run : List Char} (h : n.Written run) : Value (.numeral n) run
  | string {content : Option String} {text : List Char} (h : Quoted content text) :
      Value (.string content) text
  | emptyArray {blanks : List Char} (h : Blank blanks) :
      Value (.array []) ('[' :: (blanks ++ [']']))
  | array {items : List Json} {text : List Char} (h : Elements items text) :
      Value (.array items) ('[' :: (text ++ [']']))
  | emptyObject {blanks : List Char} (h : Blank blanks) :
      Value (.object []) ('\x7b' :: (blanks ++ ['\x7d']))
  | object {fields : List (Option String × Json)} {text : List Char} (h : Members fields text) :
      Value (.object fields) ('\x7b' :: (text ++ ['\x7d']))

/-- A value with blanks around it. -/
inductive Element : Json → List Char → Prop where
  | mk {json : Json} {before text after : List Char} (hbefore : Blank before)
      (h : Value json text) (hafter : Blank after) : Element json (before ++ (text ++ after))

/-- Elements with commas between them, at least one. -/
inductive Elements : List Json → List Char → Prop where
  | last {json : Json} {text : List Char} (h : Element json text) : Elements [json] text
  | more {json : Json} {items : List Json} {text rest : List Char} (h : Element json text)
      (hrest : Elements items rest) : Elements (json :: items) (text ++ ',' :: rest)

/-- A key, a colon and an element. -/
inductive Member : Option String → Json → List Char → Prop where
  | mk {key : Option String} {json : Json} {before name after text : List Char}
      (hbefore : Blank before) (hname : Quoted key name) (hafter : Blank after)
      (h : Element json text) : Member key json (before ++ (name ++ after) ++ ':' :: text)

/-- Members with commas between them, at least one. -/
inductive Members : List (Option String × Json) → List Char → Prop where
  | last {key : Option String} {json : Json} {text : List Char} (h : Member key json text) :
      Members [(key, json)] text
  | more {key : Option String} {json : Json} {fields : List (Option String × Json)}
      {text rest : List Char} (h : Member key json text) (hrest : Members fields rest) :
      Members ((key, json) :: fields) (text ++ ',' :: rest)

end

/-! ## Characters to tokens -/

/-- A text that is read as the given tokens, whatever stands before it and after it. -/
def Lexes (text : List Char) (ts : List Token) : Prop :=
  ∀ before rest, Delimited rest →
    Reader.readAll ⟨.between, before⟩ (text ++ rest) =
      Reader.readAll ⟨.between, ts.reverse ++ before⟩ rest

namespace Lexes

variable {text rest : List Char} {ts us : List Token}

theorem nil : Lexes [] [] :=
  fun _ _ _ => rfl

theorem tokens_eq (h : Lexes text ts) : tokens text = some ts := by
  have hread := h [] [] delimited_nil
  rw [List.append_nil, List.append_nil] at hread
  exact hread.trans (congrArg some (List.reverse_reverse ts))

theorem afterBlanks {blanks : List Char} (hblanks : Blank blanks) (h : Lexes text ts) :
    Lexes (blanks ++ text) ts := by
  intro before rest hrest
  rw [List.append_assoc, readAll_blanks hblanks, h before rest hrest]

theorem thenBlanks {blanks : List Char} (h : Lexes text ts) (hblanks : Blank blanks) :
    Lexes (text ++ blanks) ts := by
  intro before rest hrest
  rw [List.append_assoc, h before _ (hrest.blanks hblanks), readAll_blanks hblanks]

/-- Two texts with a mark between them. -/
theorem mark {c : Char} {token : Token} (h : Lexes text ts) (hmark : punctuation c = some token)
    (hrest : Lexes rest us) : Lexes (text ++ c :: rest) (ts ++ token :: us) := by
  intro before after hafter
  rw [List.append_assoc, List.cons_append, h before _ (delimited_mark hmark), readAll_mark hmark,
    hrest _ after hafter]
  simp

theorem blanks {blanks : List Char} (h : Blank blanks) : Lexes blanks [] :=
  nil.thenBlanks h

/-- A text between two marks. -/
theorem enclosed {opening closing : Char} {first last : Token}
    (hopening : punctuation opening = some first) (h : Lexes text ts)
    (hclosing : punctuation closing = some last) :
    Lexes (opening :: (text ++ [closing])) (first :: (ts ++ [last])) :=
  nil.mark hopening (h.mark hclosing nil)

theorem run {chars : List Char} {token : Token} (hrun : chars.all isRunChar = true)
    (hne : chars ≠ []) (htoken : Token.ofRun chars = some token) : Lexes chars [token] :=
  fun _ _ hrest => readAll_run (List.all_eq_true.1 hrun) hne htoken hrest

theorem numeral {n : Numeral} {chars : List Char} (h : n.Written chars) :
    Lexes chars [.numeral n] :=
  fun _ _ hrest => readAll_numeral h hrest

end Lexes

/-- A string in quotes is one token. -/
theorem Quoted.lexes {content : Option String} {text : List Char} (h : Quoted content text) :
    ∃ pieces, Builder.textOf pieces = content ∧ Lexes text [.string pieces] := by
  obtain @⟨pieces, chars, hpieces⟩ := h
  refine ⟨pieces, rfl, fun before rest _ => ?_⟩
  rw [List.cons_append, List.append_assoc]
  exact readAll_string hpieces

/-! ## Tokens to values -/

/-- Builds what comes next from a number of tokens. -/
def Builder.run (b : Builder) (ts : List Token) : Option Builder :=
  ts.foldlM Builder.step b

namespace Builder

theorem run_cons (b : Builder) (t : Token) (ts : List Token) :
    b.run (t :: ts) = (b.step t).bind (·.run ts) :=
  rfl

theorem run_append (b : Builder) (ts us : List Token) :
    b.run (ts ++ us) = (b.run ts).bind (·.run us) :=
  List.foldlM_append

end Builder

/-- Tokens that stand for a value.  At the start of an array they are no end of it. -/
structure Builds (json : Json) (ts : List Token) : Prop where
  run_value : ∀ stack, (Builder.value stack).run ts = some (.complete json stack)
  run_firstItem : ∀ stack,
    (Builder.firstItem stack).run ts = (Builder.value (.items [] :: stack)).run ts

/-- Tokens that stand for the items of an array. -/
structure BuildsItems (items : List Json) (ts : List Token) : Prop where
  run_value : ∀ before stack, (Builder.value (.items before :: stack)).run ts =
    some (.afterItem (items.reverse ++ before) stack)
  run_firstItem : ∀ stack,
    (Builder.firstItem stack).run ts = (Builder.value (.items [] :: stack)).run ts

/-- Tokens that stand for the fields of an object. -/
structure BuildsFields (fields : List (Option String × Json)) (ts : List Token) : Prop where
  run_field : ∀ before stack, (Builder.field before stack).run ts =
    some (.afterField (fields.reverse ++ before) stack)
  run_firstField : ∀ stack, (Builder.firstField stack).run ts = (Builder.field [] stack).run ts

theorem Builds.ofTokens_eq {json : Json} {ts : List Token} (h : Builds json ts) :
    ofTokens ts = some json := by
  have hrun : ts.foldlM Builder.step (.value []) = some (.finished json) := h.run_value []
  unfold ofTokens
  rw [hrun]

theorem BuildsItems.array {items : List Json} {ts : List Token} (h : BuildsItems items ts) :
    Builds (.array items) (.openBracket :: (ts ++ [.closeBracket])) where
  run_value stack := by
    rw [Builder.run_cons, Builder.step, Builder.start, Option.bind_some, Builder.run_append,
      h.run_firstItem, h.run_value, List.append_nil]
    show some (Builder.complete (.array items.reverse.reverse) stack) = _
    rw [List.reverse_reverse]
  run_firstItem _ := rfl

theorem BuildsFields.object {fields : List (Option String × Json)} {ts : List Token}
    (h : BuildsFields fields ts) :
    Builds (.object fields) (.openBrace :: (ts ++ [.closeBrace])) where
  run_value stack := by
    rw [Builder.run_cons, Builder.step, Builder.start, Option.bind_some, Builder.run_append,
      h.run_firstField, h.run_field, List.append_nil]
    show some (Builder.complete (.object fields.reverse.reverse) stack) = _
    rw [List.reverse_reverse]
  run_firstItem _ := rfl

theorem Builds.singleton {json : Json} {ts : List Token} (h : Builds json ts) :
    BuildsItems [json] ts where
  run_value before stack := h.run_value (.items before :: stack)
  run_firstItem := h.run_firstItem

theorem Builds.cons {json : Json} {items : List Json} {ts us : List Token} (h : Builds json ts)
    (hrest : BuildsItems items us) : BuildsItems (json :: items) (ts ++ .comma :: us) where
  run_value before stack := by
    rw [Builder.run_append, h.run_value]
    show (Builder.value (.items (json :: before) :: stack)).run us = _
    rw [hrest.run_value, List.reverse_cons, List.append_assoc]
    rfl
  run_firstItem stack := by
    rw [Builder.run_append, h.run_firstItem, ← Builder.run_append]

theorem Builds.field {json : Json} {ts : List Token} (pieces : List Piece) (h : Builds json ts) :
    BuildsFields [(Builder.textOf pieces, json)] (.string pieces :: .colon :: ts) where
  run_field before stack := h.run_value (.field before (Builder.textOf pieces) :: stack)
  run_firstField _ := rfl

theorem BuildsFields.append {fields others : List (Option String × Json)} {ts us : List Token}
    (h : BuildsFields fields ts) (hothers : BuildsFields others us) :
    BuildsFields (fields ++ others) (ts ++ .comma :: us) where
  run_field before stack := by
    rw [Builder.run_append, h.run_field]
    show (Builder.field (fields.reverse ++ before) stack).run us = _
    rw [hothers.run_field, List.reverse_append, List.append_assoc]
  run_firstField stack := by
    rw [Builder.run_append, h.run_firstField, ← Builder.run_append]

/-! ## Texts to values

By induction on the derivation, all five relations at once.  Tokens are put together as the texts
are, so each case joins what its parts have. -/

mutual

/-- Every text of the grammar has tokens that stand for the value it writes. -/
theorem Value.spec {json : Json} {text : List Char} :
    Value json text → ∃ ts, Lexes text ts ∧ Builds json ts
  | .null => ⟨[.null], Lexes.run rfl (by decide) rfl, fun _ => rfl, fun _ => rfl⟩
  | .true => ⟨[.bool .true], Lexes.run rfl (by decide) rfl, fun _ => rfl, fun _ => rfl⟩
  | .false => ⟨[.bool .false], Lexes.run rfl (by decide) rfl, fun _ => rfl, fun _ => rfl⟩
  | .numeral h => ⟨_, Lexes.numeral h, fun _ => rfl, fun _ => rfl⟩
  | .string h => by
    obtain ⟨pieces, rfl, hlexes⟩ := h.lexes
    exact ⟨_, hlexes, fun _ => rfl, fun _ => rfl⟩
  | .emptyArray h => ⟨_, (Lexes.blanks h).enclosed rfl rfl, fun _ => rfl, fun _ => rfl⟩
  | .array h => by
    obtain ⟨ts, hlexes, hbuilds⟩ := h.spec
    exact ⟨_, hlexes.enclosed rfl rfl, hbuilds.array⟩
  | .emptyObject h => ⟨_, (Lexes.blanks h).enclosed rfl rfl, fun _ => rfl, fun _ => rfl⟩
  | .object h => by
    obtain ⟨ts, hlexes, hbuilds⟩ := h.spec
    exact ⟨_, hlexes.enclosed rfl rfl, hbuilds.object⟩

theorem Element.spec {json : Json} {text : List Char} :
    Element json text → ∃ ts, Lexes text ts ∧ Builds json ts
  | .mk hbefore h hafter => by
    obtain ⟨ts, hlexes, hbuilds⟩ := h.spec
    exact ⟨ts, (hlexes.thenBlanks hafter).afterBlanks hbefore, hbuilds⟩

theorem Elements.spec {items : List Json} {text : List Char} :
    Elements items text → ∃ ts, Lexes text ts ∧ BuildsItems items ts
  | .last h => by
    obtain ⟨ts, hlexes, hbuilds⟩ := h.spec
    exact ⟨ts, hlexes, hbuilds.singleton⟩
  | .more h hrest => by
    obtain ⟨ts, hlexes, hbuilds⟩ := h.spec
    obtain ⟨us, hlexesRest, hbuildsRest⟩ := hrest.spec
    exact ⟨_, hlexes.mark rfl hlexesRest, hbuilds.cons hbuildsRest⟩

theorem Member.spec {key : Option String} {json : Json} {text : List Char} :
    Member key json text → ∃ ts, Lexes text ts ∧ BuildsFields [(key, json)] ts
  | .mk hbefore hname hafter h => by
    obtain ⟨pieces, rfl, hlexesName⟩ := hname.lexes
    obtain ⟨ts, hlexes, hbuilds⟩ := h.spec
    exact ⟨_, ((hlexesName.thenBlanks hafter).afterBlanks hbefore).mark rfl hlexes,
      hbuilds.field pieces⟩

theorem Members.spec {fields : List (Option String × Json)} {text : List Char} :
    Members fields text → ∃ ts, Lexes text ts ∧ BuildsFields fields ts
  | .last h => h.spec
  | .more h hrest => by
    obtain ⟨ts, hlexes, hbuilds⟩ := h.spec
    obtain ⟨us, hlexesRest, hbuildsRest⟩ := hrest.spec
    exact ⟨_, hlexes.mark rfl hlexesRest, hbuilds.append hbuildsRest⟩

end

/-- A text of the grammar is read as the value it writes. -/
theorem Element.parse_eq {json : Json} {text : String} (h : Element json text.toList) :
    parse text = some json := by
  obtain ⟨ts, hlexes, hbuilds⟩ := h.spec
  unfold parse
  rw [hlexes.tokens_eq]
  exact hbuilds.ofTokens_eq

end TaskLoom.Json
