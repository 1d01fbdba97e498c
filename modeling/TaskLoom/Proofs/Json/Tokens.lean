import Mathlib.Tactic.IntervalCases
import TaskLoom.Json.Token

/-!
# Reading tokens

Text is spelled out here as the grammar of JSON has it: blanks, the six marks, strings that
consist of pieces, three words, and numerals with a sign, a whole part, a fraction and an
exponent.  The reader is followed over each of these, whatever stands after it.

Marks, blanks and strings show by themselves where they end.  A word or a numeral ends where
the next character cannot belong to one, so what follows it must be `Delimited`.

## Main results

* `readAll_blanks`, `readAll_mark`, `readAll_string` — one of these, and then the rest.
* `readAll_run` — a word or a numeral, and then a delimited rest.
* `readAll_numeral` — every numeral of the grammar is read, with its value if it is a plain
  number.
-/

namespace TaskLoom.Json

variable {ts : List Token} {rest : List Char}

/-! ## The reader -/

/-- The tokens that a text gives from some state on. -/
def Reader.readAll (r : Reader) (text : List Char) : Option (List Token) :=
  (text.foldlM Reader.step r).bind Reader.finish

theorem Reader.readAll_cons (r : Reader) (c : Char) (rest : List Char) :
    r.readAll (c :: rest) = (r.step c).bind (·.readAll rest) := by
  unfold readAll
  rw [List.foldlM_cons]
  cases r.step c <;> rfl

/-- A word or a numeral before this text ends where the text starts. -/
def Delimited (rest : List Char) : Prop :=
  ∀ c ∈ rest.head?, isRunChar c = false

theorem delimited_nil : Delimited [] := by
  simp [Delimited]

theorem delimited_cons {c : Char} (h : isRunChar c = false) (rest : List Char) :
    Delimited (c :: rest) := by
  simpa [Delimited] using h

/-! ## Blanks and marks -/

/-- The characters that may stand between tokens. -/
def IsBlank (c : Char) : Prop :=
  c = ' ' ∨ c = '\t' ∨ c = '\n' ∨ c = '\r'

/-- A text of blanks only. -/
def Blank (text : List Char) : Prop :=
  ∀ c ∈ text, IsBlank c

theorem blank_nil : Blank [] := by
  simp [Blank]

/-- Blanks change nothing. -/
theorem readAll_blanks {blanks : List Char} (h : Blank blanks) :
    Reader.readAll ⟨.between, ts⟩ (blanks ++ rest) = Reader.readAll ⟨.between, ts⟩ rest := by
  induction blanks with
  | nil => rfl
  | cons c blanks ih =>
    obtain ⟨hc, hblanks⟩ := List.forall_mem_cons.1 h
    rw [List.cons_append, Reader.readAll_cons]
    have hstep : Reader.step ⟨.between, ts⟩ c = some ⟨.between, ts⟩ := if_pos hc
    rw [hstep]
    exact ih hblanks

/-- Blanks before a delimited text are delimited. -/
theorem Delimited.blanks {blanks : List Char} (h : Blank blanks) (hrest : Delimited rest) :
    Delimited (blanks ++ rest) := by
  cases blanks with
  | nil => exact hrest
  | cons c blanks =>
    refine delimited_cons ?_ _
    rcases h c List.mem_cons_self with rfl | rfl | rfl | rfl <;> decide

theorem punctuation_cases {c : Char} {token : Token} (h : punctuation c = some token) :
    c = '\x7b' ∨ c = '\x7d' ∨ c = '[' ∨ c = ']' ∨ c = ':' ∨ c = ',' := by
  unfold punctuation at h
  split at h <;> simp_all

/-- A mark is a token of its own. -/
theorem readAll_mark {c : Char} {token : Token} (h : punctuation c = some token) :
    Reader.readAll ⟨.between, ts⟩ (c :: rest) = Reader.readAll ⟨.between, token :: ts⟩ rest := by
  have hstep : Reader.step ⟨.between, ts⟩ c = some ⟨.between, token :: ts⟩ := by
    show Reader.begin ts c = _
    unfold Reader.begin
    rw [h]
    rcases punctuation_cases h with rfl | rfl | rfl | rfl | rfl | rfl <;> rfl
  rw [Reader.readAll_cons, hstep]
  rfl

theorem delimited_mark {c : Char} {token : Token} (h : punctuation c = some token) :
    Delimited (c :: rest) := by
  refine delimited_cons ?_ _
  rcases punctuation_cases h with rfl | rfl | rfl | rfl | rfl | rfl <;> decide

/-! ## Strings -/

/-- How a piece of a string can be written. -/
inductive Piece.Written : Piece → List Char → Prop where
  | plain {c : Char} (hquote : c ≠ '"') (hslash : c ≠ '\\') (hvisible : 0x20 ≤ c.toNat) :
      Written (.plain c) [c]
  | short {letter c : Char} (h : shortEscape letter = some c) : Written (.plain c) ['\\', letter]
  | unit {a b c d : Char} {i j k l : Nat} (ha : hexValue a = some i) (hb : hexValue b = some j)
      (hc : hexValue c = some k) (hd : hexValue d = some l) :
      Written (.unit (((i * 16 + j) * 16 + k) * 16 + l)) ['\\', 'u', a, b, c, d]

/-- How the pieces of a string can be written. -/
inductive WrittenPieces : List Piece → List Char → Prop where
  | nil : WrittenPieces [] []
  | cons {piece : Piece} {pieces : List Piece} {chars rest : List Char}
      (hpiece : piece.Written chars) (hpieces : WrittenPieces pieces rest) :
      WrittenPieces (piece :: pieces) (chars ++ rest)

/-- Inside a string a piece is read as such. -/
theorem readAll_piece {piece : Piece} {chars : List Char} (h : piece.Written chars)
    (pieces : List Piece) :
    Reader.readAll ⟨.text pieces, ts⟩ (chars ++ rest) =
      Reader.readAll ⟨.text (piece :: pieces), ts⟩ rest := by
  cases h with
  | plain hquote hslash hvisible =>
    simp [Reader.readAll_cons, Reader.step, hquote, hslash, Nat.not_lt_of_le hvisible]
  | @short letter c hletter =>
    have hne : letter ≠ 'u' := by
      rintro rfl
      cases hletter
    simp [Reader.readAll_cons, Reader.step, hletter, hne]
  | unit ha hb hc hd =>
    simp [Reader.readAll_cons, Reader.step, ha, hb, hc, hd]

/-- Pieces up to the closing quote are a string. -/
theorem readAll_pieces {pieces : List Piece} {chars : List Char} (h : WrittenPieces pieces chars)
    (before : List Piece) :
    Reader.readAll ⟨.text before, ts⟩ (chars ++ '"' :: rest) =
      Reader.readAll ⟨.between, .string (before.reverse ++ pieces) :: ts⟩ rest := by
  induction h generalizing before with
  | nil => simp [Reader.readAll_cons, Reader.step]
  | cons hpiece _ ih =>
    rw [List.append_assoc, readAll_piece hpiece, ih]
    simp

/-- A string in its quotes. -/
theorem readAll_string {pieces : List Piece} {chars : List Char} (h : WrittenPieces pieces chars) :
    Reader.readAll ⟨.between, ts⟩ ('"' :: (chars ++ '"' :: rest)) =
      Reader.readAll ⟨.between, .string pieces :: ts⟩ rest := by
  rw [Reader.readAll_cons]
  exact readAll_pieces h []

/-! ## Words and numerals -/

/-- A run goes on up to a delimited rest and is judged there. -/
theorem readAll_in_run {before run : List Char} {token : Token}
    (hrun : ∀ c ∈ run, isRunChar c = true) (hrest : Delimited rest)
    (htoken : Token.ofRun (before.reverse ++ run) = some token) :
    Reader.readAll ⟨.run before, ts⟩ (run ++ rest) =
      Reader.readAll ⟨.between, token :: ts⟩ rest := by
  induction run generalizing before with
  | nil =>
    rw [List.append_nil] at htoken
    cases rest with
    | nil => simp [Reader.readAll, Reader.finish, htoken]
    | cons c rest =>
      -- the character after the run ends it and is then read between tokens
      have hstop : isRunChar c = false := hrest c rfl
      rw [List.nil_append, Reader.readAll_cons, Reader.readAll_cons]
      simp [Reader.step, hstop, htoken]
  | cons c run ih =>
    obtain ⟨hc, hrun⟩ := List.forall_mem_cons.1 hrun
    rw [List.cons_append, Reader.readAll_cons]
    simp only [Reader.step, hc, if_true]
    exact ih hrun (by simpa using htoken)

/-- A word or a numeral before a delimited rest. -/
theorem readAll_run {run : List Char} {token : Token} (hrun : ∀ c ∈ run, isRunChar c = true)
    (hne : run ≠ []) (htoken : Token.ofRun run = some token) (hrest : Delimited rest) :
    Reader.readAll ⟨.between, ts⟩ (run ++ rest) = Reader.readAll ⟨.between, token :: ts⟩ rest := by
  cases run with
  | nil => exact absurd rfl hne
  | cons c run =>
    obtain ⟨hc, hrun⟩ := List.forall_mem_cons.1 hrun
    have hblank : ¬ (c = ' ' ∨ c = '\t' ∨ c = '\n' ∨ c = '\r') := by
      rintro (rfl | rfl | rfl | rfl) <;> revert hc <;> decide
    have hquote : c ≠ '"' := by
      rintro rfl
      revert hc
      decide
    have hstep : Reader.step ⟨.between, ts⟩ c = some ⟨.run [c], ts⟩ := by
      show Reader.begin ts c = _
      unfold Reader.begin
      rw [if_neg hblank, if_neg hquote, if_pos hc]
    rw [List.cons_append, Reader.readAll_cons, hstep]
    exact readAll_in_run hrun hrest htoken

/-- Digits, at least one. -/
def Digits (text : List Char) : Prop :=
  text ≠ [] ∧ ∀ c ∈ text, c.isDigit = true

/-- What may follow the whole part: nothing, or a point and digits. -/
inductive Fraction : List Char → Prop where
  | absent : Fraction []
  | digits {text : List Char} (h : Digits text) : Fraction ('.' :: text)

/-- What may stand at the end: nothing, or a mark, perhaps a sign, and digits. -/
inductive Exponent : List Char → Prop where
  | absent : Exponent []
  | unsigned {mark : Char} {text : List Char} (hmark : mark = 'e' ∨ mark = 'E') (h : Digits text) :
      Exponent (mark :: text)
  | signed {mark sign : Char} {text : List Char} (hmark : mark = 'e' ∨ mark = 'E')
      (hsign : sign = '+' ∨ sign = '-') (h : Digits text) : Exponent (mark :: sign :: text)

/-- How a numeral can be written.  A whole part has no leading zeros, so a plain number has one
form only. -/
inductive Numeral.Written : Numeral → List Char → Prop where
  | natural (n : Nat) : Written (.natural n) (Nat.toDigits 10 n)
  | other {sign fraction exponent : List Char} (n : Nat) (hsign : sign = [] ∨ sign = ['-'])
      (hfraction : Fraction fraction) (hexponent : Exponent exponent)
      (hother : ¬ (sign = [] ∧ fraction = [] ∧ exponent = [])) :
      Written (.other (sign ++ (Nat.toDigits 10 n ++ (fraction ++ exponent))))
        (sign ++ (Nat.toDigits 10 n ++ (fraction ++ exponent)))

theorem isDigit_toDigits {n : Nat} {c : Char} (h : c ∈ Nat.toDigits 10 n) : c.isDigit = true :=
  Nat.isDigit_of_mem_toDigits (by decide) (by decide) h

/-- The digits of a number that is not zero do not start with a zero. -/
theorem toDigits_pos {n : Nat} (hn : 0 < n) :
    ∃ c cs, Nat.toDigits 10 n = c :: cs ∧ c ≠ '0' := by
  induction n using Nat.strong_induction_on with
  | _ n ih =>
    rw [Nat.toDigits_eq_if (by decide)]
    split
    · next hlt =>
      refine ⟨n.digitChar, [], rfl, ?_⟩
      interval_cases n <;> decide
    · obtain ⟨c, cs, hdigits, hc⟩ := ih (n / 10) (by omega) (by omega)
      exact ⟨c, cs ++ [(n % 10).digitChar], by rw [hdigits]; rfl, hc⟩

theorem isWhole_toDigits (n : Nat) : isWhole (Nat.toDigits 10 n) = true := by
  rcases Nat.eq_zero_or_pos n with rfl | hn
  · decide
  · obtain ⟨c, cs, hdigits, hc⟩ := toDigits_pos hn
    have hall : (Nat.toDigits 10 n).all Char.isDigit = true :=
      List.all_eq_true.2 fun c hc => isDigit_toDigits hc
    rw [hdigits] at hall ⊢
    unfold isWhole
    split <;> simp_all

theorem naturalOf_toDigits (n : Nat) : naturalOf (Nat.toDigits 10 n) = n := by
  have hvalue : Nat.ofDigitChars 10 (Nat.toDigits 10 n) 0 = n := Nat.ofDigitChars_ten_toDigits
  rw [Nat.ofDigitChars_eq_foldl] at hvalue
  unfold naturalOf
  simpa only [Nat.mul_comm] using hvalue

/-! ## Numerals of the grammar -/

/-- No digit comes first. -/
def NoDigitFirst (text : List Char) : Prop :=
  ∀ c ∈ text.head?, c.isDigit = false

/-- Digits end where no digit comes first. -/
theorem span_digits {text rest : List Char} (htext : ∀ c ∈ text, c.isDigit = true)
    (hrest : NoDigitFirst rest) :
    (text ++ rest).takeWhile Char.isDigit = text ∧
      (text ++ rest).dropWhile Char.isDigit = rest := by
  rw [List.takeWhile_append_of_pos htext, List.dropWhile_append_of_pos htext]
  cases rest with
  | nil => simp
  | cons c rest => simp [hrest c rfl]

theorem Exponent.noDigitFirst {text : List Char} (h : Exponent text) : NoDigitFirst text := by
  intro c hc
  cases h with
  | absent => cases hc
  | unsigned hmark _ =>
    obtain rfl := Option.some.inj hc
    rcases hmark with rfl | rfl <;> decide
  | signed hmark _ _ =>
    obtain rfl := Option.some.inj hc
    rcases hmark with rfl | rfl <;> decide

theorem Exponent.isExponent_eq {text : List Char} (h : Exponent text) (hne : text ≠ []) :
    isExponent text = true := by
  cases h with
  | absent => exact absurd rfl hne
  | @unsigned mark text hmark h =>
    obtain ⟨hsome, hall⟩ := h
    cases text with
    | nil => exact absurd rfl hsome
    | cons c text =>
      obtain ⟨hc, hrest⟩ := List.forall_mem_cons.1 hall
      have hnosign : (c == '+' || c == '-') = false := by
        rw [Bool.or_eq_false_iff, beq_eq_false_iff_ne, beq_eq_false_iff_ne]
        constructor <;> rintro rfl <;> revert hc <;> decide
      have hmark' : (mark == 'e' || mark == 'E') = true := by simpa using hmark
      simp only [isExponent, hmark', hnosign, hc, List.all_eq_true.2 hrest, Bool.true_and,
        Bool.false_eq_true, if_false]
  | @signed mark sign text hmark hsign h =>
    obtain ⟨hsome, hall⟩ := h
    have hmark' : (mark == 'e' || mark == 'E') = true := by simpa using hmark
    have hsign' : (sign == '+' || sign == '-') = true := by simpa using hsign
    simp only [isExponent, hmark', hsign', List.all_eq_true.2 hall, Bool.true_and, if_true,
      Bool.and_true, Bool.not_eq_true', List.isEmpty_eq_false_iff]
    exact hsome

/-- A fraction and an exponent, either of which may be absent, may follow a whole part. -/
theorem isTail_append {fraction exponent : List Char} (hfraction : Fraction fraction)
    (hexponent : Exponent exponent) : isTail (fraction ++ exponent) = true := by
  cases hfraction with
  | absent =>
    rw [List.nil_append]
    by_cases hne : exponent = []
    · rw [hne]
      rfl
    · have hmark := hexponent.isExponent_eq hne
      unfold isTail
      split
      · rfl
      · next rest =>
        -- an exponent does not start with a point
        cases rest <;> cases hmark
      · exact hmark
  | digits h =>
    obtain ⟨htake, hdrop⟩ := span_digits h.2 hexponent.noDigitFirst
    simp only [List.cons_append, isTail, htake, hdrop, Bool.and_eq_true, Bool.not_eq_true',
      List.isEmpty_eq_false_iff, Bool.or_eq_true, List.isEmpty_iff]
    refine ⟨h.1, ?_⟩
    by_cases hne : exponent = []
    · exact Or.inl hne
    · exact Or.inr (hexponent.isExponent_eq hne)

theorem noDigitFirst_append {fraction exponent : List Char} (hfraction : Fraction fraction)
    (hexponent : Exponent exponent) : NoDigitFirst (fraction ++ exponent) := by
  cases hfraction with
  | absent => exact hexponent.noDigitFirst
  | digits _ =>
    intro c hc
    obtain rfl := Option.some.inj hc
    decide

theorem ofRun_minus (rest : List Char) :
    Numeral.ofRun ('-' :: rest) =
      if isWhole (rest.takeWhile Char.isDigit) && isTail (rest.dropWhile Char.isDigit) then
        some (.other ('-' :: rest))
      else none := by
  simp [Numeral.ofRun]

theorem ofRun_cons {c : Char} (hc : c ≠ '-') (rest : List Char) :
    Numeral.ofRun (c :: rest) =
      if isWhole ((c :: rest).takeWhile Char.isDigit) &&
          isTail ((c :: rest).dropWhile Char.isDigit) then
        if (c :: rest).all Char.isDigit then some (.natural (naturalOf (c :: rest)))
        else some (.other (c :: rest))
      else none := by
  unfold Numeral.ofRun
  split
  · next heq => exact absurd (List.cons.inj heq).1 hc
  · rfl

/-- A whole part and what may follow it are a numeral, a plain number if nothing follows. -/
theorem ofRun_whole (n : Nat) {tail : List Char} (hfirst : NoDigitFirst tail)
    (htail : isTail tail = true) :
    Numeral.ofRun (Nat.toDigits 10 n ++ tail) =
      if tail = [] then some (.natural n) else some (.other (Nat.toDigits 10 n ++ tail)) := by
  obtain ⟨htake, hdrop⟩ := span_digits (fun c hc => isDigit_toDigits (n := n) hc) hfirst
  have hwhole := isWhole_toDigits n
  have hvalue := naturalOf_toDigits n
  cases hdigits : Nat.toDigits 10 n with
  | nil => exact absurd hdigits Nat.toDigits_ne_nil
  | cons c cs =>
    have hall : ∀ d ∈ c :: cs, d.isDigit = true := fun d hd => isDigit_toDigits (hdigits ▸ hd)
    have hne : c ≠ '-' := by
      rintro rfl
      exact absurd (hall '-' List.mem_cons_self) (by decide)
    rw [hdigits] at htake hdrop hwhole hvalue
    rw [List.cons_append] at htake hdrop ⊢
    rw [ofRun_cons hne, htake, hdrop, hwhole, htail]
    simp only [Bool.and_self, if_true]
    cases tail with
    | nil =>
      rw [List.append_nil, hvalue, if_pos (List.all_eq_true.2 hall), if_pos rfl]
    | cons d tail =>
      have hd : d.isDigit = false := hfirst d rfl
      simp [hd]

/-- Every numeral of the grammar is recognised. -/
theorem Numeral.Written.ofRun_eq {numeral : Numeral} {run : List Char}
    (h : numeral.Written run) : Numeral.ofRun run = some numeral := by
  cases h with
  | natural n =>
    have hfirst : NoDigitFirst [] := by simp [NoDigitFirst]
    simpa using ofRun_whole n hfirst rfl
  | other n hsign hfraction hexponent hother =>
    have hfirst := noDigitFirst_append hfraction hexponent
    have htail := isTail_append hfraction hexponent
    rcases hsign with rfl | rfl
    · rw [List.nil_append, ofRun_whole n hfirst htail, if_neg]
      intro hnone
      exact hother ⟨rfl, List.append_eq_nil_iff.1 hnone⟩
    · obtain ⟨htake, hdrop⟩ := span_digits (fun c hc => isDigit_toDigits (n := n) hc) hfirst
      rw [List.singleton_append, ofRun_minus, htake, hdrop, isWhole_toDigits, htail]
      rfl

theorem isRunChar_of_isDigit {c : Char} (h : c.isDigit = true) : isRunChar c = true := by
  simp [isRunChar, Char.isAlphanum, h]

theorem Fraction.isRunChar {text : List Char} (h : Fraction text) :
    ∀ c ∈ text, isRunChar c = true := by
  cases h with
  | absent => simp
  | digits h => exact List.forall_mem_cons.2 ⟨rfl, fun c hc => isRunChar_of_isDigit (h.2 c hc)⟩

theorem Exponent.isRunChar {text : List Char} (h : Exponent text) :
    ∀ c ∈ text, isRunChar c = true := by
  cases h with
  | absent => simp
  | unsigned hmark h =>
    refine List.forall_mem_cons.2 ⟨?_, fun c hc => isRunChar_of_isDigit (h.2 c hc)⟩
    rcases hmark with rfl | rfl <;> decide
  | signed hmark hsign h =>
    refine List.forall_mem_cons.2 ⟨?_, List.forall_mem_cons.2
      ⟨?_, fun c hc => isRunChar_of_isDigit (h.2 c hc)⟩⟩
    · rcases hmark with rfl | rfl <;> decide
    · rcases hsign with rfl | rfl <;> decide

theorem Numeral.Written.isRunChar {numeral : Numeral} {run : List Char} (h : numeral.Written run) :
    ∀ c ∈ run, isRunChar c = true := by
  cases h with
  | natural n => exact fun c hc => isRunChar_of_isDigit (isDigit_toDigits hc)
  | other n hsign hfraction hexponent _ =>
    intro c hc
    rcases List.mem_append.1 hc with hc | hc
    · rcases hsign with rfl | rfl
      · cases hc
      · rw [List.mem_singleton.1 hc]
        rfl
    · rcases List.mem_append.1 hc with hc | hc
      · exact isRunChar_of_isDigit (isDigit_toDigits hc)
      · rcases List.mem_append.1 hc with hc | hc
        · exact hfraction.isRunChar c hc
        · exact hexponent.isRunChar c hc

/-- A numeral before a delimited rest. -/
theorem readAll_numeral {numeral : Numeral} {run : List Char} (h : numeral.Written run)
    (hrest : Delimited rest) :
    Reader.readAll ⟨.between, ts⟩ (run ++ rest) =
      Reader.readAll ⟨.between, .numeral numeral :: ts⟩ rest := by
  have hnumeral := h.ofRun_eq
  -- none of the three words is a numeral, and neither is the empty run
  have hword : ∀ word, Numeral.ofRun word = none → run ≠ word := by
    rintro word hword rfl
    rw [hnumeral] at hword
    cases hword
  refine readAll_run h.isRunChar (hword [] rfl) ?_ hrest
  unfold Token.ofRun
  rw [if_neg (hword _ (by decide)), if_neg (hword _ (by decide)), if_neg (hword _ (by decide)),
    hnumeral]
  rfl

end TaskLoom.Json
