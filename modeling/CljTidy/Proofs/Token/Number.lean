/-
  Numbers are words.

  A text of word characters that starts like a number, with a digit of any script, is read by the
  reader of words: no other one takes its first character, it goes on to the end, and it is no
  keyword (`Lexeme.read_of_startsNumber`).  So the grammar decides alone whether it is a token.  In
  turn the grammar has only characters that can stand in words (`within_number`) and starts with
  digits, and those of base ten are digits of a script (`numeric_of_number`): so every number is
  such a text.
-/
import CljTidy.Proofs.Token.Grammar
import CljTidy.Proofs.Token.Span
import Mathlib.Data.List.TakeWhile

namespace CljTidy

open Character

namespace Numeral

/-! ## Characters of a language -/

variable {l m : Language Char} {p : Char → Bool} {s : List Char} {c : Char}

/-- The texts of the language have only characters of the class. -/
def Within (p : Char → Bool) (l : Language Char) : Prop := ∀ cs ∈ l, ∀ c ∈ cs, p c = true

namespace Within

/-- Single characters are of the class if all that can be chosen are. -/
theorem oneOf (h : s.all p = true) : Within p (oneOf s) := by
  rintro cs ⟨c, hc, rfl⟩ d hd
  rw [List.mem_singleton.mp hd]
  exact List.all_eq_true.mp h c hc

/-- Runs of a narrower class are within a wider one. -/
theorem runs {q : Char → Bool} (h : ∀ c, q c = true → p c = true) : Within p (runs q) :=
  fun _ hcs c hc => h c (hcs.2 c hc)

theorem add (hl : Within p l) (hm : Within p m) : Within p (l + m) :=
  fun cs hcs => hcs.elim (hl cs) (hm cs)

/-- A text in two parts is of the class if both parts are. -/
theorem mul (hl : Within p l) (hm : Within p m) : Within p (l * m) := by
  rintro cs ⟨front, hfront, rest, hrest, rfl⟩ c hc
  exact (List.mem_append.mp hc).elim (hl front hfront c) (hm rest hrest c)

theorem optional (hl : Within p l) : Within p (optional l) := by
  rintro cs (rfl | hcs)
  · rintro c ⟨⟩
  · exact hl cs hcs

end Within

/-- Letters and digits can stand in words. -/
theorem isTokenChar_of_isAlphanum (h : c.isAlphanum = true) : isTokenChar c = true := by
  let ranges : Ranges := [(48, 57), (65, 90), (97, 122)]
  have hapart : ranges.apart spaceRanges = true ∧ ranges.apart stopRanges = true := by decide
  refine isTokenChar_of_apart hapart.1 hapart.2 ?_
  rw [← isRadixDigit_eq] at h
  have hrange : ((48 ≤ c.toNat ∧ c.toNat ≤ 57) ∨ (65 ≤ c.toNat ∧ c.toNat ≤ 90)) ∨
      (97 ≤ c.toNat ∧ c.toNat ≤ 122) := by
    simpa [isRadixDigit, isDecimal, Char.le_def, UInt32.le_iff_toNat_le] using h
  simpa [ranges, Ranges.contains, or_assoc] using hrange

/-- Digits of base ten are digits of a script. -/
theorem isDigit_of_ascii (h : c.isDigit = true) : isDigit c = true := by
  rw [isDigit, Ranges.contains_iff]
  refine ⟨(48, 57), by simp [digitRanges], ?_⟩
  simpa [Char.isDigit, UInt32.le_iff_toNat_le] using h

theorem isAlphanum_of_isHexDigit (h : isHexDigit c = true) : c.isAlphanum = true := by
  rcases Bool.or_eq_true_iff.mp h with hc | hc
  · simp [Char.isAlphanum, hc]
  · have hletters : "ABCDEFabcdef".toList.all Char.isAlphanum = true := by decide
    exact List.all_eq_true.mp hletters c (of_decide_eq_true hc)

/-- The characters of a number can stand in words. -/
theorem within_number : Within isTokenChar number := by
  have hdigits : Within isTokenChar digits :=
    .runs fun c hc => isTokenChar_of_isAlphanum (by simp [Char.isAlphanum, hc])
  have hletters : Within isTokenChar (runs Char.isAlphanum) :=
    .runs fun _ => isTokenChar_of_isAlphanum
  have hhex : Within isTokenChar (runs isHexDigit) :=
    .runs fun _ hc => isTokenChar_of_isAlphanum (isAlphanum_of_isHexDigit hc)
  have hN : Within isTokenChar (oneOf ['N']) := .oneOf (by decide)
  have hM : Within isTokenChar (oneOf ['M']) := .oneOf (by decide)
  have hzero : Within isTokenChar (oneOf ['0']) := .oneOf (by decide)
  have hx : Within isTokenChar (oneOf ['x', 'X']) := .oneOf (by decide)
  have hr : Within isTokenChar (oneOf ['r', 'R']) := .oneOf (by decide)
  have hslash : Within isTokenChar (oneOf ['/']) := .oneOf (by decide)
  have hpoint : Within isTokenChar (oneOf ['.']) := .oneOf (by decide)
  have he : Within isTokenChar (oneOf ['e', 'E']) := .oneOf (by decide)
  have hplus : Within isTokenChar (oneOf ['+', '-']) := .oneOf (by decide)
  -- The alternatives in their order, each put together as the grammar does.
  have hsign : Within isTokenChar sign := hplus.optional
  have hhexadecimal : Within isTokenChar hexadecimal := ((hzero.mul hx).mul hhex).mul hN.optional
  have hradix : Within isTokenChar radix := (hdigits.mul hr).mul hletters
  have hratio : Within isTokenChar ratio := (hdigits.mul hslash).mul hdigits
  have hbig : Within isTokenChar bigInteger := hdigits.mul hN
  have hfraction : Within isTokenChar fraction := hpoint.mul hdigits.optional
  have hexponent : Within isTokenChar exponent := (he.mul hsign).mul hdigits
  have hdecimal : Within isTokenChar decimal :=
    ((hdigits.mul hfraction.optional).mul hexponent.optional).mul hM.optional
  exact hsign.mul ((((hhexadecimal.add hradix).add hratio).add hbig).add hdecimal)

/-- A number starts like one. -/
theorem numeric_of_number {cs : List Char} (h : cs ∈ number) : cs ∈ numeric := by
  rw [number_eq] at h
  obtain ⟨front, hfront, rest, hrest, rfl⟩ := h
  refine ⟨front, hfront, rest, ?_, rfl⟩
  obtain ⟨hne, -⟩ := mem_unsigned_iff.mp hrest
  cases rest with
  | nil => exact absurd rfl hne
  | cons c rest =>
    cases hc : c.isDigit with
    | false => exact absurd (List.takeWhile_cons_of_neg (by simp [hc])) hne
    | true => exact ⟨c, rfl, isDigit_of_ascii hc⟩

end Numeral

/-! ## Reading -/

namespace Lexeme

/-- What starts like a number starts with none of the marks, and is no keyword. -/
theorem ne_of_startsNumber {c : Char} {cs : List Char}
    (h : Numeral.startsNumber (c :: cs) = true) :
    ∀ d ∈ ['\\', '#', '~', '\x27', '\x60', '@', '^', ':'], c ≠ d := by
  rintro d hd rfl
  have hno : ['\\', '#', '~', '\x27', '\x60', '@', '^', ':'].any
      (fun d => isDigit d || d == '+' || d == '-') = false := by decide
  have hnone := Numeral.eq_false_of_mem hno hd
  simp only [Bool.or_eq_false_iff, beq_eq_false_iff_ne] at hnone
  obtain ⟨⟨hdigit, hplus⟩, hminus⟩ := hnone
  simp [Numeral.startsNumber, hdigit, hplus, hminus] at h

/-- No reader but that of words takes what starts like a number. -/
theorem reader_of_startsNumber {c : Char} {cs : List Char} (htoken : isTokenChar c = true)
    (h : Numeral.startsNumber (c :: cs) = true) : reader c = word := by
  have hblank := isBlank_of_isTokenChar htoken
  have hbreak : isLineBreak c = false := by
    refine Bool.eq_false_iff.mpr fun hline => ?_
    rw [isTokenChar_of_isLineBreak hline] at htoken
    cases htoken
  have hne := ne_of_startsNumber h
  simp only [List.forall_mem_cons] at hne
  simp only [isTokenChar, Bool.not_eq_true', Bool.or_eq_false_iff, beq_eq_false_iff_ne] at htoken
  obtain ⟨⟨⟨⟨-, hdelimiter⟩, hcomma⟩, hquote⟩, hsemicolon⟩ := htoken.1
  simp [reader, hbreak, hblank, hcomma, hsemicolon, hdelimiter, hquote, hne]

/-- What starts like a number is one word if it is a number, and no token otherwise. -/
theorem read_of_startsNumber {c : Char} {cs : List Char}
    (hall : ∀ d ∈ c :: cs, isTokenChar d = true) (h : Numeral.startsNumber (c :: cs) = true) :
    read c cs =
      if Numeral.isNumber (c :: cs) then spelling .word (c :: cs) []
      else failed (.invalidNumber (String.ofList (c :: cs))) (c :: cs) [] := by
  have hspan := @span_of_all _ _ [] hall (by rintro d ⟨⟩)
  rw [List.append_nil] at hspan
  have hkeyword : isBadKeyword (c :: cs) = false := by
    have hcolon : (c == ':') = false := beq_false_of_ne (ne_of_startsNumber h ':' (by decide))
    simp [isBadKeyword, hcolon]
  rw [read, reader_of_startsNumber (hall c List.mem_cons_self) h]
  simp only [word, hspan.1, hspan.2, h, hkeyword]
  cases Numeral.isNumber (c :: cs) <;> rfl

end Lexeme

/-! ## Whole texts -/

/-- The place behind a text without line feeds. -/
theorem Position.after_of_not_mem {text : List Char} (h : '\n' ∉ text) :
    Position.after {} text = ⟨1, text.length + 1⟩ := by
  have hall : text.reverse.takeWhile (· ≠ '\n') = text.reverse := by
    rw [List.takeWhile_eq_self_iff]
    intro c hc
    have hne : c ≠ '\n' := fun hline => h (hline ▸ List.mem_reverse.mp hc)
    simpa using hne
  rw [after_eq_behind, behind, hall, List.count_eq_zero.mpr h, List.length_reverse,
    Nat.add_comm 1 text.length]

/-- A text that is read as one word is that word. -/
theorem tokenize_word {v : String} {c : Char} {cs : List Char} (hv : v.toList = c :: cs)
    (hread : Lexeme.read c cs = .spelling .word (c :: cs) []) :
    tokenize v = .ok [⟨.word, some v, {}⟩, .atEnd (Position.after {} v.toList)] := by
  have hscan := Scan.from_of_ok (congrArg Lexeme.outcome hread) [] {}
  rw [hread, ← hv, String.ofList_toList] at hscan
  simp only [tokenize, hscan, Lexeme.spelling, Scan.from]

/-- A text whose first token cannot be read is refused at once. -/
theorem tokenize_failed {v : String} {c : Char} {cs taken rest : List Char} {fault : LexicalFault}
    (hv : v.toList = c :: cs) (hread : Lexeme.read c cs = .failed fault taken rest) :
    tokenize v = .error (fault.located {} taken) := by
  have hscan := Scan.from_of_error (congrArg Lexeme.outcome hread) [] {}
  rw [hread, ← hv] at hscan
  simp only [tokenize, hscan, Lexeme.failed]

namespace Numeral

/-- What starts like a number is not empty. -/
theorem exists_cons_of_numeric {cs : List Char} (h : cs ∈ numeric) : ∃ c rest, cs = c :: rest := by
  cases cs with
  | nil => cases startsNumber_iff.mpr h
  | cons c rest => exact ⟨c, rest, rfl⟩

/-- A number is one word. -/
theorem tokenize_of_number {v : String} (h : v.toList ∈ number) :
    tokenize v = .ok [⟨.word, some v, ⟨1, 1⟩⟩, .atEnd ⟨1, v.length + 1⟩] := by
  have hall := within_number _ h
  have hnumeric := numeric_of_number h
  obtain ⟨c, cs, hv⟩ := exists_cons_of_numeric hnumeric
  have hline : '\n' ∉ v.toList := fun hmem => absurd (hall '\n' hmem) (by decide)
  have hread := Lexeme.read_of_startsNumber (hv ▸ hall) (hv ▸ startsNumber_iff.mpr hnumeric)
  rw [if_pos (isNumber_iff.mpr (hv ▸ h))] at hread
  rw [tokenize_word hv hread, Position.after_of_not_mem hline, String.length_toList]

/-- What starts like a number and is none is refused. -/
theorem tokenize_of_not_number {v : String} (hall : ∀ c ∈ v.toList, isTokenChar c = true)
    (hnumeric : v.toList ∈ numeric) (h : v.toList ∉ number) :
    tokenize v = .error ⟨.lexical (.invalidNumber v), ⟨1, 1⟩⟩ := by
  obtain ⟨c, cs, hv⟩ := exists_cons_of_numeric hnumeric
  have hread := Lexeme.read_of_startsNumber (hv ▸ hall) (hv ▸ startsNumber_iff.mpr hnumeric)
  rw [if_neg fun hnumber => h (hv ▸ isNumber_iff.mp hnumber), ← hv, String.ofList_toList] at hread
  exact tokenize_failed hv hread

/-- How a refused number is worded, at the start of a text. -/
theorem message_invalidNumber (v : String) :
    (SyntaxError.mk (.lexical (.invalidNumber v)) ⟨1, 1⟩).message =
      "Invalid number '" ++ v ++ "' at 1:1" := by
  have hone : toString (1 : Nat) = "1" := rfl
  show "Invalid number '" ++ v ++ "'" ++ " at " ++ toString 1 ++ ":" ++ toString 1 = _
  rw [hone]
  simp only [String.append_assoc]
  rfl

/-- **Numbers.**  A text of word characters that starts like a number is one word exactly if the
    grammar has it, and refused as a number at its first character exactly if not; and whatever the
    grammar has is such a text. -/
theorem tokenize_number :
    (∀ v : String, (∀ c ∈ v.toList, isTokenChar c = true) → v.toList ∈ numeric →
      (tokenize v = .ok [⟨.word, some v, ⟨1, 1⟩⟩, .atEnd ⟨1, v.length + 1⟩] ↔
        v.toList ∈ number) ∧
      ((∃ e, tokenize v = .error e ∧ e.fault = .lexical (.invalidNumber v) ∧
          e.message = "Invalid number '" ++ v ++ "' at 1:1") ↔ v.toList ∉ number)) ∧
    ∀ v : String, v.toList ∈ number →
      (∀ c ∈ v.toList, isTokenChar c = true) ∧ v.toList ∈ numeric := by
  constructor
  · intro v hall hnumeric
    by_cases h : v.toList ∈ number
    · have hword := tokenize_of_number h
      refine ⟨iff_of_true hword h, iff_of_false ?_ (not_not_intro h)⟩
      rintro ⟨e, hfault, -⟩
      rw [hword] at hfault
      cases hfault
    · have hfault := tokenize_of_not_number hall hnumeric h
      refine ⟨iff_of_false ?_ h, iff_of_true ⟨_, hfault, rfl, message_invalidNumber v⟩ h⟩
      rw [hfault]
      rintro ⟨⟩
  · exact fun v h => ⟨within_number _ h, numeric_of_number h⟩

/-- A sign, a fraction without digits, an exponent and an `M`; and digits, the last of which is none
    of the grammar's. -/
theorem tokenize_number_digits :
    tokenize "-07.e+10M" = .ok [⟨.word, some "-07.e+10M", ⟨1, 1⟩⟩, .atEnd ⟨1, 10⟩] ∧
      ∃ e, tokenize "1²" = .error e ∧ e.fault = .lexical (.invalidNumber "1²") ∧
        e.message = "Invalid number '1²' at 1:1" := by
  have hdecimal : "-07.e+10M".toList ∈ number := isNumber_iff.mp (by decide)
  have hword : ∀ c ∈ "1²".toList, isTokenChar c = true := List.all_eq_true.mp (by decide)
  have hstart : "1²".toList ∈ numeric := startsNumber_iff.mp (by decide)
  have hnone : "1²".toList ∉ number := fun h => absurd (isNumber_iff.mpr h) (by decide)
  obtain ⟨hall, hnumeric⟩ := tokenize_number.2 "-07.e+10M" hdecimal
  exact ⟨(tokenize_number.1 _ hall hnumeric).1.mpr hdecimal,
    (tokenize_number.1 "1²" hword hstart).2.mpr hnone⟩

end Numeral

end CljTidy
