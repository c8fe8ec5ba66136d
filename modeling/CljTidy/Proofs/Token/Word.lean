/-
  Words, and what is left of a word in front of a dot.

  A word is a run of word characters behind a first one that no other reader takes; one that starts
  like a number has to be a number, and a keyword has to name something (`Piece.whole_word_iff`).

  The crux is the numbers: a number has at most one dot, right behind its leading digits
  (`Numeral.dot_not_mem_tail`).  So what stands in front of a dot of a word is a word
  (`Piece.Whole.before_dot`), unless it is empty or a keyword.  What stands behind the dot need not
  be one: its first character is read like any first character.
-/
import CljTidy.Proofs.Token.Piece
import Mathlib.Data.List.Basic

namespace CljTidy

open Character

/-! ## Numbers with a dot -/

namespace Numeral

/-- A run of characters of a class without the dot has no dot. -/
theorem dot_not_mem_of_all {p : Char → Bool} (hp : p '.' = false) {cs : List Char}
    (h : ∀ c ∈ cs, p c = true) : '.' ∉ cs := by
  intro hmem
  rw [h '.' hmem] at hp
  cases hp

theorem dot_not_mem_takeWhile {p : Char → Bool} (hp : p '.' = false) (cs : List Char) :
    '.' ∉ cs.takeWhile p :=
  dot_not_mem_of_all hp (List.all_eq_true.mp List.all_takeWhile)

/-- The letter behind a whole number is no dot. -/
theorem dot_not_mem_of_isBigSuffix {cs : List Char} (h : isBigSuffix cs = true) : '.' ∉ cs := by
  unfold isBigSuffix at h
  split at h
  · simp
  · decide
  · cases h

/-- A run of digits and what may follow it hold no dot if the latter does not. -/
theorem dot_not_mem_of_dropWhile {p : Char → Bool} (hp : p '.' = false) {cs : List Char}
    (h : '.' ∉ cs.dropWhile p) : '.' ∉ cs := by
  rw [← List.takeWhile_append_dropWhile (p := p) (l := cs), List.mem_append]
  exact not_or.mpr ⟨dot_not_mem_takeWhile hp cs, h⟩

/-- Dropping a sign loses no dot. -/
theorem dot_mem_unsigned {cs : List Char} (h : '.' ∈ cs) : '.' ∈ unsigned cs := by
  unfold unsigned
  split
  · exact (List.mem_cons.mp h).resolve_left (by decide)
  · exact (List.mem_cons.mp h).resolve_left (by decide)
  · exact h

/-- An exponent has no dot, in its digits or behind them. -/
theorem dot_not_mem_of_isExponentTail {cs : List Char} (h : isExponentTail cs = true) :
    '.' ∉ cs := by
  have hexponent : ∀ rest, isExponentTail.exponent rest = true → '.' ∉ rest := by
    intro rest hrest hmem
    simp only [isExponentTail.exponent, Bool.and_eq_true] at hrest
    exact dot_not_mem_of_dropWhile (by decide) (dot_not_mem_of_isBigSuffix hrest.2)
      (dot_mem_unsigned hmem)
  unfold isExponentTail at h
  split at h
  · exact List.not_mem_cons_of_ne_of_not_mem (by decide) (hexponent _ h)
  · exact List.not_mem_cons_of_ne_of_not_mem (by decide) (hexponent _ h)
  · exact dot_not_mem_of_isBigSuffix h

theorem dot_not_mem_of_isHexTail {cs : List Char} (h : isHexTail cs = true) : '.' ∉ cs := by
  simp only [isHexTail, Bool.and_eq_true, Bool.or_eq_true, beq_iff_eq] at h
  refine dot_not_mem_of_dropWhile (p := isHex) (by decide) ?_
  rcases h.2 with h | h <;> rw [h] <;> decide

/-- Behind the first character that follows the leading digits, a number holds no dot. -/
theorem dot_not_mem_tail {digits cs : List Char} (h : isTail digits cs = true) :
    '.' ∉ cs.tail := by
  have hrun : ∀ {p : Char → Bool} {rest : List Char}, p '.' = false → isRun p rest = true →
      '.' ∉ rest := by
    intro p rest hp hrest
    simp only [isRun, Bool.and_eq_true] at hrest
    exact dot_not_mem_of_all hp (List.all_eq_true.mp hrest.2)
  unfold isTail at h
  split at h
  case h_1 => simp
  case h_2 => exact hrun (by decide) h
  case h_3 => exact hrun (by decide) h
  case h_4 => exact hrun (by decide) h
  case h_5 => exact dot_not_mem_of_isHexTail (Bool.and_eq_true_iff.mp h).2
  case h_6 => exact dot_not_mem_of_isHexTail (Bool.and_eq_true_iff.mp h).2
  case h_7 => exact dot_not_mem_of_dropWhile (by decide) (dot_not_mem_of_isExponentTail h)
  case h_8 => exact fun hmem => dot_not_mem_of_isExponentTail h (List.mem_of_mem_tail hmem)

/-- The sign stands in front, whatever is added behind. -/
theorem unsigned_append {front : List Char} (h : front ≠ []) (back : List Char) :
    unsigned (front ++ back) = unsigned front ++ back := by
  obtain ⟨c, cs, rfl⟩ := List.exists_cons_of_ne_nil h
  by_cases hplus : c = '+'
  · subst hplus; rfl
  by_cases hminus : c = '-'
  · subst hminus; rfl
  have hsame : ∀ rest, unsigned (c :: rest) = c :: rest := by
    intro rest
    unfold unsigned
    split
    · rename_i heq; exact absurd (List.cons.inj heq).1 hplus
    · rename_i heq; exact absurd (List.cons.inj heq).1 hminus
    · rfl
  rw [List.cons_append, hsame, hsame, List.cons_append]

/-- What stands in front of a dot of a number are digits, with or without a sign. -/
theorem isNumber_of_append {front back : List Char} (h : isNumber (front ++ '.' :: back) = true)
    (hne : front ≠ []) : isNumber front = true := by
  simp only [isNumber, unsigned_append hne, Bool.and_eq_true, Bool.not_eq_true'] at h
  obtain ⟨hdigits, htail⟩ := h
  generalize hnumber : unsigned front ++ '.' :: back = number at hdigits htail
  have hsplit := List.takeWhile_append_dropWhile (p := isDecimal) (l := number)
  have hclear := dot_not_mem_tail htail
  have hnodot := dot_not_mem_takeWhile (p := isDecimal) (by decide) number
  have hmem : '.' ∈ number.dropWhile isDecimal := by
    have hdot : '.' ∈ number := by simp [← hnumber]
    rw [← hsplit, List.mem_append] at hdot
    exact hdot.resolve_left hnodot
  have hfront : unsigned front = number.takeWhile isDecimal := by
    -- The dot is not among the digits, so it is the first character behind them.
    cases hdrop : number.dropWhile isDecimal with
    | nil => rw [hdrop] at hmem; cases hmem
    | cons c cs =>
      rw [hdrop] at hmem hclear hsplit
      rw [← hsplit] at hnumber
      exact ((List.append_cons_inj_of_notMem hnodot hclear).mp hnumber.symm).1.symm
  have hall : ∀ c ∈ unsigned front, isDecimal c = true := by
    rw [hfront]
    exact List.all_eq_true.mp List.all_takeWhile
  have hnone : ∀ c ∈ ([] : List Char).head?, isDecimal c = false := by rintro c ⟨⟩
  have hspan := Lexeme.span_of_all hall hnone
  rw [List.append_nil] at hspan
  have hempty : (unsigned front).isEmpty = false := by rw [hfront]; exact hdigits
  simp only [isNumber, hspan.1, hspan.2, hempty]
  rfl

/-- What starts like a number still does with more behind it. -/
theorem startsNumber_append {front : List Char} (h : startsNumber front = true)
    (back : List Char) : startsNumber (front ++ back) = true := by
  cases front with
  | nil => cases h
  | cons c cs =>
    cases cs with
    | nil =>
      simp only [startsNumber, List.head?_nil, Option.map_none, Option.getD_none, Bool.and_false,
        Bool.or_false] at h
      simp [startsNumber, h]
    | cons d ds => exact h

end Numeral

/-! ## Words -/

namespace Lexeme

/-- The token of a lexeme, if there is one, is of another kind. -/
def IsNot (kind : TokenKind) (l : Lexeme) : Prop := ∀ value, l.outcome ≠ .ok (kind, value)

/-- A reader of quoted text reads no word. -/
theorem isNot_word_quoted {kind : TokenKind} (hkind : kind ≠ .word) (front cs : List Char) :
    (quoted kind front cs).IsNot .word := by
  cases cs with
  | nil => rintro value ⟨⟩
  | cons c cs =>
    simp only [quoted]
    split
    · intro value h
      exact hkind (Prod.mk.inj (Except.ok.inj h)).1
    · rintro value ⟨⟩

/-- Nothing behind a `#` is read as a word. -/
theorem isNot_word_dispatch (cs : List Char) : (dispatch cs).IsNot .word := by
  unfold dispatch
  split
  case h_7 => exact isNot_word_quoted (by decide) _ _
  case h_8 => unfold conditional; split <;> rintro value ⟨⟩
  case h_9 => simp only [symbolic]; split <;> rintro value ⟨⟩
  case h_11 => split <;> rintro value ⟨⟩
  all_goals rintro value ⟨⟩

/-- Only the reader of words reads words. -/
theorem reader_of_word {c : Char} {cs : List Char} {value : String}
    (h : (read c cs).outcome = .ok (.word, value)) : reader c = word := by
  have hrun : ∀ {kind : TokenKind} {p : Char → Bool}, kind ≠ .word →
      (run kind p (c :: cs)).IsNot .word := fun hkind value hword =>
    hkind (Prod.mk.inj (Except.ok.inj hword)).1
  have hreader : (reader c (c :: cs)).IsNot .word ∨ reader c = word := by
    refine reader_induction (fun r => (r (c :: cs)).IsNot .word ∨ r = word) c
      (fun _ => .inl ?newline) (fun _ => .inl (hrun (by decide)))
      (fun _ => .inl (hrun (by decide))) (fun _ => .inl (hrun (by decide)))
      (fun _ => .inl ?delimiter) (fun _ => .inl (isNot_word_quoted (by decide) _ _))
      (fun _ => .inl ?character) (fun _ => .inl (isNot_word_dispatch _)) (fun _ => .inl ?unquote)
      (fun d kind hkind _ => .inl ?single) (.inr rfl)
    case newline => unfold newline; split <;> rintro value ⟨⟩
    case delimiter => unfold delimiter; split <;> rintro value ⟨⟩
    case character =>
      unfold character
      split
      · rintro value ⟨⟩
      · rintro value ⟨⟩
      · split <;> rintro value ⟨⟩
    case unquote => unfold unquote; split <;> rintro value ⟨⟩
    case single =>
      intro value hword
      have hkind' : kind = .word := (Prod.mk.inj (Except.ok.inj hword)).1
      subst hkind'
      simp [singles] at hkind
  exact hreader.resolve_left fun hnot => hnot value h

end Lexeme

namespace Lexeme

theorem taken_word (cs : List Char) : (word cs).taken = cs.takeWhile isTokenChar := by
  simp only [word]
  repeat' split
  all_goals rfl

end Lexeme

namespace Piece

/-- **What a word is.**  Word characters behind a first one that no other reader takes; a number if
    it starts like one, and no keyword that names nothing. -/
theorem whole_word_iff {text : String} :
    Whole ⟨.word, text⟩ ↔ ∃ c cs, text.toList = c :: cs ∧ Lexeme.reader c = Lexeme.word ∧
      (∀ d ∈ c :: cs, isTokenChar d = true) ∧
      (Numeral.startsNumber (c :: cs) = true → Numeral.isNumber (c :: cs) = true) ∧
      Lexeme.isBadKeyword (c :: cs) = false := by
  constructor
  · rintro ⟨c, cs, htext, hread⟩
    have hword := hread [] (clearOf_nil _)
    rw [List.append_nil] at hword
    have hreader : Lexeme.reader c = Lexeme.word :=
      Lexeme.reader_of_word (congrArg Lexeme.outcome hword)
    rw [Lexeme.read, hreader] at hword
    -- It is read to its end, so all its characters can stand in words.
    have htaken : (c :: cs).takeWhile isTokenChar = c :: cs := by
      rw [← Lexeme.taken_word, hword]
      rfl
    have hall := List.all_eq_true.mp (List.all_takeWhile (p := isTokenChar) (l := c :: cs))
    rw [htaken] at hall
    refine ⟨c, cs, htext, hreader, hall, ?_⟩
    -- No fault was found on the way: these are the last two conditions.
    have hok := congrArg Lexeme.outcome hword
    simp only [Lexeme.word, htaken] at hok
    split at hok
    · cases hok
    split at hok
    · cases hok
    rename_i hformed
    split at hok
    · cases hok
    rename_i hkeyword
    exact ⟨fun hstarts => by simpa [hstarts] using hformed, by simpa using hkeyword⟩
  · rintro ⟨c, cs, htext, hreader, hall, hnumber, hkeyword⟩
    refine ⟨c, cs, htext, fun rest hrest => ?_⟩
    -- The word ends where it did, whatever follows that cannot stand in it.
    have hspan := Lexeme.span_of_all hall hrest
    have hformed : (Numeral.startsNumber (c :: cs) && !Numeral.isNumber (c :: cs)) = false := by
      cases hstarts : Numeral.startsNumber (c :: cs) with
      | false => rfl
      | true => rw [hnumber hstarts]; rfl
    rw [Lexeme.read, hreader, ← List.cons_append]
    simp only [Lexeme.word, hspan.1, hspan.2, hformed, hkeyword]
    rfl

/-- **In front of a dot.**  What stands in front of a dot of a word is a word, if it is not empty
    and no keyword. -/
theorem Whole.before_dot {front back : String} (h : Whole ⟨.word, front ++ "." ++ back⟩)
    (hfront : front ≠ "") (hcolon : front.toList.head? ≠ some ':') :
    Whole ⟨.word, front⟩ := by
  obtain ⟨c, cs, htext, hreader, hall, hnumber, -⟩ := whole_word_iff.mp h
  obtain ⟨d, ds, hchars⟩ : ∃ d ds, front.toList = d :: ds :=
    List.exists_cons_of_ne_nil fun hnil => hfront (String.toList_inj.mp hnil)
  have hword : (c :: cs) = (d :: ds) ++ '.' :: back.toList := by
    rw [← htext, ← hchars]
    simp [String.toList_append]
  obtain rfl : c = d := (List.cons.inj hword).1
  rw [hword] at hall hnumber
  refine whole_word_iff.mpr ⟨c, ds, hchars, hreader,
    fun e he => hall e (List.mem_append_left _ he), fun hstarts => ?_, ?_⟩
  · exact Numeral.isNumber_of_append (hnumber (Numeral.startsNumber_append hstarts _))
      (List.cons_ne_nil _ _)
  · have hne : (c == ':') = false := beq_false_of_ne fun hc => hcolon (by rw [hchars, hc]; rfl)
    simp [Lexeme.isBadKeyword, hne]

end Piece

end CljTidy
