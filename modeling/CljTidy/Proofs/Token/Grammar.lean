/-
  Number literals are those of the grammar.

  1. **Program** — a number is read off once, from the left: a sign, the longest run of digits, and
     then whatever the character behind them asks for (`isNumber`).

  2. **Specification** — `number`, a language put together from sums and products.  Its
     alternatives overlap: a zero may start any of the five, and other digits any of four.

  3. **The crux** (`mem_runs_mul`) — where nothing behind a run starts in the class of the run, the
     run can only be the longest one.  So the four alternatives that start with digits are `digits`
     times what may follow them (`number_eq`), what follows is told apart by its first character
     (`cons_mem_tail`), and base sixteen is what may follow a zero that is all of the digits.

  4. **Correctness** (`isNumber_iff`) — the recogniser goes along the grammar, from the back: the
     end of a decimal, its exponent, what follows the digits, the digits, the sign.
-/
import CljTidy.Proofs.Token.Piece
import Mathlib.Computability.Language

namespace CljTidy.Numeral

open Character

/-! ## The grammar -/

/-- One of the characters. -/
def oneOf (s : List Char) : Language Char := {cs | ∃ c ∈ s, cs = [c]}

/-- One or more characters of a class. -/
def runs (p : Char → Bool) : Language Char := {cs | cs ≠ [] ∧ ∀ c ∈ cs, p c = true}

/-- A text of the language or nothing. -/
def optional (l : Language Char) : Language Char := 1 + l

/-- A digit in base sixteen, in either case. -/
def isHexDigit (c : Char) : Bool := c.isDigit || c ∈ "ABCDEFabcdef".toList

/-- A sign may stand in front of a number or an exponent. -/
def sign : Language Char := optional (oneOf ['+', '-'])

/-- Digits in base ten. -/
def digits : Language Char := runs Char.isDigit

/-- Integers in base sixteen. -/
def hexadecimal : Language Char :=
  oneOf ['0'] * oneOf ['x', 'X'] * runs isHexDigit * optional (oneOf ['N'])

/-- Integers that name their radix. -/
def radix : Language Char := digits * oneOf ['r', 'R'] * runs Char.isAlphanum

/-- Ratios. -/
def ratio : Language Char := digits * oneOf ['/'] * digits

/-- Big integers in base ten. -/
def bigInteger : Language Char := digits * oneOf ['N']

/-- A point, with or without digits behind it. -/
def fraction : Language Char := oneOf ['.'] * optional digits

/-- An exponent. -/
def exponent : Language Char := oneOf ['e', 'E'] * sign * digits

/-- Integers and decimals. -/
def decimal : Language Char :=
  digits * optional fraction * optional exponent * optional (oneOf ['M'])

/-- The number literals. -/
def number : Language Char := sign * (hexadecimal + radix + ratio + bigInteger + decimal)

/-- Texts that start in a class. -/
def opens (p : Char → Bool) : Language Char := {cs | ∃ c ∈ cs.head?, p c = true}

/-- What starts like a number: a digit of any script stands first, or right behind a sign. -/
def numeric : Language Char := sign * opens isDigit

/-! ## Classes of characters -/

/-- The classes of the recogniser are those of the library: -/
theorem isDecimal_eq : isDecimal = Char.isDigit := rfl

/-- ASCII letters and digits in a named radix, -/
theorem isRadixDigit_eq : isRadixDigit = Char.isAlphanum := by
  funext c
  have hupper : ('A' ≤ c && c ≤ 'Z') = c.isUpper := (Bool.decide_and ('A' ≤ c) (c ≤ 'Z')).symm
  show (isDecimal c || ('A' ≤ c && c ≤ 'Z') || c.isLower) = (c.isUpper || c.isLower || isDecimal c)
  rw [hupper, Bool.or_assoc, Bool.or_comm]

/-- and digits in base sixteen as the grammar has them. -/
theorem isHex_eq : isHex = isHexDigit := by
  funext c
  rw [Bool.eq_iff_iff]
  simp only [isHex, isHexDigit, isDecimal_eq, Bool.or_eq_true, Bool.and_eq_true, decide_eq_true_eq,
    or_assoc]
  refine or_congr Iff.rfl ?_
  simp [Char.le_def, Char.ext_iff, UInt32.le_iff_toNat_le, ← UInt32.toNat_inj]
  omega

/-! ## Words of sums and products -/

variable {l m : Language Char} {p : Char → Bool} {s : List Char} {c : Char} {cs : List Char}

/-- One of some characters is one character. -/
@[simp] theorem nil_mem_oneOf : [] ∉ oneOf s := by
  rintro ⟨c, _, h⟩
  cases h

@[simp] theorem cons_mem_oneOf : c :: cs ∈ oneOf s ↔ c ∈ s ∧ cs = [] := by
  constructor
  · rintro ⟨d, hd, h⟩
    obtain ⟨rfl, rfl⟩ := List.cons.inj h
    exact ⟨hd, rfl⟩
  · rintro ⟨hc, rfl⟩
    exact ⟨c, hc, rfl⟩

/-- A product that starts with a character is not empty. -/
@[simp] theorem nil_mem_oneOf_mul : [] ∉ oneOf s * l := by
  rintro ⟨front, hfront, rest, -, h⟩
  rw [(List.append_eq_nil_iff.mp h).1] at hfront
  exact nil_mem_oneOf hfront

/-- A character of a product is one of the characters or belongs to what follows. -/
@[simp] theorem cons_mem_oneOf_mul : c :: cs ∈ oneOf s * l ↔ c ∈ s ∧ cs ∈ l := by
  constructor
  · rintro ⟨_, ⟨d, hd, rfl⟩, rest, hrest, h⟩
    obtain ⟨rfl, rfl⟩ := List.cons.inj h
    exact ⟨hd, hrest⟩
  · rintro ⟨hc, hcs⟩
    exact ⟨[c], ⟨c, hc, rfl⟩, cs, hcs, rfl⟩

@[simp] theorem mem_optional : cs ∈ optional l ↔ cs = [] ∨ cs ∈ l := Iff.rfl

/-- An optional part is left out, or it stands in front. -/
@[simp] theorem mem_optional_mul : cs ∈ optional l * m ↔ cs ∈ m ∨ cs ∈ l * m := by
  rw [optional, add_mul, one_mul, Language.mem_add]

/-- No text of the language starts with a character of the class. -/
def Avoids (p : Char → Bool) (l : Language Char) : Prop := ∀ c cs, c :: cs ∈ l → p c = false

/-- The first character of a text, if it has one, is outside the class. -/
theorem Avoids.head (h : Avoids p l) (hcs : cs ∈ l) : ∀ c ∈ cs.head?, p c = false := by
  intro c hc
  obtain ⟨rest, rfl⟩ := List.head?_eq_some_iff.mp hc
  exact h c rest hcs

/-- None of the characters is in the class. -/
theorem eq_false_of_mem (h : s.any p = false) (hc : c ∈ s) : p c = false :=
  Bool.eq_false_iff.mpr (List.any_eq_false.mp h c hc)

/-- A product avoids a class if its first characters do, -/
theorem avoids_oneOf_mul (h : s.any p = false) : Avoids p (oneOf s * l) := by
  intro c cs hcs
  exact eq_false_of_mem h (cons_mem_oneOf_mul.mp hcs).1

/-- and so does an optional character. -/
theorem avoids_optional_oneOf (h : s.any p = false) : Avoids p (optional (oneOf s)) := by
  rintro c cs (hnil | hcs)
  · cases hnil
  · exact eq_false_of_mem h (cons_mem_oneOf.mp hcs).1

/-- **The crux.**  In front of what avoids a class, a run of the class is the longest one. -/
theorem mem_runs_mul (hl : Avoids p l) :
    cs ∈ runs p * l ↔ cs.takeWhile p ≠ [] ∧ cs.dropWhile p ∈ l := by
  constructor
  · rintro ⟨run, ⟨hne, hall⟩, rest, hrest, rfl⟩
    obtain ⟨htake, hdrop⟩ := Lexeme.span_of_all hall (hl.head hrest)
    simp only [htake, hdrop]
    exact ⟨hne, hrest⟩
  · rintro ⟨hne, hrest⟩
    exact ⟨_, ⟨hne, List.all_eq_true.mp List.all_takeWhile⟩, _, hrest,
      List.takeWhile_append_dropWhile⟩

/-- So dropping the longest run decides a product with an optional one. -/
theorem mem_optional_runs_mul (hl : Avoids p l) :
    cs ∈ optional (runs p) * l ↔ cs.dropWhile p ∈ l := by
  rw [mem_optional_mul, mem_runs_mul hl]
  cases cs with
  | nil => simp
  | cons c cs =>
    cases hc : p c with
    | true =>
      have hnot : c :: cs ∉ l := fun h => by simp [hl c cs h] at hc
      simp [hc, hnot]
    | false => simp [hc]

/-- What starts with neither of two characters starts with none of them. -/
theorem head_not_mem {a b : Char} (ha : ∀ rest, c :: cs = a :: rest → False)
    (hb : ∀ rest, c :: cs = b :: rest → False) : c ∉ [a, b] := by
  rintro (_ | ⟨_, _ | ⟨_, ⟨⟩⟩⟩)
  · exact ha cs rfl
  · exact hb cs rfl

/-- In front of what starts with no sign, a sign is taken off if there is one. -/
theorem mem_sign_mul (hplus : ∀ cs, '+' :: cs ∉ l) (hminus : ∀ cs, '-' :: cs ∉ l) :
    cs ∈ sign * l ↔ unsigned cs ∈ l := by
  unfold unsigned
  split
  case h_1 rest => simp [sign, hplus]
  case h_2 rest => simp [sign, hminus]
  case h_3 hnoplus hnominus =>
    cases cs with
    | nil => simp [sign]
    | cons c rest =>
      have hc : c ∉ ['+', '-'] := head_not_mem hnoplus hnominus
      simp only [sign, mem_optional_mul, cons_mem_oneOf_mul, hc, false_and, or_false]

/-! ## What may follow the digits -/

/-- The end of a decimal. -/
def bigSuffix : Language Char := optional (oneOf ['M'])

/-- What may follow the digits of a decimal and its fraction. -/
def exponentTail : Language Char := optional exponent * bigSuffix

/-- What may follow a zero, and no other digits, in base sixteen. -/
def hexTail : Language Char := oneOf ['x', 'X'] * (runs isHexDigit * optional (oneOf ['N']))

/-- What may follow the digits of a number. -/
def tail : Language Char :=
  oneOf ['r', 'R'] * runs Char.isAlphanum + oneOf ['/'] * digits + oneOf ['N'] +
    optional fraction * exponentTail

/-- The alternatives that start with digits share them. -/
theorem number_eq : number = sign * (oneOf ['0'] * hexTail + digits * tail) := by
  simp only [number, hexadecimal, radix, ratio, bigInteger, decimal, hexTail, tail, exponentTail,
    bigSuffix, mul_add, mul_assoc, add_assoc]

/-- Behind the fraction stands an exponent or the end of the decimal, told apart by one character.
    -/
theorem cons_mem_exponentTail :
    c :: cs ∈ exponentTail ↔
      c ∈ ['e', 'E'] ∧ cs ∈ sign * (digits * bigSuffix) ∨ c = 'M' ∧ cs = [] := by
  simp only [exponentTail, bigSuffix, exponent, mul_assoc, mem_optional_mul, cons_mem_oneOf_mul,
    mem_optional, cons_mem_oneOf, reduceCtorEq, false_or, List.mem_singleton]
  exact or_comm

/-- No digit can stand there: it would belong to the run in front. -/
theorem avoids_exponentTail : Avoids Char.isDigit exponentTail := by
  intro c cs h
  rcases cons_mem_exponentTail.mp h with ⟨hc, -⟩ | ⟨rfl, -⟩
  · exact eq_false_of_mem rfl hc
  · rfl

/-- What may follow the digits, told apart by its first character. -/
theorem cons_mem_tail :
    c :: cs ∈ tail ↔
      c ∈ ['r', 'R'] ∧ cs ∈ runs Char.isAlphanum ∨ c = '/' ∧ cs ∈ digits ∨ c = 'N' ∧ cs = [] ∨
        c :: cs ∈ exponentTail ∨ c = '.' ∧ cs.dropWhile Char.isDigit ∈ exponentTail := by
  simp only [tail, fraction, Language.mem_add, mul_assoc, mem_optional_mul, cons_mem_oneOf_mul,
    cons_mem_oneOf, List.mem_singleton, or_assoc, digits,
    ← mem_optional_runs_mul avoids_exponentTail]

/-- The end of a decimal is an `M` or nothing. -/
theorem isBigSuffix_iff : isBigSuffix cs = true ↔ cs ∈ bigSuffix := by
  unfold isBigSuffix bigSuffix
  split
  · simp
  · simp
  · cases cs <;> simp_all

/-- An exponent is a sign and the longest run of digits, and the end follows. -/
theorem exponent_iff : isExponentTail.exponent cs = true ↔ cs ∈ sign * (digits * bigSuffix) := by
  have havoids : Avoids Char.isDigit bigSuffix := avoids_optional_oneOf (by decide)
  rw [mem_sign_mul, digits, mem_runs_mul havoids, isExponentTail.exponent, isDecimal_eq,
    Bool.and_eq_true, isBigSuffix_iff]
  · simp
  · simp [digits, mem_runs_mul havoids]
  · simp [digits, mem_runs_mul havoids]

/-- Both together, behind the fraction. -/
theorem isExponentTail_iff : isExponentTail cs = true ↔ cs ∈ exponentTail := by
  unfold isExponentTail
  split
  case h_1 rest => simp [cons_mem_exponentTail, exponent_iff]
  case h_2 rest => simp [cons_mem_exponentTail, exponent_iff]
  case h_3 hlower hupper =>
    rw [isBigSuffix_iff]
    cases cs with
    | nil => simp [exponentTail, bigSuffix]
    | cons c rest =>
      have hc : c ∉ ['e', 'E'] := head_not_mem hlower hupper
      simp [cons_mem_exponentTail, bigSuffix, hc]

/-- Base sixteen: the longest run of its digits, and an `N` or nothing. -/
theorem isHexTail_iff : isHexTail cs = true ↔ cs ∈ runs isHexDigit * optional (oneOf ['N']) := by
  have havoids : Avoids isHexDigit (optional (oneOf ['N'])) := avoids_optional_oneOf (by decide)
  rw [mem_runs_mul havoids, isHexTail, isHex_eq]
  cases cs.dropWhile isHexDigit with
  | nil => simp
  | cons c rest => simp

/-- It is told by an `x` behind the zero. -/
theorem cons_mem_hexTail : c :: cs ∈ hexTail ↔ c ∈ ['x', 'X'] ∧ isHexTail cs = true := by
  rw [hexTail, cons_mem_oneOf_mul, isHexTail_iff]

/-- A run is a run of the grammar. -/
theorem isRun_iff : isRun p cs = true ↔ cs ∈ runs p := by
  unfold isRun
  rw [Bool.and_eq_true, List.all_eq_true, Bool.not_eq_true', List.isEmpty_eq_false_iff]
  rfl

/-- **What follows the digits** is told by its first character; only a zero alone can be followed by
    an `x`. -/
theorem isTail_iff {ds : List Char} :
    isTail ds cs = true ↔ cs ∈ tail ∨ ds = ['0'] ∧ cs ∈ hexTail := by
  unfold isTail
  split
  case h_1 => simp [cons_mem_tail]
  case h_2 rest =>
    simp [cons_mem_tail, cons_mem_hexTail, cons_mem_exponentTail, isRun_iff, isDecimal_eq, digits]
  case h_3 rest =>
    simp [cons_mem_tail, cons_mem_hexTail, cons_mem_exponentTail, isRun_iff, isRadixDigit_eq]
  case h_4 rest =>
    simp [cons_mem_tail, cons_mem_hexTail, cons_mem_exponentTail, isRun_iff, isRadixDigit_eq]
  case h_5 rest => simp [cons_mem_tail, cons_mem_hexTail, cons_mem_exponentTail]
  case h_6 rest => simp [cons_mem_tail, cons_mem_hexTail, cons_mem_exponentTail]
  case h_7 rest =>
    simp [cons_mem_tail, cons_mem_hexTail, cons_mem_exponentTail, isExponentTail_iff, isDecimal_eq]
  case h_8 hbig hratio hlower hupper hx hX hpoint =>
    rw [isExponentTail_iff]
    cases cs with
    | nil => simp [tail, exponentTail, bigSuffix, hexTail, Language.mem_add]
    | cons c rest =>
      have hradix : c ∉ ['r', 'R'] := head_not_mem hlower hupper
      have hhex : c ∉ ['x', 'X'] := head_not_mem hx hX
      have hslash : c ≠ '/' := fun h => hratio rest (h ▸ rfl)
      have hdot : c ≠ '.' := fun h => hpoint rest (h ▸ rfl)
      have hN : ¬(c = 'N' ∧ rest = []) := fun ⟨hc, hrest⟩ => hbig (hc ▸ hrest ▸ rfl)
      rw [cons_mem_tail, cons_mem_hexTail]
      simp only [hradix, hhex, hslash, hdot, hN, false_and, and_false, false_or, or_false]

/-! ## Numbers -/

/-- A zero on its own is the one run of digits that base sixteen can follow. -/
theorem mem_zero_mul_hexTail :
    cs ∈ oneOf ['0'] * hexTail ↔
      cs.takeWhile Char.isDigit = ['0'] ∧ cs.dropWhile Char.isDigit ∈ hexTail := by
  have hx : Avoids Char.isDigit hexTail := avoids_oneOf_mul (by decide)
  constructor
  · rintro ⟨_, ⟨zero, hzero, rfl⟩, rest, hrest, rfl⟩
    obtain rfl := List.mem_singleton.mp hzero
    have hall : ∀ c ∈ ['0'], c.isDigit = true := List.all_eq_true.mp (by decide)
    obtain ⟨htake, hdrop⟩ := Lexeme.span_of_all hall (hx.head hrest)
    exact ⟨htake, hdrop.symm ▸ hrest⟩
  · rintro ⟨htake, hrest⟩
    rw [← List.takeWhile_append_dropWhile (p := Char.isDigit) (l := cs), htake]
    exact cons_mem_oneOf_mul.mpr ⟨List.mem_singleton_self _, hrest⟩

/-- What may follow the digits starts with none, so the digits are the longest run. -/
theorem avoids_tail : Avoids Char.isDigit tail := by
  intro c cs h
  rcases cons_mem_tail.mp h with ⟨hc, -⟩ | ⟨rfl, -⟩ | ⟨rfl, -⟩ | hexponent | ⟨rfl, -⟩
  · exact eq_false_of_mem rfl hc
  · rfl
  · rfl
  · exact avoids_exponentTail c cs hexponent
  · rfl

/-- Behind its sign a number is cut at the end of its first digits. -/
theorem mem_unsigned_iff :
    cs ∈ oneOf ['0'] * hexTail + digits * tail ↔
      cs.takeWhile Char.isDigit ≠ [] ∧
        isTail (cs.takeWhile Char.isDigit) (cs.dropWhile Char.isDigit) = true := by
  rw [Language.mem_add, mem_zero_mul_hexTail, digits, mem_runs_mul avoids_tail, isTail_iff]
  constructor
  · rintro (⟨hzero, hmem⟩ | ⟨hne, hmem⟩)
    · exact ⟨by simp [hzero], .inr ⟨hzero, hmem⟩⟩
    · exact ⟨hne, .inl hmem⟩
  · rintro ⟨hne, hmem | hzero⟩
    · exact .inr ⟨hne, hmem⟩
    · exact .inl hzero

/-- **Numbers.**  What is recognised is what the grammar says. -/
theorem isNumber_iff : isNumber cs = true ↔ cs ∈ number := by
  have hsign : ∀ c, c.isDigit = false → ∀ cs, c :: cs ∉ oneOf ['0'] * hexTail + digits * tail := by
    intro c hc cs h
    exact (mem_unsigned_iff.mp h).1 (List.takeWhile_cons_of_neg (by simp [hc]))
  rw [number_eq, mem_sign_mul (hsign '+' rfl) (hsign '-' rfl), mem_unsigned_iff, isNumber,
    isDecimal_eq]
  simp

/-- A text opens with a class if its first character is in it. -/
theorem mem_opens : cs ∈ opens p ↔ (cs.head?.map p).getD false = true := by
  show (∃ c ∈ cs.head?, p c = true) ↔ _
  cases cs <;> simp

/-- What starts like a number is what the reader takes for one. -/
theorem startsNumber_iff : startsNumber cs = true ↔ cs ∈ numeric := by
  have hplus : isDigit '+' = false := by decide
  have hminus : isDigit '-' = false := by decide
  rw [numeric, mem_sign_mul (by simp [mem_opens, hplus]) (by simp [mem_opens, hminus]), mem_opens]
  unfold unsigned
  split
  case h_1 rest => simp [startsNumber, hplus]
  case h_2 rest => simp [startsNumber, hminus]
  case h_3 hnoplus hnominus =>
    cases cs with
    | nil => simp [startsNumber]
    | cons c rest =>
      have hp : c ≠ '+' := fun h => hnoplus rest (h ▸ rfl)
      have hm : c ≠ '-' := fun h => hnominus rest (h ▸ rfl)
      simp [startsNumber, hp, hm]

end CljTidy.Numeral
