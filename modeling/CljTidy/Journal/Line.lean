/-
  The lines of the journal.

  A message has a source, a level and a text.  Its line follows a template: a text in which
  references stand for the fields of the message, such as `%(name)s`, or `%(levelname)-8s` with a
  least width.  A template has to refer to some field; that is all that is checked of it when it is
  given (`Template.refers`).  Whether it can be filled in shows only when a line is written.

  The clock is not part of the journal: a line starts behind its time stamp.  A template may also
  refer to what no message tells, such as the place where it was sent; that is asked of the
  surroundings.  A line with a reference that comes to nothing is not written.
-/
import CljTidy.Numeral

namespace CljTidy.Journal

open Character

/-! ## Levels -/

/-- The level of details. -/
def debug : Int := 10

/-- The level of progress messages. -/
def info : Int := 20

/-- The level of errors. -/
def error : Int := 40

/-- The level of the root until it is set. -/
def rootLevel : Int := 30

/-- The name of a level. -/
def levelName (level : Int) : String :=
  if level = 0 then "NOTSET"
  else if level = 10 then "DEBUG"
  else if level = 20 then "INFO"
  else if level = 30 then "WARNING"
  else if level = 40 then "ERROR"
  else if level = 50 then "CRITICAL"
  else s!"Level {level}"

/-- A message. -/
structure Message where
  source : String
  level : Int
  text : String
  deriving Repr, DecidableEq

/-! ## References -/

/-- How wide or how precise a field is written: so much, or as much as the record itself says. -/
inductive Count
  | of (n : Nat)
  | asked
  deriving Repr, DecidableEq

/-- A reference to a field, or to the whole record if no field is named, with how it is written. -/
structure Reference where
  field : Option String := none
  flags : List Char := []
  width : Option Count := none
  precision : Option Count := none
  conversion : Char
  deriving Repr, DecidableEq

namespace Reference

/-- A flag in front of the width. -/
def isFlag (c : Char) : Bool := c == '#' || c == '0' || c == '+' || c == ' ' || c == '-'

/-- How many characters stand in front of the bracket that closes one, with `depth` more open. -/
def closing? : Nat → List Char → Option Nat
  | _, [] => none
  | 0, ')' :: _ => some 0
  | depth + 1, ')' :: rest => (closing? depth rest).map (· + 1)
  | depth, '(' :: rest => (closing? (depth + 1) rest).map (· + 1)
  | depth, _ :: rest => (closing? depth rest).map (· + 1)

/-- A name in brackets, if there is one: a bracket that is not closed is refused. -/
def field? : List Char → Option (Option String × List Char)
  | '(' :: rest =>
      (closing? 0 rest).map fun n => (some (String.ofList (rest.take n)), rest.drop (n + 1))
  | cs => some (none, cs)

/-- A count, if there is one, and what follows. -/
def count : List Char → Option Count × List Char
  | '*' :: rest => (some .asked, rest)
  | cs =>
      let digits := cs.takeWhile Numeral.isDecimal
      (if digits.isEmpty then none else some (.of (Nat.ofDigitChars 10 digits 0)),
        cs.dropWhile Numeral.isDecimal)

/-- A precision, if there is one, and what follows: a point without a count stands for none. -/
def pointCount : List Char → Option Count × List Char
  | '.' :: rest => (some ((count rest).1.getD (.of 0)), (count rest).2)
  | cs => (none, cs)

/-- What follows a letter for the size of a number, which means nothing. -/
def behindSize : List Char → List Char
  | 'h' :: rest => rest
  | 'l' :: rest => rest
  | 'L' :: rest => rest
  | cs => cs

/-- Reads a reference behind its percent sign; one that breaks off is refused. -/
def read? (cs : List Char) : Option (Reference × List Char) :=
  (field? cs).bind fun (field, cs) =>
    let (width, behind) := count (cs.dropWhile isFlag)
    let (precision, behind) := pointCount behind
    match behindSize behind with
    | conversion :: rest =>
        some (⟨field, cs.takeWhile isFlag, width, precision, conversion⟩, rest)
    | [] => none

/-! Reading goes on: no part leaves more than it was given. -/

/-- A field takes its name and the brackets around it. -/
theorem length_field? {cs rest : List Char} {field : Option String}
    (h : field? cs = some (field, rest)) : rest.length ≤ cs.length := by
  unfold field? at h
  split at h
  · obtain ⟨n, -, hn⟩ := Option.map_eq_some_iff.mp h
    obtain ⟨-, rfl⟩ := Prod.mk.inj hn
    rw [List.length_drop, List.length_cons]
    omega
  · obtain ⟨-, rfl⟩ := Prod.mk.inj (Option.some.inj h)
    exact Nat.le_refl _

/-- A count takes its star or its digits. -/
theorem length_count (cs : List Char) : (count cs).2.length ≤ cs.length := by
  fun_cases count cs
  · exact Nat.le_succ _
  · exact (List.dropWhile_sublist _).length_le

/-- A precision takes its point as well. -/
theorem length_pointCount (cs : List Char) : (pointCount cs).2.length ≤ cs.length := by
  fun_cases pointCount cs
  · exact Nat.le_succ_of_le (length_count _)
  · exact Nat.le_refl _

theorem length_behindSize (cs : List Char) : (behindSize cs).length ≤ cs.length := by
  fun_cases behindSize cs <;> grind

/-- A reference takes at least its conversion. -/
theorem length_read? {cs rest : List Char} {r : Reference} (h : read? cs = some (r, rest)) :
    rest.length < cs.length := by
  obtain ⟨⟨field, behind⟩, hfield, h⟩ := Option.bind_eq_some_iff.mp h
  have hname := length_field? hfield
  have hflags := (List.dropWhile_sublist isFlag (l := behind)).length_le
  have hwidth := length_count (behind.dropWhile isFlag)
  have hprecision := length_pointCount (count (behind.dropWhile isFlag)).2
  have hsize := length_behindSize (pointCount (count (behind.dropWhile isFlag)).2).2
  dsimp only at h
  split at h
  · rename_i conversion more hmore
    obtain ⟨-, rfl⟩ := Prod.mk.inj (Option.some.inj h)
    rw [hmore, List.length_cons] at hsize
    omega
  · cases h

end Reference

/-! ## Templates -/

namespace Template

/-- A character of a word. -/
def isWordChar (c : Char) : Bool := isAlphanumeric c || c == '_'

/-- A conversion that a reference may have, in either case; the letters that fold to `i` and `s`
    count as these. -/
def isConversion (c : Char) : Bool :=
  "diouxefgcrsaDIOUXEFGCRSA%\u0130\u0131\u017F".toList.contains c

/-- What follows a count in digits of any script, or a star; nothing if there is neither. -/
def behindCount? : List Char → Option (List Char)
  | '*' :: rest => some rest
  | c :: rest => if isDecimalDigit c then some (rest.dropWhile isDecimalDigit) else none
  | [] => none

/-- What follows a precision, if there is one. -/
def behindPrecision : List Char → List Char
  | '.' :: rest => (behindCount? rest).getD ('.' :: rest)
  | cs => cs

/-- A reference to a field stands in front. -/
def refersHere : List Char → Bool
  | '%' :: '(' :: rest =>
      match rest.takeWhile isWordChar, rest.dropWhile isWordChar with
      | _ :: _, ')' :: rest =>
          let rest := rest.dropWhile Reference.isFlag
          (behindPrecision ((behindCount? rest).getD rest)).head?.any isConversion
      | _, _ => false
  | _ => false

/-- A reference to a field stands somewhere in the text. -/
def refersIn : List Char → Bool
  | [] => false
  | c :: rest => refersHere (c :: rest) || refersIn rest

/-- The text that a template stands for: an empty one is the message alone. -/
def body (template : String) : String := if template = "" then "%(message)s" else template

/-- The template refers to a field, as a template has to. -/
def refers (template : String) : Bool := refersIn (body template).toList

/-- A piece of a template. -/
inductive Piece
  | literal (c : Char)
  | reference (r : Reference)
  deriving Repr, DecidableEq

/-- The pieces of a text, where a doubled percent sign stands for itself; nothing if a reference
    breaks off. -/
def piecesOf? : List Char → Option (List Piece)
  | [] => some []
  | '%' :: '%' :: cs => (piecesOf? cs).map (.literal '%' :: ·)
  | '%' :: cs =>
      match _h : Reference.read? cs with
      | some (r, rest) => (piecesOf? rest).map (.reference r :: ·)
      | none => none
  | c :: cs => (piecesOf? cs).map (.literal c :: ·)
termination_by cs => cs.length
decreasing_by
  · exact Nat.lt_succ_of_lt (Nat.lt_succ_self _)
  · exact Nat.lt_succ_of_lt (Reference.length_read? (by assumption))
  · exact Nat.lt_succ_self _

/-- The pieces of a template. -/
def pieces? (template : String) : Option (List Piece) := piecesOf? (body template).toList

/-- The pieces behind the time stamp. -/
def behindStamp : List Piece → List Piece
  | .reference ⟨some "asctime", [], none, none, 's'⟩ :: .literal ' ' :: .literal '-' ::
      .literal ' ' :: rest => rest
  | all => all

end Template

/-! ## Filling in -/

/-- What references come to that a message does not tell: to nothing, or to a text. -/
abbrev Surroundings := Message → Reference → Option String

/-- Surroundings that tell nothing. -/
def Surroundings.silent : Surroundings := fun _ _ => none

namespace Reference

/-- A text filled up with blanks to a width: in front, or behind if the flags say so. -/
def justified (flags : List Char) (width : Nat) (text : String) : String :=
  let blanks := String.ofList (List.replicate (width - text.length) ' ')
  if flags.contains '-' then text ++ blanks else blanks ++ text

/-- The field of a message by its name: its source, its text, its level by name or by number. -/
def fieldOf (m : Message) : String → Option String
  | "name" => some m.source
  | "levelname" => some (levelName m.level)
  | "levelno" => some (toString m.level)
  | "message" => some m.text
  | "msg" => some m.text
  | _ => none

/-- What a reference comes to that a message tells: a field as a text, cut off behind its precision
    and filled up to its width.  Other fields and other conversions it does not tell. -/
def told (m : Message) : Reference → Option String
  | ⟨some field, flags, width, precision, 's'⟩ =>
      match width.getD (.of 0), precision with
      | .of width, none => (fieldOf m field).map (justified flags width)
      | .of width, some (.of precision) =>
          (fieldOf m field).map fun text =>
            justified flags width (String.ofList (text.toList.take precision))
      | _, _ => none
  | _ => none

end Reference

/-- A piece filled in for a message. -/
def Template.Piece.fill (s : Surroundings) (m : Message) : Piece → Option String
  | literal c => some c.toString
  | reference r => (r.told m).or (s m r)

/-- The line for a message, if the template can be filled in. -/
def line? (s : Surroundings) (template : String) (m : Message) : Option String :=
  (Template.pieces? template).bind fun pieces =>
    ((Template.behindStamp pieces).mapM (Template.Piece.fill s m)).map fun texts =>
      String.join texts ++ "\n"

end CljTidy.Journal
