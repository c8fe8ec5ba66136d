/-
  The command line.

  `-i`/`--input` names the source file, `-o`/`--output` the file to write instead of standard
  output, `--verbose` turns the journal on.  A long option may be shortened as long as it is
  unambiguous, a value may be joined to its option, and the last of repeated options counts.  All
  decisions are made here, on texts; reading and writing files is left to the caller.
-/
import CljTidy.Format

namespace CljTidy.CommandLine

/-! ## Options -/

/-- The options. -/
inductive Flag
  | help | input | output | verbose
  deriving Repr, DecidableEq

/-- Every spelling of an option, in order. -/
def spellings : List (String × Flag) :=
  [("-h", .help), ("--help", .help), ("-i", .input), ("--input", .input), ("-o", .output),
   ("--output", .output), ("--verbose", .verbose)]

namespace Flag

/-- The option takes a value. -/
def takesValue : Flag → Bool
  | input => true
  | output => true
  | _ => false

/-- How an option is named in messages. -/
def label (flag : Flag) : String :=
  "/".intercalate ((spellings.filter fun s => s.2 = flag).map Prod.fst)

end Flag

/-- Why a command line is refused. -/
inductive UsageError
  | ambiguous (given : String) (candidates : List String)
  | missingValue (flag : Flag)
  | unwantedValue (flag : Flag) (value : String)
  | missingInput
  | unrecognized (words : List String)
  | noSuchFile (path : String)
  deriving Repr, DecidableEq

/-- The reason in words. -/
def UsageError.message : UsageError → String
  | ambiguous given candidates =>
      "ambiguous option: " ++ given ++ " could match " ++ ", ".intercalate candidates
  | missingValue flag => "argument " ++ flag.label ++ ": expected one argument"
  | unwantedValue flag value =>
      "argument " ++ flag.label ++ ": ignored explicit argument " ++ Quoted.quote value
  | missingInput => "the following arguments are required: " ++ Flag.label .input
  | unrecognized words => "unrecognized arguments: " ++ " ".intercalate words
  | noSuchFile path => "Input path does not exist: " ++ path

/-- The name of the program. -/
def programName : String := "sculpt.py"

/-- How to call the program. -/
def usage : String := "usage: " ++ programName ++ " [-h] -i INPUT [-o OUTPUT] [--verbose]\n"

/-- A refusal as it is printed. -/
def UsageError.report (e : UsageError) : String :=
  usage ++ programName ++ ": error: " ++ e.message ++ "\n"

/-- What the options mean. -/
def helpText : String :=
  usage ++
  "\nRewrite a Clojure-family source file in canonical layout, keeping every comment.\n\n" ++
  "options:\n" ++
  "  -h, --help            show this help message and exit\n" ++
  "  -i INPUT, --input INPUT\n" ++
  "                        Path to the source file to format.\n" ++
  "  -o OUTPUT, --output OUTPUT\n" ++
  "                        File to write the formatted source to (defaults to\n" ++
  "                        stdout).\n" ++
  "  --verbose             Log lexer, reader and renderer progress to stderr.\n"

/-! ## Words of a command line -/

/-- A word: an argument, an option with the value joined to it if any, `-h` with letters joined to
    it, or an unknown option. -/
inductive Word
  | argument (text : String)
  | option (flag : Flag) (value : Option String)
  | helpWith (letters : List Char)
  | unknown (text : String)
  deriving Repr, DecidableEq

/-- A text without the line feed at its end, if there is one. -/
def withoutFinalBreak (text : List Char) : List Char :=
  if text.getLast? = some '\n' then text.dropLast else text

/-- `-` and decimal digits of any script, with at most one point and digits behind it; a line feed
    may follow. -/
def isNegativeNumber (word : List Char) : Bool :=
  match withoutFinalBreak word with
  | '-' :: rest =>
      Numeral.isRun Character.isDecimalDigit rest ||
        (match rest.dropWhile Character.isDecimalDigit with
          | '.' :: fraction => Numeral.isRun Character.isDecimalDigit fraction
          | _ => false)
  | _ => false

/-- What stands before the first `=`, and what stands behind it if there is one. -/
def cutAtEquals (word : List Char) : List Char × Option (List Char) :=
  match word.dropWhile (· ≠ '=') with
  | [] => (word, none)
  | _ :: value => (word.takeWhile (· ≠ '='), some value)

/-- The options a word could be short for, with the value joined to it. -/
def candidates (word : List Char) : List (String × Flag × Option String) :=
  match word with
  | '-' :: '-' :: _ =>
      let (name, value) := cutAtEquals word
      spellings.filterMap fun (spelling, flag) =>
        if name.isPrefixOf spelling.toList then some (spelling, flag, value.map String.ofList)
        else none
  | _ =>
      spellings.filterMap fun (spelling, flag) =>
        if spelling.toList = word.take 2 then
          some (spelling, flag, some (String.ofList (word.drop 2)))
        else if word.isPrefixOf spelling.toList then some (spelling, flag, none)
        else none

/-- An option with the value joined to it.  `-h` takes no value, so what is joined to it are letters
    of further options. -/
def Word.joined (spelling : String) (flag : Flag) (value : Option String) : Word :=
  match value with
  | some letters => if spelling = "-h" then .helpWith letters.toList else .option flag value
  | none => .option flag none

/-- What a word is, by its spelling alone. -/
def Word.of (text : String) : Except UsageError Word :=
  let word := text.toList
  let (name, value) := cutAtEquals word
  if word.head? ≠ some '-' then .ok (.argument text)
  else if let some flag := spellings.lookup text then .ok (.option flag none)
  else if word.length = 1 then .ok (.argument text)
  else if let (some flag, some value) := (spellings.lookup (String.ofList name), value) then
    .ok (.joined (String.ofList name) flag (some (String.ofList value)))
  else
    match candidates word with
    | [(spelling, flag, value)] => .ok (.joined spelling flag value)
    | _ :: _ :: _ => .error (.ambiguous text ((candidates word).map Prod.fst))
    | [] =>
        if isNegativeNumber word || ' ' ∈ word then .ok (.argument text) else .ok (.unknown text)

/-- The words of a command line; behind `--` they are not options any more. -/
def words : List String → Except UsageError (List Word)
  | [] => .ok []
  | text :: rest =>
      if text = "--" then .ok (.unknown text :: rest.map Word.argument)
      else do
        let word ← Word.of text
        return word :: (← words rest)

/-! ## Arguments -/

/-- What an option was given: a path, or nothing when `--` was joined to it. -/
inductive Value
  | path (text : String)
  | missing
  deriving Repr, DecidableEq

/-- The value that a text stands for. -/
def Value.of (text : String) : Value := if text = "--" then .missing else .path text

/-- The options as given so far. -/
structure Options where
  help : Bool := false
  input : Option Value := none
  output : Option Value := none
  verbose : Bool := false
  leftOver : List String := []
  deriving Repr, DecidableEq

/-- An option with its value. -/
def Options.set (o : Options) (value : String) : Flag → Options
  | .help => { o with help := true }
  | .input => { o with input := some (.of value) }
  | .output => { o with output := some (.of value) }
  | .verbose => { o with verbose := true }

/-- A value can be read off the front of the words. -/
def startsWithArgument : List Word → Bool
  | .argument _ :: _ => true
  | _ => false

/-- What is wrong with the letters joined to `-h`, before the words in `rest`: each has to be an
    option, and an option that takes a value has the other letters or the next word for it. -/
def lettersFault? (rest : List Word) : List Char → Option UsageError
  | ['h'] => none
  | 'h' :: letters => lettersFault? rest letters
  | ['i'] => if startsWithArgument rest then none else some (.missingValue .input)
  | 'i' :: _ => none
  | ['o'] => if startsWithArgument rest then none else some (.missingValue .output)
  | 'o' :: _ => none
  | letters => some (.unwantedValue .help (String.ofList letters))

/-- Collects options from words; asking for help ends it. -/
def collect : Options → List Word → Except UsageError Options
  | o, [] => .ok o
  | o, .argument text :: rest => collect { o with leftOver := o.leftOver ++ [text] } rest
  | o, .unknown text :: rest => collect { o with leftOver := o.leftOver ++ [text] } rest
  | o, .option flag (some value) :: rest =>
      if flag.takesValue then collect (o.set value flag) rest
      else .error (.unwantedValue flag value)
  | o, .helpWith letters :: rest =>
      match lettersFault? rest letters with
      | some e => .error e
      | none => .ok { o with help := true }
  | o, .option .help none :: _ => .ok { o with help := true }
  | o, .option .verbose none :: rest => collect (o.set "" .verbose) rest
  | o, .option flag none :: .argument value :: rest => collect (o.set value flag) rest
  | _, .option flag none :: _ => .error (.missingValue flag)

/-- What the command line asks for. -/
structure Arguments where
  input : Value
  output : Option Value
  verbose : Bool
  deriving Repr, DecidableEq

/-- The arguments of a command line; nothing if help is asked for. -/
def parse (argv : List String) : Except UsageError (Option Arguments) := do
  let o ← collect {} (← words argv)
  if o.help then return none
  match o.input with
  | none => throw .missingInput
  | some input =>
      if o.leftOver.isEmpty then return some ⟨input, o.output, o.verbose⟩
      else throw (.unrecognized o.leftOver)

/-! ## Paths and lines -/

/-- The parts of a path, without empty parts and without `.`. -/
def parts (path : String) : List String :=
  (cut path.toList).filter fun part => part ≠ "" ∧ part ≠ "."
where
  /-- The texts between slashes. -/
  cut : List Char → List String
    | [] => [""]
    | '/' :: rest => "" :: cut rest
    | c :: rest =>
        match cut rest with
        | first :: more => (c.toString ++ first) :: more
        | [] => [c.toString]

/-- The slashes in front of a path: none, one, or exactly two. -/
def rootOf (path : String) : String :=
  match path.toList with
  | '/' :: '/' :: '/' :: _ => "/"
  | '/' :: '/' :: _ => "//"
  | '/' :: _ => "/"
  | _ => ""

/-- A path as it is shown. -/
def shownPath (path : String) : String :=
  let text := rootOf path ++ "/".intercalate (parts path)
  if text = "" then "." else text

/-- A text with every line ending as a line feed. -/
def unifyLines : List Char → List Char
  | '\r' :: '\n' :: rest => '\n' :: unifyLines rest
  | '\r' :: rest => '\n' :: unifyLines rest
  | c :: rest => c :: unifyLines rest
  | [] => []

/-! ## Work -/

/-- The result of formatting: the text, or why it failed; and the journal. -/
structure Job where
  outcome : Except String String
  log : String

/-- Formats the contents of the file at a path; all components report if `verbose`. -/
def job (verbose : Bool) (path contents : String) : Job :=
  let run := Format.run (String.ofList (unifyLines contents.toList))
  { outcome :=
      match run.outcome with
      | .ok product => .ok product.text
      | .error e => .error ("Failed to format " ++ shownPath path ++ ": " ++ e.message)
    log := run.log ⟨verbose, verbose, verbose, verbose⟩ }

/-- What is said after the output file was written. -/
def wrote (path : String) : String := "Wrote " ++ shownPath path ++ "\n"

end CljTidy.CommandLine
