/-
  Formatting a source text from end to end.

  The text is cut into tokens, the tokens are read into a tree, the tree is laid out from column
  zero and written.  Every component has a source in the journal; what it reports follows from the
  results, so a run is the formatted text together with its messages in order.
-/
import CljTidy.Journal
import CljTidy.Layout.Render
import CljTidy.Quoted
import CljTidy.Reading.Run

namespace CljTidy

open Journal (Message)

/-- The text in canonical layout. -/
def format (text : String) : Except SyntaxError String := do
  let children ← parse text
  return (Layout.render .standard 0 (.document children)).text

namespace Format

/-! ## What the components report -/

/-- Which components report. -/
structure Switches where
  lexer : Bool := false
  reader : Bool := false
  renderer : Bool := false
  formatter : Bool := false
  deriving Repr, DecidableEq

/-- The names of the components in the journal. -/
def lexerName : String := "Lexer Logger"

@[inherit_doc lexerName] def readerName : String := "Reader Logger"

@[inherit_doc lexerName] def rendererName : String := "Renderer Logger"

@[inherit_doc lexerName] def formatterName : String := "Formatter Logger"

/-- The channels with the components switched on or off. -/
def Switches.channels (s : Switches) : Journal.Channels :=
  [(formatterName, s.formatter), (lexerName, s.lexer), (readerName, s.reader),
    (rendererName, s.renderer)].foldl
    (fun channels (name, enabled) => Journal.configure channels { name, enabled }) []

/-- A token in the journal. -/
def shownToken (t : Token) : String :=
  s!"Token(token_type={t.kind.shown}, value={Quoted.quote? t.value}, line={t.position.line}, " ++
    s!"column={t.position.column})"

/-- The messages of cutting a text into tokens. -/
def lexerMessages (scan : Scan) : List Message :=
  let added := scan.tokens.map fun t =>
    ⟨lexerName, Journal.debug,
      s!"Adding token {t.kind.title} with value {Quoted.quote? t.value} at line " ++
        s!"{t.position.line}, column {t.position.column}"⟩
  let ending : Message := match scan.fault with
    | some e => ⟨lexerName, Journal.error, e.message⟩
    | none => ⟨lexerName, Journal.info, "Tokenization complete"⟩
  ⟨lexerName, Journal.info, "Starting tokenization"⟩ :: added ++ [ending]

/-- The messages of reading tokens. -/
def readerMessages (result : Reading.Result) : List Message :=
  let consumed := result.leaves.map fun t =>
    ⟨readerName, Journal.debug, "Consumed token " ++ shownToken t⟩
  let ending : List Message := match result.outcome with
    | .error _ => []
    | .ok nodes =>
        [⟨readerName, Journal.info, s!"Read {nodes.length} top-level nodes"⟩,
         ⟨readerName, Journal.debug, "Tokens read into syntax tree"⟩]
  ⟨readerName, Journal.info, "Reader initialized"⟩ :: consumed ++ ending

/-- The message for a note taken while laying out. -/
def noteMessage : Layout.Note → Message
  | .specialForm head column =>
      ⟨rendererName, Journal.debug, s!"Rendering special form '{head}' at column {column}"⟩
  | .entries count => ⟨rendererName, Journal.info, s!"Rendered {count} top-level entries"⟩

/-- The message at the end of a run. -/
def formatterMessage (source formatted : String) : Message :=
  ⟨formatterName, Journal.info,
    s!"Formatted {source.length} characters into {formatted.length}"⟩

/-! ## A run with its messages -/

/-- What a run that succeeded leaves: the tokens, the tree read, and the tree laid out. -/
structure Product where
  tokens : List Token
  parsed : Node
  formatted : Node

/-- The formatted text. -/
def Product.text (p : Product) : String := p.formatted.text

/-- A run: its product or the error that ended it, and the messages up to there. -/
structure Run where
  outcome : Except SyntaxError Product
  messages : List Message

/-- Formats a text and reports. -/
def run (text : String) : Run :=
  let scan := Scan.from [] {} text.toList
  match scan.fault with
  | some e => ⟨.error e, lexerMessages scan⟩
  | none =>
      let result := Reading.document scan.tokens
      let read := lexerMessages scan ++ readerMessages result
      match result.outcome with
      | .error e => ⟨.error e, read⟩
      | .ok children =>
          let rendered := Layout.layout .standard 0 (.document children)
          let formatted := rendered.settle 0
          ⟨.ok ⟨scan.tokens, .document children, formatted⟩,
            read ++ rendered.notes.map noteMessage ++ [formatterMessage text formatted.text]⟩

/-- The text of a run is the text in canonical layout. -/
theorem format_eq (text : String) : format text = (run text).outcome.map Product.text := by
  unfold format parse tokenize run
  generalize Scan.from [] {} text.toList = scan
  obtain ⟨tokens, span, rest, position, fault⟩ := scan
  cases fault with
  | some e => rfl
  | none =>
    show ((Reading.document tokens).outcome.bind fun children => _) = _
    dsimp only
    cases (Reading.document tokens).outcome <;> rfl

/-- The lines a run leaves in the journal. -/
def Run.log (r : Run) (s : Switches) : String :=
  String.join (r.messages.map (Journal.write s.channels))

end Format

end CljTidy
