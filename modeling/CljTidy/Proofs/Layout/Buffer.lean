/-
  Buffers keep count.

  1. **Program** — a buffer is written node by node and line by line, and by what was written aside
     into a buffer of its own (`Buffer.extend`).  Each way to write sets the column and the mark of
     a comment at the end on its own.

  2. **Specification** — `Buffer.Tracks`: the column is the one behind the text of all the nodes,
     which is written from the column where the buffer starts and may break lines anywhere, and the
     mark says whether the last node is a comment.

  3. **The crux** (`Tracks.extend`) — columns are counted on through a text, so what was written
     aside goes on counting if it was started at the column reached by then.  Every other way to
     write is of this kind: a node or a line break, written aside.  The induction over all that is
     written (`Written.tracks`) only joins these.

  4. **Records** — a pair is written aside while the comments that leave it go in front; they come
     back to the column where the pair was started, so it may go behind them (`written_record`).
-/
import CljTidy.Layout.Form
import CljTidy.Proofs.Layout.Start
import Mathlib.Data.List.Induction

namespace CljTidy.Layout

/-! ## Columns -/

/-- **Columns in full.**  A text that stays on its line moves the column on by its length; behind
    any other one the column is the width of its last line. -/
theorem endColumn_eq (column : Int) (text : String) :
    endColumn column text =
      if '\n' ∈ text.toList then (lineColumn text : Int) else column + text.length := by
  unfold endColumn lineColumn
  rw [← String.length_toList]
  induction text.toList using List.reverseRecOn with
  | nil => simp
  | append_singleton cs c ih =>
    rw [List.foldl_append, ih]
    by_cases hc : c = '\n'
    · simp [hc]
    · by_cases hcs : '\n' ∈ cs
      · simp [hc, hcs]
      · have hcount : column + (cs.length : Int) + 1 = column + ((cs.length + 1 : Nat) : Int) := by
          omega
        simpa [hc, hcs, Ne.symm hc] using hcount

namespace Buffer

/-! ## Ways to write -/

/-- The buffers written from a column: by nodes that have a text, spaces, line breaks to columns not
    left of the margin, and what was written aside from the column reached by then.  What was
    written aside has nodes: an empty buffer would still take the mark of a comment away. -/
inductive Written : Int → Buffer → Prop
  | start (column : Int) : Written column (.start column)
  | emit {column : Int} {b : Buffer} (h : Written column b) {node : Node}
      (known : node.isKnown = true) : Written column (b.emit node)
  | space {column : Int} {b : Buffer} (h : Written column b) : Written column b.space
  | newline {column : Int} {b : Buffer} (h : Written column b) {target : Int} (inside : 0 ≤ target)
      (blank : Bool) : Written column (b.newline target blank)
  | extend {column : Int} {b aside : Buffer} (h : Written column b)
      (haside : Written b.column aside) (filled : aside.nodes ≠ #[]) :
      Written column (b.extend aside)

/-- What a buffer that starts at a column keeps count of. -/
structure Tracks (start : Int) (b : Buffer) : Prop where
  known : Node.allKnown b.nodes.toList = true
  column : b.column = endColumn start (Node.textAll b.nodes.toList)
  comment : b.endsWithComment = b.nodes.toList.getLast?.any Node.isComment

variable {column : Int} {b aside : Buffer}

/-- An empty buffer is at the column where it starts. -/
theorem tracks_start (column : Int) : Tracks column (.start column) := ⟨rfl, rfl, rfl⟩

/-- **The crux.**  What was written aside goes on counting from where it starts. -/
theorem Tracks.extend (h : Tracks column b) (haside : Tracks b.column aside)
    (filled : aside.nodes ≠ #[]) : Tracks column (b.extend aside) := by
  have hnodes : (b.extend aside).nodes.toList = b.nodes.toList ++ aside.nodes.toList := by
    simp [Buffer.extend]
  refine ⟨?_, ?_, ?_⟩
  · have hknown := h.known
    have hbehind := haside.known
    rw [Node.allKnown_eq] at hknown hbehind
    rw [hnodes, Node.allKnown_eq, List.all_append, hknown, hbehind]
    rfl
  · rw [hnodes, Node.textAll_append, endColumn_append, ← h.column]
    exact haside.column
  · obtain ⟨last, hlast⟩ : ∃ last, aside.nodes.toList.getLast? = some last :=
      ⟨_, List.getLast?_eq_some_getLast fun hnil => filled (Array.toList_inj.mp hnil)⟩
    rw [hnodes, List.getLast?_append, hlast, Option.some_or, ← hlast]
    exact haside.comment

/-- Writing a node is putting it behind, written aside. -/
theorem emit_eq_extend (b : Buffer) (node : Node) :
    b.emit node = b.extend ((start b.column).emit node) := by
  simp [emit, extend, start]

/-- So is breaking the line. -/
theorem newline_eq_extend (b : Buffer) (target : Int) (blank : Bool) :
    b.newline target blank = b.extend ((start b.column).newline target blank) := by
  have hnodes : b.nodes ++ breakNodes target blank =
      b.nodes ++ ((start b.column).newline target blank).nodes := by
    apply Array.toList_inj.mp
    simp [newline, start]
  rw [newline, hnodes]
  rfl

/-- Breaking the line writes the nodes of a gap. -/
theorem toList_newline (column target : Int) (blank : Bool) :
    ((start column).newline target blank).nodes.toList = (Gap.line target blank).nodes := by
  simp [newline, start, Gap.nodes]

/-- One node, written at the start. -/
theorem tracks_emit (column : Int) {node : Node} (known : node.isKnown = true) :
    Tracks column ((start column).emit node) := by
  refine ⟨?_, ?_, rfl⟩
  · show (node.isKnown && true) = true
    rw [known]
    rfl
  · show endColumn column node.text = endColumn column (node.text ++ "")
    rw [String.append_empty]

/-- A line break leads to its column from everywhere, and nothing in it is a comment. -/
theorem tracks_newline (column : Int) {target : Int} (inside : 0 ≤ target) (blank : Bool) :
    Tracks column ((start column).newline target blank) := by
  have hnoise := noise_gap (.line target blank)
  refine ⟨?_, ?_, ?_⟩
  · rw [toList_newline, Node.allKnown_eq, List.all_eq_true]
    intro n hn
    obtain ⟨kind, text, rfl⟩ := Node.leaf_of_noise (hnoise n hn)
    rfl
  · rw [toList_newline]
    exact (endColumn_line inside blank column).symm
  · rw [toList_newline]
    show false = _
    cases hlast : (Gap.line target blank).nodes.getLast? with
    | none => rfl
    | some n =>
      have hn := hnoise n (List.mem_of_getLast? hlast)
      obtain ⟨kind, text, rfl⟩ := Node.leaf_of_noise hn
      cases kind with
      | comment => cases hn
      | _ => rfl

/-- **Everything that is written keeps count.**  Induction on what is written, one step for each way
    to write; what was written aside brings a hypothesis of its own. -/
theorem Written.tracks (h : Written column b) : Tracks column b := by
  have hemit : ∀ {column : Int} {b : Buffer} {node : Node}, Tracks column b →
      node.isKnown = true → Tracks column (b.emit node) := by
    intro column b node hb known
    rw [emit_eq_extend]
    exact hb.extend (tracks_emit _ known) (Array.push_ne_empty)
  induction h with
  | start column => exact tracks_start column
  | emit _ known ih => exact hemit ih known
  | space _ ih => exact hemit ih rfl
  | @newline column b _ target inside blank ih =>
    rw [newline_eq_extend]
    refine ih.extend (tracks_newline _ inside blank) fun hnil => ?_
    have hlist := toList_newline b.column target blank
    rw [hnil] at hlist
    cases hlist
  | extend _ _ filled ih ihaside => exact ih.extend ihaside filled

/-- Buffers that start right of the margin stay there. -/
theorem Written.nonneg (h : Written column b) (inside : 0 ≤ column) : 0 ≤ b.column := by
  rw [h.tracks.column]
  exact le_endColumn (Int.le_refl 0) inside _

/-! ## Records -/

end Buffer

namespace Draft

open Buffer (Written)

variable {column : Int} {d aside : Draft} {lay : Lay}

/-- Comments on lines of their own are written node by node. -/
theorem written_commentLines {target : Int} (h : Written column d.buffer) (inside : 0 ≤ target)
    (comments : List String) : Written column (d.commentLines target comments).buffer := by
  induction comments generalizing d with
  | nil => exact h
  | cons text comments ih =>
    have htext : Written column (d.comment text).buffer := h.emit rfl
    exact ih (htext.newline inside false)

/-- The comments in front of what was written aside lead back to the column where it was started. -/
theorem written_append (hcolumn : 0 ≤ column) (h : Written column d.buffer)
    (haside : Written d.column aside.buffer) (filled : aside.buffer.nodes ≠ #[]) :
    Written column (d.append aside).buffer := by
  have habove := written_commentLines h (h.nonneg hcolumn) aside.hoisted
  refine habove.extend ?_ filled
  show Written (d.commentLines d.column aside.hoisted).column aside.buffer
  rw [column_commentLines]
  exact haside

theorem written_marker (h : Written column d.buffer) (marker : Option String) :
    Written column (d.marker marker).buffer := by
  cases marker with
  | none => exact h
  | some text => exact (h.emit rfl).space

theorem written_trailing (h : Written column d.buffer) (comment : Option String) :
    Written column (d.trailing? comment).buffer := by
  cases comment with
  | none => exact h
  | some text => exact h.space.emit rfl

/-- An item is its marker, its element with the comments that leave it, and the comment behind it.
    -/
theorem written_item {i : Item} (hlay : ∀ c, (lay c i.element).node.isKnown = true)
    (gather : Bool) (hcolumn : 0 ≤ column) (h : Written column d.buffer) :
    Written column (d.item lay gather i).buffer := by
  unfold Draft.item
  split
  · exact h.emit rfl
  · refine written_trailing (d := emit _ _) (.emit (written_marker ?_ i.marker) (hlay _)) i.comment
    show Written column (if gather then d.hoist _ else d.commentLines d.column _).buffer
    cases gather with
    | true => exact h
    | false => exact written_commentLines h (h.nonneg hcolumn) _

/-- An item is never empty, so there is something to go on behind. -/
theorem filled_item (i : Item) (gather : Bool) : (d.item lay gather i).buffer.nodes ≠ #[] := by
  unfold Draft.item
  split
  · exact Array.push_ne_empty
  · cases i.comment with
    | none => exact Array.push_ne_empty
    | some text => exact Array.push_ne_empty

/-- **Records.**  Whatever comments leave a record, it is written as buffers are. -/
theorem written_record {r : Record}
    (hlay : ∀ i ∈ r.items, ∀ c, (lay c i.element).node.isKnown = true)
    (hcolumn : 0 ≤ column) (h : Written column d.buffer) :
    Written column (d.record lay r).buffer := by
  cases r with
  | comment text => exact h.emit rfl
  | orphan i => exact written_item (hlay i (List.mem_singleton_self i)) false hcolumn h
  | pair key value =>
    have hinside : 0 ≤ d.column := h.nonneg hcolumn
    have hkey : Written d.column ((Draft.start d.column).item lay true key).buffer :=
      written_item (hlay key List.mem_cons_self) true hinside (.start d.column)
    have hlayvalue : ∀ c, (lay c value.element).node.isKnown = true :=
      hlay value (by simp [Record.items])
    let started : Draft := ((Draft.start d.column).item lay true key).space
    have hvalue : Written d.column (started.item lay true value).buffer :=
      written_item hlayvalue true hinside hkey.space
    exact written_append hcolumn h hvalue (filled_item value true)

end Draft

namespace Buffer

/-- **Buffers keep count.**  The column of a buffer that was written from a column is the one behind
    the text of its nodes, and it ends with a comment exactly if it has nodes and the last of them
    is one.  Columns are counted on from text to text, line by line. -/
theorem column_of_written :
    (∀ (column : Int) (b : Buffer), Written column b →
      Node.allKnown b.nodes.toList = true ∧
      b.column = endColumn column (Node.textAll b.nodes.toList) ∧
      (b.endsWithComment = true ↔ ∃ nodes text, b.nodes.toList = nodes ++ [.comment text])) ∧
    (∀ (column : Int) (front behind : String),
      endColumn (endColumn column front) behind = endColumn column (front ++ behind)) ∧
    ∀ (column : Int) (text : String),
      endColumn column text =
        if '\n' ∈ text.toList then (lineColumn text : Int) else column + text.length := by
  refine ⟨fun column b h => ⟨h.tracks.known, h.tracks.column, ?_⟩,
    fun column front behind => (endColumn_append column front behind).symm, endColumn_eq⟩
  rw [h.tracks.comment]
  constructor
  · intro hlast
    obtain ⟨n, hn, hcomment⟩ := (Option.any_eq_true _ _).mp hlast
    obtain ⟨text, rfl⟩ := Node.eq_comment hcomment
    obtain ⟨nodes, hnodes⟩ := List.getLast?_eq_some_iff.mp hn
    exact ⟨nodes, text, hnodes⟩
  · rintro ⟨nodes, text, hnodes⟩
    rw [hnodes, List.getLast?_concat]
    rfl

/-- A pair whose key and value both leave a comment to be written above them, behind a line break
    inside the value: the comments stand in front, and the last node is the comment of the value. -/
theorem column_of_written_pair :
    let lay : Lay := fun _ n => { node := n, hoisted := ["; above"] }
    let value : Item := ⟨.list [.atom "f", .newline "\n", .space "   ", .atom "x"], none, some ";v"⟩
    let b := ((Draft.start 2).record lay (.pair ⟨.atom "k", none, none⟩ value)).buffer
    Written 2 b ∧ Node.textAll b.nodes.toList = ";; above\n  ;; above\n  k (f\n   x) ;;v" ∧
      b.column = 9 ∧ ∃ nodes text, b.nodes.toList = nodes ++ [.comment text] := by
  intro lay value b
  have h : Written 2 b := by
    refine Draft.written_record ?_ (by decide) (.start 2)
    show ∀ i ∈ [⟨.atom "k", none, none⟩, value], ∀ c, (lay c i.element).node.isKnown = true
    simp [lay, value, Node.isKnown, Node.allKnown]
  have htext : Node.textAll b.nodes.toList = ";; above\n  ;; above\n  k (f\n   x) ;;v" := by cbv
  obtain ⟨-, hcolumn, hcomment⟩ := column_of_written.1 2 b h
  refine ⟨h, htext, ?_, hcomment.mp (by cbv)⟩
  rw [hcolumn, htext]
  decide

end Buffer

end CljTidy.Layout
