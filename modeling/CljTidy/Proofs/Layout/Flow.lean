/-
  Gaps fit.

  A script flows if each gap fits between its neighbours: nothing stands in front of the first item
  and something in front of every other one, and a comment starts a line and ends it; no line goes
  left of a bound.  The scripts of all pages flow, so no two items run together and no comment
  swallows what follows.
-/
import CljTidy.Proofs.Layout.Account

namespace CljTidy.Layout

/-! ## Scripts that flow -/

/-- The gap of an item fits behind what stands in front, and does not go left of a column. -/
def Placed.Fits (low : Int) (p : Placed) : Option Item → Prop
  | none => p.gap = .none
  | some before =>
      match p.gap with
      | .none => False
      | .space => before.closesLine = false ∧ p.item.isComment = false
      | .line column _ => low ≤ column

/-- Every gap fits; `before` is the item in front. -/
def Flows (low : Int) : Option Item → Script → Prop
  | _, [] => True
  | before, p :: s => p.Fits low before ∧ Flows low (some p.item) s

/-- The last item of a script behind another one. -/
def lastItem (before : Option Item) (s : Script) : Option Item :=
  s.foldl (fun _ p => some p.item) before

/-- Two scripts flow if the first does and the second does behind its last item. -/
theorem flows_append {low : Int} {before : Option Item} {s t : Script} :
    Flows low before (s ++ t) ↔ Flows low before s ∧ Flows low (lastItem before s) t := by
  induction s generalizing before with
  | nil => simp [Flows, lastItem]
  | cons p s ih => simp [Flows, lastItem, ih, and_assoc]

/-- The last item of two scripts is that of the second, if it has one. -/
theorem lastItem_append (before : Option Item) (s t : Script) :
    lastItem before (s ++ t) = lastItem (lastItem before s) t := by
  simp [lastItem]

/-- Something stands in front of what follows a script with an item in front. -/
theorem lastItem_some (before : Item) (s : Script) :
    ∃ i, lastItem (some before) s = some i := by
  induction s generalizing before with
  | nil => exact ⟨before, rfl⟩
  | cons p s ih => exact ih p.item

/-- Anything may stand behind the gap. -/
def Gap.Opens (low : Int) (before : Option Item) : Gap → Prop
  | .none => before = Option.none
  | .space => False
  | .line column _ => before.isSome ∧ low ≤ column

section

variable {low : Int}

/-- A gap that anything may stand behind fits. -/
theorem Gap.Opens.fits {before : Option Item} {g : Gap} (h : g.Opens low before) (i : Item) :
    (Placed.mk g i).Fits low before := by
  cases g with
  | none => obtain rfl : before = Option.none := h; rfl
  | space => exact h.elim
  | line column blank =>
    cases before with
    | none => cases h.1
    | some before => exact h.2

/-- A line break is such a gap, behind anything. -/
theorem opens_line {column : Int} (h : low ≤ column) (before : Item) (blank : Bool) :
    (Gap.line column blank).Opens low (some before) := ⟨rfl, h⟩

/-- Rows flow: behind the first gap there are line breaks only. -/
theorem flows_rows {column : Int} (hc : low ≤ column) {before : Option Item} {g : Gap}
    (hg : g.Opens low before) (items : List Item) : Flows low before (rows column g items) := by
  induction items generalizing before g with
  | nil => trivial
  | cons i items ih => exact ⟨hg.fits i, ih (opens_line hc i false)⟩

/-- So do items spread over a document. -/
theorem flows_spread (hlow : low ≤ 0) {before : Option Item} {g : Gap} (hg : g.Opens low before)
    (items : List Item) : Flows low before (spread g items) := by
  induction items generalizing before g with
  | nil => trivial
  | cons i items ih => exact ⟨hg.fits i, ih (opens_line hlow i _)⟩

/-! ## Records -/

/-- A gap that fits between a key without a comment and its value. -/
def Gap.Joins (low : Int) : Gap → Prop
  | .none => False
  | .space => True
  | .line column _ => low ≤ column

/-- The last item of rows is the last one they are made of. -/
theorem lastItem_rows {column : Int} {before : Option Item} {g : Gap} (items : List Item)
    (i : Item) : lastItem before (rows column g (items ++ [i])) = some i := by
  induction items generalizing before g with
  | nil => rfl
  | cons j items ih => exact ih

/-- The rows of a record: comments above, the key, and the value behind a key without a comment. -/
theorem flows_recordRows {lay : Lay} (hlay : KeepsFace lay) {mid : Gap} (hmid : mid.Joins low)
    {column : Int} (hc : low ≤ column) {before : Option Item} {g : Gap} (hg : g.Opens low before)
    {r : Record} (hr : r.WellFormed) : Flows low before (recordRows lay mid column g r) := by
  cases r with
  | comment text => exact ⟨hg.fits _, trivial⟩
  | orphan i => exact flows_rows hc hg _
  | pair key value =>
    obtain ⟨hkey, hbare, hvalue⟩ := hr
    refine flows_append.mpr ⟨flows_rows hc hg _, ?_, trivial⟩
    rw [lastItem_rows]
    cases mid with
    | none => exact hmid
    | space =>
      refine ⟨?_, (hlay.isComment_settle _ value).trans hvalue⟩
      refine (hlay.closesLine_settle column key).trans ?_
      simp [Item.closesLine, hkey, hbare]
    | line column blank => exact hmid

/-- Records in a row, each starting a line. -/
theorem flows_recordScript {lay : Lay} (hlay : KeepsFace lay) {mid : Gap} (hmid : mid.Joins low)
    {column : Int} (hc : low ≤ column) {next : Record → Gap}
    (hnext : ∀ r i, (next r).Opens low (some i)) {before : Option Item} {g : Gap}
    (hg : g.Opens low before) {records : List Record} (hr : ∀ r ∈ records, r.WellFormed) :
    Flows low before (recordScript lay mid column next g records) := by
  induction records generalizing before g with
  | nil => trivial
  | cons r records ih =>
    refine flows_append.mpr ⟨flows_recordRows hlay hmid hc hg (hr r (List.mem_cons_self ..)), ?_⟩
    have hsome : ∃ i, lastItem before (recordRows lay mid column g r) = some i := by
      cases r with
      | comment text => exact ⟨_, rfl⟩
      | orphan i => exact ⟨_, lastItem_rows _ _⟩
      | pair key value => exact ⟨_, by rw [recordRows, lastItem_append]; rfl⟩
    obtain ⟨i, hi⟩ := hsome
    rw [hi]
    exact ih (hnext r i) fun r hr' => hr r (List.mem_cons_of_mem _ hr')

/-! ## Lines behind a head -/

/-- Without its trailing comment an element does not close its line. -/
theorem closesLine_bare {i : Item} (hi : i.isComment = false) : i.bare.closesLine = false := by
  have hbare : i.bare.isComment = false := hi
  unfold Item.closesLine
  rw [hbare]
  rfl

/-- The arguments on the line of a call: all but the last are without comments, so one space fits
    in front of the next. -/
theorem flows_argumentLine {lay : Lay} (hlay : KeepsFace lay) (hoist : Bool) (n : Nat)
    (column : Int) (items : List Item) : ∀ before : Item, before.closesLine = false →
      Flows low (some before) (argumentLine lay hoist n column items).script := by
  have settle_bare : ∀ {i : Item}, i.isComment = false → ∀ c,
      (settle lay c i.bare).isComment = false ∧ (settle lay c i.bare).closesLine = false := by
    intro i hi c
    exact ⟨(hlay.isComment_settle c i.bare).trans hi,
      (hlay.closesLine_settle c i.bare).trans (closesLine_bare hi)⟩
  fun_induction argumentLine lay hoist n column items with
  | case1 => exact fun _ _ => trivial
  | case2 => exact fun _ _ => trivial
  | case3 n column i items hi hh ih => exact ih
  | case4 => exact fun _ _ => trivial
  | case5 n column i items hi j comments hcomment ih =>
    intro before hopen
    have hj := settle_bare (Bool.eq_false_iff.mpr hi) (column + 1)
    exact ⟨⟨hopen, hj.1⟩, ih j hj.2⟩
  | case6 n column i items hi j comments text hcomment hn ih =>
    intro before hopen
    have hj := settle_bare (Bool.eq_false_iff.mpr hi) (column + 1)
    exact ⟨⟨hopen, hj.1⟩, ih j hj.2⟩
  | case7 n column i items hi comments text hcomment hn =>
    intro before hopen
    exact ⟨⟨hopen, (hlay.isComment_settle _ i).trans (Bool.eq_false_iff.mpr hi)⟩, trivial⟩

/-- The line of a call starts with the head, which has nothing in front. -/
theorem flows_headLine {lay argumentLay : Lay} (hlay : KeepsFace lay)
    (hargument : KeepsFace argumentLay) (style : CallStyle) (column : Int) {head : Item}
    (hhead : head.isComment = false) (items : List Item) :
    Flows low none (headLine lay argumentLay style column head items).script ∧
      ∃ i, lastItem none (headLine lay argumentLay style column head items).script = some i := by
  have hopen : (settle lay (column + 1) head.bare).closesLine = false := by
    refine (hlay.closesLine_settle (column + 1) head.bare).trans ?_
    exact closesLine_bare hhead
  have harguments : Flows low (some (settle lay (column + 1) head.bare)) _ :=
    flows_argumentLine hargument style.hoist style.arguments
      ((settle lay (column + 1) head.bare).ending (column + 1)) items _ hopen
  unfold headLine
  repeat' split
  · exact ⟨⟨rfl, harguments⟩, lastItem_some _ _⟩
  · exact ⟨⟨rfl, harguments⟩, lastItem_some _ _⟩
  · exact ⟨⟨rfl, trivial⟩, _, rfl⟩

/-- Items in front of clauses: on the line as long as nothing closes it, and then on lines of
    their own. -/
theorem flows_leadingLine {lay : Lay} (hlay : KeepsFace lay) {margin : Int} (hm : low ≤ margin)
    (n : Nat) (inline : Bool) (column : Int) (items : List Item) :
    ∀ before : Item, (inline = true → before.closesLine = false) →
      Flows low (some before) (leadingLine lay margin n inline column items).script := by
  fun_induction leadingLine lay margin n inline column items with
  | case1 => exact fun _ _ => trivial
  | case2 => exact fun _ _ => trivial
  | case3 n inline column i items hi ih => exact fun before _ => ⟨hm, ih _ (by rintro ⟨⟩)⟩
  | case4 n column i items hi j ih =>
    intro before hopen
    have hi : i.isComment = false := Bool.eq_false_iff.mpr hi
    refine ⟨⟨hopen rfl, (hlay.isComment_settle _ i).trans hi⟩, ih j fun hnone => ?_⟩
    refine (hlay.closesLine_settle _ i).trans ?_
    simpa [Item.closesLine, hi] using hnone
  | case5 n inline column i items hi hinline ih =>
    intro before _
    obtain ⟨j, hj⟩ := lastItem_some before (rows margin (.line margin false) (settled lay margin i))
    refine flows_append.mpr ⟨flows_rows hm (opens_line hm before false) _, ?_⟩
    rw [hj]
    exact ih j (by rintro ⟨⟩)

/-! ## Pages -/

/-- A head with arguments on its line, and the other items below. -/
theorem flows_call {lay argumentLay : Lay} (hlay : KeepsFace lay)
    (hargument : KeepsFace argumentLay) (bodyLay : Lay) (hlow : low ≤ 0) {style : CallStyle}
    {column : Int} (hc : low ≤ column) (hbody : ∀ c ∈ style.bodyColumn, low ≤ c) {head : Item}
    (hhead : head.isComment = false) (items : List Item) :
    let p := callPage lay argumentLay bodyLay style column head items
    Flows low none p.script ∧ low ≤ p.margin := by
  have hmargin : low ≤ (callPage lay argumentLay bodyLay style column head items).margin :=
    Account.margin_call hlow hc hbody
  obtain ⟨hline, i, hi⟩ := flows_headLine hlay hargument style column hhead items
  refine ⟨flows_append.mpr ⟨hline, ?_⟩, hmargin⟩
  rw [hi]
  exact flows_rows hmargin (opens_line hmargin i false) _

/-- Calls and clauses flow from the head on. -/
theorem flows_form {lay : Lay} (hlay : Faithful lay) {form : Form} (hform : form.Indents)
    (hlow : low ≤ 0) {column : Int} (hc : low ≤ column) {head : Item}
    (hhead : head.isComment = false) (items : List Item) :
    Flows low none (form.page lay column head items).script ∧
      low ≤ (form.page lay column head items).margin := by
  have hplain : KeepsFace lay := hlay .plain
  cases form with
  | call argument body arguments indent hoist =>
    exact flows_call hplain (hlay argument) (body.lay lay) hlow hc (le_indent hc hform) hhead items
  | clauses leading =>
    have hm : low ≤ column + 2 := by omega
    refine ⟨?_, hm⟩
    have hline : Flows low (some (settle lay (column + 1) head)) _ :=
      flows_leadingLine hplain hm leading head.comment.isNone
        ((settle lay (column + 1) head).ending (column + 1)) items
        (settle lay (column + 1) head) fun hnone => by
          refine (hplain.closesLine_settle _ head).trans ?_
          simpa [Item.closesLine, hhead] using hnone
    refine flows_append.mpr ⟨⟨rfl, hline⟩, ?_⟩
    obtain ⟨i, hi⟩ := lastItem_some (settle lay (column + 1) head)
      (leadingLine lay (column + 2) leading head.comment.isNone
        ((settle lay (column + 1) head).ending (column + 1)) items).script
    show Flows low (lastItem (some (settle lay (column + 1) head)) _) _
    rw [hi]
    have hmid : (Gap.line (column + 2) false).Joins low := hm
    exact flows_recordScript hplain hmid hm (fun r i => opens_line hm i _) (opens_line hm i false)
      (Record.wellFormed_ofItems _)

/-- **Gaps fit.**  The script of every plan flows, and its margin is not left of the bound. -/
theorem flows_page {lay : Lay} (hlay : Faithful lay) {plan : Plan} (hplan : plan.Indents)
    (hlow : low ≤ 0) {column : Int} (hc : low ≤ column) (b : Bracket) (items : List Item) :
    Flows low none (plan.page lay column b items).script ∧
      low ≤ (plan.page lay column b items).margin := by
  have halign : low ≤ column + b.width := by omega
  have hfirst : Gap.none.Opens low none := rfl
  cases plan with
  | sequence => exact ⟨flows_rows halign hfirst _, halign⟩
  | pairs =>
    have hmid : Gap.space.Joins low := trivial
    exact ⟨flows_recordScript (hlay .plain) hmid halign (fun r i => opens_line halign i false)
      hfirst (Record.wellFormed_ofItems items), halign⟩
  | headed form =>
    simp only [Plan.page]
    rcases hsplit : Item.splitHead items with ⟨leading, _ | head, rest⟩
    · exact ⟨trivial, hc⟩
    · exact flows_form hlay hplan hlow hc (isComment_of_splitHead hsplit) rest

end

end CljTidy.Layout
