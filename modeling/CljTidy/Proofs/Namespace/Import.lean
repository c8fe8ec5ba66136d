/-
  A bare class in an import, taken apart.

  1. **Program** — `importEntry`: a class with a package becomes the list of its package and its
     name, cut at the last dot.

  2. **Specification** (`KeepsClass`) — said of the text that is written, not of the tree: read
     again, it is one list of two atoms that spell the class with a dot between them.

  3. **The crux** (`keepsClass_iff`) — both halves have to be atoms on their own.  The package is a
     word whenever there is one, since the class is a word up to its last dot.  The name starts
     anew, so it may be a number that is not well formed, a mark or nothing at all; then the class
     is lost, whatever else the text is read as.
-/
import CljTidy.Namespace
import CljTidy.Proofs.Node.Stand
import CljTidy.Proofs.Reading.Reread
import CljTidy.Proofs.Reading.Tree
import CljTidy.Proofs.Token.Span
import CljTidy.Proofs.Token.Word

namespace CljTidy

open Character

/-! ## Texts that are one atom -/

/-- The text is read as one atom. -/
def ReadsAsAtom (text : String) : Prop :=
  ∃ tokens kind, tokenize text = .ok tokens ∧ kind.isAtom = true ∧
    tokens.map Token.said = [(kind, some text), (.endOfText, none)]

/-- A token that makes up a text is a token on its own. -/
theorem whole_of_tokenize {text : String} {tokens : List Token} {kind : TokenKind}
    (h : tokenize text = .ok tokens)
    (hsaid : tokens.map Token.said = [(kind, some text), (.endOfText, none)]) :
    Piece.Whole ⟨kind, text⟩ := by
  obtain ⟨ps, hwhole, hps⟩ := spelled_of_tokenize h
  have hone : ps.map Piece.said = [(kind, some text)] :=
    List.append_cancel_right (hps.symm.trans hsaid)
  obtain ⟨p, rfl, hp⟩ := List.map_eq_singleton_iff.mp hone
  obtain ⟨rfl, hvalue⟩ := Prod.mk.inj hp
  obtain rfl : p.text = text := Option.some.inj hvalue
  exact hwhole p (List.mem_singleton_self p)

/-- The texts that are read as one atom are those that an atom of a tree can have. -/
theorem readsAsAtom_iff {text : String} : ReadsAsAtom text ↔ (Node.atom text).Sound := by
  constructor
  · rintro ⟨tokens, kind, htokens, hatom, hsaid⟩
    have hwhole := whole_of_tokenize htokens hsaid
    have hkind : Piece.kindOf text = kind := hwhole.kindOf_eq
    subst hkind
    exact .leaf hwhole fun _ => hatom
  · rintro (⟨hwhole, hatom⟩ | _ | _ | _ | _)
    have hcuts : Piece.Cuts [] [LeafKind.atom.piece text] := ⟨hwhole, Piece.clearOf_nil _, trivial⟩
    obtain ⟨tokens, htokens, hsaid⟩ := tokenize_pieces hcuts (List.append_nil text.toList).symm
    exact ⟨tokens, _, htokens, hatom rfl, hsaid⟩

/-- White space, line breaks and commas are no atoms. -/
theorem Node.atoms_filter (ns : List Node) :
    (leavesAll (ns.filter fun n => !n.isNoise)).filterMap Leaf.atom? =
      (leavesAll ns).filterMap Leaf.atom? := by
  induction ns with
  | nil => rfl
  | cons n ns ih =>
    rw [leavesAll, List.filterMap_append, ← ih]
    cases hnoise : n.isNoise with
    | false => simp [hnoise, leavesAll]
    | true =>
      obtain ⟨kind, text, rfl⟩ := leaf_of_noise hnoise
      cases kind <;> rfl

namespace Namespace

/-! ## The last dot -/

/-- Nothing behind the last dot is a dot. -/
theorem dot_not_mem_splitLastDot (cs : List Char) : '.' ∉ (splitLastDot cs).2 := by
  show '.' ∉ (cs.reverse.takeWhile (· ≠ '.')).reverse
  rw [List.mem_reverse]
  exact Numeral.dot_not_mem_takeWhile rfl _

/-- A word with a dot is taken apart at the last one. -/
theorem importEntry_word {text : String} (hword : Piece.Whole ⟨.word, text⟩)
    (hdot : '.' ∈ text.toList) (hcolon : text.toList.head? ≠ some ':') :
    importEntry (.atom text) =
      .list [.atom (.ofList (splitLastDot text.toList).1), .space " ",
        .atom (.ofList (splitLastDot text.toList).2)] := by
  obtain ⟨c, cs, htext, -, hall, -⟩ := Piece.whole_word_iff.mp hword
  have hquote : text.toList.head? ≠ some '"' := by
    rw [htext]
    intro hc
    have hchar := hall c (List.mem_cons_self ..)
    rw [Option.some.inj hc] at hchar
    cases hchar
  simp [importEntry, hdot, Node.isKeyword, Node.isString, hcolon, hquote]

/-! ## Reading the halves again -/

/-- Read again, the entry for a bare class is one list of two atoms, and they spell the class with
    a dot between them. -/
def KeepsClass (text : String) : Prop :=
  ∃ nodes children package name, parse (importEntry (.atom text)).text = .ok nodes ∧
    nodes.filter (fun n => !n.isNoise) = [.list children] ∧
    children.filter (fun n => !n.isNoise) = [.atom package, .atom name] ∧
    package ++ "." ++ name = text

/-- An atom of a tree has a text. -/
theorem ne_empty_of_sound {text : String} (h : (Node.atom text).Sound) : text.toList ≠ [] := by
  obtain ⟨c, cs, hchars, -⟩ := h.head_chars rfl
  rw [Node.chars_pieces] at hchars
  rw [show text.toList = c :: cs from hchars]
  exact List.cons_ne_nil c cs

/-- Two atoms in a list are read again. -/
theorem parse_pair {package name : String} (hpackage : (Node.atom package).Sound)
    (hname : (Node.atom name).Sound) :
    parse (Node.list [.atom package, .space " ", .atom name]).text =
      .ok [.list [.atom package, .space " ", .atom name]] := by
  have hspace : (Node.space " ").Sound := .leaf Piece.whole_space (by rintro ⟨⟩)
  have hsound : (Node.list [.atom package, .space " ", .atom name]).Sound := by
    refine .branch rfl fun c hc => ?_
    simp only [List.mem_cons, List.not_mem_nil, or_false] at hc
    rcases hc with rfl | rfl | rfl
    · exact hpackage
    · exact hspace
    · exact hname
  have hcuts : Piece.Cuts [] (Node.list [.atom package, .space " ", .atom name]).pieces := by
    refine Node.cuts_branch rfl (Piece.cuts_append.mpr ⟨?_, ⟨Piece.whole_space, ?_, ?_⟩⟩)
    · exact Node.stands_atom hpackage _ (stops_cons (by decide) _)
    · obtain ⟨c, cs, hchars, hblank, -⟩ := hname.head_chars rfl
      show Piece.ClearOf _ (Piece.chars (Node.atom name).pieces ++ _)
      rw [hchars]
      exact Node.clearOf_space hblank _
    · exact Node.stands_atom hname _ (stops_cons (by decide) _)
  have hall : ∀ n ∈ [Node.list [.atom package, .space " ", .atom name]], n.Sound :=
    List.forall_mem_singleton.mpr hsound
  rw [← List.append_nil (Node.pieces _)] at hcuts
  have hparse := parse_pieces hall hcuts
  rwa [Node.textAll, Node.textAll, String.append_empty] at hparse

/-- The atoms of the list, if it can be read, start with the package. -/
theorem atoms_of_pair {package name : String} {nodes : List Node}
    (hpackage : Piece.Whole ⟨.word, package⟩) (hname : ∀ c ∈ name.toList, isTokenChar c = true)
    (h : parse (Node.list [.atom package, .space " ", .atom name]).text = .ok nodes) :
    (Node.document nodes).atomTexts.head? = some package := by
  obtain ⟨tokens, htokens⟩ := tokenize_of_parse h
  obtain ⟨hfault, rfl⟩ := scan_of_tokenize htokens
  have htext : (Node.list [.atom package, .space " ", .atom name]).text.toList =
      Piece.chars [⟨.openList, "("⟩, ⟨.word, package⟩, ⟨.whitespace, " "⟩] ++
        (name.toList ++ [')']) := by
    simp [Node.text, Node.textAll, Bracket.opening, Bracket.closing, String.toList_append]
  have hcuts : Piece.Cuts (name.toList ++ [')'])
      [⟨.openList, "("⟩, ⟨.word, package⟩, ⟨.whitespace, " "⟩] := by
    refine ⟨Bracket.whole_piece (b := .list) rfl, Piece.clearOf_of_none (fun _ => rfl) _, hpackage,
      Piece.clearOf_of_stops rfl (stops_cons (by decide) _), Piece.whole_space, ?_, trivial⟩
    cases hchars : name.toList with
    | nil => exact Node.clearOf_space (by decide) _
    | cons c cs =>
      have hc : isTokenChar c = true := hname c (by rw [hchars]; exact List.mem_cons_self ..)
      exact Node.clearOf_space (isBlank_of_isTokenChar hc) _
  obtain ⟨span, position, -, hsaid⟩ := scan_append _ [] {} hcuts
  rw [← htext] at hsaid
  have hatoms := atomTexts_of_parse htokens h
  rw [Piece.values_of_said, hsaid] at hatoms
  have hhead := congrArg List.head? hatoms
  rw [List.head?_map] at hhead
  cases hfirst : (Node.document nodes).atomTexts.head? with
  | none => rw [hfirst] at hhead; cases hhead
  | some first => rw [hfirst] at hhead; exact Option.some.inj hhead

/-- The only atoms of a text that is read as a list of two are these. -/
theorem atoms_of_list {text : String} {nodes children : List Node} {p q : String}
    (hparse : parse text = .ok nodes)
    (hnodes : nodes.filter (fun n => !n.isNoise) = [.list children])
    (hchildren : children.filter (fun n => !n.isNoise) = [.atom p, .atom q]) :
    (Node.document nodes).atomTexts = [p, q] ∧ (Node.atom p).Sound ∧ (Node.atom q).Sound := by
  have hlist : (Node.list children).Sound := sound_of_parse hparse _
    (List.mem_of_mem_filter (by rw [hnodes]; exact List.mem_singleton_self _))
  obtain _ | ⟨-, hcs⟩ := hlist
  have hsound : ∀ n ∈ [Node.atom p, .atom q], n.Sound :=
    fun n hn => hcs n (List.mem_of_mem_filter (by rw [hchildren]; exact hn))
  refine ⟨?_, hsound _ (List.mem_cons_self ..), hsound _ (by simp)⟩
  show (Node.leavesAll nodes).filterMap Leaf.atom? = _
  rw [← Node.atoms_filter, hnodes]
  show ((Node.list children).leaves ++ []).filterMap Leaf.atom? = _
  rw [Node.leaves_branch rfl, List.append_nil, Leaf.shows_atom.view_sign, List.filterMap_append,
    ← Node.atoms_filter, hchildren]
  rfl

/-- In front of the last dot of a word that is no keyword stands a word, or nothing. -/
theorem whole_package {text : String} (hword : Piece.Whole ⟨.word, text⟩) {package name : List Char}
    (hsplit : package ++ '.' :: name = text.toList) (hcolon : text.toList.head? ≠ some ':')
    (hne : package ≠ []) : Piece.Whole ⟨.word, .ofList package⟩ := by
  have htext : text = .ofList package ++ "." ++ .ofList name := by
    rw [← String.toList_inj, String.toList_append, String.toList_append]
    simpa using hsplit.symm
  rw [htext] at hword
  refine hword.before_dot (fun hempty => hne ?_) fun hhead => hcolon ?_
  · simpa using hempty
  · rw [String.toList_ofList] at hhead
    rw [← hsplit, List.head?_append, hhead]
    rfl

/-- **A bare class is kept exactly if both halves can be read.**  Of the package it is enough that
    there is one; the name has to be an atom on its own. -/
theorem keepsClass_iff {text : String} {tokens : List Token} (htokens : tokenize text = .ok tokens)
    (hsaid : tokens.map Token.said = [(.word, some text), (.endOfText, none)])
    (hdot : '.' ∈ text.toList) (hcolon : text.toList.head? ≠ some ':') :
    let (package, name) := splitLastDot text.toList
    KeepsClass text ↔ package ≠ [] ∧ ReadsAsAtom (.ofList name) := by
  have hword := whole_of_tokenize htokens hsaid
  have hentry := importEntry_word hword hdot hcolon
  have hname := dot_not_mem_splitLastDot text.toList
  have hsplit := splitLastDot_append hdot
  generalize splitLastDot text.toList = halves at hentry hname hsplit
  obtain ⟨package, name⟩ := halves
  have hpackage := whole_package hword hsplit hcolon
  show KeepsClass text ↔ package ≠ [] ∧ ReadsAsAtom (.ofList name)
  rw [readsAsAtom_iff, KeepsClass, hentry]
  constructor
  · rintro ⟨nodes, children, p, q, hparse, hnodes, hchildren, hclass⟩
    obtain ⟨htexts, hp, hq⟩ := atoms_of_list hparse hnodes hchildren
    have hchars : p.toList ++ '.' :: q.toList = package ++ '.' :: name := by
      rw [hsplit, ← hclass]
      simp [String.toList_append]
    have hne : package ≠ [] := by
      -- Otherwise the first dot is the last one, and there is no atom in front of it.
      rintro rfl
      obtain ⟨c, cs, hcs⟩ := List.exists_cons_of_ne_nil (ne_empty_of_sound hp)
      rw [hcs, List.cons_append, List.nil_append] at hchars
      refine hname ?_
      rw [← (List.cons.inj hchars).2]
      simp
    have hrest : ∀ c ∈ (String.ofList name).toList, isTokenChar c = true := by
      obtain ⟨c, cs, hcs, -, hall, -⟩ := Piece.whole_word_iff.mp hword
      rw [← hcs, ← hsplit] at hall
      intro d hd
      rw [String.toList_ofList] at hd
      exact hall d (List.mem_append_right _ (List.mem_cons_of_mem _ hd))
    have hfirst : p = .ofList package := by
      have hhead := atoms_of_pair (hpackage hne) hrest hparse
      rw [htexts] at hhead
      exact Option.some.inj hhead
    have hsecond : q = .ofList name := by
      rw [hfirst, String.toList_ofList] at hchars
      have hsame := (List.cons.inj (List.append_cancel_left hchars)).2
      rw [← hsame, String.ofList_toList]
    exact ⟨hne, hsecond ▸ hq⟩
  · rintro ⟨hne, hsound⟩
    have hwhole := hpackage hne
    have hkind : Piece.kindOf (.ofList package) = .word := hwhole.kindOf_eq
    refine ⟨_, _, _, _, parse_pair (.leaf ?_ fun _ => ?_) hsound, rfl, rfl, ?_⟩
    · rw [LeafKind.piece, hkind]
      exact hwhole
    · rw [hkind]
      rfl
    · rw [← String.toList_inj, ← hsplit]
      simp [String.toList_append]

/-- A class in a package is kept; a name that starts like a number and is none cannot be read. -/
theorem keepsClass_iff_number : KeepsClass "java.io.File" ∧ ¬ KeepsClass "a.1b" := by
  have hjava : tokenize "java.io.File" =
      .ok [⟨.word, some "java.io.File", ⟨1, 1⟩⟩, .atEnd ⟨1, 13⟩] := by cbv
  have hfile : tokenize "File" = .ok [⟨.word, some "File", ⟨1, 1⟩⟩, .atEnd ⟨1, 5⟩] := by cbv
  have hdigit : tokenize "a.1b" = .ok [⟨.word, some "a.1b", ⟨1, 1⟩⟩, .atEnd ⟨1, 5⟩] := by cbv
  have hfault : tokenize "1b" = .error ⟨.lexical (.invalidNumber "1b"), ⟨1, 1⟩⟩ := by cbv
  constructor
  · exact (keepsClass_iff hjava rfl (by decide) (by decide)).mpr
      ⟨by decide, _, .word, hfile, rfl, rfl⟩
  · intro h
    have hname : ReadsAsAtom "1b" := ((keepsClass_iff hdigit rfl (by decide) (by decide)).mp h).2
    obtain ⟨tokens, kind, htokens, -⟩ := hname
    rw [hfault] at htokens
    cases htokens

end Namespace

end CljTidy
