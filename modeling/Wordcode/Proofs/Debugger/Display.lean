import Mathlib.Data.Bool.AllAny
import Wordcode.Debugger.Panels
import Wordcode.Proofs.Listing.Text

/-!
# What is seen of a panel

A panel is one text with markup. What is seen of it are its lines (`textLines`), and of
these what remains without the markup. A piece of markup `Displays` a text if that is
what remains of it, whatever stands behind. So a panel that is made of pieces is seen
piece by piece, as long as no character of a piece is taken for markup or for the end
of a line: a number has digits and a sign, and a line of a listing little more
(`isListingChar_of_mem_text`).

A line of the listing then displays its marks, its address and what stands there
(`displays_markedLine`), and has a mark exactly where there has to be one
(`mem_markedLine_iff`). A row of the memory panel displays an address and the cells from
there on (`displays_row`).
-/

namespace Wordcode

/-- The lines of a text. -/
def textLines (text : String) : List String := (text.toList.splitOn '\n').map String.ofList

/-- A piece of markup shows these characters, and then what is behind it is shown. -/
def Displays (markup shown : List Char) : Prop :=
  ∀ rest, plainText false (markup ++ rest) = shown ++ plainText false rest

variable {c : Char} {text style separator : String} {texts : List String}
  {markup markup' shown shown' rest : List Char} {n : Int}

/-! ## Lines -/

/-- Rows without newlines are the lines of their text. -/
theorem textLines_rowsText {notice : String} (hne : texts ≠ [])
    (h : ∀ text ∈ texts, '\n' ∉ text.toList) :
    textLines (Debugger.rowsText notice texts) = texts := by
  have hsplit : (['\n'].intercalate (texts.map String.toList)).splitOn '\n' =
      texts.map String.toList := by
    refine List.splitOn_intercalate '\n' (fun line hline => ?_) (by simpa using hne)
    obtain ⟨text, htext, rfl⟩ := List.mem_map.1 hline
    exact h text htext
  rw [textLines, Debugger.rowsText, if_neg (by simpa using hne), String.toList_intercalate]
  show ((['\n'].intercalate (texts.map String.toList)).splitOn '\n').map String.ofList = texts
  rw [hsplit, List.map_map]
  exact (List.map_congr_left fun text _ => String.ofList_toList).trans (List.map_id _)

theorem mem_toList_intercalate (h : c ∈ (separator.intercalate texts).toList) :
    c ∈ separator.toList ∨ ∃ text ∈ texts, c ∈ text.toList := by
  rw [String.toList_intercalate] at h
  induction texts with
  | nil => simp at h
  | cons text texts ih =>
    cases texts with
    | nil => exact .inr ⟨text, by simp, by simpa using h⟩
    | cons text' texts =>
      rw [List.map_cons, List.map_cons, List.intercalate_cons_cons, ← List.map_cons] at h
      rcases List.mem_append.1 h with h | h
      · rcases List.mem_append.1 h with h | h
        · exact .inr ⟨text, List.mem_cons_self, h⟩
        · exact .inl h
      · rcases ih h with h | ⟨other, hother, h⟩
        · exact .inl h
        · exact .inr ⟨other, List.mem_cons_of_mem _ hother, h⟩

theorem mem_alignRight {width : Nat} (h : c ∈ (alignRight width text).toList) :
    c = ' ' ∨ c ∈ text.toList := by
  rw [toList_alignRight] at h
  exact (List.mem_append.1 h).imp_left List.eq_of_mem_replicate

theorem mem_alignLeft {width : Nat} (h : c ∈ (alignLeft width text).toList) :
    c = ' ' ∨ c ∈ text.toList := by
  rw [toList_alignLeft] at h
  exact (List.mem_append.1 h).symm.imp_left List.eq_of_mem_replicate

/-! ## Markup -/

theorem escapeMarkup_append (text text' : String) :
    escapeMarkup (text ++ text') = escapeMarkup text ++ escapeMarkup text' :=
  String.toList_inj.1 (by simp)

theorem escapeMarkup_of_not_mem (h : '[' ∉ text.toList) : escapeMarkup text = text := by
  refine String.toList_inj.1 ?_
  rw [toList_escapeMarkup]
  have hkeep : ∀ c ∈ text.toList, (if c = '[' then ['\\', '['] else [c]) = [c] := by
    intro c hc
    rw [if_neg]
    rintro rfl
    exact h hc
  rw [List.flatMap_congr hkeep, List.flatMap_singleton']

theorem mem_escapeMarkup_iff (hc : c ≠ '\\') :
    c ∈ (escapeMarkup text).toList ↔ c ∈ text.toList := by
  rw [toList_escapeMarkup, List.mem_flatMap]
  constructor
  · rintro ⟨d, hd, h⟩
    split at h
    · next hbracket =>
      subst hbracket
      obtain rfl | rfl : c = '\\' ∨ c = '[' := by simpa using h
      · exact absurd rfl hc
      · exact hd
    · rwa [List.mem_singleton.1 h]
  · intro h
    refine ⟨c, h, ?_⟩
    split
    · next hbracket => simp [hbracket]
    · exact List.mem_singleton_self c

namespace Displays

theorem plainText_eq (h : Displays markup shown) : plainText false markup = shown := by
  have := h []
  rwa [List.append_nil, plainText, List.append_nil] at this

theorem append (h : Displays markup shown) (h' : Displays markup' shown') :
    Displays (markup ++ markup') (shown ++ shown') := fun rest => by
  rw [List.append_assoc, h, h', List.append_assoc]

end Displays

theorem plainText_cons (hc : c ≠ '[') (hb : c ≠ '\\') :
    plainText false (c :: rest) = c :: plainText false rest := by
  rw [plainText]
  · simp [hc]
  · rintro _ rfl
    exact absurd rfl hb

/-- The rest of a tag is not seen. -/
theorem plainText_tag {tag : List Char} (h : ∀ c ∈ tag, c ≠ ']' ∧ c ≠ '\\') :
    plainText true (tag ++ ']' :: rest) = plainText false rest := by
  induction tag with
  | nil => simp [plainText]
  | cons c tag ih =>
    obtain ⟨⟨hc, hb⟩, htag⟩ := List.forall_mem_cons.1 h
    rw [List.cons_append, plainText]
    · simpa [hc] using ih htag
    · rintro _ rfl
      exact absurd rfl hb

theorem displays_escapeMarkup (h : '\\' ∉ text.toList) :
    Displays (escapeMarkup text).toList text.toList := fun rest => by
  rw [toList_escapeMarkup]
  generalize text.toList = l at h ⊢
  induction l with
  | nil => rfl
  | cons c l ih =>
    rw [List.mem_cons, not_or] at h
    rw [List.flatMap_cons, List.append_assoc, List.cons_append, ← ih h.2]
    by_cases hc : c = '['
    · subst hc
      simp [plainText]
    · rw [if_neg hc]
      exact plainText_cons hc fun hb => h.1 hb.symm

theorem displays_styled (hs : ∀ c ∈ style.toList, c ≠ ']' ∧ c ≠ '\\')
    (h : Displays text.toList shown) : Displays (styled style text).toList shown := fun rest => by
  have hclose : ∀ c ∈ '/' :: style.toList, c ≠ ']' ∧ c ≠ '\\' :=
    List.forall_mem_cons.2 ⟨by decide, hs⟩
  have htext : (styled style text).toList ++ rest =
      '[' :: (style.toList ++ ']' :: (text.toList ++
        '[' :: ('/' :: style.toList ++ ']' :: rest))) := by
    simp [styled]
  have hopen : ∀ l, plainText false ('[' :: l) = plainText true l := fun l => by
    simp [plainText]
  rw [htext, hopen, plainText_tag hs, h, hopen, plainText_tag hclose]

theorem displays_self (h : ∀ c ∈ markup, c ≠ '[' ∧ c ≠ '\\') : Displays markup markup :=
  fun rest => by
    induction markup with
    | nil => rfl
    | cons c l ih =>
      obtain ⟨⟨hc, hb⟩, hl⟩ := List.forall_mem_cons.1 h
      rw [List.cons_append, plainText_cons hc hb, ih hl, List.cons_append]

theorem displays_intercalate {α : Type} {l : List α} {f g : α → String}
    (hs : Displays separator.toList separator.toList)
    (h : ∀ a ∈ l, Displays (f a).toList (g a).toList) :
    Displays (separator.intercalate (l.map f)).toList (separator.intercalate (l.map g)).toList := by
  simp only [String.toList_intercalate, List.map_map]
  induction l with
  | nil => exact fun _ => rfl
  | cons a l ih =>
    obtain ⟨ha, hl⟩ := List.forall_mem_cons.1 h
    cases l with
    | nil => simpa using ha
    | cons b l =>
      simp only [List.map_cons, List.intercalate_cons_cons] at ih ⊢
      exact (ha.append hs).append (ih hl)

/-! ## Characters -/

/-- A digit or a sign. -/
def IsNumeralChar (c : Char) : Prop := c.isDigit = true ∨ c ∈ ['+', '-']

/-- A character of a number, of a name, or of what stands around operands. -/
def IsListingChar (c : Char) : Prop :=
  IsNumeralChar c ∨ c.isAlpha = true ∨ c ∈ [' ', ',', '[', ']']

instance (c : Char) : Decidable (IsNumeralChar c) := inferInstanceAs (Decidable (_ ∨ _))

instance (c : Char) : Decidable (IsListingChar c) := inferInstanceAs (Decidable (_ ∨ _))

theorem isNumeralChar_of_denotes {text : List Char} {numeral : Numeral}
    (h : Numeral.Denotes text numeral) (hc : c ∈ text) : IsNumeralChar c := by
  cases h with
  | unsigned h => exact .inl (h.isDigit c hc)
  | plus h =>
    rcases List.mem_cons.1 hc with rfl | hc
    · exact .inr (by decide)
    · exact .inl (h.isDigit c hc)
  | minus h =>
    rcases List.mem_cons.1 hc with rfl | hc
    · exact .inr (by decide)
    · exact .inl (h.isDigit c hc)

theorem isNumeralChar_of_mem_toString (h : c ∈ (toString n).toList) : IsNumeralChar c :=
  isNumeralChar_of_denotes (Numeral.denotes_toString n) h

theorem not_mem_alignRight_toString {width : Nat} (hblank : c ≠ ' ') (hc : ¬ IsNumeralChar c) :
    c ∉ (alignRight width (toString n)).toList := fun h =>
  (mem_alignRight h).elim hblank fun h => hc (isNumeralChar_of_mem_toString h)

/-- Around the numeral of an operand stand brackets and the name of the base register. -/
theorem isListingChar_of_mem_operandText {mode : Mode} (h : c ∈ (operandText mode n).toList) :
    IsListingChar c := by
  cases mode with
  | position =>
    simp only [operandText, String.toList_append, List.mem_append] at h
    rcases h with (h | h) | h
    · rw [List.mem_singleton.1 h]
      decide
    · exact .inl (isNumeralChar_of_mem_toString h)
    · rw [List.mem_singleton.1 h]
      decide
  | immediate => exact .inl (isNumeralChar_of_mem_toString h)
  | relative =>
    simp only [operandText, String.toList_append, List.mem_append] at h
    have hopen : ∀ c ∈ "[rb".toList, IsListingChar c := List.all_iff_forall_prop.1 (by decide)
    rcases h with (h | h) | h
    · exact hopen c h
    · exact .inl (isNumeralChar_of_denotes (Numeral.denotes_signedText n) h)
    · rw [List.mem_singleton.1 h]
      decide

theorem isListingChar_of_mem_mnemonic {op : Opcode} (h : c ∈ op.mnemonic.toList) :
    IsListingChar c := by
  have hall : ∀ c ∈ op.mnemonic.toList, IsListingChar c := by
    refine List.all_iff_forall_prop.1 ?_
    rcases op with (_ | _ | _ | _) | _ | _ | (_ | _) | _ | _ <;> decide
  exact hall c h

/-- What a line of a listing shows is written in few characters. -/
theorem isListingChar_of_mem_text {content : Listing.Content} (h : c ∈ content.text.toList) :
    IsListingChar c := by
  have hblank : IsListingChar ' ' := by decide
  cases content with
  | data word =>
    have hname : ∀ c ∈ "DATA ".toList, IsListingChar c := List.all_iff_forall_prop.1 (by decide)
    simp only [Listing.Content.text, String.toList_append, List.mem_append] at h
    rcases h with h | h
    · exact hname c h
    · exact .inl (isNumeralChar_of_mem_toString h)
  | instruction i literals =>
    have hoperand : ∀ text ∈ List.zipWith operandText i.modes literals,
        ∀ c ∈ text.toList, IsListingChar c := by
      intro text htext c hc
      obtain ⟨k, hk, rfl⟩ := List.getElem_of_mem htext
      rw [List.getElem_zipWith] at hc
      exact isListingChar_of_mem_operandText hc
    simp only [Listing.Content.text, Instruction.text] at h
    generalize List.zipWith operandText i.modes literals = operands at h hoperand
    cases operands with
    | nil => exact isListingChar_of_mem_mnemonic h
    | cons operand operands =>
      simp only [Instruction.textWith, String.toList_append, List.mem_append] at h
      have hcomma : ∀ c ∈ ", ".toList, IsListingChar c := List.all_iff_forall_prop.1 (by decide)
      rcases h with (h | h) | h
      · rcases mem_alignLeft h with rfl | h
        · exact hblank
        · exact isListingChar_of_mem_mnemonic h
      · rw [List.mem_singleton.1 h]
        exact hblank
      · rcases mem_toList_intercalate h with h | ⟨text, htext, h⟩
        · exact hcomma c h
        · exact hoperand text htext c h

namespace Debugger

open Listing

variable {pc : Int} {breakpoints : List Int} {line : Line} {m : Machine}

/-! ## A line of the listing -/

/-- What is seen of a line of the listing: a dot at a breakpoint, an arrow at the program
counter, the address, and what stands there. -/
def lineShown (pc : Int) (breakpoints : List Int) (line : Line) : String :=
  (if line.address ∈ breakpoints then "●" else " ") ++ (if line.address = pc then "▸" else " ") ++
    " " ++ alignRight 6 (toString line.address) ++ "│ " ++ line.content.text

/-- The markup of a line of the listing, bold and reverse at the program counter. -/
def markedLine (pc : Int) (breakpoints : List Int) (line : Line) : String :=
  let text := escapeMarkup (lineShown pc breakpoints line)
  if line.address = pc then styled "bold reverse" text else text

theorem mem_lineShown_iff (hc : ¬ IsListingChar c) :
    c ∈ (lineShown pc breakpoints line).toList ↔
      c = '●' ∧ line.address ∈ breakpoints ∨ c = '▸' ∧ line.address = pc ∨ c = '│' := by
  have hblank : c ≠ ' ' := fun h => hc (h ▸ by decide)
  have haddress : c ∉ (alignRight 6 (toString line.address)).toList :=
    not_mem_alignRight_toString hblank fun h => hc (.inl h)
  have hcontent : c ∉ line.content.text.toList := fun h => hc (isListingChar_of_mem_text h)
  have hmark : ∀ (p : Prop) [Decidable p] (mark : Char),
      c ∈ (if p then String.singleton mark else " ").toList ↔ c = mark ∧ p := by
    intro p _ mark
    by_cases hp : p <;> simp [hp, hblank]
  have hdot := hmark (line.address ∈ breakpoints) '●'
  have harrow := hmark (line.address = pc) '▸'
  have hbar : c ∈ "│ ".toList ↔ c = '│' := by simp [hblank]
  have hspace : c ∉ " ".toList := by simp [hblank]
  simp only [lineShown, String.toList_append, List.mem_append, haddress, hcontent, hspace, hbar,
    or_false]
  exact (or_congr (or_congr hdot harrow) Iff.rfl).trans or_assoc

/-- The marks of a line are those that it has to have. -/
theorem mem_markedLine_iff (hc : ¬ IsListingChar c) (hslash : c ≠ '/') (hback : c ≠ '\\') :
    c ∈ (markedLine pc breakpoints line).toList ↔
      c = '●' ∧ line.address ∈ breakpoints ∨ c = '▸' ∧ line.address = pc ∨ c = '│' := by
  have htag : ∀ c ∈ "[bold reverse]".toList, IsListingChar c :=
    List.all_iff_forall_prop.1 (by decide)
  have htag' : ∀ c ∈ "[/bold reverse]".toList, IsListingChar c ∨ c = '/' :=
    List.all_iff_forall_prop.1 (by decide)
  have hopen : c ∉ "[bold reverse]".toList := fun h => hc (htag c h)
  have hclose : c ∉ "[/bold reverse]".toList := fun h => (htag' c h).elim hc hslash
  rw [← mem_lineShown_iff hc, markedLine]
  generalize lineShown pc breakpoints line = shown
  have hescape : c ∈ (escapeMarkup shown).toList ↔ c ∈ shown.toList := mem_escapeMarkup_iff hback
  split
  · have htext : (styled "bold reverse" (escapeMarkup shown)).toList =
        "[bold reverse]".toList ++ (escapeMarkup shown).toList ++ "[/bold reverse]".toList := by
      simp [styled]
    rw [htext, List.mem_append, List.mem_append, or_iff_left hclose, or_iff_right hopen, hescape]
  · exact hescape

theorem dot_mem_markedLine_iff :
    '●' ∈ (markedLine pc breakpoints line).toList ↔ line.address ∈ breakpoints := by
  rw [mem_markedLine_iff (by decide) (by decide) (by decide)]
  simp

theorem arrow_mem_markedLine_iff :
    '▸' ∈ (markedLine pc breakpoints line).toList ↔ line.address = pc := by
  rw [mem_markedLine_iff (by decide) (by decide) (by decide)]
  simp

theorem textLines_listing {notice : String} {lines : List Line} (hne : lines ≠ []) :
    textLines (rowsText notice (lines.map (markedLine pc breakpoints))) =
      lines.map (markedLine pc breakpoints) := by
  refine textLines_rowsText (by simpa using hne) fun text htext hnewline => ?_
  obtain ⟨line, -, rfl⟩ := List.mem_map.1 htext
  rw [mem_markedLine_iff (by decide) (by decide) (by decide)] at hnewline
  simp at hnewline

/-- The markup of a line displays it. -/
theorem displays_markedLine : Displays (markedLine pc breakpoints line).toList
    (lineShown pc breakpoints line).toList := by
  have hback : '\\' ∉ (lineShown pc breakpoints line).toList := fun h => by
    rcases (mem_lineShown_iff (by decide)).1 h with ⟨h, -⟩ | ⟨h, -⟩ | h <;>
      exact absurd h (by decide)
  rw [markedLine]
  split
  · exact displays_styled (List.all_iff_forall_prop.1 (by decide)) (displays_escapeMarkup hback)
  · exact displays_escapeMarkup hback

/-- A row of the listing panel is the markup of its line. -/
theorem text_listingRow : ListingRow.text ⟨line, line.address = pc, line.address ∈ breakpoints⟩ =
    markedLine pc breakpoints line := by
  generalize hdot : (if line.address ∈ breakpoints then "●" else " ") = dot
  generalize harrow : (if line.address = pc then "▸" else " ") = arrow
  have hfront :
      '[' ∉ (dot ++ arrow ++ " " ++ alignRight 6 (toString line.address) ++ "│ ").toList := by
    have hdot : '[' ∉ dot.toList := by
      rw [← hdot]
      split <;> decide
    have harrow : '[' ∉ arrow.toList := by
      rw [← harrow]
      split <;> decide
    have haddress : '[' ∉ (alignRight 6 (toString line.address)).toList :=
      not_mem_alignRight_toString (by decide) (by decide)
    simp only [String.toList_append, List.mem_append, not_or]
    exact ⟨⟨⟨⟨hdot, harrow⟩, by decide⟩, haddress⟩, by decide⟩
  simp only [ListingRow.text, markedLine, lineShown, decide_eq_true_eq, hdot, harrow,
    escapeMarkup_append (_ ++ "│ "), escapeMarkup_of_not_mem hfront]

/-! ## A row of the memory panel -/

/-- What is seen of a row of the memory panel: the address of its first cell, and the values
of its cells. -/
def rowShown (m : Machine) (base : Nat) : String :=
  alignRight 6 (toString base) ++ ": " ++ " ".intercalate
    ((List.range memoryColumns).map fun k =>
      alignRight 8 (toString (m.memory.peek (base + k : Nat))))

/-- A row of the memory panel of a machine. -/
def rowAt (m : Machine) (base : Nat) : MemoryRow :=
  { base, cells := (List.range memoryColumns).map fun k => memoryCell m (base + k) }

theorem toString_eq_toString_natCast (n : Nat) : toString n = toString (n : Int) := rfl

theorem displays_alignRight_toString {width : Nat} :
    Displays (alignRight width (toString n)).toList (alignRight width (toString n)).toList := by
  refine displays_self fun c hc => ?_
  constructor <;> rintro rfl <;> exact not_mem_alignRight_toString (by decide) (by decide) hc

/-- A cell is set in a style exactly if the program counter is there. -/
theorem bracket_mem_cell_iff {cell : MemoryCell} :
    '[' ∈ cell.text.toList ↔ cell.current = true := by
  rw [MemoryCell.text]
  split
  · next hcurrent => exact iff_of_true (by simp [styled]) hcurrent
  · next hcurrent =>
    exact iff_of_false (not_mem_alignRight_toString (by decide) (by decide)) hcurrent

theorem newline_not_mem_cell {cell : MemoryCell} : '\n' ∉ cell.text.toList := by
  have hnumber : '\n' ∉ (alignRight 8 (toString cell.value)).toList :=
    not_mem_alignRight_toString (by decide) (by decide)
  rw [MemoryCell.text]
  generalize alignRight 8 (toString cell.value) = text at hnumber ⊢
  split
  · simpa [styled] using hnumber
  · exact hnumber

theorem newline_not_mem_row {row : MemoryRow} : '\n' ∉ row.text.toList := by
  rw [MemoryRow.text, toString_eq_toString_natCast, String.toList_append, String.toList_append,
    List.mem_append, List.mem_append]
  rintro ((h | h) | h)
  · exact not_mem_alignRight_toString (by decide) (by decide) h
  · exact absurd h (by decide)
  · rcases mem_toList_intercalate h with h | ⟨text, htext, h⟩
    · exact absurd h (by decide)
    · obtain ⟨cell, -, rfl⟩ := List.mem_map.1 htext
      exact newline_not_mem_cell h

theorem displays_cell (m : Machine) (address : Nat) :
    Displays (memoryCell m address).text.toList
      (alignRight 8 (toString (m.memory.peek address))).toList := by
  rw [MemoryCell.text]
  split
  · exact displays_styled (List.all_iff_forall_prop.1 (by decide)) displays_alignRight_toString
  · exact displays_alignRight_toString

theorem text_rowAt (m : Machine) (base : Nat) : (rowAt m base).text =
    alignRight 6 (toString (base : Int)) ++ ": " ++
      " ".intercalate ((List.range memoryColumns).map fun k => (memoryCell m (base + k)).text) := by
  rw [MemoryRow.text, rowAt, List.map_map]
  rfl

/-- The markup of a row displays it. -/
theorem displays_row (m : Machine) (base : Nat) :
    Displays (rowAt m base).text.toList (rowShown m base).toList := by
  rw [text_rowAt, rowShown, toString_eq_toString_natCast base, String.toList_append,
    String.toList_append, String.toList_append, String.toList_append]
  have hcolon : Displays ": ".toList ": ".toList :=
    displays_self (List.all_iff_forall_prop.1 (by decide))
  have hspace : Displays " ".toList " ".toList :=
    displays_self (List.all_iff_forall_prop.1 (by decide))
  exact (displays_alignRight_toString.append hcolon).append
    (displays_intercalate hspace fun k _ => displays_cell m (base + k))

end Debugger

end Wordcode
