import Wordcode.Proofs.Instruction.Words
import Wordcode.Proofs.Listing.Walk
import Wordcode.Proofs.Program.RoundTrip

/-!
# The texts of a listing

Nothing is lost where a line is written. A number ends where its digits end, so it
can be taken off the front of a text (`Denotes.cancel`); so can an operand, whose
brackets and sign tell the mode (`operandText_cancel`), and so can operands with
commas between them (`operands_cancel`). The column in front of them tells the
operation, or that the line shows data (`column_injective`).

So two lines with one text show the same (`text_injective`), and what a machine
finds at their addresses is the same (`texts_unambiguous`).
-/

namespace Wordcode

namespace Numeral

variable {numeral numeral' rest rest' : List Char} {n n' : Numeral}

/-- Two numerals that begin a text, no digits behind them, are one numeral. -/
theorem Denotes.cancel (h : Denotes numeral n) (h' : Denotes numeral' n') (hr : Ends rest)
    (hr' : Ends rest') (heq : numeral ++ rest = numeral' ++ rest') : n = n' ∧ rest = rest' := by
  have hread := read?_of_denotes h hr
  rw [heq, read?_of_denotes h' hr'] at hread
  cases hread
  exact ⟨rfl, rfl⟩

/-- A numeral begins with a digit or a sign. -/
theorem Denotes.append_ne_cons {c : Char} (h : Denotes numeral n) (hdigit : c.isDigit = false)
    (hplus : c ≠ '+') (hminus : c ≠ '-') : numeral ++ rest ≠ c :: rest' := by
  intro heq
  cases h with
  | unsigned h =>
    obtain ⟨d, ds, rfl⟩ := List.exists_cons_of_ne_nil h.ne_nil
    cases heq
    rw [h.isDigit c List.mem_cons_self] at hdigit
    cases hdigit
  | plus => exact hplus (List.cons.inj heq).1.symm
  | minus => exact hminus (List.cons.inj heq).1.symm

/-- The text of a number with its sign is the numeral of the number, too. -/
theorem denotes_signedText (n : Int) : Denotes (signedText n).toList (ofInt n) := by
  rw [signedText]
  split
  · next hn =>
    rw [ofInt_of_nonneg hn]
    obtain ⟨k, rfl⟩ := Int.eq_ofNat_of_zero_le hn
    have hk : (toString (k : Int)).toList = Nat.toDigits 10 k := Nat.toList_repr
    rw [String.toList_append, hk]
    exact .plus (digits_toDigits k)
  · exact denotes_toString n

end Numeral

namespace Listing

open Numeral

/-! ## Operands -/

variable {mode mode' : Mode} {n n' : Int} {rest rest' : List Char}

theorem ends_cons {c : Char} (h : c.isDigit = false) : Ends (c :: rest) := fun d hd => by
  cases hd
  exact h

theorem position_append : (operandText .position n).toList ++ rest =
    '[' :: ((toString n).toList ++ ']' :: rest) := by
  simp [operandText]

theorem relative_append : (operandText .relative n).toList ++ rest =
    '[' :: 'r' :: 'b' :: ((signedText n).toList ++ ']' :: rest) := by
  simp [operandText]

/-- An operand at the front of a text can be taken off it: how it begins tells its
mode, and then its literal can be read. -/
theorem operandText_cancel (hr : Ends rest) (hr' : Ends rest')
    (heq : (operandText mode n).toList ++ rest = (operandText mode' n').toList ++ rest') :
    mode = mode' ∧ n = n' ∧ rest = rest' := by
  have hend (text : List Char) : Ends (']' :: text) := ends_cons rfl
  have hne (c : Char) (hc : c.isDigit = false ∧ c ≠ '+' ∧ c ≠ '-') (k : Int)
      (text text' : List Char) : (toString k).toList ++ text ≠ c :: text' :=
    (denotes_toString k).append_ne_cons hc.1 hc.2.1 hc.2.2
  cases mode with
  | position =>
    rw [position_append] at heq
    cases mode' with
    | position =>
      rw [position_append] at heq
      obtain ⟨hn, hrest⟩ := (denotes_toString n).cancel (denotes_toString n') (hend _) (hend _)
        (List.cons.inj heq).2
      exact ⟨rfl, ofInt_injective hn, (List.cons.inj hrest).2⟩
    | immediate => exact (hne '[' (by decide) _ _ _ heq.symm).elim
    | relative =>
      rw [relative_append] at heq
      exact (hne 'r' (by decide) _ _ _ (List.cons.inj heq).2).elim
  | immediate =>
    cases mode' with
    | position =>
      rw [position_append] at heq
      exact (hne '[' (by decide) _ _ _ heq).elim
    | immediate =>
      obtain ⟨hn, hrest⟩ := (denotes_toString n).cancel (denotes_toString n') hr hr' heq
      exact ⟨rfl, ofInt_injective hn, hrest⟩
    | relative =>
      rw [relative_append] at heq
      exact (hne '[' (by decide) _ _ _ heq).elim
  | relative =>
    rw [relative_append] at heq
    cases mode' with
    | position =>
      rw [position_append] at heq
      exact (hne 'r' (by decide) _ _ _ (List.cons.inj heq).2.symm).elim
    | immediate => exact (hne '[' (by decide) _ _ _ heq.symm).elim
    | relative =>
      rw [relative_append] at heq
      simp only [List.cons.injEq, true_and] at heq
      obtain ⟨hn, hrest⟩ := (denotes_signedText n).cancel (denotes_signedText n') (hend _) (hend _)
        heq
      exact ⟨rfl, ofInt_injective hn, (List.cons.inj hrest).2⟩

/-- The texts of operands with commas between them. -/
def operandTexts (modes : List Mode) (literals : List Int) : List Char :=
  [',', ' '].intercalate ((List.zipWith operandText modes literals).map String.toList)

theorem operandTexts_singleton :
    operandTexts [mode] [n] = (operandText mode n).toList ++ [] := by
  simp [operandTexts]

variable {modes modes' : List Mode} {l l' : List Int}

theorem operandTexts_cons (hm : modes.length = l.length) (hne : modes ≠ []) :
    operandTexts (mode :: modes) (n :: l) =
      (operandText mode n).toList ++ ',' :: ' ' :: operandTexts modes l := by
  obtain ⟨m, ms, rfl⟩ := List.exists_cons_of_ne_nil hne
  obtain ⟨k, ks, rfl⟩ := List.exists_cons_of_length_eq_add_one hm.symm
  simp [operandTexts, List.intercalate_cons_cons]

/-- As many operands with the same texts are the same operands. -/
theorem operandTexts_cancel (hm : modes.length = l.length)
    (hm' : modes'.length = l'.length) (hlen : modes.length = modes'.length)
    (heq : operandTexts modes l = operandTexts modes' l') :
    modes = modes' ∧ l = l' := by
  have hcomma (text : List Char) : Ends (',' :: text) := ends_cons rfl
  have hnil : Ends [] := fun _ hc => by cases hc
  induction modes generalizing l modes' l' with
  | nil =>
    obtain rfl := List.length_eq_zero_iff.1 hm.symm
    obtain rfl := List.length_eq_zero_iff.1 hlen.symm
    obtain rfl := List.length_eq_zero_iff.1 hm'.symm
    exact ⟨rfl, rfl⟩
  | cons mode modes ih =>
    obtain ⟨n, l, rfl⟩ := List.exists_cons_of_length_eq_add_one hm.symm
    obtain ⟨mode', modes', rfl⟩ := List.exists_cons_of_length_eq_add_one hlen.symm
    obtain ⟨n', l', rfl⟩ := List.exists_cons_of_length_eq_add_one hm'.symm
    simp only [List.length_cons, Nat.add_right_cancel_iff] at hm hm' hlen
    by_cases hne : modes = []
    · subst hne
      obtain rfl := List.length_eq_zero_iff.1 hm.symm
      obtain rfl := List.length_eq_zero_iff.1 hlen.symm
      obtain rfl := List.length_eq_zero_iff.1 hm'.symm
      rw [operandTexts_singleton, operandTexts_singleton] at heq
      obtain ⟨rfl, rfl, -⟩ := operandText_cancel hnil hnil heq
      exact ⟨rfl, rfl⟩
    · have hne' : modes' ≠ [] := List.ne_nil_of_length_pos (hlen ▸ List.length_pos_iff.2 hne)
      rw [operandTexts_cons hm hne, operandTexts_cons hm' hne'] at heq
      obtain ⟨rfl, rfl, hrest⟩ := operandText_cancel (hcomma _) (hcomma _) heq
      obtain ⟨rfl, rfl⟩ := ih hm hm' hlen (List.cons.inj (List.cons.inj hrest).2).2
      exact ⟨rfl, rfl⟩

/-! ## Lines -/

/-- What stands in front of the operands or the word of a line: the mnemonic in its
column, or a word that is none. -/
def column : Option Opcode → List Char
  | some op => (alignLeft 4 op.mnemonic).toList ++ [' ']
  | none => ['D', 'A', 'T', 'A', ' ']

theorem length_column (op : Option Opcode) : (column op).length = 5 := by
  rcases op with _ | (_ | _ | _ | _) | _ | _ | (_ | _) | _ | _ <;> decide

theorem column_injective : Function.Injective column := by
  intro op op' h
  rcases op with _ | (_ | _ | _ | _) | _ | _ | (_ | _) | _ | _ <;>
    rcases op' with _ | (_ | _ | _ | _) | _ | _ | (_ | _) | _ | _ <;>
    first | rfl | exact absurd h (by decide)

theorem text_data (w : Int) :
    (Content.data w).text.toList = column none ++ (toString w).toList := by
  simp [Content.text, column]

variable {i i' : Instruction} {w w' : Int}

theorem text_instruction (hne : i ≠ .halt) (hl : l.length = i.opcode.arity) :
    (i.text l).toList = column (some i.opcode) ++ operandTexts i.modes l := by
  have hpos : 0 < i.opcode.arity := by
    cases i <;> first | exact absurd rfl hne | exact Nat.succ_pos _
  have htexts : List.zipWith operandText i.modes l ≠ [] := by
    refine List.ne_nil_of_length_pos ?_
    rw [List.length_zipWith, i.length_modes, hl]
    omega
  obtain ⟨text, texts, heq⟩ := List.exists_cons_of_ne_nil htexts
  simp [Instruction.text, Instruction.textWith, operandTexts, column, heq]

/-- The one line without a column: its instruction takes no operands. -/
theorem text_halt (l : List Int) : (Instruction.halt.text l).toList = "HLT".toList :=
  rfl

theorem text_ne_halt {op : Option Opcode} {text : List Char} : "HLT".toList ≠ column op ++ text :=
  fun h => by
    have hlength := congrArg List.length h
    rw [List.length_append, length_column] at hlength
    have hhalt : "HLT".toList.length = 3 := rfl
    omega

/-- Lines with one text show the same instruction with the same literals. -/
theorem text_injective (hl : l.length = i.opcode.arity)
    (hl' : l'.length = i'.opcode.arity) (heq : i.text l = i'.text l') :
    i = i' ∧ l = l' := by
  replace heq := congrArg String.toList heq
  by_cases hi : i = .halt
  · by_cases hi' : i' = .halt
    · subst hi hi'
      exact ⟨rfl, (List.length_eq_zero_iff.1 hl).trans (List.length_eq_zero_iff.1 hl').symm⟩
    · rw [hi, text_halt, text_instruction hi' hl'] at heq
      exact absurd heq text_ne_halt
  · by_cases hi' : i' = .halt
    · rw [hi', text_halt, text_instruction hi hl] at heq
      exact absurd heq.symm text_ne_halt
    · rw [text_instruction hi hl, text_instruction hi' hl'] at heq
      obtain ⟨hcolumn, hrest⟩ := List.append_inj heq (by rw [length_column, length_column])
      have hop : i.opcode = i'.opcode := Option.some.inj (column_injective hcolumn)
      obtain ⟨hmodes, rfl⟩ := operandTexts_cancel (i.length_modes.trans hl.symm)
        (i'.length_modes.trans hl'.symm) (by simp only [Instruction.length_modes, hop]) hrest
      exact ⟨Instruction.injective_digits (by simp only [hop, hmodes]), rfl⟩

theorem text_ne_data (hl : l.length = i.opcode.arity) :
    i.text l ≠ (Content.data w).text := fun heq => by
  replace heq := congrArg String.toList heq
  rw [text_data] at heq
  by_cases hi : i = .halt
  · rw [hi, text_halt] at heq
    exact text_ne_halt heq
  · rw [text_instruction hi hl] at heq
    cases column_injective (List.append_inj heq (by rw [length_column, length_column])).1

theorem text_data_injective (heq : (Content.data w).text = (Content.data w').text) : w = w' := by
  replace heq := congrArg String.toList heq
  have hnil : Ends [] := fun _ hc => by cases hc
  rw [text_data, text_data] at heq
  have htext := List.append_cancel_left heq
  rw [← List.append_nil (toString w).toList, ← List.append_nil (toString w').toList] at htext
  exact ofInt_injective ((denotes_toString w).cancel (denotes_toString w') hnil hnil htext).1

/-! ## What a machine finds there -/

/-- A machine finds the same at both addresses: one instruction with the same words
behind it, or one word that is no instruction. -/
def SameCode (m : Memory) (a : Int) (m' : Memory) (a' : Int) : Prop :=
  match decode (m.peek a), decode (m'.peek a') with
  | .ok i, .ok i' =>
    i = i' ∧ Machine.literalsAt m a i.opcode.arity = Machine.literalsAt m' a' i'.opcode.arity
  | .error _, .error _ => m.peek a = m'.peek a'
  | _, _ => False

variable {m m' : Memory} {a a' : Int}

theorem length_literalsAt (arity : Nat) : (Machine.literalsAt m a arity).length = arity := by
  rw [Machine.literalsAt, List.length_map, List.length_range]

theorem sameCode_of_text (ha : 0 ≤ a) (ha' : 0 ≤ a')
    (heq : (shown m.cells a).text = (shown m'.cells a').text) : SameCode m a m' a' := by
  rw [shown_cells ha, shown_cells ha'] at heq
  unfold SameCode
  cases hd : decode (m.peek a) with
  | ok i =>
    rw [hd] at heq
    cases hd' : decode (m'.peek a') with
    | ok i' =>
      rw [hd'] at heq
      exact text_injective (length_literalsAt _) (length_literalsAt _) heq
    | error e' =>
      rw [hd'] at heq
      exact absurd heq (text_ne_data (length_literalsAt _))
  | error e =>
    rw [hd] at heq
    cases hd' : decode (m'.peek a') with
    | ok i' =>
      rw [hd'] at heq
      exact absurd heq.symm (text_ne_data (length_literalsAt _))
    | error e' =>
      rw [hd'] at heq
      exact text_data_injective heq

/-- The text of an instruction tells the instruction and the words behind it, of
which those behind the end of the memory are 0. It is not the text of data, and
that tells the word. So from address 0 on a line of a listing tells what a machine
finds at its address. -/
theorem texts_unambiguous :
    (∀ (m m' : Memory) (a a' : Int) (i i' : Instruction), 0 ≤ a → 0 ≤ a' →
      ∃ l l' : List Int, literals m.cells a i.opcode.arity = .ok l ∧
        l = Machine.literalsAt m a i.opcode.arity ∧
        literals m'.cells a' i'.opcode.arity = .ok l' ∧
        l' = Machine.literalsAt m' a' i'.opcode.arity ∧
        (i.text l = i'.text l' → i.opcode = i'.opcode ∧ i.modes = i'.modes ∧ l = l') ∧
        ∀ w : Int, i.text l ≠ (Content.data w).text) ∧
    (∀ w w' : Int, (Content.data w).text = (Content.data w').text → w = w') ∧
    ∀ (limit limit' : DigitLimit) (m m' : Memory) (start start' : Int)
      (count count' : Option Int) (lines lines' : Array Line),
      disassemble limit m.cells start count = .ok lines →
      disassemble limit' m'.cells start' count' = .ok lines' →
      ∀ line ∈ lines, ∀ line' ∈ lines', 0 ≤ line.address → 0 ≤ line'.address →
        line.content.text = line'.content.text →
        SameCode m line.address m' line'.address := by
  refine ⟨fun m m' a a' i i' ha ha' => ⟨_, _, literals_of_reaches (reaches_of_nonneg ha) _,
    operands_cells ha _, literals_of_reaches (reaches_of_nonneg ha') _, operands_cells ha' _,
    fun heq => ?_, fun w => ?_⟩, fun _ _ => text_data_injective,
    fun _ _ m m' _ _ _ _ _ _ h h' line hline line' hline' ha ha' heq => ?_⟩
  · rw [operands_cells ha, operands_cells ha'] at heq ⊢
    obtain ⟨rfl, hl⟩ := text_injective (length_literalsAt _) (length_literalsAt _) heq
    exact ⟨rfl, rfl, hl⟩
  · rw [operands_cells ha]
    exact text_ne_data (length_literalsAt _)
  · have hshown := (of_mem_walk (mem_walk_of_mem_disassemble h hline)).2.2
    have hshown' := (of_mem_walk (mem_walk_of_mem_disassemble h' hline')).2.2
    rw [hshown, hshown'] at heq
    exact sameCode_of_text ha ha' heq

/-- The operand behind the end of the first memory is shown as the 0 in the other. -/
theorem texts_unambiguous_behind_end :
    let line : Line := ⟨0, .instruction (.output .immediate) [0]⟩
    let line' : Line := ⟨1, .instruction (.output .immediate) [0]⟩
    disassemble none #[104] 0 none = .ok #[line] ∧
      disassemble none #[99, 104, 0] 1 none = .ok #[line'] ∧
      line.content.text = line'.content.text ∧
      SameCode (.ofList [104]) 0 (.ofList [99, 104, 0]) 1 := by
  intro line line'
  have hlines : disassemble none #[104] 0 none = .ok #[line] := by
    rw [disassemble_none (by decide)]
    simp +decide [listed, walk, shown, line]
  have hlines' : disassemble none #[99, 104, 0] 1 none = .ok #[line'] := by
    rw [disassemble_none (by decide)]
    simp +decide [listed, walk, shown, line']
  refine ⟨hlines, hlines', rfl, ?_⟩
  exact texts_unambiguous.2.2 none none (.ofList [104]) (.ofList [99, 104, 0]) 0 1 none none _ _
    hlines hlines' line (Array.mem_singleton.2 rfl) line' (Array.mem_singleton.2 rfl) (by decide)
    (by decide) rfl

-- Each notation of an operand, the sign telling a distance of 7 from an address 7.
example : (Instruction.compute .lessThan .position .immediate .relative).text [7, 7, 7] =
    "LT   [7], 7, [rb+7]" := by decide +kernel

end Listing

end Wordcode
