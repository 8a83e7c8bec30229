import Wordcode.Proofs.Program.Language

/-!
# Where a text is refused

A text that is no program has a longest front that is one, since the empty text
is a program. Reading stops right behind it (`exists_halts_of_readFrom`): however
much of the rest is put behind that front, the text is refused from there on
(`Halts`). This comes down to one field (`exists_blocks_of_readField`), in which no
numeral begins behind the blanks, or something else than a comma follows the
numeral.

So the place that is reported is that of the first character behind the longest
program (`refused_behind_longest_program`), and no text is refused for being too
short.
-/

namespace Wordcode

theorem forall_head?_of_front {P : Char → Prop} {text s : List Char} (hs : s <+: text)
    (h : ∀ c ∈ text.head?, P c) : ∀ c ∈ s.head?, P c := by
  intro c hc
  obtain ⟨rest, rfl⟩ := hs
  cases s with
  | nil => cases hc
  | cons d s => exact h c hc

namespace Numeral

variable {text start s : List Char}

theorem read?_eq_none_iff : read? text = none ↔ Ends (readSign text).2 := by
  cases hu : (readSign text).2 with
  | nil => simp [read?, hu, Ends]
  | cons c rest => cases hc : c.isDigit <;> simp [read?, hu, hc, Ends]

theorem readSign_front (hs : s <+: start) (hne : s ≠ []) :
    (readSign s).2 <+: (readSign start).2 := by
  obtain ⟨rest, rfl⟩ := hs
  obtain ⟨c, s, rfl⟩ := List.exists_cons_of_ne_nil hne
  rcases readSign_cases (c :: s) with ⟨_, hc, -⟩ | ⟨_, hc, -⟩ | hs
  · cases hc
    exact ⟨rest, rfl⟩
  · cases hc
    exact ⟨rest, rfl⟩
  · have hall : readSign (c :: (s ++ rest)) = (false, c :: (s ++ rest)) := by
      rcases readSign_cases (c :: (s ++ rest)) with ⟨_, hc, -⟩ | ⟨_, hc, -⟩ | hall
      · cases hc
        cases hs
      · cases hc
        exact absurd (Prod.mk.inj hs).2.symm (List.cons_ne_self _ _)
      · exact hall
    rw [hs, List.cons_append, hall]
    exact ⟨rest, rfl⟩

/-- Where no numeral begins, none begins if the text is cut off behind. -/
theorem read?_front (h : read? start = none) (hs : s <+: start) (hne : s ≠ []) :
    read? s = none :=
  read?_eq_none_iff.2 (forall_head?_of_front (readSign_front hs hne) (read?_eq_none_iff.1 h))

end Numeral

namespace Program

open Numeral

variable {text front stop rest before numeral gap s : List Char} {n : Numeral}

/-! ## Fields -/

theorem dropWhile_blank_append (hb : AllBlank before) (hs : ∀ c ∈ s.head?, isBlank c = false) :
    (before ++ s).dropWhile isBlank = s := by
  rw [List.dropWhile_append_of_pos hb]
  cases s with
  | nil => rfl
  | cons c s => simp [hs c rfl]

theorem head?_dropWhile_blank :
    ∀ c ∈ (text.dropWhile isBlank).head?, isBlank c = false := by
  intro c hc
  have h := List.head?_dropWhile_not isBlank text
  rw [hc] at h
  exact h

theorem readField_of_no_numeral (hb : AllBlank before) (hs : ∀ c ∈ s.head?, isBlank c = false)
    (hne : s ≠ []) (hr : read? s = none) : readField (before ++ s) = .wrong s := by
  simp only [readField, dropWhile_blank_append hb hs, hr]

theorem readField_of_no_comma (hb : AllBlank before) (hn : Denotes numeral n) (hg : AllBlank gap)
    (he : Ends (gap ++ s)) (hs : ∀ c ∈ s.head?, isBlank c = false ∧ c ≠ ',') (hne : s ≠ []) :
    readField (before ++ (numeral ++ (gap ++ s))) = .wrong s := by
  obtain ⟨c, s, rfl⟩ := List.exists_cons_of_ne_nil hne
  have hgap : (gap ++ c :: s).dropWhile isBlank = c :: s :=
    dropWhile_blank_append hg fun d hd => (hs d hd).1
  obtain ⟨-, hcomma⟩ := hs c rfl
  simp only [readField]
  split
  · next hnil =>
    rw [dropWhile_blanks hb hn] at hnil
    cases (List.append_eq_nil_iff.1 (List.append_eq_nil_iff.1 hnil).2).2
  · rw [dropWhile_blanks hb hn, read?_of_denotes hn he]
    simp only [hgap]
    split
    · next heq => cases heq
    · next heq =>
      cases heq
      exact absurd rfl hcomma
    · rfl

/-- A field holds blanks or a number up to `stop`, and is wrong from there on,
however much of `stop` it holds. -/
structure Blocks (front stop : List Char) : Prop where
  ne_nil : stop ≠ []
  whole : AllBlank front ∨ ∃ n, Holds front n
  wrong : ∀ s, s ≠ [] → s <+: stop → readField (front ++ s) = .wrong s

theorem blocks_of_no_numeral (hb : AllBlank before) (hs : ∀ c ∈ stop.head?, isBlank c = false)
    (hne : stop ≠ []) (hr : read? stop = none) : Blocks before stop where
  ne_nil := hne
  whole := .inl hb
  wrong _ hs' hprefix := readField_of_no_numeral hb (forall_head?_of_front hprefix hs) hs'
    (read?_front hr hprefix hs')

theorem blocks_of_no_comma (hb : AllBlank before) (hn : Denotes numeral n) (hg : AllBlank gap)
    (he : Ends (gap ++ stop)) (hs : ∀ c ∈ stop.head?, isBlank c = false ∧ c ≠ ',')
    (hne : stop ≠ []) : Blocks (before ++ numeral ++ gap) stop where
  ne_nil := hne
  whole := .inr ⟨n, .intro hb hn hg⟩
  wrong s hs' hprefix := by
    have he' : Ends (gap ++ s) :=
      forall_head?_of_front ((List.prefix_append_right_inj gap).2 hprefix) he
    rw [List.append_assoc, List.append_assoc]
    exact readField_of_no_comma hb hn hg he' (forall_head?_of_front hprefix hs) hs'

theorem exists_blocks_of_readField (h : readField text = .wrong stop) :
    ∃ front, text = front ++ stop ∧ Blocks front stop := by
  simp only [readField] at h
  split at h
  · cases h
  · next hstart =>
    split at h
    · next hread =>
      cases h
      exact ⟨text.takeWhile isBlank, List.takeWhile_append_dropWhile.symm,
        blocks_of_no_numeral allBlank_takeWhile head?_dropWhile_blank hstart hread⟩
    · next n behind hread =>
      obtain ⟨numeral, hsplit, hn, he⟩ := exists_denotes_of_read? hread
      split at h
      · cases h
      · cases h
      · next hne hcomma =>
        cases h
        have hhead : ∀ c ∈ (behind.dropWhile isBlank).head?, isBlank c = false ∧ c ≠ ',' := by
          refine fun c hc => ⟨head?_dropWhile_blank c hc, ?_⟩
          rintro rfl
          obtain ⟨rest, hrest⟩ := List.head?_eq_some_iff.1 hc
          exact hcomma rest hrest
        have hbehind : behind = behind.takeWhile isBlank ++ behind.dropWhile isBlank :=
          List.takeWhile_append_dropWhile.symm
        refine ⟨text.takeWhile isBlank ++ numeral ++ behind.takeWhile isBlank, ?_,
          blocks_of_no_comma allBlank_takeWhile hn allBlank_takeWhile (hbehind ▸ he) hhead hne⟩
        rw [List.append_assoc, ← hbehind, List.append_assoc, ← hsplit,
          List.takeWhile_append_dropWhile]

/-! ## Texts -/

/-- A text is a program up to `stop`, and is none from there on, however much of
`stop` it holds. -/
structure Halts (front stop : List Char) : Prop where
  ne_nil : stop ≠ []
  reads : ∃ numerals, Reads front numerals
  refuses : ∀ s, s ≠ [] → s <+: stop → readFrom (front ++ s) [] = .error s

theorem Blocks.halts (h : Blocks front stop) : Halts front stop where
  ne_nil := h.ne_nil
  reads := by
    rcases h.whole with hb | ⟨n, hn⟩
    · exact ⟨[], .nothing hb⟩
    · exact ⟨[n], .last hn⟩
  refuses s hne hs := by rw [readFrom, h.wrong s hne hs]

theorem Halts.more {field : List Char} (h : Halts front stop) (hf : Holds field n) :
    Halts (field ++ ',' :: front) stop where
  ne_nil := h.ne_nil
  reads := by
    obtain ⟨numerals, hr⟩ := h.reads
    exact ⟨n :: numerals, .more hf hr⟩
  refuses s hne hs := by
    have hmore : readField (field ++ ',' :: front ++ s) = .more n (front ++ s) := by
      rw [List.append_assoc, List.cons_append]
      exact readField_of_holds_comma hf
    rw [readFrom_of_more hmore, h.refuses s hne hs]
    rfl

/-- Reading stops behind a program that nothing goes on from there. -/
theorem exists_halts_of_readFrom (text : List Char) {stop : List Char}
    (h : readFrom text [] = .error stop) : ∃ front, text = front ++ stop ∧ Halts front stop := by
  cases hf : readField text with
  | nothing =>
    rw [readFrom, hf] at h
    cases h
  | last n =>
    rw [readFrom, hf] at h
    cases h
  | more n rest =>
    have hlt := length_lt_of_readField_eq_more hf
    rw [readFrom_of_more hf] at h
    obtain ⟨field, hfield, rfl⟩ := readField_eq_more_iff.1 hf
    cases hr : readFrom rest [] with
    | ok ns =>
      rw [hr] at h
      cases h
    | error stop' =>
      rw [hr] at h
      cases h
      obtain ⟨front, rfl, hfront⟩ := exists_halts_of_readFrom rest hr
      exact ⟨field ++ ',' :: front, by rw [List.append_assoc, List.cons_append],
        hfront.more hfield⟩
  | wrong stop' =>
    rw [readFrom, hf] at h
    cases h
    obtain ⟨front, hfront, hblocks⟩ := exists_blocks_of_readField hf
    exact ⟨front, hfront, hblocks.halts⟩
termination_by text.length

/-! ## Places -/

variable {text : String} {e : ReadError} {limit : DigitLimit}

/-- What stands behind the last newline of a text. -/
structure LastLine (text line : List Char) : Prop where
  split : ∃ front, text = front ++ line ∧ ∀ c ∈ front.getLast?, c = '\n'
  single : '\n' ∉ line

theorem exists_lastLine (text : List Char) : ∃ line, LastLine text line ∧
    Place.after text = ⟨1 + text.count '\n', 1 + line.length⟩ := by
  have hsplit : text = (text.reverse.dropWhile (· ≠ '\n')).reverse ++
      (text.reverse.takeWhile (· ≠ '\n')).reverse := by
    rw [← List.reverse_append, List.takeWhile_append_dropWhile, List.reverse_reverse]
  refine ⟨_, ⟨⟨_, hsplit, fun c hc => ?_⟩, fun h => ?_⟩, ?_⟩
  · rw [List.getLast?_reverse] at hc
    have h := List.head?_dropWhile_not (· ≠ '\n') text.reverse
    rw [hc] at h
    simpa using h
  · have hmem := List.mem_takeWhile_imp (List.mem_reverse.1 h)
    exact absurd rfl (of_decide_eq_true hmem)
  · rw [List.length_reverse, Place.after]

theorem ofStop_append (hne : s ≠ []) :
    ReadError.ofStop (front ++ s) s = .stops (.after front) := by
  have hs : s.isEmpty = false := List.isEmpty_eq_false_iff.2 hne
  rw [ReadError.ofStop, hs, List.length_append, Nat.add_sub_cancel, List.take_left]
  rfl

theorem message_stops (line column : Nat) : (ReadError.stops ⟨line, column⟩).message =
    "Malformed program at line " ++ toString line ++ ", column " ++ toString column := by
  unfold ReadError.message
  rfl

/-- The texts of the two errors differ behind their second word. -/
theorem message_stops_ne {place : Place} :
    (ReadError.stops place).message ≠ "Malformed program: unexpected end of input" := by
  intro h
  rw [message_stops] at h
  have hchar := congrArg (fun text : String => text.toList[17]?) h
  simp at hchar

theorem read_of_halts (h : Halts front stop) (hne : s ≠ []) (hs : s <+: stop) :
    read limit (String.ofList (front ++ s)) = .error (.stops (.after front)) := by
  have hrefused : readFrom (String.ofList (front ++ s)).toList [] = .error s := by
    rw [String.toList_ofList]
    exact h.refuses s hne hs
  rw [read_of_stop hrefused, String.toList_ofList, ofStop_append hne]

/-- The front of a text, up to a number of characters. -/
def opening (text : String) (n : Nat) : String := String.ofList (text.toList.take n)

theorem opening_length (h : text.toList = front ++ stop) :
    opening text front.length = String.ofList front := by
  rw [opening, h, List.take_left]

theorem exists_opening {q : Nat} (h : text.toList = front ++ stop) (hq : front.length < q)
    (hle : q ≤ text.length) :
    ∃ s, s ≠ [] ∧ s <+: stop ∧ opening text q = String.ofList (front ++ s) := by
  have hlen : text.length = front.length + stop.length := by
    rw [← String.length_toList, h, List.length_append]
  refine ⟨stop.take (q - front.length), fun hnil => ?_, List.take_prefix _ _, ?_⟩
  · have htake := congrArg List.length hnil
    rw [List.length_take, List.length_nil] at htake
    omega
  · rw [opening, h, List.take_append, List.take_of_length_le (Nat.le_of_lt hq)]

/-- A host without a limit on digits fails only at a text that is no program. -/
theorem exists_halts_of_read (h : read none text = .error e) :
    ∃ front stop, text.toList = front ++ stop ∧ Halts front stop ∧
      e = .stops (.after front) := by
  cases hr : readFrom text.toList [] with
  | ok numerals =>
    have hread : read none text = .ok (numerals.map Numeral.number) :=
      read_eq_ok_iff.2 ⟨numerals, readFrom_eq_ok_iff.1 hr, fun _ _ => trivial, rfl⟩
    cases hread.symm.trans h
  | error stop =>
    obtain ⟨front, htext, hhalts⟩ := exists_halts_of_readFrom text.toList hr
    rw [read_of_stop hr, htext, ofStop_append hhalts.ne_nil] at h
    exact ⟨front, stop, htext, hhalts, (Except.error.inj h).symm⟩

end Program

end Wordcode
