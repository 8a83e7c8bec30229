import Mathlib.Data.List.Forall2
import Wordcode.Proofs.Program.Field

/-!
# The language of programs

Which texts are programs is said in two ways. The fields between the commas of
the text hold the numerals of the words, where the last field may also be blank
(`Spells`). Or the text is cut into tokens, each as long as it can be, and the tokens
are the numerals with commas between them, where one more comma may follow (`Lexes`,
`Derives`).

Reading a text finds the words that it has by either, and refuses a text that
has none (`read_iff_spells`). What joins the three is how reading goes along the
text, field by field (`Reads`). It first finds the numerals of all fields, and then
makes them into words; only this can fail on a host that limits digits.
-/

namespace Wordcode

/-- If not all members of a list have a property, there is a first one without it. -/
theorem exists_first_of_not_forall {α : Type} {P : α → Prop} [DecidablePred P] {l : List α}
    (h : ¬ ∀ a ∈ l, P a) :
    ∃ before a after, l = before ++ a :: after ∧ (∀ b ∈ before, P b) ∧ ¬ P a := by
  induction l with
  | nil => exact absurd (List.forall_mem_nil _) h
  | cons a l ih =>
    by_cases ha : P a
    · obtain ⟨before, b, after, rfl, hbefore, hb⟩ :=
        ih fun hl => h (List.forall_mem_cons.2 ⟨ha, hl⟩)
      exact ⟨a :: before, b, after, rfl, List.forall_mem_cons.2 ⟨ha, hbefore⟩, hb⟩
    · exact ⟨[], a, l, rfl, List.forall_mem_nil _, ha⟩

namespace Program

open Numeral

/-- The fields hold the numerals: each field but the last holds one, and the last
holds one or is blank. -/
def Spells (fields : List (List Char)) (numerals : List Numeral) : Prop :=
  ∃ front last held, fields = front ++ [last] ∧ List.Forall₂ Holds front held ∧
    ((AllBlank last ∧ numerals = held) ∨ ∃ n, Holds last n ∧ numerals = held ++ [n])

/-- What a text is made of, blanks apart. -/
inductive Token where
  | number (n : Numeral)
  | comma
deriving DecidableEq, Repr

/-- The tokens of a text. A number goes on as long as digits follow. -/
inductive Lexes : List Char → List Token → Prop
  | done : Lexes [] []
  | blank {c : Char} {text : List Char} {tokens : List Token} (hc : isBlank c = true)
    (h : Lexes text tokens) : Lexes (c :: text) tokens
  | comma {text : List Char} {tokens : List Token} (h : Lexes text tokens) :
    Lexes (',' :: text) (.comma :: tokens)
  | number {numeral text : List Char} {n : Numeral} {tokens : List Token} (hn : Denotes numeral n)
    (he : Ends text) (h : Lexes text tokens) : Lexes (numeral ++ text) (.number n :: tokens)

/-- The tokens are those of a program with the given numerals: nothing at all, or
these with commas between them and perhaps one behind them. -/
inductive Derives : List Token → List Numeral → Prop
  | nothing : Derives [] []
  | words (n : Numeral) (ns : List Numeral) :
    Derives (((n :: ns).map Token.number).intersperse .comma) (n :: ns)
  | trailing (n : Numeral) (ns : List Numeral) :
    Derives (((n :: ns).map Token.number).intersperse .comma ++ [.comma]) (n :: ns)

/-- The numerals that are read in a text. -/
inductive Reads : List Char → List Numeral → Prop
  | nothing {text : List Char} (h : AllBlank text) : Reads text []
  | last {text : List Char} {n : Numeral} (h : Holds text n) : Reads text [n]
  | more {field rest : List Char} {n : Numeral} {ns : List Numeral} (h : Holds field n)
    (hr : Reads rest ns) : Reads (field ++ ',' :: rest) (n :: ns)

variable {text rest field before : List Char} {fields : List (List Char)}
  {numerals ns : List Numeral} {n : Numeral} {tokens : List Token} {limit : DigitLimit}

/-! ## Reading -/

theorem readFrom_of_more (h : readField text = .more n rest) :
    readFrom text [] = (readFrom rest []).map (n :: ·) := by
  rw [readFrom, h]
  exact readFrom_eq_map rest [n]

theorem reads_of_readFrom (text : List Char) {numerals : List Numeral}
    (h : readFrom text [] = .ok numerals) : Reads text numerals := by
  cases hf : readField text with
  | nothing =>
    rw [readFrom, hf] at h
    cases h
    exact .nothing (readField_eq_nothing_iff.1 hf)
  | last n =>
    rw [readFrom, hf] at h
    cases h
    exact .last (readField_eq_last_iff.1 hf)
  | more n rest =>
    have hlt := length_lt_of_readField_eq_more hf
    rw [readFrom_of_more hf] at h
    obtain ⟨field, hfield, rfl⟩ := readField_eq_more_iff.1 hf
    cases hr : readFrom rest [] with
    | error stop =>
      rw [hr] at h
      cases h
    | ok ns =>
      rw [hr] at h
      cases h
      exact .more hfield (reads_of_readFrom rest hr)
  | wrong stop =>
    rw [readFrom, hf] at h
    cases h
termination_by text.length

theorem readFrom_eq_ok_iff : readFrom text [] = .ok numerals ↔ Reads text numerals := by
  refine ⟨reads_of_readFrom text, fun h => ?_⟩
  induction h with
  | nothing h =>
    rw [readFrom, readField_eq_nothing_iff.2 h]
    rfl
  | last h =>
    rw [readFrom, readField_eq_last_iff.2 h]
    rfl
  | more h _ ih =>
    rw [readFrom_of_more (readField_eq_more_iff.2 ⟨_, h, rfl⟩), ih]
    rfl

/-! ## Fields -/

theorem spells_singleton :
    Spells [field] numerals ↔
      (AllBlank field ∧ numerals = []) ∨ ∃ n, Holds field n ∧ numerals = [n] := by
  constructor
  · rintro ⟨front, last, held, hfields, hf, hl⟩
    rcases List.append_eq_singleton_iff.1 hfields.symm with ⟨rfl, hlast⟩ | ⟨-, hlast⟩
    · cases hlast
      cases hf
      exact hl
    · cases hlast
  · intro hl
    exact ⟨[], field, [], rfl, .nil, hl⟩

theorem spells_cons (hne : fields ≠ []) :
    Spells (field :: fields) numerals ↔
      ∃ n ns, Holds field n ∧ Spells fields ns ∧ numerals = n :: ns := by
  constructor
  · rintro ⟨front, last, held, hfields, hf, hl⟩
    rcases List.append_eq_cons_iff.1 hfields.symm with ⟨-, hlast⟩ | ⟨front, rfl, rfl⟩
    · cases hlast
      exact absurd rfl hne
    · obtain ⟨n, held, hn, hfront, rfl⟩ := List.forall₂_cons_left_iff.1 hf
      rcases hl with ⟨hb, rfl⟩ | ⟨m, hm, rfl⟩
      · exact ⟨n, held, hn, ⟨front, last, held, rfl, hfront, .inl ⟨hb, rfl⟩⟩, rfl⟩
      · exact ⟨n, held ++ [m], hn, ⟨front, last, held, rfl, hfront, .inr ⟨m, hm, rfl⟩⟩, rfl⟩
  · rintro ⟨n, ns, hn, ⟨front, last, held, rfl, hf, hl⟩, rfl⟩
    refine ⟨field :: front, last, n :: held, rfl, .cons hn hf, ?_⟩
    rcases hl with ⟨hb, rfl⟩ | ⟨m, hm, rfl⟩
    · exact .inl ⟨hb, rfl⟩
    · exact .inr ⟨m, hm, rfl⟩

theorem Reads.spells (h : Reads text numerals) : Spells (text.splitOn ',') numerals := by
  induction h with
  | nothing h =>
    rw [List.splitOn_eq_singleton h.comma_not_mem]
    exact spells_singleton.2 (.inl ⟨h, rfl⟩)
  | last h =>
    rw [List.splitOn_eq_singleton h.comma_not_mem]
    exact spells_singleton.2 (.inr ⟨_, h, rfl⟩)
  | more h _ ih =>
    rw [List.splitOn_append_cons_self_of_not_mem h.comma_not_mem]
    exact (spells_cons (List.splitOn_ne_nil _ _)).2 ⟨_, _, h, ih, rfl⟩

theorem reads_of_spells (hfields : text.splitOn ',' = fields) (h : Spells fields numerals) :
    Reads text numerals := by
  induction fields generalizing text numerals with
  | nil => exact absurd hfields (List.splitOn_ne_nil _ _)
  | cons field fields ih =>
    by_cases hc : ',' ∈ text
    · obtain ⟨front, rest, rfl, hfront⟩ := List.eq_append_cons_of_mem hc
      rw [List.splitOn_append_cons_self_of_not_mem hfront] at hfields
      cases hfields
      obtain ⟨n, ns, hn, hs, rfl⟩ := (spells_cons (List.splitOn_ne_nil _ _)).1 h
      exact .more hn (ih rfl hs)
    · rw [List.splitOn_eq_singleton hc] at hfields
      cases hfields
      rcases spells_singleton.1 h with ⟨hb, rfl⟩ | ⟨n, hn, rfl⟩
      · exact .nothing hb
      · exact .last hn

/-! ## Tokens -/

theorem derives_nil : Derives tokens [] ↔ tokens = [] := by
  constructor
  · rintro ⟨⟩
    rfl
  · rintro rfl
    exact .nothing

theorem derives_cons : Derives tokens (n :: ns) ↔
    (tokens = [.number n] ∧ ns = []) ∨
      ∃ behind, tokens = .number n :: .comma :: behind ∧ Derives behind ns := by
  constructor
  · intro h
    cases h with
    | words =>
      cases ns with
      | nil => exact .inl ⟨rfl, rfl⟩
      | cons m ns => exact .inr ⟨_, rfl, .words m ns⟩
    | trailing =>
      cases ns with
      | nil => exact .inr ⟨_, rfl, .nothing⟩
      | cons m ns => exact .inr ⟨_, rfl, .trailing m ns⟩
  · rintro (⟨rfl, rfl⟩ | ⟨behind, rfl, h⟩)
    · exact .words n []
    · cases h with
      | nothing => exact .trailing n []
      | words m ns => exact .words n (m :: ns)
      | trailing m ns => exact .trailing n (m :: ns)

theorem AllBlank.lexes (hb : AllBlank before) (h : Lexes text tokens) :
    Lexes (before ++ text) tokens := by
  induction before with
  | nil => exact h
  | cons c before ih =>
    obtain ⟨hc, hb⟩ := List.forall_mem_cons.1 hb
    exact .blank hc (ih hb)

theorem Holds.lexes (h : Holds field n) (hr : ∀ c ∈ rest.head?, c = ',') (hl : Lexes rest tokens) :
    Lexes (field ++ rest) (.number n :: tokens) := by
  obtain ⟨hb, hn, ha⟩ := h
  rw [List.append_assoc, List.append_assoc]
  exact hb.lexes (.number hn (ha.ends hr) (ha.lexes hl))

theorem allBlank_of_lexes (h : Lexes text []) : AllBlank text := by
  generalize ht : ([] : List Token) = tokens at h
  induction h with
  | done => exact nofun
  | blank hc _ ih => exact List.forall_mem_cons.2 ⟨hc, ih ht⟩
  | comma => cases ht
  | number => cases ht

/-- The first token stands behind blanks. -/
theorem exists_of_lexes_number (h : Lexes text (.number n :: tokens)) :
    ∃ before numeral rest, text = before ++ (numeral ++ rest) ∧ AllBlank before ∧
      Denotes numeral n ∧ Lexes rest tokens := by
  generalize ht : Token.number n :: tokens = all at h
  induction h with
  | done => cases ht
  | @blank c _ _ hc _ ih =>
    obtain ⟨before, numeral, rest, rfl, hb, hn, hr⟩ := ih ht
    exact ⟨c :: before, numeral, rest, rfl, List.forall_mem_cons.2 ⟨hc, hb⟩, hn, hr⟩
  | comma => cases ht
  | number hn _ h =>
    cases ht
    exact ⟨[], _, _, rfl, nofun, hn, h⟩

theorem exists_of_lexes_comma (h : Lexes text (.comma :: tokens)) :
    ∃ before rest, text = before ++ ',' :: rest ∧ AllBlank before ∧ Lexes rest tokens := by
  generalize ht : Token.comma :: tokens = all at h
  induction h with
  | done => cases ht
  | @blank c _ _ hc _ ih =>
    obtain ⟨before, rest, rfl, hb, hr⟩ := ih ht
    exact ⟨c :: before, rest, rfl, List.forall_mem_cons.2 ⟨hc, hb⟩, hr⟩
  | comma h =>
    cases ht
    exact ⟨[], _, rfl, nofun, h⟩
  | number => cases ht

theorem Reads.derives (h : Reads text numerals) :
    ∃ tokens, Lexes text tokens ∧ Derives tokens numerals := by
  induction h with
  | @nothing text h =>
    have hl : Lexes (text ++ []) [] := h.lexes .done
    exact ⟨[], by rwa [List.append_nil] at hl, .nothing⟩
  | @last text n h =>
    have hl : Lexes (text ++ []) [.number n] := h.lexes nofun .done
    exact ⟨[.number n], by rwa [List.append_nil] at hl, .words n []⟩
  | more h _ ih =>
    obtain ⟨tokens, hl, hd⟩ := ih
    exact ⟨_, h.lexes (fun c hc => by cases hc; rfl) (.comma hl),
      derives_cons.2 (.inr ⟨tokens, rfl, hd⟩)⟩

theorem reads_of_derives (hl : Lexes text tokens) (hd : Derives tokens numerals) :
    Reads text numerals := by
  induction numerals generalizing text tokens with
  | nil =>
    rw [derives_nil] at hd
    subst hd
    exact .nothing (allBlank_of_lexes hl)
  | cons n ns ih =>
    rcases derives_cons.1 hd with ⟨rfl, rfl⟩ | ⟨behind, rfl, hbehind⟩
    · obtain ⟨before, numeral, rest, rfl, hb, hn, hr⟩ := exists_of_lexes_number hl
      rw [← List.append_assoc]
      exact .last (.intro hb hn (allBlank_of_lexes hr))
    · obtain ⟨before, numeral, rest, rfl, hb, hn, hr⟩ := exists_of_lexes_number hl
      obtain ⟨gap, rest, rfl, hgap, hr⟩ := exists_of_lexes_comma hr
      rw [← List.append_assoc, ← List.append_assoc]
      exact .more (.intro hb hn hgap) (ih hr hbehind)

/-! ## Words -/

/-- As long as the host reads so many digits, each numeral is made into its number. -/
theorem mapM_toInt_of_allows (h : ∀ n ∈ numerals, limit.Allows n.digits.length) :
    numerals.mapM (toInt limit) = .ok (numerals.map number) := by
  induction numerals with
  | nil => rfl
  | cons n numerals ih =>
    obtain ⟨hn, hnumerals⟩ := List.forall_mem_cons.1 h
    rw [List.mapM_cons, ih hnumerals, toInt, if_pos hn, value_eq_number]
    rfl

/-- The first numeral with too many digits is the one that fails. -/
theorem mapM_toInt_of_not_allows {before after : List Numeral}
    (hb : ∀ m ∈ before, limit.Allows m.digits.length) (hn : ¬ limit.Allows n.digits.length) :
    (before ++ n :: after).mapM (toInt limit) =
      .error { limit.excess with found := some n.digits.length } := by
  rw [List.mapM_append, mapM_toInt_of_allows hb, List.mapM_cons, toInt, if_neg hn]
  rfl

/-! ## Programs -/

theorem read_of_reads {text : String} (h : Reads text.toList numerals) :
    read limit text = (numerals.mapM (toInt limit)).mapError .tooManyDigits := by
  simp only [read, readFrom_eq_ok_iff.2 h]
  rfl

theorem read_of_stop {text : String} {stop : List Char}
    (h : readFrom text.toList [] = .error stop) :
    read limit text = .error (.ofStop text.toList stop) := by
  simp only [read, h]
  rfl

theorem ofStop_ne_tooManyDigits {text stop : List Char} {error : TooManyDigits} :
    ReadError.ofStop text stop ≠ .tooManyDigits error := by
  unfold ReadError.ofStop
  split <;> exact nofun

/-- A host without a limit reads all numbers. -/
theorem limit_ne_none_of_read {text : String} {error : TooManyDigits}
    (h : read limit text = .error (.tooManyDigits error)) : limit ≠ none := by
  rintro rfl
  cases hr : readFrom text.toList [] with
  | error stop =>
    rw [read_of_stop hr, Except.error.injEq] at h
    exact ofStop_ne_tooManyDigits h
  | ok numerals =>
    rw [read_of_reads (readFrom_eq_ok_iff.1 hr),
      mapM_toInt_of_allows fun n _ => DigitLimit.allows_none _] at h
    cases h

/-- A text is read as words if it has numerals that the host reads, and these are their numbers. -/
theorem read_eq_ok_iff {text : String} {words : List Int} : read limit text = .ok words ↔
    ∃ numerals, Reads text.toList numerals ∧ (∀ n ∈ numerals, limit.Allows n.digits.length) ∧
      words = numerals.map number := by
  constructor
  · intro h
    cases hr : readFrom text.toList [] with
    | error stop => cases (read_of_stop hr).symm.trans h
    | ok numerals =>
      have hreads := readFrom_eq_ok_iff.1 hr
      by_cases ha : ∀ n ∈ numerals, limit.Allows n.digits.length
      · rw [read_of_reads hreads, mapM_toInt_of_allows ha] at h
        cases h
        exact ⟨numerals, hreads, ha, rfl⟩
      · obtain ⟨before, n, after, rfl, hb, hn⟩ := exists_first_of_not_forall ha
        rw [read_of_reads hreads, mapM_toInt_of_not_allows hb hn] at h
        cases h
  · rintro ⟨numerals, hreads, ha, rfl⟩
    rw [read_of_reads hreads, mapM_toInt_of_allows ha]
    rfl

/-- A text without numerals to be read is refused, and no other. -/
theorem refused_iff {text : String} :
    (∃ e, read limit text = .error e ∧ ∀ t, e ≠ .tooManyDigits t) ↔
      ∀ numerals, ¬ Reads text.toList numerals := by
  cases hr : readFrom text.toList [] with
  | ok numerals =>
    have hreads := readFrom_eq_ok_iff.1 hr
    refine iff_of_false (fun ⟨e, he, hne⟩ => ?_) fun h => h numerals hreads
    rw [read_of_reads hreads] at he
    cases hm : numerals.mapM (toInt limit) with
    | ok words =>
      rw [hm] at he
      cases he
    | error t =>
      rw [hm] at he
      cases he
      exact hne t rfl
  | error stop =>
    refine iff_of_true ⟨_, read_of_stop hr, fun t => ofStop_ne_tooManyDigits⟩ fun numerals h => ?_
    cases (readFrom_eq_ok_iff.2 h).symm.trans hr

/-- Any host makes the same of a text as a host without a limit, unless a numeral has too many
digits. -/
theorem read_cases (limit : DigitLimit) (text : String) :
    (∃ words, read none text = .ok words ∧
      (read limit text = .ok words ∨ ∃ e, read limit text = .error (.tooManyDigits e))) ∨
    (∀ words, read none text ≠ .ok words) ∧
      ∃ e, read limit text = .error e ∧ ∀ t, e ≠ .tooManyDigits t := by
  cases hr : readFrom text.toList [] with
  | error stop =>
    refine .inr ⟨fun words h => ?_, _, read_of_stop hr, fun t => ofStop_ne_tooManyDigits⟩
    cases (read_of_stop hr).symm.trans h
  | ok numerals =>
    have hreads := readFrom_eq_ok_iff.1 hr
    refine .inl ⟨numerals.map number, ?_, ?_⟩
    · exact read_eq_ok_iff.2 ⟨numerals, hreads, fun n _ => DigitLimit.allows_none _, rfl⟩
    · by_cases ha : ∀ n ∈ numerals, limit.Allows n.digits.length
      · exact .inl (read_eq_ok_iff.2 ⟨numerals, hreads, ha, rfl⟩)
      · obtain ⟨before, n, after, rfl, hb, hn⟩ := exists_first_of_not_forall ha
        rw [read_of_reads hreads, mapM_toInt_of_not_allows hb hn]
        exact .inr ⟨_, rfl⟩

end Program

end Wordcode
