import Wordcode.CommandLine.Invocation
import Wordcode.Proofs.Program.RoundTrip

/-!
# Command lines in words

The words that ask for a run of a program file (`commandLine`) make just that request
(`parse_commandLine`). A number is written as a numeral, which is never taken for an
option (`classify_of_denotes`) and is read as the number (`readInteger?_of_denotes`). Each
option with its value, or without one, changes the settings before those behind it are
looked at (`Sets`). A number with more digits than the host reads is refused there, whatever
comes behind it (`parse_commandLine_of_not_writes`).
-/

namespace Wordcode

open Numeral

variable {limit : DigitLimit} {text digits : List Char} {word : String} {numeral : Numeral}
  {n : Int} {c : Char}

/-! ## Numbers -/

theorem toNat_of_isDigit (h : c.isDigit = true) : 48 ≤ c.toNat ∧ c.toNat ≤ 57 := by
  simpa [Char.isDigit, UInt32.le_iff_toNat_le] using h

theorem digitValue?_of_isDigit (h : c.isDigit = true) : digitValue? c = some (c.toNat - 48) := by
  obtain ⟨hlow, hhigh⟩ := toNat_of_isDigit h
  have hzeros : digitZeros = 48 :: digitZeros.tail := rfl
  have hfirst : (decide (48 ≤ c.toNat) && decide (c.toNat < 48 + 10)) = true := by
    simp only [hlow, Nat.lt_succ_of_le hhigh, decide_true, Bool.and_true]
  unfold digitValue?
  rw [hzeros, List.find?_cons_of_pos (a := 48) hfirst]
  rfl

theorem digitsValue?_of_digits (hd : ∀ c ∈ digits, c.isDigit = true) (afterDigit : Bool)
    (hne : digits ≠ [] ∨ afterDigit = true) (value : Nat) :
    digitsValue? afterDigit value digits = some (Nat.ofDigitChars 10 digits value) := by
  induction digits generalizing afterDigit value with
  | nil =>
    rw [digitsValue?, if_pos (hne.resolve_left fun h => h rfl)]
    rfl
  | cons c digits ih =>
    obtain ⟨hc, hdigits⟩ := List.forall_mem_cons.1 hd
    have hunderscore : c ≠ '_' := by
      rintro rfl
      cases hc
    rw [digitsValue?, if_neg hunderscore, digitValue?_of_isDigit hc]
    exact ih hdigits true (.inr rfl) _

theorem isWhiteSpace_of_denotes (h : Denotes text numeral) :
    ∀ c ∈ text, isWhiteSpace c = false := by
  have hdigits {digits : List Char} (hd : Digits digits) :
      ∀ c ∈ digits, isWhiteSpace c = false := fun c hc => by
    rw [isWhiteSpace, isBlank_eq_false_of_isDigit (hd.2 c hc), Bool.false_and]
  cases h with
  | unsigned hd => exact hdigits hd
  | plus hd => exact List.forall_mem_cons.2 ⟨by decide, hdigits hd⟩
  | minus hd => exact List.forall_mem_cons.2 ⟨by decide, hdigits hd⟩

theorem dropWhile_of_forall {p : Char → Bool} (h : ∀ c ∈ text, p c = false) :
    text.dropWhile p = text := by
  cases text with
  | nil => rfl
  | cons c text =>
    rw [List.dropWhile_cons_of_neg]
    rw [h c List.mem_cons_self]
    exact Bool.false_ne_true

theorem countDigits_of_denotes (h : Denotes text numeral) :
    countDigits text = numeral.digits.length := by
  have hdigits {digits : List Char} (hd : Digits digits) : countDigits digits = digits.length := by
    refine List.countP_eq_length.2 fun c hc => ?_
    rw [digitValue?_of_isDigit (hd.isDigit c hc)]
    rfl
  have hsign {sign : Char} (hs : (digitValue? sign).isSome = false) (digits : List Char) :
      countDigits (sign :: digits) = countDigits digits :=
    List.countP_cons_of_neg (by rw [hs]; exact Bool.false_ne_true)
  cases h with
  | unsigned hd => exact hdigits hd
  | plus hd => exact (hsign (by decide +kernel) _).trans (hdigits hd)
  | minus hd => exact (hsign (by decide +kernel) _).trans (hdigits hd)

/-- A numeral is read as its number, if the host reads so many digits. -/
theorem readInteger?_of_denotes (h : Denotes word.toList numeral) : readInteger? limit word =
    if limit.Allows numeral.digits.length then some numeral.number else none := by
  have hwhite := isWhiteSpace_of_denotes h
  have hback : ∀ c ∈ word.toList.reverse, isWhiteSpace c = false := fun c hc =>
    hwhite c (List.mem_reverse.1 hc)
  have hvalue {digits : List Char} (hd : Digits digits) :
      digitsValue? false 0 digits = some (decimal digits) := by
    rw [digitsValue?_of_digits hd.2 false (.inl hd.1), ofDigitChars_eq_decimal]
  simp only [readInteger?, dropWhile_of_forall hwhite, dropWhile_of_forall hback,
    List.reverse_reverse, countDigits_of_denotes h]
  refine if_congr Iff.rfl ?_ rfl
  generalize word.toList = text at h
  cases h with
  | unsigned hd =>
    split
    · exact absurd (hd.2 '-' List.mem_cons_self) (by decide)
    · exact absurd (hd.2 '+' List.mem_cons_self) (by decide)
    · rw [hvalue hd]
      rfl
  | plus hd =>
    show ((digitsValue? false 0 _).bind _).map _ = _
    rw [hvalue hd]
    rfl
  | minus hd =>
    show ((digitsValue? false 0 _).bind _).map _ = _
    rw [hvalue hd]
    rfl

namespace Arguments

variable {α : Type} {switches : List (Switch α)}

/-- No option has a name with a digit behind the first dash. -/
def Lettered (switches : List (Switch α)) : Prop :=
  ∀ switch ∈ switches, ∀ name ∈ switch.names, name.toList[1]?.any Char.isDigit = false

instance (switches : List (Switch α)) : Decidable (Lettered switches) :=
  inferInstanceAs (Decidable (∀ switch ∈ switches, ∀ name ∈ switch.names,
    name.toList[1]?.any Char.isDigit = false))

theorem classify_of_no_dash (h : word.toList.head? ≠ some '-') :
    classify switches word = .ok (.word word) := if_pos h

theorem ne_of_lettered (hs : Lettered switches) {switch : Switch α} (hswitch : switch ∈ switches)
    {name : String} (hname : name ∈ switch.names) (hc : c.isDigit = true) :
    name.toList[1]? ≠ some c := fun h => by
  have hletter := hs switch hswitch name hname
  rw [h, Option.any_some, hc] at hletter
  cases hletter

theorem splitAtEquals_of_not_mem (h : '=' ∉ text) : splitAtEquals text = (text, none) := by
  have hnil : text.dropWhile (· ≠ '=') = [] := by
    rw [List.dropWhile_eq_nil_iff]
    intro c hc
    rw [decide_eq_true_eq]
    rintro rfl
    exact h hc
  rw [splitAtEquals, hnil]

theorem candidates_of_minus (hs : Lettered switches) (hc : c.isDigit = true) :
    candidates switches ('-' :: c :: text) = [] := by
  have hlong : ¬ ['-', '-'].isPrefixOf ('-' :: c :: text) = true := fun h => by
    obtain ⟨rest, hrest⟩ := List.isPrefixOf_iff_prefix.1 h
    cases hrest
    cases hc
  unfold candidates
  rw [if_neg hlong]
  refine List.filterMap_eq_nil_iff.2 ?_
  rintro ⟨switch, name⟩ hmem
  obtain ⟨s, hswitch, hname⟩ := List.mem_flatMap.1 hmem
  obtain ⟨m, hm, hpair⟩ := List.mem_map.1 hname
  cases hpair
  have hletter := ne_of_lettered hs hswitch hm hc
  have hshort : ¬ name.toList = ('-' :: c :: text).take 2 := fun h => hletter (by rw [h]; rfl)
  have hstart : ¬ ('-' :: c :: text).isPrefixOf name.toList = true := fun h => by
    obtain ⟨rest, hrest⟩ := List.isPrefixOf_iff_prefix.1 h
    exact hletter (by rw [← hrest]; rfl)
  show (if _ then _ else _) = _
  rw [if_neg hshort, if_neg hstart]

theorem isNegativeNumber_of_digits (hd : Digits digits) :
    isNegativeNumber ('-' :: digits) = true := by
  have hlast : digits.getLast? ≠ some '\n' := fun h =>
    absurd (hd.isDigit _ (List.mem_of_getLast? h)) (by decide)
  have hvalue : ∀ c ∈ digits, (digitValue? c).isSome = true := fun c hc => by
    rw [digitValue?_of_isDigit (hd.isDigit c hc)]
    rfl
  have hwhole : digits.takeWhile (fun c => (digitValue? c).isSome) = digits :=
    List.takeWhile_eq_self_iff.2 hvalue
  have hrest : digits.dropWhile (fun c => (digitValue? c).isSome) = [] :=
    List.dropWhile_eq_nil_iff.2 hvalue
  have hne : digits.isEmpty = false := by
    rw [List.isEmpty_eq_false_iff]
    exact hd.ne_nil
  simp only [isNegativeNumber, if_neg hlast, hwhole, hrest, hne, Bool.not_false]

/-- A negative number is not an option. -/
theorem classify_of_minus (hs : Lettered switches) (hd : Digits digits)
    (hw : word.toList = '-' :: digits) : classify switches word = .ok (.word word) := by
  obtain ⟨c, rest, rfl⟩ := List.exists_cons_of_ne_nil hd.ne_nil
  obtain ⟨hc, hrest⟩ := List.forall_mem_cons.1 hd.isDigit
  have hnot (switch : Switch α) (hswitch : switch ∈ switches) (name : String)
      (hname : name ∈ switch.names) : name.toList[1]? ≠ some c :=
    ne_of_lettered hs hswitch hname hc
  have hnamed : switchNamed? switches word = none := by
    refine List.find?_eq_none.2 fun switch hswitch h => ?_
    refine hnot switch hswitch word (List.contains_iff_mem.1 h) ?_
    rw [hw]
    rfl
  have hequals : splitAtEquals ('-' :: c :: rest) = ('-' :: c :: rest, none) :=
    splitAtEquals_of_not_mem fun h => by
      rcases List.mem_cons.1 h with h | h
      · cases h
      · exact absurd (hd.isDigit '=' h) (by decide)
  have hcandidates : candidates switches ('-' :: c :: rest) = [] := candidates_of_minus hs hc
  have hnegative : isNegativeNumber ('-' :: c :: rest) = true := isNegativeNumber_of_digits hd
  have hdash : ¬ ('-' :: c :: rest).head? ≠ some '-' := fun h => h rfl
  have hlength : ¬ ('-' :: c :: rest).length = 1 := by
    rw [List.length_cons, List.length_cons]
    omega
  simp only [classify, hw, if_neg hdash, hnamed, if_neg hlength, hequals, hcandidates, hnegative,
    Bool.true_or, if_true]

/-- A numeral is not an option. -/
theorem classify_of_denotes (hs : Lettered switches) (h : Denotes word.toList numeral) :
    classify switches word = .ok (.word word) := by
  generalize hw : word.toList = text at h
  cases h with
  | unsigned hd =>
    refine classify_of_no_dash fun hdash => ?_
    rw [hw] at hdash
    exact absurd (hd.isDigit '-' (List.mem_of_head? hdash)) (by decide)
  | plus hd =>
    refine classify_of_no_dash fun hdash => ?_
    rw [hw] at hdash
    cases hdash
  | minus hd => exact classify_of_minus hs hd hw

theorem ne_marker_of_denotes (h : Denotes word.toList numeral) : word ≠ "--" := by
  rintro rfl
  have hmarker : "--".toList = ['-', '-'] := rfl
  rw [hmarker] at h
  cases h with
  | unsigned hd => exact absurd (hd.isDigit '-' (by decide)) (by decide)
  | minus hd => exact absurd (hd.isDigit '-' (by decide)) (by decide)

theorem tokens_cons {token : Token α} {words : List String} {ts : List (Token α)}
    (hword : word ≠ "--") (hclass : classify switches word = .ok token)
    (hts : tokens switches words = .ok ts) :
    tokens switches (word :: words) = .ok (token :: ts) := by
  rw [tokens, if_neg hword, hclass, hts]
  rfl

/-- Words none of which is wrong in itself are all classified. -/
theorem exists_tokens {words : List String}
    (h : ∀ word ∈ words, word ≠ "--" ∧ ∃ token, classify switches word = .ok token ∧
      token.text = word) : ∃ ts, tokens switches words = .ok ts ∧ ts.map Token.text = words := by
  induction words with
  | nil => exact ⟨[], rfl, rfl⟩
  | cons word words ih =>
    obtain ⟨⟨hne, token, htoken, htext⟩, hwords⟩ := List.forall_mem_cons.1 h
    obtain ⟨ts, hts, hmap⟩ := ih hwords
    exact ⟨token :: ts, tokens_cons hne htoken hts, by rw [List.map_cons, htext, hmap]⟩

end Arguments

open Arguments

/-! ## Options -/

/-- The numbers that a program is prepared with. -/
def Preparation.numbers (preparation : Preparation Int) : List Int :=
  preparation.inputs ++ preparation.noun.toList ++ preparation.verb.toList

/-- The options that prepare a run, and the one that asks for the counters. -/
def optionWords (preparation : Preparation Int) (stats : Bool) : List String :=
  preparation.inputs.flatMap (fun n => ["-i", toString n]) ++
    (preparation.noun.map fun n => ["--noun", toString n]).getD [] ++
    (preparation.verb.map fun n => ["--verb", toString n]).getD [] ++
    if stats then ["--stats"] else []

/-- A command line that asks for a run of a program file. -/
def commandLine (file : String) (preparation : Preparation Int) (stats : Bool) : List String :=
  "run" :: file :: optionWords preparation stats

/-- The settings of a run of a program file that is not traced. -/
def runSettings (file : String) (entries : Preparation Entry) (stats : Bool) : Settings :=
  { Settings.default with file := some file, entries, stats }

/-- Behind the program file, the words turn the settings into this result. -/
def Sets (limit : DigitLimit) (words : List String) (settings : Settings)
    (result : Except Refusal (Settings × List String)) : Prop :=
  ∃ ts, tokens Command.run.grammar.switches words = .ok ts ∧ dropMarker ts = ts ∧
    settings.read limit (some .run) (scan Command.run.grammar true ts) = result

/-- The name is that of an option which prepares a run with the number behind it. -/
structure Prepares (name : String) (switch : Switch Purpose) : Prop where
  ne_marker : name ≠ "--"
  classify_eq : classify Command.run.grammar.switches name = .ok (.known name ⟨switch, name, none⟩)
  takesValue : switch.takesValue = true
  purpose : switch.purpose ∈ [.input, .noun, .verb]

theorem prepares_input : Prepares "-i" ⟨["-i", "--input"], true, .input⟩ :=
  ⟨by decide, rfl, rfl, by decide⟩

theorem prepares_noun : Prepares "--noun" ⟨["--noun"], true, .noun⟩ :=
  ⟨by decide, rfl, rfl, by decide⟩

theorem prepares_verb : Prepares "--verb" ⟨["--verb"], true, .verb⟩ :=
  ⟨by decide, rfl, rfl, by decide⟩

section Sets

variable {words : List String} {s t : Settings} {name : String} {switch : Switch Purpose}
  {misuse : Misuse} {result : Except Refusal (Settings × List String)}

theorem Sets.nil : Sets limit [] s (.ok (s, [])) := ⟨[], rfl, rfl, by rw [scan]; rfl⟩

/-- An option with a number behind it is looked at before the words behind these. -/
theorem exists_tokens_number (hp : Prepares name switch) (n : Int)
    (h : Sets limit words t result) : ∃ ts us,
      tokens Command.run.grammar.switches (name :: toString n :: words) = .ok ts ∧
      dropMarker ts = ts ∧
      t.read limit (some .run) (scan Command.run.grammar true us) = result ∧
      scan Command.run.grammar true ts =
        .option switch (some (toString n)) :: scan Command.run.grammar true us := by
  obtain ⟨us, hus, -, hread⟩ := h
  have hn := denotes_toString n
  have hlettered : Lettered Command.run.grammar.switches := by decide
  refine ⟨_, us, tokens_cons hp.ne_marker hp.classify_eq
    (tokens_cons (ne_marker_of_denotes hn) (classify_of_denotes hlettered hn) hus), rfl, hread, ?_⟩
  rw [scan]
  simp only [resolve, hp.takesValue, List.nil_append]

theorem Prepares.purpose_ne_help (hp : Prepares name switch) : switch.purpose ≠ .help := fun h => by
  have hpurpose := hp.purpose
  rw [h] at hpurpose
  exact absurd hpurpose (by decide)

theorem Sets.number (hp : Prepares name switch)
    (hset : s.set limit switch (some (toString n)) = .ok t) (h : Sets limit words t result) :
    Sets limit (name :: toString n :: words) s result := by
  obtain ⟨ts, us, hts, hdrop, hread, hscan⟩ := exists_tokens_number hp n h
  refine ⟨ts, hts, hdrop, ?_⟩
  simp only [hscan, Settings.read, if_neg hp.purpose_ne_help, hset, hread]

/-- What comes behind a number that is refused is not looked at. -/
theorem Sets.refused (hp : Prepares name switch)
    (hset : s.set limit switch (some (toString n)) = .error misuse)
    (h : Sets limit words t result) :
    Sets limit (name :: toString n :: words) s (.error (.misuse (some .run) misuse)) := by
  obtain ⟨ts, us, hts, hdrop, -, hscan⟩ := exists_tokens_number hp n h
  refine ⟨ts, hts, hdrop, ?_⟩
  simp only [hscan, Settings.read, if_neg hp.purpose_ne_help, hset]

/-- An option without a value. -/
theorem Sets.flag (name : String) (switch : Switch Purpose) (hname : name ≠ "--")
    (hclass : classify Command.run.grammar.switches name = .ok (.known name ⟨switch, name, none⟩))
    (hvalue : switch.takesValue = false) (hpurpose : switch.purpose ≠ .help)
    (hset : s.set limit switch none = .ok t) (h : Sets limit words t result) :
    Sets limit (name :: words) s result := by
  obtain ⟨ts, hts, -, hread⟩ := h
  refine ⟨_, tokens_cons hname hclass hts, rfl, ?_⟩
  rw [scan]
  simp only [resolve, hvalue, List.singleton_append, Settings.read, if_neg hpurpose, hset, hread]

theorem Sets.counters {file : String} {entries : Preparation Entry} (stats : Bool) :
    Sets limit (if stats then ["--stats"] else []) (runSettings file entries false)
      (.ok (runSettings file entries stats, [])) := by
  cases stats with
  | false => exact .nil
  | true => exact flag "--stats" ⟨["--stats"], false, .stats⟩ (by decide) rfl rfl nofun rfl .nil

/-! ## Numbers that are read -/

theorem allows_ofInt : limit.Allows (ofInt n).digits.length ↔ limit.Writes [n] :=
  (List.forall_mem_singleton (p := fun n => limit.Allows (digitCount n))).symm

theorem readEntry_toString (switch : Switch Purpose) (h : limit.Writes [n]) :
    Settings.readEntry limit switch (toString n) = .ok (.number n) := by
  have hn := denotes_toString n
  simp only [Settings.readEntry, if_neg (ne_marker_of_denotes hn), readInteger?_of_denotes hn,
    if_pos (allows_ofInt.2 h), number_ofInt]

theorem readEntry_of_not_writes (switch : Switch Purpose) (h : ¬ limit.Writes [n]) :
    Settings.readEntry limit switch (toString n) =
      .error (.notInteger switch.title (toString n)) := by
  have hn := denotes_toString n
  simp only [Settings.readEntry, if_neg (ne_marker_of_denotes hn), readInteger?_of_denotes hn,
    if_neg (mt allows_ofInt.1 h)]

theorem Sets.inputs {file : String} {stats : Bool} {entries : Preparation Entry}
    (values : List Int) (hw : limit.Writes values)
    (h : Sets limit words
      (runSettings file { entries with inputs := entries.inputs ++ values.map .number } stats)
      result) :
    Sets limit (values.flatMap (fun n => ["-i", toString n]) ++ words)
      (runSettings file entries stats) result := by
  induction values generalizing entries with
  | nil =>
    rw [List.map_nil, List.append_nil] at h
    exact h
  | cons n values ih =>
    obtain ⟨hn, hvalues⟩ := DigitLimit.writes_cons.1 hw
    rw [List.map_cons, List.append_cons] at h
    rw [List.flatMap_cons, List.append_assoc]
    have hset : (runSettings file entries stats).set limit ⟨["-i", "--input"], true, .input⟩
        (some (toString n)) = .ok (runSettings file
          { entries with inputs := entries.inputs ++ [.number n] } stats) := by
      simp only [Settings.set, Option.getD_some, readEntry_toString _ hn]
      rfl
    exact number prepares_input hset (ih hvalues h)

/-- An option with a number behind it, which need not be there. -/
theorem Sets.optional (set : Option Entry → Settings) (hp : Prepares name switch)
    (value : Option Int) (hw : limit.Writes value.toList)
    (hset : ∀ n : Int, limit.Writes [n] →
      (set none).set limit switch (some (toString n)) = .ok (set (some (.number n))))
    (h : Sets limit words (set (value.map .number)) result) :
    Sets limit ((value.map fun n => [name, toString n]).getD [] ++ words) (set none) result := by
  cases value with
  | none => exact h
  | some n => exact number hp (hset n hw) h

theorem set_noun (file : String) (inputs : List Entry) (h : limit.Writes [n]) :
    (runSettings file ⟨inputs, none, none⟩ false).set limit ⟨["--noun"], true, .noun⟩
        (some (toString n)) =
      .ok (runSettings file ⟨inputs, some (.number n), none⟩ false) := by
  simp only [Settings.set, Option.getD_some, readEntry_toString _ h]
  rfl

theorem set_verb (file : String) (inputs : List Entry) (noun : Option Entry)
    (h : limit.Writes [n]) :
    (runSettings file ⟨inputs, noun, none⟩ false).set limit ⟨["--verb"], true, .verb⟩
        (some (toString n)) =
      .ok (runSettings file ⟨inputs, noun, some (.number n)⟩ false) := by
  simp only [Settings.set, Option.getD_some, readEntry_toString _ h]
  rfl

theorem sets_optionWords (file : String) {preparation : Preparation Int} (stats : Bool)
    (hw : limit.Writes preparation.numbers) :
    Sets limit (optionWords preparation stats) (runSettings file ⟨[], none, none⟩ false)
      (.ok (runSettings file (preparation.map .number) stats, [])) := by
  obtain ⟨inputs, noun, verb⟩ := preparation
  simp only [Preparation.numbers, DigitLimit.writes_append] at hw
  obtain ⟨⟨hinputs, hnouns⟩, hverbs⟩ := hw
  have hverb := Sets.optional
    (fun verb => runSettings file ⟨inputs.map .number, noun.map .number, verb⟩ false)
    prepares_verb verb hverbs (fun _ => set_verb file _ _) (.counters stats)
  have hnoun := Sets.optional
    (fun noun => runSettings file ⟨inputs.map .number, noun, none⟩ false)
    prepares_noun noun hnouns (fun _ => set_noun file _) hverb
  unfold optionWords
  rw [List.append_assoc, List.append_assoc]
  exact .inputs inputs hinputs hnoun

/-! ## Numbers that are refused -/

/-- The options of a preparation, each with its name and its number. -/
def numberOptions (preparation : Preparation Int) : List ((String × Switch Purpose) × Int) :=
  preparation.inputs.map (("-i", ⟨["-i", "--input"], true, .input⟩), ·) ++
    preparation.noun.toList.map (("--noun", ⟨["--noun"], true, .noun⟩), ·) ++
    preparation.verb.toList.map (("--verb", ⟨["--verb"], true, .verb⟩), ·)

theorem prepares_of_mem_numberOptions {preparation : Preparation Int}
    {option : (String × Switch Purpose) × Int} (h : option ∈ numberOptions preparation) :
    Prepares option.1.1 option.1.2 := by
  simp only [numberOptions, List.mem_append, List.mem_map] at h
  obtain (⟨n, -, rfl⟩ | ⟨n, -, rfl⟩) | ⟨n, -, rfl⟩ := h
  · exact prepares_input
  · exact prepares_noun
  · exact prepares_verb

theorem map_numberOptions (preparation : Preparation Int) :
    (numberOptions preparation).map Prod.snd = preparation.numbers := by
  simp only [numberOptions, Preparation.numbers, List.map_append, List.map_map]
  have hsnd (key : String × Switch Purpose) : Prod.snd ∘ (fun n : Int => (key, n)) = id := rfl
  simp only [hsnd, List.map_id]

theorem optionWords_eq (preparation : Preparation Int) (stats : Bool) :
    optionWords preparation stats =
      (numberOptions preparation).flatMap (fun option => [option.1.1, toString option.2]) ++
        if stats then ["--stats"] else [] := by
  obtain ⟨inputs, noun, verb⟩ := preparation
  simp only [optionWords, numberOptions, List.flatMap_append, List.flatMap_map]
  cases noun <;> cases verb <;> rfl

/-- Such an option puts the entry that its value stands for into the settings. -/
theorem Prepares.exists_set (hp : Prepares name switch) (s : Settings) :
    ∃ place : Entry → Settings, ∀ (limit : DigitLimit) (word : String),
      s.set limit switch (some word) = (Settings.readEntry limit switch word).map place := by
  have hpurpose := hp.purpose
  simp only [List.mem_cons, List.not_mem_nil, or_false] at hpurpose
  obtain hinput | hnoun | hverb := hpurpose
  · refine ⟨fun entry => { s with entries :=
      { s.entries with inputs := s.entries.inputs ++ [entry] } }, fun limit word => ?_⟩
    simp only [Settings.set, hinput, Option.getD_some]
    cases Settings.readEntry limit switch word <;> rfl
  · refine ⟨fun entry => { s with entries := { s.entries with noun := some entry } },
      fun limit word => ?_⟩
    simp only [Settings.set, hnoun, Option.getD_some]
    cases Settings.readEntry limit switch word <;> rfl
  · refine ⟨fun entry => { s with entries := { s.entries with verb := some entry } },
      fun limit word => ?_⟩
    simp only [Settings.set, hverb, Option.getD_some]
    cases Settings.readEntry limit switch word <;> rfl

/-- The options are read up to one whose number has more digits than the host reads. -/
theorem exists_sets_options {options : List ((String × Switch Purpose) × Int)}
    (hp : ∀ option ∈ options, Prepares option.1.1 option.1.2) (ht : Sets limit words t result)
    (s : Settings) : ∃ result, Sets limit
      (options.flatMap (fun option => [option.1.1, toString option.2]) ++ words) s result ∧
      (¬ limit.Writes (options.map Prod.snd) → ∃ option ∈ options, ¬ limit.Writes [option.2] ∧
        result = .error (.misuse (some .run)
          (.notInteger option.1.2.title (toString option.2)))) := by
  induction options generalizing s with
  | nil =>
    obtain ⟨ts, hts, hdrop, -⟩ := ht
    exact ⟨_, ⟨ts, hts, hdrop, rfl⟩, fun h => absurd (DigitLimit.writes_nil limit) h⟩
  | cons option options ih =>
    obtain ⟨hfirst, hoptions⟩ := List.forall_mem_cons.1 hp
    obtain ⟨place, hset⟩ := hfirst.exists_set s
    have hset := hset limit (toString option.2)
    rw [List.flatMap_cons, List.append_assoc]
    by_cases hw : limit.Writes [option.2]
    · rw [readEntry_toString _ hw] at hset
      obtain ⟨result, hsets, hrefused⟩ := ih hoptions (place (.number option.2))
      refine ⟨result, .number hfirst hset hsets, fun h => ?_⟩
      rw [List.map_cons, DigitLimit.writes_cons] at h
      obtain ⟨other, hother, hresult⟩ := hrefused fun hrest => h ⟨hw, hrest⟩
      exact ⟨other, List.mem_cons_of_mem _ hother, hresult⟩
    · rw [readEntry_of_not_writes _ hw] at hset
      obtain ⟨result, hsets, -⟩ := ih hoptions s
      exact ⟨_, .refused hfirst hset hsets,
        fun _ => ⟨option, List.mem_cons_self, hw, rfl⟩⟩

theorem sets_refused {preparation : Preparation Int} (stats : Bool) (s : Settings)
    (hw : ¬ limit.Writes preparation.numbers) : ∃ title, ∃ n ∈ preparation.numbers,
      ¬ limit.Writes [n] ∧ Sets limit (optionWords preparation stats) s
        (.error (.misuse (some .run) (.notInteger title (toString n)))) := by
  have hstats : Sets limit (if stats then ["--stats"] else [])
    (runSettings "" ⟨[], none, none⟩ false) _ := .counters stats
  have hp : ∀ option ∈ numberOptions preparation, Prepares option.1.1 option.1.2 :=
    fun _ => prepares_of_mem_numberOptions
  obtain ⟨result, hsets, hrefused⟩ := exists_sets_options hp hstats s
  rw [map_numberOptions] at hrefused
  obtain ⟨option, hoption, hn, rfl⟩ := hrefused hw
  refine ⟨option.1.2.title, option.2, ?_, hn, ?_⟩
  · rw [← map_numberOptions]
    exact List.mem_map_of_mem hoption
  · rw [optionWords_eq]
    exact hsets

end Sets

/-! ## Requests -/

theorem of_mem_optionWords {preparation : Preparation Int} {stats : Bool}
    (h : word ∈ optionWords preparation stats) :
    word ∈ ["-i", "--noun", "--verb", "--stats"] ∨ ∃ n : Int, word = toString n := by
  have hpair {name : String} {n : Int} (hname : name ∈ ["-i", "--noun", "--verb", "--stats"])
      (h : word ∈ [name, toString n]) :
      word ∈ ["-i", "--noun", "--verb", "--stats"] ∨ ∃ n : Int, word = toString n := by
    rcases List.mem_cons.1 h with rfl | h
    · exact .inl hname
    · exact .inr ⟨n, List.mem_singleton.1 h⟩
  obtain ⟨inputs, noun, verb⟩ := preparation
  simp only [optionWords, List.mem_append, List.mem_flatMap] at h
  rcases h with ((⟨n, -, h⟩ | h) | h) | h
  · exact hpair (by decide) h
  · cases noun with
    | none => cases h
    | some n => exact hpair (by decide) h
  · cases verb with
    | none => cases h
    | some n => exact hpair (by decide) h
  · cases stats with
    | false => cases h
    | true =>
      rw [List.mem_singleton.1 h]
      exact .inl (by decide)

/-- A command line comes to what the words behind the command come to. -/
theorem parse_commandLine_eq {file : String} (hfile : file.toList.head? ≠ some '-')
    (preparation : Preparation Int) (stats : Bool) :
    Invocation.parse limit (commandLine file preparation stats) =
      Invocation.ofCommand limit .default .run (file :: optionWords preparation stats) := by
  have hmarker : file ≠ "--" := fun h => hfile (by rw [h]; rfl)
  have hwords : ∀ word ∈ file :: optionWords preparation stats, word ≠ "--" ∧
      ∃ token, classify programGrammar.switches word = .ok token ∧ token.text = word := by
    intro word hword
    rcases List.mem_cons.1 hword with rfl | hword
    · exact ⟨hmarker, _, classify_of_no_dash hfile, rfl⟩
    · rcases of_mem_optionWords hword with hname | ⟨n, rfl⟩
      · simp only [List.mem_cons, List.not_mem_nil, or_false] at hname
        obtain rfl | rfl | rfl | rfl := hname
        all_goals exact ⟨by decide, .unknown _, rfl, rfl⟩
      · have hn := denotes_toString n
        exact ⟨ne_marker_of_denotes hn, _, classify_of_denotes (by decide) hn, rfl⟩
  obtain ⟨ts, hts, htext⟩ := exists_tokens hwords
  have hprogram : Arguments.parse programGrammar (commandLine file preparation stats) =
      [.operands (commandLine file preparation stats)] := by
    have htokens : tokens programGrammar.switches (commandLine file preparation stats) =
        .ok (.word "run" :: ts) := tokens_cons (by decide) rfl hts
    rw [Arguments.parse, htokens]
    show scan programGrammar false (.word "run" :: ts) = _
    rw [scan]
    simp only [Bool.false_eq_true, if_false, programGrammar, htext]
    rfl
  rw [Invocation.parse, hprogram]
  rfl

/-- The words behind the command come to what its options come to. -/
theorem read_of_sets {file : String} (hfile : file.toList.head? ≠ some '-')
    {words : List String} {result : Except Refusal (Settings × List String)}
    (h : Sets limit words (runSettings file ⟨[], none, none⟩ false) result) :
    Settings.default.read limit (some .run)
      (Arguments.parse Command.run.grammar (file :: words)) = result := by
  have hmarker : file ≠ "--" := fun h => hfile (by rw [h]; rfl)
  obtain ⟨us, hus, hdrop, hread⟩ := h
  have hrun : Arguments.parse Command.run.grammar (file :: words) =
      .operand file :: scan Command.run.grammar true us := by
    rw [Arguments.parse, tokens_cons hmarker (classify_of_no_dash hfile) hus]
    show scan Command.run.grammar false (.word file :: us) = _
    rw [scan]
    simp only [Bool.false_eq_true, if_false, hdrop, Command.grammar]
  rw [hrun]
  exact hread

/-- The command line asks for just that run, if the host reads its numbers. -/
theorem parse_commandLine {file : String} (hfile : file.toList.head? ≠ some '-')
    (preparation : Preparation Int) (stats : Bool) (hw : limit.Writes preparation.numbers) :
    Invocation.parse limit (commandLine file preparation stats) =
      .ok ⟨.run, file, runSettings file (preparation.map .number) stats⟩ := by
  rw [parse_commandLine_eq hfile, Invocation.ofCommand,
    read_of_sets hfile (sets_optionWords file stats hw)]
  rfl

/-- Otherwise it is refused at such a number. -/
theorem parse_commandLine_of_not_writes {file : String} (hfile : file.toList.head? ≠ some '-')
    (preparation : Preparation Int) (stats : Bool) (hw : ¬ limit.Writes preparation.numbers) :
    ∃ title, ∃ n ∈ preparation.numbers, ¬ limit.Writes [n] ∧
      Invocation.parse limit (commandLine file preparation stats) =
        .error (.misuse (some .run) (.notInteger title (toString n))) := by
  obtain ⟨title, n, hn, hnot, hsets⟩ :=
    sets_refused stats (runSettings file ⟨[], none, none⟩ false) hw
  refine ⟨title, n, hn, hnot, ?_⟩
  rw [parse_commandLine_eq hfile, Invocation.ofCommand, read_of_sets hfile hsets]
  rfl

end Wordcode
