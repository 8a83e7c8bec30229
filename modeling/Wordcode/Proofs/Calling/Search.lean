import Mathlib.Data.Prod.Lex
import Wordcode.Proofs.Calling.Result

/-!
# The search for two arguments

The pairs of arguments below a limit are tried in the order of their numbers
(`pairAt`), and that is the lexicographic order (`toLex_pairAt_lt_iff`). A pair that
does not end the search is a miss, and then the search goes on as it would from the
next pair (`answers_findPairFrom_succ`). So whatever it comes to, every pair before is
a miss (`Searched`, `answers_findPairFrom_iff`).
-/

namespace Wordcode

variable {fuel : Nat} {program : List Int} {target limit : Int} {p q : Nat × Nat}
  {r : Except CallError (Nat × Nat)} {below i j : Nat}

/-! ## The order of the pairs -/

/-- Both arguments are below the limit. -/
def Below (limit : Int) (p : Nat × Nat) : Prop := p.1 < limit ∧ p.2 < limit

/-- The pair with the given number, if as many verbs as nouns are tried. -/
def pairAt (below index : Nat) : Nat × Nat := (index / below, index % below)

theorem toLex_pairAt_lt_iff : toLex (pairAt below i) < toLex (pairAt below j) ↔ i < j := by
  have hi := Nat.div_add_mod i below
  have hj := Nat.div_add_mod j below
  rw [Prod.Lex.toLex_lt_toLex]
  show i / below < j / below ∨ i / below = j / below ∧ i % below < j % below ↔ _
  constructor
  · rintro (hlt | ⟨heq, hlt⟩)
    · exact Nat.lt_of_div_lt_div hlt
    · rw [heq] at hi
      omega
  · intro hlt
    rcases Nat.lt_or_eq_of_le (Nat.div_le_div_right hlt.le) with hdiv | hdiv
    · exact .inl hdiv
    · rw [hdiv] at hi
      exact .inr ⟨hdiv, by omega⟩

theorem below_pairAt (h : i < limit.toNat * limit.toNat) : Below limit (pairAt limit.toNat i) := by
  have hpos : 0 < limit.toNat := Nat.pos_of_mul_pos_left (Nat.zero_lt_of_lt h)
  have hdiv : i / limit.toNat < limit.toNat := Nat.div_lt_of_lt_mul h
  have hmod : i % limit.toNat < limit.toNat := Nat.mod_lt _ hpos
  exact ⟨Int.lt_toNat.1 hdiv, Int.lt_toNat.1 hmod⟩

theorem exists_pairAt (h : Below limit p) :
    ∃ i < limit.toNat * limit.toNat, pairAt limit.toNat i = p := by
  obtain ⟨hnoun, hverb⟩ := h
  have hn : p.1 < limit.toNat := Int.lt_toNat.2 hnoun
  have hv : p.2 < limit.toNat := Int.lt_toNat.2 hverb
  refine ⟨limit.toNat * p.1 + p.2, ?_, Prod.ext ?_ ?_⟩
  · calc limit.toNat * p.1 + p.2 < limit.toNat * (p.1 + 1) := by rw [Nat.mul_succ]; omega
      _ ≤ limit.toNat * limit.toNat := Nat.mul_le_mul_left _ hn
  · show (limit.toNat * p.1 + p.2) / limit.toNat = p.1
    rw [Nat.mul_add_div (Nat.zero_lt_of_lt hv), Nat.div_eq_of_lt hv, Nat.add_zero]
  · show (limit.toNat * p.1 + p.2) % limit.toNat = p.2
    rw [Nat.mul_add_mod, Nat.mod_eq_of_lt hv]

/-! ## What a pair means for the search -/

/-- The pair is passed over: with these arguments the program leaves another result,
ends at a fault, or waits for input. -/
inductive Misses (fuel : Nat) (program : List Int) (target : Int) (p : Nat × Nat) : Prop
  | other {value : Int} (h : Answers (callWith fuel program p.1 p.2) (.ok value))
    (hvalue : value ≠ target)
  | blocked {a : Int} (h : Answers (callWith fuel program p.1 p.2)
    (.error (.interrupted (.blocked a))))
  | fault {f : Fault} (h : Answers (callWith fuel program p.1 p.2)
    (.error (.interrupted (.failed (.fault f)))))

/-- The pair ends the search: with these arguments the program leaves the target, or
exceeds the host's limit. -/
inductive EndsSearch (fuel : Nat) (program : List Int) (target : Int) (p : Nat × Nat) :
    Except CallError (Nat × Nat) → Prop
  | found (h : Answers (callWith fuel program p.1 p.2) (.ok target)) :
    EndsSearch fuel program target p (.ok p)
  | exhausted (h : Answers (callWith fuel program p.1 p.2)
      (.error (.interrupted (.failed .memoryLimit)))) :
    EndsSearch fuel program target p (.error (.interrupted (.failed .memoryLimit)))

theorem misses_iff_attempt :
    Misses fuel program target p ↔
      ∃ a, Answers (attempt fuel program p.1 p.2) (.ok a) ∧ a ≠ some target := by
  simp only [answers_attempt_iff]
  constructor
  · rintro (⟨h, hvalue⟩ | h | h)
    · exact ⟨_, ⟨_, h, rfl⟩, fun heq => hvalue (Option.some.inj heq)⟩
    · exact ⟨none, ⟨_, h, rfl⟩, nofun⟩
    · exact ⟨none, ⟨_, h, rfl⟩, nofun⟩
  · rintro ⟨a, ⟨c, hc, ha⟩, hne⟩
    match c with
    | .ok value =>
      cases ha
      exact .other hc fun heq => hne (congrArg some heq)
    | .error (.interrupted (.blocked _)) => exact .blocked hc
    | .error (.interrupted (.failed (.fault _))) => exact .fault hc

theorem attempt_target_iff :
    Answers (attempt fuel program p.1 p.2) (.ok (some target)) ↔
      Answers (callWith fuel program p.1 p.2) (.ok target) := by
  rw [answers_attempt_iff]
  constructor
  · rintro ⟨c, hc, ha⟩
    match c with
    | .ok value =>
      cases ha
      exact hc
  · intro h
    exact ⟨_, h, rfl⟩

/-- The host's limit is the only error that an attempt lets out. -/
theorem attempt_error_iff {e : CallError} :
    Answers (attempt fuel program p.1 p.2) (.error e) ↔
      e = .interrupted (.failed .memoryLimit) ∧
        Answers (callWith fuel program p.1 p.2) (.error e) := by
  rw [answers_attempt_iff]
  constructor
  · rintro ⟨c, hc, ha⟩
    match c with
    | .error e' =>
      obtain ⟨interrupt, rfl⟩ := interrupted_of_answers hc
      match interrupt with
      | .failed .memoryLimit =>
        cases ha
        exact ⟨rfl, hc⟩
  · rintro ⟨rfl, h⟩
    exact ⟨_, h, rfl⟩

/-! ## One pair -/

theorem deaf_findPairFrom (fuel : Nat) (program : List Int) (target limit : Int)
    (remaining : Nat) : Deaf (findPairFrom fuel program target limit remaining) := by
  induction remaining with
  | zero => exact .throw _
  | succ remaining ih =>
    refine (deaf_attempt _ _ _ _).bind fun a => ?_
    split
    · exact fun _ _ => rfl
    · exact ih

/-- What is noted before a result is returned does not change it. -/
theorem answers_note_iff {event : Event} :
    Answers (do modify (·.note event); return p : CallM (Nat × Nat)) r ↔ r = .ok p := by
  have hp : Answers (do modify (·.note event); return p : CallM (Nat × Nat)) (.ok p) :=
    fun journal => ⟨journal.note event, rfl⟩
  exact hp.iff_eq

theorem answers_findPairFrom_zero :
    Answers (findPairFrom fuel program target limit 0) r ↔ r = .error (.noPair limit target) :=
  answers_throw_iff

/-- A pair ends the search, or is a miss and leaves the result to the pairs behind it. -/
theorem answers_findPairFrom_succ {remaining : Nat}
    (hp : pairAt limit.toNat (limit.toNat * limit.toNat - (remaining + 1)) = p) :
    Answers (findPairFrom fuel program target limit (remaining + 1)) r ↔
      EndsSearch fuel program target p r ∨
        Misses fuel program target p ∧
          Answers (findPairFrom fuel program target limit remaining) r := by
  have hnoun : (limit.toNat * limit.toNat - (remaining + 1)) / limit.toNat = p.1 :=
    congrArg Prod.fst hp
  have hverb : (limit.toNat * limit.toNat - (remaining + 1)) % limit.toNat = p.2 :=
    congrArg Prod.snd hp
  rw [findPairFrom]
  simp only [hnoun, hverb]
  refine (answers_bind_iff (deaf_attempt _ _ _ _) fun a => ?_).trans ?_
  · split
    · exact fun _ _ => rfl
    · exact deaf_findPairFrom _ _ _ _ _
  constructor
  · rintro (⟨a, ha, hr⟩ | ⟨e, he, rfl⟩)
    · by_cases hat : a = some target
      · subst hat
        rw [if_pos rfl] at hr
        obtain rfl := answers_note_iff.1 hr
        exact .inl (.found (attempt_target_iff.1 ha))
      · rw [if_neg hat] at hr
        exact .inr ⟨misses_iff_attempt.2 ⟨a, ha, hat⟩, hr⟩
    · obtain ⟨rfl, hc⟩ := attempt_error_iff.1 he
      exact .inl (.exhausted hc)
  · rintro (h | ⟨hm, hr⟩)
    · cases h with
      | found h =>
        refine .inl ⟨some target, attempt_target_iff.2 h, ?_⟩
        rw [if_pos rfl]
        exact answers_note_iff.2 rfl
      | exhausted h => exact .inr ⟨_, attempt_error_iff.2 ⟨rfl, h⟩, rfl⟩
    · obtain ⟨a, ha, hne⟩ := misses_iff_attempt.1 hm
      refine .inl ⟨a, ha, ?_⟩
      rwa [if_neg hne]

/-! ## All pairs -/

/-- What a search of the pairs from the given number on comes to: it ends at one of
them, and those before it are misses, or all are misses. -/
inductive Searched (fuel : Nat) (program : List Int) (target limit : Int) (start : Nat) :
    Except CallError (Nat × Nat) → Prop
  | ended {i : Nat} {r : Except CallError (Nat × Nat)} (hstart : start ≤ i)
    (hi : i < limit.toNat * limit.toNat)
    (h : EndsSearch fuel program target (pairAt limit.toNat i) r)
    (hbefore : ∀ j, start ≤ j → j < i → Misses fuel program target (pairAt limit.toNat j)) :
    Searched fuel program target limit start r
  | missed (h : ∀ j, start ≤ j → j < limit.toNat * limit.toNat →
      Misses fuel program target (pairAt limit.toNat j)) :
    Searched fuel program target limit start (.error (.noPair limit target))

theorem searched_all :
    Searched fuel program target limit (limit.toNat * limit.toNat) r ↔
      r = .error (.noPair limit target) := by
  constructor
  · rintro (⟨hstart, hi⟩ | -)
    · omega
    · rfl
  · rintro rfl
    exact .missed fun j hstart hj => by omega

theorem searched_succ {start : Nat} (hstart : start < limit.toNat * limit.toNat) :
    Searched fuel program target limit start r ↔
      EndsSearch fuel program target (pairAt limit.toNat start) r ∨
        Misses fuel program target (pairAt limit.toNat start) ∧
          Searched fuel program target limit (start + 1) r := by
  constructor
  · rintro (⟨hle, hi, h, hbefore⟩ | h)
    · rcases Nat.lt_or_eq_of_le hle with hlt | rfl
      · exact .inr ⟨hbefore start (Nat.le_refl _) hlt,
          .ended hlt hi h fun j hj => hbefore j (Nat.le_of_lt hj)⟩
      · exact .inl h
    · exact .inr ⟨h start (Nat.le_refl _) hstart, .missed fun j hj => h j (Nat.le_of_lt hj)⟩
  · have hcases : ∀ j, start ≤ j → j = start ∨ start + 1 ≤ j := by omega
    rintro (h | ⟨hm, ⟨hlt, hi, h, hbefore⟩ | h⟩)
    · exact .ended (Nat.le_refl _) hstart h fun j hj hlt => by omega
    · refine .ended (Nat.le_of_lt hlt) hi h fun j hj hji => ?_
      rcases hcases j hj with rfl | hj
      · exact hm
      · exact hbefore j hj hji
    · refine .missed fun j hj hjn => ?_
      rcases hcases j hj with rfl | hj
      · exact hm
      · exact h j hj hjn

/-- The induction is on the number of pairs that are left. -/
theorem answers_findPairFrom_iff {remaining : Nat}
    (h : remaining ≤ limit.toNat * limit.toNat) :
    Answers (findPairFrom fuel program target limit remaining) r ↔
      Searched fuel program target limit (limit.toNat * limit.toNat - remaining) r := by
  induction remaining with
  | zero => exact answers_findPairFrom_zero.trans searched_all.symm
  | succ remaining ih =>
    have hnext : limit.toNat * limit.toNat - (remaining + 1) + 1 =
        limit.toNat * limit.toNat - remaining := by omega
    rw [answers_findPairFrom_succ rfl, searched_succ (by omega), hnext, ih (by omega)]

/-- The search comes to the pair: it is below the limit, and the pairs before it are
misses. -/
structure ArrivesAt (fuel : Nat) (program : List Int) (target limit : Int) (p : Nat × Nat) :
    Prop where
  below : Below limit p
  missed : ∀ q, Below limit q → toLex q < toLex p → Misses fuel program target q

/-- A search ends at a pair that it comes to, or all pairs are misses. -/
theorem answers_findPair_iff :
    Answers (findPair fuel program target limit) r ↔
      (∃ p, ArrivesAt fuel program target limit p ∧ EndsSearch fuel program target p r) ∨
        r = .error (.noPair limit target) ∧
          ∀ p, Below limit p → Misses fuel program target p := by
  rw [findPair, answers_findPairFrom_iff (Nat.le_refl _), Nat.sub_self]
  constructor
  · rintro (⟨-, hi, h, hbefore⟩ | h)
    · refine .inl ⟨_, ⟨below_pairAt hi, fun q hq hlt => ?_⟩, h⟩
      obtain ⟨j, -, rfl⟩ := exists_pairAt hq
      exact hbefore j (Nat.zero_le j) (toLex_pairAt_lt_iff.1 hlt)
    · refine .inr ⟨rfl, fun p hp => ?_⟩
      obtain ⟨j, hj, rfl⟩ := exists_pairAt hp
      exact h j (Nat.zero_le j) hj
  · rintro (⟨p, hp, h⟩ | ⟨rfl, h⟩)
    · obtain ⟨i, hi, rfl⟩ := exists_pairAt hp.below
      refine .ended (Nat.zero_le i) hi h fun j _ hj => ?_
      exact hp.missed _ (below_pairAt (Nat.lt_trans hj hi)) (toLex_pairAt_lt_iff.2 hj)
    · exact .missed fun j _ hj => h _ (below_pairAt hj)

/-! ## More fuel -/

theorem Misses.mono {n : Nat} (hn : fuel ≤ n) (h : Misses fuel program target p) :
    Misses n program target p := by
  cases h with
  | other h hvalue => exact .other (answers_callWith_mono hn h) hvalue
  | blocked h => exact .blocked (answers_callWith_mono hn h)
  | fault h => exact .fault (answers_callWith_mono hn h)

theorem EndsSearch.mono {n : Nat} (hn : fuel ≤ n) (h : EndsSearch fuel program target p r) :
    EndsSearch n program target p r := by
  cases h with
  | found h => exact .found (answers_callWith_mono hn h)
  | exhausted h => exact .exhausted (answers_callWith_mono hn h)

theorem answers_findPair_mono {n : Nat} (hn : fuel ≤ n)
    (h : Answers (findPair fuel program target limit) r) :
    Answers (findPair n program target limit) r := by
  rw [answers_findPair_iff] at h ⊢
  rcases h with ⟨p, ⟨hbelow, hmissed⟩, h⟩ | ⟨hr, h⟩
  · exact .inl ⟨p, ⟨hbelow, fun q hq hlt => (hmissed q hq hlt).mono hn⟩, h.mono hn⟩
  · exact .inr ⟨hr, fun p hp => (h p hp).mono hn⟩

/-! ## Results -/

/-- A search comes to one result, whatever was reported before and however much fuel is
left. It yields a pair iff that is the first below the limit for which the program
leaves the target: all pairs before it, in the lexicographic order, are misses. It
reports that there is no such pair iff all pairs are misses. The only other error is that
of the first pair that exceeds the host's limit, if all pairs before it are misses. -/
theorem findPair_first_match (fuel : Nat) (program : List Int) (target limit : Int) :
    (∀ journal r journal',
      (findPair fuel program target limit).run.run journal = some (r, journal') →
        ∀ n, fuel ≤ n → Answers (findPair n program target limit) r) ∧
    (∀ p, Answers (findPair fuel program target limit) (.ok p) ↔
      Below limit p ∧ Answers (callWith fuel program p.1 p.2) (.ok target) ∧
        ∀ q, Below limit q → toLex q < toLex p → Misses fuel program target q) ∧
    (∀ e, Answers (findPair fuel program target limit) (.error e) ↔
      (e = .noPair limit target ∧ ∀ q, Below limit q → Misses fuel program target q) ∨
        e = .interrupted (.failed .memoryLimit) ∧
          ∃ p, Below limit p ∧ Answers (callWith fuel program p.1 p.2) (.error e) ∧
            ∀ q, Below limit q → toLex q < toLex p → Misses fuel program target q) ∧
    (CallError.noPair limit target).message =
      "No noun/verb pair below " ++ toString limit ++ " produces " ++ toString target := by
  refine ⟨fun journal r journal' h n hn => ?_, fun p => ?_, fun e => ?_, rfl⟩
  · exact answers_findPair_mono hn ((deaf_findPairFrom _ _ _ _ _).answers h)
  · rw [answers_findPair_iff]
    constructor
    · rintro (⟨q, ⟨hbelow, hmissed⟩, h⟩ | ⟨hr, -⟩)
      · cases h with
        | found h => exact ⟨hbelow, h, hmissed⟩
      · cases hr
    · rintro ⟨hbelow, h, hmissed⟩
      exact .inl ⟨p, ⟨hbelow, hmissed⟩, .found h⟩
  · rw [answers_findPair_iff]
    constructor
    · rintro (⟨p, ⟨hbelow, hmissed⟩, h⟩ | ⟨hr, h⟩)
      · cases h with
        | exhausted h => exact .inr ⟨rfl, p, hbelow, h, hmissed⟩
      · cases hr
        exact .inl ⟨rfl, h⟩
    · rintro (⟨rfl, h⟩ | ⟨rfl, p, hbelow, h, hmissed⟩)
      · exact .inr ⟨rfl, h⟩
      · exact .inl ⟨p, ⟨hbelow, hmissed⟩, .exhausted h⟩

/-- The program adds the words at the noun and the verb. For noun and verb 0 the sum is 2,
so the first pair for which it is 1 is the second. -/
theorem findPair_first_match_sum :
    Answers (callWith 3 [1, 0, 0, 0, 99] 0 1) (.ok 1) ∧
      ∀ q, Below 2 q → toLex q < toLex (0, 1) → Misses 3 [1, 0, 0, 0, 99] 1 q := by
  have hrun : ((findPair 3 [1, 0, 0, 0, 99] 1 2).run.run (.empty false)).map (·.1.toOption) =
      some (some (0, 1)) := by decide +kernel
  obtain ⟨⟨_ | p, journal⟩, hr, hp⟩ := Option.map_eq_some_iff.1 hrun
  · cases hp
  · cases hp
    obtain ⟨hresult, hfirst, -⟩ := findPair_first_match 3 [1, 0, 0, 0, 99] 1 2
    exact ((hfirst (0, 1)).1 (hresult _ _ _ hr 3 (Nat.le_refl 3))).2

end Wordcode
