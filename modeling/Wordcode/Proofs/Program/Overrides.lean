import Wordcode.Proofs.Program.Patch

/-!
# Patching as writing

A program is patched word by word as its memory is written word by word (`writeAll`):
the words that come out are the cells of that memory, and where a write is refused
there is no patched program either, for the same reason (`patch_eq_patched`). Which
write that is shows in the pairs (`writeAll_error_iff`): all before it succeed.

What is written at different addresses does not depend on the order. Each cell has the
one value that is meant for it (`peek_of_writeAll`), and the memory reaches to the
furthest address (`size_of_writeAll`). The order only matters for whether it succeeds,
as each write has to lie near enough to those before it.
-/

namespace Wordcode

namespace Memory

/-- The memory with values written to it one after another, each pair an address and a value. -/
def writeAll (m : Memory) (pairs : List (Int × Int)) : Except AccessError Memory :=
  pairs.foldlM (fun m (a, v) => m.write a v) m

variable {m n k : Memory} {a v : Int} {pairs others : List (Int × Int)} {e : AccessError}

theorem writeAll_cons_of_ok (h : m.write a v = .ok n) :
    m.writeAll ((a, v) :: pairs) = n.writeAll pairs := by
  show m.write a v >>= _ = _
  rw [h]
  rfl

theorem writeAll_cons_of_error (h : m.write a v = .error e) :
    m.writeAll ((a, v) :: pairs) = .error e := by
  show m.write a v >>= _ = _
  rw [h]
  rfl

theorem exists_of_writeAll_cons (h : m.writeAll ((a, v) :: pairs) = .ok n) :
    ∃ k, m.write a v = .ok k ∧ k.writeAll pairs = .ok n := by
  cases hw : m.write a v with
  | error e =>
    rw [writeAll_cons_of_error hw] at h
    cases h
  | ok k =>
    rw [writeAll_cons_of_ok hw] at h
    exact ⟨k, rfl, h⟩

/-- Writing fails as the first write does that fails. -/
theorem writeAll_error_iff : m.writeAll pairs = .error e ↔ ∃ before a v after n,
    pairs = before ++ (a, v) :: after ∧ m.writeAll before = .ok n ∧ n.write a v = .error e := by
  constructor
  · intro h
    induction pairs generalizing m with
    | nil => cases h
    | cons pair pairs ih =>
      obtain ⟨a, v⟩ := pair
      cases hw : m.write a v with
      | error e' =>
        rw [writeAll_cons_of_error hw] at h
        cases h
        exact ⟨[], a, v, pairs, m, rfl, rfl, hw⟩
      | ok k =>
        rw [writeAll_cons_of_ok hw] at h
        obtain ⟨before, b, w, after, n, rfl, hbefore, hfails⟩ := ih h
        refine ⟨(a, v) :: before, b, w, after, n, rfl, ?_, hfails⟩
        rw [writeAll_cons_of_ok hw, hbefore]
  · rintro ⟨before, a, v, after, n, rfl, hbefore, hfails⟩
    induction before generalizing m with
    | nil =>
      cases hbefore
      exact writeAll_cons_of_error hfails
    | cons pair before ih =>
      obtain ⟨k, hw, hrest⟩ := exists_of_writeAll_cons hbefore
      rw [List.cons_append, writeAll_cons_of_ok hw]
      exact ih hrest

/-! ## Orders -/

theorem size_of_writeAll (h : m.writeAll pairs = .ok n) :
    n.size = (pairs.map fun pair => pair.1.toNat + 1).foldl max m.size := by
  induction pairs generalizing m with
  | nil =>
    cases h
    rfl
  | cons pair pairs ih =>
    obtain ⟨k, hw, hrest⟩ := exists_of_writeAll_cons h
    rw [ih hrest, size_of_write hw]
    rfl

theorem peek_of_writeAll_of_not_mem (h : m.writeAll pairs = .ok n)
    (ha : a ∉ pairs.map Prod.fst) : n.peek a = m.peek a := by
  induction pairs generalizing m with
  | nil =>
    cases h
    rfl
  | cons pair pairs ih =>
    obtain ⟨k, hw, hrest⟩ := exists_of_writeAll_cons h
    obtain ⟨hne, hnot⟩ := List.ne_and_not_mem_of_not_mem_cons ha
    rw [ih hrest hnot, peek_of_write hw, if_neg hne]

/-- A value stays that is written where no other is. -/
theorem peek_of_writeAll (h : m.writeAll pairs = .ok n) (hnodup : (pairs.map Prod.fst).Nodup)
    (hmem : (a, v) ∈ pairs) : n.peek a = v := by
  induction pairs generalizing m with
  | nil => cases hmem
  | cons pair pairs ih =>
    obtain ⟨k, hw, hrest⟩ := exists_of_writeAll_cons h
    obtain ⟨hnot, hnodup⟩ := List.nodup_cons.1 hnodup
    rcases List.mem_cons.1 hmem with rfl | hmem
    · rw [peek_of_writeAll_of_not_mem hrest hnot, peek_of_write hw, if_pos rfl]
    · exact ih hrest hnodup hmem

/-- Two orders that both succeed come to the same memory. -/
theorem writeAll_perm (hperm : others.Perm pairs) (hnodup : (pairs.map Prod.fst).Nodup)
    (hn : m.writeAll pairs = .ok n) (hk : m.writeAll others = .ok k) : k = n := by
  have hkeys : (others.map Prod.fst).Perm (pairs.map Prod.fst) := hperm.map _
  refine eq_of_peek_eq ?_ fun a => ?_
  · rw [size_of_writeAll hk, size_of_writeAll hn]
    exact (hperm.map _).foldl_eq' (fun _ _ _ _ _ => Nat.max_right_comm ..) _
  · by_cases ha : a ∈ pairs.map Prod.fst
    · obtain ⟨⟨b, v⟩, hmem, rfl⟩ := List.mem_map.1 ha
      rw [peek_of_writeAll hn hnodup hmem,
        peek_of_writeAll hk (hkeys.nodup_iff.2 hnodup) (hperm.mem_iff.2 hmem)]
    · rw [peek_of_writeAll_of_not_mem hn ha,
        peek_of_writeAll_of_not_mem hk fun hmem => ha (hkeys.mem_iff.1 hmem)]

end Memory

namespace Program

/-- Why a program cannot be patched whose memory refuses the access. -/
def PatchError.ofAccess : Memory.AccessError → PatchError
  | .negative address => .negativeAddress address
  | .tooLarge => .tooLarge

/-- The program that a memory holds, or the reason why it cannot be written. -/
def patched : Except Memory.AccessError Memory → Except PatchError (List Int)
  | .ok m => .ok m.toList
  | .error e => .error (.ofAccess e)

variable {words : List Int} {a v : Int} {overrides : List (Int × Int)} {m : Memory}

theorem patchWord_of_not_allows (h : ¬ (Memory.ofList words).Allows a) :
    patchWord words a v = .error (.ofAccess (Memory.refusal a)) := by
  unfold patchWord Memory.refusal
  by_cases ha : a < 0
  · rw [if_pos ha, if_pos ha]
    rfl
  · have hfar : paddingLimit < a + 1 - words.length := by
      refine Int.not_le.1 fun hfits => h ⟨Int.not_lt.1 ha, ?_⟩
      rw [Memory.size_ofList]
      exact hfits
    rw [if_neg ha, if_pos hfar, if_neg ha]
    rfl

/-- One word is patched as one is written. -/
theorem patchWord_eq_patched (words : List Int) (a v : Int) :
    patchWord words a v = patched ((Memory.ofList words).write a v) := by
  by_cases h : (Memory.ofList words).Allows a
  · rw [patchWord_of_allows h, Memory.write_of_allows h]
    rfl
  · rw [patchWord_of_not_allows h, Memory.write_of_not_allows h]
    rfl

theorem ofList_toList (m : Memory) : Memory.ofList m.toList = m :=
  Memory.ext (Array.toArray_toList ..)

/-- And so are several. -/
theorem patch_eq_patched (words : List Int) (overrides : List (Int × Int)) :
    patch words overrides = patched ((Memory.ofList words).writeAll overrides) := by
  induction overrides generalizing words with
  | nil => exact congrArg Except.ok (Memory.toList_ofList words).symm
  | cons o overrides ih =>
    obtain ⟨a, v⟩ := o
    rw [patch_cons, patchWord_eq_patched]
    cases hw : (Memory.ofList words).write a v with
    | error e =>
      rw [Memory.writeAll_cons_of_error hw]
      rfl
    | ok m =>
      rw [Memory.writeAll_cons_of_ok hw]
      refine (ih m.toList).trans ?_
      rw [ofList_toList]

theorem patched_eq_ok_iff {written : Except Memory.AccessError Memory} {result : List Int} :
    patched written = .ok result ↔ ∃ m, written = .ok m ∧ m.toList = result := by
  cases written with
  | ok m => simp [patched]
  | error e => simp [patched]

theorem patched_eq_error_iff {written : Except Memory.AccessError Memory}
    {e : Memory.AccessError} : patched written = .error (.ofAccess e) ↔ written = .error e := by
  have hinj : ∀ e', PatchError.ofAccess e' = PatchError.ofAccess e ↔ e' = e := fun e' => by
    cases e' <;> cases e <;> simp [PatchError.ofAccess]
  cases written with
  | ok m => simp [patched]
  | error e' => simp only [patched, Except.error.injEq, hinj]

/-- A program can be patched exactly if the words can be written into its memory in that
order, and then the cells are its words. It is refused for a negative address exactly if
the first write that fails is to that address, which the error names, and for one too far
away exactly if the first write that fails is too far away. If the addresses are all
different, two orders that both succeed come to the same program. -/
theorem patch_writes (words : List Int) (overrides : List (Int × Int)) :
    (∀ result, patch words overrides = .ok result ↔
      ∃ m, (Memory.ofList words).writeAll overrides = .ok m ∧ m.toList = result) ∧
    (∀ a, patch words overrides = .error (.negativeAddress a) ↔ ∃ before v after m,
      overrides = before ++ (a, v) :: after ∧ (Memory.ofList words).writeAll before = .ok m ∧
        m.write a v = .error (.negative a)) ∧
    (∀ a, (PatchError.negativeAddress a).message =
      "Cannot patch negative address " ++ toString a) ∧
    (patch words overrides = .error .tooLarge ↔ ∃ before a v after m,
      overrides = before ++ (a, v) :: after ∧ (Memory.ofList words).writeAll before = .ok m ∧
        m.write a v = .error .tooLarge) ∧
    ((overrides.map Prod.fst).Nodup → ∀ order, order.Perm overrides →
      ∀ result result', patch words overrides = .ok result → patch words order = .ok result' →
        result' = result) := by
  have herror : ∀ e, patch words overrides = .error (.ofAccess e) ↔ ∃ before a v after m,
      overrides = before ++ (a, v) :: after ∧ (Memory.ofList words).writeAll before = .ok m ∧
        m.write a v = .error e := fun e => by
    rw [patch_eq_patched, patched_eq_error_iff, Memory.writeAll_error_iff]
  refine ⟨fun result => ?_, fun a => (herror (.negative a)).trans ?_, fun _ => rfl,
    herror .tooLarge, fun hnodup order hperm result result' h h' => ?_⟩
  · rw [patch_eq_patched, patched_eq_ok_iff]
  · constructor
    · rintro ⟨before, b, v, after, m, hsplit, hbefore, hfails⟩
      obtain ⟨-, rfl⟩ := Memory.index_eq_negative_iff.1 (Memory.write_error_iff.1 hfails)
      exact ⟨before, v, after, m, hsplit, hbefore, hfails⟩
    · rintro ⟨before, v, after, m, hrest⟩
      exact ⟨before, a, v, after, m, hrest⟩
  · rw [patch_eq_patched, patched_eq_ok_iff] at h h'
    obtain ⟨m, hm, rfl⟩ := h
    obtain ⟨n, hn, rfl⟩ := h'
    rw [Memory.writeAll_perm hperm hnodup hm hn]

/-- Two words behind the end in both orders, and two with a negative address in front. -/
theorem patch_writes_two_orders :
    patch [1] [(3, 7), (0, 5)] = .ok [5, 0, 0, 7] ∧
    (∀ result, patch [1] [(0, 5), (3, 7)] = .ok result → result = [5, 0, 0, 7]) ∧
    patch [1] [(3, 7), (-2, 5), (0, 4)] = .error (.negativeAddress (-2)) := by
  have h : patch [1] [(3, 7), (0, 5)] = .ok [5, 0, 0, 7] := rfl
  have hnodup : (([(3, 7), (0, 5)] : List (Int × Int)).map Prod.fst).Nodup := by decide
  have hperm : ([(0, 5), (3, 7)] : List (Int × Int)).Perm [(3, 7), (0, 5)] := .swap ..
  obtain ⟨m, hm⟩ : ∃ m, (Memory.ofList [1]).writeAll [(3, 7)] = .ok m := ⟨_, rfl⟩
  refine ⟨h, fun result h' => ?_, ?_⟩
  · exact (patch_writes [1] [(3, 7), (0, 5)]).2.2.2.2 hnodup _ hperm _ result h h'
  · refine ((patch_writes [1] [(3, 7), (-2, 5), (0, 4)]).2.1 (-2)).2
      ⟨[(3, 7)], 5, [(0, 4)], m, rfl, hm, ?_⟩
    exact Memory.write_error_iff.2 (Memory.index_eq_negative_iff.2 ⟨by decide, rfl⟩)

end Program

end Wordcode
