/-
The search for bytes finds the first place where they stand, whatever the size of the windows that it
looks at.
-/
import BinRecord.Bytes
import Mathlib.Tactic

namespace BinRecord.Bytes

/-- The needle stands at a place of some bytes and nowhere before. -/
structure FirstAt (needle bs : Bytes) (k : Nat) : Prop where
  here : needle <+: bs.drop k
  inside : k + needle.length ≤ bs.length
  first : ∀ j < k, ¬ needle <+: bs.drop j

variable {needle bs data : Bytes} {k start : Nat}

/-- Bytes are what stands before the needle, the needle and what stands after it. -/
theorem FirstAt.cut (h : FirstAt needle bs k) : ∃ before after, bs = before ++ needle ++ after ∧ before.length = k ∧
    bs.drop (k + needle.length) = after := by
  obtain ⟨after, hafter⟩ := h.here
  have hin := h.inside
  refine ⟨bs.take k, after, ?_, ?_, ?_⟩
  · rw [List.append_assoc, hafter, List.take_append_drop]
  · rw [List.length_take]
    omega
  · rw [← List.drop_drop, ← hafter, List.drop_left]

theorem FirstAt.unique {l : Nat} (hk : FirstAt needle bs k) (hl : FirstAt needle bs l) : k = l := by
  rcases Nat.lt_trichotomy k l with h | h | h
  · exact absurd hk.here (hl.first k h)
  · exact h
  · exact absurd hl.here (hk.first l h)

/-- A needle that stands somewhere has a first place. -/
theorem exists_firstAt (hneedle : needle ≠ []) {j : Nat} (h : needle <+: bs.drop j) :
    ∃ k ≤ j, FirstAt needle bs k := by
  have hpos := List.length_pos_iff.2 hneedle
  induction j using Nat.strong_induction_on with
  | _ j ih =>
    by_cases hbefore : ∃ l < j, needle <+: bs.drop l
    · obtain ⟨l, hl, hp⟩ := hbefore
      obtain ⟨k, hk, hfirst⟩ := ih l hl hp
      exact ⟨k, by omega, hfirst⟩
    · push Not at hbefore
      have := h.length_le
      rw [List.length_drop] at this
      exact ⟨j, Nat.le_refl j, h, by omega, hbefore⟩

theorem firstAt_zero (h : needle <+: bs) : FirstAt needle bs 0 :=
  ⟨h, by rw [Nat.zero_add]; exact h.length_le, nofun⟩

theorem firstAt_succ {b : UInt8} (h : ¬ needle <+: b :: bs) :
    FirstAt needle (b :: bs) (k + 1) ↔ FirstAt needle bs k := by
  constructor
  · rintro ⟨hhere, hin, hfirst⟩
    exact ⟨hhere, by rw [List.length_cons] at hin; omega, fun j hj => hfirst (j + 1) (by omega)⟩
  · rintro ⟨hhere, hin, hfirst⟩
    refine ⟨hhere, by rw [List.length_cons]; omega, fun j hj => ?_⟩
    rcases j with _ | j
    · exact h
    · exact hfirst j (by omega)

theorem findFrom_eq_some (i : Nat) : findFrom needle i bs = some k ↔ ∃ l, k = i + l ∧ FirstAt needle bs l := by
  induction bs generalizing i with
  | nil =>
    rw [findFrom]
    constructor
    · intro h
      split at h
      · rename_i hnil
        cases h
        rw [List.isEmpty_iff] at hnil
        subst hnil
        exact ⟨0, rfl, firstAt_zero (List.prefix_refl _)⟩
      · cases h
    · rintro ⟨l, rfl, hl⟩
      have := hl.inside
      rw [List.length_nil] at this
      obtain rfl : l = 0 := by omega
      rw [if_pos (List.isEmpty_iff_length_eq_zero.2 (by omega))]
      rfl
  | cons b bs ih =>
    rw [findFrom]
    by_cases h : needle <+: b :: bs
    · rw [if_pos (List.isPrefixOf_iff_prefix.2 h)]
      constructor
      · intro he
        cases he
        exact ⟨0, rfl, firstAt_zero h⟩
      · rintro ⟨l, rfl, hl⟩
        rw [hl.unique (firstAt_zero h), Nat.add_zero]
    · -- not here, so its first place is one further than in the rest
      rw [if_neg (fun hp => h (List.isPrefixOf_iff_prefix.1 hp)), ih]
      constructor
      · rintro ⟨l, rfl, hl⟩
        exact ⟨l + 1, by omega, (firstAt_succ h).2 hl⟩
      · rintro ⟨l, rfl, hl⟩
        rcases l with _ | l
        · exact absurd hl.here h
        · exact ⟨l, by omega, (firstAt_succ h).1 hl⟩

theorem find?_eq_some : find? needle bs = some k ↔ FirstAt needle bs k := by
  rw [find?, findFrom_eq_some]
  constructor
  · rintro ⟨l, rfl, hl⟩; rwa [Nat.zero_add]
  · intro h; exact ⟨k, (Nat.zero_add k).symm, h⟩

/-! ## Windows -/

/-- A window holds all places of the needle that start in its new bytes. -/
theorem firstAt_window {chunk : Nat} (hchunk : 0 < chunk) (hneedle : needle ≠ []) :
    FirstAt needle (bs.take (chunk + needle.length - 1)) k ↔ FirstAt needle bs k ∧ k < chunk := by
  have hpos := List.length_pos_iff.2 hneedle
  -- within a window the needle stands at the same places
  have hsame : ∀ j < chunk, needle <+: (bs.take (chunk + needle.length - 1)).drop j ↔ needle <+: bs.drop j := by
    intro j hj
    rw [List.drop_take, List.prefix_take_iff]
    exact ⟨fun h => h.1, fun h => ⟨h, by omega⟩⟩
  constructor
  · rintro ⟨hhere, hin, hfirst⟩
    rw [List.length_take] at hin
    have hk : k < chunk := by omega
    exact ⟨⟨(hsame k hk).1 hhere, by omega, fun j hj h => hfirst j hj ((hsame j (by omega)).2 h)⟩, hk⟩
  · rintro ⟨⟨hhere, hin, hfirst⟩, hk⟩
    refine ⟨(hsame k hk).2 hhere, ?_, fun j hj h => hfirst j hj ((hsame j (by omega)).1 h)⟩
    rw [List.length_take]
    omega

/-- After bytes at none of which the needle starts, its first place is found in the rest. -/
theorem firstAt_drop {n : Nat} (h : ∀ j < n, ¬ needle <+: bs.drop j) (hneedle : needle ≠ []) :
    FirstAt needle bs (n + k) ↔ FirstAt needle (bs.drop n) k := by
  have hpos := List.length_pos_iff.2 hneedle
  constructor
  · rintro ⟨hhere, hin, hfirst⟩
    refine ⟨by rwa [List.drop_drop], by rw [List.length_drop]; omega, fun j hj hp => ?_⟩
    rw [List.drop_drop] at hp
    exact hfirst (n + j) (by omega) hp
  · rintro ⟨hhere, hin, hfirst⟩
    rw [List.drop_drop] at hhere
    refine ⟨hhere, by rw [List.length_drop] at hin; omega, fun j hj hp => ?_⟩
    by_cases hjn : j < n
    · exact h j hjn hp
    · refine hfirst (j - n) (by omega) ?_
      rwa [List.drop_drop, Nat.add_sub_cancel' (by omega)]

theorem findInWindows_eq_some {chunk : Nat} (hchunk : 0 < chunk) (hneedle : needle ≠ []) (i : Nat) :
    findInWindows chunk needle i bs = some k ↔ ∃ l, k = i + l ∧ FirstAt needle bs l := by
  have hpos := List.length_pos_iff.2 hneedle
  fun_induction findInWindows chunk needle i bs with
  | case1 i bs hend =>
    obtain rfl : bs = [] := hend.resolve_right (by omega)
    constructor
    · intro h; cases h
    · rintro ⟨l, -, hl⟩
      have := hl.inside
      rw [List.length_nil] at this
      omega
  | case2 i bs hend l hl =>
    have hwin := ((firstAt_window hchunk hneedle).1 (find?_eq_some.1 hl)).1
    constructor
    · intro h
      cases h
      exact ⟨l, rfl, hwin⟩
    · rintro ⟨l', rfl, hl'⟩
      rw [hl'.unique hwin]
  | case3 i bs hend hnone ih =>
    -- nothing starts in the new bytes of this window
    have hwin : ∀ l, FirstAt needle bs l → chunk ≤ l := fun l hl => by
      by_contra hlt
      have := find?_eq_some.2 ((firstAt_window hchunk hneedle).2 ⟨hl, by omega⟩)
      rw [hnone] at this
      cases this
    have hnot : ∀ j < chunk, ¬ needle <+: bs.drop j := fun j hj hp => by
      obtain ⟨l, hl, hfirst⟩ := exists_firstAt hneedle hp
      have := hwin l hfirst
      omega
    refine ih.trans ?_
    constructor
    · rintro ⟨l, rfl, hl⟩
      exact ⟨chunk + l, by omega, (firstAt_drop hnot hneedle).2 hl⟩
    · rintro ⟨l, rfl, hl⟩
      obtain ⟨l', rfl⟩ := Nat.exists_eq_add_of_le (hwin l hl)
      exact ⟨l', by omega, (firstAt_drop hnot hneedle).1 hl⟩

/-- Searching window by window is searching all at once, whatever the size of the windows. -/
theorem findInWindows_eq_find? {chunk : Nat} (hchunk : 0 < chunk) (hneedle : needle ≠ []) (i : Nat) :
    findInWindows chunk needle i bs = (find? needle bs).map (i + ·) := by
  refine Option.ext fun k => ?_
  rw [findInWindows_eq_some hchunk hneedle, Option.map_eq_some_iff]
  constructor
  · rintro ⟨l, rfl, hl⟩
    exact ⟨l, find?_eq_some.2 hl, rfl⟩
  · rintro ⟨l, hl, rfl⟩
    exact ⟨l, rfl, find?_eq_some.1 hl⟩

theorem search?_eq_find? (hneedle : needle ≠ []) : search? needle bs = find? needle bs := by
  rw [search?, findInWindows_eq_find? (by decide) hneedle]
  simp

/-- The search finds the first place of a needle, if there is one. -/
theorem search?_eq_some (hneedle : needle ≠ []) : search? needle bs = some k ↔ FirstAt needle bs k := by
  rw [search?_eq_find? hneedle, find?_eq_some]

/-- An empty needle stands at the head of bytes, if there are any. -/
theorem search?_nil : search? [] bs = if bs = [] then none else some 0 := by
  unfold search?
  rw [findInWindows]
  by_cases h : bs = []
  · rw [dif_pos (.inl h), if_pos h]
  · have hfind : find? [] (bs.take (searchChunk + List.length ([] : Bytes) - 1)) = some 0 :=
      find?_eq_some.2 (firstAt_zero List.nil_prefix)
    rw [dif_neg (by simp [h, searchChunk]), if_neg h, hfind]

/-- The search finds the first place of a needle, but none in no bytes. -/
theorem search?_eq_some_iff : search? needle bs = some k ↔ FirstAt needle bs k ∧ bs ≠ [] := by
  by_cases hneedle : needle = []
  · subst hneedle
    rw [search?_nil]
    constructor
    · intro h
      split at h
      · cases h
      · rename_i hne
        cases h
        exact ⟨firstAt_zero List.nil_prefix, hne⟩
    · rintro ⟨hk, hne⟩
      rw [if_neg hne, hk.unique (firstAt_zero List.nil_prefix)]
  · rw [search?_eq_some hneedle]
    refine ⟨fun h => ⟨h, ?_⟩, And.left⟩
    rintro rfl
    have := h.inside
    have := List.length_pos_iff.2 hneedle
    rw [List.length_nil] at *
    omega

/-- What the search finds lies inside the bytes, of which there are some. -/
theorem inside_of_search? (h : search? needle bs = some k) : k + needle.length ≤ bs.length ∧ bs ≠ [] := by
  obtain ⟨hk, hne⟩ := search?_eq_some_iff.1 h
  exact ⟨hk.inside, hne⟩

/-- The search finds nothing exactly if the needle stands nowhere. -/
theorem search?_eq_none_iff (hbs : bs ≠ []) : search? needle bs = none ↔ ¬ needle <:+: bs := by
  constructor
  · rintro h ⟨before, after, hat⟩
    have hhere : needle <+: bs.drop before.length := by
      rw [← hat, List.append_assoc, List.drop_left]
      exact List.prefix_append ..
    obtain ⟨k, hk⟩ : ∃ k, FirstAt needle bs k := by
      by_cases hneedle : needle = []
      · subst hneedle
        exact ⟨0, firstAt_zero List.nil_prefix⟩
      · obtain ⟨k, -, hk⟩ := exists_firstAt hneedle hhere
        exact ⟨k, hk⟩
    rw [search?_eq_some_iff.2 ⟨hk, hbs⟩] at h
    cases h
  · intro h
    cases hs : search? needle bs with
    | none => rfl
    | some k =>
      have hhere := (search?_eq_some_iff.1 hs).1.here
      exact absurd (hhere.isInfix.trans (List.drop_suffix k bs).isInfix) h

/-! ## Bytes that follow -/

theorem prefix_drop_append {j : Nat} (h : j + needle.length ≤ bs.length) (tail : Bytes) :
    needle <+: (bs ++ tail).drop j ↔ needle <+: bs.drop j := by
  rw [List.drop_append_of_le_length (by omega)]
  refine ⟨fun hp => ?_, fun hp => hp.trans (List.prefix_append ..)⟩
  refine List.prefix_of_prefix_length_le hp (List.prefix_append ..) ?_
  rw [List.length_drop]
  omega

/-- Where a needle first stands does not depend on the bytes after it. -/
theorem firstAt_append (h : k + needle.length ≤ bs.length) (tail : Bytes) :
    FirstAt needle (bs ++ tail) k ↔ FirstAt needle bs k := by
  constructor
  · rintro ⟨hhere, -, hfirst⟩
    refine ⟨(prefix_drop_append h tail).1 hhere, h, fun j hj hp => hfirst j hj ?_⟩
    exact (prefix_drop_append (by omega) tail).2 hp
  · rintro ⟨hhere, -, hfirst⟩
    refine ⟨(prefix_drop_append h tail).2 hhere, by rw [List.length_append]; omega, fun j hj hp => hfirst j hj ?_⟩
    exact (prefix_drop_append (by omega) tail).1 hp

/-- In the first bytes a needle is found if it ends there. -/
theorem search?_take (hneedle : needle ≠ []) (h : FirstAt needle bs k) (n : Nat) :
    search? needle (bs.take n) = if k + needle.length ≤ n then some k else none := by
  have hsame : ∀ j, j + needle.length ≤ (bs.take n).length → (FirstAt needle (bs.take n) j ↔ FirstAt needle bs j) :=
    fun j hj => by
      have happend := firstAt_append hj (bs.drop n)
      rw [List.take_append_drop] at happend
      exact happend.symm
  have hin := h.inside
  split
  · rw [search?_eq_some hneedle, hsame k (by rw [List.length_take]; omega)]
    exact h
  · rename_i hlong
    refine Option.eq_none_iff_forall_ne_some.2 fun j hj => hlong ?_
    rw [search?_eq_some hneedle] at hj
    have hinside := hj.inside
    rw [((hsame j hinside).1 hj).unique h, List.length_take] at hinside
    omega

/-! ## Places in data -/

/-- The places of data, from `start` on, where the bytes that stand there are the needle. -/
def places (needle data : Bytes) (start : Nat) : Set Nat :=
  {i | start ≤ i ∧ slice data i (some (i + needle.length)) = needle}

theorem slice_eq_iff_prefix {i : Nat} : slice data i (some (i + needle.length)) = needle ↔ needle <+: data.drop i := by
  have hslice : slice data i (some (i + needle.length)) = (data.drop i).take needle.length := by
    have hstart : ¬ (i : Int) < 0 := by omega
    have hstop : ¬ (i : Int) + needle.length < 0 := by omega
    have hplace : ((i : Int) + needle.length).toNat = i + needle.length := by omega
    simp [slice, hstart, hstop, hplace, List.drop_take]
  rw [hslice, List.prefix_iff_eq_take]
  exact eq_comm

theorem add_mem_places_iff : start + k ∈ places needle data start ↔ needle <+: (data.drop start).drop k := by
  rw [List.drop_drop, ← slice_eq_iff_prefix]
  exact and_iff_right (Nat.le_add_right start k)

/-- The least place from `start` on is the first one in the bytes that are left there. -/
theorem isLeast_places_iff (hneedle : needle ≠ []) :
    IsLeast (places needle data start) (start + k) ↔ FirstAt needle (data.drop start) k := by
  have hpos := List.length_pos_iff.2 hneedle
  constructor
  · rintro ⟨hmem, hleast⟩
    have hhere := add_mem_places_iff.1 hmem
    have hlen := hhere.length_le
    rw [List.length_drop] at hlen
    refine ⟨hhere, by omega, fun j hj hp => ?_⟩
    have := hleast (add_mem_places_iff.2 hp)
    omega
  · rintro ⟨hhere, -, hfirst⟩
    refine ⟨add_mem_places_iff.2 hhere, fun i hi => ?_⟩
    obtain ⟨j, rfl⟩ := Nat.exists_eq_add_of_le hi.1
    by_contra hlt
    exact hfirst j (by omega) (add_mem_places_iff.1 hi)

theorem find?_drop_eq_some (hneedle : needle ≠ []) {i : Nat} :
    (find? needle (data.drop start)).map (start + ·) = some i ↔ IsLeast (places needle data start) i := by
  rw [Option.map_eq_some_iff]
  constructor
  · rintro ⟨k, hk, rfl⟩
    exact (isLeast_places_iff hneedle).2 (find?_eq_some.1 hk)
  · intro hi
    obtain ⟨k, rfl⟩ := Nat.exists_eq_add_of_le hi.1.1
    exact ⟨k, find?_eq_some.2 ((isLeast_places_iff hneedle).1 hi), rfl⟩

theorem find?_drop_eq_none (hneedle : needle ≠ []) :
    (find? needle (data.drop start)).map (start + ·) = none ↔ places needle data start = ∅ := by
  rw [Option.map_eq_none_iff]
  constructor
  · intro hnone
    refine Set.eq_empty_of_forall_notMem fun i hi => ?_
    obtain ⟨k, rfl⟩ := Nat.exists_eq_add_of_le hi.1
    obtain ⟨l, -, hl⟩ := exists_firstAt hneedle (add_mem_places_iff.1 hi)
    rw [find?_eq_some.2 hl] at hnone
    cases hnone
  · intro hempty
    refine Option.eq_none_iff_forall_ne_some.2 fun k hk => ?_
    have hmem := add_mem_places_iff.2 (find?_eq_some.1 hk).here
    rw [hempty] at hmem
    exact hmem

/-- The search of data from `start` on finds the least place of the needle, and nothing exactly if it has no
place. With windows of any size it is the search all at once, so the windows that are used do not matter. -/
theorem findInWindows_isLeast (hneedle : needle ≠ []) (data : Bytes) (start : Nat) {chunk : Nat} (hchunk : 0 < chunk) :
    (∀ i, findInWindows chunk needle start (data.drop start) = some i ↔ IsLeast (places needle data start) i) ∧
      (findInWindows chunk needle start (data.drop start) = none ↔ places needle data start = ∅) ∧
      findInWindows chunk needle start (data.drop start) = (find? needle (data.drop start)).map (start + ·) ∧
      findInWindows chunk needle start (data.drop start) = (search? needle (data.drop start)).map (start + ·) := by
  rw [search?_eq_find? hneedle, findInWindows_eq_find? hchunk hneedle]
  exact ⟨fun i => find?_drop_eq_some hneedle, find?_drop_eq_none hneedle, rfl, rfl⟩

/-- A needle that is longer than a window and stands across two of them, behind a place before `start` and one
where only its beginning stands. -/
theorem findInWindows_isLeast_straddling : ([7, 7, 9] : Bytes) ≠ [] ∧ 0 < 2 ∧
    findInWindows 2 [7, 7, 9] 1 [7, 9, 7, 7, 7, 9] = some 4 ∧
    IsLeast (places [7, 7, 9] [7, 7, 9, 7, 7, 7, 9] 1) 4 := by
  have hneedle : ([7, 7, 9] : Bytes) ≠ [] := by decide
  have hchunk : 0 < 2 := by decide
  have hfound : findInWindows 2 [7, 7, 9] 1 [7, 9, 7, 7, 7, 9] = some 4 := by cbv
  obtain ⟨hleast, -⟩ := findInWindows_isLeast hneedle [7, 7, 9, 7, 7, 7, 9] 1 hchunk
  exact ⟨hneedle, hchunk, hfound, (hleast 4).1 hfound⟩

end BinRecord.Bytes
