/-
The depth-first search over references: it lists every node after the nodes it refers to exactly
when the graph has no cycle, and otherwise reports a cycle of the graph. A table filled along the
list satisfies the equation that it is filled by at every node at once.

The invariant of the search is that the finished nodes are closed under references, each after its
own (`Finished`), and that the path is a chain of references to the node at hand.
-/
import BinRecord.Schema.References
import Mathlib.Algebra.Order.BigOperators.Group.List
import Mathlib.Tactic

namespace BinRecord.References

variable {μ α : Type} {refs : Nat → List (Reference μ)}

/-! ## Graphs -/

/-- A node refers to another. -/
def Refers (refs : Nat → List (Reference μ)) (i j : Nat) : Prop := ∃ r ∈ refs i, r.target = j

/-- Nodes in the order in which they were finished, the latest first: each differs from the ones
before it, and all it refers to is among them. -/
inductive Finished (refs : Nat → List (Reference μ)) : List Nat → Prop
  | nil : Finished refs []
  | cons {i : Nat} {done : List Nat} : Finished refs done → i ∉ done →
      (∀ r ∈ refs i, r.target ∈ done) → Finished refs (i :: done)

/-- Distinct nodes, each of which refers to the next, and a reference `r` from the last of them
back to the first. -/
structure IsCycle (refs : Nat → List (Reference μ)) (nodes : List Nat) (r : Reference μ) : Prop where
  start : nodes.head? = some r.target
  nodup : nodes.Nodup
  chain : nodes.IsChain (Refers refs)
  closing : ∃ i, nodes.getLast? = some i ∧ r ∈ refs i

/-- What a search reports as a cycle is one. -/
def Shows (refs : Nat → List (Reference μ)) (c : Cycle μ) : Prop :=
  ∃ nodes r, c = ⟨nodes ++ [r.target], r.mark⟩ ∧ IsCycle refs nodes r

theorem Finished.closed {done : List Nat} (h : Finished refs done) :
    ∀ i ∈ done, ∀ r ∈ refs i, r.target ∈ done := by
  induction h with
  | nil => intro i hi; cases hi
  | cons _ _ hr ih =>
    intro i hi r hri
    rcases List.mem_cons.1 hi with rfl | hi
    · exact List.mem_cons_of_mem _ (hr r hri)
    · exact List.mem_cons_of_mem _ (ih i hi r hri)

/-- Finished nodes can be ranked so that references go down. -/
theorem Finished.exists_rank {done : List Nat} (h : Finished refs done) :
    ∃ rank : Nat → Nat, ∀ i ∈ done, ∀ r ∈ refs i, rank r.target < rank i := by
  induction h with
  | nil => exact ⟨id, fun i hi => by cases hi⟩
  | @cons i done hd hi hr ih =>
    obtain ⟨rank, hrank⟩ := ih
    -- the new node goes above all the others
    let top := (done.map rank).sum + 1
    have htop : ∀ j ∈ done, rank j < top := fun j hj =>
      Nat.lt_succ_of_le (List.le_sum_of_mem (List.mem_map_of_mem hj))
    have hne : ∀ j ∈ done, j ≠ i := fun j hj e => hi (e ▸ hj)
    refine ⟨Function.update rank i top, fun j hj r hrj => ?_⟩
    rcases List.mem_cons.1 hj with rfl | hj
    · rw [Function.update_self, Function.update_of_ne (hne _ (hr r hrj))]
      exact htop _ (hr r hrj)
    · rw [Function.update_of_ne (hne _ hj), Function.update_of_ne (hne _ (hd.closed j hj r hrj))]
      exact hrank j hj r hrj

theorem transGen_of_isChain {β : Type} {R : β → β → Prop} {l : List β} {a b : β} (h : (a :: l ++ [b]).IsChain R) :
    Relation.TransGen R a b := by
  induction l generalizing a with
  | nil => exact .single (List.isChain_cons_cons.1 h).1
  | cons c l ih =>
    obtain ⟨hac, hrest⟩ := List.isChain_cons_cons.1 h
    exact .head hac (ih hrest)

theorem exists_next_of_isChain {R : Nat → Nat → Prop} {l : List Nat} {b : Nat} (h : (l ++ [b]).IsChain R) :
    ∀ a ∈ l, ∃ c, R a c := by
  intro a ha
  obtain ⟨before, after, rfl⟩ := List.append_of_mem ha
  rw [List.append_assoc, List.cons_append] at h
  have htail := h.right_of_append
  cases after with
  | nil => exact ⟨b, (List.isChain_cons_cons.1 htail).1⟩
  | cons c after => exact ⟨c, (List.isChain_cons_cons.1 htail).1⟩

/-- A cycle closes: its last node refers to its first. -/
theorem IsCycle.isChain {nodes : List Nat} {r : Reference μ} (h : IsCycle refs nodes r) :
    (nodes ++ [r.target]).IsChain (Refers refs) := by
  obtain ⟨i, hi, hr⟩ := h.closing
  refine List.isChain_append.2 ⟨h.chain, List.isChain_singleton _, fun a ha b hb => ?_⟩
  rw [hi, Option.mem_some_iff] at ha
  rw [List.head?_cons, Option.mem_some_iff] at hb
  subst ha hb
  exact ⟨r, hr, rfl⟩

/-- A cycle leads from a node back to it. -/
theorem IsCycle.transGen {nodes : List Nat} {r : Reference μ} (h : IsCycle refs nodes r) :
    Relation.TransGen (Refers refs) r.target r.target := by
  obtain ⟨l, rfl⟩ : ∃ l, nodes = r.target :: l := List.head?_eq_some_iff.1 h.start
  exact transGen_of_isChain h.isChain

/-- Where every step goes down in rank there is no cycle. -/
theorem irrefl_of_rank {α : Type} {R : α → α → Prop} {rank : α → Nat} (h : ∀ a b, R a b → rank b < rank a)
    (a : α) : ¬ Relation.TransGen R a a := by
  have step : ∀ {a b}, Relation.TransGen R a b → rank b < rank a := by
    intro a b hab
    induction hab with
    | single hab => exact h _ _ hab
    | tail _ hbc ih => exact (h _ _ hbc).trans ih
  exact fun ha => (step ha).false

/-! ## The search -/

/-- What is done at one reference: `path` is the path to the node that it comes from, that node
included. -/
def follow (refs : Nat → List (Reference μ)) (fuel : Nat) (path done : List Nat) (r : Reference μ) :
    Except (Cycle μ) (List Nat) :=
  if path.contains r.target then
    .error ⟨r.target :: (path.takeWhile (· ≠ r.target)).reverse ++ [r.target], r.mark⟩
  else if done.contains r.target then .ok done
  else visit refs fuel path done r.target

theorem visit_succ (refs : Nat → List (Reference μ)) (fuel : Nat) (path done : List Nat) (i : Nat) :
    visit refs (fuel + 1) path done i =
      (refs i).foldlM (follow refs fuel (i :: path)) done >>= fun done => .ok (i :: done) := rfl

/-- Nodes below `n` have been finished beside the path. -/
structure Beside (refs : Nat → List (Reference μ)) (n : Nat) (path done : List Nat) : Prop where
  finished : Finished refs done
  below : ∀ i ∈ done, i < n
  apart : ∀ i ∈ path, i ∉ done

/-- More nodes have been finished beside the path, or a cycle has been found. -/
def Result (refs : Nat → List (Reference μ)) (n : Nat) (path done : List Nat) (goal : List Nat → Prop) :
    Except (Cycle μ) (List Nat) → Prop
  | .ok done' => Beside refs n path done' ∧ done ⊆ done' ∧ goal done'
  | .error c => Shows refs c

/-- A path from some node to the one at its head, through distinct nodes below `n`. -/
structure IsPath (refs : Nat → List (Reference μ)) (n : Nat) (path : List Nat) : Prop where
  nodup : path.Nodup
  below : ∀ i ∈ path, i < n
  chain : path.IsChain (fun a b => Refers refs b a)

theorem IsPath.length_le {n : Nat} {path : List Nat} (h : IsPath refs n path) : path.length ≤ n := by
  have := List.subperm_of_subset h.nodup (fun i hi => List.mem_range.2 (h.below i hi))
  simpa using this.length_le

theorem takeWhile_ne_prefix {t : Nat} :
    ∀ {l : List Nat}, t ∈ l → (l.takeWhile (· ≠ t) ++ [t]) <+: l
  | a :: l, h => by
    by_cases ha : a = t
    · simp [ha]
    · have := takeWhile_ne_prefix ((List.mem_cons.1 h).resolve_left (Ne.symm ha))
      simpa [ha, List.prefix_cons_iff] using this

/-- A reference from the head of a path back into it closes a cycle. -/
theorem isCycle_of_mem {n i : Nat} {path : List Nat} {r : Reference μ} (h : IsPath refs n (i :: path))
    (hr : r ∈ refs i) (ht : r.target ∈ i :: path) :
    IsCycle refs (r.target :: ((i :: path).takeWhile (· ≠ r.target)).reverse) r := by
  have hpre := takeWhile_ne_prefix ht
  have hrev : r.target :: ((i :: path).takeWhile (· ≠ r.target)).reverse =
      ((i :: path).takeWhile (· ≠ r.target) ++ [r.target]).reverse := by
    rw [List.reverse_append]; rfl
  rw [hrev]
  refine ⟨by simp, List.nodup_reverse.2 (h.nodup.sublist hpre.sublist), ?_, i, ?_, hr⟩
  · rw [List.isChain_reverse]
    exact h.chain.prefix hpre
  · rw [List.getLast?_reverse, List.head?_append, List.takeWhile_cons]
    by_cases hi : i = r.target <;> simp [hi]

/-- Passing a list of nodes keeps the finished nodes in order, when passing each of them does. -/
theorem result_foldlM {β : Type} {n : Nat} {path : List Nat} (node : β → Nat)
    (f : List Nat → β → Except (Cycle μ) (List Nat)) :
    ∀ (bs : List β) {done : List Nat}, Beside refs n path done →
      (∀ b ∈ bs, ∀ done, Beside refs n path done → Result refs n path done (node b ∈ ·) (f done b)) →
      Result refs n path done (fun done' => ∀ b ∈ bs, node b ∈ done') (bs.foldlM f done)
  | [], done, h, _ => ⟨h, fun _ hi => hi, fun b hb => by cases hb⟩
  | b :: bs, done, h, hf => by
    rw [List.foldlM_cons]
    have hb := hf b (List.mem_cons_self ..) done h
    cases he : f done b with
    | error c => rw [he] at hb; exact hb
    | ok done₁ =>
      rw [he] at hb
      obtain ⟨h₁, hsub, hmem⟩ := hb
      have hrest := result_foldlM node f bs h₁ fun b hb => hf b (List.mem_cons_of_mem _ hb)
      show Result refs n path done _ (bs.foldlM f done₁)
      cases he₂ : bs.foldlM f done₁ with
      | error c => rw [he₂] at hrest; exact hrest
      | ok done₂ =>
        rw [he₂] at hrest
        obtain ⟨h₂, hsub₂, hmem₂⟩ := hrest
        refine ⟨h₂, fun _ hi => hsub₂ (hsub hi), fun b' hb' => ?_⟩
        rcases List.mem_cons.1 hb' with rfl | hb'
        · exact hsub₂ hmem
        · exact hmem₂ b' hb'

/-- A visit finishes its node, or finds a cycle. The path holds distinct nodes below `n`, so the fuel
cannot run out. -/
theorem visit_result {n : Nat} (hn : ∀ i < n, ∀ r ∈ refs i, r.target < n) :
    ∀ (fuel : Nat) {path done : List Nat} {i : Nat}, n ≤ fuel + path.length →
      IsPath refs n (i :: path) → Beside refs n path done → i ∉ done →
      Result refs n path done (i ∈ ·) (visit refs fuel path done i)
  | 0, path, done, i, hfuel, hp, _, _ => by
    have := hp.length_le
    simp only [List.length_cons] at this
    omega
  | fuel + 1, path, done, i, hfuel, hp, hd, hi => by
    have hin := hp.below i (List.mem_cons_self ..)
    have hd' : Beside refs n (i :: path) done := ⟨hd.finished, hd.below, fun j hj => by
      rcases List.mem_cons.1 hj with rfl | hj
      · exact hi
      · exact hd.apart j hj⟩
    have hfold := result_foldlM Reference.target (follow refs fuel (i :: path)) (refs i) hd'
      fun r hr done hd => by
        -- a reference back into the path closes a cycle, and one to a finished node is passed
        unfold follow
        by_cases ht : r.target ∈ i :: path
        · rw [if_pos (by simpa using ht)]
          exact ⟨_, r, rfl, isCycle_of_mem hp hr ht⟩
        · rw [if_neg (by simpa using ht)]
          by_cases hdone : r.target ∈ done
          · rw [if_pos (by simpa using hdone)]
            exact ⟨hd, fun _ hj => hj, hdone⟩
          · rw [if_neg (by simpa using hdone)]
            refine visit_result hn fuel (by simp only [List.length_cons]; omega) ⟨?_, ?_, ?_⟩ hd hdone
            · exact List.nodup_cons.2 ⟨ht, hp.nodup⟩
            · exact List.forall_mem_cons.2 ⟨hn i hin r hr, hp.below⟩
            · exact List.isChain_cons_cons.2 ⟨⟨r, hr, rfl⟩, hp.chain⟩
    rw [visit_succ]
    cases he : (refs i).foldlM (follow refs fuel (i :: path)) done with
    | error c => rw [he] at hfold; exact hfold
    | ok done' =>
      rw [he] at hfold
      obtain ⟨h', hsub, hmem⟩ := hfold
      refine ⟨⟨.cons h'.finished (h'.apart i (List.mem_cons_self ..)) hmem, ?_, fun j hj hj' => ?_⟩,
        fun j hj => List.mem_cons_of_mem _ (hsub hj), List.mem_cons_self ..⟩
      · exact List.forall_mem_cons.2 ⟨hin, h'.below⟩
      · rcases List.mem_cons.1 hj' with rfl | hj'
        · exact (List.nodup_cons.1 hp.nodup).1 hj
        · exact h'.apart j (List.mem_cons_of_mem _ hj) hj'

/-- A search over the nodes below `n` lists all of them, each after the nodes it refers to, or shows
a cycle. -/
theorem order_spec {n : Nat} (hn : ∀ i < n, ∀ r ∈ refs i, r.target < n) :
    (∃ done, order n refs = .ok done.reverse ∧ Finished refs done ∧ ∀ i, i ∈ done ↔ i < n) ∨
      ∃ c, order n refs = .error c ∧ Shows refs c := by
  have hstart : Beside refs n [] [] := ⟨.nil, by simp, by simp⟩
  have h := result_foldlM id (fun done i => if done.contains i then .ok done else visit refs n [] done i)
    (List.range n) hstart fun i hi done hd => by
      by_cases hdone : i ∈ done
      · rw [if_pos (by simpa using hdone)]
        exact ⟨hd, fun _ hj => hj, hdone⟩
      · rw [if_neg (by simpa using hdone)]
        exact visit_result hn n (by simp) ⟨by simp, by simpa using hi, by simp⟩ hd hdone
  unfold order
  cases he : (List.range n).foldlM
      (fun done i => if done.contains i then .ok done else visit refs n [] done i) [] with
  | error c =>
    rw [he] at h
    exact .inr ⟨c, rfl, h⟩
  | ok done =>
    rw [he] at h
    obtain ⟨hd, -, hall⟩ := h
    exact .inl ⟨done, rfl, hd.finished, fun i => ⟨hd.below i, fun hi => hall i (List.mem_range.2 hi)⟩⟩

/-! ## Tables -/

/-- An entry is found from the entries of the nodes referred to alone. -/
def Local (refs : Nat → List (Reference μ)) (step : (Nat → Option α) → Nat → α) : Prop :=
  ∀ i f g, (∀ r ∈ refs i, f r.target = g r.target) → step f i = step g i

theorem table_reverse_cons (step : (Nat → Option α) → Nat → α) (i : Nat) (done : List Nat) :
    table step (i :: done).reverse =
      (i, step ((table step done.reverse).lookup ·) i) :: table step done.reverse := by
  simp [table, List.foldl_append]

theorem lookup_table_of_notMem {step : (Nat → Option α) → Nat → α} {i : Nat} :
    ∀ {done : List Nat}, i ∉ done → (table step done.reverse).lookup i = none
  | [], _ => rfl
  | j :: done, h => by
    rw [List.mem_cons, not_or] at h
    rw [table_reverse_cons, List.lookup_cons, beq_false_of_ne h.1]
    exact lookup_table_of_notMem h.2

/-- Each entry of a table is found from the table itself. -/
theorem lookup_table {step : (Nat → Option α) → Nat → α} (hs : Local refs step) {done : List Nat}
    (h : Finished refs done) :
    ∀ i ∈ done, (table step done.reverse).lookup i =
      some (step ((table step done.reverse).lookup ·) i) := by
  induction h with
  | nil => intro i hi; cases hi
  | @cons i done hd hi hr ih =>
    -- the new entry is at a node that no node before it refers to
    have hkeep : ∀ j ∈ done, (table step (i :: done).reverse).lookup j =
        (table step done.reverse).lookup j := fun j hj => by
      have hji : j ≠ i := fun e => hi (e ▸ hj)
      rw [table_reverse_cons, List.lookup_cons, beq_false_of_ne hji]
    intro j hj
    rcases List.mem_cons.1 hj with rfl | hj
    · rw [table_reverse_cons, List.lookup_cons, beq_self_eq_true, ← table_reverse_cons]
      exact congrArg some (hs j _ _ fun r hr' => (hkeep r.target (hr r hr')).symm)
    · rw [hkeep j hj, ih j hj]
      exact congrArg some (hs j _ _ fun r hr' => (hkeep r.target (hd.closed j hj r hr')).symm)

end BinRecord.References
