import Mathlib.Data.List.Nodup
import Mathlib.Logic.Function.Basic
import Mathlib.Tactic.Common

/-!
# Linked lists through pointer fields

The cells that a chain of pointers runs through, as a list, for chains with a
forward pointer and for chains with both. Each change of a field changes the list
in one place and leaves the lists that do not run through the cell alone.
-/

namespace Thvm.LinkedLists

variable {ι : Type*}

/-- The cells reached one after another from `p` along `next`. -/
def Path (next : ι → Option ι) : Option ι → List ι → Prop
  | p, [] => p = none
  | p, i :: is => p = some i ∧ Path next (next i) is

variable {next next' prev prev' : ι → Option ι} {p : Option ι} {is js : List ι} {i k : ι}

theorem Path.congr (h : Path next p is) (hsame : ∀ i ∈ is, next' i = next i) :
    Path next' p is := by
  induction is generalizing p with
  | nil => exact h
  | cons i is ih =>
    obtain ⟨hp, hrest⟩ := h
    refine ⟨hp, ?_⟩
    rw [hsame i List.mem_cons_self]
    exact ih hrest fun j hj => hsame j (List.mem_cons_of_mem i hj)

theorem Path.head_eq (h : Path next p is) : p = is.head? := by
  cases is with
  | nil => exact h
  | cons i is => exact h.1

/-- What is left behind the last cell of a list. -/
theorem Path.leave (h : Path next p (is ++ js)) (hi : is.getLast? = some i) :
    Path next (next i) js := by
  obtain ⟨init, rfl⟩ := List.getLast?_eq_some_iff.mp hi
  clear hi
  induction init generalizing p with
  | nil => exact h.2
  | cons k init ih => exact ih h.2

/-- A list put behind the last cell of another one. -/
theorem Path.splice (h : Path next p (is ++ [i])) (hsame : ∀ j ∈ is, next' j = next j)
    (hrest : Path next' (next' i) js) : Path next' p (is ++ i :: js) := by
  induction is generalizing p with
  | nil => exact ⟨h.1, hrest⟩
  | cons j is ih =>
    obtain ⟨hp, htail⟩ := h
    refine ⟨hp, ?_⟩
    rw [hsame j List.mem_cons_self]
    exact ih htail fun k hk => hsame k (List.mem_cons_of_mem j hk)

/-- Bypassing the cell after `i`. -/
theorem Path.unlink (h : Path next p (is ++ i :: k :: js)) (hnodup : (is ++ i :: k :: js).Nodup)
    (hi : next' i = next k) (hsame : ∀ j, j ≠ i → j ≠ k → next' j = next j) :
    Path next' p (is ++ i :: js) := by
  induction is generalizing p with
  | nil =>
    obtain ⟨hp, hk, hrest⟩ := h
    refine ⟨hp, ?_⟩
    rw [hi]
    simp only [List.nil_append, List.nodup_cons, List.mem_cons, not_or] at hnodup
    obtain ⟨⟨-, hnotin⟩, hnotin', -⟩ := hnodup
    exact hrest.congr fun j hj => hsame j (fun he => hnotin (he ▸ hj)) fun he => hnotin' (he ▸ hj)
  | cons j is ih =>
    obtain ⟨hp, hrest⟩ := h
    simp only [List.cons_append, List.nodup_cons, List.mem_append, List.mem_cons, not_or] at hnodup
    obtain ⟨⟨-, hji, hjk, -⟩, hrestNodup⟩ := hnodup
    refine ⟨hp, ?_⟩
    rw [hsame j hji hjk]
    exact ih hrest hrestNodup

/-- Chains with both pointers: `p` is the cell before the first one. -/
def Doubly (next prev : ι → Option ι) : Option ι → List ι → Prop
  | _, [] => True
  | p, i :: is => prev i = p ∧ next i = is.head? ∧ Doubly next prev (some i) is

theorem Doubly.congr (h : Doubly next prev p is) (hnext : ∀ i ∈ is, next' i = next i)
    (hprev : ∀ i ∈ is, prev' i = prev i) : Doubly next' prev' p is := by
  induction is generalizing p with
  | nil => trivial
  | cons i is ih =>
    obtain ⟨hp, hn, hrest⟩ := h
    refine ⟨(hprev i List.mem_cons_self).trans hp, (hnext i List.mem_cons_self).trans hn, ?_⟩
    exact ih hrest (fun j hj => hnext j (List.mem_cons_of_mem i hj)) fun j hj =>
      hprev j (List.mem_cons_of_mem i hj)

/-- The last cell of `is`, or `p` when there is none. -/
def lastOr : Option ι → List ι → Option ι
  | p, [] => p
  | _, i :: is => lastOr (some i) is

theorem lastOr_snoc (p : Option ι) (is : List ι) (i : ι) : lastOr p (is ++ [i]) = some i := by
  induction is generalizing p with
  | nil => rfl
  | cons j is ih => exact ih (some j)

theorem lastOr_none (is : List ι) : lastOr none is = is.getLast? := by
  rcases List.eq_nil_or_concat is with rfl | ⟨is, i, rfl⟩
  · rfl
  · rw [List.concat_eq_append, lastOr_snoc, List.getLast?_concat]

/-- The pointers of one cell in the middle. -/
theorem Doubly.at_cell (h : Doubly next prev p (is ++ i :: js)) :
    next i = js.head? ∧ prev i = lastOr p is := by
  induction is generalizing p with
  | nil => exact ⟨h.2.1, h.1⟩
  | cons j is ih => exact ih h.2.2

theorem Doubly.tail (h : Doubly next prev p (is ++ js)) : Doubly next prev (lastOr p is) js := by
  induction is generalizing p with
  | nil => exact h
  | cons j is ih => exact ih h.2.2

/-- A change behind the first cells, given what comes after them. -/
theorem Doubly.replace (h : Doubly next prev p (is ++ js)) {ks : List ι}
    (hhead : ks.head? = js.head?) (hnext : ∀ i ∈ is, next' i = next i)
    (hprev : ∀ i ∈ is, prev' i = prev i) (htail : Doubly next' prev' (lastOr p is) ks) :
    Doubly next' prev' p (is ++ ks) := by
  induction is generalizing p with
  | nil => exact htail
  | cons j is ih =>
    obtain ⟨hp, hn, hrest⟩ := h
    refine ⟨(hprev j List.mem_cons_self).trans hp, ?_, ?_⟩
    · rw [hnext j List.mem_cons_self, hn]
      cases is with
      | nil => exact hhead.symm
      | cons k is => rfl
    · exact ih hrest (fun i hi => hnext i (List.mem_cons_of_mem j hi))
        (fun i hi => hprev i (List.mem_cons_of_mem j hi)) htail

/-- A change of the pointer back from the first cell. -/
theorem Doubly.rebase (h : Doubly next prev p js) (hnodup : js.Nodup) {q : Option ι}
    (hnext : ∀ j ∈ js, next' j = next j) (hhead : ∀ j, js.head? = some j → prev' j = q)
    (hprev : ∀ j ∈ js, js.head? ≠ some j → prev' j = prev j) : Doubly next' prev' q js := by
  cases js with
  | nil => trivial
  | cons j js =>
    obtain ⟨-, hn, hrest⟩ := h
    have hj := (List.nodup_cons.mp hnodup).1
    refine ⟨hhead j rfl, (hnext j List.mem_cons_self).trans hn, ?_⟩
    refine hrest.congr (fun i hi => hnext i (List.mem_cons_of_mem j hi)) fun i hi => ?_
    refine hprev i (List.mem_cons_of_mem j hi) fun he => hj ?_
    obtain rfl : j = i := by simpa using he
    exact hi

/-- A new cell `k` behind `i`. -/
theorem Doubly.insert (h : Doubly next prev p (is ++ i :: js))
    (hnodup : (is ++ i :: js).Nodup) (hk : k ∉ is ++ i :: js)
    (hi : next' i = some k) (hnextk : next' k = next i) (hprevk : prev' k = some i)
    (hback : ∀ j, next i = some j → prev' j = some k)
    (hnext : ∀ j, j ≠ i → j ≠ k → next' j = next j)
    (hprev : ∀ j, j ≠ k → next i ≠ some j → prev' j = prev j) :
    Doubly next' prev' p (is ++ i :: k :: js) := by
  obtain ⟨hn, hp⟩ := h.at_cell
  obtain ⟨hisNodup, htailNodup, hdisj⟩ := List.nodup_append.mp hnodup
  obtain ⟨hij, hjs⟩ := List.nodup_cons.mp htailNodup
  simp only [List.mem_append, List.mem_cons, not_or] at hk
  obtain ⟨hkis, hki, hkjs⟩ := hk
  have hnot_next : ∀ j ∈ is ++ [i], next i ≠ some j := by
    intro j hj he
    rw [hn] at he
    have hmem := List.mem_of_mem_head? he
    rcases List.mem_append.mp hj with hj | hj
    · exact hdisj j hj j (List.mem_cons_of_mem i hmem) rfl
    · exact hij (List.mem_singleton.mp hj ▸ hmem)
  refine h.replace rfl (fun j hj => hnext j ?_ ?_) (fun j hj => hprev j ?_ ?_) ⟨?_, hi, hprevk, ?_, ?_⟩
  · exact fun he => hdisj j hj i List.mem_cons_self he
  · exact fun he => hkis (he ▸ hj)
  · exact fun he => hkis (he ▸ hj)
  · exact hnot_next j (List.mem_append_left _ hj)
  · rw [hprev i (Ne.symm hki) (hnot_next i (by simp)), hp]
  · exact hnextk.trans hn
  · refine (h.tail.2.2).rebase hjs (fun j hj => hnext j ?_ ?_) (fun j hj => hback j (hn.trans hj))
      fun j hj hne => hprev j ?_ fun he => hne (hn.symm.trans he)
    · exact fun he => hij (he ▸ hj)
    · exact fun he => hkjs (he ▸ hj)
    · exact fun he => hkjs (he ▸ hj)

/-- Taking out the cell `k` behind `i`. -/
theorem Doubly.remove (h : Doubly next prev p (is ++ i :: k :: js))
    (hnodup : (is ++ i :: k :: js).Nodup) (hi : next' i = next k)
    (hback : ∀ j, next k = some j → prev' j = some i)
    (hnext : ∀ j, j ≠ i → j ≠ k → next' j = next j)
    (hprev : ∀ j, j ≠ k → next k ≠ some j → prev' j = prev j) :
    Doubly next' prev' p (is ++ i :: js) := by
  obtain ⟨-, hp⟩ := h.at_cell
  have htail := h.tail
  obtain ⟨-, -, -, hnk, hrest⟩ := htail
  obtain ⟨-, htailNodup, hdisj⟩ := List.nodup_append.mp hnodup
  simp only [List.nodup_cons, List.mem_cons, not_or] at htailNodup
  obtain ⟨⟨hik, hijs⟩, hkjs, hjs⟩ := htailNodup
  have hnot_next : ∀ j, j ∉ js → next k ≠ some j := by
    intro j hj he
    rw [hnk] at he
    exact hj (List.mem_of_mem_head? he)
  have hout : ∀ j ∈ is, j ≠ i ∧ j ≠ k ∧ j ∉ js := by
    intro j hj
    refine ⟨fun he => hdisj j hj i (by simp) he, fun he => hdisj j hj k (by simp) he, fun he => ?_⟩
    exact hdisj j hj j (by simp [he]) rfl
  refine h.replace rfl (fun j hj => hnext j (hout j hj).1 (hout j hj).2.1)
    (fun j hj => hprev j (hout j hj).2.1 (hnot_next j (hout j hj).2.2)) ⟨?_, hi.trans hnk, ?_⟩
  · rw [hprev i hik (hnot_next i hijs), hp]
  · refine hrest.rebase hjs (fun j hj => hnext j ?_ ?_) (fun j hj => hback j (hnk.trans hj))
      fun j hj hne => hprev j ?_ fun he => hne (hnk.symm.trans he)
    · exact fun he => hijs (he ▸ hj)
    · exact fun he => hkjs (he ▸ hj)
    · exact fun he => hkjs (he ▸ hj)

end Thvm.LinkedLists
