import Mathlib.Data.Finset.Card
import Mathlib.Data.List.Nodup
import Mathlib.Logic.Function.Basic
import Mathlib.Tactic.Common

/-!
# Hash tables with a bounded probe

Every key looks at a fixed list of slots. A search stops at the first free one, and
an insertion takes the first free one or is dropped when there is none.
-/

namespace Thvm.ProbeTable

variable {ι κ ν : Type*} [DecidableEq ι] [DecidableEq κ]

abbrev Table (ι κ ν : Type*) := ι → Option (κ × ν)

/-- The search along a list of slots. -/
def find (t : Table ι κ ν) (k : κ) : List ι → Option ν
  | [] => none
  | i :: is => (t i).elim none fun p => if p.1 = k then some p.2 else find t k is

/-- The first free slot of a list. -/
def free (t : Table ι κ ν) (is : List ι) : Option ι := is.find? fun i => (t i).isNone

def push (t : Table ι κ ν) (k : κ) (v : ν) (is : List ι) : Table ι κ ν :=
  (free t is).elim t fun i => Function.update t i (some (k, v))

/-- No slot is free and none has the key. -/
def Full (t : Table ι κ ν) (k : κ) (is : List ι) : Prop :=
  ∀ i ∈ is, ∃ p, t i = some p ∧ p.1 ≠ k

variable {t : Table ι κ ν} {k k' : κ} {v v' : ν} {is js : List ι}

omit [DecidableEq ι] in
theorem find_mem (h : find t k is = some v) : ∃ i ∈ is, t i = some (k, v) := by
  induction is with
  | nil => cases h
  | cons i is ih =>
    unfold find at h
    cases hi : t i with
    | none =>
      rw [hi] at h
      cases h
    | some p =>
      rw [hi] at h
      by_cases hp : p.1 = k
      · simp only [Option.elim_some, if_pos hp] at h
        obtain rfl := Option.some.inj h
        exact ⟨i, List.mem_cons_self, by rw [hi, ← hp]⟩
      · simp only [Option.elim_some, if_neg hp] at h
        obtain ⟨j, hj, htj⟩ := ih h
        exact ⟨j, List.mem_cons_of_mem i hj, htj⟩

omit [DecidableEq ι] in
theorem find_none (h : find t k is = none) : Full t k is ∨ ∃ i, free t is = some i := by
  induction is with
  | nil => exact .inl fun i hi => absurd hi List.not_mem_nil
  | cons i is ih =>
    unfold find at h
    cases hi : t i with
    | none => exact .inr ⟨i, by simp [free, hi]⟩
    | some p =>
      rw [hi] at h
      by_cases hp : p.1 = k
      · simp [hp] at h
      · simp only [Option.elim_some, if_neg hp] at h
        rcases ih h with hfull | ⟨j, hj⟩
        · refine .inl fun j hj => ?_
          rcases List.mem_cons.mp hj with rfl | hj
          · exact ⟨p, hi, hp⟩
          · exact hfull j hj
        · exact .inr ⟨j, by simpa [free, List.find?_cons, hi] using hj⟩

omit [DecidableEq ι] [DecidableEq κ] in
theorem free_some {i : ι} (h : free t is = some i) : t i = none := by
  have hi := List.find?_some (p := fun j => (t j).isNone) h
  simpa using hi

omit [DecidableEq ι] in
theorem Full.find_eq_none (h : Full t k is) : find t k is = none := by
  induction is with
  | nil => rfl
  | cons i is ih =>
    obtain ⟨p, hp, hne⟩ := h i List.mem_cons_self
    unfold find
    rw [hp]
    simp only [Option.elim_some, if_neg hne]
    exact ih fun j hj => h j (List.mem_cons_of_mem i hj)

omit [DecidableEq κ] in
theorem push_some {i : ι} (hfree : free t is = some i) :
    push t k v is = Function.update t i (some (k, v)) := by
  simp [push, hfree]

omit [DecidableEq κ] in
/-- An occupied slot keeps its entry. -/
theorem push_kept {i : ι} {p : κ × ν} (h : t i = some p) : push t k v is i = some p := by
  cases hfree : free t is with
  | none => simpa [push, hfree] using h
  | some j =>
    have hne : i ≠ j := by
      rintro rfl
      rw [free_some hfree] at h
      cases h
    rw [push_some hfree, Function.update_of_ne hne, h]

omit [DecidableEq κ] in
theorem push_mem {i : ι} {p : κ × ν} (h : push t k v is i = some p) : t i = some p ∨ p = (k, v) := by
  cases hfree : free t is with
  | none => exact .inl (by simpa [push, hfree] using h)
  | some j =>
    rw [push_some hfree] at h
    by_cases hi : i = j
    · subst hi
      simp only [Function.update_self, Option.some.injEq] at h
      exact .inr h.symm
    · rw [Function.update_of_ne hi] at h
      exact .inl h

omit [DecidableEq κ] in
theorem Full.push (h : Full t k is) : Full (push t k' v' js) k is := fun i hi => by
  obtain ⟨p, hp, hne⟩ := h i hi
  exact ⟨p, push_kept hp, hne⟩

/-- An entry that is found stays found. -/
theorem find_push (h : find t k is = some v) : find (push t k' v' js) k is = some v := by
  induction is with
  | nil => cases h
  | cons i is ih =>
    unfold find at h ⊢
    cases hi : t i with
    | none =>
      rw [hi] at h
      cases h
    | some p =>
      rw [push_kept hi]
      rw [hi] at h
      by_cases hp : p.1 = k
      · simpa [hp] using h
      · simp only [Option.elim_some, if_neg hp] at h ⊢
        exact ih h

/-- A key that was not there is found after it has been inserted. -/
theorem find_push_self {i : ι} (h : find t k is = none) (hfree : free t is = some i) :
    find (push t k v is) k is = some v := by
  rw [push_some hfree]
  induction is with
  | nil => cases hfree
  | cons j is ih =>
    unfold find at h ⊢
    cases hj : t j with
    | none =>
      obtain rfl : j = i := by simpa [free, hj] using hfree
      simp
    | some p =>
      rw [hj] at h
      have hfree' : free t is = some i := by simpa [free, List.find?_cons, hj] using hfree
      have hne : j ≠ i := by
        rintro rfl
        rw [free_some hfree'] at hj
        cases hj
      rw [Function.update_of_ne hne, hj]
      by_cases hp : p.1 = k
      · simp [hp] at h
      · simp only [Option.elim_some, if_neg hp] at h ⊢
        exact ih h hfree'

/-! ## Tables whose entries are replaced -/

/-- The first slot of a list that is free or has the key. -/
def home (t : Table ι κ ν) (k : κ) (is : List ι) : Option ι :=
  is.find? fun i => (t i).elim true fun p => p.1 = k

/-- An entry is replaced, or inserted, or dropped when no slot is free. -/
def store (t : Table ι κ ν) (k : κ) (v : ν) (is : List ι) : Table ι κ ν :=
  (home t k is).elim t fun i => Function.update t i (some (k, v))

/-- The search for a key ends at the slot with its entry. -/
def Whole (slots : κ → List ι) (t : Table ι κ ν) : Prop :=
  ∀ i k v, t i = some (k, v) → home t k (slots k) = some i

omit [DecidableEq ι] in
/-- A search finds what is in the slot where it ends. -/
theorem find_eq_home : find t k is = (home t k is).bind fun i => (t i).map Prod.snd := by
  induction is with
  | nil => rfl
  | cons i is ih =>
    unfold find
    rw [home, List.find?_cons]
    cases hi : t i with
    | none => simp [hi]
    | some p =>
      by_cases hp : p.1 = k
      · simp [hp, hi]
      · simp only [Option.elim_some, hp, decide_false]
        exact ih

omit [DecidableEq ι] in
theorem home_some {i : ι} (h : home t k is = some i) :
    i ∈ is ∧ (t i = none ∨ ∃ v, t i = some (k, v)) := by
  refine ⟨List.mem_of_find?_eq_some h, ?_⟩
  have hi := List.find?_some h
  cases hti : t i with
  | none => exact .inl rfl
  | some p =>
    obtain ⟨k', v⟩ := p
    obtain rfl : k' = k := by simpa [hti] using hi
    exact .inr ⟨v, rfl⟩

omit [DecidableEq ι] in
/-- A search ends at the same slot when the slots before it are still taken by other keys. -/
theorem home_mono {t' : Table ι κ ν} {j : ι} (h : home t k is = some j)
    (hj : ∀ p, t' j = some p → p.1 = k)
    (hle : ∀ i, (∃ p, t i = some p ∧ p.1 ≠ k) → ∃ p, t' i = some p ∧ p.1 ≠ k) :
    home t' k is = some j := by
  rw [home, List.find?_eq_some_iff_append] at h ⊢
  obtain ⟨-, as, bs, rfl, has⟩ := h
  refine ⟨?_, as, bs, rfl, fun i hi => ?_⟩
  · cases htj : t' j with
    | none => rfl
    | some p => simpa using hj p htj
  · have hother : ∃ p, t i = some p ∧ p.1 ≠ k := by
      have hi' := has i hi
      cases hti : t i with
      | none => simp [hti] at hi'
      | some p => exact ⟨p, rfl, by simpa [hti] using hi'⟩
    obtain ⟨p, hp, hne⟩ := hle i hother
    simpa [hp] using hne

section Whole

variable {slots : κ → List ι} (h : Whole slots t)
include h

omit [DecidableEq ι] in
theorem Whole.find_iff : find t k (slots k) = some v ↔ ∃ i, t i = some (k, v) := by
  rw [find_eq_home]
  constructor
  · intro hfind
    obtain ⟨i, hi, hv⟩ := Option.bind_eq_some_iff.mp hfind
    obtain ⟨p, hp, rfl⟩ := Option.map_eq_some_iff.mp hv
    rcases (home_some hi).2 with hnone | ⟨v', hv'⟩
    · rw [hnone] at hp
      cases hp
    · rw [hv'] at hp
      obtain rfl := Option.some.inj hp
      exact ⟨i, hv'⟩
  · rintro ⟨i, hi⟩
    rw [h i k v hi, Option.bind_some, hi, Option.map_some]

theorem Whole.store (k : κ) (v : ν) : Whole slots (store t k v (slots k)) := by
  intro j k' v' hj
  rw [ProbeTable.store] at hj ⊢
  cases hi : home t k (slots k) with
  | none =>
    rw [hi, Option.elim_none] at hj
    rw [Option.elim_none]
    exact h j k' v' hj
  | some i =>
    rw [hi, Option.elim_some] at hj
    rw [Option.elim_some]
    by_cases hji : j = i
    · subst hji
      rw [Function.update_self] at hj
      obtain ⟨rfl, rfl⟩ := Prod.mk.inj (Option.some.inj hj)
      refine home_mono hi (fun p hp => ?_) fun l hl => ?_
      · rw [Function.update_self] at hp
        exact (congrArg Prod.fst (Option.some.inj hp)).symm
      · by_cases hlj : l = j
        · subst hlj
          obtain ⟨p, hp, hne⟩ := hl
          rcases (home_some hi).2 with hnone | ⟨v', hv'⟩
          · rw [hnone] at hp
            cases hp
          · rw [hv'] at hp
            exact absurd (congrArg Prod.fst (Option.some.inj hp)).symm hne
        · rwa [Function.update_of_ne hlj]
    · rw [Function.update_of_ne hji] at hj
      have hne : k ≠ k' := by
        rintro rfl
        exact hji (Option.some.inj ((h j k v' hj).symm.trans hi))
      refine home_mono (h j k' v' hj) (fun p hp => ?_) fun l hl => ?_
      · rw [Function.update_of_ne hji, hj] at hp
        exact (congrArg Prod.fst (Option.some.inj hp)).symm
      · by_cases hli : l = i
        · subst hli
          exact ⟨(k, v), Function.update_self .., hne⟩
        · rwa [Function.update_of_ne hli]

/-- What is found after an entry has been stored: it, and the entries of the other keys. -/
theorem Whole.find_store {i : ι} (hi : home t k (slots k) = some i) (k' : κ) :
    find (ProbeTable.store t k v (slots k)) k' (slots k') =
      if k' = k then some v else find t k' (slots k') := by
  have hstore : ProbeTable.store t k v (slots k) = Function.update t i (some (k, v)) := by
    rw [ProbeTable.store, hi, Option.elim_some]
  have hwhole := h.store k v
  split_ifs with hk
  · subst hk
    exact hwhole.find_iff.mpr ⟨i, by rw [hstore, Function.update_self]⟩
  · refine Option.ext fun v' => ?_
    rw [hwhole.find_iff, h.find_iff, hstore]
    constructor
    · rintro ⟨j, hj⟩
      by_cases hji : j = i
      · subst hji
        rw [Function.update_self] at hj
        exact absurd (congrArg Prod.fst (Option.some.inj hj)).symm hk
      · exact ⟨j, by rwa [Function.update_of_ne hji] at hj⟩
    · rintro ⟨j, hj⟩
      refine ⟨j, ?_⟩
      rw [Function.update_of_ne, hj]
      rintro rfl
      rcases (home_some hi).2 with hnone | ⟨v₀, hv₀⟩
      · rw [hnone] at hj
        cases hj
      · rw [hv₀] at hj
        exact hk (congrArg Prod.fst (Option.some.inj hj)).symm

end Whole

/-- The table with the entries of a list, stored one after the other. -/
def rebuild (slots : κ → List ι) (es : List (κ × ν)) : Table ι κ ν :=
  es.foldl (fun t e => store t e.1 e.2 (slots e.1)) fun _ => none

omit [DecidableEq ι] in
theorem home_isSome {i : ι} (hi : i ∈ is) (hfree : t i = none) : (home t k is).isSome :=
  List.find?_isSome.mpr ⟨i, hi, by simp [hfree]⟩

/-- A table that is rebuilt from entries of different keys, no more than it has slots, finds these
entries and no others. -/
theorem rebuild_spec {slots : κ → List ι} (all : Finset ι) (hslots : ∀ k, ∀ i ∈ all, i ∈ slots k)
    (es : List (κ × ν)) (hkeys : (es.map Prod.fst).Nodup) (hlen : es.length ≤ all.card) :
    Whole slots (rebuild slots es) ∧
      (∀ k v, find (rebuild slots es) k (slots k) = some v ↔ (k, v) ∈ es) ∧
      (all.filter fun i => (rebuild slots es i).isSome).card ≤ es.length := by
  induction es using List.reverseRecOn with
  | nil =>
    refine ⟨fun i k v hi => (Option.some_ne_none _ hi.symm).elim, fun k v =>
      ⟨fun h => ?_, fun h => (List.not_mem_nil h).elim⟩, ?_⟩
    · obtain ⟨i, -, hi⟩ := find_mem h
      cases hi
    · simp [rebuild]
  | append_singleton es e ih =>
    rw [List.map_append, List.map_singleton, List.nodup_append_comm, List.singleton_append,
      List.nodup_cons] at hkeys
    rw [List.length_append, List.length_singleton] at hlen ⊢
    obtain ⟨hwhole, hfind, hcard⟩ := ih hkeys.2 (by omega)
    have hstep : rebuild slots (es ++ [e]) =
        store (rebuild slots es) e.1 e.2 (slots e.1) := by
      rw [rebuild, List.foldl_append]
      rfl
    -- fewer entries than slots, so that one is free
    obtain ⟨i, hiall, hfree⟩ : ∃ i ∈ all, rebuild slots es i = none := by
      by_contra hno
      refine absurd hcard (Nat.not_le_of_lt ?_)
      rw [Finset.filter_true_of_mem fun i hi => Option.isSome_iff_ne_none.mpr fun h =>
        hno ⟨i, hi, h⟩]
      omega
    obtain ⟨j, hj⟩ := Option.isSome_iff_exists.mp (home_isSome (hslots e.1 i hiall) hfree)
    refine ⟨hstep ▸ hwhole.store e.1 e.2, fun k v => ?_, ?_⟩
    · rw [hstep, hwhole.find_store hj, List.mem_append, List.mem_singleton]
      split_ifs with hk
      · subst hk
        have hnot : (e.1, v) ∉ es := fun h => hkeys.1 (List.mem_map.mpr ⟨_, h, rfl⟩)
        rw [or_iff_right hnot, Option.some_inj]
        exact ⟨fun h => h ▸ rfl, fun h => (congrArg Prod.snd h).symm⟩
      · rw [hfind k v, or_iff_left fun h => hk (congrArg Prod.fst h)]
    · rw [hstep, ProbeTable.store, hj, Option.elim_some]
      refine (Finset.card_le_card (t := insert j (all.filter fun i =>
        (rebuild slots es i).isSome)) fun l hl => ?_).trans
          ((Finset.card_insert_le _ _).trans (by omega))
      rw [Finset.mem_filter] at hl
      rw [Finset.mem_insert, Finset.mem_filter]
      by_cases hlj : l = j
      · exact .inl hlj
      · rw [Function.update_of_ne hlj] at hl
        exact .inr hl

end Thvm.ProbeTable
