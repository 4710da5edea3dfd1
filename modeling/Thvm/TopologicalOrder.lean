import Mathlib.Data.List.Perm.Subperm
import Mathlib.Data.List.Count
import Mathlib.Data.List.Nodup
import Mathlib.Data.List.Induction
import Mathlib.Logic.Function.Basic
import Mathlib.Logic.Relation
import Mathlib.Tactic.Common

/-!
# Topological orders by counting consumers

A list is ordered when all sources of an entry come before it. From such a list
another one is built from its end: an entry is ready when the number of its consumers
that have not been taken has come down to zero, and any ready entry may be taken.
-/

namespace Thvm.TopologicalOrder

variable {α : Type*} (srcs : α → List α)

/-- Every entry comes after its sources. -/
def Ordered (l : List α) : Prop := ∀ l₁ u l₂, l = l₁ ++ u :: l₂ → ∀ s ∈ srcs u, s ∈ l₁

section Orders

variable {srcs} {l : List α} {u v : α}

theorem ordered_nil : Ordered srcs [] := fun l₁ u l₂ h => by simp at h

theorem Ordered.snoc (h : Ordered srcs l) (hu : ∀ s ∈ srcs u, s ∈ l) : Ordered srcs (l ++ [u]) := by
  intro l₁ w l₂ heq s hs
  rcases List.eq_nil_or_concat l₂ with rfl | ⟨l₂, x, rfl⟩
  · obtain ⟨rfl, hw⟩ := List.append_inj' heq rfl
    obtain rfl : u = w := (List.cons.inj hw).1
    exact hu s hs
  · rw [List.concat_eq_append, ← List.cons_append, ← List.append_assoc] at heq
    obtain ⟨rfl, -⟩ := List.append_inj' heq rfl
    exact h l₁ w l₂ rfl s hs

theorem Ordered.closed (h : Ordered srcs l) (hu : u ∈ l) : ∀ s ∈ srcs u, s ∈ l := by
  intro s hs
  obtain ⟨l₁, l₂, rfl⟩ := List.append_of_mem hu
  exact List.mem_append_left _ (h l₁ u l₂ rfl s hs)

/-- So do the sources of sources. -/
theorem Ordered.before {l₁ l₂ : List α} (h : Ordered srcs l) (hl : l = l₁ ++ u :: l₂)
    (hs : Relation.TransGen (fun s t => s ∈ srcs t) v u) : v ∈ l₁ := by
  induction hs generalizing l₁ l₂ with
  | single hvu => exact h l₁ _ l₂ hl _ hvu
  | tail _ hcu ih =>
    obtain ⟨m₁, m₂, rfl⟩ := List.append_of_mem (h l₁ _ l₂ hl _ hcu)
    have hsplit := hl.trans (List.append_assoc m₁ _ _)
    exact List.mem_append_left _ (ih hsplit)

/-- The last entry is no source of another one. -/
theorem Ordered.not_source_last (h : Ordered srcs (l ++ [u])) (hnd : (l ++ [u]).Nodup)
    (hv : v ∈ l ++ [u]) : u ∉ srcs v := by
  intro hmem
  obtain ⟨l₁, l₂, heq⟩ := List.append_of_mem hv
  have hu := h l₁ v l₂ heq u hmem
  rcases List.eq_nil_or_concat l₂ with rfl | ⟨l₂, x, rfl⟩
  · obtain ⟨rfl, -⟩ := List.append_inj' heq rfl
    exact List.disjoint_of_nodup_append hnd hu (List.mem_singleton_self u)
  · rw [List.concat_eq_append, ← List.cons_append, ← List.append_assoc] at heq
    obtain ⟨rfl, -⟩ := List.append_inj' heq rfl
    exact List.disjoint_of_nodup_append hnd (List.mem_append_left _ hu) (List.mem_singleton_self u)

/-- Among the entries without a property there is one all of whose consumers have it. -/
theorem Ordered.exists_last {P : α → Prop} (h : Ordered srcs l) (hnd : l.Nodup)
    (hu : u ∈ l) (hP : ¬P u) : ∃ v ∈ l, ¬P v ∧ ∀ c ∈ l, v ∈ srcs c → P c := by
  induction l using List.reverseRecOn with
  | nil => cases hu
  | append_singleton l x ih =>
    by_cases hx : P x
    · have hul : u ∈ l := by
        rcases List.mem_append.mp hu with hul | hux
        · exact hul
        · obtain rfl := List.mem_singleton.mp hux
          exact absurd hx hP
      have hord : Ordered srcs l := fun l₁ w l₂ heq =>
        h l₁ w (l₂ ++ [x]) (by rw [heq, List.append_assoc, List.cons_append])
      obtain ⟨v, hv, hPv, hcons⟩ := ih hord (List.Nodup.of_append_left hnd) hul
      refine ⟨v, List.mem_append_left _ hv, hPv, fun c hc hsrc => ?_⟩
      rcases List.mem_append.mp hc with hc | hc
      · exact hcons c hc hsrc
      · obtain rfl := List.mem_singleton.mp hc
        exact hx
    · refine ⟨x, List.mem_append_right _ (List.mem_singleton_self x), hx, fun c hc hsrc => ?_⟩
      exact absurd hsrc (h.not_source_last hnd hc)

/-- The entry without consumers stands at the end. -/
theorem Ordered.last_eq {sink : α} (h : Ordered srcs l) (hnd : l.Nodup) (hsink : sink ∈ l)
    (hcons : ∀ v ∈ l, v ≠ sink → ∃ c ∈ l, v ∈ srcs c) : ∃ l', l = l' ++ [sink] := by
  rcases List.eq_nil_or_concat l with rfl | ⟨l', x, rfl⟩
  · cases hsink
  · rw [List.concat_eq_append] at h hnd hcons ⊢
    by_cases hx : x = sink
    · exact ⟨l', hx ▸ rfl⟩
    · obtain ⟨c, hc, hsrc⟩ := hcons x (List.mem_append_right l' (List.mem_singleton_self x)) hx
      exact absurd hsrc (h.not_source_last hnd hc)

end Orders

section Counting

variable [DecidableEq α]

/-- How often the entries of a list use `v`. -/
def uses (l : List α) (v : α) : ℕ := (l.flatMap srcs).count v

variable {srcs} {l l' : List α} {u v c : α}

@[simp] theorem uses_nil : uses srcs [] v = 0 := rfl

theorem uses_cons : uses srcs (u :: l) v = (srcs u).count v + uses srcs l v := by
  rw [uses, List.flatMap_cons, List.count_append, uses]

theorem uses_pos (hc : c ∈ l) (hv : v ∈ srcs c) : 0 < uses srcs l v :=
  List.count_pos_iff.mpr (List.mem_flatMap.mpr ⟨c, hc, hv⟩)

theorem uses_eq_zero (h : ∀ c ∈ l, v ∉ srcs c) : uses srcs l v = 0 := by
  refine List.count_eq_zero.mpr fun hv => ?_
  obtain ⟨c, hc, hsrc⟩ := List.mem_flatMap.mp hv
  exact h c hc hsrc

theorem uses_perm (h : l.Perm l') : uses srcs l v = uses srcs l' v := (h.flatMap_right srcs).count_eq v

/-- The uses by a part of a list and by the rest. -/
theorem uses_add_diff (h : l'.Subperm l) :
    uses srcs l v = uses srcs l' v + uses srcs (l.diff l') v := by
  have hperm : (l' ++ l.diff l').Perm l :=
    List.subperm_append_diff_self_of_count_le fun x _ => h.count_le x
  rw [← uses_perm hperm, uses, List.flatMap_append, List.count_append, uses, uses]

end Counting

variable [DecidableEq α]

/-- A state of the second pass: `deg` counts the consumers of an entry that have not been
taken, `taken` has the last one first, and `pending` are the sources of the last one for
which the count has not been brought up to date. -/
structure Taking (topo : List α) (deg : α → ℕ) (ready taken pending : List α) : Prop where
  nodup : (ready ++ taken).Nodup
  subset : ∀ u ∈ ready ++ taken, u ∈ topo
  count : ∀ v, deg v + uses srcs taken v = uses srcs topo v + pending.count v
  freed : ∀ v ∈ topo, deg v = 0 → v ∈ ready ++ taken
  waiting : ∀ v ∈ ready ++ taken, deg v = 0
  sources : ∀ v ∈ pending, v ∈ topo
  consumers : ∀ l₁ u l₂, taken = l₁ ++ u :: l₂ → ∀ c ∈ topo, u ∈ srcs c → c ∈ l₂

section Steps

variable {srcs} {topo ready ready' taken pending : List α} {deg : α → ℕ} {u v : α}

/-- The last entry is ready at first, when every other one has a consumer. -/
theorem Taking.initial {l : List α} {sink : α} (hord : Ordered srcs (l ++ [sink]))
    (hnd : (l ++ [sink]).Nodup)
    (hcons : ∀ v ∈ l ++ [sink], v ≠ sink → ∃ c ∈ l ++ [sink], v ∈ srcs c) :
    Taking srcs (l ++ [sink]) (uses srcs (l ++ [sink])) [sink] [] [] where
  nodup := List.nodup_singleton sink
  subset u hu := List.mem_append_right l hu
  count v := rfl
  freed v hv hdeg := by
    by_cases hsink : v = sink
    · exact hsink ▸ List.mem_singleton_self v
    · obtain ⟨c, hc, hsrc⟩ := hcons v hv hsink
      exact absurd hdeg (Nat.ne_of_gt (uses_pos hc hsrc))
  waiting v hv := by
    obtain rfl := List.mem_singleton.mp hv
    exact uses_eq_zero fun c hc => hord.not_source_last hnd hc
  sources v hv := absurd hv List.not_mem_nil
  consumers l₁ u l₂ heq := by simp at heq

theorem Taking.subperm (h : Taking srcs topo deg ready taken pending) : taken.Subperm topo :=
  (List.Nodup.of_append_right h.nodup).subperm fun u hu =>
    h.subset u (List.mem_append_right _ hu)

/-- All consumers of an entry of count zero have been taken. -/
theorem Taking.consumer_taken (h : Taking srcs topo deg ready taken []) (hv : deg v = 0) {c : α}
    (hc : c ∈ topo) (hsrc : v ∈ srcs c) : c ∈ taken := by
  by_contra hno
  have hcount := h.count v
  rw [hv, List.count_nil, uses_add_diff h.subperm] at hcount
  have hdiff : c ∈ topo.diff taken := List.mem_diff_of_mem hc hno
  have hpos := uses_pos hdiff hsrc
  omega

theorem Taking.perm (h : Taking srcs topo deg ready taken pending) (hp : ready.Perm ready') :
    Taking srcs topo deg ready' taken pending where
  nodup := (hp.append_right taken).nodup_iff.mp h.nodup
  subset u hu := h.subset u ((hp.append_right taken).mem_iff.mpr hu)
  count := h.count
  freed v hv hdeg := (hp.append_right taken).mem_iff.mp (h.freed v hv hdeg)
  waiting v hv := h.waiting v ((hp.append_right taken).mem_iff.mpr hv)
  sources := h.sources
  consumers := h.consumers

/-- A ready entry is taken; its sources are to be released. -/
theorem Taking.take (h : Taking srcs topo deg (u :: ready) taken [])
    (hclosed : ∀ s ∈ srcs u, s ∈ topo) : Taking srcs topo deg ready (u :: taken) (srcs u) where
  nodup := List.perm_middle.nodup_iff.mpr h.nodup
  subset v hv := h.subset v (List.perm_middle.mem_iff.mp hv)
  count v := by
    have hcount := h.count v
    rw [List.count_nil] at hcount
    rw [uses_cons]
    omega
  freed v hv hdeg := List.perm_middle.mem_iff.mpr (h.freed v hv hdeg)
  waiting v hv := h.waiting v (List.perm_middle.mem_iff.mp hv)
  sources := hclosed
  consumers := by
    intro l₁ w l₂ heq c hc hsrc
    cases l₁ with
    | nil =>
      obtain ⟨rfl, rfl⟩ := List.cons.inj heq
      exact h.consumer_taken (h.waiting u List.mem_cons_self) hc hsrc
    | cons x l₁ =>
      obtain ⟨-, rfl⟩ := List.cons.inj heq
      exact h.consumers l₁ w l₂ rfl c hc hsrc

/-- A source that is still to be released has a positive count. -/
theorem Taking.deg_pos (h : Taking srcs topo deg ready taken (v :: pending)) : 0 < deg v := by
  have hcount := h.count v
  rw [List.count_cons_self, uses_add_diff h.subperm] at hcount
  omega

theorem Taking.not_mem (h : Taking srcs topo deg ready taken (v :: pending)) :
    v ∉ ready ++ taken := fun hv => Nat.ne_of_gt h.deg_pos (h.waiting v hv)

theorem count_release (h : 0 < deg v)
    (hcount : ∀ w, deg w + uses srcs taken w = uses srcs topo w + (v :: pending).count w) (w : α) :
    Function.update deg v (deg v - 1) w + uses srcs taken w =
      uses srcs topo w + pending.count w := by
  have hw := hcount w
  by_cases hwv : w = v
  · subst hwv
    rw [List.count_cons_self] at hw
    rw [Function.update_self]
    omega
  · rw [List.count_cons_of_ne (Ne.symm hwv)] at hw
    rw [Function.update_of_ne hwv]
    exact hw

/-- A source that has other consumers left. -/
theorem Taking.release (h : Taking srcs topo deg ready taken (v :: pending)) (hv : deg v - 1 ≠ 0) :
    Taking srcs topo (Function.update deg v (deg v - 1)) ready taken pending where
  nodup := h.nodup
  subset := h.subset
  count := count_release h.deg_pos h.count
  freed w hw hdeg := by
    by_cases hwv : w = v
    · subst hwv
      rw [Function.update_self] at hdeg
      exact absurd hdeg hv
    · rw [Function.update_of_ne hwv] at hdeg
      exact h.freed w hw hdeg
  waiting w hw := by
    have hwv : w ≠ v := fun heq => h.not_mem (heq ▸ hw)
    rw [Function.update_of_ne hwv]
    exact h.waiting w hw
  sources w hw := h.sources w (List.mem_cons_of_mem v hw)
  consumers := h.consumers

/-- A source that has no other consumers left. -/
theorem Taking.release_last (h : Taking srcs topo deg ready taken (v :: pending))
    (hv : deg v - 1 = 0) :
    Taking srcs topo (Function.update deg v (deg v - 1)) (v :: ready) taken pending where
  nodup := List.nodup_cons.mpr ⟨h.not_mem, h.nodup⟩
  subset := by
    intro w hw
    rcases List.mem_cons.mp hw with rfl | hw
    · exact h.sources w List.mem_cons_self
    · exact h.subset w hw
  count := count_release h.deg_pos h.count
  freed w hw hdeg := by
    by_cases hwv : w = v
    · exact hwv ▸ List.mem_cons_self
    · rw [Function.update_of_ne hwv] at hdeg
      exact List.mem_cons_of_mem v (h.freed w hw hdeg)
  waiting w hw := by
    by_cases hwv : w = v
    · rw [hwv, Function.update_self, hv]
    · rw [Function.update_of_ne hwv]
      exact h.waiting w ((List.mem_cons.mp hw).resolve_left hwv)
  sources w hw := h.sources w (List.mem_cons_of_mem v hw)
  consumers := h.consumers

/-- When nothing is ready, everything has been taken. -/
theorem Taking.complete (h : Taking srcs topo deg [] taken []) (hord : Ordered srcs topo)
    (hnd : topo.Nodup) : taken.Perm topo := by
  have hall : ∀ u ∈ topo, u ∈ taken := by
    by_contra hex
    push Not at hex
    obtain ⟨u, hu, hno⟩ := hex
    obtain ⟨v, hv, hvno, hcons⟩ := hord.exists_last hnd hu hno
    have hcount := h.count v
    have hrest : uses srcs (topo.diff taken) v = 0 := uses_eq_zero fun c hc hsrc =>
      (hnd.mem_sdiff_iff.mp hc).2 (hcons c (hnd.mem_sdiff_iff.mp hc).1 hsrc)
    rw [List.count_nil, uses_add_diff h.subperm, hrest] at hcount
    exact hvno (h.freed v hv (by omega))
  have htaken : taken.Nodup := h.nodup
  exact (List.perm_ext_iff_of_nodup htaken hnd).mpr fun u => ⟨h.subset u, hall u⟩

/-- The taken entries are ordered. -/
theorem Taking.ordered (h : Taking srcs topo deg [] taken []) (hord : Ordered srcs topo)
    (hnd : topo.Nodup) : Ordered srcs taken := by
  have hperm := h.complete hord hnd
  have htaken : taken.Nodup := h.nodup
  intro l₁ u l₂ heq s hs
  have hu : u ∈ topo := hperm.mem_iff.mp (heq ▸ List.mem_append_right l₁ List.mem_cons_self)
  have hsmem : s ∈ taken := hperm.mem_iff.mpr (hord.closed hu s hs)
  obtain ⟨m₁, m₂, hm⟩ := List.append_of_mem hsmem
  have hum : u ∈ m₂ := h.consumers m₁ s m₂ hm u hu hs
  -- `u` comes after `s`, and it is in the list only once
  obtain ⟨n₁, n₂, rfl⟩ := List.append_of_mem hum
  rw [heq, List.nodup_middle] at htaken
  obtain ⟨hno₁, hno₂⟩ := not_or.mp (mt List.mem_append.mpr (List.nodup_cons.mp htaken).1)
  have hsplit : l₁ ++ u :: l₂ = (m₁ ++ s :: n₁) ++ u :: n₂ := by
    rw [← heq, hm, List.append_assoc, List.cons_append]
  obtain ⟨rfl, -⟩ := (List.append_cons_inj_of_notMem hno₁ hno₂).mp hsplit
  exact List.mem_append_right m₁ List.mem_cons_self

end Steps

end Thvm.TopologicalOrder
