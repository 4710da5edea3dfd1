import Thvm.BestFirstSearch
import Thvm.FixedWidth

/-!
# Collapse by a queue

`eval/collapse.c`: the walk keeps its entries in an array of fixed size that is sorted in
every round. Room in the array is used up by pushes and never given back.
-/

namespace Thvm.Collapse

open Priority

def evalCollapseQueueCap : ℕ := 65536

/-- A term with its `key` and `seq`. -/
abbrev EvalCollapseTask := Ticket Term

/-- The slice from `q_head` to `q_tail`, with `q_tail` itself. -/
structure EvalQueue where
  tasks : List EvalCollapseTask
  tail : ℕ
  seq : ℕ
  out : List Term
  heap : Heap

def EvalQueue.push (s : EvalQueue) (t : Term) (k : ℕ) : EvalQueue :=
  { s with tasks := s.tasks ++ [⟨t, k, s.seq⟩], tail := s.tail + 1, seq := s.seq + 1 }

/-- What a round does with the task it has taken: go on, or give up for want of room. -/
def evalVisit (w : Readback) (t : EvalCollapseTask) (s : EvalQueue) : Option EvalQueue :=
  let (v, h) := cnf w t.item s.heap
  let s := { s with heap := h }
  match v.tag with
  | .sup =>
    if evalCollapseQueueCap < s.tail + 2 then none
    else
      let l := h v.val
      let r := h (v.val + 1)
      let k := (t.rank + 1) % 2 ^ 32
      some ((s.push l k).push r k)
  | .era => some s
  | .inc =>
    if evalCollapseQueueCap < s.tail + 1 then none
    else some (s.push (h v.val) (if 0 < t.rank then t.rank - 1 else 0))
  | _ => some { s with out := s.out ++ [v] }

def evalLoop (w : Readback) (cap : ℕ) : ℕ → EvalQueue → Option (List Term)
  | 0, _ => none
  | rounds + 1, s =>
    if cap ≤ s.out.length then some s.out
    else
      match sort s.tasks with
      | [] => some s.out
      | t :: rest =>
        match evalVisit w t { s with tasks := rest } with
        | none => some s.out
        | some s' => evalLoop w cap rounds s'

/-- The leaves written to `out`; `none` when the loop runs out of rounds. -/
def evalCollapse (w : Readback) (rounds : ℕ) (t : Term) (cap : ℕ) (h : Heap) :
    Option (List Term) :=
  if cap = 0 then some []
  else evalLoop w cap rounds ⟨[⟨t, 0, 0⟩], 1, 1, [], h⟩

namespace Tree

/-- The entries that the nodes of a tree put into the queue. -/
def pushes : Tree → ℕ
  | leaf _ => 0
  | era => 0
  | inc b => b.pushes + 1
  | sup l r => l.pushes + r.pushes + 2

/-- The leaves that are not erased. -/
def leafCount : Tree → ℕ
  | leaf _ => 1
  | era => 0
  | inc b => b.leafCount
  | sup l r => l.leafCount + r.leafCount

theorem length_peaks (T : Tree) (k p : ℕ) : (T.peaks k p).length = T.leafCount := by
  induction T generalizing k p with
  | leaf v => rfl
  | era => rfl
  | inc b ih => exact ih _ _
  | sup l r ihl ihr => rw [peaks, List.length_append, ihl, ihr, leafCount]

end Tree

variable {w : Readback} {cells : Set ℕ} {h : Heap}

/-- The entries of both queues correspond: same keys, and each term unfolds to its tree. -/
abbrev Matches (w : Readback) (cells : Set ℕ) (h : Heap) :
    List (Term × ℕ) → List (Pending × ℕ) → Prop :=
  List.Forall₂ fun x y ↦ x.2 = y.2 ∧ Unfolds w cells h x.1 y.1.tree

theorem Matches.enqueue {l : List (Term × ℕ)} {q : List (Pending × ℕ)} (hm : Matches w cells h l q)
    {t : Term} {e : Pending} {k : ℕ} (ht : Unfolds w cells h t e.tree) :
    Matches w cells h (enqueue t k l) (enqueue e k q) := by
  induction hm with
  | nil => exact .cons ⟨rfl, ht⟩ .nil
  | @cons x y l q hxy hm ih =>
    rw [Priority.enqueue, Priority.enqueue, hxy.1]
    split_ifs
    · exact .cons ⟨rfl, ht⟩ (.cons hxy hm)
    · exact .cons hxy ih

/-- The state of the array against the abstract queue. -/
structure Holds (w : Readback) (cells : Set ℕ) (h : Heap) (s : EvalQueue)
    (q : List (Pending × ℕ)) : Prop where
  matched : Matches w cells h ((sort s.tasks).map unnumber) q
  turns : ∀ x ∈ s.tasks, x.turn < s.seq
  nodup : (s.tasks.map Ticket.turn).Nodup
  ranks : ∀ x ∈ s.tasks, x.rank ≤ s.tail
  same : SameCells cells h s.heap

theorem Holds.push {s : EvalQueue} {q : List (Pending × ℕ)} (hs : Holds w cells h s q)
    {t : Term} {e : Pending} {k : ℕ} (ht : Unfolds w cells h t e.tree) (hk : k ≤ s.tail + 1) :
    Holds w cells h (s.push t k) (enqueue e k q) where
  matched := by
    show Matches w cells h ((sort (s.tasks ++ [⟨t, k, s.seq⟩])).map unnumber)
      (Priority.enqueue e k q)
    rw [map_sort_append hs.turns hs.nodup]
    exact hs.matched.enqueue ht
  turns x hx := by
    rcases List.mem_append.1 hx with hx | hx
    · exact (hs.turns x hx).trans (Nat.lt_succ_self _)
    · rw [List.mem_singleton.1 hx]
      exact Nat.lt_succ_self _
  nodup := by
    rw [EvalQueue.push, List.map_append]
    refine List.nodup_append.2 ⟨hs.nodup, List.nodup_singleton _, fun n hn m hm ↦ ?_⟩
    obtain ⟨y, hy, rfl⟩ := List.mem_map.1 hn
    obtain rfl := List.mem_singleton.1 hm
    exact (hs.turns y hy).ne
  ranks x hx := by
    rcases List.mem_append.1 hx with hx | hx
    · exact (hs.ranks x hx).trans (Nat.le_succ _)
    · rw [List.mem_singleton.1 hx]
      exact hk
  same := hs.same

/-- Taking the first task of the sorted slice takes the first entry of the queue. -/
theorem Holds.take {s : EvalQueue} {e : Pending} {k : ℕ} {q : List (Pending × ℕ)}
    (hs : Holds w cells h s ((e, k) :: q)) :
    ∃ t rest, sort s.tasks = t :: rest ∧ t.rank = k ∧ k ≤ s.tail ∧
      Unfolds w cells h t.item e.tree ∧ Holds w cells h { s with tasks := rest } q := by
  cases hsort : sort s.tasks with
  | nil =>
    have hm := hs.matched
    rw [hsort] at hm
    cases hm
  | cons t rest =>
    have hm := hs.matched
    rw [hsort] at hm
    obtain ⟨⟨hrank, htree⟩, hrest⟩ := List.forall₂_cons.1 hm
    have hperm := sort_perm s.tasks
    rw [hsort] at hperm
    have hsorted := sort_pairwise s.tasks
    rw [hsort] at hsorted
    have hmem (x) (hx : x ∈ rest) : x ∈ s.tasks := hperm.mem_iff.1 (List.mem_cons_of_mem _ hx)
    have hnodup := (hperm.map Ticket.turn).nodup_iff.2 hs.nodup
    have hrank : t.rank = k := hrank
    refine ⟨t, rest, rfl, hrank, ?_, htree, ?_, fun x hx ↦ hs.turns x (hmem x hx),
      (List.nodup_cons.1 hnodup).2, fun x hx ↦ hs.ranks x (hmem x hx), hs.same⟩
    · exact hrank ▸ hs.ranks t (hperm.mem_iff.1 List.mem_cons_self)
    · have hkeep : sort rest = rest := (List.pairwise_cons.1 hsorted).2.insertionSort_eq
      show Matches w cells h ((sort rest).map unnumber) q
      rw [hkeep]
      exact hrest

def queuePushes (q : List (Pending × ℕ)) : ℕ := (q.map fun e ↦ e.1.tree.pushes).sum

def queueLeaves (q : List (Pending × ℕ)) : ℕ := (q.map fun e ↦ e.1.tree.leafCount).sum

theorem queuePushes_enqueue (e : Pending) (k : ℕ) (q : List (Pending × ℕ)) :
    queuePushes (enqueue e k q) = e.tree.pushes + queuePushes q := by
  rw [queuePushes, ((enqueue_perm e k q).map _).sum_eq]
  rfl

theorem queueLeaves_enqueue (e : Pending) (k : ℕ) (q : List (Pending × ℕ)) :
    queueLeaves (enqueue e k q) = e.tree.leafCount + queueLeaves q := by
  rw [queueLeaves, ((enqueue_perm e k q).map _).sum_eq]
  rfl

theorem Search.length_eq {q : List (Pending × ℕ)} {out : List (Term × ℕ)} (hs : Search q out) :
    out.length = queueLeaves q := by
  rw [hs.perm.length_eq, List.length_flatMap, queueLeaves]
  congr 1
  exact List.map_congr_left fun e _ ↦ Tree.length_peaks _ _ _

section Visit

variable {t : EvalCollapseTask} {s : EvalQueue} {q : List (Pending × ℕ)}

theorem evalVisit_leaf {v : Term} (ht : Unfolds w cells h t.item (.leaf v))
    (hs : Holds w cells h s q) :
    ∃ h', evalVisit w t s = some { s with heap := h', out := s.out ++ [v] } ∧
      SameCells cells h h' := by
  cases ht with
  | leaf hv hsup hera hinc =>
    obtain ⟨h', hcnf, hcells⟩ := hv.cnf_eq hs.same
    refine ⟨h', ?_, hcells⟩
    rw [evalVisit, hcnf]
    cases htag : v.tag <;> simp_all

theorem evalVisit_era (ht : Unfolds w cells h t.item .era) (hs : Holds w cells h s q) :
    ∃ h', evalVisit w t s = some { s with heap := h' } ∧ SameCells cells h h' := by
  cases ht with
  | era hv hera =>
    obtain ⟨h', hcnf, hcells⟩ := hv.cnf_eq hs.same
    refine ⟨h', ?_, hcells⟩
    rw [evalVisit, hcnf]
    simp [hera]

theorem evalVisit_inc {b : Tree} (ht : Unfolds w cells h t.item (.inc b))
    (hs : Holds w cells h s q) (hroom : s.tail + 1 ≤ evalCollapseQueueCap) :
    ∃ h' x, evalVisit w t s = some ({ s with heap := h' }.push x (t.rank - 1)) ∧
      Unfolds w cells h x b ∧ SameCells cells h h' := by
  cases ht with
  | inc hv hinc hc hb =>
    obtain ⟨h', hcnf, hcells⟩ := hv.cnf_eq hs.same
    refine ⟨h', _, ?_, hb, hcells⟩
    have hkey : (if 0 < t.rank then t.rank - 1 else 0) = t.rank - 1 := by
      split_ifs <;> omega
    rw [evalVisit, hcnf]
    simp only [hinc, if_neg (not_lt.2 hroom), hkey, hcells _ hc]

theorem evalVisit_sup {l r : Tree} (ht : Unfolds w cells h t.item (.sup l r))
    (hs : Holds w cells h s q) (hroom : s.tail + 2 ≤ evalCollapseQueueCap)
    (hrank : t.rank ≤ s.tail) :
    ∃ h' x y, evalVisit w t s =
        some (({ s with heap := h' }.push x (t.rank + 1)).push y (t.rank + 1)) ∧
      Unfolds w cells h x l ∧ Unfolds w cells h y r ∧ SameCells cells h h' := by
  cases ht with
  | sup hv hsup hcl hcr hl hr =>
    obtain ⟨h', hcnf, hcells⟩ := hv.cnf_eq hs.same
    refine ⟨h', _, _, ?_, hl, hr, hcells⟩
    have hkey : (t.rank + 1) % 2 ^ 32 = t.rank + 1 :=
      Nat.mod_eq_of_lt (by unfold evalCollapseQueueCap at hroom; omega)
    rw [evalVisit, hcnf]
    simp only [hsup, if_neg (not_lt.2 hroom), hkey, hcells _ hcl, hcells _ hcr]

end Visit

theorem evalLoop_step {cap rounds : ℕ} {s s' : EvalQueue} {t : EvalCollapseTask}
    {rest : List EvalCollapseTask} (hcap : s.out.length < cap) (hsort : sort s.tasks = t :: rest)
    (hvisit : evalVisit w t { s with tasks := rest } = some s') :
    evalLoop w cap (rounds + 1) s = evalLoop w cap rounds s' := by
  rw [evalLoop, if_neg (not_le.2 hcap), hsort]
  simp only [hvisit]

/-- Only rounds with room in the output are of interest. -/
theorem evalLoop_cases {q : List (Pending × ℕ)} {outs : List (Term × ℕ)}
    (hsearch : Search q outs) {cap rounds : ℕ} {s : EvalQueue}
    (hcap : s.out.length + queueLeaves q ≤ cap) (hrounds : queueNodes q < rounds)
    (step : ∀ r, s.out.length < cap → queueNodes q < r + 1 →
      evalLoop w cap (r + 1) s = some (s.out ++ outs.map Prod.fst)) :
    evalLoop w cap rounds s = some (s.out ++ outs.map Prod.fst) := by
  obtain ⟨r, rfl⟩ : ∃ r, rounds = r + 1 := ⟨rounds - 1, by omega⟩
  by_cases hfull : cap ≤ s.out.length
  · have hnil : outs = [] := List.length_eq_zero_iff.1 (by rw [hsearch.length_eq]; omega)
    rw [evalLoop, if_pos hfull, hnil, List.map_nil, List.append_nil]
  · exact step r (not_le.1 hfull) hrounds

/-- With room for all pushes the loop finds what the search finds, in its order. -/
theorem evalLoop_spec {q : List (Pending × ℕ)} {outs : List (Term × ℕ)} (hsearch : Search q outs)
    {cap rounds : ℕ} {s : EvalQueue} (hs : Holds w cells h s q)
    (hroom : s.tail + queuePushes q ≤ evalCollapseQueueCap)
    (hcap : s.out.length + queueLeaves q ≤ cap) (hrounds : queueNodes q < rounds) :
    evalLoop w cap rounds s = some (s.out ++ outs.map Prod.fst) := by
  induction hsearch generalizing s rounds with
  | done =>
    refine evalLoop_cases .done hcap hrounds fun r hlt _ ↦ ?_
    have hnil : sort s.tasks = [] :=
      List.map_eq_nil_iff.1 (List.forall₂_nil_right_iff.1 hs.matched)
    rw [evalLoop, if_neg (not_le.2 hlt), hnil, List.map_nil, List.append_nil]
  | @leaf v p k q out hq ih =>
    refine evalLoop_cases (.leaf hq) hcap hrounds fun r hlt hle ↦ ?_
    obtain ⟨t, rest, hsort, hrank, hk, htree, hrest⟩ := hs.take
    obtain ⟨h', hvisit, hcells⟩ := evalVisit_leaf htree hrest
    have hleaves : queueLeaves ((⟨.leaf v, p⟩, k) :: q) = 1 + queueLeaves q := rfl
    have hpushes : queuePushes ((⟨.leaf v, p⟩, k) :: q) = 0 + queuePushes q := rfl
    have hnodes : queueNodes ((⟨.leaf v, p⟩, k) :: q) = 1 + queueNodes q := rfl
    have hnext : Holds w cells h { s with tasks := rest, heap := h', out := s.out ++ [v] } q :=
      { hrest with same := hcells }
    rw [evalLoop_step hlt hsort hvisit, ih hnext (show s.tail + _ ≤ _ by omega)
      (by rw [List.length_append, List.length_singleton]; omega) (by omega), List.append_assoc]
    rfl
  | @era p k q out hq ih =>
    refine evalLoop_cases (.era hq) hcap hrounds fun r hlt hle ↦ ?_
    obtain ⟨t, rest, hsort, hrank, hk, htree, hrest⟩ := hs.take
    obtain ⟨h', hvisit, hcells⟩ := evalVisit_era htree hrest
    have hleaves : queueLeaves ((⟨.era, p⟩, k) :: q) = 0 + queueLeaves q := rfl
    have hpushes : queuePushes ((⟨.era, p⟩, k) :: q) = 0 + queuePushes q := rfl
    have hnodes : queueNodes ((⟨.era, p⟩, k) :: q) = 1 + queueNodes q := rfl
    rw [evalLoop_step hlt hsort hvisit]
    exact ih { hrest with same := hcells } (show s.tail + _ ≤ _ by omega)
      (show s.out.length + _ ≤ _ by omega) (by omega)
  | @inc b p k q out hq ih =>
    refine evalLoop_cases (.inc hq) hcap hrounds fun r hlt hle ↦ ?_
    obtain ⟨t, rest, hsort, rfl, hk, htree, hrest⟩ := hs.take
    have hleaves : queueLeaves ((⟨.inc b, p⟩, t.rank) :: q) = b.leafCount + queueLeaves q := rfl
    have hpushes : queuePushes ((⟨.inc b, p⟩, t.rank) :: q) = b.pushes + 1 + queuePushes q := rfl
    have hnodes : queueNodes ((⟨.inc b, p⟩, t.rank) :: q) = b.nodes + 1 + queueNodes q := rfl
    have hleaves' := queueLeaves_enqueue ⟨b, p⟩ (t.rank - 1) q
    have hpushes' := queuePushes_enqueue ⟨b, p⟩ (t.rank - 1) q
    have hnodes' := queueNodes_enqueue ⟨b, p⟩ (t.rank - 1) q
    obtain ⟨h', x, hvisit, hx, hcells⟩ :=
      evalVisit_inc htree hrest (show s.tail + 1 ≤ _ by omega)
    have hnext : Holds w cells h { s with tasks := rest, heap := h' } q :=
      { hrest with same := hcells }
    rw [evalLoop_step hlt hsort hvisit]
    exact ih (hnext.push hx (show t.rank - 1 ≤ s.tail + 1 by omega))
      (show s.tail + 1 + _ ≤ _ by rw [hpushes']; simp only; omega)
      (show s.out.length + _ ≤ _ by rw [hleaves']; simp only; omega)
      (by rw [hnodes']; simp only; omega)
  | @sup l r p k q out hq ih =>
    refine evalLoop_cases (.sup hq) hcap hrounds fun n hlt hle ↦ ?_
    obtain ⟨t, rest, hsort, rfl, hk, htree, hrest⟩ := hs.take
    have hleaves : queueLeaves ((⟨.sup l r, p⟩, t.rank) :: q) =
      l.leafCount + r.leafCount + queueLeaves q := rfl
    have hpushes : queuePushes ((⟨.sup l r, p⟩, t.rank) :: q) =
      l.pushes + r.pushes + 2 + queuePushes q := rfl
    have hnodes : queueNodes ((⟨.sup l r, p⟩, t.rank) :: q) =
      l.nodes + r.nodes + 1 + queueNodes q := rfl
    obtain ⟨h', x, y, hvisit, hx, hy, hcells⟩ :=
      evalVisit_sup htree hrest (show s.tail + 2 ≤ _ by omega) hk
    have hnext : Holds w cells h { s with tasks := rest, heap := h' } q :=
      { hrest with same := hcells }
    have hleft := hnext.push (e := ⟨l, max p (t.rank + 1)⟩) hx
      (show t.rank + 1 ≤ s.tail + 1 by omega)
    have hright := hleft.push (e := ⟨r, max p (t.rank + 1)⟩) hy
      (show t.rank + 1 ≤ s.tail + 1 + 1 by omega)
    rw [evalLoop_step hlt hsort hvisit]
    refine ih hright (show s.tail + 1 + 1 + _ ≤ _ from ?_) (show s.out.length + _ ≤ _ from ?_) ?_
    · rw [queuePushes_enqueue, queuePushes_enqueue]
      simp only
      omega
    · rw [queueLeaves_enqueue, queueLeaves_enqueue]
      simp only
      omega
    · rw [queueNodes_enqueue, queueNodes_enqueue]
      simp only
      omega

/-- On a tree whose pushes fit into the queue, and with room for its leaves, the collapse
yields each leaf once, in the order of a best-first search: by the largest key on the path. -/
theorem evalCollapse_spec {t : Term} {T : Tree} (ht : Unfolds w cells h t T)
    (hroom : 1 + T.pushes ≤ evalCollapseQueueCap) {cap : ℕ} (hcap : T.leafCount ≤ cap)
    {rounds : ℕ} (hrounds : T.nodes < rounds) :
    ∃ outs, evalCollapse w rounds t cap h = some (outs.map Prod.fst) ∧
      Search [(⟨T, 0⟩, 0)] outs ∧ outs.Perm (T.peaks 0 0) ∧
      outs.Pairwise (fun x y ↦ x.2 ≤ y.2) ∧ outs.length = T.leafCount := by
  obtain ⟨outs, hsearch⟩ := exists_search [(⟨T, 0⟩, 0)]
  have hone : queueLeaves [(⟨T, 0⟩, 0)] = T.leafCount + 0 := rfl
  have hordered : Ordered 0 [(⟨T, 0⟩, 0)] :=
    ⟨List.pairwise_singleton _ _, by simp, by simp, by simp⟩
  refine ⟨outs, ?_, hsearch, ?_, (hsearch.sorted hordered).1, by rw [hsearch.length_eq, hone]; rfl⟩
  · by_cases h0 : cap = 0
    · have hnil : outs = [] :=
        List.length_eq_zero_iff.1 (by rw [hsearch.length_eq, hone]; omega)
      rw [evalCollapse, if_pos h0, hnil]
      rfl
    · have hstart : Holds w cells h ⟨[⟨t, 0, 0⟩], 1, 1, [], h⟩ [(⟨T, 0⟩, 0)] :=
        ⟨.cons ⟨rfl, ht⟩ .nil, by simp, List.nodup_singleton _, by simp, SameCells.refl _ _⟩
      rw [evalCollapse, if_neg h0, evalLoop_spec hsearch hstart
        (show 1 + (T.pushes + 0) ≤ _ by omega) (show 0 + (T.leafCount + 0) ≤ cap by omega)
        (show T.nodes + 0 < rounds by omega)]
      rfl
  · have hperm := hsearch.perm
    rw [List.flatMap_cons, List.flatMap_nil, List.append_nil] at hperm
    exact hperm

/-- A leaf under `m` wrappers. -/
def wrapped (v : Term) : ℕ → Tree
  | 0 => .leaf v
  | m + 1 => .inc (wrapped v m)

theorem evalVisit_inc_full {t : EvalCollapseTask} {s : EvalQueue} {q : List (Pending × ℕ)}
    {b : Tree} (ht : Unfolds w cells h t.item (.inc b)) (hs : Holds w cells h s q)
    (hroom : evalCollapseQueueCap < s.tail + 1) : evalVisit w t s = none := by
  cases ht with
  | inc hv hinc hc hb =>
    obtain ⟨h', hcnf, hcells⟩ := hv.cnf_eq hs.same
    rw [evalVisit, hcnf]
    simp only [hinc, if_pos hroom]

theorem evalLoop_wrapped {v : Term} {cap m k p : ℕ} (hcap : 0 < cap) {s : EvalQueue}
    (hs : Holds w cells h s [(⟨wrapped v m, p⟩, k)]) (hout : s.out = [])
    (htail : s.tail ≤ evalCollapseQueueCap) (hroom : evalCollapseQueueCap < s.tail + m)
    {rounds : ℕ} (hrounds : m < rounds) : evalLoop w cap rounds s = some [] := by
  induction m generalizing s k rounds with
  | zero => omega
  | succ m ih =>
    obtain ⟨r, rfl⟩ : ∃ r, rounds = r + 1 := ⟨rounds - 1, by omega⟩
    obtain ⟨t, rest, hsort, rfl, hk, htree, hrest⟩ := hs.take
    have hlt : s.out.length < cap := by rwa [hout]
    rcases Nat.lt_or_ge s.tail evalCollapseQueueCap with hfree | hfull
    · obtain ⟨h', x, hvisit, hx, hcells⟩ := evalVisit_inc htree hrest hfree
      have hnext : Holds w cells h { s with tasks := rest, heap := h' } [] :=
        { hrest with same := hcells }
      rw [evalLoop_step hlt hsort hvisit]
      exact ih (hnext.push (e := ⟨wrapped v m, p⟩) hx (show t.rank - 1 ≤ s.tail + 1 by omega))
        hout hfree (show evalCollapseQueueCap < s.tail + 1 + m by omega) (by omega)
    · have hnone := evalVisit_inc_full htree hrest (show evalCollapseQueueCap < s.tail + 1 by omega)
      rw [evalLoop, if_neg (not_le.2 hlt), hsort]
      simp only [hnone]
      rw [hout]

/-- A leaf under as many wrappers as the queue has slots is never found. -/
theorem evalCollapse_wrapped_full {t v : Term} {m : ℕ} (ht : Unfolds w cells h t (wrapped v m))
    (hm : evalCollapseQueueCap ≤ m) {cap rounds : ℕ} (hrounds : m < rounds) :
    evalCollapse w rounds t cap h = some [] := by
  rcases Nat.eq_zero_or_pos cap with rfl | hcap
  · exact if_pos rfl
  · have hstart : Holds w cells h ⟨[⟨t, 0, 0⟩], 1, 1, [], h⟩ [(⟨wrapped v m, 0⟩, 0)] :=
      ⟨.cons ⟨rfl, ht⟩ .nil, by simp, List.nodup_singleton _, by simp, SameCells.refl _ _⟩
    rw [evalCollapse, if_neg hcap.ne']
    exact evalLoop_wrapped hcap hstart rfl (show 1 ≤ evalCollapseQueueCap by decide)
      (show evalCollapseQueueCap < 1 + m by omega) hrounds

/-! ### A wrapped leaf beside a plain one -/

def pairTerm (tag : Tag) (loc : ℕ) : Term := ⟨false, tag, 0, loc⟩

/-- A superposition of number 1 and a wrapped number 2. -/
def wrappedHeap : Heap := fun loc ↦
  [pairTerm .num 1, pairTerm .inc 2, pairTerm .num 2].getD loc Term.zero

def wrappedTree : Tree := .sup (.leaf (pairTerm .num 1)) (.inc (.leaf (pairTerm .num 2)))

theorem unfolds_wrapped : Unfolds idle Set.univ wrappedHeap (pairTerm .sup 0) wrappedTree := by
  have settles (t : Term) : Settles idle Set.univ wrappedHeap t t := settles_idle _ _ _
  refine .sup (settles _) rfl trivial trivial (.leaf (settles _) ?_ ?_ ?_)
    (.inc (settles _) rfl trivial (.leaf (settles _) ?_ ?_ ?_))
  all_goals decide

/-- The wrapped leaf has key 0, but comes after its neighbour of key 1. -/
theorem evalCollapse_unsorted :
    ¬ ∀ (w : Readback) (cells : Set ℕ) (h : Heap) (t : Term) (T : Tree) (cap rounds : ℕ),
      Unfolds w cells h t T → T.leafCount ≤ cap → T.nodes < rounds →
        ∃ outs : List (Term × ℕ), evalCollapse w rounds t cap h = some (outs.map Prod.fst) ∧
          outs.Perm (T.keys 0) ∧ outs.Pairwise (fun x y ↦ x.2 ≤ y.2) := by
  intro hall
  obtain ⟨outs, hrun, hperm, hsorted⟩ :=
    hall idle _ _ _ _ 2 5 unfolds_wrapped (by decide) (by decide)
  have hout : evalCollapse idle 5 (pairTerm .sup 0) 2 wrappedHeap =
      some [pairTerm .num 1, pairTerm .num 2] := by decide
  have hkeys : wrappedTree.keys 0 = [(pairTerm .num 1, 1), (pairTerm .num 2, 0)] := rfl
  have hterms := Option.some.inj (hrun.symm.trans hout)
  rw [hkeys] at hperm
  obtain ⟨x, y, rfl⟩ : ∃ x y, outs = [x, y] :=
    List.length_eq_two.1 (by simpa using congrArg List.length hterms)
  obtain ⟨hx, hy⟩ : x.1 = pairTerm .num 1 ∧ y.1 = pairTerm .num 2 := by simpa using hterms
  have hle : x.2 ≤ y.2 := (List.pairwise_cons.1 hsorted).1 y List.mem_cons_self
  have hxmem := hperm.mem_iff.1 (show x ∈ [x, y] by simp)
  have hymem := hperm.mem_iff.1 (show y ∈ [x, y] by simp)
  simp only [List.mem_cons, List.not_mem_nil, or_false] at hxmem hymem
  rcases hxmem with rfl | rfl <;> rcases hymem with rfl | rfl <;> simp_all [pairTerm]

/-- The same tree in the order of the search. -/
theorem evalCollapse_wrapped :
    ∃ outs : List (Term × ℕ),
      evalCollapse idle 5 (pairTerm .sup 0) 2 wrappedHeap = some (outs.map Prod.fst) ∧
      Search [(⟨wrappedTree, 0⟩, 0)] outs ∧ outs.Perm (wrappedTree.peaks 0 0) ∧
      outs.Pairwise (fun x y ↦ x.2 ≤ y.2) ∧ outs.length = wrappedTree.leafCount :=
  evalCollapse_spec unfolds_wrapped (by decide) (by decide) (by decide)

end Thvm.Collapse
