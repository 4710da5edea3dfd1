import Mathlib.Algebra.BigOperators.Group.List.Basic
import Thvm.StablePriority
import Thvm.Terms

/-!
# Superposition trees

What the collapse walks see of a term: the tree of superpositions and priority wrappers
that readback surfaces, with erased branches and other terms as leaves.
-/

namespace Thvm.Collapse

abbrev Heap := ℕ → Term

/-- Reduction to weak head normal form, and readback below the heads that `cnf_at` descends
into. -/
structure Readback where
  wnf : Term → Heap → Term × Heap
  cnfDp : Term → Heap → Term × Heap
  cnfLam : Term → Heap → Term × Heap
  cnfCtr : Term → Heap → Term × Heap
  cnfNode2 : Term → Heap → Term × Heap

def cnf (w : Readback) (t : Term) (h : Heap) : Term × Heap :=
  let (t, h) := w.wnf t h
  match t.tag with
  | .era | .num | .ten | .var | .any | .ref | .alo | .pri | .inc | .sup => (t, h)
  | .dp0 | .dp1 => if dupGradFlag t.ext then (t, h) else w.cnfDp t h
  | .bj0 | .bj1 => (t, h)
  | .lam => w.cnfLam t h
  | .ctr => w.cnfCtr t h
  | .app | .op2 | .eql | .and | .or | .when | .ann => w.cnfNode2 t h
  | _ => (t, h)

inductive Tree where
  | leaf (t : Term)
  | era
  | inc (body : Tree)
  | sup (l r : Tree)
  deriving DecidableEq, Repr

namespace Tree

/-- The leaves from left to right, each with `k` and the number of wrappers over it. -/
def leaves (k : ℕ) : Tree → List (Term × ℕ)
  | leaf t => [(t, k)]
  | era => []
  | inc b => b.leaves (k + 1)
  | sup l r => l.leaves k ++ r.leaves k

def height : Tree → ℕ
  | leaf _ => 1
  | era => 1
  | inc b => b.height + 1
  | sup l r => max l.height r.height + 1

theorem height_pos (T : Tree) : 0 < T.height := by
  cases T <;> simp [height]

/-- The wrappers on the deepest path. -/
def incDepth : Tree → ℕ
  | leaf _ => 0
  | era => 0
  | inc b => b.incDepth + 1
  | sup l r => max l.incDepth r.incDepth

end Tree

/-- The heaps agree on the cells of a tree. -/
def SameCells (cells : Set ℕ) (h h' : Heap) : Prop := ∀ c ∈ cells, h' c = h c

/-- Readback of `t` returns `v` and leaves the cells alone, whatever happened elsewhere. -/
def Settles (w : Readback) (cells : Set ℕ) (h : Heap) (t v : Term) : Prop :=
  ∀ h', SameCells cells h h' → (cnf w t h').1 = v ∧ SameCells cells h (cnf w t h').2

theorem Settles.cnf_eq {w : Readback} {cells : Set ℕ} {h h' : Heap} {t v : Term}
    (hv : Settles w cells h t v) (hsame : SameCells cells h h') :
    ∃ h'', cnf w t h' = (v, h'') ∧ SameCells cells h h'' :=
  ⟨_, Prod.ext (hv h' hsame).1 rfl, (hv h' hsame).2⟩

/-- Term `t` is the root of a finite tree with these cells. -/
inductive Unfolds (w : Readback) (cells : Set ℕ) (h : Heap) : Term → Tree → Prop
  | leaf {t v : Term} (hv : Settles w cells h t v) (hsup : v.tag ≠ .sup) (hera : v.tag ≠ .era)
      (hinc : v.tag ≠ .inc) : Unfolds w cells h t (.leaf v)
  | era {t v : Term} (hv : Settles w cells h t v) (hera : v.tag = .era) : Unfolds w cells h t .era
  | inc {t v : Term} {b : Tree} (hv : Settles w cells h t v) (hinc : v.tag = .inc)
      (hc : v.val ∈ cells) (hb : Unfolds w cells h (h v.val) b) : Unfolds w cells h t (.inc b)
  | sup {t v : Term} {l r : Tree} (hv : Settles w cells h t v) (hsup : v.tag = .sup)
      (hcl : v.val ∈ cells) (hcr : v.val + 1 ∈ cells) (hl : Unfolds w cells h (h v.val) l)
      (hr : Unfolds w cells h (h (v.val + 1)) r) : Unfolds w cells h t (.sup l r)

/-- A reducer that leaves every term as it is: enough for trees over numbers. -/
def idle : Readback where
  wnf t h := (t, h)
  cnfDp t h := (t, h)
  cnfLam t h := (t, h)
  cnfCtr t h := (t, h)
  cnfNode2 t h := (t, h)

theorem cnf_idle (t : Term) (h : Heap) : cnf idle t h = (t, h) := by
  obtain ⟨sub, tag, ext, val⟩ := t
  cases tag <;> simp [cnf, idle] <;> exact ite_self _

theorem settles_idle (cells : Set ℕ) (h : Heap) (t : Term) : Settles idle cells h t t := by
  intro h' hsame
  rw [cnf_idle]
  exact ⟨rfl, hsame⟩

theorem SameCells.trans {cells : Set ℕ} {h h' h'' : Heap} (h1 : SameCells cells h h')
    (h2 : SameCells cells h' h'') : SameCells cells h h'' := fun c hc ↦
  (h2 c hc).trans (h1 c hc)

theorem SameCells.refl (cells : Set ℕ) (h : Heap) : SameCells cells h h := fun _ _ ↦ rfl

end Thvm.Collapse

/-!
## Best-first search of a superposition tree

The order in which a queue with stable priorities visits the leaves, without arrays,
sequence numbers or bounds.
-/

namespace Thvm.Collapse

open Priority

/-- A subtree that waits, with the largest key on the path to it. -/
structure Pending where
  tree : Tree
  peak : ℕ

/-- Always take the entry of the least key, the first one among equals: superpositions put
their branches one key later, wrappers their body one key sooner. Found leaves come with the
largest key on their path. -/
inductive Search : List (Pending × ℕ) → List (Term × ℕ) → Prop
  | done : Search [] []
  | leaf {v : Term} {p k : ℕ} {q : List (Pending × ℕ)} {out : List (Term × ℕ)}
      (h : Search q out) : Search ((⟨.leaf v, p⟩, k) :: q) ((v, p) :: out)
  | era {p k : ℕ} {q : List (Pending × ℕ)} {out : List (Term × ℕ)} (h : Search q out) :
      Search ((⟨.era, p⟩, k) :: q) out
  | inc {b : Tree} {p k : ℕ} {q : List (Pending × ℕ)} {out : List (Term × ℕ)}
      (h : Search (enqueue ⟨b, p⟩ (k - 1) q) out) : Search ((⟨.inc b, p⟩, k) :: q) out
  | sup {l r : Tree} {p k : ℕ} {q : List (Pending × ℕ)} {out : List (Term × ℕ)}
      (h : Search (enqueue ⟨r, max p (k + 1)⟩ (k + 1) (enqueue ⟨l, max p (k + 1)⟩ (k + 1) q)) out) :
      Search ((⟨.sup l r, p⟩, k) :: q) out

namespace Tree

/-- The leaves with the largest key on their path, from key `k` and largest key `p` on. -/
def peaks (k p : ℕ) : Tree → List (Term × ℕ)
  | leaf v => [(v, p)]
  | era => []
  | inc b => b.peaks (k - 1) p
  | sup l r => l.peaks (k + 1) (max p (k + 1)) ++ r.peaks (k + 1) (max p (k + 1))

/-- The leaves with their own keys. -/
def keys (k : ℕ) : Tree → List (Term × ℕ)
  | leaf v => [(v, k)]
  | era => []
  | inc b => b.keys (k - 1)
  | sup l r => l.keys (k + 1) ++ r.keys (k + 1)

def nodes : Tree → ℕ
  | leaf _ => 1
  | era => 1
  | inc b => b.nodes + 1
  | sup l r => l.nodes + r.nodes + 1

def IncFree : Tree → Prop
  | leaf _ => True
  | era => True
  | inc _ => False
  | sup l r => l.IncFree ∧ r.IncFree

/-- Without wrappers the largest key is the last one. -/
theorem peaks_eq_keys {T : Tree} (h : T.IncFree) (k : ℕ) : T.peaks k k = T.keys k := by
  induction T generalizing k with
  | leaf v => rfl
  | era => rfl
  | inc b => cases h
  | sup l r ihl ihr =>
    have hmax : max k (k + 1) = k + 1 := by omega
    rw [peaks, keys, hmax, ihl h.1, ihr h.2]

end Tree

def Pending.peaks (e : Pending × ℕ) : List (Term × ℕ) := e.1.tree.peaks e.2 e.1.peak

def queueNodes (q : List (Pending × ℕ)) : ℕ := (q.map fun e ↦ e.1.tree.nodes).sum

theorem queueNodes_enqueue (e : Pending) (k : ℕ) (q : List (Pending × ℕ)) :
    queueNodes (enqueue e k q) = e.tree.nodes + queueNodes q := by
  rw [queueNodes, ((enqueue_perm e k q).map _).sum_eq]
  rfl

/-- A search ends: every round takes a node out of the queue. -/
theorem exists_search (q : List (Pending × ℕ)) : ∃ out, Search q out := by
  induction hn : queueNodes q using Nat.strong_induction_on generalizing q with
  | _ n ih =>
    cases q with
    | nil => exact ⟨[], .done⟩
    | cons e q =>
      obtain ⟨⟨T, p⟩, k⟩ := e
      have hcons : queueNodes ((⟨T, p⟩, k) :: q) = T.nodes + queueNodes q := rfl
      cases T with
      | leaf v =>
        obtain ⟨out, h⟩ := ih _ (by rw [← hn, hcons, Tree.nodes]; omega) q rfl
        exact ⟨_, .leaf h⟩
      | era =>
        obtain ⟨out, h⟩ := ih _ (by rw [← hn, hcons, Tree.nodes]; omega) q rfl
        exact ⟨_, .era h⟩
      | inc b =>
        have hq : queueNodes (enqueue ⟨b, p⟩ (k - 1) q) = b.nodes + queueNodes q :=
          queueNodes_enqueue _ _ _
        obtain ⟨out, h⟩ := ih _ (by rw [hq, ← hn, hcons, Tree.nodes]; omega) _ rfl
        exact ⟨_, .inc h⟩
      | sup l r =>
        have hq : queueNodes (enqueue ⟨r, max p (k + 1)⟩ (k + 1)
            (enqueue ⟨l, max p (k + 1)⟩ (k + 1) q)) = r.nodes + (l.nodes + queueNodes q) := by
          rw [queueNodes_enqueue, queueNodes_enqueue]
        obtain ⟨out, h⟩ := ih _ (by rw [hq, ← hn, hcons, Tree.nodes]; omega) _ rfl
        exact ⟨_, .sup h⟩

theorem flatMap_enqueue (e : Pending) (k : ℕ) (q : List (Pending × ℕ)) :
    ((enqueue e k q).flatMap Pending.peaks).Perm
      (e.tree.peaks k e.peak ++ q.flatMap Pending.peaks) :=
  (enqueue_perm e k q).flatMap_right _

/-- A search finds every leaf once. -/
theorem Search.perm {q : List (Pending × ℕ)} {out : List (Term × ℕ)} (h : Search q out) :
    out.Perm (q.flatMap Pending.peaks) := by
  induction h with
  | done => exact .refl _
  | leaf _ ih => exact ih.cons _
  | era _ ih => exact ih
  | inc _ ih => exact ih.trans (flatMap_enqueue _ _ _)
  | @sup l r p k q out _ ih =>
    refine ih.trans ((flatMap_enqueue _ _ _).trans
      (((flatMap_enqueue _ _ _).append_left _).trans ?_))
    rw [List.flatMap_cons, Pending.peaks, Tree.peaks, ← List.append_assoc]
    exact List.perm_append_comm.append_right _

/-- The entries of a queue in order, when keys up to `floor` have been taken. -/
structure Ordered (floor : ℕ) (q : List (Pending × ℕ)) : Prop where
  sorted : q.Pairwise fun x y ↦ x.2 ≤ y.2
  key_le : ∀ e ∈ q, e.2 ≤ e.1.peak
  floor_le : ∀ e ∈ q, floor ≤ e.1.peak
  le_max : ∀ e ∈ q, e.1.peak ≤ max floor e.2

variable {floor k : ℕ} {e : Pending} {q : List (Pending × ℕ)}

theorem Ordered.enqueue (h : Ordered floor q) (hk : k ≤ e.peak) (hf : floor ≤ e.peak)
    (hmax : e.peak ≤ max floor k) : Ordered floor (enqueue e k q) where
  sorted := enqueue_pairwise h.sorted
  key_le x hx := by
    rcases mem_enqueue.1 hx with rfl | hx
    · exact hk
    · exact h.key_le x hx
  floor_le x hx := by
    rcases mem_enqueue.1 hx with rfl | hx
    · exact hf
    · exact h.floor_le x hx
  le_max x hx := by
    rcases mem_enqueue.1 hx with rfl | hx
    · exact hmax
    · exact h.le_max x hx

/-- The key of the entry that is taken raises the floor. -/
theorem Ordered.tail (h : Ordered floor ((e, k) :: q)) : Ordered (max floor k) q where
  sorted := (List.pairwise_cons.1 h.sorted).2
  key_le x hx := h.key_le x (List.mem_cons_of_mem _ hx)
  floor_le x hx := by
    have h1 := h.floor_le x (List.mem_cons_of_mem _ hx)
    have h2 := h.key_le x (List.mem_cons_of_mem _ hx)
    have h3 : k ≤ x.2 := (List.pairwise_cons.1 h.sorted).1 x hx
    omega
  le_max x hx := by
    have := h.le_max x (List.mem_cons_of_mem _ hx)
    omega

/-- The leaves come in the order of the largest keys on their paths. -/
theorem Search.sorted {q : List (Pending × ℕ)} {out : List (Term × ℕ)} (h : Search q out)
    {floor : ℕ} (ho : Ordered floor q) :
    out.Pairwise (fun x y ↦ x.2 ≤ y.2) ∧ ∀ x ∈ out, floor ≤ x.2 := by
  induction h generalizing floor with
  | done => exact ⟨.nil, by simp⟩
  | @leaf v p k q out _ ih =>
    obtain ⟨hsorted, hfloor⟩ := ih ho.tail
    have hle : p ≤ max floor k := ho.le_max _ List.mem_cons_self
    have hge : floor ≤ p := ho.floor_le _ List.mem_cons_self
    refine ⟨List.pairwise_cons.2 ⟨fun x hx ↦ hle.trans (hfloor x hx), hsorted⟩, fun x hx ↦ ?_⟩
    rcases List.mem_cons.1 hx with rfl | hx
    · exact hge
    · exact (le_max_left _ _).trans (hfloor x hx)
  | era _ ih =>
    obtain ⟨hsorted, hfloor⟩ := ih ho.tail
    exact ⟨hsorted, fun x hx ↦ (le_max_left _ _).trans (hfloor x hx)⟩
  | @inc b p k q out _ ih =>
    have hk : k ≤ p := ho.key_le _ List.mem_cons_self
    have hge : floor ≤ p := ho.floor_le _ List.mem_cons_self
    have hle : p ≤ max floor k := ho.le_max _ List.mem_cons_self
    obtain ⟨hsorted, hfloor⟩ := ih (ho.tail.enqueue (show k - 1 ≤ p by omega)
      (show max floor k ≤ p by omega) (show p ≤ max (max floor k) (k - 1) by omega))
    exact ⟨hsorted, fun x hx ↦ (le_max_left _ _).trans (hfloor x hx)⟩
  | @sup l r p k q out _ ih =>
    have hk : k ≤ p := ho.key_le _ List.mem_cons_self
    have hge : floor ≤ p := ho.floor_le _ List.mem_cons_self
    have hle : p ≤ max floor k := ho.le_max _ List.mem_cons_self
    have hkey : k + 1 ≤ max p (k + 1) := by omega
    have hfl : max floor k ≤ max p (k + 1) := by omega
    have hmax : max p (k + 1) ≤ max (max floor k) (k + 1) := by omega
    obtain ⟨hsorted, hfloor⟩ := ih ((ho.tail.enqueue hkey hfl hmax).enqueue hkey hfl hmax)
    exact ⟨hsorted, fun x hx ↦ (le_max_left _ _).trans (hfloor x hx)⟩

end Thvm.Collapse
