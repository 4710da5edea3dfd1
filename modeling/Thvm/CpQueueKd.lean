import Thvm.CpQueueSteps
import Thvm.TreeHeaps

/-!
# The two-dimensional heap of the queue

Nodes at even levels are ordered by priority and age, nodes at odd levels by age alone. The
insertion walks down from the root to the new node, the deletion repairs the path to the slot
that was filled and then what is under it. Every operation of the queue that changes keys
uses one of these repairs but the one that gives new priorities by age.
-/

namespace Thvm

namespace Atp

namespace CpQueue

variable {P : Type}

/-- The priority and the age of node `m`. -/
def keyNode (s : Queue P) : ℕ → ℕ × ℕ
  | 0 => (0, 0)
  | m + 1 => (s.pri m, s.seq m)

/-- `EL_GREATER(d)` on keys. -/
def dimGt (d : ℕ) (a b : ℕ × ℕ) : Bool :=
  if d = 0 then if a.1 ≠ b.1 then a.1 > b.1 else a.2 > b.2 else a.2 > b.2

/-- The dimension of a node is the parity of its level. -/
def kdGt (i : ℕ) : ℕ × ℕ → ℕ × ℕ → Bool := dimGt (Nat.log2 i % 2)

theorem dimGt_eq_false {d : ℕ} {a b : ℕ × ℕ} : dimGt d a b = false ↔
    if d = 0 then a.1 < b.1 ∨ a.1 = b.1 ∧ a.2 ≤ b.2 else a.2 ≤ b.2 := by
  unfold dimGt
  split
  · split
    · rw [decide_eq_false_iff_not]
      omega
    · rw [decide_eq_false_iff_not]
      omega
  · rw [decide_eq_false_iff_not]
    omega

theorem dimGt_total (d : ℕ) (a b : ℕ × ℕ) (h : dimGt d a b = true) : dimGt d b a = false := by
  rw [dimGt_eq_false]
  unfold dimGt at h
  split
  · rename_i hd
    rw [if_pos hd] at h
    split at h
    · have := of_decide_eq_true h
      omega
    · have := of_decide_eq_true h
      omega
  · rename_i hd
    rw [if_neg hd] at h
    have := of_decide_eq_true h
    omega

theorem dimGt_trans (d : ℕ) (a b c : ℕ × ℕ) (hab : dimGt d a b = false)
    (hbc : dimGt d b c = false) : dimGt d a c = false := by
  rw [dimGt_eq_false] at hab hbc ⊢
  split
  · rename_i hd
    rw [if_pos hd] at hab hbc
    omega
  · rename_i hd
    rw [if_neg hd] at hab hbc
    omega

theorem nodeOrder_kdGt : NodeOrder kdGt where
  total _ a b := dimGt_total _ a b
  trans _ a b c := dimGt_trans _ a b c

theorem atpKdhGt_eq (s : Queue P) (d : ℕ) {a b : ℕ} (ha : 0 < a) (hb : 0 < b) :
    atpKdhGt s d a b = dimGt d (keyNode s a) (keyNode s b) := by
  obtain ⟨a, rfl⟩ : ∃ a', a = a' + 1 := ⟨a - 1, by omega⟩
  obtain ⟨b, rfl⟩ : ∃ b', b = b' + 1 := ⟨b - 1, by omega⟩
  rfl

theorem keyNode_swap (s : Queue P) {a b : ℕ} (ha : 0 < a) (hb : 0 < b) :
    keyNode (atpCpSwap s (a - 1) (b - 1)) = swapAt (keyNode s) a b := by
  obtain ⟨a, rfl⟩ : ∃ a', a = a' + 1 := ⟨a - 1, by omega⟩
  obtain ⟨b, rfl⟩ : ∃ b', b = b' + 1 := ⟨b - 1, by omega⟩
  funext m
  cases m with
  | zero => rfl
  | succ m =>
    simp only [keyNode, atpCpSwap, swapCol, swapAt, Nat.add_sub_cancel, Nat.add_right_cancel_iff]
    split
    · rfl
    · split
      · rfl
      · rfl

theorem log2_div {x k : ℕ} (h : 0 < x / 2 ^ (k + 1)) :
    Nat.log2 (x / 2 ^ k) = Nat.log2 (x / 2 ^ (k + 1)) + 1 := by
  have hdiv : x / 2 ^ k / 2 = x / 2 ^ (k + 1) := by rw [Nat.div_div_eq_div_mul, ← Nat.pow_succ]
  rw [← hdiv] at h ⊢
  rw [Nat.log2_def, if_pos (by omega)]

/-! ## Up -/

variable {s : Queue P} {n x k d : ℕ}

theorem atpKdhDmodk_eq (h : d < 4) : atpKdhDmodk d = d % 2 := by
  unfold atpKdhDmodk
  split <;> omega

@[simp] theorem nCps_normalizeUp (s : Queue P) (x k d : ℕ) :
    (atpKdhNormalizeUp s x k d).nCps = s.nCps := by
  induction k generalizing s d with
  | zero => rfl
  | succ k ih =>
    rw [atpKdhNormalizeUp, ih]
    split <;> rfl

/-- The walk from an ancestor down leaves the node in order with everything over it. -/
theorem normalizeUp_sinking (hx : 0 < x) (hn : x ≤ n) (hk : k = 0 ∨ 0 < x / 2 ^ k) (hd : d < 4)
    (hdim : d % 2 = Nat.log2 (x / 2 ^ k) % 2) (h : Settling kdGt (keyNode s) n x k) :
    Sinking kdGt (keyNode (atpKdhNormalizeUp s x k d)) n 1 x := by
  induction k generalizing s d with
  | zero => exact h.sinking
  | succ k ih =>
    have hp : 0 < x / 2 ^ (k + 1) := hk.resolve_left (Nat.succ_ne_zero k)
    have hlog := log2_div hp
    have hd' : atpKdhDmodk d = Nat.log2 (x / 2 ^ (k + 1)) % 2 := by rw [atpKdhDmodk_eq hd, hdim]
    have hup : 0 < x / 2 ^ k := by
      rw [Nat.pow_succ, ← Nat.div_div_eq_div_mul] at hp
      omega
    rw [atpKdhNormalizeUp]
    have hgt := atpKdhGt_eq s (atpKdhDmodk d) hp hx
    rw [hd'] at hgt ⊢
    refine ih (.inr hup) (by omega) (by omega) ?_
    split
    · rename_i hswap
      rw [hswap] at hgt
      rw [keyNode_swap s hp hx]
      exact h.swap nodeOrder_kdGt hp hn hgt.symm
    · rename_i hskip
      rw [Bool.not_eq_true] at hskip
      rw [hskip] at hgt
      exact h.skip hgt.symm

/-- From the root down. -/
theorem normalizeUp_root (hx : 0 < x) (hn : x ≤ n)
    (h : ∀ i j, Under i j → j ≤ n → i ≠ x → j ≠ x → InOrder kdGt (keyNode s) i j) :
    Sinking kdGt (keyNode (atpKdhNormalizeUp s x (atpKdhLevel x) 0)) n 1 x := by
  have hroot : x / 2 ^ atpKdhLevel x = 1 := by
    have hle : 2 ^ Nat.log2 x ≤ x := Nat.log2_self_le (by omega)
    have hlt : x < 2 ^ (Nat.log2 x + 1) := Nat.lt_log2_self
    rw [atpKdhLevel]
    rw [Nat.pow_succ] at hlt
    exact Nat.div_eq_of_lt_le (by omega) (by omega)
  refine normalizeUp_sinking hx hn (.inr (by omega)) (by decide) ?_
    (settling_root (by omega) h)
  rw [hroot]
  rfl

/-- An insertion at the end. -/
theorem normalizeUp_insert (h : IsHeap kdGt (keyNode s) n) :
    IsHeap kdGt (keyNode (atpKdhNormalizeUp s (n + 1) (atpKdhLevel (n + 1)) 0)) (n + 1) := by
  refine Sinking.stop (normalizeUp_root (Nat.succ_pos n) (Nat.le_refl _) ?_) fun j hj hjn => ?_
  · intro i j hij hj hi hjx
    exact h i j hij.pos hij (by omega)
  · have := hj.lt
    omega

/-! ## Down -/

/-- Ascending candidates up to the end of the queue: the least one is found. -/
theorem kdhFindMinIn_spec {l : List (ℕ × ℕ)} (hsorted : l.Pairwise fun a b => a.2 ≤ b.2)
    (hpos : ∀ c ∈ l, 0 < c.2) {best : ℕ × ℕ} (hbest : 0 < best.1) :
    let m := kdhFindMinIn s d l best
    (∀ c ∈ l, c.2 ≤ s.nCps → dimGt d (keyNode s m.1) (keyNode s c.2) = false) ∧
      (m = best ∨ (m.2, m.1) ∈ l ∧ m.1 ≤ s.nCps ∧
        dimGt d (keyNode s best.1) (keyNode s m.1) = true) ∧
      dimGt d (keyNode s m.1) (keyNode s best.1) = false := by
  have hrefl : ∀ a, dimGt d a a = false := by
    intro a
    rw [dimGt_eq_false]
    split <;> simp
  induction l generalizing best with
  | nil => exact ⟨fun c hc => (List.not_mem_nil hc).elim, .inl rfl, hrefl _⟩
  | cons c rest ih =>
    obtain ⟨ld, j⟩ := c
    obtain ⟨hfirst, hrest⟩ := List.pairwise_cons.mp hsorted
    have hj := hpos (ld, j) List.mem_cons_self
    have hposrest := fun c hc => hpos c (List.mem_cons_of_mem _ hc)
    rw [kdhFindMinIn]
    split
    · rename_i hend
      refine ⟨fun c hc hcn => ?_, .inl rfl, hrefl _⟩
      rcases List.mem_cons.mp hc with rfl | hc
      · exact absurd hcn (by simpa using hend)
      · have := hfirst c hc
        simp only at this
        omega
    · rename_i hin
      rw [atpKdhGt_eq s d hbest hj]
      split
      · rename_i hgt
        obtain ⟨hleast, hm, hle⟩ := ih hrest hposrest (show 0 < ((j, ld) : ℕ × ℕ).1 from hj)
        refine ⟨fun c hc hcn => ?_, ?_, dimGt_trans _ _ _ _ hle (dimGt_total _ _ _ hgt)⟩
        · rcases List.mem_cons.mp hc with rfl | hc
          · exact hle
          · exact hleast c hc hcn
        · rcases hm with hm | ⟨hm, hmn, hmgt⟩
          · rw [hm]
            exact .inr ⟨List.mem_cons_self, by simpa using hin, hgt⟩
          · refine .inr ⟨List.mem_cons_of_mem _ hm, hmn, ?_⟩
            by_contra hnot
            rw [Bool.not_eq_true] at hnot
            have hback := dimGt_trans _ _ _ _ hnot hle
            rw [hback] at hgt
            cases hgt
      · rename_i hgt
        rw [Bool.not_eq_true] at hgt
        obtain ⟨hleast, hm, hle⟩ := ih hrest hposrest hbest
        refine ⟨fun c hc hcn => ?_, ?_, hle⟩
        · rcases List.mem_cons.mp hc with rfl | hc
          · exact dimGt_trans _ _ _ _ hle hgt
          · exact hleast c hc hcn
        · exact hm.imp_right fun ⟨hm, hmn, hmgt⟩ => ⟨List.mem_cons_of_mem _ hm, hmn, hmgt⟩

theorem kdhNear_one {x : ℕ} (hx : x < 2 ^ 30) :
    kdhNear x 1 = [(1, 2 * x), (1, 2 * x + 1)] := by
  have hlist : kdhNear x 1 = [(1, (x * 2 + 0) % 2 ^ 32), (1, (x * 2 + 1) % 2 ^ 32)] := rfl
  have h₀ : (x * 2 + 0) % 2 ^ 32 = 2 * x := by omega
  have h₁ : (x * 2 + 1) % 2 ^ 32 = 2 * x + 1 := by omega
  rw [hlist, h₀, h₁]

/-- The candidates of a repair, while the numbers of the nodes do not wrap. -/
theorem kdhNear_two {x : ℕ} (hx : x < 2 ^ 30) :
    kdhNear x 2 = [(1, 2 * x), (1, 2 * x + 1), (2, 4 * x), (2, 4 * x + 1), (2, 4 * x + 2),
      (2, 4 * x + 3)] := by
  have hlist : kdhNear x 2 = [(1, (x * 2 + 0) % 2 ^ 32), (1, (x * 2 + 1) % 2 ^ 32),
      (2, (x * 4 + 0) % 2 ^ 32), (2, (x * 4 + 1) % 2 ^ 32), (2, (x * 4 + 2) % 2 ^ 32),
      (2, (x * 4 + 3) % 2 ^ 32)] := rfl
  have h₀ : (x * 2 + 0) % 2 ^ 32 = 2 * x := by omega
  have h₁ : (x * 2 + 1) % 2 ^ 32 = 2 * x + 1 := by omega
  have h₂ : (x * 4 + 0) % 2 ^ 32 = 4 * x := by omega
  have h₃ : (x * 4 + 1) % 2 ^ 32 = 4 * x + 1 := by omega
  have h₄ : (x * 4 + 2) % 2 ^ 32 = 4 * x + 2 := by omega
  have h₅ : (x * 4 + 3) % 2 ^ 32 = 4 * x + 3 := by omega
  rw [hlist, h₀, h₁, h₂, h₃, h₄, h₅]

/-- The least of a node, its children and its grandchildren, and how far down it is. -/
theorem atpKdhFindMin_spec (hx : 0 < x) (hn : x < 2 ^ 30) :
    let m := atpKdhFindMin s x d 2
    (∀ c, c / 2 = x ∨ c / 2 / 2 = x → c ≤ s.nCps →
      dimGt d (keyNode s m.1) (keyNode s c) = false) ∧
      (m.1 = x ∨ (m.1 / 2 = x ∧ m.2 = 1 ∨ m.1 / 2 / 2 = x ∧ m.2 = 2) ∧ m.1 ≤ s.nCps ∧
        dimGt d (keyNode s x) (keyNode s m.1) = true) := by
  have hspec := kdhFindMinIn_spec (s := s) (d := d) (l := kdhNear x 2)
    (by rw [kdhNear_two hn]; simp; omega) (by rw [kdhNear_two hn]; simp; omega)
    (show 0 < ((x, 0) : ℕ × ℕ).1 from hx)
  obtain ⟨hleast, hm, -⟩ := hspec
  refine ⟨fun c hc hcn => ?_, ?_⟩
  · have hmem : ∃ ld, (ld, c) ∈ kdhNear x 2 := by
      rw [kdhNear_two hn]
      rcases hc with hc | hc
      · exact ⟨1, by simp; omega⟩
      · exact ⟨2, by simp; omega⟩
    obtain ⟨ld, hmem⟩ := hmem
    exact hleast (ld, c) hmem hcn
  · rcases hm with hm | ⟨hm, hmn, hgt⟩
    · exact .inl (congrArg Prod.fst hm)
    · refine .inr ⟨?_, hmn, hgt⟩
      change ((atpKdhFindMin s x d 2).2, (atpKdhFindMin s x d 2).1) ∈ _ at hm
      rw [kdhNear_two hn] at hm
      simp only [List.mem_cons, Prod.mk.injEq, List.not_mem_nil, or_false] at hm
      omega

theorem kdGt_parity {i j : ℕ} (h : Nat.log2 i % 2 = Nat.log2 j % 2) : kdGt i = kdGt j := by
  rw [kdGt, kdGt, h]

theorem log2_child {c x : ℕ} (hx : 0 < x) (h : c / 2 = x) : Nat.log2 c = Nat.log2 x + 1 := by
  rw [Nat.log2_def, if_pos (by omega), h]

theorem log2_grandchild {c x : ℕ} (hx : 0 < x) (h : c / 2 / 2 = x) :
    Nat.log2 c = Nat.log2 x + 2 := by
  rw [log2_child (by omega : 0 < c / 2) rfl, log2_child hx h]

@[simp] theorem nCps_normalizeDownFrom (rounds : ℕ) (s : Queue P) (x d : ℕ) :
    (kdhNormalizeDownFrom rounds s x d).nCps = s.nCps := by
  induction rounds generalizing s x d with
  | zero => rfl
  | succ rounds ih =>
    rw [kdhNormalizeDownFrom]
    split
    · rfl
    · rw [ih, nCps_normalizeUp]
      rfl

/-- The repair of what is under a node: the hole goes down one or two levels a round. -/
theorem normalizeDownFrom_heap (hlen : s.nCps < 2 ^ 30) (rounds : ℕ) (hx : 0 < x)
    (hn : x ≤ s.nCps) (hrounds : s.nCps + 1 ≤ rounds + x) (hd : d = Nat.log2 x % 2)
    (h : Sinking kdGt (keyNode s) s.nCps 1 x) :
    IsHeap kdGt (keyNode (kdhNormalizeDownFrom rounds s x d)) s.nCps := by
  induction rounds generalizing s x d with
  | zero => omega
  | succ rounds ih =>
    obtain ⟨hnear, hm⟩ := atpKdhFindMin_spec (s := s) (d := d) hx (by omega)
    rw [kdhNormalizeDownFrom]
    generalize hmin : (atpKdhFindMin s x d 2).1 = m at hnear hm
    generalize hlev : (atpKdhFindMin s x d 2).2 = lev at hm
    have hkd : kdGt x = dimGt d := by rw [kdGt, hd]
    have hgrand : ∀ c, c / 2 / 2 = x → kdGt c = kdGt x := fun c hc =>
      kdGt_parity (by rw [log2_grandchild hx hc]; omega)
    have hleast : ∀ j, Under x j → j ≤ s.nCps →
        kdGt x (keyNode s m) (keyNode s j) = false := by
      intro j hxj hj
      refine h.least_of_grandchildren nodeOrder_kdGt hx hx hgrand ?_ hxj hj
      rwa [hkd]
    split
    · rename_i hmx
      subst hmx
      exact h.stop hleast
    · rename_i hmx
      obtain ⟨hwhere, hmn, hgt⟩ := hm.resolve_left hmx
      rw [← hkd] at hgt
      have hmpos : 0 < m := by omega
      have hswap : keyNode (atpCpSwap s (m - 1) (x - 1)) = swapAt (keyNode s) x m := by
        rw [keyNode_swap s hmpos hx]
        funext i
        unfold swapAt
        split
        · split
          · rename_i h₁ h₂
            rw [← h₁, h₂]
          · rfl
        · rfl
      rcases hwhere with ⟨hchild, rfl⟩ | ⟨hchild, rfl⟩
      · have hlog := log2_child hx hchild
        refine ih hlen hmpos hmn ?_ ?_ ?_
        · rw [nCps_normalizeUp, nCps_atpCpSwap]
          omega
        · rw [atpKdhDmodk_eq (by omega)]
          omega
        · change Sinking kdGt (keyNode (atpCpSwap s (m - 1) (x - 1))) s.nCps 1 m
          rw [hswap]
          exact h.swap_child nodeOrder_kdGt hchild hx hmn hgt hleast
      · have hlog := log2_grandchild hx hchild
        have hparent := log2_child (by omega : 0 < m / 2) (rfl : m / 2 = m / 2)
        have hlen' : (atpKdhNormalizeUp (atpCpSwap s (m - 1) (x - 1)) m (2 - 1) (d + 1)).nCps =
            s.nCps := nCps_normalizeUp _ _ _ _
        rw [← hlen'] at hlen hmn hrounds ⊢
        refine ih hlen hmpos hmn (by omega) ?_ ?_
        · rw [atpKdhDmodk_eq (by omega)]
          omega
        · rw [hlen'] at hmn ⊢
          refine normalizeUp_sinking hmpos hmn (.inr (by omega)) (by omega) ?_ ?_
          · rw [Nat.pow_one]
            omega
          · rw [hswap]
            exact h.swap_grandchild nodeOrder_kdGt hchild hx hmn hgt hleast

/-! ## The operations of the queue -/

/-- Every node at an even level is least in priority and age, every node at an odd level least
in age, in the tree under it. -/
def KdOrdered (s : Queue P) : Prop := IsHeap kdGt (keyNode s) s.nCps

theorem keyNode_congr {s' : Queue P} (hpri : s'.pri = s.pri) (hseq : s'.seq = s.seq) :
    keyNode s' = keyNode s := by
  funext m
  cases m with
  | zero => rfl
  | succ m => rw [keyNode, keyNode, hpri, hseq]

theorem KdOrdered.congr {s' : Queue P} (h : KdOrdered s) (hn : s'.nCps = s.nCps)
    (hpri : s'.pri = s.pri) (hseq : s'.seq = s.seq) : KdOrdered s' := by
  rw [KdOrdered, keyNode_congr hpri hseq, hn]
  exact h

/-- With one pair there is nothing to order. -/
theorem kdOrdered_of_le_one (h : s.nCps ≤ 1) : KdOrdered s := heapFrom_half (by omega)

@[simp] theorem nCps_kdhBuildTo (s : Queue P) (n : ℕ) : (kdhBuildTo s n).nCps = s.nCps := by
  induction n with
  | zero => rfl
  | succ n ih => rw [kdhBuildTo, nCps_normalizeUp, ih]

theorem kdhBuildTo_heap (s : Queue P) (n : ℕ) : IsHeap kdGt (keyNode (kdhBuildTo s n)) n := by
  induction n with
  | zero => exact heapFrom_half (by omega)
  | succ n ih => exact normalizeUp_insert ih

variable {cfg : Config} {w : World P} {j : ℕ}

theorem kdOrdered_reorder (hkd : cfg.kdheap = true) (s : Queue P) : KdOrdered (reorder cfg s) := by
  rw [reorder, if_pos hkd, atpKdhBuild, KdOrdered, nCps_kdhBuildTo]
  exact kdhBuildTo_heap s s.nCps

theorem nCps_reorder (hkd : cfg.kdheap = true) (s : Queue P) : (reorder cfg s).nCps = s.nCps := by
  rw [reorder, if_pos hkd, atpKdhBuild, nCps_kdhBuildTo]

theorem kdOrdered_push (hkd : cfg.kdheap = true) (p : Push P) (h : KdOrdered s) :
    KdOrdered (atpCpPush cfg p s) := by
  rw [atpCpPush]
  simp only [hkd, if_true]
  rw [atpKdhInsert, KdOrdered, nCps_normalizeUp]
  refine normalizeUp_insert (HeapFrom.congr h fun m hm hmn => ?_)
  obtain ⟨m, rfl⟩ : ∃ m', m = m' + 1 := ⟨m - 1, by omega⟩
  have hne : m ≠ s.nCps := by omega
  simp [keyNode, writeSlot, setCol, hne]

/-- Off the slot that is filled, the keys stay. -/
theorem keyNode_dropSlot (s : Queue P) (j : ℕ) {m : ℕ} (hm : 0 < m) (hne : m ≠ j + 1) :
    keyNode (dropSlot s j) m = keyNode s m := by
  obtain ⟨m, rfl⟩ : ∃ m', m = m' + 1 := ⟨m - 1, by omega⟩
  have hne' : m ≠ j := by omega
  unfold dropSlot
  split
  · simp [keyNode, backfill, emptySlot, setCol, hne']
  · rfl

@[simp] theorem nCps_repair (hkd : cfg.kdheap = true) (s : Queue P) (j : ℕ) :
    (repair cfg s j).nCps = s.nCps := by
  rw [repair, if_pos hkd]
  split
  · rw [atpKdhDeleteRepair, atpKdhNormalizeDown, nCps_normalizeDownFrom,
      nCps_normalizeUp]
  · rfl

/-- An extraction: up from the root to the slot that is filled, then down from it. -/
theorem kdOrdered_extract (hkd : cfg.kdheap = true) (hlen : s.nCps < 2 ^ 30) (hj : j < s.nCps)
    (h : KdOrdered s) : KdOrdered (repair cfg (dropSlot s j) j) := by
  have hoff : ∀ i j', Under i j' → j' ≤ s.nCps - 1 → i ≠ j + 1 → j' ≠ j + 1 →
      InOrder kdGt (keyNode (dropSlot s j)) i j' := fun i j' hij hj' hi hjx =>
    HeapFrom.hole h (Nat.sub_le _ _) (fun m _ hm hne => keyNode_dropSlot s j hm hne) hij hj' hi hjx
  rw [repair, if_pos hkd]
  split
  · rename_i hne
    rw [nCps_dropSlot] at hne
    have hn : j + 1 ≤ s.nCps - 1 := by omega
    rw [atpKdhDeleteRepair, atpKdhNormalizeDown, KdOrdered, nCps_normalizeDownFrom]
    refine normalizeDownFrom_heap ?_ _ (Nat.succ_pos j) ?_ ?_ ?_ ?_
    · rw [nCps_normalizeUp, nCps_dropSlot]
      omega
    · rw [nCps_normalizeUp, nCps_dropSlot]
      exact hn
    · omega
    · rw [atpKdhLevel]
      split
      · omega
      · rfl
    · rw [nCps_normalizeUp, nCps_dropSlot]
      exact normalizeUp_root (Nat.succ_pos j) hn hoff
  · rename_i hlast
    rw [nCps_dropSlot, not_not] at hlast
    intro i j' _ hij hj'
    rw [nCps_dropSlot] at hj'
    have hlt := hij.lt
    exact hoff i j' hij hj' (by omega) (by omega)

/-! ## Selection -/

/-- The least key of the queue in a dimension. -/
theorem KdOrdered.find_least (h : KdOrdered s) (hn : 0 < s.nCps) (hd : d < 2) :
    let m := (atpKdhFindMin s 1 d d).1
    0 < m ∧ m ≤ s.nCps ∧
      ∀ c, 0 < c → c ≤ s.nCps → dimGt d (keyNode s m) (keyNode s c) = false := by
  have hroot : ∀ c, 1 ≤ c → c = 1 ∨ Under 1 c := by
    intro c
    induction c using Nat.strongRecOn with
    | ind c ih =>
      intro hc
      by_cases hone : c = 1
      · exact .inl hone
      · refine .inr ?_
        rcases ih (c / 2) (by omega) (by omega) with hhalf | hhalf
        · exact .child Nat.one_pos hhalf
        · exact .deeper hhalf
  have hrefl : ∀ a, dimGt d a a = false := by
    intro a
    rw [dimGt_eq_false]
    split <;> simp
  rcases Nat.lt_or_ge d 1 with hd0 | hd1
  · obtain rfl : d = 0 := by omega
    refine ⟨Nat.one_pos, hn, fun c hc hcn => ?_⟩
    rcases hroot c hc with rfl | hunder
    · exact hrefl _
    · exact h 1 c (Nat.le_refl 1) hunder hcn
  · obtain rfl : d = 1 := by omega
    have hspec := kdhFindMinIn_spec (s := s) (d := 1) (l := kdhNear 1 1)
      (by rw [kdhNear_one (by decide)]; simp) (by rw [kdhNear_one (by decide)]; simp)
      (show 0 < ((1, 0) : ℕ × ℕ).1 from Nat.one_pos)
    rw [kdhNear_one (by decide : 1 < 2 ^ 30)] at hspec
    have hfind : kdhFindMinIn s 1 [(1, 2 * 1), (1, 2 * 1 + 1)] (1, 0) = atpKdhFindMin s 1 1 1 := by
      rw [atpKdhFindMin, kdhNear_one (by decide)]
    rw [hfind] at hspec
    obtain ⟨hnear, hm, hle⟩ := hspec
    refine ⟨?_, ?_, fun c hc hcn => ?_⟩
    · rcases hm with hm | ⟨hm, -, -⟩
      · rw [hm]
        exact Nat.one_pos
      · simp at hm
        omega
    · rcases hm with hm | ⟨-, hmn, -⟩
      · rw [hm]
        exact hn
      · exact hmn
    · rcases hroot c hc with rfl | hunder
      · exact hle
      · -- below the root the children are least in age
        obtain ⟨b, hb, hbc⟩ := hunder.step
        have hbn : b ≤ s.nCps := by
          rcases hbc with rfl | hbc
          · exact hcn
          · have := hbc.lt
            omega
        have hmb := hnear (1, b) (by simp; omega) hbn
        rcases hbc with rfl | hbc
        · exact hmb
        · have hkd : kdGt b = dimGt 1 := by
            rw [kdGt, log2_child Nat.one_pos (by omega : b / 2 = 1)]
            rfl
          have hbelow := h b c (by omega) hbc hcn
          rw [InOrder, hkd] at hbelow
          exact dimGt_trans _ _ _ _ hmb hbelow

/-- The slot that a selection takes is the least of the queue in its dimension. -/
structure SelectsLeast (cfg : Config) (w : World P) (s : Queue P) : Prop where
  inside : (pick cfg w s).1 < s.nCps
  weight : dimension cfg w s = .kdh 0 → ∀ i < s.nCps,
    s.pri (pick cfg w s).1 < s.pri i ∨
      s.pri (pick cfg w s).1 = s.pri i ∧ s.seq (pick cfg w s).1 ≤ s.seq i
  age : dimension cfg w s = .kdh 1 → ∀ i < s.nCps, s.seq (pick cfg w s).1 ≤ s.seq i

theorem KdOrdered.selectsLeast (hkd : cfg.kdheap = true) (w : World P) (h : KdOrdered s)
    (hn : 0 < s.nCps) : SelectsLeast cfg w s := by
  have hdim : ∃ d < 2, dimension cfg w s = .kdh d := by
    rw [dimension, if_pos hkd]
    split
    · exact ⟨1, by decide, rfl⟩
    · exact ⟨0, by decide, rfl⟩
  obtain ⟨d, hd, hdim⟩ := hdim
  have hpick : (pick cfg w s).1 = (atpKdhFindMin s 1 d d).1 - 1 := by rw [pick, hdim]
  obtain ⟨hpos, hmn, hleast⟩ := h.find_least hn hd
  generalize (atpKdhFindMin s 1 d d).1 = m at hpick hpos hmn hleast
  obtain ⟨m, rfl⟩ : ∃ m', m = m' + 1 := ⟨m - 1, by omega⟩
  rw [Nat.add_sub_cancel] at hpick
  refine ⟨by omega, fun hd0 i hi => ?_, fun hd1 i hi => ?_⟩
  · rw [hdim, Dimension.kdh.injEq] at hd0
    have hkey := hleast (i + 1) (Nat.succ_pos i) (by omega)
    rw [dimGt_eq_false, if_pos hd0] at hkey
    rw [hpick]
    exact hkey
  · rw [hdim, Dimension.kdh.injEq] at hd1
    have hkey := hleast (i + 1) (Nat.succ_pos i) (by omega)
    rw [dimGt_eq_false, if_neg (by omega)] at hkey
    rw [hpick]
    exact hkey

theorem kdOrdered_select (hkd : cfg.kdheap = true) (rounds : ℕ) (hlen : s.nCps < 2 ^ 30)
    (h : KdOrdered s) : KdOrdered (selectFrom cfg w rounds s).2 ∧
      (selectFrom cfg w rounds s).2.nCps ≤ s.nCps := by
  induction rounds generalizing s with
  | zero => exact ⟨h, Nat.le_refl _⟩
  | succ rounds ih =>
    rw [selectFrom]
    split
    · exact ⟨h, Nat.le_refl _⟩
    · rename_i hn
      have hleast := h.selectsLeast hkd w (by omega)
      obtain ⟨hpri, hseq, hcps⟩ : (pick cfg w s).2.pri = s.pri ∧ (pick cfg w s).2.seq = s.seq ∧
          (pick cfg w s).2.nCps = s.nCps := by
        obtain ⟨rng, floor, hstate⟩ := pick_state cfg w s
        rw [hstate]
        exact ⟨rfl, rfl, rfl⟩
      have hinside := hleast.inside
      have hpicked : KdOrdered (pick cfg w s).2 := h.congr hcps hpri hseq
      simp only
      split
      · have hnext := kdOrdered_extract hkd (by omega) (by omega : (pick cfg w s).1 < _) hpicked
        have hcps' : (repair cfg (dropSlot (pick cfg w s).2 (pick cfg w s).1)
            (pick cfg w s).1).nCps = s.nCps - 1 := by
          rw [nCps_repair hkd, nCps_dropSlot, hcps]
        obtain ⟨hheap, hle⟩ := ih (by omega) hnext
        exact ⟨hheap, by omega⟩
      · have hcount : KdOrdered { (pick cfg w s).2 with
            selectCount := ((pick cfg w s).2.selectCount + 1) % 2 ^ 32 } :=
          hpicked.congr rfl rfl rfl
        refine ⟨kdOrdered_extract hkd ?_ ?_ hcount, ?_⟩
        · change (pick cfg w s).2.nCps < 2 ^ 30
          omega
        · change _ < (pick cfg w s).2.nCps
          omega
        · rw [nCps_repair hkd, nCps_dropSlot]
          change (pick cfg w s).2.nCps - 1 ≤ s.nCps
          omega

/-! ## Runs -/

theorem kdOrdered_prune (hkd : cfg.kdheap = true) (horizon : ℕ) (h : KdOrdered s) :
    KdOrdered (atpLrsPrune cfg horizon s) ∧ (atpLrsPrune cfg horizon s).nCps ≤ s.nCps := by
  have hle := nCps_pruneFrom_le horizon (2 * s.nCps) s s.nCps
  rw [atpLrsPrune]
  split
  · exact ⟨h, Nat.le_refl _⟩
  · simp only
    split
    · refine ⟨kdOrdered_reorder hkd _, ?_⟩
      rwa [nCps_reorder hkd]
    · exact ⟨kdOrdered_of_le_one (by omega), hle⟩

theorem kdOrdered_floydOnly (hkd : cfg.kdheap = true) (s : Queue P) :
    KdOrdered (atpCpFloydOnly cfg s) ∧ (atpCpFloydOnly cfg s).nCps = s.nCps := by
  rw [atpCpFloydOnly]
  split
  · exact ⟨kdOrdered_of_le_one (by omega), rfl⟩
  · exact ⟨kdOrdered_reorder hkd s, nCps_reorder hkd s⟩

theorem kdOrdered_sweep (hkd : cfg.kdheap = true) (v : ℕ → Verdict P)
    (hsafe : w.nRules = 0 ∨ (∃ i < s.nCps, ∀ c, v i ≠ .keep c) ∨ KeysStand w s)
    (h : KdOrdered s) :
    KdOrdered (atpCpSetInterreduce cfg w v s) ∧
      (atpCpSetInterreduce cfg w v s).nCps ≤ s.nCps := by
  rw [atpCpSetInterreduce]
  split
  · exact ⟨h, Nat.le_refl _⟩
  · rename_i hgo
    have hle := (sweepFrom_touched (w := w) (v := v) s.nCps 0 (s, 0, false)).1
    rw [Nat.zero_add] at hle
    simp only
    split
    · obtain ⟨hheap, hn⟩ := kdOrdered_floydOnly hkd
        { (sweepFrom w v s.nCps 0 (s, 0, false)).1 with
          nCps := (sweepFrom w v s.nCps 0 (s, 0, false)).2.1 }
      exact ⟨hheap, by rw [hn]; exact hle⟩
    · rename_i hquiet
      obtain ⟨hpri, hseq, -, hn⟩ := sweepFrom_quiet (fun hzero => hgo (.inr hzero)) hsafe hquiet
      exact ⟨h.congr hn hpri hseq, hle⟩

/-- The priorities by age are only given to a queue of one pair, a sweep that leaves all pairs
leaves their priorities, and the numbers of the nodes do not wrap. -/
def KdSafe (w : World P) (op : Op P) (s : Queue P) : Prop :=
  match op with
  | .push _ => s.nCps + 1 < 2 ^ 30
  | .setPriBySeq keys => keys = [] ∨ s.nCps ≤ 1
  | .sweep v => w.nRules = 0 ∨ (∃ i < s.nCps, ∀ c, v i ≠ .keep c) ∨ KeysStand w s
  | _ => True

theorem kdOrdered_step (hkd : cfg.kdheap = true) (op : Op P) (hsafe : KdSafe w op s)
    (hlen : s.nCps < 2 ^ 30) (h : KdOrdered s) :
    KdOrdered (step cfg w op s).2 ∧ (step cfg w op s).2.nCps < 2 ^ 30 := by
  have h₀ : KdOrdered (clearLog s) := h.congr rfl rfl rfl
  cases op with
  | push p =>
    have hn : (atpCpPush cfg p (clearLog s)).nCps = s.nCps + 1 := by
      simp only [atpCpPush, hkd, if_true]
      rw [atpKdhInsert, nCps_normalizeUp]
      rfl
    refine ⟨kdOrdered_push hkd p h₀, ?_⟩
    rw [step]
    simp only
    rw [hn]
    exact hsafe
  | select =>
    obtain ⟨hheap, hle⟩ := kdOrdered_select (s := clearLog s) (w := w) hkd (s.nCps + 1) hlen h₀
    exact ⟨hheap, Nat.lt_of_le_of_lt hle hlen⟩
  | prune horizon =>
    obtain ⟨hheap, hle⟩ := kdOrdered_prune (s := clearLog s) hkd horizon h₀
    exact ⟨hheap, Nat.lt_of_le_of_lt hle hlen⟩
  | setPriBySeq keys =>
    change KdOrdered (thvmAtpSetCpPriBySeq cfg keys _) ∧ (thvmAtpSetCpPriBySeq cfg keys _).nCps < _
    rw [thvmAtpSetCpPriBySeq]
    split
    · exact ⟨h₀, hlen⟩
    · rename_i hgo
      rw [not_or] at hgo
      have hone : s.nCps ≤ 1 := hsafe.resolve_left hgo.2
      simp only
      have hhalf : (clearLog s).nCps / 2 = 0 := Nat.div_eq_of_lt (Nat.lt_succ_of_le hone)
      rw [setPri_nCps, hhalf]
      have hn := setPri_nCps keys (clearLog s)
      refine ⟨kdOrdered_of_le_one ?_, ?_⟩
      · rw [floydFrom, hn]
        exact hone
      · rw [floydFrom, hn]
        exact hlen
  | setPri2BySeq keys =>
    change KdOrdered (thvmAtpSetCpPri2BySeq keys _) ∧ (thvmAtpSetCpPri2BySeq keys _).nCps < _
    rw [thvmAtpSetCpPri2BySeq]
    split
    · exact ⟨h₀, hlen⟩
    · obtain ⟨hn, hpri, hseq⟩ := setPri2_keys keys (clearLog s)
      refine ⟨h₀.congr hn hpri hseq, ?_⟩
      rw [hn]
      exact hlen
  | reheapify =>
    obtain ⟨hheap, hn⟩ := kdOrdered_floydOnly hkd
      (atpCpRebuildPriorities w (clearLog s))
    refine ⟨hheap, ?_⟩
    change (atpCpFloydOnly cfg _).nCps < _
    rw [hn, nCps_rebuildPriorities]
    exact hlen
  | sweep v =>
    obtain ⟨hheap, hle⟩ := kdOrdered_sweep (s := clearLog s) hkd v hsafe h₀
    exact ⟨hheap, Nat.lt_of_le_of_lt hle hlen⟩

/-- Four pairs of the priorities 9, 5, 1 and 2, then the priority 1 given to the third again. -/
def rekeyRun : List (Op Unit) :=
  [.setPriBySeq [(2, 1)], .push (plainPush 2 false), .push (plainPush 1 false),
    .push (plainPush 5 false), .push (plainPush 9 false)]

end CpQueue

end Atp

end Thvm
