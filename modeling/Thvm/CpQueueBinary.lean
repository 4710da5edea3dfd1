import Thvm.CpQueueSteps
import Thvm.TreeHeaps
import Mathlib.Data.Prod.Lex

/-!
# The binary heap of the queue

Ultimate pairs come first, by age; then priority and age decide. A slot `i` is the node `i + 1`
of the tree. The numbers of the children do not wrap below `2 ^ 31` pairs.
-/

namespace Thvm

namespace Atp

namespace CpQueue

variable {P : Type} {s : Queue P} {cfg : Config} {w : World P} {n x x₀ lo : ℕ}

/-- The columns that `atp_cp_before` reads. -/
def heapKey (s : Queue P) (i : ℕ) : Bool × ℕ × ℕ := (s.ultimate i, s.pri i, s.seq i)

def keyBefore (cfg : Config) (a b : Bool × ℕ × ℕ) : Bool :=
  if cfg.useUltimate && a.1 != b.1 then a.1
  else if cfg.useUltimate && a.1 then a.2.2 < b.2.2
  else if a.2.1 ≠ b.2.1 then a.2.1 < b.2.1
  else a.2.2 < b.2.2

theorem atpCpBefore_eq (cfg : Config) (s : Queue P) (i j : ℕ) :
    atpCpBefore cfg s i j = keyBefore cfg (heapKey s i) (heapKey s j) := rfl

/-- Ultimate pairs rank by their age alone. -/
def rank (cfg : Config) (a : Bool × ℕ × ℕ) : ℕ ×ₗ ℕ ×ₗ ℕ :=
  if cfg.useUltimate && a.1 then toLex (0, toLex (0, a.2.2)) else toLex (1, toLex (a.2.1, a.2.2))

theorem keyBefore_iff {a b : Bool × ℕ × ℕ} :
    keyBefore cfg a b = true ↔ rank cfg a < rank cfg b := by
  obtain ⟨ua, pa, qa⟩ := a
  obtain ⟨ub, pb, qb⟩ := b
  have hpri : (if pa ≠ pb then decide (pa < pb) else decide (qa < qb)) = true ↔
      pa < pb ∨ pa = pb ∧ qa < qb := by
    split
    · rw [decide_eq_true_eq]
      omega
    · rw [decide_eq_true_eq]
      omega
  unfold keyBefore rank
  cases hcfg : cfg.useUltimate with
  | false => simpa [Prod.Lex.toLex_lt_toLex] using hpri
  | true =>
    cases ua with
    | false =>
      cases ub with
      | false => simpa [Prod.Lex.toLex_lt_toLex] using hpri
      | true => simp [Prod.Lex.toLex_lt_toLex]
    | true =>
      cases ub with
      | false => simp [Prod.Lex.toLex_lt_toLex]
      | true => simp [Prod.Lex.toLex_lt_toLex]

theorem keyBefore_eq_false {a b : Bool × ℕ × ℕ} :
    keyBefore cfg a b = false ↔ rank cfg b ≤ rank cfg a := by
  rw [← Bool.not_eq_true, keyBefore_iff, not_lt]

/-- The key of node `m`. -/
def heapNode (s : Queue P) : ℕ → Bool × ℕ × ℕ
  | 0 => (false, 0, 0)
  | m + 1 => heapKey s m

/-- All nodes have the order of `atp_cp_before`. -/
def heapGt (cfg : Config) (_ : ℕ) (a b : Bool × ℕ × ℕ) : Bool := keyBefore cfg b a

theorem nodeOrder_heapGt (cfg : Config) : NodeOrder (heapGt cfg) where
  total _ _ _ h := keyBefore_eq_false.mpr (keyBefore_iff.mp h).le
  trans _ _ _ _ hab hbc :=
    keyBefore_eq_false.mpr ((keyBefore_eq_false.mp hab).trans (keyBefore_eq_false.mp hbc))

def HeapOrdered (cfg : Config) (s : Queue P) : Prop := IsHeap (heapGt cfg) (heapNode s) s.nCps

theorem heapNode_swap (s : Queue P) (a b : ℕ) :
    heapNode (atpCpSwap s a b) = swapAt (heapNode s) (a + 1) (b + 1) := by
  funext m
  cases m with
  | zero => rfl
  | succ m =>
    simp only [heapNode, heapKey, atpCpSwap, swapCol, swapAt, Nat.add_right_cancel_iff]
    split
    · rfl
    · split
      · rfl
      · rfl

/-! ## The sifts -/

theorem nCps_siftUpFrom (rounds : ℕ) (s : Queue P) (i : ℕ) :
    (atpCpSiftUpFrom cfg rounds s i).nCps = s.nCps := by
  induction rounds generalizing s i with
  | zero => rfl
  | succ rounds ih =>
    rw [atpCpSiftUpFrom]
    split
    · rw [ih]
      rfl
    · rfl

theorem nCps_siftDownFrom (rounds : ℕ) (s : Queue P) (i : ℕ) :
    (atpCpSiftDownFrom cfg rounds s i).nCps = s.nCps := by
  induction rounds generalizing s i with
  | zero => rfl
  | succ rounds ih =>
    rw [atpCpSiftDownFrom]
    split
    · rfl
    · rw [ih]
      rfl

/-- The hole rises from `x₀` until it is in order with its parent. -/
theorem siftUpFrom_sinking (rounds : ℕ) {i : ℕ} (hi : i ≤ rounds) (hx₀ : i + 1 ≤ x₀) (hn : x₀ ≤ n)
    (h : Rising (heapGt cfg) (heapNode s) n (i + 1) x₀) :
    Sinking (heapGt cfg) (heapNode (atpCpSiftUpFrom cfg rounds s i)) n 1 x₀ := by
  have hsame : ∀ i i', heapGt cfg i = heapGt cfg i' := fun _ _ => rfl
  induction rounds generalizing s i with
  | zero =>
    obtain rfl : i = 0 := by omega
    exact h.stop (nodeOrder_heapGt cfg) hsame hx₀ hn fun hone => by omega
  | succ rounds ih =>
    rw [atpCpSiftUpFrom]
    split
    · rename_i hup
      have hparent : (i + 1) / 2 = (i - 1) / 2 + 1 := by omega
      refine ih (by omega) (by omega) ?_
      rw [heapNode_swap, ← hparent]
      refine h.swap (nodeOrder_heapGt cfg) hsame (by omega) (by omega) hx₀ ?_
      rw [hparent]
      exact hup.2
    · rename_i hstop
      refine h.stop (nodeOrder_heapGt cfg) hsame hx₀ hn fun hone => ?_
      have hparent : (i + 1) / 2 = (i - 1) / 2 + 1 := by omega
      rw [not_and, Bool.not_eq_true] at hstop
      rw [hparent]
      exact hstop (by omega)

/-- The least of a slot and its children. -/
theorem siftChild_spec (cfg : Config) (hlen : s.nCps < 2 ^ 31) {i : ℕ} (hi : i < s.nCps) :
    (∀ c, c / 2 = i + 1 → c ≤ s.nCps →
      heapGt cfg (i + 1) (heapNode s (siftChild cfg s i + 1)) (heapNode s c) = false) ∧
      (siftChild cfg s i = i ∨ (siftChild cfg s i + 1) / 2 = i + 1 ∧ siftChild cfg s i < s.nCps ∧
        heapGt cfg (i + 1) (heapNode s (i + 1)) (heapNode s (siftChild cfg s i + 1)) = true) := by
  have hl : (2 * i + 1) % 2 ^ 32 = 2 * i + 1 := by omega
  have hr : (2 * i + 2) % 2 ^ 32 = 2 * i + 2 := by omega
  have htest : ∀ c m, (c < s.nCps → rank cfg (heapKey s (siftTest cfg s c m)) ≤
        rank cfg (heapKey s c)) ∧
      rank cfg (heapKey s (siftTest cfg s c m)) ≤ rank cfg (heapKey s m) ∧
      (siftTest cfg s c m = m ∨ siftTest cfg s c m = c ∧ c < s.nCps ∧
        rank cfg (heapKey s c) < rank cfg (heapKey s m)) := by
    intro c m
    unfold siftTest
    split
    · rename_i h
      have hlt : rank cfg (heapKey s c) < rank cfg (heapKey s m) := keyBefore_iff.mp h.2
      exact ⟨fun _ => le_rfl, hlt.le, .inr ⟨rfl, h.1, hlt⟩⟩
    · rename_i h
      refine ⟨fun hc => ?_, le_rfl, .inl rfl⟩
      rw [not_and, Bool.not_eq_true] at h
      exact keyBefore_eq_false.mp (h hc)
  obtain ⟨hleft, hleft', hwhere⟩ := htest (2 * i + 1) i
  obtain ⟨hright, hright', hwhere'⟩ := htest (2 * i + 2) (siftTest cfg s (2 * i + 1) i)
  rw [siftChild, hl, hr]
  generalize siftTest cfg s (2 * i + 1) i = m₁ at hleft hleft' hwhere hright hright' hwhere' ⊢
  generalize siftTest cfg s (2 * i + 2) m₁ = m at hright hright' hwhere' ⊢
  refine ⟨fun c hc hcn => keyBefore_eq_false.mpr ?_, ?_⟩
  · obtain rfl | rfl : c = 2 * i + 1 + 1 ∨ c = 2 * i + 2 + 1 := by omega
    · exact hright'.trans (hleft (by omega))
    · exact hright (by omega)
  · rcases hwhere' with rfl | ⟨rfl, hcn, hlt⟩
    · rcases hwhere with rfl | ⟨rfl, hcn, hlt⟩
      · exact .inl rfl
      · exact .inr ⟨by omega, hcn, keyBefore_iff.mpr hlt⟩
    · exact .inr ⟨by omega, hcn, keyBefore_iff.mpr (lt_of_lt_of_le hlt hleft')⟩

/-- The hole sinks until it is in order with its children. -/
theorem siftDownFrom_heap (hlen : s.nCps < 2 ^ 31) (rounds : ℕ) {i : ℕ} (hi : i < s.nCps)
    (hrounds : s.nCps ≤ rounds + i) (hlo : lo ≤ i + 1)
    (h : Sinking (heapGt cfg) (heapNode s) s.nCps lo (i + 1)) :
    HeapFrom (heapGt cfg) (heapNode (atpCpSiftDownFrom cfg rounds s i)) s.nCps lo := by
  induction rounds generalizing s i with
  | zero => omega
  | succ rounds ih =>
    obtain ⟨hchildren, hwhere⟩ := siftChild_spec cfg hlen hi
    have hleast : ∀ j, Under (i + 1) j → j ≤ s.nCps →
        heapGt cfg (i + 1) (heapNode s (siftChild cfg s i + 1)) (heapNode s j) = false :=
      fun j hj hjn => h.least_of_children (nodeOrder_heapGt cfg) hlo (Nat.succ_pos i)
        (fun _ _ => rfl) hchildren hj hjn
    rw [atpCpSiftDownFrom]
    split
    · rename_i hstop
      rw [hstop] at hleast
      exact h.stop hleast
    · rename_i hne
      obtain ⟨hchild, hcn, hgt⟩ := hwhere.resolve_left hne
      have hcps : (atpCpSwap s i (siftChild cfg s i)).nCps = s.nCps := rfl
      refine ih (s := atpCpSwap s i (siftChild cfg s i)) hlen hcn (by omega) (by omega) ?_
      rw [heapNode_swap]
      exact h.swap_child (nodeOrder_heapGt cfg) hchild (Nat.succ_pos i) hcn hgt hleast

theorem floydFrom_heap (k : ℕ) (hlen : s.nCps < 2 ^ 31) (hk : k ≤ s.nCps)
    (h : HeapFrom (heapGt cfg) (heapNode s) s.nCps (k + 1)) :
    HeapOrdered cfg (floydFrom cfg k s) := by
  induction k generalizing s with
  | zero => exact h
  | succ k ih =>
    have hn : (atpCpSiftDown cfg s k).nCps = s.nCps := nCps_siftDownFrom _ _ _
    rw [floydFrom]
    refine ih (by rwa [hn]) (by rw [hn]; omega) ?_
    rw [hn]
    exact siftDownFrom_heap hlen _ hk (by omega) (Nat.le_refl _) h.sinking

theorem heapOrdered_reorder (hbin : cfg.kdheap = false) (hlen : s.nCps < 2 ^ 31) :
    HeapOrdered cfg (reorder cfg s) := by
  rw [reorder, hbin, if_neg Bool.false_ne_true]
  exact floydFrom_heap _ hlen (Nat.div_le_self _ _) (heapFrom_half (by omega))

/-! ## The operations of the queue -/

theorem HeapOrdered.congr {s' : Queue P} (h : HeapOrdered cfg s) (hn : s'.nCps = s.nCps)
    (hkey : heapKey s' = heapKey s) : HeapOrdered cfg s' := by
  have hnode : heapNode s' = heapNode s := by
    funext m
    cases m with
    | zero => rfl
    | succ m => exact congrFun hkey m
  rw [HeapOrdered, hnode, hn]
  exact h

theorem heapOrdered_of_le_one (h : s.nCps ≤ 1) : HeapOrdered cfg s := heapFrom_half (by omega)

/-- No slot comes before its parent. -/
theorem HeapOrdered.parent (h : HeapOrdered cfg s) {i : ℕ} (hi : 0 < i) (hn : i < s.nCps) :
    atpCpBefore cfg s i ((i - 1) / 2) = false := by
  have hparent : (i + 1) / 2 = (i - 1) / 2 + 1 := by omega
  exact h ((i - 1) / 2 + 1) (i + 1) (by omega) (.child (by omega) hparent) hn

/-- The root is least. -/
theorem HeapOrdered.root (h : HeapOrdered cfg s) {i : ℕ} (hn : i < s.nCps) :
    rank cfg (heapKey s 0) ≤ rank cfg (heapKey s i) := by
  induction i using Nat.strongRecOn with
  | ind i ih =>
    rcases Nat.eq_zero_or_pos i with rfl | hi
    · exact le_rfl
    · have hparent := h.parent hi hn
      rw [atpCpBefore_eq, keyBefore_eq_false] at hparent
      exact (ih ((i - 1) / 2) (by omega) (by omega)).trans hparent

theorem heapOrdered_push (hbin : cfg.kdheap = false) (p : Push P) (h : HeapOrdered cfg s) :
    HeapOrdered cfg (atpCpPush cfg p s) := by
  rw [atpCpPush]
  simp only [hbin, Bool.false_eq_true, if_false]
  rw [atpCpSiftUp, HeapOrdered, nCps_siftUpFrom]
  refine Sinking.stop (siftUpFrom_sinking _ (Nat.le_refl _) (Nat.le_refl _) (Nat.le_refl _) ?_)
    fun j hj hjn => ?_
  · intro i j hij hj hjx hi
    refine HeapFrom.hole h (Nat.le_refl _) (fun m hmn hm hne => ?_) hij
      (Nat.le_of_lt_succ (Nat.lt_of_le_of_ne hj hjx)) hi hjx
    obtain ⟨m, rfl⟩ : ∃ m', m = m' + 1 := ⟨m - 1, by omega⟩
    have hne' : m ≠ s.nCps := by omega
    simp [heapNode, heapKey, writeSlot, setCol, hne']
  · have hlt := hj.lt
    change j ≤ s.nCps + 1 at hjn
    omega

/-- Off the slot that is filled, the keys stay. -/
theorem heapNode_dropSlot (s : Queue P) (j : ℕ) {m : ℕ} (hm : 0 < m) (hne : m ≠ j + 1) :
    heapNode (dropSlot s j) m = heapNode s m := by
  obtain ⟨m, rfl⟩ : ∃ m', m = m' + 1 := ⟨m - 1, by omega⟩
  have hne' : m ≠ j := by omega
  unfold dropSlot
  split
  · simp [heapNode, heapKey, backfill, emptySlot, setCol, hne']
  · rfl

theorem heapOrdered_extract (hbin : cfg.kdheap = false) (hlen : s.nCps < 2 ^ 31) {j : ℕ}
    (hj : j < s.nCps) (h : HeapOrdered cfg s) : HeapOrdered cfg (repair cfg (dropSlot s j) j) := by
  have hoff : ∀ i j', Under i j' → j' ≤ s.nCps - 1 → i ≠ j + 1 → j' ≠ j + 1 →
      InOrder (heapGt cfg) (heapNode (dropSlot s j)) i j' := fun i j' hij hj' hi hjx =>
    HeapFrom.hole h (Nat.sub_le _ _) (fun m _ hm hne => heapNode_dropSlot s j hm hne) hij hj' hi
      hjx
  rw [repair, hbin, if_neg Bool.false_ne_true]
  split
  · rename_i hne
    rw [nCps_dropSlot] at hne
    have hup : (atpCpSiftUp cfg (dropSlot s j) j).nCps = s.nCps - 1 := by
      rw [atpCpSiftUp, nCps_siftUpFrom, nCps_dropSlot]
    rw [atpCpSiftDown, HeapOrdered, nCps_siftDownFrom]
    refine siftDownFrom_heap (by omega) _ (by omega) (by omega) (by omega) ?_
    rw [hup]
    exact siftUpFrom_sinking _ (Nat.le_refl _) (Nat.le_refl _) (by omega)
      fun i j' hij hj' hjx hi => hoff i j' hij hj' hi hjx
  · rename_i hlast
    rw [nCps_dropSlot, not_not] at hlast
    intro i j' _ hij hj'
    rw [nCps_dropSlot] at hj'
    have hlt := hij.lt
    exact hoff i j' hij hj' (by omega) (by omega)

end CpQueue

end Atp

end Thvm
