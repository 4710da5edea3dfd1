import Mathlib.Tactic.Common

/-!
# Computations with a bounded number of rounds

A loop or a recursion of unknown length is given a number of rounds and fails when
they run out. It settles on a result when all large enough numbers give it. When the body
of a loop says each time whether to go again or to return, and a measure goes down with each
round, the loop returns, and what holds of the last round and is handed back by the others
holds of the loop.
-/

namespace Thvm.BoundedLoops

variable {α β : Type} {f f' : ℕ → Option α} {x y : α}

def Settles (f : ℕ → Option α) (x : α) : Prop := ∃ N, ∀ n, N ≤ n → f n = some x

theorem Settles.const (x : α) : Settles (fun _ => some x) x := ⟨0, fun _ _ => rfl⟩

theorem Settles.succ (h : Settles f x) (hf : ∀ n, f' (n + 1) = f n) : Settles f' x := by
  obtain ⟨N, hN⟩ := h
  refine ⟨N + 1, fun n hn => ?_⟩
  obtain ⟨m, rfl⟩ := Nat.exists_eq_add_of_le' (Nat.le_trans (Nat.le_add_left 1 N) hn)
  rw [hf, hN m (by omega)]

theorem Settles.pred (h : Settles f x) : Settles (fun n => f (n + 1)) x := by
  obtain ⟨N, hN⟩ := h
  exact ⟨N, fun n hn => hN (n + 1) (by omega)⟩

theorem Settles.congr (h : Settles f x) (hf : ∀ n, f' n = f n) : Settles f' x := by
  obtain ⟨N, hN⟩ := h
  exact ⟨N, fun n hn => (hf n).trans (hN n hn)⟩

theorem Settles.cast (h : Settles f x) (hxy : x = y) : Settles f y := hxy ▸ h

theorem Settles.unique (h : Settles f x) (h' : Settles f y) : x = y := by
  obtain ⟨N, hN⟩ := h
  obtain ⟨M, hM⟩ := h'
  have hx := hN (N + M) (Nat.le_add_right N M)
  have hy := hM (N + M) (Nat.le_add_left M N)
  exact Option.some.inj (hx.symm.trans hy)

theorem Settles.bind {g : ℕ → α → Option β} {z : β} (h : Settles f x)
    (hg : Settles (fun n => g n x) z) : Settles (fun n => f n >>= g n) z := by
  obtain ⟨N, hN⟩ := h
  obtain ⟨M, hM⟩ := hg
  refine ⟨N + M, fun n hn => ?_⟩
  show f n >>= g n = some z
  rw [hN n (by omega)]
  exact hM n (by omega)

/-- Two settling prefixes with one result can be exchanged. -/
theorem Settles.exchange {g : ℕ → α → Option β} {z : β} (h : Settles f x) (h' : Settles f' x)
    (hg : Settles (fun n => f n >>= g n) z) : Settles (fun n => f' n >>= g n) z := by
  obtain ⟨N, hN⟩ := h
  obtain ⟨N', hN'⟩ := h'
  obtain ⟨M, hM⟩ := hg
  refine ⟨N + N' + M, fun n hn => ?_⟩
  show f' n >>= g n = some z
  rw [hN' n (by omega), ← hN n (by omega)]
  exact hM n (by omega)

theorem Settles.mapM {γ : Type} {f : ℕ → γ → Option β} {g : γ → β} {l : List γ}
    (h : ∀ a ∈ l, Settles (fun n => f n a) (g a)) :
    Settles (fun n => l.mapM (f n)) (l.map g) := by
  induction l with
  | nil => exact Settles.const []
  | cons a l ih =>
    have hhead := h a List.mem_cons_self
    have htail := ih fun b hb => h b (List.mem_cons_of_mem a hb)
    apply Settles.congr (f := fun n => f n a >>= fun b => l.mapM (f n) >>= fun bs => some (b :: bs))
    · apply hhead.bind
      exact htail.bind (Settles.const _)
    · intro n
      rw [List.mapM_cons]
      rfl

/-- A result stays when there are more rounds. -/
def Lasting (f : ℕ → Option α) : Prop := ∀ n x, f n = some x → f (n + 1) = some x

theorem Lasting.const (o : Option α) : Lasting fun _ => o := fun _ _ h => h

theorem Lasting.of_le (h : Lasting f) {n m : ℕ} (hnm : n ≤ m) (hx : f n = some x) :
    f m = some x := by
  induction hnm with
  | refl => exact hx
  | step _ ih => exact h _ x ih

theorem Lasting.bind {g : ℕ → α → Option β} (h : Lasting f) (hg : ∀ a, Lasting fun n => g n a) :
    Lasting fun n => f n >>= g n := by
  intro n z hz
  obtain ⟨a, ha, hga⟩ := Option.bind_eq_some_iff.mp hz
  exact Option.bind_eq_some_iff.mpr ⟨a, h n a ha, hg a n z hga⟩

theorem Lasting.congr (h : Lasting f) (hf : ∀ n, f' n = f n) : Lasting f' := by
  intro n x hx
  rw [hf] at hx ⊢
  exact h n x hx

theorem Lasting.mapM {γ : Type} {f : ℕ → γ → Option β} (h : ∀ a, Lasting fun n => f n a)
    (l : List γ) : Lasting fun n => l.mapM (f n) := by
  induction l with
  | nil => exact Lasting.const _
  | cons a l ih =>
    apply Lasting.congr (f := fun n => f n a >>= fun b => l.mapM (f n) >>= fun bs => some (b :: bs))
    · exact (h a).bind fun b => ih.bind fun bs => Lasting.const _
    · intro n
      rw [List.mapM_cons]
      rfl

/-- A fold of steps that give at least the results of other steps. -/
theorem foldlM_extends {γ : Type} {g g' : β → γ → Option β}
    (h : ∀ b c x, g b c = some x → g' b c = some x) (l : List γ) (b : β) {y : β}
    (hy : l.foldlM g b = some y) : l.foldlM g' b = some y := by
  induction l generalizing b with
  | nil => exact hy
  | cons c l ih =>
    rw [List.foldlM_cons] at hy ⊢
    obtain ⟨x, hx, hrest⟩ := Option.bind_eq_some_iff.mp hy
    exact Option.bind_eq_some_iff.mpr ⟨x, h b c x hx, ih x hrest⟩

/-- A result is the one that is settled on. -/
theorem Settles.eq_of_lasting (h : Settles f x) (hf : Lasting f) {n : ℕ} (hy : f n = some y) :
    y = x := by
  obtain ⟨N, hN⟩ := h
  have hx := hN (N + n) (Nat.le_add_right N n)
  rw [hf.of_le (Nat.le_add_left n N) hy] at hx
  exact Option.some.inj hx

/-! ## Loops with a measure -/

section Measured

variable {σ ρ : Type}

theorem Settles.map (h : Settles f x) (g : α → β) :
    Settles (fun n => g <$> f n) (g x) := by
  obtain ⟨N, hN⟩ := h
  refine ⟨N, fun n hn => ?_⟩
  show g <$> f n = some (g x)
  rw [hN n hn]
  rfl

/-- What a round of a loop asks for. -/
inductive Round (σ ρ : Type) where
  | again (s : σ)
  | done (r : ρ)

/-- The loop has the rounds that are left for the calls in its body. -/
def loop (body : ℕ → σ → Option (Round σ ρ)) : ℕ → σ → Option ρ
  | 0, _ => none
  | n + 1, s => do
    match ← body n s with
    | .again s => loop body n s
    | .done r => some r

/-- `Q` is handed back from the rest of a loop to its start. -/
def Round.Leads (μ : σ → ℕ) (Q : σ → ρ → Prop) (s : σ) : Round σ ρ → Prop
  | .again s' => μ s' < μ s ∧ ∀ r, Q s' r → Q s r
  | .done r => Q s r

theorem loop_settles {body : ℕ → σ → Option (Round σ ρ)} {μ : σ → ℕ} {Q : σ → ρ → Prop}
    (h : ∀ s, ∃ next, Settles (fun n => body n s) next ∧ next.Leads μ Q s) (s : σ) :
    ∃ r, Settles (fun n => loop body n s) r ∧ Q s r := by
  induction hμ : μ s using Nat.strongRecOn generalizing s with
  | ind m ih =>
    obtain ⟨next, hnext, hleads⟩ := h s
    cases next with
    | done r => exact ⟨r, (hnext.bind (.const r)).succ fun _ => rfl, hleads⟩
    | again s' =>
      obtain ⟨hlt, hback⟩ := hleads
      obtain ⟨r, hr, hQ⟩ := ih (μ s') (hμ ▸ hlt) s' rfl
      exact ⟨r, (hnext.bind hr).succ fun _ => rfl, hback r hQ⟩

end Measured

end Thvm.BoundedLoops
