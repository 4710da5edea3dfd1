import Mathlib.Algebra.Order.Ring.Int
import Mathlib.Logic.Function.Basic
import Mathlib.Tactic.Common

/-!
# Memo tables with epochs

A direct-mapped table of answers. A slot counts when it carries the epoch of the table,
so that a new epoch forgets everything; the epoch is a `u32`, and when it wraps every
slot is cleared. A computation that uses a table answers a value when it returns this
value from every sound table and leaves a sound one.
-/

namespace Thvm.MemoTables

variable {K V α β σ : Type}

structure Slot (K V : Type) where
  key : K
  epoch : ℕ
  val : V

/-- No slot is ahead of the table. -/
structure Memo (K V : Type) where
  slots : ℕ → Slot K V
  epoch : ℕ
  le_epoch : ∀ i, (slots i).epoch ≤ epoch

namespace Memo

variable {m : Memo K V} {R R' : K → V → Prop} {i : ℕ} {k : K} {v : V}

/-- A table of zeroed slots. -/
def zeroed (k : K) (v : V) (epoch : ℕ) : Memo K V :=
  ⟨fun _ => ⟨k, 0, v⟩, epoch, fun _ => Nat.zero_le epoch⟩

def find [DecidableEq K] (m : Memo K V) (i : ℕ) (k : K) : Option V :=
  if (m.slots i).epoch = m.epoch ∧ (m.slots i).key = k then some (m.slots i).val else none

def store (m : Memo K V) (i : ℕ) (k : K) (v : V) : Memo K V where
  slots := Function.update m.slots i ⟨k, m.epoch, v⟩
  epoch := m.epoch
  le_epoch := by
    intro j
    rw [Function.update_apply]
    split
    · exact Nat.le_refl _
    · exact m.le_epoch j

/-- `++epoch == 0` clears the slots and starts again at one. -/
def invalidate (m : Memo K V) : Memo K V :=
  if (m.epoch + 1) % 2 ^ 32 = 0 then
    ⟨fun i => { m.slots i with epoch := 0 }, 1, fun _ => Nat.zero_le 1⟩
  else
    ⟨m.slots, m.epoch + 1, fun i => Nat.le_succ_of_le (m.le_epoch i)⟩

theorem epoch_invalidate (m : Memo K V) :
    m.invalidate.epoch = if (m.epoch + 1) % 2 ^ 32 = 0 then 1 else m.epoch + 1 := by
  unfold invalidate
  split
  · rfl
  · rfl

/-- Every slot of the current epoch holds a fact. -/
def Sound (R : K → V → Prop) (m : Memo K V) : Prop :=
  ∀ i, (m.slots i).epoch = m.epoch → R (m.slots i).key (m.slots i).val

theorem Sound.imp (h : m.Sound R) (hR : ∀ k v, R k v → R' k v) : m.Sound R' :=
  fun i hi => hR _ _ (h i hi)

theorem sound_invalidate (m : Memo K V) : m.invalidate.Sound R := by
  intro i hi
  have hle := m.le_epoch i
  unfold invalidate at hi
  split at hi
  · exact absurd hi Nat.zero_ne_one
  · exact absurd hi (Nat.ne_of_lt (Nat.lt_succ_of_le hle))

theorem Sound.find [DecidableEq K] (h : m.Sound R) (hv : m.find i k = some v) : R k v := by
  unfold Memo.find at hv
  split at hv
  · next hcur =>
    obtain ⟨hepoch, rfl⟩ := hcur
    cases hv
    exact h i hepoch
  · cases hv

theorem Sound.store (h : m.Sound R) (hkv : R k v) : (m.store i k v).Sound R := by
  intro j hj
  simp only [Memo.store, Function.update_apply] at hj ⊢
  split
  · exact hkv
  · next hji =>
    rw [if_neg hji] at hj
    exact h j hj

end Memo

/-- From every state with `I` the computation returns something with `Q` and keeps `I`. -/
def Ensures (I : σ → Prop) (x : StateM σ α) (Q : α → Prop) : Prop :=
  ∀ s, I s → Q (x.run s).1 ∧ I (x.run s).2

namespace Ensures

variable {I : σ → Prop} {x : StateM σ α} {f : α → StateM σ β} {Q Q' : α → Prop} {Q'' : β → Prop}

theorem pure {a : α} (h : Q a) : Ensures I (Pure.pure a : StateM σ α) Q := fun _ hs => ⟨h, hs⟩

theorem imp (h : Ensures I x Q) (hQ : ∀ a, Q a → Q' a) : Ensures I x Q' := by
  intro s hs
  obtain ⟨ha, hs'⟩ := h s hs
  exact ⟨hQ _ ha, hs'⟩

theorem bind (h : Ensures I x Q) (hf : ∀ a, Q a → Ensures I (f a) Q'') :
    Ensures I (x >>= f) Q'' := by
  intro s hs
  obtain ⟨ha, hs'⟩ := h s hs
  exact hf _ ha _ hs'

theorem get_bind {f : σ → StateM σ β} (hf : ∀ s, I s → Ensures I (f s) Q'') :
    Ensures I (get >>= f) Q'' := fun s hs => hf s hs s hs

theorem modify_bind {g : σ → σ} {f : PUnit → StateM σ β} (hg : ∀ s, I s → I (g s))
    (hf : Ensures I (f ⟨⟩) Q'') : Ensures I (modify g >>= f) Q'' := fun s hs => hf _ (hg s hs)

end Ensures

/-- From every state with `I` the computation returns `v` and keeps `I`. -/
def Answers (I : σ → Prop) (x : StateM σ α) (v : α) : Prop := Ensures I x (· = v)

namespace Answers

variable {I : σ → Prop} {x : StateM σ α} {f : α → StateM σ β} {v w : α} {Q : β → Prop} {u : β}

theorem pure (v : α) : Answers I (Pure.pure v : StateM σ α) v := Ensures.pure rfl

theorem ensures (h : Answers I x v) (hf : Ensures I (f v) Q) : Ensures I (x >>= f) Q :=
  Ensures.bind h fun _ ha => ha ▸ hf

theorem bind (h : Answers I x v) (hf : Answers I (f v) u) : Answers I (x >>= f) u := h.ensures hf

theorem cast (h : Answers I x v) (hvw : v = w) : Answers I x w := hvw ▸ h

end Answers

/-- From every state with `I` the computation returns what the one without a state does. -/
def Follows (I : σ → Prop) (x : StateM σ α) (y : StateM PUnit α) : Prop :=
  Answers I x (y.run ⟨⟩).1

namespace Follows

variable {I : σ → Prop} {x : StateM σ α} {y : StateM PUnit α} {f : α → StateM σ β}
  {g : α → StateM PUnit β}

theorem pure (a : α) : Follows I (Pure.pure a : StateM σ α) (Pure.pure a) := Answers.pure a

theorem bind (h : Follows I x y) (hf : ∀ a, a = (y.run ⟨⟩).1 → Follows I (f a) (g a)) :
    Follows I (x >>= f) (y >>= g) :=
  Answers.bind h (hf _ rfl)

end Follows

/-- The answer of a current slot, or the computed one, which the slot then keeps. -/
def memoised [DecidableEq K] (i : ℕ) (k : K) (encode : α → V) (decode : V → α)
    (compute : StateM (Memo K V) α) : StateM (Memo K V) α := do
  let m ← get
  match m.find i k with
  | some v => pure (decode v)
  | none => do
    let a ← compute
    modify fun m => m.store i k (encode a)
    pure a

section Memoised

variable [DecidableEq K] {i : ℕ} {k : K} {encode : α → V} {decode : V → α}
  {compute : StateM (Memo K V) α} {m : Memo K V}

theorem memoised_hit {v : V} (h : m.find i k = some v) :
    (memoised i k encode decode compute).run m = (decode v, m) := by
  simp only [memoised, StateT.run_bind, StateT.run_get, pure_bind, h]
  rfl

theorem memoised_miss (h : m.find i k = none) : (memoised i k encode decode compute).run m =
    ((compute.run m).1, (compute.run m).2.store i k (encode (compute.run m).1)) := by
  simp only [memoised, StateT.run_bind, StateT.run_get, pure_bind, h]
  rfl

theorem memoised_ensures {R : K → V → Prop} {Q Q' : α → Prop}
    (h : Ensures (Memo.Sound R) compute Q) (hdecode : ∀ v, R k v → Q' (decode v))
    (hencode : ∀ a, Q a → R k (encode a)) (hQ : ∀ a, Q a → Q' a) :
    Ensures (Memo.Sound R) (memoised i k encode decode compute) Q' := by
  intro m hm
  cases hfind : m.find i k with
  | some v =>
    rw [memoised_hit hfind]
    exact ⟨hdecode v (hm.find hfind), hm⟩
  | none =>
    obtain ⟨ha, hm'⟩ := h m hm
    rw [memoised_miss hfind]
    exact ⟨hQ _ ha, hm'.store (hencode _ ha)⟩

theorem memoised_answers {R : K → V → Prop} {a : α}
    (h : Answers (Memo.Sound R) compute a) (hdecode : ∀ v, R k v → decode v = a)
    (hencode : R k (encode a)) :
    Answers (Memo.Sound R) (memoised i k encode decode compute) a :=
  memoised_ensures h hdecode (fun _ hb => hb ▸ hencode) fun _ => id

end Memoised

end Thvm.MemoTables
