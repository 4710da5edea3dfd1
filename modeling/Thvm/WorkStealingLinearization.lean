import Thvm.WorkStealingDeque

/-!
# What the owner and the thieves may rely on between two atomic steps

While the owner is between its decrement of `bot` and the decision about the last
element, the counter `bot` lags one behind the contents. `bottom` is the index
that bounds the contents, `ceiling` the first index no thief may claim any more.
-/

namespace Thvm.WorkStealingDeque
open SequentialDeque FixedWidth

variable {α ι : Type*}

namespace WsDeque

theorem and_mask (q : WsDeque α) (i : ℕ) : i &&& q.mask = i % q.cap :=
  Nat.and_two_pow_sub_one_eq_mod i q.capacityPow2

@[simp] theorem cap_setSlot (q : WsDeque α) (i : ℕ) (x : α) : (q.setSlot i x).cap = q.cap := rfl

@[simp] theorem top_setSlot (q : WsDeque α) (i : ℕ) (x : α) : (q.setSlot i x).top = q.top := rfl

@[simp] theorem bot_setSlot (q : WsDeque α) (i : ℕ) (x : α) : (q.setSlot i x).bot = q.bot := rfl

@[simp] theorem slot_setSlot_self (q : WsDeque α) (i : ℕ) (x : α) :
    (q.setSlot i x).slot i = x := by
  simp [slot, setSlot, mask, cap]

/-- A store through the mask leaves every other index of one ring length alone. -/
theorem slot_setSlot_of_lt (q : WsDeque α) {i j : ℕ} (x : α) (hlt : i < j)
    (hcap : j < i + q.cap) : (q.setSlot j x).slot i = q.slot i := by
  have hne : i &&& q.mask ≠ j &&& q.mask := by
    rw [and_mask, and_mask]
    intro he
    have hdvd : q.cap ∣ j - i := (Nat.modEq_iff_dvd' hlt.le).mp he
    have hle := Nat.le_of_dvd (by omega) hdvd
    omega
  exact Function.update_of_ne hne _ _

end WsDeque

/-- The index one past the newest element. -/
def bottom (q : WsDeque α) : OwnerPc α → ℕ
  | .popTop b₁ => b₁ + 1
  | .popSlot b₁ _ => b₁ + 1
  | .popCas _ t => t + 1
  | .popWon _ t => t + 1
  | .popLost t => t + 1
  | .popEmpty t => t
  | _ => q.bot

/-- The first index that thieves can no longer claim: below the newest element as
soon as the owner has seen that it is not the last one. -/
def ceiling (q : WsDeque α) : OwnerPc α → ℕ
  | .popSlot b₁ t => if t < b₁ then b₁ else b₁ + 1
  | pc => bottom q pc

/-- The elements in the deque, oldest first. -/
def content (q : WsDeque α) (pc : OwnerPc α) : List α := window q.slot q.top (bottom q pc)

/-- What the owner knows from its own loads and stores. -/
def OwnerInv (q : WsDeque α) : OwnerPc α → Prop
  | .pushTop _ b => b = q.bot
  | .pushSlot _ b => b = q.bot ∧ b < q.top + q.cap
  | .pushBot x b => b = q.bot ∧ b < q.top + q.cap ∧ q.slot b = x
  | .popDec b => b = q.bot ∧ b ≠ 0
  | .popTop b₁ => q.bot = b₁
  | .popSlot b₁ t => q.bot = b₁ ∧ t ≤ b₁ ∧ t ≤ q.top
  | .popCas x t => q.bot = t ∧ t ≤ q.top ∧ q.slot t = x
  | .popWon _ t => q.bot = t ∧ q.top = t + 1
  | .popLost t => q.bot = t ∧ q.top = t + 1
  | .popEmpty t => q.bot + 1 = t ∧ q.top = t
  | _ => True

/-- What a thief knows: `top` never falls back, and as long as it has not moved
the claimed element is still there, unchanged. -/
def ThiefInv (q : WsDeque α) (pc : OwnerPc α) : ThiefPc α → Prop
  | .stealBot t => t ≤ q.top
  | .stealSlot t => t ≤ q.top ∧ (t = q.top → t < ceiling q pc)
  | .stealCas x t => t ≤ q.top ∧ (t = q.top → t < ceiling q pc ∧ q.slot t = x)
  | _ => True

/-- The invariant of the counters and the owner between two atomic steps. -/
structure Core (q : WsDeque α) (pc : OwnerPc α) : Prop where
  size : bottom q pc ≤ q.top + q.cap
  top_le : q.top ≤ ceiling q pc
  wrap : bottom q pc < 2 ^ 64
  owner : OwnerInv q pc

structure Inv (s : State ι α) : Prop where
  core : Core s.q s.owner
  thief : ∀ i, ThiefInv s.q s.owner (s.thief i)

theorem inv_init (capacityPow2 : ℕ) (buf : ℕ → α) :
    Inv (init capacityPow2 buf : State ι α) := by
  refine ⟨⟨?_, ?_, ?_, ?_⟩, fun i => ?_⟩ <;>
    simp [init, wsqInit, bottom, ceiling, OwnerInv, ThiefInv]

theorem ceiling_le_bottom (q : WsDeque α) (pc : OwnerPc α) : ceiling q pc ≤ bottom q pc := by
  cases pc with
  | popSlot b₁ t => simp only [ceiling, bottom]; split <;> omega
  | _ => exact le_rfl

/-- A thief that sees `t < bot` may claim index `t`. -/
theorem OwnerInv.bot_le_ceiling {q : WsDeque α} {pc : OwnerPc α} (h : OwnerInv q pc) :
    q.bot ≤ ceiling q pc := by
  cases pc <;> simp only [OwnerInv, ceiling, bottom] at h ⊢ <;> first | omega | (split <;> omega)

/-- A thief's knowledge survives every owner step that keeps `top`, the claim on
the oldest element and that element itself. -/
theorem ThiefInv.frame {q q' : WsDeque α} {pc pc' : OwnerPc α} {th : ThiefPc α}
    (h : ThiefInv q pc th) (htop : q'.top = q.top)
    (hkeep : q.top < ceiling q pc → q.top < ceiling q' pc' ∧ q'.slot q.top = q.slot q.top) :
    ThiefInv q' pc' th := by
  cases th with
  | stealBot t => simpa [ThiefInv, htop] using h
  | stealSlot t =>
    refine ⟨htop ▸ h.1, fun ht => ?_⟩
    rw [htop] at ht
    subst ht
    exact (hkeep (h.2 rfl)).1
  | stealCas x t =>
    refine ⟨htop ▸ h.1, fun ht => ?_⟩
    rw [htop] at ht
    subst ht
    obtain ⟨hlt, hx⟩ := h.2 rfl
    exact ⟨(hkeep hlt).1, (hkeep hlt).2.trans hx⟩
  | idle | steal => trivial

/-- Once `top` has moved on, a pending claim is known to fail. -/
theorem ThiefInv.advance {q q' : WsDeque α} {pc pc' : OwnerPc α} {th : ThiefPc α}
    (h : ThiefInv q pc th) (htop : q'.top = q.top + 1) : ThiefInv q' pc' th := by
  cases th with
  | stealBot t => simp only [ThiefInv] at h ⊢; omega
  | stealSlot t => exact ⟨by have := h.1; omega, fun ht => by have := h.1; omega⟩
  | stealCas x t => exact ⟨by have := h.1; omega, fun ht => by have := h.1; omega⟩
  | idle | steal => trivial

end Thvm.WorkStealingDeque

/-!
## The work-stealing deque refines the sequential one

Every atomic step either leaves the contents alone or has exactly the effect of
the one sequential operation that it announces. Pushes take effect at the store
of `bot`, steals at their successful swap of `top`, pops at the swap for the last
element and at the read of any other element.
-/

namespace Thvm.WorkStealingDeque
open SequentialDeque TransitionRuns FixedWidth

variable {α ι : Type*}

/-- How an optional event changes the contents. -/
def Changes (cap : ℕ) (c : List α) : Option (Event α) → List α → Prop
  | none, c' => c' = c
  | some e, c' => Effect cap c e c'

/-- What a step of the owner has to establish. -/
structure OwnerMove (q : WsDeque α) (pc : OwnerPc α) (out : Outcome (OwnerPc α) α) : Prop where
  core : Core out.deque out.pc
  thief : ∀ th, ThiefInv q pc th → ThiefInv out.deque out.pc th
  effect : Changes q.cap (content q pc) out.event (content out.deque out.pc)

variable {q : WsDeque α}

/-- A step that changes the owner's program counter only. -/
theorem OwnerMove.local_step {pc pc' : OwnerPc α} {reply : Option (Reply α)}
    (h : Core q pc) (hown : OwnerInv q pc') (hbot : bottom q pc' = bottom q pc)
    (hceil : ceiling q pc' = ceiling q pc) :
    OwnerMove q pc ⟨q, pc', none, reply⟩ where
  core := ⟨hbot ▸ h.size, hceil ▸ h.top_le, hbot ▸ h.wrap, hown⟩
  thief := fun th ht => ht.frame rfl fun hlt => ⟨hceil ▸ hlt, rfl⟩
  effect := by simp only [Changes, content, hbot]

theorem ownerMove_pushTop {x : α} {b : ℕ} (h : Core q (.pushTop x b)) :
    OwnerMove q (.pushTop x b) (ownerStep q (.pushTop x b)) := by
  have hb : b = q.bot := h.owner
  have htop : q.top ≤ q.bot := h.top_le
  have hwrap : q.bot < 2 ^ 64 := h.wrap
  have hsize : q.bot ≤ q.top + q.cap := h.size
  have hsub : sub64 b q.top = q.bot - q.top := by rw [hb]; exact sub64_of_le htop hwrap
  by_cases hfull : q.cap ≤ sub64 b q.top
  · simp only [ownerStep, if_pos hfull]
    refine ⟨⟨hsize, htop, hwrap, trivial⟩, fun th ht => ht.frame rfl fun hlt => ⟨hlt, rfl⟩, ?_⟩
    apply Effect.full
    have hlen : (content q (.pushTop x b)).length = q.bot - q.top := length_window _ _ _
    omega
  · simp only [ownerStep, if_neg hfull]
    exact .local_step h ⟨hb, by omega⟩ rfl rfl

theorem ownerMove_pushSlot {x : α} {b : ℕ} (h : Core q (.pushSlot x b)) :
    OwnerMove q (.pushSlot x b) (ownerStep q (.pushSlot x b)) := by
  obtain ⟨hb, hroom⟩ := h.owner
  have hkeep : ∀ i, q.top ≤ i → i < q.bot → (q.setSlot b x).slot i = q.slot i := by
    intro i hlow hhigh
    exact q.slot_setSlot_of_lt x (hb ▸ hhigh) (by omega)
  refine ⟨⟨h.size, h.top_le, h.wrap, hb, hroom, q.slot_setSlot_self b x⟩, fun th ht => ?_, ?_⟩
  · exact ht.frame rfl fun hlt => ⟨hlt, hkeep _ le_rfl hlt⟩
  · exact window_congr fun i hlow hhigh => hkeep i hlow hhigh

theorem ownerMove_pushBot {x : α} {b : ℕ} (h : Core q (.pushBot x b))
    (hroom : q.bot + 1 < 2 ^ 64) :
    OwnerMove q (.pushBot x b) (ownerStep q (.pushBot x b)) := by
  obtain ⟨hb, hcap, hx⟩ := h.owner
  have htop : q.top ≤ q.bot := h.top_le
  have hinc : inc64 b = q.bot + 1 := by rw [hb]; exact inc64_of_lt hroom
  simp only [ownerStep, hinc]
  refine ⟨⟨?_, ?_, hroom, trivial⟩, fun th ht => ?_, ?_⟩
  · change q.bot + 1 ≤ q.top + q.cap
    omega
  · exact htop.trans (Nat.le_succ _)
  · exact ht.frame rfl fun hlt => ⟨Nat.lt_succ_of_lt hlt, rfl⟩
  · have hsnoc : content { q with bot := q.bot + 1 } .idle = content q (.pushBot x b) ++ [x] := by
      rw [← hx, hb]
      exact window_snoc q.slot htop
    rw [hsnoc]
    apply Effect.push
    have hlen : (content q (.pushBot x b)).length = q.bot - q.top := length_window _ _ _
    omega

theorem ownerMove_pop (h : Core q .pop) : OwnerMove q .pop (ownerStep q .pop) := by
  by_cases hzero : q.bot = 0
  · simp only [ownerStep, if_pos hzero]
    have htop : q.top = q.bot := le_antisymm h.top_le (by omega)
    refine ⟨⟨h.size, h.top_le, h.wrap, trivial⟩, fun th ht => ht.frame rfl fun hlt => ⟨hlt, rfl⟩, ?_⟩
    simp only [content, bottom, htop, window_self]
    exact .popNone
  · simp only [ownerStep, if_neg hzero]
    exact .local_step h ⟨rfl, hzero⟩ rfl rfl

theorem ownerMove_popDec {b : ℕ} (h : Core q (.popDec b)) :
    OwnerMove q (.popDec b) (ownerStep q (.popDec b)) := by
  obtain ⟨hb, hpos⟩ := h.owner
  have hbot : bottom { q with bot := b - 1 } (.popTop (b - 1)) = q.bot :=
    (Nat.succ_pred hpos).trans hb
  refine ⟨⟨?_, ?_, ?_, rfl⟩, fun th ht => ht.frame rfl fun hlt => ⟨?_, rfl⟩, ?_⟩
  · exact hbot.le.trans h.size
  · exact h.top_le.trans hbot.ge
  · exact hbot.trans_lt h.wrap
  · exact hlt.trans_le hbot.ge
  · exact congrArg (window q.slot q.top) hbot

/-- The load of `top` tells the owner whether the reserved element is contended. -/
theorem ownerMove_popTop {b₁ : ℕ} (h : Core q (.popTop b₁)) :
    OwnerMove q (.popTop b₁) (ownerStep q (.popTop b₁)) := by
  have hbot : q.bot = b₁ := h.owner
  have htop : q.top ≤ b₁ + 1 := h.top_le
  by_cases hle : q.top ≤ b₁
  · simp only [ownerStep, if_pos hle]
    refine ⟨⟨h.size, ?_, h.wrap, hbot, hle, le_rfl⟩, fun th ht => ?_, rfl⟩
    · simp only [ceiling]
      split <;> omega
    · refine ht.frame rfl fun _ => ⟨?_, rfl⟩
      simp only [ceiling]
      split <;> omega
  · simp only [ownerStep, if_neg hle]
    have heq : q.top = b₁ + 1 := by omega
    refine .local_step h ⟨?_, rfl⟩ heq heq
    rw [hbot, heq]

theorem ownerMove_popSlot {b₁ t : ℕ} (h : Core q (.popSlot b₁ t)) :
    OwnerMove q (.popSlot b₁ t) (ownerStep q (.popSlot b₁ t)) := by
  obtain ⟨hbot, hle, htop⟩ := h.owner
  by_cases heq : t = b₁
  · subst heq
    simp only [ownerStep, if_true]
    exact .local_step h ⟨hbot, htop, rfl⟩ rfl (by simp [ceiling, bottom])
  · have hlt : t < b₁ := by omega
    have hceil : ceiling q (.popSlot b₁ t) = b₁ := by simp [ceiling, hlt]
    have htop' : q.top ≤ b₁ := hceil ▸ h.top_le
    have hsize : b₁ + 1 ≤ q.top + q.cap := h.size
    have hwrap : b₁ + 1 < 2 ^ 64 := h.wrap
    simp only [ownerStep, if_neg heq]
    refine ⟨⟨?_, ?_, ?_, trivial⟩, fun th ht => ht.frame rfl fun hlt' => ⟨?_, rfl⟩, ?_⟩
    · simp only [bottom]
      omega
    · simp only [ceiling, bottom]
      omega
    · simp only [bottom]
      omega
    · rw [hceil] at hlt'
      simp only [ceiling, bottom]
      omega
    · have hsnoc : content q (.popSlot b₁ t) = content q .idle ++ [q.slot b₁] := by
        simp only [content, bottom, hbot]
        exact window_snoc q.slot htop'
      rw [hsnoc]
      exact .pop _ _

theorem ownerMove_popCas {x : α} {t : ℕ} (h : Core q (.popCas x t)) :
    OwnerMove q (.popCas x t) (ownerStep q (.popCas x t)) := by
  obtain ⟨hbot, htop, hx⟩ := h.owner
  have hceil : q.top ≤ t + 1 := h.top_le
  have hwrap : t + 1 < 2 ^ 64 := h.wrap
  by_cases heq : q.top = t
  · simp only [ownerStep, if_pos heq, inc64_of_lt hwrap]
    refine ⟨⟨?_, le_rfl, hwrap, hbot, rfl⟩, fun th ht => ht.advance (heq ▸ rfl), ?_⟩
    · exact Nat.le_add_right _ _
    · have hone : content q (.popCas x t) = [x] := by
        simp only [content, bottom, heq]
        rw [window_cons q.slot (Nat.lt_succ_self t), window_self, hx]
      rw [hone]
      simp only [content, bottom, window_self]
      exact .pop [] x
  · simp only [ownerStep, if_neg heq]
    exact .local_step h ⟨hbot, by omega⟩ rfl rfl

/-- The three steps that put `bot` back once the deque is known to be empty. -/
theorem OwnerMove.restore {pc : OwnerPc α} {ev : Option (Event α)} {reply : Option (Reply α)}
    (h : Core q pc) (htop : bottom q pc = q.top) (hev : ev = none ∨ ev = some .popNone) :
    OwnerMove q pc ⟨{ q with bot := bottom q pc }, .idle, ev, reply⟩ where
  core := ⟨h.size, htop.ge, h.wrap, trivial⟩
  thief := fun th ht => ht.frame rfl fun hlt =>
    absurd (hlt.trans_le (ceiling_le_bottom q pc)) htop.not_gt
  effect := by
    have hempty : content q pc = [] := by rw [content, htop, window_self]
    have hempty' : content { q with bot := bottom q pc } .idle = [] := by
      rw [htop]
      exact window_self _ _
    rw [hempty, hempty']
    rcases hev with rfl | rfl
    · rfl
    · exact .popNone

theorem ownerMove_popWon {x : α} {t : ℕ} (h : Core q (.popWon x t)) :
    OwnerMove q (.popWon x t) (ownerStep q (.popWon x t)) := by
  have hinc : inc64 t = bottom q (.popWon x t) := inc64_of_lt h.wrap
  simp only [ownerStep, hinc]
  exact .restore h h.owner.2.symm (.inl rfl)

theorem ownerMove_popLost {t : ℕ} (h : Core q (.popLost t)) :
    OwnerMove q (.popLost t) (ownerStep q (.popLost t)) := by
  have hinc : inc64 t = bottom q (.popLost t) := inc64_of_lt h.wrap
  simp only [ownerStep, hinc]
  exact .restore h h.owner.2.symm (.inr rfl)

theorem ownerMove_popEmpty {t : ℕ} (h : Core q (.popEmpty t)) :
    OwnerMove q (.popEmpty t) (ownerStep q (.popEmpty t)) :=
  .restore h h.owner.2.symm (.inr rfl)

theorem ownerMove_step {pc : OwnerPc α} (h : Core q pc)
    (hroom : ∀ x b, pc = .pushBot x b → q.bot + 1 < 2 ^ 64) :
    OwnerMove q pc (ownerStep q pc) := by
  cases pc with
  | idle => exact .local_step h trivial rfl rfl
  | push x => exact .local_step h rfl rfl rfl
  | pushTop x b => exact ownerMove_pushTop h
  | pushSlot x b => exact ownerMove_pushSlot h
  | pushBot x b => exact ownerMove_pushBot h (hroom x b rfl)
  | pop => exact ownerMove_pop h
  | popDec b => exact ownerMove_popDec h
  | popTop b₁ => exact ownerMove_popTop h
  | popSlot b₁ t => exact ownerMove_popSlot h
  | popCas x t => exact ownerMove_popCas h
  | popWon x t => exact ownerMove_popWon h
  | popLost t => exact ownerMove_popLost h
  | popEmpty t => exact ownerMove_popEmpty h

/-- What a step of one thief has to establish, for itself and for the others. -/
structure ThiefMove (q : WsDeque α) (pc : OwnerPc α) (out : Outcome (ThiefPc α) α) : Prop where
  core : Core out.deque pc
  self : ThiefInv out.deque pc out.pc
  other : ∀ th, ThiefInv q pc th → ThiefInv out.deque pc th
  effect : Changes q.cap (content q pc) out.event (content out.deque pc)

variable {pc : OwnerPc α}

theorem ThiefMove.local_step {th' : ThiefPc α} {ev : Option (Event α)}
    {reply : Option (Reply α)} (h : Core q pc) (hself : ThiefInv q pc th')
    (hev : ev = none ∨ ev = some .stealNone) : ThiefMove q pc ⟨q, th', ev, reply⟩ where
  core := h
  self := hself
  other := fun _ ht => ht
  effect := by
    rcases hev with rfl | rfl
    · rfl
    · exact .stealNone _

/-- The owner's own knowledge is kept when a thief takes the oldest element. -/
theorem OwnerInv.steal (h : OwnerInv q pc) (hlt : q.top < ceiling q pc) :
    OwnerInv { q with top := q.top + 1 } pc := by
  cases pc <;> simp only [OwnerInv, ceiling, bottom] at h hlt ⊢
  case pushSlot => exact ⟨h.1, h.2.trans (Nat.add_lt_add_right (Nat.lt_succ_self _) _)⟩
  case pushBot => exact ⟨h.1, h.2.1.trans (Nat.add_lt_add_right (Nat.lt_succ_self _) _), h.2.2⟩
  case popSlot => exact ⟨h.1, h.2.1, h.2.2.trans (Nat.le_succ _)⟩
  case popCas => exact ⟨h.1, h.2.1.trans (Nat.le_succ _), h.2.2⟩
  all_goals first | exact h | omega

theorem thiefMove_stealCas {x : α} {t : ℕ} (h : Core q pc) (ht : ThiefInv q pc (.stealCas x t)) :
    ThiefMove q pc (thiefStep q (.stealCas x t)) := by
  by_cases heq : q.top = t
  · obtain ⟨hlt, hx⟩ := ht.2 heq.symm
    have hbot : q.top < bottom q pc := (heq ▸ hlt).trans_le (ceiling_le_bottom q pc)
    have hinc : inc64 t = q.top + 1 := by
      rw [← heq]
      exact inc64_of_lt (lt_of_le_of_lt hbot h.wrap)
    have hframe : bottom { q with top := q.top + 1 } pc = bottom q pc ∧
        ceiling { q with top := q.top + 1 } pc = ceiling q pc := by
      cases pc <;> exact ⟨rfl, rfl⟩
    simp only [thiefStep, if_pos heq, hinc]
    refine ⟨⟨?_, ?_, ?_, h.owner.steal (heq ▸ hlt)⟩, trivial, fun th hth => hth.advance rfl, ?_⟩
    · rw [hframe.1]
      exact h.size.trans (Nat.add_le_add_right (Nat.le_succ _) _)
    · rw [hframe.2]
      exact heq ▸ hlt
    · rw [hframe.1]
      exact h.wrap
    · have hcons : content q pc = x :: content { q with top := q.top + 1 } pc := by
        rw [content, content, hframe.1, window_cons q.slot hbot, heq, hx]
        rfl
      rw [hcons]
      exact .steal _ _
  · simp only [thiefStep, if_neg heq]
    exact .local_step h trivial (.inr rfl)

theorem thiefMove_step {th : ThiefPc α} (h : Core q pc) (ht : ThiefInv q pc th) :
    ThiefMove q pc (thiefStep q th) := by
  cases th with
  | idle => exact .local_step h trivial (.inl rfl)
  | steal => exact .local_step h le_rfl (.inl rfl)
  | stealBot t =>
    by_cases hle : q.bot ≤ t
    · simp only [thiefStep, if_pos hle]
      exact .local_step h trivial (.inr rfl)
    · simp only [thiefStep, if_neg hle]
      have hlt : t < ceiling q pc := lt_of_lt_of_le (not_le.mp hle) h.owner.bot_le_ceiling
      exact .local_step h ⟨ht, fun _ => hlt⟩ (.inl rfl)
  | stealSlot t => exact .local_step h ⟨ht.1, fun he => ⟨ht.2 he, rfl⟩⟩ (.inl rfl)
  | stealCas x t => exact thiefMove_stealCas h ht

end Thvm.WorkStealingDeque
