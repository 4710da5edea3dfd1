import Thvm.ArenaLifetimes
import Thvm.TlsfRuns

/-!
# The arena plan keeps live buffers apart

The opening event of a boundary comes after the closing events of the boundaries that
are dead by then and before those of the others, so the allocator still holds the block
of every boundary whose lifetime meets the new one.
-/

namespace Thvm.ArenaPlan
open Tlsf IntervalTiling

/-! ## The order of the events -/

namespace ArenaEvent

variable {a b c : ArenaEvent}

theorem le_total (a b : ArenaEvent) : a.le b ∨ b.le a := by
  unfold le
  rcases lt_trichotomy a.pos b.pos with h | h | h
  · exact .inl (.inl h)
  · cases ha : a.isOpen with
    | true => exact .inl (.inr ⟨h, fun _ => rfl⟩)
    | false => exact .inr (.inr ⟨h.symm, fun hf => absurd hf Bool.false_ne_true⟩)
  · exact .inr (.inl h)

theorem le_trans (h : a.le b) (h' : b.le c) : a.le c := by
  unfold le at *
  rcases h with h | ⟨h, ho⟩ <;> rcases h' with h' | ⟨h', ho'⟩
  · exact .inl (by omega)
  · exact .inl (by omega)
  · exact .inl (by omega)
  · exact .inr ⟨by omega, fun hc => ho (ho' hc)⟩

instance : Std.Total ArenaEvent.le := ⟨le_total⟩

instance : IsTrans ArenaEvent ArenaEvent.le := ⟨fun _ _ _ => le_trans⟩

end ArenaEvent

def openOf (i : ℕ) : ArenaEvent := ⟨i, i, true⟩

namespace Pass

variable (S : Pass)

def closeOf (i : ℕ) : ArenaEvent := ⟨S.lastPos i + 1, i, false⟩

/-- The events in the order in which they are replayed. -/
structure Sorted (events : List ArenaEvent) : Prop where
  sorted : events.Pairwise ArenaEvent.le
  nodup : events.Nodup
  mem : ∀ e, e ∈ events ↔
    ∃ i < S.order.length, S.planned i = true ∧ (e = openOf i ∨ e = S.closeOf i)

variable {S} {i j : ℕ} {e : ArenaEvent} {events pre post : List ArenaEvent}

theorem le_lastPos (h : i < S.order.length) : i ≤ S.lastPos i := by
  unfold lastPos
  split
  · omega
  · exact le_max_right _ _

theorem openOf_ne_closeOf : openOf i ≠ S.closeOf j := fun h =>
  Bool.false_ne_true (congrArg ArenaEvent.isOpen h).symm

theorem closeOf_inj (h : S.closeOf i = S.closeOf j) : i = j := congrArg ArenaEvent.ordIdx h

theorem openOf_inj (h : openOf i = openOf j) : i = j := congrArg ArenaEvent.ordIdx h

theorem mem_arenaEvents : e ∈ S.arenaEvents ↔
    ∃ i < S.order.length, S.planned i = true ∧ (e = openOf i ∨ e = S.closeOf i) := by
  unfold arenaEvents
  rw [List.mem_flatMap]
  constructor
  · rintro ⟨i, hi, he⟩
    split at he
    · next hp =>
      refine ⟨i, List.mem_range.mp hi, hp, ?_⟩
      simpa [openOf, closeOf] using he
    · cases he
  · rintro ⟨i, hi, hp, he⟩
    refine ⟨i, List.mem_range.mpr hi, ?_⟩
    rw [if_pos hp]
    simpa [openOf, closeOf] using he

theorem nodup_arenaEvents : S.arenaEvents.Nodup := by
  unfold arenaEvents
  rw [List.nodup_flatMap]
  refine ⟨fun i _ => ?_, ?_⟩
  · split
    · simp
    · exact List.nodup_nil
  · refine List.nodup_range.imp fun hij => ?_
    have hord : ∀ k (e : ArenaEvent), e ∈ (if S.planned k = true then
        [(⟨k, k, true⟩ : ArenaEvent), ⟨S.lastPos k + 1, k, false⟩] else []) → e.ordIdx = k := by
      intro k e he
      split at he
      · rcases List.mem_cons.mp he with rfl | he
        · rfl
        · rw [List.mem_singleton.mp he]
      · cases he
    exact fun e hi hj => hij ((hord _ e hi).symm.trans (hord _ e hj))

theorem sorted_arenaSortEvents : S.Sorted (arenaSortEvents S.arenaEvents) where
  sorted := List.pairwise_insertionSort _ _
  nodup := (List.perm_insertionSort _ _).nodup_iff.mpr nodup_arenaEvents
  mem := fun _ => ((List.perm_insertionSort _ _).mem_iff).trans mem_arenaEvents

theorem Sorted.notMem (h : S.Sorted (pre ++ e :: post)) : e ∉ pre := fun hmem =>
  List.disjoint_of_nodup_append h.nodup hmem List.mem_cons_self

/-- What is closed before another boundary opens was last read before it. -/
theorem Sorted.closed_before (h : S.Sorted (pre ++ openOf j :: post)) (hi : S.closeOf i ∈ pre) :
    S.lastPos i < j := by
  have hle := (List.pairwise_append.mp h.sorted).2.2 _ hi _ List.mem_cons_self
  rcases hle with hlt | ⟨-, ho⟩
  · exact Nat.lt_of_succ_lt hlt
  · exact absurd (ho rfl) Bool.false_ne_true

/-- A boundary is opened before it is closed. -/
theorem Sorted.opened_before (h : S.Sorted (pre ++ S.closeOf i :: post)) : openOf i ∈ pre := by
  obtain ⟨k, hk, hp, he⟩ := (h.mem (S.closeOf i)).mp (List.mem_append_right _ List.mem_cons_self)
  obtain rfl : i = k := by
    rcases he with he | he
    · exact absurd he.symm openOf_ne_closeOf
    · exact closeOf_inj he
  have hopen := (h.mem (openOf i)).mpr ⟨i, hk, hp, .inl rfl⟩
  rcases List.mem_append.mp hopen with hpre | hpost
  · exact hpre
  · have htail := (List.mem_cons.mp hpost).resolve_left openOf_ne_closeOf
    have hle := List.rel_of_pairwise_cons (List.pairwise_append.mp h.sorted).2.1 htail
    have hlast := le_lastPos hk
    rcases hle with hlt | ⟨heq, -⟩
    · exact absurd (Nat.lt_of_succ_lt hlt) (Nat.not_lt_of_le hlast)
    · have heq' : S.lastPos i + 1 = i := heq
      omega

/-! ## Sizes -/

theorem shapeNumel_lt (dims : List ℕ) : shapeNumel dims < 2 ^ 32 := by
  unfold shapeNumel
  induction dims using List.reverseRecOn with
  | nil => decide
  | append_singleton dims d ih =>
    rw [List.foldl_append]
    exact Nat.mod_lt _ (by decide)

theorem dtypeStorageBytes_le (dt : Dtype) (numel : ℕ) : dtypeStorageBytes dt numel ≤ 8 * numel := by
  have hsize : dt.itemsize ≤ 8 := by cases dt <;> decide
  unfold dtypeStorageBytes
  split
  · omega
  · calc numel * dt.itemsize % 2 ^ 64 ≤ numel * dt.itemsize := Nat.mod_le _ _
      _ ≤ numel * 8 := Nat.mul_le_mul_left numel hsize
      _ = 8 * numel := Nat.mul_comm _ _

theorem arenaBoundaryNbytes_lt (i : ℕ) : S.arenaBoundaryNbytes i < 2 ^ 35 := by
  unfold arenaBoundaryNbytes
  split
  · decide
  · dsimp only
    split
    · decide
    · next dims _ =>
      refine (dtypeStorageBytes_le _ _).trans_lt ?_
      have hlt := shapeNumel_lt dims
      omega

/-- The rounded size that is asked for. -/
def want (S : Pass) (i : ℕ) : ℕ := tlsfRoundUp (S.arenaBoundaryNbytes i) tlsfBlockSize

theorem nbytes_le_want : S.arenaBoundaryNbytes i ≤ S.want i :=
  (roundUp_spec (by decide) (by
    have hlt := @arenaBoundaryNbytes_lt S i
    unfold tlsfBlockSize
    omega)).1

theorem fits_want : Fits (S.want i) := by
  have hlt := @arenaBoundaryNbytes_lt S i
  have hle := (roundUp_spec (by decide : 0 < tlsfBlockSize) (by unfold tlsfBlockSize; omega)).2.2
    (2 ^ 35) ⟨2 ^ 27, by decide⟩ hlt.le
  unfold Fits want
  omega

/-! ## The replay -/

/-- What holds after the events of `pre`: the boundaries that are open and not closed
hold their blocks. -/
structure Kept (S : Pass) (total : ℕ) (pre : List ArenaEvent) (r : Replay) (live : List (ℕ × ℕ)) :
    Prop where
  inv : ∃ blocks, Inv total False ⟨r.tlsf, live⟩ blocks
  opened : ∀ i, (r.slots i).inArena = true ↔ openOf i ∈ pre
  sized : ∀ i, openOf i ∈ pre → (r.slots i).nbytes = S.arenaBoundaryNbytes i
  held : ∀ i, openOf i ∈ pre → S.closeOf i ∉ pre → ((r.slots i).offset, S.want i) ∈ live
  distinct : ∀ i j, i ≠ j → openOf i ∈ pre → S.closeOf i ∉ pre → openOf j ∈ pre →
    S.closeOf j ∉ pre → (r.slots i).offset ≠ (r.slots j).offset
  apart : ∀ i j, i ≠ j → openOf i ∈ pre → openOf j ∈ pre → i ≤ S.lastPos j → j ≤ S.lastPos i →
    (r.slots i).offset + S.arenaBoundaryNbytes i ≤ (r.slots j).offset ∨
      (r.slots j).offset + S.arenaBoundaryNbytes j ≤ (r.slots i).offset
  top : ∀ i, openOf i ∈ pre → (r.slots i).offset + S.arenaBoundaryNbytes i ≤ r.peak
  peak : r.peak ≤ total

variable {total off : ℕ} {r r' : Replay} {live : List (ℕ × ℕ)} {tlsf : TlsfAllocator}

theorem kept_init (h : tlsfInit total = .ok tlsf) :
    S.Kept total [] ⟨tlsf, fun _ => ⟨0, 0, false⟩, 0⟩ [] where
  inv := inv_init h
  opened := by simp
  sized := by simp
  held := by simp
  distinct := by simp
  apart := by simp
  top := by simp
  peak := Nat.zero_le total

theorem Kept.of_open (h : S.Kept total pre r live) (hs : S.Sorted (pre ++ openOf j :: post))
    (hcall : tlsfAlloc r.tlsf (S.want j) = .ok (tlsf, off)) (hoff : off ≠ oom) :
    S.Kept total (pre ++ [openOf j])
      ⟨tlsf, Function.update r.slots j ⟨off, S.arenaBoundaryNbytes j, true⟩,
        max (off + S.arenaBoundaryNbytes j) r.peak⟩ ((off, S.want j) :: live) := by
  obtain ⟨blocks, hinv⟩ := h.inv
  have hfits : (Op.alloc (S.want j)).Asks Fits := fits_want
  obtain ⟨blocks', hinv'⟩ := inv_step hinv hfits False.elim (.alloc hcall hoff)
  have hnew : openOf j ∉ pre := hs.notMem
  have hold : ∀ {k}, openOf k ∈ pre → k ≠ j := by
    rintro k hk rfl
    exact hnew hk
  have hmem : ∀ {k}, openOf k ∈ pre ++ [openOf j] ↔ openOf k ∈ pre ∨ k = j := by
    intro k
    rw [List.mem_append, List.mem_singleton]
    exact or_congr_right ⟨openOf_inj, fun hk => hk ▸ rfl⟩
  have hclose : ∀ {k}, S.closeOf k ∈ pre ++ [openOf j] ↔ S.closeOf k ∈ pre := by
    intro k
    rw [List.mem_append, List.mem_singleton]
    exact or_iff_left fun hk => openOf_ne_closeOf hk.symm
  -- the new block against a block that is still held
  have hfresh : ∀ k, openOf k ∈ pre → S.closeOf k ∉ pre → off ≠ (r.slots k).offset ∧
      (off + S.arenaBoundaryNbytes j ≤ (r.slots k).offset ∨
        (r.slots k).offset + S.arenaBoundaryNbytes k ≤ off) := by
    intro k hk hc
    have hheld := h.held k hk hc
    have hd := List.rel_of_pairwise_cons hinv'.disjoint hheld
    have hnodup := (List.nodup_cons.mp hinv'.lives.nodup).1
    have hj := nbytes_le_want.trans (atLeastBlock_spec (S.want j)).1
    have hk := nbytes_le_want.trans (atLeastBlock_spec (S.want k)).1
    refine ⟨fun he => hnodup ?_, ?_⟩
    · rw [he]
      exact List.mem_map.mpr ⟨_, hheld, rfl⟩
    · dsimp only at hd
      omega
  refine ⟨⟨blocks', hinv'⟩, fun k => ?_, fun k hk => ?_, fun k hk hc => ?_,
    fun k l hne hk hck hl hcl => ?_, fun k l hne hk hl hkl hlk => ?_, fun k hk => ?_, ?_⟩
  · rw [hmem]
    by_cases hkj : k = j
    · simp [hkj]
    · simp only [Function.update_of_ne hkj, h.opened, hkj, or_false]
  · by_cases hkj : k = j
    · simp [hkj]
    · simp only [Function.update_of_ne hkj]
      exact h.sized k ((hmem.mp hk).resolve_right hkj)
  · by_cases hkj : k = j
    · subst hkj
      simp
    · simp only [Function.update_of_ne hkj]
      exact List.mem_cons_of_mem _
        (h.held k ((hmem.mp hk).resolve_right hkj) fun hc' => hc (hclose.mpr hc'))
  · rw [hclose] at hck hcl
    rcases hmem.mp hk with hk' | rfl <;> rcases hmem.mp hl with hl' | rfl
    · simp only [Function.update_of_ne (hold hk'), Function.update_of_ne (hold hl')]
      exact h.distinct k l hne hk' hck hl' hcl
    · simp only [Function.update_of_ne (hold hk'), Function.update_self]
      exact (hfresh k hk' hck).1.symm
    · simp only [Function.update_of_ne (hold hl'), Function.update_self]
      exact (hfresh l hl' hcl).1
    · exact absurd rfl hne
  · -- whatever meets the new lifetime has not been closed
    have hopen : ∀ k, j ≤ S.lastPos k → S.closeOf k ∉ pre := fun k hjk hc =>
      absurd (hs.closed_before hc) (Nat.not_lt_of_le hjk)
    rcases hmem.mp hk with hk' | rfl <;> rcases hmem.mp hl with hl' | rfl
    · simp only [Function.update_of_ne (hold hk'), Function.update_of_ne (hold hl')]
      exact h.apart k l hne hk' hl' hkl hlk
    · simp only [Function.update_of_ne (hold hk'), Function.update_self]
      exact (hfresh k hk' (hopen k hlk)).2.symm
    · simp only [Function.update_of_ne (hold hl'), Function.update_self]
      exact (hfresh l hl' (hopen l hkl)).2
    · exact absurd rfl hne
  · rcases hmem.mp hk with hk | rfl
    · simp only [Function.update_of_ne (hold hk)]
      exact (h.top k hk).trans (le_max_right _ _)
    · simp only [Function.update_self]
      exact le_max_left _ _
  · obtain ⟨b, hb, -, hstart, hsize⟩ := hinv'.lives.block _ List.mem_cons_self
    have hbound := (hinv'.sound.layout.tiles.mem_bounds hb).2.2
    rw [hinv'.total, hstart, hsize] at hbound
    have hj := nbytes_le_want.trans (atLeastBlock_spec (S.want j)).1
    dsimp only at hbound
    exact max_le (by omega) h.peak

theorem Kept.of_close (h : S.Kept total pre r live) (hs : S.Sorted (pre ++ S.closeOf j :: post))
    (hcall : tlsfFree r.tlsf (r.slots j).offset = .ok tlsf) :
    S.Kept total (pre ++ [S.closeOf j]) { r with tlsf := tlsf }
      (live.erase ((r.slots j).offset, S.want j)) := by
  obtain ⟨blocks, hinv⟩ := h.inv
  have hopen := hs.opened_before
  have hheld := h.held j hopen hs.notMem
  have hmem : ∀ {k}, openOf k ∈ pre ++ [S.closeOf j] ↔ openOf k ∈ pre := by
    intro k
    rw [List.mem_append, List.mem_singleton]
    exact or_iff_left openOf_ne_closeOf
  have hclose : ∀ {k}, S.closeOf k ∉ pre ++ [S.closeOf j] → S.closeOf k ∉ pre ∧ k ≠ j := by
    intro k hk
    rw [List.mem_append, List.mem_singleton, not_or] at hk
    exact ⟨hk.1, fun he => hk.2 (he ▸ rfl)⟩
  have hasks : (Op.free (r.slots j).offset).Asks Fits := trivial
  refine ⟨inv_step hinv hasks False.elim (.free hheld hcall), fun k => ?_,
    fun k hk => h.sized k (hmem.mp hk), fun k hk hc => ?_, fun k l hne hk hck hl hcl => ?_,
    fun k l hne hk hl => h.apart k l hne (hmem.mp hk) (hmem.mp hl),
    fun k hk => h.top k (hmem.mp hk), h.peak⟩
  · rw [hmem]
    exact h.opened k
  · obtain ⟨hc, hkj⟩ := hclose hc
    have hkept := h.held k (hmem.mp hk) hc
    refine (List.mem_erase_of_ne fun he => ?_).mpr hkept
    exact h.distinct k j hkj (hmem.mp hk) hc hopen hs.notMem (congrArg Prod.fst he)
  · exact h.distinct k l hne (hmem.mp hk) (hclose hck).1 (hmem.mp hl) (hclose hcl).1

theorem replayEvent_open : S.replayEvent r (openOf i) =
    (tlsfAlloc r.tlsf (S.want i)).bind fun (tlsf, off) =>
      if off = oom then .ok none
      else .ok (some ⟨tlsf, Function.update r.slots i ⟨off, S.arenaBoundaryNbytes i, true⟩,
        max (off + S.arenaBoundaryNbytes i) r.peak⟩) := rfl

theorem replayEvent_close : S.replayEvent r (S.closeOf i) =
    (tlsfFree r.tlsf (r.slots i).offset).bind fun tlsf => .ok (some { r with tlsf := tlsf }) := rfl

theorem Kept.event (h : S.Kept total pre r live) (hs : S.Sorted (pre ++ e :: post))
    (hstep : S.replayEvent r e = .ok (some r')) : ∃ live', S.Kept total (pre ++ [e]) r' live' := by
  obtain ⟨i, -, -, rfl | rfl⟩ := (hs.mem e).mp (List.mem_append_right _ List.mem_cons_self)
  · rw [replayEvent_open] at hstep
    cases hcall : tlsfAlloc r.tlsf (S.want i) with
    | error stop => simp [hcall, Except.bind] at hstep
    | ok result =>
      obtain ⟨tlsf, off⟩ := result
      by_cases hoff : off = oom
      · simp [hcall, Except.bind, hoff] at hstep
      · simp only [hcall, Except.bind, hoff, if_false, Except.ok.injEq, Option.some.injEq] at hstep
        exact ⟨_, hstep ▸ h.of_open hs hcall hoff⟩
  · rw [replayEvent_close] at hstep
    cases hcall : tlsfFree r.tlsf (r.slots i).offset with
    | error stop => simp [hcall, Except.bind] at hstep
    | ok tlsf =>
      simp only [hcall, Except.bind, Except.ok.injEq, Option.some.injEq] at hstep
      exact ⟨_, hstep ▸ h.of_close hs hcall⟩

/-- The replay ends without slots or with all that the events open. -/
theorem Kept.replay {plan : Plan} (h : S.Kept total pre r live) (hs : S.Sorted (pre ++ post))
    (hrun : S.replay post r = .ok plan) : plan = arenaReset ∨
      ∃ r' live', S.Kept total (pre ++ post) r' live' ∧
        plan = ⟨r'.slots, tlsfRoundUp r'.peak tlsfBlockSize⟩ := by
  induction post generalizing pre r live with
  | nil =>
    rw [List.append_nil]
    exact .inr ⟨r, live, h, (Except.ok.inj hrun).symm⟩
  | cons e post ih =>
    cases hstep : S.replayEvent r e with
    | error stop => simp [Pass.replay, hstep, bind, Except.bind] at hrun
    | ok result =>
      cases result with
      | none =>
        simp only [Pass.replay, hstep, bind, Except.bind, Except.ok.injEq] at hrun
        exact .inl hrun.symm
      | some r' =>
        simp only [Pass.replay, hstep, bind, Except.bind] at hrun
        obtain ⟨live', h'⟩ := h.event hs hstep
        rw [List.append_cons] at hs ⊢
        exact ih h' hs hrun

/-- The plan of a pass: all planned boundaries have their slots or none has, slots whose
lifetimes meet do not share a byte, and all lie in the arena. -/
structure Safe (S : Pass) (plan : Plan) : Prop where
  assigned : (∀ i, (plan.slots i).inArena = false) ∨
    ∀ i, (plan.slots i).inArena = true ↔ i < S.order.length ∧ S.planned i = true
  sized : ∀ i, (plan.slots i).inArena = true → (plan.slots i).nbytes = S.arenaBoundaryNbytes i
  disjoint : ∀ i j, i ≠ j → (plan.slots i).inArena = true → (plan.slots j).inArena = true →
    i ≤ S.lastPos j → j ≤ S.lastPos i →
    (plan.slots i).offset + (plan.slots i).nbytes ≤ (plan.slots j).offset ∨
      (plan.slots j).offset + (plan.slots j).nbytes ≤ (plan.slots i).offset
  within : ∀ i, (plan.slots i).inArena = true →
    (plan.slots i).offset + (plan.slots i).nbytes ≤ plan.size

theorem safe_reset : S.Safe arenaReset :=
  ⟨.inl fun _ => rfl, by simp [arenaReset], by simp [arenaReset], by simp [arenaReset]⟩

theorem Kept.safe (h : S.Kept total events r live) (hs : S.Sorted events) :
    S.Safe ⟨r.slots, tlsfRoundUp r.peak tlsfBlockSize⟩ := by
  obtain ⟨blocks, hinv⟩ := h.inv
  have hlt : total < 2 ^ 63 := by
    rw [← hinv.total]
    exact (bitLength_le 63 _).mp (Nat.le_of_lt_succ hinv.classed)
  have hpeak := h.peak
  have hround := (roundUp_spec (v := r.peak) (by decide : 0 < tlsfBlockSize) (by
    unfold tlsfBlockSize
    omega)).1
  refine ⟨.inr fun i => ?_, fun i hi => h.sized i ((h.opened i).mp hi),
    fun i j hne hi hj hij hji => ?_, fun i hi => ?_⟩
  · refine (h.opened i).trans ((hs.mem _).trans ⟨?_, fun hp => ⟨i, hp.1, hp.2, .inl rfl⟩⟩)
    rintro ⟨k, hk, hp, he | he⟩
    · exact openOf_inj he ▸ ⟨hk, hp⟩
    · exact absurd he openOf_ne_closeOf
  · rw [h.opened] at hi hj
    rw [h.sized i hi, h.sized j hj]
    exact h.apart i j hne hi hj hij hji
  · rw [h.opened] at hi
    rw [h.sized i hi]
    exact (h.top i hi).trans hround

theorem arenaCompute_safe {plan : Plan} (h : S.arenaCompute = .ok plan) : S.Safe plan := by
  unfold arenaCompute at h
  split at h
  · exact Except.ok.inj h ▸ safe_reset
  split at h
  · exact Except.ok.inj h ▸ safe_reset
  split at h
  · exact Except.ok.inj h ▸ safe_reset
  cases hinit : tlsfInit (tlsfRoundUp (S.arenaTotal * 2 % 2 ^ 64) tlsfBlockSize) with
  | error stop =>
    rw [hinit] at h
    cases h
  | ok tlsf =>
    rw [hinit] at h
    rcases (kept_init hinit).replay sorted_arenaSortEvents h with rfl | ⟨r, live, hkept, rfl⟩
    · exact safe_reset
    · exact hkept.safe sorted_arenaSortEvents

end Pass

end Thvm.ArenaPlan
